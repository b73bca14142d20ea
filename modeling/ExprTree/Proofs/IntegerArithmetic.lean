import ExprTree.Operator.Binary
import Mathlib.Data.Int.ModEq

/-! Integer operators against exact arithmetic: words are congruent to the exact results or equal to
them, and an exception is raised where there is no such word. -/
namespace ExprTree

namespace Word

variable {k : IntKind} {a b : Word k} {n m : Int}

/-! ### Reduction into the range -/

theorem wrap_modEq : (wrap k n).toInt ≡ n [ZMOD k.modulus] := by
  have h : (n - k.min) % k.modulus + k.min ≡ n - k.min + k.min [ZMOD k.modulus] :=
    (Int.mod_modEq _ _).add_right _
  rwa [Int.sub_add_cancel] at h

theorem wrap_congr (h : n ≡ m [ZMOD k.modulus]) : wrap k n = wrap k m := by
  have h : n - k.min ≡ m - k.min [ZMOD k.modulus] := h.sub_right _
  apply ext
  exact congrArg (· + k.min) h

/-- Only one word is congruent to an integer. -/
theorem eq_wrap_iff : a = wrap k n ↔ a.toInt ≡ n [ZMOD k.modulus] := by
  constructor
  · rintro rfl
    exact wrap_modEq
  · intro h
    rw [← wrap_congr h, wrap_toInt]

theorem wrap_of_ofInt? (h : ofInt? k n = some a) : wrap k n = a := by
  rw [← ofInt?_eq_some.mp h, wrap_toInt]

theorem mul_modEq : (a.mul b).toInt ≡ a.toInt * b.toInt [ZMOD k.modulus] := wrap_modEq

theorem pow_modEq {e : Nat} : (a.pow e).toInt ≡ a.toInt ^ e [ZMOD k.modulus] := by
  induction e using Nat.strong_induction_on generalizing a with
  | _ e ih =>
    rw [pow]
    split
    · rename_i he
      subst he
      rw [pow_zero]
      exact wrap_modEq
    · rename_i he
      -- half the exponent of the square
      have hhalf : ((a.mul a).pow (e / 2)).toInt ≡ a.toInt ^ (2 * (e / 2)) [ZMOD k.modulus] := by
        rw [pow_mul, pow_two]
        exact (ih _ (by omega)).trans (mul_modEq.pow _)
      dsimp only
      split
      · have hodd : a.toInt ^ e = a.toInt * a.toInt ^ (2 * (e / 2)) := by
          rw [← pow_succ']
          congr
          omega
        rw [hodd]
        exact mul_modEq.trans (hhalf.mul_left _)
      · have heven : 2 * (e / 2) = e := by omega
        rwa [heven] at hhalf

/-! ### Division -/

/-- Only the smallest word has no negative. -/
theorem tdiv_range (hb : b.toInt ≠ 0) :
    k.min ≤ a.toInt.tdiv b.toInt ∧ a.toInt.tdiv b.toInt ≤ k.max ↔
      ¬(k.signed ∧ a.toInt = k.min ∧ b.toInt = -1) := by
  have ha := a.min_le
  have ha' := a.le_max
  have hb' := b.min_le
  by_cases hone : b.toInt = 1
  · rw [hone, Int.tdiv_one]
    simp [ha, ha']
  by_cases hneg : b.toInt = -1
  · rw [hneg, Int.tdiv_neg, Int.tdiv_one]
    cases k <;> simp [IntKind.min, IntKind.max, IntKind.modulus, IntKind.signed] at * <;> omega
  · have habs : (a.toInt.tdiv b.toInt).natAbs ≤ a.toInt.natAbs / 2 := by
      rw [Int.natAbs_tdiv]
      exact Nat.div_le_div_left (by omega) (by decide)
    have hunsigned : k.signed = false → 0 ≤ a.toInt.tdiv b.toInt := by
      intro h
      refine Int.tdiv_nonneg ?_ ?_ <;> cases k <;> simp_all [IntKind.signed, IntKind.min]
    simp only [hneg, and_false, not_false_eq_true, iff_true]
    generalize a.toInt.tdiv b.toInt = q at *
    cases k <;> simp [IntKind.min, IntKind.max, IntKind.modulus, IntKind.signed] at * <;> omega

/-- The remainder is between zero and the dividend. -/
theorem tmod_range : k.min ≤ a.toInt.tmod b.toInt ∧ a.toInt.tmod b.toInt ≤ k.max := by
  have ha := a.min_le
  have ha' := a.le_max
  have hmin := k.min_le_zero
  have hmax := k.zero_le_max
  have habs : (a.toInt.tmod b.toInt).natAbs ≤ a.toInt.natAbs := by
    rw [Int.natAbs_tmod]
    exact Nat.mod_le _ _
  rcases Int.le_total 0 a.toInt with h | h
  · have hnonneg := Int.tmod_nonneg b.toInt h
    omega
  · have hnonneg := Int.tmod_nonneg b.toInt (Int.neg_nonneg.mpr h)
    rw [Int.neg_tmod] at hnonneg
    omega

theorem abs_tmod_lt (hb : b.toInt ≠ 0) : |a.toInt.tmod b.toInt| < |b.toInt| := by
  rw [Int.abs_eq_natAbs, Int.abs_eq_natAbs, Int.natAbs_tmod, Int.ofNat_lt]
  exact Nat.mod_lt _ (Int.natAbs_pos.mpr hb)

theorem tmod_sign : a.toInt.tmod b.toInt = 0 ∨ (a.toInt.tmod b.toInt).sign = a.toInt.sign := by
  have h := Int.sign_tmod a.toInt b.toInt
  split at h
  · exact .inl (Int.sign_eq_zero_iff_zero.mp h)
  · exact .inr h

theorem ofInt?_eq_none : ofInt? k n = none ↔ ¬(k.min ≤ n ∧ n ≤ k.max) := by
  rw [ofInt?]
  split <;> simp_all

theorem div?_eq_none (hb : b.toInt ≠ 0) :
    a.div? b = none ↔ k.signed ∧ a.toInt = k.min ∧ b.toInt = -1 := by
  rw [div?, ofInt?_eq_none, tdiv_range hb, Decidable.not_not]

theorem rem?_eq_none (hb : b.toInt ≠ 0) :
    a.rem? b = none ↔ k.signed ∧ a.toInt = k.min ∧ b.toInt = -1 := by
  rw [← div?_eq_none hb, rem?]
  split
  · rename_i h
    rw [ofInt?_eq_none]
    exact iff_of_false (not_not_intro tmod_range) (Option.isSome_iff_ne_none.mp h)
  · rename_i h
    exact iff_of_true rfl (Option.not_isSome_iff_eq_none.mp h)

theorem rem?_toInt {c : Word k} (h : a.rem? b = some c) : c.toInt = a.toInt.tmod b.toInt := by
  rw [rem?] at h
  split at h
  · exact ofInt?_eq_some.mp h
  · cases h

/-! ### Bits -/

theorem ofInt_eq_of_modEq (h : n ≡ m [ZMOD k.modulus]) :
    BitVec.ofInt k.bits n = BitVec.ofInt k.bits m := by
  apply BitVec.eq_of_toNat_eq
  rw [BitVec.toNat_ofInt, BitVec.toNat_ofInt]
  have h : n % k.modulus = m % k.modulus := h
  rw [k.modulus_eq] at h
  exact congrArg _ h

theorem ofInt_pattern : BitVec.ofNat k.bits a.pattern = BitVec.ofInt k.bits a.toInt := by
  rw [← BitVec.ofInt_natCast, pattern,
    Int.toNat_of_nonneg (Int.emod_nonneg _ (Int.ne_of_gt k.modulus_pos))]
  exact ofInt_eq_of_modEq (Int.mod_modEq _ _)

/-- An operator on patterns is the one on bits. -/
theorem ofInt_wrap_bits {f : Nat → Nat → Nat} {g : BitVec k.bits → BitVec k.bits → BitVec k.bits}
    (h : ∀ x y, BitVec.ofNat k.bits (f x y) = g (.ofNat k.bits x) (.ofNat k.bits y)) :
    BitVec.ofInt k.bits (wrap k (f a.pattern b.pattern : Nat)).toInt =
      g (.ofInt k.bits a.toInt) (.ofInt k.bits b.toInt) := by
  rw [ofInt_eq_of_modEq wrap_modEq, BitVec.ofInt_natCast, h, ofInt_pattern, ofInt_pattern]

/-! ### Shifts -/

/-- The width divides the number of counts, which may so be reduced before. -/
theorem shiftCount_wrap : shiftCount k (wrap .i32 n).toInt = shiftCount k n := by
  have hdvd : (k.bits : Int) ∣ IntKind.i32.modulus := by cases k <;> decide
  have h : (wrap .i32 n).toInt ≡ n [ZMOD k.bits] := wrap_modEq.of_dvd hdvd
  exact congrArg Int.toNat h

theorem shiftLeft_eq : a.shiftLeft n = wrap k (a.toInt * 2 ^ (n % k.bits).toNat) := by
  simp [shiftLeft, shiftCount]

/-- A shift to the right stays in range. -/
theorem shiftRight_eq : (a.shiftRight n).toInt = a.toInt.fdiv (2 ^ (n % k.bits).toNat) := by
  have hpos : (0 : Int) < (Nat.pow 2 (shiftCount k n) : Nat) :=
    Int.natCast_pos.mpr (Nat.pow_pos (by decide))
  rw [shiftRight, wrap_of_range,
    Int.fdiv_eq_ediv_of_nonneg _ (Int.le_of_lt (Int.pow_pos (by decide)))]
  · simp [shiftCount]
  · have hmin : k.min * (Nat.pow 2 (shiftCount k n) : Nat) ≤ k.min * 1 :=
      Int.mul_le_mul_of_nonpos_left k.min_le_zero hpos
    rw [mul_one] at hmin
    exact Int.le_ediv_of_mul_le hpos (hmin.trans a.min_le)
  · have hmax : k.max * 1 ≤ k.max * (Nat.pow 2 (shiftCount k n) : Nat) :=
      Int.mul_le_mul_of_nonneg_left hpos k.zero_le_max
    rw [mul_one] at hmax
    exact Int.ediv_le_of_le_mul hpos (a.le_max.trans hmax)

end Word

/-! ### Operators -/

section

variable {k : IntKind} {r : Except Fault Value}

/-- The result is an integer of the kind with the property. -/
def Yields (k : IntKind) (P : Int → Prop) (r : Except Fault Value) : Prop :=
  ∃ c : Word k, r = .ok (.int k c) ∧ P c.toInt

def Overflows (r : Except Fault Value) : Prop := ∃ operation, r = .error (.overflow operation)

/-- The result is the integer reduced into the range. -/
def Wraps (k : IntKind) (n : Int) : Except Fault Value → Prop := Yields k (· ≡ n [ZMOD 2 ^ k.bits])

/-- The result is the integer itself, or an exception where it is out of range. -/
structure Fits (k : IntKind) (n : Int) (r : Except Fault Value) : Prop where
  overflows : Overflows r ↔ ¬(k.min ≤ n ∧ n ≤ k.max)
  exact : k.min ≤ n ∧ n ≤ k.max → Yields k (· = n) r

/-- The result is that of a division of the one by the other, which is undefined for a divisor of
zero and for the quotient that is out of range. -/
structure Divides (a b : Word k) (P : Int → Prop) (r : Except Fault Value) : Prop where
  byZero : r = .error .divideByZero ↔ b.toInt = 0
  overflows : Overflows r ↔ k.signed ∧ a.toInt = k.min ∧ b.toInt = -1
  exact : b.toInt ≠ 0 → ¬(k.signed ∧ a.toInt = k.min ∧ b.toInt = -1) → Yields k P r

/-- The result is the power reduced into the range, for exponents of 32 unsigned bits. -/
structure Powers (a b : Word k) (r : Except Fault Value) : Prop where
  overflows : Overflows r ↔ b.toInt < 0 ∨ 2 ^ 32 - 1 < b.toInt
  exact : 0 ≤ b.toInt → b.toInt ≤ 2 ^ 32 - 1 → Wraps k (a.toInt ^ b.toInt.toNat) r

variable {a b : Word k} {n : Int} {P : Int → Prop} {operation : String}

theorem Yields.not_overflows (h : Yields k P r) : ¬Overflows r := by
  rintro ⟨operation, ho⟩
  obtain ⟨c, hc, -⟩ := h
  exact nomatch hc.symm.trans ho

theorem wraps_wrap : Wraps k n (.ok (.int k (.wrap k n))) := by
  refine ⟨_, rfl, ?_⟩
  have h := Word.wrap_modEq (k := k) (n := n)
  rwa [k.modulus_eq] at h

theorem fits_ofInt? : Fits k n ((orOverflow (Word.ofInt? k n) operation).map (.int k)) := by
  by_cases h : k.min ≤ n ∧ n ≤ k.max
  · have hyields : Yields k (· = n) ((orOverflow (Word.ofInt? k n) operation).map (.int k)) := by
      rw [Word.ofInt?, dif_pos h]
      exact ⟨_, rfl, rfl⟩
    exact ⟨iff_of_false hyields.not_overflows (not_not_intro h), fun _ => hyields⟩
  · rw [Word.ofInt?, dif_neg h]
    exact ⟨iff_of_true ⟨operation, rfl⟩ h, fun hin => absurd hin h⟩

/-- A divisor of zero is seen first. -/
theorem divides_orOverflow {o : Option (Word k)}
    (hnone : b.toInt ≠ 0 → (o = none ↔ k.signed ∧ a.toInt = k.min ∧ b.toInt = -1))
    (hsome : b.toInt ≠ 0 → ∀ c ∈ o, P c.toInt) :
    Divides a b P
      ((if b.toInt = 0 then .error .divideByZero else orOverflow o operation).map (.int k)) := by
  by_cases hb : b.toInt = 0
  · rw [if_pos hb]
    refine ⟨iff_of_true rfl hb, iff_of_false ?_ (by omega), fun hne => absurd hb hne⟩
    rintro ⟨operation, ho⟩
    exact nomatch ho
  rw [if_neg hb]
  cases o with
  | none =>
    have ho := (hnone hb).mp rfl
    exact ⟨iff_of_false nofun hb, iff_of_true ⟨operation, rfl⟩ ho, fun _ hne => absurd ho hne⟩
  | some c =>
    have ho := (hnone hb).not.mp (Option.some_ne_none c)
    have hyields : Yields k P (.ok (.int k c)) := ⟨c, rfl, hsome hb c rfl⟩
    exact ⟨iff_of_false nofun hb, iff_of_false hyields.not_overflows ho, fun _ _ => hyields⟩

theorem powers_pow : Powers a b ((a.arith .power b).map (.int k)) := by
  rw [Word.arith]
  by_cases h : 0 ≤ b.toInt ∧ b.toInt < 4294967296
  · rw [if_pos h]
    have hwraps : Wraps k (a.toInt ^ b.toInt.toNat) (.ok (.int k (a.pow b.toInt.toNat))) := by
      refine ⟨_, rfl, ?_⟩
      have hpow := Word.pow_modEq (a := a) (e := b.toInt.toNat)
      rwa [k.modulus_eq] at hpow
    exact ⟨iff_of_false hwraps.not_overflows (by omega), fun _ _ => hwraps⟩
  · rw [if_neg h]
    exact ⟨iff_of_true ⟨_, rfl⟩ (by omega), by omega⟩

end

/-- On its way to another kind an integer is wrapped. -/
theorem Value.coerce_int {j : IntKind} (b : Word j) (k : IntKind) :
    (Value.int j b).coerce (.int k) = .ok (.int k (.wrap k b.toInt)) := by
  by_cases h : j = k
  · subst h
    rw [Word.wrap_toInt]
    exact if_pos rfl
  · exact if_neg fun hk => h (NumKind.int.inj hk)

/-- An operator on integers is the one on words of the left kind. -/
theorem applyBinary_int {k j : IntKind} {op : Arith} {s : Store} {a : Word k} {b : Word j}
    (hl : op ≠ .shiftLeft) (hr : op ≠ .shiftRight) :
    NodeKind.applyBinary (.binary (.arith op)) s (.int k a) (.int j b) =
        (a.arith op (.wrap k b.toInt)).map (.int k) := by
  have hkind (c : Word k) :
      kindBinary (.binary (.arith op)) (.int k a) (.int k c) = (a.arith op c).map (.int k) :=
    dif_pos rfl
  have hcoerced : NodeKind.applyBinary.coerced (.binary (.arith op)) (.int k a) (.int j b) =
      (a.arith op (.wrap k b.toInt)).map (.int k) := by
    rw [← hkind]
    change ((Value.int j b).coerce (.int k) >>= kindBinary _ _) = _
    rw [Value.coerce_int]
    rfl
  cases op <;> first | contradiction | exact hcoerced

theorem applyBinary_word {k : IntKind} {op : Arith} {s : Store} {a b : Word k}
    (hl : op ≠ .shiftLeft) (hr : op ≠ .shiftRight) :
    NodeKind.applyBinary (.binary (.arith op)) s (.int k a) (.int k b) =
      (a.arith op b).map (.int k) := by
  rw [applyBinary_int hl hr, Word.wrap_toInt]

/-- A count of any kind is reduced to 32 bits first. -/
theorem shift_word {k j : IntKind} {op : Arith} {a : Word k} {n : Word j} :
    shift op (.int k a) (.int j n) =
      .ok (.int k (if op = .shiftLeft then a.shiftLeft n.toInt else a.shiftRight n.toInt)) := by
  have hl : a.shiftLeft (Word.wrap .i32 n.toInt).toInt = a.shiftLeft n.toInt := by
    rw [Word.shiftLeft, Word.shiftCount_wrap]
    rfl
  have hr : a.shiftRight (Word.wrap .i32 n.toInt).toInt = a.shiftRight n.toInt := by
    rw [Word.shiftRight, Word.shiftCount_wrap]
    rfl
  rw [shift, Value.coerce_int, ← hl, ← hr]
  rfl

/-- Integer operators on operands of one kind, and shifts by a count of any kind, do exact
arithmetic as far as the kind has words for it. -/
theorem integer_operators_exact (s : Store) {k : IntKind} (a b : Word k) :
    let apply (op : Arith) := NodeKind.applyBinary (.binary (.arith op)) s (.int k a) (.int k b)
    let bits (c : Word k) := BitVec.ofInt k.bits c.toInt
    let bitwise (x : BitVec k.bits) := Yields k fun n => BitVec.ofInt k.bits n = x
    Wraps k (a.toInt + b.toInt) (apply .add) ∧ Fits k (a.toInt + b.toInt) (apply .addChecked) ∧
      Wraps k (a.toInt - b.toInt) (apply .subtract) ∧
      Fits k (a.toInt - b.toInt) (apply .subtractChecked) ∧
      Wraps k (a.toInt * b.toInt) (apply .multiply) ∧
      Fits k (a.toInt * b.toInt) (apply .multiplyChecked) ∧
      Divides a b (· = a.toInt.tdiv b.toInt) (apply .divide) ∧
      Divides a b (fun r => a.toInt = a.toInt.tdiv b.toInt * b.toInt + r ∧ |r| < |b.toInt| ∧
        (r = 0 ∨ r.sign = a.toInt.sign)) (apply .modulo) ∧
      Powers a b (apply .power) ∧
      bitwise (bits a &&& bits b) (apply .and) ∧ bitwise (bits a ||| bits b) (apply .or) ∧
      bitwise (bits a ^^^ bits b) (apply .xor) ∧
      ∀ (j : IntKind) (n : Word j),
        Wraps k (a.toInt * 2 ^ (n.toInt % k.bits).toNat)
          (NodeKind.applyBinary (.binary (.arith .shiftLeft)) s (.int k a) (.int j n)) ∧
        Yields k (· = a.toInt.fdiv (2 ^ (n.toInt % k.bits).toNat))
          (NodeKind.applyBinary (.binary (.arith .shiftRight)) s (.int k a) (.int j n)) := by
  intro apply bits bitwise
  have happly (op : Arith) (hl : op ≠ .shiftLeft) (hr : op ≠ .shiftRight) :
      apply op = (a.arith op b).map (.int k) := applyBinary_word hl hr
  rw [happly .add nofun nofun, happly .addChecked nofun nofun, happly .subtract nofun nofun,
    happly .subtractChecked nofun nofun, happly .multiply nofun nofun,
    happly .multiplyChecked nofun nofun, happly .divide nofun nofun, happly .modulo nofun nofun,
    happly .power nofun nofun, happly .and nofun nofun, happly .or nofun nofun,
    happly .xor nofun nofun]
  refine ⟨wraps_wrap, fits_ofInt?, wraps_wrap, fits_ofInt?, wraps_wrap, fits_ofInt?,
    divides_orOverflow Word.div?_eq_none fun _ c hc => Word.ofInt?_eq_some.mp hc,
    divides_orOverflow Word.rem?_eq_none fun hb c hc => ?_, powers_pow,
    ⟨_, rfl, Word.ofInt_wrap_bits fun _ _ => BitVec.ofNat_and⟩,
    ⟨_, rfl, Word.ofInt_wrap_bits fun _ _ => BitVec.ofNat_or⟩,
    ⟨_, rfl, Word.ofInt_wrap_bits fun _ _ => BitVec.ofNat_xor⟩, fun j n => ⟨?_, ?_⟩⟩
  · rw [Word.rem?_toInt hc]
    exact ⟨(Int.tdiv_mul_add_tmod ..).symm, Word.abs_tmod_lt hb, Word.tmod_sign⟩
  · rw [NodeKind.applyBinary, shift_word, if_pos rfl, Word.shiftLeft_eq]
    exact wraps_wrap
  · rw [NodeKind.applyBinary, shift_word, if_neg nofun]
    exact ⟨_, rfl, Word.shiftRight_eq⟩

/-- A count that does not fit in 32 bits is one modulo the width. -/
example : NodeKind.applyBinary (.binary (.arith .shiftLeft)) {} (.int .u8 (.wrap .u8 129))
    (.int .i64 (.wrap .i64 (2 ^ 40 + 9))) = .ok (.int .u8 (.wrap .u8 2)) := rfl

end ExprTree
