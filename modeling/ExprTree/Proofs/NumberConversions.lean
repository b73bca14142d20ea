import ExprTree.Proofs.IntegerArithmetic
import ExprTree.Proofs.Numbers

/-! Conversions against the numbers of their operands. A checked conversion to an integer truncates
or raises an exception; an unchecked one wraps an integer, and gives the same as a checked one where
that gives a value. -/
namespace ExprTree

namespace Wide

variable {w : Wide} {k : IntKind} {a : Word k} {v : Value} {n : Int} {checked must : Bool}
  {operation : String}

/-- The check is dropped, or it is one that is always made. -/
theorem integral_of_checked (h : w.integral true operation = .ok (n, must)) :
    must = true ∧ ∃ must', w.integral false operation = .ok (n, must') := by
  cases w with
  | int m =>
    cases h
    exact ⟨rfl, false, rfl⟩
  | float x =>
    rw [integral] at h
    split at h
    · cases h
    · cases h
      exact ⟨rfl, false, rfl⟩
  | decimal d =>
    cases h
    exact ⟨rfl, true, rfl⟩

theorem toWord_eq (h : w.integral checked ("conversion to " ++ k.name) = .ok (n, must)) :
    w.toWord k checked =
      if must then orOverflow (Word.ofInt? k n) ("conversion to " ++ k.name)
      else .ok (.wrap k n) := by
  rw [toWord, h]
  cases must with
  | true =>
    rw [if_pos rfl]
    cases ho : Word.ofInt? k n <;> simp [bind, Except.bind, ho, orOverflow]
  | false => rfl

theorem toChar_eq (h : w.integral checked "conversion to char" = .ok (n, must)) : w.toChar checked =
    if must && !(0 ≤ n && n < 65536) then .error (.overflow "conversion to char")
    else if (n % 65536).toNat.isValidChar then .ok (.char (Char.ofNat (n % 65536).toNat))
    else .error (.overflow "conversion to char") := by
  rw [toChar, h]
  rfl

theorem toWord_of_checked (h : w.toWord k true = .ok a) : w.toWord k false = .ok a := by
  cases hi : w.integral true ("conversion to " ++ k.name) with
  | error x =>
    rw [toWord, hi] at h
    cases h
  | ok p =>
    obtain ⟨n, must⟩ := p
    obtain ⟨rfl, must', hi'⟩ := integral_of_checked hi
    rw [toWord_eq hi, if_pos rfl] at h
    have ha : Word.ofInt? k n = some a := by
      cases ho : Word.ofInt? k n with
      | none =>
        rw [ho] at h
        cases h
      | some b =>
        rw [ho] at h
        cases h
        rfl
    rw [toWord_eq hi']
    cases must' with
    | true => exact h
    | false => exact congrArg Except.ok (Word.wrap_of_ofInt? ha)

theorem toChar_of_checked (h : w.toChar true = .ok v) : w.toChar false = .ok v := by
  cases hi : w.integral true "conversion to char" with
  | error x =>
    rw [toChar, hi] at h
    cases h
  | ok p =>
    obtain ⟨n, must⟩ := p
    obtain ⟨rfl, must', hi'⟩ := integral_of_checked hi
    rw [toChar_eq hi] at h
    rw [toChar_eq hi']
    split at h
    · cases h
    · rename_i hrange
      have hrange' : ¬(must' && !(0 ≤ n && n < 65536)) = true := by
        cases must' <;> simp_all
      rw [if_neg hrange']
      exact h

theorem toNumber_of_checked {kind : NumKind} (h : w.toNumber kind true = .ok v) :
    w.toNumber kind false = .ok v := by
  cases kind with
  | int k =>
    rw [toNumber] at h ⊢
    cases hw : w.toWord k true with
    | error x =>
      rw [hw] at h
      cases h
    | ok a =>
      rw [hw] at h
      rw [toWord_of_checked hw]
      exact h
  | _ => exact h

end Wide

namespace Value

variable {v r : Value} {t : Ty}

theorem convert_of_checked (h : v.convert t true = .ok r) : v.convert t false = .ok r := by
  unfold convert at h ⊢
  split
  · rename_i hv
    rwa [if_pos hv] at h
  · rename_i hv
    rw [if_neg hv] at h
    split
    · rename_i hw hk
      rw [hw, hk] at h
      exact Wide.toNumber_of_checked h
    · rename_i hw hk
      rw [hw, hk] at h
      exact Wide.toChar_of_checked h
    · split at h
      · simp_all
      · simp_all
      · exact h

/-- A checked conversion truncates. -/
theorem convert_number {x : Value} {q : ℚ} (h : x.number? = some q) (k : IntKind) :
    x.convert (.int k) true =
      (orOverflow (Word.ofInt? k (towardZero q)) ("conversion to " ++ k.name)).map (.int k) := by
  obtain ⟨w, hw, hi⟩ :
      ∃ w, Wide.of? x = some w ∧
      ∀ operation, w.integral true operation = .ok (towardZero q, true) := by
    rcases exact_of_number? h with ⟨j, w, rfl, rfl⟩ | ⟨d, rfl, rfl⟩
    · exact ⟨.int w.toInt, rfl, fun _ => by rw [towardZero_intCast]; rfl⟩
    · exact ⟨.decimal d, rfl, fun _ => by rw [← Decimal.truncate_eq]; rfl⟩
  have hconvert : x.convert (.int k) true = w.toNumber (.int k) true := by
    unfold convert
    rw [hw]
    rfl
  rw [hconvert, Wide.toNumber, Wide.toWord_eq (hi _), if_pos rfl]

theorem convert_int {j : IntKind} (w : Word j) (k : IntKind) :
    (Value.int j w).convert (.int k) false = .ok (.int k (.wrap k w.toInt)) := rfl

/-- Out of a decimal every conversion is checked. -/
theorem convert_decimal (d : Decimal) (t : Ty) (checked : Bool) :
    (Value.decimal d).convert t checked = (Value.decimal d).convert t true := by
  cases t <;> rfl

theorem convert_to_decimal {k : IntKind} {d : Decimal} {w : Word k}
    (h : Decimal.ofInt? w.toInt = some d) (checked : Bool) :
    (Value.int k w).convert .decimal checked = .ok (.decimal d) := by
  have hdecimal : (Wide.int w.toInt).toDecimal? = some d := h
  change (Wide.int w.toInt).toNumber .decimal checked = _
  simp only [Wide.toNumber, hdecimal]

theorem convert_decimal_back {k : IntKind} {d : Decimal} {w : Word k} (h : d.number = w.toInt)
    (checked : Bool) : (Value.decimal d).convert (.int k) checked = .ok (.int k w) := by
  have hw : Word.ofInt? k (towardZero d.number) = some w := by
    rw [h, towardZero_intCast]
    exact Word.ofInt?_eq_some.mpr rfl
  rw [convert_decimal, convert_number rfl, hw]
  rfl

end Value

/-- A checked conversion to an integer kind has the truncated number where the kind holds it, and
raises an exception elsewhere. An unchecked one wraps an integer, and out of a decimal it is checked
all the same. Every integer comes back from a decimal. Whatever the value and the target, the value
of a checked conversion is that of the unchecked one. -/
theorem conversions_exact :
    (∀ (x : Value) (q : ℚ), x.number? = some q →
      ∀ k : IntKind, Fits k (towardZero q) (x.convert (.int k) true)) ∧
    (∀ (j k : IntKind) (w : Word j), ∃ c : Word k, (Value.int j w).convert (.int k) false =
      .ok (.int k c) ∧
      ∀ b : Word k, b.toInt ≡ w.toInt [ZMOD 2 ^ k.bits] ↔ b = c) ∧
    (∀ (d : Decimal) (t : Ty), (Value.decimal d).convert t false =
      (Value.decimal d).convert t true) ∧
    (∀ (k : IntKind) (w : Word k) (checked checked' : Bool), ∃ d : Decimal,
      (Value.int k w).convert .decimal checked = .ok (.decimal d) ∧
      (Value.decimal d).convert (.int k) checked' = .ok (.int k w)) ∧
    ∀ (v : Value) (t : Ty) (r : Value), v.convert t true = .ok r → v.convert t false = .ok r := by
  refine ⟨fun x q hx k => ?_, fun j k w => ?_, fun d t => Value.convert_decimal d t false,
    fun k w checked checked' => ?_,
    fun v t r => Value.convert_of_checked⟩
  · rw [Value.convert_number hx]
    exact fits_ofInt?
  · refine ⟨_, Value.convert_int w k, fun b => ?_⟩
    rw [Word.eq_wrap_iff, k.modulus_eq]
    rfl
  · obtain ⟨d, hd, hn⟩ := Decimal.ofInt?_word w
    exact ⟨d, Value.convert_to_decimal hd checked, Value.convert_decimal_back hn checked'⟩

/-- Minus 12.9 is truncated to minus 12, which no unsigned kind holds. A character converts as its
code. -/
theorem negative_decimal_truncated :
    let x : Value := .decimal ⟨true, 129, 1, by decide, by decide⟩
    let c : Value := .char 'a'
    let code : Value := .int .u8 (.wrap .u8 97)
    x.number? = some (-129 / 10) ∧ Yields .i8 (· = -12) (x.convert (.int .i8) true) ∧
      Overflows (x.convert (.int .u8) true) ∧ c.convert (.int .u8) true = .ok code ∧
      c.convert (.int .u8) false = .ok code := by
  intro x c code
  have hx : x.number? = some (-129 / 10) := by decide +kernel
  have hq : towardZero (-129 / 10) = -12 := by decide +kernel
  have hc : c.convert (.int .u8) true = .ok code := rfl
  obtain ⟨hchecked, -, -, -, hagree⟩ := conversions_exact
  have hsigned := hchecked x _ hx .i8
  have hunsigned := hchecked x _ hx .u8
  rw [hq] at hsigned hunsigned
  exact ⟨hx, hsigned.exact (by decide), hunsigned.overflows.mpr (by decide), hc, hagree _ _ _ hc⟩

end ExprTree
