import ExprTree.Proofs.DefaultEquality
import ExprTree.Proofs.NumberConversions

/-! Comparisons of integers and decimals. Equality is that of the numbers; for the order, the right
operand is first converted to the kind of the left one, and the two are compared then. -/
namespace ExprTree

namespace Comparison

/-- Equality takes no conversion. -/
def isOrder : Comparison → Bool
  | .equal | .notEqual => false
  | _ => true

/-- The relation of numbers that the comparison stands for. -/
def Relates (p q : ℚ) : Comparison → Prop
  | .equal => p = q
  | .notEqual => p ≠ q
  | .less => p < q
  | .lessOrEqual => p ≤ q
  | .greater => q < p
  | .greaterOrEqual => q ≤ p

theorem holds_compare {c : Comparison} {p q : ℚ} :
    c.holds (Ord.compare p q) = true ↔ c.Relates p q := by
  cases c <;> simp [holds, Relates, compare_lt_iff_lt, compare_gt_iff_gt]

end Comparison

namespace Value

/-- What `q` is converted to on the right of the value: an integer kind truncates and wraps it. -/
def reads (a : Value) (q : ℚ) : ℚ :=
  match a with
  | .int k _ => (Word.wrap k (towardZero q)).toInt
  | _ => q

/-- The right operand is a decimal out of range of the integer kind on the left. -/
def Refuses (a b : Value) : Prop :=
  match a, b with
  | .int k _, .decimal d => ¬(k.min ≤ towardZero d.number ∧ towardZero d.number ≤ k.max)
  | _, _ => False

/-- The number is that of some value of the same kind. -/
def CanBe (a : Value) (q : ℚ) : Prop := ∃ v : Value, v.numKind? = a.numKind? ∧ v.number? = some q

variable {a b : Value} {p q : ℚ} {c : Comparison} {s : Store}

theorem reads_of_canBe (h : a.CanBe q) : a.reads q = q := by
  obtain ⟨v, hk, hq⟩ := h
  rcases exact_of_number? hq with ⟨k, w, rfl, rfl⟩ | ⟨d, rfl, rfl⟩
  · cases a <;> cases hk
    simp [reads]
  · cases a <;> cases hk
    rfl

theorem canBe_self (h : a.number? = some p) : a.CanBe p := ⟨a, rfl, h⟩

theorem not_refuses (hb : b.number? = some q) (h : a.CanBe q) : ¬a.Refuses b := by
  obtain ⟨v, hk, hq⟩ := h
  unfold Refuses
  split
  · cases hb
    rcases exact_of_number? hq with ⟨j, w, rfl, hw⟩ | ⟨e, rfl, -⟩
    · cases hk
      rw [not_not, hw, towardZero_intCast]
      exact ⟨w.min_le, w.le_max⟩
    · cases hk
  · exact id

/-! ### The right operand -/

theorem coerce_decimal (d : Decimal) (k : IntKind) : (Value.decimal d).coerce (.int k) =
    (orOverflow (Word.ofInt? k (towardZero d.number)) ("conversion to " ++ k.name)).map
    (.int k) := by
  rw [← convert_number (x := .decimal d) rfl]
  rfl

/-- Unless the conversion is refused, the right operand becomes a value of the left one's kind. -/
theorem coerce_number (ha : a.number? = some p) (hb : b.number? = some q) (h : ¬a.Refuses b) :
    ∃ k v, a.numKind? = some k ∧ b.coerce k = .ok v ∧ v.numKind? = some k ∧
      v.number? = some (a.reads q) := by
  rcases exact_of_number? ha with ⟨k, v, rfl, rfl⟩ | ⟨d, rfl, rfl⟩ <;>
    rcases exact_of_number? hb with ⟨l, w, rfl, rfl⟩ | ⟨e, rfl, rfl⟩
  · refine ⟨_, _, rfl, coerce_int w k, rfl, ?_⟩
    rw [reads, towardZero_intCast]
    rfl
  · have hrange := not_not.mp h
    have hword := Word.wrap_of_range hrange.1 hrange.2
    have he : (Value.decimal e).coerce (.int k) = .ok (.int k (.wrap k (towardZero e.number))) := by
      rw [coerce_decimal, Word.ofInt?_eq_some.mpr hword]
      rfl
    exact ⟨_, _, rfl, he, rfl, rfl⟩
  · obtain ⟨c, hc, hn⟩ := Decimal.ofInt?_word w
    refine ⟨_, .decimal c, rfl, ?_, rfl, congrArg some hn⟩
    exact convert_to_decimal hc false
  · exact ⟨_, .decimal e, rfl, rfl, rfl, rfl⟩

theorem coerce_refused (h : a.Refuses b) : ∃ k, a.numKind? = some k ∧ Overflows (b.coerce k) := by
  unfold Refuses at h
  split at h
  · rename_i k v d
    refine ⟨_, rfl, ?_⟩
    rw [coerce_decimal]
    exact fits_ofInt?.overflows.mpr h
  · exact h.elim

/-! ### The operators -/

theorem kindBinary_compare (hk : a.numKind? = b.numKind?) (ha : a.number? = some p)
    (hb : b.number? = some q) :
    kindBinary (.binary (.compare c)) a b = .ok (.bool (c.holds (Ord.compare p q))) := by
  rcases exact_of_number? ha with ⟨k, v, rfl, rfl⟩ | ⟨d, rfl, rfl⟩ <;>
    rcases exact_of_number? hb with ⟨l, w, rfl, rfl⟩ | ⟨e, rfl, rfl⟩
  · cases hk
    rw [compare_intCast]
    exact dif_pos rfl
  · cases hk
  · cases hk
  · rw [← Decimal.compare_eq]
    rfl

theorem applyBinary_order {k : NumKind} (hc : c.isOrder) (hk : a.numKind? = some k) :
    NodeKind.applyBinary (.binary (.compare c)) s a b = b.coerce k >>=
      kindBinary (.binary (.compare c)) a := by
  have hcoerced : NodeKind.applyBinary.coerced (.binary (.compare c)) a b =
      b.coerce k >>= kindBinary (.binary (.compare c)) a := by
    rw [NodeKind.applyBinary.coerced, hk]
  rw [← hcoerced]
  cases c with
  | equal => cases hc
  | notEqual => cases hc
  | _ => rfl

theorem order_ok (ha : a.number? = some p) (hb : b.number? = some q) (h : ¬a.Refuses b)
    (hc : c.isOrder) :
    NodeKind.applyBinary (.binary (.compare c)) s a b =
      .ok (.bool (c.holds (Ord.compare p (a.reads q)))) := by
  obtain ⟨k, v, hk, hv, hvk, hvn⟩ := coerce_number ha hb h
  rw [applyBinary_order hc hk, hv]
  exact kindBinary_compare (hk.trans hvk.symm) ha hvn

theorem order_refused (h : a.Refuses b) (hc : c.isOrder) :
    Overflows (NodeKind.applyBinary (.binary (.compare c)) s a b) := by
  obtain ⟨k, hk, operation, ho⟩ := coerce_refused h
  rw [applyBinary_order hc hk, ho]
  exact ⟨operation, rfl⟩

theorem equality_ok (ha : a.number? = some p) (hb : b.number? = some q) (hc : ¬c.isOrder) :
    NodeKind.applyBinary (.binary (.compare c)) s a b =
      .ok (.bool (c.holds (Ord.compare p q))) := by
  have hequal : a.valuesEqual b = Comparison.equal.holds (Ord.compare p q) := by
    rw [Bool.eq_iff_iff, valuesEqual_number ha hb, Comparison.holds_compare]
    rfl
  cases c with
  | equal => exact congrArg (fun r => Except.ok (Value.bool r)) hequal
  | notEqual => exact congrArg (fun r => Except.ok (Value.bool !r)) hequal
  | _ => exact absurd rfl hc

theorem holds_order (ha : a.number? = some p) (hb : b.number? = some q) (h : ¬a.Refuses b)
    (hc : c.isOrder) :
    NodeKind.applyBinary (.binary (.compare c)) s a b = .ok (.bool true) ↔
      c.Relates p (a.reads q) := by
  rw [order_ok ha hb h hc, ← Comparison.holds_compare]
  simp

theorem holds_equality (ha : a.number? = some p) (hb : b.number? = some q) (hc : ¬c.isOrder) :
    NodeKind.applyBinary (.binary (.compare c)) s a b = .ok (.bool true) ↔ c.Relates p q := by
  rw [equality_ok ha hb hc, ← Comparison.holds_compare]
  simp

/-- Where the left kind has the right number, nothing is lost on the way to it. -/
theorem holds_of_canBe (ha : a.number? = some p) (hb : b.number? = some q) (h : a.CanBe q) :
    NodeKind.applyBinary (.binary (.compare c)) s a b = .ok (.bool true) ↔ c.Relates p q := by
  by_cases hc : c.isOrder
  · rw [holds_order ha hb (not_refuses hb h) hc, reads_of_canBe h]
  · exact holds_equality ha hb hc

end Value

namespace Comparison

variable {P : Comparison → Prop} {p q q' : ℚ}

theorem exactly_one : (∃! c, c ∈ [less, equal, greater] ∧ P c) ↔
    (P less ∧ ¬P equal ∧ ¬P greater) ∨ (¬P less ∧ P equal ∧ ¬P greater) ∨
    (¬P less ∧ ¬P equal ∧ P greater) := by
  constructor
  · rintro ⟨c, ⟨hc, hp⟩, hunique⟩
    have hless (h : P less) : c = less := (hunique less ⟨by decide, h⟩).symm
    have hequal (h : P equal) : c = equal := (hunique equal ⟨by decide, h⟩).symm
    have hgreater (h : P greater) : c = greater := (hunique greater ⟨by decide, h⟩).symm
    cases c <;> simp_all
  · rintro (⟨h, h₁, h₂⟩ | ⟨h₁, h, h₂⟩ | ⟨h₁, h₂, h⟩)
    · refine ⟨less, ⟨by decide, h⟩, fun c hc => ?_⟩
      cases c <;> simp_all
    · refine ⟨equal, ⟨by decide, h⟩, fun c hc => ?_⟩
      cases c <;> simp_all
    · refine ⟨greater, ⟨by decide, h⟩, fun c hc => ?_⟩
      cases c <;> simp_all

/-- Less and greater leave out just the case of a number that is converted to `p`. -/
theorem trichotomy (hless : P less ↔ p < q') (hequal : P equal ↔ p = q)
    (hgreater : P greater ↔ q' < p) (h : q = p → q' = p) :
    (∃! c, c ∈ [less, equal, greater] ∧ P c) ↔ (q' = p → q = p) := by
  rw [exactly_one, hless, hequal, hgreater]
  rcases lt_trichotomy p q' with hlt | rfl | hgt
  · have hne : p ≠ q := fun he => hlt.ne' (h he.symm)
    simp [hlt, hlt.not_gt, hlt.ne', hne]
  · simp [eq_comm]
  · have hne : p ≠ q := fun he => hgt.ne (h he.symm)
    simp [hgt, hgt.not_gt, hgt.ne, hne]

end Comparison

/-- Of two numbers the comparisons of order fail together, exactly where the right one is a decimal
out of range of the integer kind of the left one, and relate the left number to what the right one
is converted to; equality never fails, and takes the numbers as they are. Where no comparison fails,
an order that admits equality is the negation of the one that is strict the other way, and of less,
equal and greater just one holds, unless the right number is another one but is converted to the
left one. All are the relations of the numbers where the left kind has the right number, and less
may then be mirrored if the right kind has the left one. -/
theorem numeric_order (s : Store) {a b : Value} {p q : ℚ} (ha : a.number? = some p)
    (hb : b.number? = some q) :
    let apply (c : Comparison) (x y : Value) := NodeKind.applyBinary (.binary (.compare c)) s x y
    let holds (c : Comparison) (x y : Value) : Prop := apply c x y = .ok (.bool true)
    (∀ c, (Overflows (apply c a b) ↔ c.isOrder ∧ a.Refuses b) ∧
      (¬(c.isOrder ∧ a.Refuses b) → ∃ r, apply c a b = .ok (.bool r) ∧
        (r = true ↔ c.Relates p (if c.isOrder then a.reads q else q)))) ∧
    (¬a.Refuses b →
      (holds .lessOrEqual a b ↔ ¬holds .greater a b) ∧
      (holds .greaterOrEqual a b ↔ ¬holds .less a b) ∧
      ((∃! c, c ∈ [.less, .equal, .greater] ∧ holds c a b) ↔ (a.reads q = p → q = p))) ∧
    (a.CanBe q → (∀ c, holds c a b ↔ c.Relates p q) ∧
      (b.CanBe p → (holds .less a b ↔ holds .greater b a))) := by
  intro apply holds
  refine ⟨fun c => ?_, fun h => ?_, fun h => ⟨fun c => Value.holds_of_canBe ha hb h, fun h' => ?_⟩⟩
  · by_cases hc : c.isOrder ∧ a.Refuses b
    · exact ⟨iff_of_true (Value.order_refused hc.2 hc.1) hc, fun hn => absurd hc hn⟩
    · have hok :
          ∃ r, apply c a b = .ok (.bool r) ∧
          (r = true ↔ c.Relates p (if c.isOrder then a.reads q else q)) := by
        by_cases horder : c.isOrder
        · rw [if_pos horder]
          exact ⟨_, Value.order_ok ha hb (fun h => hc ⟨horder, h⟩) horder, Comparison.holds_compare⟩
        · rw [if_neg horder]
          exact ⟨_, Value.equality_ok ha hb horder, Comparison.holds_compare⟩
      refine ⟨iff_of_false ?_ hc, fun _ => hok⟩
      rintro ⟨operation, ho⟩
      obtain ⟨r, hr, -⟩ := hok
      exact nomatch hr.symm.trans ho
  · have horder {c : Comparison} (hc : c.isOrder) : holds c a b ↔ c.Relates p (a.reads q) :=
      Value.holds_order ha hb h hc
    have hself : q = p → a.reads q = p := by
      rintro rfl
      exact Value.reads_of_canBe (Value.canBe_self ha)
    refine ⟨?_, ?_,
      Comparison.trichotomy (horder rfl) (Value.holds_equality ha hb nofun) (horder rfl) hself⟩
    · rw [horder rfl, horder rfl]
      exact not_lt.symm
    · rw [horder rfl, horder rfl]
      exact not_lt.symm
  · have hless : holds .less a b ↔ p < q := Value.holds_of_canBe ha hb h
    have hgreater : holds .greater b a ↔ p < q := Value.holds_of_canBe hb ha h'
    rw [hless, hgreater]

/-- An unsigned integer does not read minus one on its right, but is a decimal itself on the right
of it. -/
theorem unsigned_and_minus_one :
    let a : Value := .int .u8 (.wrap .u8 1)
    let b : Value := .decimal ⟨true, 10, 1, by decide, by decide⟩
    let apply (c : Comparison) (x y : Value) := NodeKind.applyBinary (.binary (.compare c)) {} x y
    a.number? = some 1 ∧ b.number? = some (-1) ∧ a.Refuses b ∧ Overflows (apply .greater a b) ∧
      b.CanBe 1 ∧ apply .less b a = .ok (.bool true) := by
  intro a b apply
  have ha : a.number? = some 1 := by decide +kernel
  have hb : b.number? = some (-1) := by decide +kernel
  have hrefuses : a.Refuses b := by
    have hq : towardZero (-1) = -1 := by decide +kernel
    have hn : Decimal.number ⟨true, 10, 1, by decide, by decide⟩ = -1 := Option.some.inj hb
    change ¬(_ ≤ towardZero (Decimal.number _) ∧ _)
    rw [hn, hq]
    decide
  have hcanBe : b.CanBe 1 := ⟨.decimal ⟨false, 1, 0, by decide, by decide⟩, rfl, by decide +kernel⟩
  obtain ⟨hfails, -, -⟩ := numeric_order {} ha hb
  obtain ⟨-, -, hnumbers⟩ := numeric_order {} hb ha
  have hless : Comparison.less.Relates (-1) 1 := neg_lt_self one_pos
  exact ⟨ha, hb, hrefuses, (hfails .greater).1.mpr ⟨rfl, hrefuses⟩, hcanBe,
    ((hnumbers hcanBe).1 .less).mpr hless⟩

/-- An integer that is narrowed to one on its left may be neither less nor greater nor equal, the
mirrored comparison need not agree, and a decimal that cannot be narrowed has no order. -/
theorem narrowing_breaks_order :
    let zero : Value := .int .i8 (.wrap .i8 0)
    let one : Value := .int .i8 (.wrap .i8 1)
    let wide : Value := .int .i32 (.wrap .i32 256)
    let thousand : Value := .decimal ⟨false, 1000, 0, by decide, by decide⟩
    let apply (c : Comparison) (x y : Value) := NodeKind.applyBinary (.binary (.compare c)) {} x y
    (¬∃! c, c ∈ [.less, .equal, .greater] ∧ apply c zero wide = .ok (.bool true)) ∧
      apply .less one wide ≠ apply .greater wide one ∧ Overflows (apply .less one thousand) := by
  intro zero one wide thousand apply
  have hless : apply .less zero wide = .ok (.bool false) := rfl
  have hequal : apply .equal zero wide = .ok (.bool false) := rfl
  have hgreater : apply .greater zero wide = .ok (.bool false) := rfl
  have hone : apply .less one wide = .ok (.bool false) := rfl
  have hmirrored : apply .greater wide one = .ok (.bool true) := rfl
  rw [Comparison.exactly_one, hless, hequal, hgreater, hone, hmirrored]
  exact ⟨by simp, by simp, _, rfl⟩

end ExprTree
