import ExprTree.Conversion
import Mathlib.Data.Rat.Floor

/-! The rational numbers that integers and decimals denote. Order, truncation and conversion of
decimals are those of their numbers. -/
namespace ExprTree

/-- The whole number next to `q` on the way to zero. -/
def towardZero (q : ℚ) : ℤ := if 0 ≤ q then ⌊q⌋ else ⌈q⌉

@[simp] theorem towardZero_intCast (n : ℤ) : towardZero n = n := by
  simp [towardZero]

theorem towardZero_neg (q : ℚ) : towardZero (-q) = -towardZero q := by
  unfold towardZero
  rcases lt_trichotomy q 0 with h | rfl | h
  · rw [if_pos (by linarith), if_neg (by linarith), Int.floor_neg]
  · simp
  · rw [if_neg (by linarith), if_pos h.le, Int.ceil_neg]

theorem compare_intCast (n m : ℤ) : Ord.compare (n : ℚ) m = Ord.compare n m := by
  rw [← cmp_eq_compare, ← cmp_eq_compare]
  exact Int.cast_strictMono.cmp_map_eq n m

namespace Decimal

/-- The scale moves the point and is no part of the number. -/
def number (d : Decimal) : ℚ :=
  (if d.negative then -(d.mantissa : ℚ) else d.mantissa) / 10 ^ d.scale

variable {d : Decimal}

theorem scaledTo_eq {s : Nat} (h : d.scale ≤ s) : (d.scaledTo s : ℚ) = d.number * 10 ^ s := by
  have hpow : (10 : ℚ) ^ s = 10 ^ d.scale * 10 ^ (s - d.scale) := by
    rw [← pow_add, Nat.add_sub_cancel' h]
  have hne : (10 : ℚ) ^ d.scale ≠ 0 := by positivity
  rw [hpow, ← mul_assoc, number, div_mul_cancel₀ _ hne, scaledTo]
  split <;> simp

theorem compare_eq (a b : Decimal) : a.compare b = Ord.compare a.number b.number := by
  have hpos : (0 : ℚ) < 10 ^ max a.scale b.scale := by positivity
  rw [compare, ← compare_intCast, scaledTo_eq (Nat.le_max_left ..),
    scaledTo_eq (Nat.le_max_right ..), ← cmp_eq_compare, ← cmp_eq_compare]
  exact (strictMono_mul_right_of_pos hpos).cmp_map_eq _ _

theorem compare_eq_eq {a b : Decimal} : a.compare b = .eq ↔ a.number = b.number := by
  rw [compare_eq, compare_eq_iff_eq]

theorem truncate_eq : d.truncate = towardZero d.number := by
  have hfloor : towardZero (d.mantissa / 10 ^ d.scale : ℚ) = (d.mantissa / 10 ^ d.scale : Nat) := by
    rw [towardZero, if_pos (by positivity)]
    exact_mod_cast Rat.floor_natCast_div_natCast d.mantissa (10 ^ d.scale)
  rw [truncate, number]
  split
  · rw [neg_div, towardZero_neg, hfloor]
    rfl
  · rw [hfloor]
    rfl

theorem number_ofInt? {n : Int} (h : ofInt? n = some d) : d.number = n := by
  rw [ofInt?, mk?] at h
  split at h
  · cases h
    rcases Int.lt_or_le n 0 with hn | hn
    · have habs : |(n : ℚ)| = -n := abs_of_neg (by exact_mod_cast hn)
      simp [number, hn, habs]
    · have habs : |(n : ℚ)| = n := abs_of_nonneg (by exact_mod_cast hn)
      simp [number, hn.not_gt, habs]
  · cases h

/-- Every word has a decimal. -/
theorem ofInt?_word {k : IntKind} (w : Word k) :
    ∃ d, ofInt? w.toInt = some d ∧ d.number = w.toInt := by
  have hmin := w.min_le
  have hmax := w.le_max
  have hlt : w.toInt.natAbs < limit ∧ 0 ≤ maxScale := by
    cases k <;> simp [IntKind.min, IntKind.max, IntKind.modulus, limit] at * <;> omega
  have h : ofInt? w.toInt = some ⟨decide (w.toInt < 0), w.toInt.natAbs, 0, hlt.1, hlt.2⟩ :=
    dif_pos hlt
  exact ⟨_, h, number_ofInt? h⟩

end Decimal

namespace Value

/-- The number that an integer or a decimal denotes. -/
def number? : Value → Option ℚ
  | .int _ w => some w.toInt
  | .decimal d => some d.number
  | _ => none

/-- A value with a number is an integer or a decimal. -/
theorem exact_of_number? {v : Value} {q : ℚ} (h : v.number? = some q) :
    (∃ (k : IntKind) (w : Word k), v = .int k w ∧ q = w.toInt) ∨ ∃ d, v = .decimal d ∧
      q = d.number := by
  cases v with
  | int k w =>
    cases h
    exact .inl ⟨k, w, rfl, rfl⟩
  | decimal d =>
    cases h
    exact .inr ⟨d, rfl, rfl⟩
  | _ => cases h

end Value

end ExprTree
