import ExprTree.Proofs.IntegerArithmetic
import ExprTree.Proofs.Numbers

/-! Powers of decimals. Products of decimals without digits after the point are exact until they are
out of range, and repeated squaring takes no square that the power does not have as a factor. -/
namespace ExprTree

namespace Decimal

/-- The decimal is this integer, with no digit after the point. -/
structure Whole (d : Decimal) (n : ℤ) : Prop where
  scale_eq : d.scale = 0
  number_eq : d.number = n

variable {a b d e : Decimal} {n m : ℤ}

theorem mantissa_of_number (h : d.number = n) : d.mantissa = n.natAbs * 10 ^ d.scale := by
  have hpos : (0 : ℚ) < 10 ^ d.scale := by positivity
  have hnumber : |d.number| = d.mantissa / 10 ^ d.scale := by
    rw [number, abs_div, abs_of_pos hpos]
    split
    · rw [abs_neg, Nat.abs_cast]
    · rw [Nat.abs_cast]
  rw [h, eq_div_iff hpos.ne', ← Int.cast_abs, Int.abs_eq_natAbs] at hnumber
  exact_mod_cast hnumber.symm

theorem negative_of_number (h : d.number = n) (hn : n ≠ 0) : d.negative = decide (n < 0) := by
  have hpos : (0 : ℚ) < 10 ^ d.scale := by positivity
  rw [number, div_eq_iff hpos.ne'] at h
  rcases Bool.eq_false_or_eq_true d.negative with hd | hd
  · rw [if_pos hd] at h
    have hle : (n : ℚ) ≤ 0 := nonpos_of_mul_nonpos_left (by rw [← h]; simp) hpos
    have hle' : n ≤ 0 := by exact_mod_cast hle
    rw [hd, eq_comm, decide_eq_true_eq]
    omega
  · rw [if_neg (by simp [hd])] at h
    have hge : (0 : ℚ) ≤ n := nonneg_of_mul_nonneg_left (by rw [← h]; positivity) hpos
    have hge' : 0 ≤ n := by exact_mod_cast hge
    rw [hd, eq_comm, decide_eq_false_iff_not]
    omega

theorem isIntegral_of_number (h : d.number = n) : d.isIntegral := by
  rw [isIntegral, mantissa_of_number h]
  simp

theorem truncate_of_number (h : d.number = n) : d.truncate = n := by
  rw [truncate_eq, h, towardZero_intCast]

theorem Whole.mantissa_eq (h : d.Whole n) : d.mantissa = n.natAbs := by
  rw [mantissa_of_number h.number_eq, h.scale_eq, pow_zero, mul_one]

theorem Whole.isZero_iff (h : d.Whole n) : d.isZero ↔ n = 0 := by
  rw [isZero, h.mantissa_eq, beq_iff_eq, Int.natAbs_eq_zero]

theorem Whole.one : Decimal.one.Whole 1 := ⟨rfl, by simp [number, Decimal.one]⟩

/-! ### Integers in range -/

theorem ofInt?_whole (h : ofInt? n = some d) : d.Whole n := by
  refine ⟨?_, number_ofInt? h⟩
  rw [ofInt?, mk?] at h
  split at h
  · cases h
    rfl
  · cases h

theorem ofInt?_eq_none : ofInt? n = none ↔ 2 ^ 96 ≤ |n| := by
  have hlimit : limit = 2 ^ 96 := limit_eq
  rw [ofInt?, mk?, dite_eq_right_iff, Int.abs_eq_natAbs]
  constructor
  · intro h
    by_contra hlt
    exact absurd (h ⟨by omega, Nat.zero_le _⟩) (by simp)
  · intro h hin
    omega

theorem ofInt?_of_lt (h : |n| < 2 ^ 96) : ∃ d, ofInt? n = some d ∧ d.Whole n := by
  cases hd : ofInt? n with
  | none => exact absurd (ofInt?_eq_none.mp hd) (not_le.mpr h)
  | some d => exact ⟨d, rfl, ofInt?_whole hd⟩

/-- A factor is in range where the product is, unless that is zero. -/
theorem ofInt?_mul_eq_none (h : ofInt? n = none) (hm : m ≠ 0) : ofInt? (n * m) = none := by
  rw [ofInt?_eq_none] at h ⊢
  rw [abs_mul]
  exact h.trans (le_mul_of_one_le_right (abs_nonneg n) (Int.one_le_abs hm))

/-! ### Products -/

theorem fit?_zero (negative : Bool) (n : Nat) : fit? negative n 0 = mk? negative n 0 := by
  have hrange : List.range' (0 - maxScale) (0 + 1 - (0 - maxScale)) = [0] := rfl
  rw [fit?, hrange, List.findSome?_singleton, Nat.pow_eq, pow_zero, roundHalfEven_one]

/-- A product without digits after the point is not rounded. -/
theorem mul?_whole (ha : a.Whole n) (hb : b.Whole m) : a.mul? b = ofInt? (n * m) := by
  unfold mul?
  extract_lets small
  by_cases hzero : n = 0 ∨ m = 0
  · have hproduct : n * m = 0 := mul_eq_zero.mpr hzero
    rw [if_pos (by rwa [Bool.or_eq_true, ha.isZero_iff, hb.isZero_iff]), hproduct]
    rfl
  · obtain ⟨hn, hm⟩ := not_or.mp hzero
    have hscale : a.scale + b.scale = 0 := by rw [ha.scale_eq, hb.scale_eq]
    have hsign : (a.negative != b.negative) = decide (n * m < 0) := by
      rw [negative_of_number ha.number_eq hn, negative_of_number hb.number_eq hm, Bool.eq_iff_iff,
        bne_iff_ne, ne_eq, decide_eq_decide, decide_eq_true_eq, mul_neg_iff]
      omega
    rw [if_neg (by rwa [Bool.or_eq_true, ha.isZero_iff, hb.isZero_iff]), hscale, if_neg (by simp),
      fit?_zero, hsign, ha.mantissa_eq, hb.mantissa_eq, ← Int.natAbs_mul]
    change (ofInt? (n * m)).map _ = _
    cases hd : ofInt? (n * m) with
    | none => rfl
    | some d =>
      have hd : ¬d.isZero := by
        rw [(ofInt?_whole hd).isZero_iff]
        exact mul_ne_zero hn hm
      rw [Option.map_some, if_neg (by simp [hd])]

/-! ### Repeated squaring -/

/-- What one round gathers, and what the squares after it are to give. -/
theorem round_product (k n : ℤ) (j : ℕ) :
    k * n ^ j = (if j % 2 = 1 then k * n else k) * (n * n) ^ (j / 2) := by
  have hj : n ^ j = n ^ (j % 2) * (n * n) ^ (j / 2) := by
    rw [← pow_two, ← pow_mul, ← pow_add, Nat.mod_add_div]
  rw [hj, ← mul_assoc]
  rcases Nat.mod_two_eq_zero_or_one j with h | h
  · rw [h, pow_zero, mul_one, if_neg (by decide)]
  · rw [h, pow_one, if_pos rfl]

theorem mulPow?_round {r : Decimal} {j : ℕ} (hj : j ≠ 0) :
    mulPow? r b j = (if j % 2 = 1 then r.mul? b else some r) >>= fun r =>
      if j / 2 = 0 then some r else b.mul? b >>= fun c => mulPow? r c (j / 2) := by
  rw [mulPow?, dif_neg hj]
  by_cases hodd : j % 2 = 1
  · simp only [if_pos hodd]
  · simp only [if_neg hodd]

/-- The loop has the product of what it gathered and of the power that is left, unless that is out
of range: a square is only taken where it divides the product. Nothing but powers of zero, whose
squares are in range, makes that zero. -/
theorem mulPow?_whole {r : Decimal} {k : ℤ} (hr : ofInt? k = some r) (hb : b.Whole n)
    (hk : k = 0 → n = 0) (j : ℕ) : mulPow? r b j = ofInt? (k * n ^ j) := by
  induction j using Nat.strong_induction_on generalizing r b k n with
  | h j ih =>
    by_cases hj : j = 0
    · rw [mulPow?, dif_pos hj, hj, pow_zero, mul_one, hr]
    · have hgather :
          (if j % 2 = 1 then r.mul? b else some r) = ofInt? (if j % 2 = 1 then k * n else k) := by
        split
        · exact mul?_whole (ofInt?_whole hr) hb
        · exact hr.symm
      have hzero : (if j % 2 = 1 then k * n else k) = 0 → n = 0 := by
        intro h
        split at h
        · exact (mul_eq_zero.mp h).elim hk id
        · exact hk h
      have hsome : ofInt? (if j % 2 = 1 then k * n else k) = none → n ≠ 0 := by
        rintro h rfl
        rw [mul_zero] at h
        split at h
        · cases h
        · exact nomatch h.symm.trans hr
      rw [mulPow?_round hj, round_product, hgather]
      generalize (if j % 2 = 1 then k * n else k) = k' at hzero hsome ⊢
      cases hr' : ofInt? k' with
      | none =>
        have hn : n ≠ 0 := hsome hr'
        rw [ofInt?_mul_eq_none hr' (pow_ne_zero _ (mul_ne_zero hn hn))]
        rfl
      | some r' =>
        change (if j / 2 = 0 then some r' else b.mul? b >>= fun c => mulPow? r' c (j / 2)) = _
        by_cases hlast : j / 2 = 0
        · rw [if_pos hlast, hlast, pow_zero, mul_one, hr']
        · rw [if_neg hlast, mul?_whole hb hb]
          cases hsquare : ofInt? (n * n) with
          | none =>
            have hn : n ≠ 0 := by
              rintro rfl
              cases hsquare
            have hrest : k' * (n * n) ^ (j / 2 - 1) ≠ 0 :=
              mul_ne_zero (mt hzero hn) (pow_ne_zero _ (mul_ne_zero hn hn))
            rw [← mul_pow_sub_one hlast, mul_left_comm, ofInt?_mul_eq_none hsquare hrest]
            rfl
          | some c =>
            refine ih (j / 2) (by omega) hr' (ofInt?_whole hsquare) (fun h => ?_)
            rw [hzero h, mul_zero]

theorem pow?_whole (hb : b.Whole n) (j : ℕ) : b.pow? j = ofInt? (n ^ j) := by
  have hone : ofInt? 1 = some one := rfl
  rw [pow?, mulPow?_whole hone hb (by simp) j, one_mul]

/-! ### Quotients -/

/-- What is within half a unit of the quotient when both are multiplied by the divisor. -/
theorem abs_sub_div_le {x y c p : ℚ} (hc : 0 < c) (hp : 0 < p) (hle : 2 * (x * p) ≤ 2 * (y * c) + p)
    (hge : 2 * (y * c) ≤ 2 * (x * p) + p) : |x / c - y / p| ≤ 1 / (2 * c) := by
  have hdiff : x / c - y / p = (x * p - c * y) / (c * p) := div_sub_div _ _ hc.ne' hp.ne'
  have habs : |x * p - c * y| ≤ p / 2 := by
    rw [abs_le]
    constructor <;> linarith
  rw [hdiff, abs_div, abs_of_pos (mul_pos hc hp), div_le_div_iff₀ (mul_pos hc hp) (by positivity)]
  nlinarith

/-- One is divided by every integer but zero to the nearest number of 28 digits. -/
theorem one_div?_whole {p : Decimal} {k : ℤ} (hp : p.Whole k) (hk : k ≠ 0) :
    ∃ q, one.div? p = some q ∧ |q.number - 1 / k| ≤ 1 / (2 * 10 ^ 28) := by
  have hpos : 0 < p.mantissa := by
    rw [hp.mantissa_eq]
    omega
  obtain ⟨q, hq, hsign, hle, hge⟩ := div?_le_one (a := one) hpos hpos hp.scale_eq.symm
  refine ⟨q, hq, ?_⟩
  let σ : ℚ := if k < 0 then -1 else 1
  have hσ : |σ| = 1 := by
    dsimp only [σ]
    split <;> simp
  have hscale : (10 : ℚ) ^ q.scale * 10 ^ (28 - q.scale) = 10 ^ 28 := by
    rw [← pow_add, Nat.add_sub_cancel' q.scale_le]
  have hvalue : q.number = σ * (((q.mantissa * 10 ^ (28 - q.scale) : ℕ) : ℚ) / 10 ^ 28) := by
    rw [number, ← hscale, Nat.cast_mul, Nat.cast_pow, Nat.cast_ofNat,
      mul_div_mul_right _ _ (by positivity), ← mul_div_assoc]
    congr 1
    rcases hsign with h | h
    · rw [h, negative_of_number hp.number_eq hk]
      by_cases hneg : k < 0 <;> simp [σ, one, hneg]
    · simp [h]
  have hinverse : 1 / (k : ℚ) = σ * (1 / p.mantissa) := by
    rw [hp.mantissa_eq, Nat.cast_natAbs]
    by_cases hneg : k < 0
    · simp [σ, hneg, abs_of_neg hneg]
    · simp [σ, hneg, abs_of_nonneg (not_lt.mp hneg)]
  rw [hvalue, hinverse, ← mul_sub, abs_mul, hσ, one_mul]
  refine abs_sub_div_le (by positivity) (by exact_mod_cast hpos) ?_ ?_
  · exact_mod_cast hle
  · exact_mod_cast hge

/-! ### The operator -/

/-- A whole exponent of 64 bits is never refused; the sign of a zero does not matter. -/
theorem power_eq (he : e.number = m) (hm : |m| < 2 ^ 64) :
    b.power e = orOverflow (b.pow? m.natAbs) "decimal power" >>= fun p =>
      if m < 0 then
        if p.isZero then .error .divideByZero
        else (orOverflow (one.div? p) "decimal power").map .decimal
      else .ok (.decimal p) := by
  have hlt : m.natAbs < 18446744073709551616 := by
    rw [Int.abs_eq_natAbs] at hm
    omega
  rw [power, isIntegral_of_number he, truncate_of_number he]
  rw [if_neg (by simp), if_neg (by omega)]
  by_cases hzero : m = 0
  · subst hzero
    have hone : one.div? one = some one := rfl
    have hpow : b.pow? (Int.natAbs 0) = some one := by
      rw [pow?, Int.natAbs_zero, mulPow?, dif_pos rfl]
    rw [hpow]
    cases e.negative with
    | false => rfl
    | true => exact congrArg (fun q => (orOverflow q "decimal power").map Value.decimal) hone
  · rw [negative_of_number he hzero]
    by_cases hneg : m < 0
    · simp [hneg]
    · simp [hneg]

end Decimal

/-- Powers of decimals that are integers are those of the integers, however the integral exponent is
written: they are exact or out of range. With a negative exponent they are what one divided by the
power is, the nearest number of 28 digits; that is out of range together with the power, and
undefined for zero. -/
theorem decimal_powers_exact (s : Store) {b e : Decimal} {n m : ℤ} (hb : b.Whole n)
    (he : e.number = m) (hm : |m| < 2 ^ 64) :
    let power := NodeKind.applyBinary (.binary (.arith .power)) s (.decimal b) (.decimal e)
    let inverse (p : Decimal) :=
      NodeKind.applyBinary (.binary (.arith .divide)) s (.decimal .one) (.decimal p)
    (∀ j : ℕ, b.pow? j = none ↔ 2 ^ 96 ≤ |n ^ j|) ∧
    (0 ≤ m →
      (|n ^ m.natAbs| < 2 ^ 96 → ∃ d, d.Whole (n ^ m.natAbs) ∧ power = .ok (.decimal d)) ∧
      (2 ^ 96 ≤ |n ^ m.natAbs| → Overflows power)) ∧
    (m < 0 →
      (n = 0 → power = .error .divideByZero) ∧
      (2 ^ 96 ≤ |n| ^ m.natAbs → Overflows power) ∧
      (n ≠ 0 → |n| ^ m.natAbs < 2 ^ 96 → ∃ p q : Decimal, p.Whole (n ^ m.natAbs) ∧
        power = inverse p ∧
        inverse p = .ok (.decimal q) ∧
        |q.number - 1 / (n ^ m.natAbs : ℤ)| ≤ 1 / (2 * 10 ^ 28))) := by
  intro power inverse
  have hpower : power = orOverflow (Decimal.ofInt? (n ^ m.natAbs)) "decimal power" >>= fun p =>
      if m < 0 then
        if p.isZero then .error .divideByZero
        else (orOverflow (Decimal.one.div? p) "decimal power").map .decimal
      else .ok (.decimal p) := by
    rw [← Decimal.pow?_whole hb, ← Decimal.power_eq he hm]
    rfl
  have hover (h : 2 ^ 96 ≤ |n ^ m.natAbs|) : Overflows power := by
    rw [hpower, Decimal.ofInt?_eq_none.mpr h]
    exact ⟨_, rfl⟩
  refine ⟨fun j => ?_, fun hnonneg => ⟨fun hlt => ?_, hover⟩, fun hneg =>
    ⟨?_, fun h => ?_, fun hn hlt => ?_⟩⟩
  · rw [Decimal.pow?_whole hb, Decimal.ofInt?_eq_none]
  · obtain ⟨d, hd, hwhole⟩ := Decimal.ofInt?_of_lt hlt
    refine ⟨d, hwhole, ?_⟩
    rw [hpower, hd]
    exact if_neg (not_lt.mpr hnonneg)
  · rintro rfl
    have hzero : (0 : ℤ) ^ m.natAbs = 0 := zero_pow (by omega)
    rw [hpower, hzero]
    exact if_pos hneg
  · rw [← abs_pow] at h
    exact hover h
  · rw [← abs_pow] at hlt
    obtain ⟨p, hp, hwhole⟩ := Decimal.ofInt?_of_lt hlt
    have hne : n ^ m.natAbs ≠ 0 := pow_ne_zero _ hn
    have hisZero : ¬p.isZero := mt hwhole.isZero_iff.mp hne
    obtain ⟨q, hq, hnear⟩ := Decimal.one_div?_whole hwhole hne
    have hinverse : inverse p = .ok (.decimal q) := by
      change (if p.isZero then .error .divideByZero
        else (orOverflow (Decimal.one.div? p) "decimal division").map Value.decimal) = _
      rw [if_neg hisZero, hq]
      rfl
    refine ⟨p, q, hwhole, ?_, hinverse, hnear⟩
    rw [hinverse, hpower, hp]
    change (if m < 0 then _ else _) = _
    rw [if_pos hneg, if_neg hisZero, hq]
    rfl

/-- The 95th power of two needs the square of 2 ^ 32, but not that of 2 ^ 64; the exponent may have
digits after the point, and its sign turns the power around. -/
theorem two_to_95_and_back :
    let two : Decimal := ⟨false, 2, 0, by decide, by decide⟩
    let exponent (negative : Bool) : Decimal := ⟨negative, 950, 1, by decide, by decide⟩
    let power (e : Decimal) :=
      NodeKind.applyBinary (.binary (.arith .power)) {} (.decimal two) (.decimal e)
    (∃ d : Decimal, d.Whole (2 ^ 95) ∧ power (exponent false) = .ok (.decimal d)) ∧
      ∃ q : Decimal, power (exponent true) = .ok (.decimal q) ∧
      |q.number - 1 / (2 ^ 95 : ℤ)| ≤ 1 / (2 * 10 ^ 28) := by
  intro two exponent power
  have htwo : two.Whole 2 := ⟨rfl, by norm_num [Decimal.number, two]⟩
  have hpositive : (exponent false).number = (95 : ℤ) := by norm_num [Decimal.number, exponent]
  have hnegative : (exponent true).number = (-95 : ℤ) := by norm_num [Decimal.number, exponent]
  obtain ⟨-, hexact, -⟩ := decimal_powers_exact {} htwo hpositive (by decide)
  obtain ⟨-, -, hinverse⟩ := decimal_powers_exact {} htwo hnegative (by decide)
  obtain ⟨p, q, -, hpower, hq, hnear⟩ := (hinverse (by decide)).2.2 (by decide) (by decide)
  exact ⟨(hexact (by decide)).1 (by decide), q, hpower.trans hq, hnear⟩

end ExprTree
