import ExprTree.Numeric.Decimal

/-! Sums, differences, products, remainders, quotients and powers of decimals. A result that has no
decimal is `none`. -/
namespace ExprTree.Decimal

/-- The exact sum at the larger scale, fitted; a zero sum has no sign. -/
private def sum? (a b : Decimal) : Option Decimal :=
  let s := max a.scale b.scale
  let n := a.scaledTo s + b.scaledTo s
  fit? (decide (n < 0)) n.natAbs s

/-- A zero operand leaves the other as it is. -/
def add? (a b : Decimal) : Option Decimal :=
  if a.isZero then some b else if b.isZero then some a else sum? a b

def sub? (a b : Decimal) : Option Decimal :=
  if a.isZero then some (if b.isZero then b else b.neg)
  else if b.isZero then some a else sum? a b.neg

/-- The fitted exact product. Two mantissas of 32 bits give zero at a scale above 47, and a zero
without sign; a larger product keeps its sign when it is rounded to zero. -/
def mul? (a b : Decimal) : Option Decimal :=
  let small := a.mantissa < 4294967296 && b.mantissa < 4294967296
  if a.isZero || b.isZero then some zero
  else if small && a.scale + b.scale > 47 then some zero
  else
    (fit? (a.negative != b.negative) (a.mantissa * b.mantissa) (a.scale + b.scale)).map fun d =>
      if small && d.isZero then { d with negative := false } else d

/-- One step of a long division by a divisor of three digits of 32 bits: the rest after the next
digit. The quotient's digit is guessed from the divisor's first digit and keeps 32 bits. A guess
that is too large is mended; one that lost its highest bit is not, so the rest can exceed the
divisor. -/
private def restAfter (divisor rest digit : Nat) : Nat :=
  let n := rest * Nat.pow 2 32 + digit
  let lead := divisor / Nat.pow 2 64
  let guess := n / Nat.pow 2 64 / lead % Nat.pow 2 32
  let kept := n / Nat.pow 2 64 % lead * Nat.pow 2 64 + n % Nat.pow 2 64
  let taken := guess * (divisor % Nat.pow 2 64)
  if taken ≤ kept then kept - taken else (((kept : Int) - taken) % divisor).toNat

/-- The rest after `count` digits of the dividend, the most significant one first. -/
private def restOfDigits (divisor : Nat) : Nat → Nat → Nat
  | 0, _ => 0
  | count + 1, dividend =>
    restAfter divisor (restOfDigits divisor count (dividend / Nat.pow 2 32))
      (dividend % Nat.pow 2 32)

/-- The rest of the long division of `m` by `n`, both shifted until the divisor fills 96 bits. -/
private def longRest (m n : Nat) : Nat :=
  let unit := Nat.pow 2 (95 - n.log2)
  restOfDigits (n * unit) 7 (m * unit) / unit

/-- The remainder of the truncated quotient, at the larger scale, with the sign of the dividend. It
is exact below a divisor of 64 bits and what long division leaves above. -/
def rem? (a b : Decimal) : Option Decimal :=
  let s := max a.scale b.scale
  let m := (a.scaledTo s).natAbs
  let n := (b.scaledTo s).natAbs
  if a.isZero || m == n then some zero
  else if m < n then some a
  else
    let r := if n < Nat.pow 2 64 then m % n else longRest m n
    mk? (a.negative && r != 0) r s

/-- A quotient under way: `quotient` at `scale` with the rest of the dividend still to be divided;
`extended` once digits after the exact ones were asked for. -/
private structure Quotient where
  quotient : Nat
  rest : Nat
  scale : Int
  extended : Bool

/-- How many more digits fit: at most nine, up to scale 28, and within the mantissa. -/
private def extraDigits (q : Nat) (scale : Int) : Nat :=
  ((List.range' 1 (min 9 (28 - scale).toNat)).takeWhile fun p =>
    decide (q * Nat.pow 10 p < limit)).length

private def roundLast (s : Quotient) (divisor : Nat) : Option Quotient :=
  let up := 2 * s.rest > divisor || (2 * s.rest == divisor && s.quotient % 2 == 1)
  let q := if up then s.quotient + 1 else s.quotient
  if q < limit then some { s with quotient := q }
  else if s.scale < 1 then none
  else some { s with quotient := limit / 10 + 1, scale := s.scale - 1 }

/-- Divides on by up to nine digits at a time, until nothing is left or no digit fits. A quotient
that outgrows the mantissa loses its last digit again, rounded half to even; by a divisor of more
than 64 bits a half is always rounded up. -/
private def divideOn (divisor : Nat) : Nat → Quotient → Option Quotient
  | 0, _ => none
  | n + 1, s =>
    if s.rest = 0 ∧ 0 ≤ s.scale then some s
    else
      let extended := s.extended || s.rest != 0
      let p := if s.rest = 0 then min 9 (-s.scale).toNat else extraDigits s.quotient s.scale
      if s.rest ≠ 0 ∧ p < 9 ∧ s.scale + p < 0 then none
      else if p = 0 then roundLast { s with extended } divisor
      else
        let q := s.quotient * Nat.pow 10 p
        if limit ≤ q then none
        else
          let r := s.rest * Nat.pow 10 p
          let q := q + r / divisor
          let scale := s.scale + p
          if q < limit then divideOn divisor n ⟨q, r % divisor, scale, extended⟩
          else if scale < 1 then none
          else
            let tie := q % 10 == 5
            let up := q % 10 > 5 ||
              (tie && (Nat.pow 2 64 ≤ divisor || r % divisor != 0 || q / 10 % 2 == 1))
            some ⟨if up then q / 10 + 1 else q / 10, r % divisor, scale - 1, extended⟩

/-- Removes `k` zeros at the end where scale and digits allow it. -/
private def dropZeros (k : Nat) (s : Nat × Nat) : Nat × Nat :=
  if k ≤ s.2 ∧ s.1 % Nat.pow 10 k = 0 then (s.1 / Nat.pow 10 k, s.2 - k) else s

/-- Eight zeros are removed as long as the mantissa's low 32 bits are clear, then four, two and
one. -/
private def dropTrailingZeros : Nat → Nat × Nat → Nat × Nat
  | n + 1, s =>
    if s.1 % 4294967296 = 0 ∧ 8 ≤ s.2 ∧ s.1 % Nat.pow 10 8 = 0 then
      dropTrailingZeros n (s.1 / Nat.pow 10 8, s.2 - 8)
    else dropZeros 1 (dropZeros 2 (dropZeros 4 s))
  | 0, s => dropZeros 1 (dropZeros 2 (dropZeros 4 s))

/-- The quotient to as many digits as fit; `none` also for a zero divisor. -/
def div? (a b : Decimal) : Option Decimal :=
  if b.isZero then none
  else if a.isZero then some zero
  else do
    let start : Quotient :=
      ⟨a.mantissa / b.mantissa, a.mantissa % b.mantissa, a.scale - b.scale, false⟩
    let r ← divideOn b.mantissa 100 start
    let (m, s) := if r.extended then dropTrailingZeros 4 (r.quotient, r.scale.toNat)
      else (r.quotient, r.scale.toNat)
    mk? (a.negative != b.negative && m != 0) m s

/-- `r * b ^ n` by repeated squaring; the last square is not taken. -/
def mulPow? (r b : Decimal) (n : Nat) : Option Decimal :=
  if h : n = 0 then some r
  else do
    let r ← if n % 2 = 1 then r.mul? b else some r
    if n / 2 = 0 then some r else mulPow? r (← b.mul? b) (n / 2)
termination_by n
decreasing_by omega

def pow? (b : Decimal) (n : Nat) : Option Decimal := mulPow? one b n

/-! ### Quotients of at most one -/

private theorem tens_add (m n : Nat) : Nat.pow 10 (m + n) = Nat.pow 10 m * Nat.pow 10 n :=
  Nat.pow_add 10 m n

/-- Two mantissas with their scales make one number, and the first has no more digits than the
second. -/
private def SameNumber (t s : Nat × Nat) : Prop := t.2 ≤ s.2 ∧ t.1 * Nat.pow 10 (s.2 - t.2) = s.1

private theorem sameNumber_refl (s : Nat × Nat) : SameNumber s s :=
  ⟨Nat.le_refl _, by rw [Nat.sub_self]; exact Nat.mul_one _⟩

private theorem SameNumber.trans {u t s : Nat × Nat} (h : SameNumber u t)
    (h' : SameNumber t s) : SameNumber u s := by
  obtain ⟨hle, heq⟩ := h
  obtain ⟨hle', heq'⟩ := h'
  refine ⟨Nat.le_trans hle hle', ?_⟩
  have hsub : s.2 - u.2 = (t.2 - u.2) + (s.2 - t.2) := by omega
  rw [hsub, tens_add, ← Nat.mul_assoc, heq, heq']

private theorem dropped_same {k : Nat} {s : Nat × Nat} (hk : k ≤ s.2) (h : s.1 % Nat.pow 10 k = 0) :
    SameNumber (s.1 / Nat.pow 10 k, s.2 - k) s := by
  refine ⟨Nat.sub_le _ _, ?_⟩
  change s.1 / Nat.pow 10 k * Nat.pow 10 (s.2 - (s.2 - k)) = s.1
  rw [Nat.sub_sub_self hk, Nat.div_mul_cancel (Nat.dvd_of_mod_eq_zero h)]

private theorem dropZeros_same (k : Nat) (s : Nat × Nat) : SameNumber (dropZeros k s) s := by
  unfold dropZeros
  split
  · rename_i h
    exact dropped_same h.1 h.2
  · exact sameNumber_refl s

private theorem dropTrailingZeros_same (n : Nat) (s : Nat × Nat) :
    SameNumber (dropTrailingZeros n s) s := by
  have hlast : SameNumber (dropZeros 1 (dropZeros 2 (dropZeros 4 s))) s :=
    ((dropZeros_same 1 _).trans (dropZeros_same 2 _)).trans (dropZeros_same 4 s)
  induction n generalizing s with
  | zero => exact hlast
  | succ n ih =>
    rw [dropTrailingZeros]
    split
    · rename_i h
      have hnext : SameNumber (s.1 / Nat.pow 10 8, s.2 - 8) s := dropped_same h.2.1 h.2.2
      refine (ih _ ?_).trans hnext
      exact ((dropZeros_same 1 _).trans (dropZeros_same 2 _)).trans (dropZeros_same 4 _)
    · exact hlast

/-- `m` is divided up to the scale reached, which is a number of digits. -/
private structure Quotient.Divides (m divisor : Nat) (s : Quotient) : Prop where
  parts : s.quotient * divisor + s.rest = m * Nat.pow 10 s.scale.toNat
  rest_lt : s.rest < divisor
  scale_nonneg : 0 ≤ s.scale
  scale_le : s.scale ≤ 28

/-- The quotient is exact, or the nearest of 28 digits. -/
private structure Quotient.Nearest (m divisor : Nat) (s : Quotient) : Prop where
  scale_nonneg : 0 ≤ s.scale
  scale_le : s.scale ≤ 28
  in_range : s.quotient < limit
  near : s.quotient * divisor = m * Nat.pow 10 s.scale.toNat ∨ s.scale = 28 ∧
    2 * (s.quotient * divisor) ≤ 2 * (m * Nat.pow 10 28) + divisor ∧
    2 * (m * Nat.pow 10 28) ≤ 2 * (s.quotient * divisor) + divisor

section

variable {m divisor : Nat} {s : Quotient}

private theorem pow_lt_limit {p : Nat} (h : p ≤ 28) : Nat.pow 10 p + 1 < limit := by
  have hpow : Nat.pow 10 p ≤ Nat.pow 10 28 := Nat.pow_le_pow_right (by decide) h
  have hlimit : Nat.pow 10 28 + 1 < limit := by decide
  omega

private theorem Quotient.Divides.quotient_le (h : s.Divides m divisor) (hm : m ≤ divisor) :
    s.quotient ≤ Nat.pow 10 s.scale.toNat := by
  have hpos : 0 < divisor := Nat.zero_lt_of_lt h.rest_lt
  have hparts := h.parts
  have hle : m * Nat.pow 10 s.scale.toNat ≤ Nat.pow 10 s.scale.toNat * divisor := by
    rw [Nat.mul_comm]
    exact Nat.mul_le_mul_left _ hm
  exact Nat.le_of_mul_le_mul_right (by omega) hpos

/-- All digits up to the last one fit. -/
private theorem extraDigits_eq (h : s.Divides m divisor) (hm : m ≤ divisor) :
    extraDigits s.quotient s.scale = min 9 (28 - s.scale).toNat := by
  have hscale := h.scale_nonneg
  have hfits (p : Nat) (hp : p ∈ List.range' 1 (min 9 (28 - s.scale).toNat)) :
      decide (s.quotient * Nat.pow 10 p < limit) = true := by
    rw [List.mem_range'_1] at hp
    have hq : s.quotient * Nat.pow 10 p ≤ Nat.pow 10 s.scale.toNat * Nat.pow 10 p :=
      Nat.mul_le_mul_right _ (h.quotient_le hm)
    rw [← tens_add] at hq
    have hlimit := pow_lt_limit (p := s.scale.toNat + p) (by omega)
    exact decide_eq_true (show s.quotient * Nat.pow 10 p < limit by omega)
  have htake := @List.takeWhile_append_of_pos _ _ _ [] hfits
  rw [List.takeWhile_nil, List.append_nil] at htake
  rw [extraDigits, htake, List.length_range']

/-- The state after `p` more digits. -/
private def Quotient.extend (s : Quotient) (divisor p : Nat) (extended : Bool) : Quotient :=
  ⟨s.quotient * Nat.pow 10 p + s.rest * Nat.pow 10 p / divisor, s.rest * Nat.pow 10 p % divisor,
    s.scale + p, extended⟩

private theorem Quotient.Divides.extend (h : s.Divides m divisor) {p : Nat} (hp : s.scale + p ≤ 28)
    (extended : Bool) : (s.extend divisor p extended).Divides m divisor := by
  have hpos : 0 < divisor := Nat.zero_lt_of_lt h.rest_lt
  have hscale := h.scale_nonneg
  refine ⟨?_, Nat.mod_lt _ hpos, ?_, hp⟩
  · have htoNat : (s.scale + p).toNat = s.scale.toNat + p := by omega
    change (s.quotient * Nat.pow 10 p + s.rest * Nat.pow 10 p / divisor) * divisor +
      s.rest * Nat.pow 10 p % divisor =
      m * Nat.pow 10 (s.scale + p).toNat
    calc
      _ = s.quotient * Nat.pow 10 p * divisor +
        (divisor * (s.rest * Nat.pow 10 p / divisor) + s.rest * Nat.pow 10 p % divisor) := by
        rw [Nat.add_mul, Nat.mul_comm (_ / _), Nat.add_assoc]
      _ = (s.quotient * divisor + s.rest) * Nat.pow 10 p := by
        rw [Nat.div_add_mod, Nat.add_mul, Nat.mul_right_comm]
      _ = m * Nat.pow 10 (s.scale + p).toNat := by
        rw [h.parts, htoNat, Nat.mul_assoc, tens_add]
  · change 0 ≤ s.scale + p
    omega

/-- The last digit is rounded to the nearer side. -/
private theorem roundLast_nearest (h : s.Divides m divisor) (hm : m ≤ divisor)
    (hlast : s.scale = 28) : ∃ r, roundLast s divisor = some r ∧ r.Nearest m divisor := by
  have hq := h.quotient_le hm
  have hparts := h.parts
  have hrest := h.rest_lt
  have hlimit := pow_lt_limit (p := 28) (by decide)
  rw [hlast] at hq hparts
  have hpow : Int.toNat 28 = 28 := rfl
  rw [hpow] at hq hparts
  unfold roundLast
  extract_lets up q
  have hnear : q ≤ s.quotient + 1 ∧ 2 * (q * divisor) ≤ 2 * (m * Nat.pow 10 28) + divisor ∧
      2 * (m * Nat.pow 10 28) ≤ 2 * (q * divisor) + divisor := by
    by_cases hup : up = true
    · have hhalf : divisor ≤ 2 * s.rest := by
        simp only [up, Bool.or_eq_true, decide_eq_true_eq, Bool.and_eq_true, beq_iff_eq] at hup
        omega
      rw [show q = s.quotient + 1 from if_pos hup, Nat.add_mul, Nat.one_mul]
      omega
    · have hhalf : 2 * s.rest ≤ divisor := by
        simp only [up, Bool.or_eq_true, decide_eq_true_eq, not_or] at hup
        omega
      rw [show q = s.quotient from if_neg hup]
      omega
  have hlt : q < limit := by omega
  rw [if_pos hlt]
  exact ⟨_, rfl, h.scale_nonneg, h.scale_le, hlt, .inr ⟨hlast, hnear.2⟩⟩

/-- Each round adds a digit until none is left to be divided or 28 are there. -/
private theorem divideOn_nearest (hm : m ≤ divisor) (n : Nat) {s : Quotient}
    (h : s.Divides m divisor) (hn : 28 < s.scale + n) :
    ∃ r, divideOn divisor n s = some r ∧ r.Nearest m divisor := by
  induction n generalizing s with
  | zero =>
    have hscale := h.scale_le
    omega
  | succ n ih =>
    have hscale := h.scale_nonneg
    have hscale' := h.scale_le
    have hq := h.quotient_le hm
    have hlimit := pow_lt_limit (p := s.scale.toNat) (by omega)
    rw [divideOn]
    by_cases hrest : s.rest = 0
    · rw [if_pos ⟨hrest, hscale⟩]
      have hparts := h.parts
      exact ⟨s, rfl, hscale, hscale', by omega, .inl (by omega)⟩
    · rw [if_neg (fun hdone => hrest hdone.1)]
      dsimp only
      rw [if_neg hrest, extraDigits_eq h hm, if_neg (by omega)]
      by_cases hlast : s.scale = 28
      · rw [if_pos (by omega)]
        exact roundLast_nearest (s := { s with extended := _ }) ⟨h.parts, h.rest_lt, hscale,
          hscale'⟩ hm hlast
      · rw [if_neg (by omega)]
        generalize hp : min 9 (28 - s.scale).toNat = p
        have hnext := h.extend (p := p) (by omega) (s.extended || s.rest != 0)
        have hle :
            s.quotient * Nat.pow 10 p + s.rest * Nat.pow 10 p / divisor ≤
              Nat.pow 10 (s.scale + p).toNat :=
          hnext.quotient_le hm
        have hold : s.quotient * Nat.pow 10 p ≤ Nat.pow 10 (s.scale + p).toNat :=
          Nat.le_trans (Nat.le_add_right ..) hle
        have hlt := pow_lt_limit (p := (s.scale + p).toNat) (by omega)
        rw [if_neg (by omega), if_pos (by omega)]
        refine ih hnext ?_
        change 28 < s.scale + p + n
        omega

/-- Written at 28 digits, the quotient is off by no more than half of the last one. -/
private theorem Quotient.Nearest.at_last (h : s.Nearest m divisor) {t : Nat × Nat}
    (ht : SameNumber t (s.quotient, s.scale.toNat)) :
    2 * (t.1 * Nat.pow 10 (28 - t.2) * divisor) ≤ 2 * (m * Nat.pow 10 28) + divisor ∧
      2 * (m * Nat.pow 10 28) ≤ 2 * (t.1 * Nat.pow 10 (28 - t.2) * divisor) + divisor := by
  obtain ⟨hle, heq⟩ := ht
  dsimp only at hle heq
  have hscale := h.scale_nonneg
  have hscale' := h.scale_le
  have hwritten : t.1 * Nat.pow 10 (28 - t.2) = s.quotient * Nat.pow 10 (28 - s.scale.toNat) := by
    have hsum : 28 - t.2 = (s.scale.toNat - t.2) + (28 - s.scale.toNat) := by omega
    rw [hsum, tens_add, ← Nat.mul_assoc, heq]
  rw [hwritten]
  rcases h.near with hexact | ⟨hlast, hnear⟩
  · have hvalue : s.quotient * Nat.pow 10 (28 - s.scale.toNat) * divisor = m * Nat.pow 10 28 := by
      have hsum : 28 = s.scale.toNat + (28 - s.scale.toNat) := by omega
      rw [Nat.mul_right_comm, hexact, Nat.mul_assoc, ← tens_add, ← hsum]
    rw [hvalue]
    omega
  · rw [hlast]
    change 2 * (s.quotient * 1 * divisor) ≤ _ ∧ _ ≤ 2 * (s.quotient * 1 * divisor) + _
    rw [Nat.mul_one]
    exact hnear

end

/-- A quotient of at most one is always there, and off by no more than half of the 28th digit. -/
theorem div?_le_one {a b : Decimal} (hb : 0 < b.mantissa) (hle : a.mantissa ≤ b.mantissa)
    (hs : a.scale = b.scale) :
    ∃ q, a.div? b = some q ∧ (q.negative = (a.negative != b.negative) ∨ q.mantissa = 0) ∧
      2 * (q.mantissa * Nat.pow 10 (28 - q.scale) * b.mantissa) ≤
        2 * (a.mantissa * Nat.pow 10 28) + b.mantissa ∧
      2 * (a.mantissa * Nat.pow 10 28) ≤ 2 * (q.mantissa * Nat.pow 10 (28 - q.scale) * b.mantissa) +
        b.mantissa := by
  rw [div?, isZero, if_neg (by simp; omega)]
  by_cases ha : a.mantissa = 0
  · rw [isZero, if_pos (by simp [ha])]
    refine ⟨zero, rfl, .inr rfl, ?_, ?_⟩ <;> simp [zero, ha]
  · have hstart : Quotient.Divides a.mantissa b.mantissa
        ⟨a.mantissa / b.mantissa, a.mantissa % b.mantissa, a.scale - b.scale, false⟩ := by
      have hzero : (a.scale : Int) - b.scale = 0 := by omega
      rw [hzero]
      refine ⟨?_, Nat.mod_lt _ hb, Int.le_refl 0, show (0 : Int) ≤ 28 by decide⟩
      exact (Nat.div_add_mod' _ _).trans (Nat.mul_one _).symm
    obtain ⟨r, hr, hnearest⟩ := divideOn_nearest hle 100 hstart (by
      change 28 < (a.scale : Int) - b.scale + (100 : Nat)
      omega)
    let t :=
      if r.extended then dropTrailingZeros 4 (r.quotient, r.scale.toNat)
      else (r.quotient, r.scale.toNat)
    have ht : SameNumber t (r.quotient, r.scale.toNat) := by
      dsimp only [t]
      split
      · exact dropTrailingZeros_same 4 _
      · exact sameNumber_refl _
    have hin : t.1 < limit ∧ t.2 ≤ maxScale := by
      have hpos : 0 < Nat.pow 10 (r.scale.toNat - t.2) := Nat.pow_pos (by decide)
      have hle : t.1 ≤ t.1 * Nat.pow 10 (r.scale.toNat - t.2) := Nat.le_mul_of_pos_right _ hpos
      have hlt := hnearest.in_range
      have hscale : t.2 ≤ r.scale.toNat := ht.1
      have hscale' := hnearest.scale_le
      have heq : t.1 * Nat.pow 10 (r.scale.toNat - t.2) = r.quotient := ht.2
      exact ⟨by omega, show t.2 ≤ 28 by omega⟩
    have hdiv : (do
        let r ← divideOn b.mantissa 100 ⟨a.mantissa / b.mantissa, a.mantissa % b.mantissa,
          a.scale - b.scale, false⟩
        let (m, s) := if r.extended then dropTrailingZeros 4 (r.quotient, r.scale.toNat)
          else (r.quotient, r.scale.toNat)
        mk? (a.negative != b.negative && m != 0) m s) =
        some ⟨a.negative != b.negative && t.1 != 0, t.1, t.2, hin.1, hin.2⟩ := by
      rw [hr]
      exact dif_pos hin
    rw [isZero, if_neg (by simp [ha])]
    refine ⟨_, hdiv, ?_, hnearest.at_last ht⟩
    by_cases hzero : t.1 = 0
    · exact .inr hzero
    · exact .inl (by simp [hzero])

end ExprTree.Decimal
