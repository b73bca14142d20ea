import ExprTree.Numeric.Decimal
import ExprTree.Numeric.Dyadic

/-! Decimals from binary floats and back. -/
namespace ExprTree.Decimal

/-- A float under conversion, as `mantissa * 10 ^ tens * 5 ^ fives`. -/
private structure Stage where
  mantissa : Nat
  tens : Int
  fives : Int

/-- Absorbs factors of five: an even mantissa is halved against a ten, any other is multiplied while
there is room and halved, losing a bit, when there is none. -/
private def absorbFives : Nat → Stage → Stage
  | 0, s => s
  | n + 1, s =>
    if s.fives ≤ 0 then s
    else if s.mantissa % 2 = 0 then absorbFives n ⟨s.mantissa / 2, s.tens + 1, s.fives - 1⟩
    else if s.mantissa * 5 < limit then absorbFives n ⟨s.mantissa * 5, s.tens, s.fives - 1⟩
    else absorbFives n ⟨s.mantissa / 2, s.tens + 1, s.fives - 1⟩

/-- Absorbs fifths by doubling against a ten, or by division when there is no room; `none` when the
number is out of range. -/
private def absorbFifths : Nat → Stage → Option Stage
  | 0, _ => none
  | n + 1, s =>
    if 0 ≤ s.fives then some s
    else if s.mantissa < Nat.pow 2 95 then absorbFifths n ⟨s.mantissa * 2, s.tens - 1, s.fives + 1⟩
    else if 2 * s.tens > -s.fives then none
    else absorbFifths n ⟨s.mantissa / 5, s.tens, s.fives + 1⟩

private def raise : Nat → Nat → Option Nat
  | 0, m => some m
  | n + 1, m => if m * 10 < limit then raise n (m * 10) else none

/-- Drops one digit, a half away from zero. -/
private def dropDigit (m : Nat) : Nat := if 5 ≤ m % 10 then m / 10 + 1 else m / 10

/-- Drops digits down to scale 28; nothing left means zero. -/
private def dropBelow : Nat → Nat × Int → Nat × Int
  | 0, s => s
  | n + 1, (m, t) =>
    if -28 ≤ t then (m, t)
    else if m / 10 = 0 then (0, 0)
    else dropBelow n (dropDigit m, t + 1)

/-- Drops digits after the point that are beyond the precision of a float. -/
private def dropImprecise : Nat → Nat × Int → Nat × Int
  | 0, s => s
  | n + 1, (m, t) =>
    if t < 0 ∧ Nat.pow 2 52 ≤ m then dropImprecise n (dropDigit m, t + 1) else (m, t)

private def dropFinalZeros : Nat → Nat × Int → Nat × Int
  | 0, s => s
  | n + 1, (m, t) => if t < 0 ∧ m % 10 = 0 then dropFinalZeros n (m / 10, t + 1) else (m, t)

def ofDyadic? (d : Dyadic) : Option Decimal :=
  if d.mantissa = 0 then mk? d.negative 0 0
  else do
    let s ← absorbFifths 4000 (absorbFives 4000 ⟨d.mantissa, d.exponent, -d.exponent⟩)
    let m ← raise s.tens.toNat s.mantissa
    let t := min s.tens 0
    let (m, t) := dropFinalZeros 40 (dropImprecise 40 (dropBelow 4000 (m, t)))
    mk? d.negative m (-t).toNat

/-- The decimal nearest to a float within about its precision; infinities and NaN have none. -/
def ofFloat? (x : Float) : Option Decimal := (Dyadic.ofFloat? x).bind ofDyadic?

/-- `r * a ^ n` in floats, by repeated squaring. -/
private def floatPower (r a : Float) (n : Nat) : Float :=
  if h : n = 0 then r
  else floatPower (if n % 2 = 1 then r * a else r) (a * a) (n / 2)
termination_by n
decreasing_by omega

/-- A fraction is added in floats and the sum rounded again at the number's scale. Zero without
digits after the point has no sign. -/
def toFloat (d : Decimal) : Float :=
  let x :=
    if d.scale = 0 then floatOfNat d.mantissa
    else
      let whole := floatOfNat (d.mantissa / Nat.pow 10 d.scale)
      let part := floatOfNat (d.mantissa % Nat.pow 10 d.scale) / floatOfNat (Nat.pow 10 d.scale)
      if part == 0 then whole
      else
        let p := floatPower 1 10 d.scale
        Float.round ((whole + part) * p) / p
  if d.negative && !(d.isZero && d.scale == 0) then -x else x

end ExprTree.Decimal
