import ExprTree.Numeric.Dyadic

/-! The shortest decimal text of a float: the fewest digits that read back as the same float, the
nearest such number, always written positionally. -/
namespace ExprTree.Shortest

/-- `digits * 10 ^ exponent`. -/
structure Digits where
  digits : Nat
  exponent : Int

/-- The numbers that round to `mantissa * 2 ^ exponent` reach half a step up, and half a step down
or a quarter when the float is the first one of its binade; the ends belong to them when the
mantissa is even. -/
structure Interval where
  mantissa : Nat
  exponent : Int
  first : Bool

/-- The value, its lower end and its upper end over one denominator, with `10 ^ j` as the unit. -/
private def scaled (v : Interval) (j : Int) : Nat × Nat × Nat × Nat :=
  let up := Nat.pow 2 (v.exponent - 2).toNat * Nat.pow 10 (-j).toNat
  let down := Nat.pow 2 (2 - v.exponent).toNat * Nat.pow 10 j.toNat
  (4 * v.mantissa * up, (4 * v.mantissa - if v.first then 1 else 2) * up,
    (4 * v.mantissa + 2) * up, down)

/-- The multiple of `10 ^ j` nearest to the value among its two neighbours on that grid that read
back; a tie goes up. -/
def onGrid? (v : Interval) (j : Int) : Option Digits :=
  let (value, low, high, unit) := scaled v j
  let below := value / unit
  let closed := v.mantissa % 2 == 0
  let belowReads := decide (low < below * unit) || (closed && low == below * unit)
  let aboveReads := decide ((below + 1) * unit < high) || (closed && (below + 1) * unit == high)
  if belowReads && (!aboveReads || decide (value - below * unit < (below + 1) * unit - value)) then
    some ⟨below, j⟩
  else if aboveReads then some ⟨below + 1, j⟩
  else none

/-- Tries ever finer grids. -/
def search (v : Interval) : Nat → Int → Digits
  | 0, j => ⟨0, j⟩
  | n + 1, j => (onGrid? v j).getD (search v n (j - 1))

/-- Starts on a grid that is coarser than the value. -/
def digits (v : Interval) : Digits :=
  search v 30 ((v.mantissa.log2 + v.exponent + 1) * 30103 / 100000 + 1)

private def zeros (n : Nat) : String := String.ofList (List.replicate n '0')

/-- Digits with a decimal point where one is needed, and without an exponent. -/
def positional (d : Digits) : String :=
  let ds := d.digits.repr
  if 0 ≤ d.exponent then ds ++ zeros d.exponent.toNat
  else
    let places := (-d.exponent).toNat
    if places < ds.length then
      String.ofList (ds.toList.take (ds.length - places)) ++ "." ++
        String.ofList (ds.toList.drop (ds.length - places))
    else "0." ++ zeros (places - ds.length) ++ ds

/-- The text of a finite float with `f` fraction bits and least exponent `least`. -/
def text (d : Dyadic) (f : Nat) (least : Int) : String :=
  let sign := if d.negative then "-" else ""
  if d.mantissa = 0 then sign ++ "0"
  else sign ++
    positional (digits ⟨d.mantissa, d.exponent, d.mantissa == Nat.pow 2 f && d.exponent != least⟩)

end ExprTree.Shortest

namespace ExprTree

def floatText (x : Float) : String :=
  match Dyadic.ofFloat? x with
  | some d => Shortest.text d 52 (-1074)
  | none => if x.isNaN then "NaN" else if x < 0 then "-inf" else "inf"

def float32Text (x : Float32) : String :=
  match Dyadic.ofFloat32? x with
  | some d => Shortest.text d 23 (-149)
  | none => if x.isNaN then "NaN" else if x < 0 then "-inf" else "inf"

end ExprTree
