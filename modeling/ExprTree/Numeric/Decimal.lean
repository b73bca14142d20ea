import ExprTree.Numeric.Rounding

/-! Decimal numbers: a sign, a mantissa below `2 ^ 96` and a scale of at most 28 digits after the
point. The scale is part of a number's text and not of its value. -/
namespace ExprTree

structure Decimal where
  negative : Bool
  mantissa : Nat
  scale : Nat
  mantissa_lt : mantissa < 79228162514264337593543950336
  scale_le : scale ≤ 28
  deriving DecidableEq

namespace Decimal

/-- The first mantissa that does not fit. -/
def limit : Nat := 79228162514264337593543950336

theorem limit_eq : limit = Nat.pow 2 96 := by decide

def maxScale : Nat := 28

/-- The decimal with these parts, if both are in range. -/
def mk? (negative : Bool) (mantissa scale : Nat) : Option Decimal :=
  if h : mantissa < limit ∧ scale ≤ maxScale then some ⟨negative, mantissa, scale, h.1, h.2⟩
  else none

def zero : Decimal := ⟨false, 0, 0, by decide, by decide⟩
def one : Decimal := ⟨false, 1, 0, by decide, by decide⟩

def ofInt? (n : Int) : Option Decimal := mk? (decide (n < 0)) n.natAbs 0

def isZero (d : Decimal) : Bool := d.mantissa == 0

def neg (d : Decimal) : Decimal := { d with negative := !d.negative }

/-- The signed mantissa at scale `s`, exact when `s` is at least the number's own scale. -/
def scaledTo (d : Decimal) (s : Nat) : Int :=
  let m : Int := d.mantissa * Nat.pow 10 (s - d.scale)
  if d.negative then -m else m

/-- Order and equality are numeric: `1.0`, `1.00` and both zeros are not told apart. -/
def compare (a b : Decimal) : Ordering :=
  let s := max a.scale b.scale
  Ord.compare (a.scaledTo s) (b.scaledTo s)

/-- Truncation toward zero. -/
def truncate (d : Decimal) : Int :=
  let n : Int := (d.mantissa / Nat.pow 10 d.scale : Nat)
  if d.negative then -n else n

def isIntegral (d : Decimal) : Bool := d.mantissa % Nat.pow 10 d.scale == 0

/-- Drops as few digits of `n` at scale `s` as the ranges of mantissa and scale ask for, rounding
once, half to even. -/
def fit? (negative : Bool) (n s : Nat) : Option Decimal :=
  (List.range' (s - maxScale) (s + 1 - (s - maxScale))).findSome? fun k =>
    mk? negative (roundHalfEven n (Nat.pow 10 k)) (s - k)

/-- All digits after the point are written, and the sign of zero too. -/
def text (d : Decimal) : String :=
  let digits := (d.mantissa / Nat.pow 10 d.scale).repr
  let fraction := (d.mantissa % Nat.pow 10 d.scale).repr
  let sign := if d.negative then "-" else ""
  if d.scale = 0 then sign ++ digits
  else sign ++ digits ++ "." ++ String.ofList (List.replicate (d.scale - fraction.length) '0') ++
    fraction

/-- The mantissa and scale after the digits of a fraction. The first digit that does not fit rounds
the number, a half up, and no more are read; `none` when the rounded number does not fit either. -/
private def readFraction (n s : Nat) : List Nat → Option (Nat × Nat)
  | [] => some (n, s)
  | d :: r =>
    if n * 10 + d < limit ∧ s < maxScale then readFraction (n * 10 + d) (s + 1) r
    else if d < 5 then some (n, s)
    else if n + 1 < limit then some (n + 1, s)
    else if s = 0 then none
    else some ((n + 5) / 10, s - 1)

/-- Reads a sign, digits and an optional fraction, keeping the scale; zero is read without sign. -/
def ofText? (s : String) : Option Decimal :=
  let (negative, body) := match s.toList with
    | '-' :: r => (true, r)
    | '+' :: r => (false, r)
    | r => (false, r)
  let whole := body.takeWhile (· != '.')
  let fraction := (body.dropWhile (· != '.')).drop 1
  let values (cs : List Char) : List Nat := cs.map fun c => c.toNat - 48
  if (whole ++ fraction).isEmpty || !(whole ++ fraction).all Char.isDigit then none
  else
    let n := (values whole).foldl (fun n d => n * 10 + d) 0
    if n < limit then
      (readFraction n 0 (values fraction)).bind fun (m, t) => mk? (negative && m != 0) m t
    else none

end Decimal

end ExprTree
