/-! Finite binary floats as exact numbers `± m * 2 ^ e`, and the exact operations on them. -/
namespace ExprTree

structure Dyadic where
  negative : Bool
  mantissa : Nat
  exponent : Int
  deriving DecidableEq

namespace Dyadic

/-- The fields of a finite float with `f` fraction bits and exponent bias `b`; a stored exponent of
`top` marks infinities and NaN. -/
def ofFields? (negative : Bool) (stored fraction f b top : Nat) : Option Dyadic :=
  if stored = top then none
  else if stored = 0 then some ⟨negative, fraction, 1 - b - f⟩
  else some ⟨negative, Nat.pow 2 f + fraction, stored - b - f⟩

def ofFloat? (x : Float) : Option Dyadic :=
  let n := x.toBits.toNat
  ofFields? (decide (Nat.pow 2 63 ≤ n)) (n / Nat.pow 2 52 % 2048) (n % Nat.pow 2 52) 52 1023 2047

def ofFloat32? (x : Float32) : Option Dyadic :=
  let n := x.toBits.toNat
  ofFields? (decide (Nat.pow 2 31 ≤ n)) (n / Nat.pow 2 23 % 256) (n % Nat.pow 2 23) 23 127 255

/-- The nearest float, half to even: the leading 64 bits, the last of which also stands for the
bits cut off, are more than a float holds. -/
def toFloat (d : Dyadic) : Float :=
  let cut := d.mantissa.log2 - 63
  let sticky := if d.mantissa % Nat.pow 2 cut = 0 then 0 else 1
  let x := ((d.mantissa >>> cut) ||| sticky).toUInt64.toFloat.scaleB (cut + d.exponent)
  if d.negative then -x else x

def ofInt (n : Int) : Dyadic := ⟨decide (n < 0), n.natAbs, 0⟩

/-- Truncation toward zero. -/
def truncate (d : Dyadic) : Int :=
  let n : Int := if 0 ≤ d.exponent then d.mantissa * Nat.pow 2 d.exponent.toNat
    else (d.mantissa / Nat.pow 2 (-d.exponent).toNat : Nat)
  if d.negative then -n else n

def isIntegral (d : Dyadic) : Bool :=
  decide (0 ≤ d.exponent) || d.mantissa % Nat.pow 2 (-d.exponent).toNat == 0

/-- The remainder of the truncated quotient, which is again a finite float. -/
def rem (a b : Dyadic) : Dyadic :=
  let e := min a.exponent b.exponent
  ⟨a.negative,
    (a.mantissa * Nat.pow 2 (a.exponent - e).toNat) %
      (b.mantissa * Nat.pow 2 (b.exponent - e).toNat), e⟩

end Dyadic

/-- The nearest float to an integer. -/
def floatOfInt (n : Int) : Float := (Dyadic.ofInt n).toFloat

def floatOfNat (n : Nat) : Float := floatOfInt n

def floatNaN : Float := Float.ofBits 0x7ff8000000000000

/-- The remainder with the sign of the dividend; dividing by an infinity leaves `x` as it is. -/
def floatRem (x y : Float) : Float :=
  match Dyadic.ofFloat? x, Dyadic.ofFloat? y with
  | none, _ => floatNaN
  | some _, none => if y.isNaN then floatNaN else x
  | some a, some b => if b.mantissa = 0 then floatNaN else (a.rem b).toFloat

/-- The remainder of two single floats is a single float. -/
def float32Rem (x y : Float32) : Float32 := (floatRem x.toFloat y.toFloat).toFloat32

/-- The bounds of 128-bit integers, to which floats beyond them are clamped. -/
def wideMax : Int := 170141183460469231731687303715884105727
def wideMin : Int := -170141183460469231731687303715884105728

/-- The integer part of a float within 128 bits; NaN counts as zero. -/
def floatTruncate (x : Float) : Int :=
  match Dyadic.ofFloat? x with
  | some d => max wideMin (min wideMax d.truncate)
  | none => if x.isNaN then 0 else if x < 0 then wideMin else wideMax

/-- The integer that a float denotes, if it denotes one. -/
def floatInt? (x : Float) : Option Int :=
  match Dyadic.ofFloat? x with
  | some d => if d.isIntegral then some d.truncate else none
  | none => none

end ExprTree
