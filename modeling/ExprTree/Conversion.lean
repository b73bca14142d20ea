import ExprTree.Error
import ExprTree.Numeric.Decimal.Binary

/-! Conversions of numbers, characters and references. An unchecked conversion to an integer wraps,
a checked one raises; out of a decimal every conversion is checked. -/
namespace ExprTree

/-- A number or character on its way to another kind. -/
inductive Wide where
  | int (n : Int)
  | float (x : Float)
  | decimal (d : Decimal)

namespace Wide

def of? : Value → Option Wide
  | .char c => some (.int c.toNat)
  | .int _ w => some (.int w.toInt)
  | .float32 x => some (.float x.toFloat)
  | .float64 x => some (.float x)
  | .decimal d => some (.decimal d)
  | _ => none

/-- The integer part, and whether it must be in range. -/
def integral (w : Wide) (checked : Bool) (operation : String) : Except Fault (Int × Bool) :=
  match w with
  | .int n => .ok (n, checked)
  | .float x =>
    if checked && !x.isFinite then .error (.overflow operation) else .ok (floatTruncate x, checked)
  | .decimal d => .ok (d.truncate, true)

def toWord (w : Wide) (k : IntKind) (checked : Bool) : Except Fault (Word k) := do
  let operation := "conversion to " ++ k.name
  let (n, checked) ← w.integral checked operation
  if checked then
    match Word.ofInt? k n with
    | some w => .ok w
    | none => .error (.overflow operation)
  else .ok (Word.wrap k n)

/-- The nearest float. -/
def toFloat : Wide → Float
  | .int n => floatOfInt n
  | .float x => x
  | .decimal d => d.toFloat

def toDecimal? : Wide → Option Decimal
  | .int n => Decimal.ofInt? n
  | .float x => Decimal.ofFloat? x
  | .decimal d => some d

def toNumber (w : Wide) (kind : NumKind) (checked : Bool) : Except Fault Value :=
  match kind with
  | .int k => (w.toWord k checked).map (.int k)
  | .float32 => .ok (.float32 w.toFloat.toFloat32)
  | .float64 => .ok (.float64 w.toFloat)
  | .decimal => match w.toDecimal? with
    | some d => .ok (.decimal d)
    | none => .error (.overflow "conversion to decimal")

/-- The character of a 16-bit code; the codes of surrogates have none. -/
def toChar (w : Wide) (checked : Bool) : Except Fault Value := do
  let operation := "conversion to char"
  let (n, checked) ← w.integral checked operation
  if checked && !(0 ≤ n && n < 65536) then .error (.overflow operation)
  else
    let code := (n % 65536).toNat
    if code.isValidChar then .ok (.char (Char.ofNat code)) else .error (.overflow operation)

/-- Equality without loss; a decimal and a float are equal when each converts to the other. -/
def eqv : Wide → Wide → Bool
  | .int a, .int b => a == b
  | .decimal a, .decimal b => a.compare b == .eq
  | .float a, .float b => a == b
  | .int n, .decimal d | .decimal d, .int n => (Decimal.ofInt? n).any fun e => e.compare d == .eq
  | .int n, .float x | .float x, .int n => floatInt? x == some n
  | .decimal d, .float x | .float x, .decimal d =>
    (Decimal.ofFloat? x).any (fun e => e.compare d == .eq) && d.toFloat == x

end Wide

namespace Value

def convertReference (v : Value) (target : Ty) : Except Fault Value :=
  if v.isNull then
    if target.isReference then .ok .null
    else .error (.raise .nullReference ("cannot convert null to " ++ target.text))
  else if v.isInstanceOf target then .ok v
  else .error (.invalidCast v.runtimeType target)

/-- Numbers and characters convert to any numeric type and to `char`; all else stays as it is when
it is an instance of the target. -/
def convert (v : Value) (target : Ty) (checked : Bool) : Except Fault Value :=
  if target.isVoid then .ok .void
  else match Wide.of? v, target.numKind?, target with
    | some w, some k, _ => w.toNumber k checked
    | some w, none, .char => w.toChar checked
    | _, _, _ => v.convertReference target

/-- A number of another kind is converted without checks; all else stays as it is. -/
def coerce (v : Value) (kind : NumKind) : Except Fault Value :=
  match v.numKind? with
  | none => .ok v
  | some k =>
    if k = kind then .ok v
    else match Wide.of? v with
      | some w => w.toNumber kind false
      | none => .ok v

/-- The value itself or null. -/
def typeAs (v : Value) (t : Ty) : Value := if v.isInstanceOf t then v else .null

/-- The value itself when its type is exactly the target. -/
def unbox (v : Value) (t : Ty) : Except Fault Value :=
  if v.isNull then .error (.raise .nullReference ("cannot unbox null as " ++ t.text))
  else if v.runtimeType = t then .ok v
  else .error (.invalidCast v.runtimeType t)

/-- Equality as the operators and the switch see it: numbers of two kinds compare by value. -/
def valuesEqual (a b : Value) : Bool :=
  match a.numKind?, b.numKind? with
  | some k, some l =>
    if k = l then a.eqv b
    else match Wide.of? a, Wide.of? b with
      | some x, some y => x.eqv y
      | _, _ => false
  | _, _ => a.eqv b

end Value

end ExprTree
