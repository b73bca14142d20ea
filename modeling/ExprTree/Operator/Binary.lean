import ExprTree.Conversion
import ExprTree.Numeric.Decimal.Arithmetic

/-! Native binary operators. The left operand's kind decides: a number on the right is first
converted to it. -/
namespace ExprTree

namespace Comparison

def holds (c : Comparison) (o : Ordering) : Bool :=
  match c with
  | .equal => o == .eq
  | .notEqual => o != .eq
  | .less => o == .lt
  | .lessOrEqual => o != .gt
  | .greater => o == .gt
  | .greaterOrEqual => o != .lt

end Comparison

/-- The order of two operands under an operator; only comparisons have a rule. -/
def ordered (op : NodeKind) (o : Ordering) (operands : String) : Except Fault Value :=
  match op with
  | .binary (.compare c) => .ok (.bool (c.holds o))
  | op => .error (.unsupported op operands)

def orOverflow {α : Type} (o : Option α) (operation : String) : Except Fault α :=
  match o with
  | some a => .ok a
  | none => .error (.overflow operation)

namespace Word

/-- Unchecked operators wrap; exponents are 32 bits wide. -/
def arith {k : IntKind} (op : Arith) (a b : Word k) : Except Fault (Word k) :=
  match op with
  | .add => .ok (a.add b)
  | .subtract => .ok (a.sub b)
  | .multiply => .ok (a.mul b)
  | .addChecked => orOverflow (a.add? b) (k.name ++ " addition")
  | .subtractChecked => orOverflow (a.sub? b) (k.name ++ " subtraction")
  | .multiplyChecked => orOverflow (a.mul? b) (k.name ++ " multiplication")
  | .divide =>
    if b.toInt = 0 then .error .divideByZero else orOverflow (a.div? b) (k.name ++ " division")
  | .modulo =>
    if b.toInt = 0 then .error .divideByZero else orOverflow (a.rem? b) (k.name ++ " remainder")
  | .power =>
    if 0 ≤ b.toInt ∧ b.toInt < 4294967296 then .ok (a.pow b.toInt.toNat)
    else .error (.overflow (k.name ++ " power with an out-of-range exponent"))
  | .and => .ok (a.and b)
  | .or => .ok (a.or b)
  | .xor => .ok (a.xor b)
  | .shiftLeft => .ok (a.shiftLeft b.toInt)
  | .shiftRight => .ok (a.shiftRight b.toInt)

end Word

namespace Decimal

/-- A whole exponent of at most 64 bits; a negative one divides one by the power. -/
def power (b e : Decimal) : Except Fault Value := do
  if !e.isIntegral then
    .error (.unsupported (.binary (.arith .power)) "decimal with a fractional exponent")
  else if 18446744073709551616 ≤ e.truncate.natAbs then .error (.overflow "decimal power")
  else
    let p ← orOverflow (b.pow? e.truncate.natAbs) "decimal power"
    if !e.negative then .ok (.decimal p)
    else if p.isZero then .error .divideByZero
    else (orOverflow (one.div? p) "decimal power").map .decimal

end Decimal

def wordBinary (op : NodeKind) {k : IntKind} (a b : Word k) : Except Fault Value :=
  match op with
  | .binary (.arith op) => (a.arith op b).map (.int k)
  | op => ordered op (compare a.toInt b.toInt) k.name

/-- A float without order against the other, that is NaN, fails every comparison. -/
def floatOrdered (op : NodeKind) (less equal greater : Bool) (kind : String) :
    Except Fault Value :=
  if less then ordered op .lt kind
  else if equal then ordered op .eq kind
  else if greater then ordered op .gt kind
  else if op.isComparison then .ok (.bool false)
  else .error (.unsupported op kind)

def float64Binary (op : NodeKind) (a b : Float) : Except Fault Value :=
  match op with
  | .binary (.arith .add) | .binary (.arith .addChecked) => .ok (.float64 (a + b))
  | .binary (.arith .subtract) | .binary (.arith .subtractChecked) => .ok (.float64 (a - b))
  | .binary (.arith .multiply) | .binary (.arith .multiplyChecked) => .ok (.float64 (a * b))
  | .binary (.arith .divide) => .ok (.float64 (a / b))
  | .binary (.arith .modulo) => .ok (.float64 (floatRem a b))
  | .binary (.arith .power) => .ok (.float64 (a ^ b))
  | op => floatOrdered op (a < b) (a == b) (b < a) "f64"

def float32Binary (op : NodeKind) (a b : Float32) : Except Fault Value :=
  match op with
  | .binary (.arith .add) | .binary (.arith .addChecked) => .ok (.float32 (a + b))
  | .binary (.arith .subtract) | .binary (.arith .subtractChecked) => .ok (.float32 (a - b))
  | .binary (.arith .multiply) | .binary (.arith .multiplyChecked) => .ok (.float32 (a * b))
  | .binary (.arith .divide) => .ok (.float32 (a / b))
  | .binary (.arith .modulo) => .ok (.float32 (float32Rem a b))
  | .binary (.arith .power) => .ok (.float32 (a ^ b))
  | op => floatOrdered op (a < b) (a == b) (b < a) "f32"

def decimalBinary (op : NodeKind) (a b : Decimal) : Except Fault Value :=
  match op with
  | .binary (.arith .add) | .binary (.arith .addChecked) =>
    (orOverflow (a.add? b) "decimal addition").map .decimal
  | .binary (.arith .subtract) | .binary (.arith .subtractChecked) =>
    (orOverflow (a.sub? b) "decimal subtraction").map .decimal
  | .binary (.arith .multiply) | .binary (.arith .multiplyChecked) =>
    (orOverflow (a.mul? b) "decimal multiplication").map .decimal
  | .binary (.arith .divide) =>
    if b.isZero then .error .divideByZero
    else (orOverflow (a.div? b) "decimal division").map .decimal
  | .binary (.arith .modulo) =>
    if b.isZero then .error .divideByZero
    else (orOverflow (a.rem? b) "decimal remainder").map .decimal
  | .binary (.arith .power) => a.power b
  | op => ordered op (a.compare b) "decimal"

def boolBinary (op : NodeKind) (a b : Bool) : Except Fault Value :=
  match op with
  | .binary (.arith .and) | .binary .andAlso => .ok (.bool (a && b))
  | .binary (.arith .or) | .binary .orElse => .ok (.bool (a || b))
  | .binary (.arith .xor) => .ok (.bool (a != b))
  | op => .error (.unsupported op "bool")

/-- An operator on two operands, numbers of two kinds having no rule. -/
def kindBinary (op : NodeKind) (a b : Value) : Except Fault Value :=
  match a, b with
  | .int k v, .int l w => if h : l = k then wordBinary op v (h ▸ w) else mixed
  | .float32 x, .float32 y => float32Binary op x y
  | .float64 x, .float64 y => float64Binary op x y
  | .decimal x, .decimal y => decimalBinary op x y
  | .bool x, .bool y => boolBinary op x y
  | .char x, .char y => ordered op (compare x y) "char"
  | .str x, .str y => ordered op (compare x y) "str"
  | _, _ => mixed
where
  mixed := .error (.unsupported op (a.sortName ++ " and " ++ b.sortName))

/-- A shift count of any numeric kind is read as 32 bits. -/
def shift (op : Arith) (a b : Value) : Except Fault Value := do
  match ← b.coerce (.int .i32) with
  | .int .i32 n => match a with
    | .int k v =>
      .ok (.int k (if op = .shiftLeft then v.shiftLeft n.toInt else v.shiftRight n.toInt))
    | a => .error (.unsupported (.binary (.arith op)) a.sortName)
  | _ => .error (.unsupported (.binary (.arith op)) "a non-integer shift count")

/-- The text of an operand of a concatenation; null and void have none. -/
def Value.concatText? (s : Store) : Value → Option String
  | .null | .void => some ""
  | v => v.text? s

def concat (s : Store) (a b : Value) : Except Fault Value :=
  match a.concatText? s, b.concatText? s with
  | some x, some y => .ok (.str (x ++ y))
  | _, _ => .error .endless

/-- The native rule of an operator, or the error that there is none. A string on either side of a
plus concatenates, and equality is defined for all values. -/
def NodeKind.applyBinary (op : NodeKind) (s : Store) (a b : Value) : Except Fault Value :=
  match op with
  | .binary (.arith .add) => if a.str?.isSome || b.str?.isSome then concat s a b else coerced
  | .binary (.arith .shiftLeft) => shift .shiftLeft a b
  | .binary (.arith .shiftRight) => shift .shiftRight a b
  | .binary (.compare .equal) => .ok (.bool (a.valuesEqual b))
  | .binary (.compare .notEqual) => .ok (.bool (!a.valuesEqual b))
  | _ => coerced
where
  coerced := do
    match a.numKind? with
    | some k => kindBinary op a (← b.coerce k)
    | none => kindBinary op a b

end ExprTree
