import ExprTree.Operator.Binary

/-! Native unary operators. -/
namespace ExprTree

def wordUnary (op : NodeKind) {k : IntKind} (a : Word k) : Except Fault Value :=
  match op with
  | .unary (.arith .negate) => .ok (.int k a.neg)
  | .unary (.arith .negateChecked) => match a.neg? with
    | some b => .ok (.int k b)
    | none => .error (.overflow (k.name ++ " negation"))
  | .unary (.arith .plus) => .ok (.int k a)
  | .unary (.arith .not) | .unary (.arith .complement) => .ok (.int k a.complement)
  | .unary (.arith .increment) => .ok (.int k (.wrap k (a.toInt + 1)))
  | .unary (.arith .decrement) => .ok (.int k (.wrap k (a.toInt - 1)))
  | op => .error (.unsupported op k.name)

def float64Unary (op : NodeKind) (x : Float) : Except Fault Value :=
  match op with
  | .unary (.arith .negate) | .unary (.arith .negateChecked) => .ok (.float64 (-x))
  | .unary (.arith .plus) => .ok (.float64 x)
  | .unary (.arith .increment) => .ok (.float64 (x + 1))
  | .unary (.arith .decrement) => .ok (.float64 (x - 1))
  | op => .error (.unsupported op "f64")

def float32Unary (op : NodeKind) (x : Float32) : Except Fault Value :=
  match op with
  | .unary (.arith .negate) | .unary (.arith .negateChecked) => .ok (.float32 (-x))
  | .unary (.arith .plus) => .ok (.float32 x)
  | .unary (.arith .increment) => .ok (.float32 (x + 1))
  | .unary (.arith .decrement) => .ok (.float32 (x - 1))
  | op => .error (.unsupported op "f32")

def decimalUnary (op : NodeKind) (d : Decimal) : Except Fault Value :=
  match op with
  | .unary (.arith .negate) | .unary (.arith .negateChecked) => .ok (.decimal d.neg)
  | .unary (.arith .plus) => .ok (.decimal d)
  | .unary (.arith .increment) => match d.add? .one with
    | some e => .ok (.decimal e)
    | none => .error (.overflow "decimal increment")
  | .unary (.arith .decrement) => match d.sub? .one with
    | some e => .ok (.decimal e)
    | none => .error (.overflow "decimal decrement")
  | op => .error (.unsupported op "decimal")

def boolUnary (op : NodeKind) (b : Bool) : Except Fault Value :=
  match op with
  | .unary (.arith .not) | .unary (.arith .isFalse) => .ok (.bool (!b))
  | .unary (.arith .isTrue) => .ok (.bool b)
  | op => .error (.unsupported op "bool")

def arrayUnary (op : NodeKind) (length : Nat) : Except Fault Value :=
  match op with
  | .unary (.arith .arrayLength) => match Word.ofInt? .i32 length with
    | some n => .ok (.int .i32 n)
    | none => .error (.overflow "array length")
  | op => .error (.unsupported op "array")

/-- The native rule of an operator, or the error that there is none. -/
def NodeKind.applyUnary (op : NodeKind) (s : Store) : Value → Except Fault Value
  | .int _ w => wordUnary op w
  | .float32 x => float32Unary op x
  | .float64 x => float64Unary op x
  | .decimal d => decimalUnary op d
  | .bool b => boolUnary op b
  | .array _ addr => arrayUnary op (s.arrayItems addr).size
  | v => .error (.unsupported op v.sortName)

end ExprTree
