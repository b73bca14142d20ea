import ExprTree.Eval.Place

/-! Operator nodes. -/
namespace ExprTree.Evaluator

variable (ev : Evaluator)

def evalBool (n : Node) : Eval Bool := do
  let v ← ev.eval n
  match v.bool? with
  | some b => return b
  | none => Eval.fault (.typeMismatch "bool" v.sortName)

def evalBinary (op : BinaryOp) (l r : Node) (m : Option Method) (conversion : Option Lambda) :
    Eval Value :=
  match op with
  | .assign => ev.assignment l r
  | .compound op => ev.compound op l r m conversion
  | .andAlso => do
    if ← ev.evalBool l then return .bool (← ev.evalBool r) else return .bool false
  | .orElse => do
    if ← ev.evalBool l then return .bool true else return .bool (← ev.evalBool r)
  | .coalesce => do
    let v ← ev.eval l
    if v.isNull then ev.eval r
    else match conversion with
      | some f => ev.convertBy f v
      | none => return v
  | .arrayIndex => do
    let array ← ev.eval l
    let index ← ev.eval r
    let (addr, position) ← Eval.ofExcept (Value.element (← Eval.store) array index)
    Eval.ofExcept ((← Eval.store).readElement addr position)
  | .arith _ | .compare _ => do
    let a ← ev.eval l
    let b ← ev.eval r
    ev.applyBinary (.binary op) m a b

/-- Throws an exception object, or the one being handled when there is no operand. -/
def evalThrow : Option Node → Eval Value
  | none => do
    match (← Eval.get).handling with
    | x :: _ => Eval.signal (.thrown x)
    | [] => Eval.fault (.invalidOperation "rethrow outside of a catch handler")
  | some n => do
    let v ← ev.eval n
    if v.isNull then Eval.fault (.raise .nullReference "the thrown value is null")
    else if v.isException then Eval.signal (.thrown v)
    else Eval.fatal (.notAnException v.sortName)

/-- A unary operator on its operand's value. -/
def applyUnaryOp (op : UnaryOp) (m : Option Method) (ty : Ty) (v : Value) : Eval Value :=
  match m with
  | some m => ev.method m none [v]
  | none => match op with
    | .convert => Eval.ofExcept (v.convert ty false)
    | .convertChecked => Eval.ofExcept (v.convert ty true)
    | .typeAs => return v.typeAs ty
    | .unbox => Eval.ofExcept (v.unbox ty)
    | .arith .arrayLength =>
      if v.isNull then Eval.fault (.invalidOperation "cannot read the length of a null array")
      else ev.applyUnary (.unary op) none v
    | op => ev.applyUnary (.unary op) none v

def evalUnary (op : UnaryOp) (operand : Option Node) (m : Option Method) (ty : Ty) : Eval Value :=
  match op, operand with
  | .throw, x => ev.evalThrow x
  | op, none => Eval.fatal (.unsupportedNode (.unary op))
  | .quote, some x => return .expr x
  | .preIncrement, some x => ev.step .increment false x m
  | .preDecrement, some x => ev.step .decrement false x m
  | .postIncrement, some x => ev.step .increment true x m
  | .postDecrement, some x => ev.step .decrement true x m
  | op, some x => do
    let v ← ev.eval x
    applyUnaryOp ev op m ty v

def evalTypeTest (test : TypeTest) (x : Node) (target : Ty) : Eval Value := do
  let v ← ev.eval x
  return .bool <| match test with
    | .is => v.isInstanceOf target
    | .equal => v.hasExactType target

end ExprTree.Evaluator
