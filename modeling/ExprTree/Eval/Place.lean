import ExprTree.Eval.Handle
import ExprTree.Operator.Element
import ExprTree.Operator.Unary

/-! Places: what stands on the left of an assignment. Receiver and indices are evaluated once, when
the place is found, and the place is then read and written. -/
namespace ExprTree

inductive Place where
  | slot (p : Param)
  | member (target : Option Value) (m : Member)
  | element (addr position : Nat)
  | item (target : Value) (i : Indexer) (args : List Value)

namespace Evaluator

variable (ev : Evaluator)

def evalAll : List Node → Eval (List Value)
  | [] => return []
  | n :: ns => do
    let v ← ev.eval n
    return v :: (← evalAll ns)

/-- A receiver must not be null. -/
def receiver (object : Node) (member : String) : Eval Value := do
  let v ← ev.eval object
  if v.isNull then
    Eval.fault (.invalidOperation ("\x60" ++ member ++ "\x60 accessed through a null reference"))
  else return v

def receiver? (object : Option Node) (member : String) : Eval (Option Value) :=
  match object with
  | none => return none
  | some x => some <$> ev.receiver x member

/-- The target of an indexer must not be null. -/
def indexed (i : Indexer) (target : Value) : Eval Unit :=
  if target.isNull then
    Eval.fault
      (.invalidOperation ("indexer \x60" ++ i.name ++ "\x60 accessed through a null reference"))
  else return ()

def place : Node → Eval Place
  | .param p => return .slot p
  | .member _ object m => do return .member (← ev.receiver? object m.name) m
  | .index _ object indexer args _ => do
    let target ← ev.eval object
    let args ← ev.evalAll args
    match indexer, args with
    | some i, args => do
      indexed i target
      return .item target i args
    | none, [index] => do
      let (addr, position) ← Eval.ofExcept (Value.element (← Eval.store) target index)
      return .element addr position
    | none, args => Eval.fatal (.arityMismatch "array index" 1 args.length)
  | n => Eval.fatal (.notAssignable n.kind)

def lookup (p : Param) : Eval Value := do
  match (← Eval.get).env.lookup p.id with
  | some v => return v
  | none => Eval.fatal (.unboundParameter p.text)

def assign (p : Param) (v : Value) : Eval Unit := fun s =>
  match s.env.assign? p.id v with
  | some env => .value () { s with env }
  | none => .signal (.fatal (.unboundParameter p.text)) s

def writeElement (addr position : Nat) (v : Value) : Eval Unit := do
  let length := ((← Eval.store).arrayItems addr).size
  if position < length then Eval.withStore fun s => ((), s.setArrayItem addr position v)
  else Eval.fault (.indexOutOfRange position length)

def read : Place → Eval Value
  | .slot p => lookup p
  | .member target m => ev.get m target
  | .element addr position => do Eval.ofExcept ((← Eval.store).readElement addr position)
  | .item target i args => ev.getItem i target args

def write : Place → Value → Eval Unit
  | .slot p, v => assign p v
  | .member target m, v => ev.set m target v
  | .element addr position, v => writeElement addr position v
  | .item target i args, v => ev.setItem i target args v

/-- A conversion lambda is called as a closure made here and now. -/
def convertBy (f : Lambda) (v : Value) : Eval Value := do
  let s ← Eval.get
  ev.callLambda f s.env.capture s.limit [v]

/-- A binary operator on values: its method if it has one, else the native rule. -/
def applyBinary (op : NodeKind) (m : Option Method) (a b : Value) : Eval Value :=
  match m with
  | some m => ev.method m none [a, b]
  | none => do Eval.ofExcept (op.applyBinary (← Eval.store) a b)

def applyUnary (op : NodeKind) (m : Option Method) (v : Value) : Eval Value :=
  match m with
  | some m => ev.method m none [v]
  | none => do Eval.ofExcept (op.applyUnary (← Eval.store) v)

def assignment (target right : Node) : Eval Value := do
  let place ← ev.place target
  let v ← ev.eval right
  ev.write place v
  return v

/-- The place is read before the right operand is evaluated, and written last. -/
def compound (op : Arith) (target right : Node) (m : Option Method) (conversion : Option Lambda) :
    Eval Value := do
  let place ← ev.place target
  let a ← ev.read place
  let b ← ev.eval right
  let v ← ev.applyBinary (.binary (.arith op)) m a b
  let v ← match m, conversion with
    | some _, some f => ev.convertBy f v
    | _, _ => pure v
  ev.write place v
  return v

/-- The value after the step, or for the post forms the one before. -/
def step (op : UnaryArith) (post : Bool) (target : Node) (m : Option Method) : Eval Value := do
  let place ← ev.place target
  let old ← ev.read place
  let new ← ev.applyUnary (.unary (.arith op)) m old
  ev.write place new
  return if post then old else new

end Evaluator

end ExprTree
