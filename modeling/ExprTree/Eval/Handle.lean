import ExprTree.Eval.Monad

/-! Calls: lambdas, delegates, and the host's handles. -/
namespace ExprTree

/-- What the parts of the evaluator share: the host, how deep the evaluation may still go, and the
evaluation of a node at that depth. -/
structure Evaluator where
  host : Host
  depth : Nat
  eval : Node → Eval Value

namespace Evaluator

variable (ev : Evaluator)

/-- Evaluates the body over the arguments. A jump out of it is an error, and void discards its
value. -/
def runLambda (f : Lambda) (args : List Value) : Eval Value :=
  if f.params.length ≠ args.length then
    Eval.fatal (.arityMismatch (f.name.getD "lambda") f.params.length args.length)
  else do
    Eval.modify fun s => { s with steps := 0, handling := [] }
    match ← ((ev.eval f.body).withBindings ((f.params.map Param.id).zip args)).outcome with
    | .ok v => return if f.ret.isVoid then .void else v
    | .error (.jump l _) => Eval.fatal (.unresolvedGoto l.text)
    | .error x => Eval.signal x

/-- Runs on the store alone: in a fresh environment over captured values, with no exception being
handled and no steps counted, and with the caller's own state restored at the end. -/
def isolated (captures : Slots) (limit : Option Nat) (m : Eval Value) : Eval Value := fun s =>
  match m ⟨.ofCaptures captures, [], 0, limit, s.store⟩ with
  | .value v t => .value v { s with store := t.store }
  | .signal x t => .signal x { s with store := t.store }
  | .endless => .endless

def callLambda (f : Lambda) (captures : Slots) (limit : Option Nat)
    (args : List Value) : Eval Value :=
  isolated captures limit (ev.runLambda f args)

/-- Runs host code, with `call` for the delegates that it invokes. The state's store is put aside:
the routine has it until it finishes or invokes. -/
def runRoutine (call : Value → List Value → Eval Value) : Routine → Eval Value
  | .finish result store => fun s => Eval.ofResult result { s with store }
  | .invoke f args store resume => fun s =>
    match call f args { s with store } with
    | .value v t => runRoutine call (resume (.ok v) t.store) { t with store := {} }
    | .signal x t => runRoutine call (resume (.error x) t.store) { t with store := {} }
    | .endless => .endless

/-- Runs host code on the store as it is. -/
@[inline] def onStore (call : Value → List Value → Eval Value)
    (run : Store → Routine) : Eval Value :=
  fun s => runRoutine call (run s.store) { s with store := {} }

/-- Calls a delegate; an address without one has no outcome. A host's delegate may invoke others, to
the depth `n`. -/
def callDelegate : Nat → Value → List Value → Eval Value
  | n, .delegate sig addr, args =>
    if sig.arity ≠ args.length then Eval.fatal (.arityMismatch "delegate" sig.arity args.length)
    else do
      match (← Eval.store).delegates[addr]? with
      | some (.closure f captures limit) => ev.callLambda f captures limit args
      | some (.host id) => match n with
        | 0 => Eval.endless
        | n + 1 => onStore (callDelegate n) (ev.host.delegate id args)
      | none => Eval.endless
  | _, .null, _ => Eval.fault (.invalidOperation "cannot invoke a null delegate")
  | _, v, _ => Eval.fault (.typeMismatch "delegate" v.sortName)

def invoke (f : Value) (args : List Value) : Eval Value := callDelegate ev ev.depth f args

def onHost (run : Store → Routine) : Eval Value := onStore ev.invoke run

def method (m : Method) (receiver : Option Value) (args : List Value) : Eval Value :=
  onHost ev (ev.host.callMethod m receiver args)

def construct (c : Constructor) (args : List Value) : Eval Value :=
  onHost ev (ev.host.callConstructor c args)

def get (m : Member) (target : Option Value) : Eval Value := onHost ev (ev.host.readMember m target)

def set (m : Member) (target : Option Value) (v : Value) : Eval Unit := do
  let _ ← onHost ev (ev.host.writeMember m target v)

def getItem (i : Indexer) (target : Value) (args : List Value) : Eval Value :=
  onHost ev (ev.host.readItem i target args)

def setItem (i : Indexer) (target : Value) (args : List Value) (v : Value) : Eval Unit := do
  let _ ← onHost ev (ev.host.writeItem i target args v)

end Evaluator

end ExprTree
