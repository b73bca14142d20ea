import ExprTree.Eval.Operator

/-! Conditionals, blocks, loops, labels, jumps, switches and guarded bodies. A jump unwinds to a
block with its label among the expressions, to a loop that names its label, or to the label whose
default value made the jump. -/
namespace ExprTree

/-- Nodes of type void have no value. -/
def Ty.result (t : Ty) (v : Value) : Value := if t.isVoid then .void else v

namespace Evaluator

variable (ev : Evaluator)

def evalConditional (test ifTrue ifFalse : Node) (ty : Ty) : Eval Value := do
  let v ← if ← ev.evalBool test then ev.eval ifTrue else ev.eval ifFalse
  return ty.result v

/-- The expressions after the first label node for a target. -/
def afterLabel? (target : Label) : List Node → Option (List Node)
  | [] => none
  | .label _ l _ :: ns => if l == target then some ns else afterLabel? target ns
  | _ :: ns => afterLabel? target ns

/-- Evaluates the expressions that are left; a jump to a label of the sequence goes on after it. -/
def runSequence (all : List Node) : Nat → List Node → Value → Eval Value
  | _, [], last => return last
  | 0, _ :: _, _ => Eval.endless
  | n + 1, e :: es, _ => fun s =>
    match ev.eval e s with
    | .value v t => runSequence all n es v t
    | .signal (.jump l v) t => match afterLabel? l all with
      | some rest => runSequence all n rest v t
      | none => .signal (.jump l v) t
    | .signal x t => .signal x t
    | .endless => .endless

/-- A block without variables has no frame. -/
def evalBlock (vars : List Param) (body : List Node) (ty : Ty) : Eval Value := do
  let run := ev.runSequence body ev.depth body .void
  let v ← match vars with
    | [] => run
    | vars => run.withBindings (vars.map fun p => (p.id, .zero p.ty))
  return ty.result v

def runLoop (body : Node) (breakLabel continueLabel : Option Label) : Nat → Eval Value
  | 0 => Eval.endless
  | n + 1 => fun s =>
    match ev.eval body s with
    | .value _ t => runLoop body breakLabel continueLabel n t
    | .signal (.jump l v) t =>
      if breakLabel == some l then .value (l.ty.result v) t
      else if continueLabel == some l then runLoop body breakLabel continueLabel n t
      else .signal (.jump l v) t
    | .signal x t => .signal x t
    | .endless => .endless

/-- Reached by itself, a label has its default value. -/
def evalLabel (target : Label) (fallback : Option Node) : Eval Value :=
  match fallback with
  | none => return .zero target.ty
  | some x => do
    match ← (ev.eval x).outcome with
    | .error (.jump l v) => if l == target then return v else Eval.signal (.jump l v)
    | r => Eval.ofResult r

def evalGoto (target : Label) (value : Option Node) : Eval Value := do
  let v ← match value with
    | some x => ev.eval x
    | none => pure .void
  Eval.signal (.jump target v)

def matchesCase (comparer : Option Method) (v candidate : Value) : Eval Bool :=
  match comparer with
  | none => return v.valuesEqual candidate
  | some m => do
    let r ← ev.method m none [v, candidate]
    match r.bool? with
    | some b => return b
    | none => Eval.fault (.typeMismatch "bool" r.sortName)

/-- Tests are evaluated in order up to the first match. -/
def anyMatches (comparer : Option Method) (v : Value) : List Node → Eval Bool
  | [] => return false
  | t :: ts => do
    let candidate ← ev.eval t
    if ← matchesCase ev comparer v candidate then return true else anyMatches comparer v ts

def selectCase (comparer : Option Method) (v : Value) : List SwitchCase → Eval (Option Node)
  | [] => return none
  | c :: cs => do
    if ← anyMatches ev comparer v c.tests then return some c.body else selectCase comparer v cs

def evalSwitch (value : Node) (cases : List SwitchCase) (fallback : Option Node)
    (comparer : Option Method) (ty : Ty) : Eval Value := do
  let v ← ev.eval value
  let selected ← selectCase ev comparer v cases
  match selected.or fallback with
  | some body => return ty.result (← ev.eval body)
  | none => return .zero ty

/-- Only `true` accepts; an exception thrown by the filter rejects. -/
def accepts (h : CatchClause) (bindings : Slots) : Eval Bool :=
  match h.filter with
  | none => return true
  | some f => do
    match ← ((ev.eval f).withBindings bindings).outcome with
    | .ok (.bool b) => return b
    | .ok _ | .error (.thrown _) => return false
    | .error x => Eval.signal x

/-- The first handler of the exception's class that accepts it has the last word; without one the
fault body runs and the exception goes on. -/
def handle (exception : Value) (fault : Option Node) : List CatchClause → Eval Value
  | [] => do
    match fault with
    | some f => let _ ← ev.eval f
    | none => pure ()
    Eval.signal (.thrown exception)
  | h :: hs => do
    let bindings : Slots := (h.var.map fun p => (p.id, exception)).toList
    if exception.isInstanceOf h.test then
      if ← accepts ev h bindings then
        ((ev.eval h.body).withBindings bindings).withHandling exception
      else handle exception fault hs
    else handle exception fault hs

/-- The finalizer runs for every outcome, and its own signal replaces it. -/
def evalGuarded (body : Node) (handlers : List CatchClause) (finalizer fault : Option Node) :
    Eval Value := do
  let handled : Eval Value := do
    match ← (ev.eval body).outcome with
    | .error (.thrown x) => handle ev x fault handlers
    | r => Eval.ofResult r
  let r ← handled.outcome
  match finalizer with
  | some f => let _ ← ev.eval f
  | none => pure ()
  return body.ty.result (← Eval.ofResult r)

end Evaluator

end ExprTree
