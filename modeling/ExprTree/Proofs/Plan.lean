import ExprTree.Eval
import ExprTree.Proofs.BareStore

/-! What the evaluation of a node does, as data: the actions that it takes and, between them, what
it looks at. A plan names no evaluator and no host; `run` carries it out with one. Whatever is to be
shown of all nodes is shown by induction on plans, with one case for each way in which an evaluation
goes on. -/
namespace ExprTree

/-- A use of a handle, with what it is given. -/
inductive HandleCall where
  | method (m : Method) (receiver : Option Value) (args : List Value)
  | construct (c : Constructor) (args : List Value)
  | get (m : Member) (target : Option Value)
  | set (m : Member) (target : Option Value) (v : Value)
  | getItem (i : Indexer) (target : Value) (args : List Value)
  | setItem (i : Indexer) (target : Value) (args : List Value) (v : Value)

def HandleCall.routine (h : Host) : HandleCall → Store → Routine
  | .method m receiver args => h.callMethod m receiver args
  | .construct c args => h.callConstructor c args
  | .get m target => h.readMember m target
  | .set m target v => h.writeMember m target v
  | .getItem i target args => h.readItem i target args
  | .setItem i target args v => h.writeItem i target args v

/-- All that an evaluation does to anything but itself. A sequence and a loop are single actions,
since only the depth bounds how often their nodes are evaluated. -/
inductive Action where
  | eval (n : Node)
  | sequence (body : List Node)
  | loop (body : Node) (breakLabel continueLabel : Option Label)
  | use (c : HandleCall)
  | invoke (f : Value) (args : List Value)
  | convert (f : Lambda) (v : Value)
  | assign (p : Param) (v : Value)
  | element (addr position : Nat) (v : Value)
  | newArray (elem : Ty) (items : Array Value)
  | newException (c : ClassType) (message : String)
  | closure (f : Lambda)

/-- An action without a result has the value void. -/
def Action.run (ev : Evaluator) : Action → Eval Value
  | .eval n => ev.eval n
  | .sequence body => ev.runSequence body ev.depth body .void
  | .loop body b c => ev.runLoop body b c ev.depth
  | .use c => ev.onHost (c.routine ev.host)
  | .invoke f args => ev.invoke f args
  | .convert f v => ev.convertBy f v
  | .assign p v => do
    Evaluator.assign p v
    return .void
  | .element addr position v => Eval.withStore fun s => (.void, s.setArrayItem addr position v)
  | .newArray elem items => Eval.withStore (·.newArray elem items)
  | .newException c message => Eval.withStore (·.newException c message)
  | .closure f => Evaluator.closure f

/-- What an evaluation looks at by itself: neither its counter, nor its limit, nor what delegates
are made of. -/
structure View where
  env : Environment
  handling : List Value
  store : Store

def State.view (s : State) : View := ⟨s.env, s.handling, s.store.bare⟩

/-- What is added to the state while a part of a node runs: bindings, or an exception being
handled. -/
inductive Frame where
  | bindings (bs : Slots)
  | handling (exception : Value)

namespace Frame

def enter : Frame → State → State
  | .bindings bs, s => { s with env := s.env.push.defineAll bs }
  | .handling x, s => { s with handling := x :: s.handling }

def leave : Frame → State → State
  | .bindings _, s => { s with env := s.env.pop }
  | .handling _, s => { s with handling := s.handling.tail }

variable {f : Frame} {s : State}

@[simp] theorem enter_steps : (f.enter s).steps = s.steps := by cases f <;> rfl

@[simp] theorem enter_limit : (f.enter s).limit = s.limit := by cases f <;> rfl

@[simp] theorem enter_store : (f.enter s).store = s.store := by cases f <;> rfl

@[simp] theorem leave_steps : (f.leave s).steps = s.steps := by cases f <;> rfl

@[simp] theorem leave_limit : (f.leave s).limit = s.limit := by cases f <;> rfl

@[simp] theorem leave_store : (f.leave s).store = s.store := by cases f <;> rfl

end Frame

/-- How a part of a node may end for the node to see; what is fatal is seen by none. -/
inductive Caught where
  | value (v : Value)
  | thrown (exception : Value)
  | jump (target : Label) (value : Value)

def Caught.ofResult : Except Signal Value → Except EvalError Caught
  | .ok v => .ok (.value v)
  | .error (.thrown x) => .ok (.thrown x)
  | .error (.jump l v) => .ok (.jump l v)
  | .error (.fatal e) => .error e

def Caught.toEval : Except EvalError Caught → Eval Caught
  | .ok c => return c
  | .error e => Eval.fatal e

/-- The signal of an action leaves the plan, except that `attempt` goes on with what is not fatal,
and that `final` first evaluates a node. -/
inductive Plan : Type → Type 1 where
  | pure {α : Type} (a : α) : Plan α
  | signal {α : Type} (x : Signal) : Plan α
  | endless {α : Type} : Plan α
  | look {α : Type} (next : View → Plan α) : Plan α
  | act {α : Type} (a : Action) (next : Value → Plan α) : Plan α
  | within {α : Type} (f : Frame) (p : Plan Value) (next : Value → Plan α) : Plan α
  | attempt {α : Type} (p : Plan Value) (next : Caught → Plan α) : Plan α
  | final {α : Type} (p : Plan Value) (n : Node) (next : Value → Plan α) : Plan α

namespace Plan

variable {α β : Type}

protected def bind : Plan α → (α → Plan β) → Plan β
  | .pure a, f => f a
  | .signal x, _ => .signal x
  | .endless, _ => .endless
  | .look next, f => .look fun w => (next w).bind f
  | .act a next, f => .act a fun v => (next v).bind f
  | .within fr p next, f => .within fr p fun v => (next v).bind f
  | .attempt p next, f => .attempt p fun r => (next r).bind f
  | .final p n next, f => .final p n fun v => (next v).bind f

instance : Monad Plan where
  pure := .pure
  bind := Plan.bind

/-- Carries the plan out. -/
def run (ev : Evaluator) {α : Type} : Plan α → Eval α
  | .pure a => return a
  | .signal x => Eval.signal x
  | .endless => Eval.endless
  | .look next => do (next (← Eval.get).view).run ev
  | .act a next => do (next (← a.run ev)).run ev
  | .within f p next => do (next (← (p.run ev).around f.enter f.leave)).run ev
  | .attempt p next => do
    let r ← (p.run ev).outcome
    (next (← Caught.toEval (Caught.ofResult r))).run ev
  | .final p n next => do
    let r ← (p.run ev).outcome
    let _ ← ev.eval n
    (next (← Eval.ofResult r)).run ev

instance : LawfulMonad Plan := by
  refine LawfulMonad.mk' Plan (fun p => ?_) (fun _ _ => rfl) fun p f g => ?_
  · change Plan.bind p .pure = p
    induction p with
    | pure | signal | endless => rfl
    | look next ih => exact congrArg look (funext fun w => ih w)
    | act a next ih => exact congrArg (act a) (funext fun v => ih v)
    | within fr p next _ ih => exact congrArg (within fr p) (funext fun v => ih v)
    | attempt p next _ ih => exact congrArg (attempt p) (funext fun r => ih r)
    | final p n next _ ih => exact congrArg (final p n) (funext fun v => ih v)
  · change Plan.bind (Plan.bind p f) g = Plan.bind p fun a => Plan.bind (f a) g
    induction p with
    | pure | signal | endless => rfl
    | look next ih => exact congrArg look (funext fun w => ih w f)
    | act a next ih => exact congrArg (act a) (funext fun v => ih v f)
    | within fr p next _ ih => exact congrArg (within fr p) (funext fun v => ih v f)
    | attempt p next _ ih => exact congrArg (attempt p) (funext fun r => ih r f)
    | final p n next _ ih => exact congrArg (final p n) (funext fun v => ih v f)

end Plan

/-! ### Carrying out plans in a row -/

instance : LawfulMonad Eval := by
  refine LawfulMonad.mk' Eval (fun m => ?_) (fun _ _ => rfl) fun m f g => ?_
  · funext s
    change Eval.bind m _ s = m s
    unfold Eval.bind
    cases m s <;> rfl
  · funext s
    change Eval.bind (Eval.bind m f) g s = Eval.bind m (fun a => Eval.bind (f a) g) s
    unfold Eval.bind
    cases m s <;> rfl

namespace Plan

variable {α β : Type} {ev : Evaluator}

@[simp] theorem run_pure {a : α} : (Plan.pure a).run ev = Pure.pure a := rfl

@[simp] theorem run_return {a : α} : (Pure.pure a : Plan α).run ev = Pure.pure a := rfl

@[simp] theorem run_bind {p : Plan α} {f : α → Plan β} :
    (p >>= f).run ev = p.run ev >>= fun a => (f a).run ev := by
  change (Plan.bind p f).run ev = _
  induction p with
  | pure a => simp [Plan.bind, run]
  | signal x => rfl
  | endless => rfl
  | look next ih => simp [Plan.bind, run, ih]
  | act a next ih => simp [Plan.bind, run, ih]
  | within fr p next _ ih => simp [Plan.bind, run, ih]
  | attempt p next _ ih => simp [Plan.bind, run, ih]
  | final p n next _ ih => simp [Plan.bind, run, ih]

end Plan

end ExprTree
