import ExprTree.Environment
import ExprTree.Host

/-! The state of an evaluation and its outcomes. -/
namespace ExprTree

structure State where
  env : Environment
  /-- The exceptions whose handlers are running, innermost first. -/
  handling : List Value
  steps : Nat
  limit : Option Nat
  store : Store

/-- Nothing is bound, handled or counted yet. -/
def State.start (limit : Option Nat) (store : Store) : State := ⟨.empty, [], 0, limit, store⟩

/-- `endless` stands for no outcome within the depth that was allowed. -/
inductive Outcome (α : Type) where
  | value (a : α) (s : State)
  | signal (x : Signal) (s : State)
  | endless

def Eval (α : Type) : Type := State → Outcome α

namespace Eval

variable {α β : Type}

@[inline] protected def pure (a : α) : Eval α := fun s => .value a s

@[inline] protected def bind (m : Eval α) (f : α → Eval β) : Eval β := fun s =>
  match m s with
  | .value a t => f a t
  | .signal x t => .signal x t
  | .endless => .endless

@[inline] instance : Monad Eval where
  pure := Eval.pure
  bind := Eval.bind

def endless : Eval α := fun _ => .endless

def signal (x : Signal) : Eval α := fun s => .signal x s

def fatal (e : EvalError) : Eval α := signal (.fatal e)

@[inline] def get : Eval State := fun s => .value s s

@[inline] def modify (f : State → State) : Eval Unit := fun s => .value () (f s)

@[inline] def store : Eval Store := fun s => .value s.store s

/-- Runs a change of the store. -/
@[inline] def withStore (f : Store → α × Store) : Eval α := fun s =>
  let (a, store) := f s.store
  .value a { s with store }

def fault : Fault → Eval α
  | .fatal e => fatal e
  | .raise c m => do signal (.thrown (← withStore (·.newException c m)))
  | .endless => endless

@[inline] def ofExcept : Except Fault α → Eval α
  | .ok a => pure a
  | .error f => fault f

def ofResult : Except Signal α → Eval α
  | .ok a => pure a
  | .error x => signal x

/-- The outcome as a value, whatever it is. -/
@[inline] def outcome (m : Eval α) : Eval (Except Signal α) := fun s =>
  match m s with
  | .value a t => .value (.ok a) t
  | .signal x t => .value (.error x) t
  | .endless => .endless

/-- How a run from a state ends, with the state that the next one may go on from. -/
def run (m : Eval α) (s : State) : Option (Except Signal α × State) :=
  match m s with
  | .value a t => some (.ok a, t)
  | .signal x t => some (.error x, t)
  | .endless => none

/-- Changes the state before and after a run, however it ends. -/
@[inline] def around (before after : State → State) (m : Eval α) : Eval α := fun s =>
  match m (before s) with
  | .value a t => .value a (after t)
  | .signal x t => .signal x (after t)
  | .endless => .endless

/-- Runs in a frame of its own with the given bindings. -/
@[inline] def withBindings (bindings : Slots) (m : Eval α) : Eval α :=
  m.around (fun s => { s with env := s.env.push.defineAll bindings })
    (fun s => { s with env := s.env.pop })

/-- Runs as the handler of an exception. -/
@[inline] def withHandling (exception : Value) (m : Eval α) : Eval α :=
  m.around (fun s => { s with handling := exception :: s.handling })
    (fun s => { s with handling := s.handling.tail })

/-- Counts a step against the limit. -/
def tick : Eval Unit := fun s =>
  let t := { s with steps := s.steps + 1 }
  match s.limit with
  | some n => if n < t.steps then .signal (.fatal (.budgetExceeded n)) t else .value () t
  | none => .value () t

end Eval

end ExprTree
