import ExprTree.Proofs.NodePlan

/-! What an interpreter does while it runs, in order. It is recorded at every depth, also where the
depth is not enough for an outcome: there it is what was done so far. What is recorded of the single
deeds is up to the type of the events. -/
namespace ExprTree

/-- What is recorded of the deeds of an interpreter. -/
class Recording (ε : Type) where
  use (c : HandleCall) : ε
  call (f : Value) (args : List Value) : ε
  assign (p : Param) (v : Value) : ε
  element (addr position : Nat) (v : Value) : ε
  /-- The run goes no further, at any depth: at a delegate that does not exist or at the text of an
  array that contains itself. -/
  hang : List ε
  /-- What a closure or host code did belongs to whoever called it. -/
  inner (events : List ε) : List ε
  /-- So does what a lambda did that converted a value. -/
  convert (f : Lambda) (v : Value) (events : List ε) : List ε

/-- The events of a trace. -/
inductive Event where
  /-- The evaluation of a node goes past the count of its step. -/
  | node (n : Node)
  /-- A step is counted that the limit does not allow. -/
  | trip (limit : Nat)
  | use (c : HandleCall)
  | call (f : Value) (args : List Value)
  | convert (f : Lambda) (v : Value)
  | assign (p : Param) (v : Value)
  | element (addr position : Nat) (v : Value)
  | hang
  /-- An event of what was called: of the closure's own interpreter, or of host code. -/
  | inner (e : Event)

abbrev Trace := List Event

instance : Recording Event where
  use := .use
  call := .call
  assign := .assign
  element := .element
  hang := [.hang]
  inner tr := tr.map .inner
  convert f v tr := .convert f v :: tr.map .inner

namespace Event

/-- How many calls deep the event is. -/
def level : Event → Nat
  | .inner e => e.level + 1
  | _ => 0

/-- The event as whoever it belongs to sees it. -/
def core : Event → Event
  | .inner e => e.core
  | e => e

/-- The interpreter itself goes past the count of a step. -/
def isPass : Event → Bool
  | .node _ => true
  | _ => false

/-- The interpreter itself finds no step left. -/
def isTrip : Event → Bool
  | .trip _ => true
  | _ => false

end Event

namespace State

/-- One more step was counted. -/
def ticked (s : State) : State := { s with steps := s.steps + 1 }

/-- The limit that does not allow one more step. -/
def spent? (s : State) : Option Nat :=
  match s.limit with
  | some n => if n < s.steps + 1 then some n else none
  | none => none

/-- Where the body of a lambda starts: over the arguments, with no steps counted and nothing
handled. -/
def entered (s : State) (f : Lambda) (args : List Value) : State :=
  (Frame.bindings ((f.params.map Param.id).zip args)).enter { s with steps := 0, handling := [] }

/-- Where a call of a closure starts: in an environment of its own, over captured values. -/
def isolated (s : State) (captures : Slots) (limit : Option Nat) : State :=
  ⟨.ofCaptures captures, [], 0, limit, s.store⟩

end State

namespace Outcome

variable {α β ε : Type}

/-- Goes on from how a run ended. -/
def andThen (o : Outcome α) (g : Except Signal α → State → Outcome β) : Outcome β :=
  match o with
  | .value a t => g (.ok a) t
  | .signal x t => g (.error x) t
  | .endless => .endless

/-- What is recorded then. -/
def after (o : Outcome α) (k : Except Signal α → State → List ε) : List ε :=
  match o with
  | .value a t => k (.ok a) t
  | .signal x t => k (.error x) t
  | .endless => []

@[simp] theorem after_nil {o : Outcome α} : (o.after fun _ _ => ([] : List ε)) = [] := by
  cases o <;> rfl

variable {s t : State} {r : Except Signal α}

/-- The outcome of a run that ends so. -/
def ended (r : Except Signal α) (t : State) : Outcome α :=
  match r with
  | .ok a => .value a t
  | .error x => .signal x t

@[simp] theorem ended_andThen {g : Except Signal α → State → Outcome β} :
    (ended r t).andThen g = g r t := by
  cases r <;> rfl

@[simp] theorem ended_after {k : Except Signal α → State → List ε} :
    (ended r t).after k = k r t := by
  cases r <;> rfl

theorem ended_inj {q : Except Signal α} : ended q s = ended r t ↔ q = r ∧ s = t := by
  cases q <;> cases r <;> simp [ended]

theorem ended_ne_endless : ended r t ≠ endless := by
  cases r <;> nofun

end Outcome

theorem Eval.run_eq_some {α : Type} {m : Eval α} {s t : State} {r : Except Signal α} :
    m.run s = some (r, t) ↔ m s = .ended r t := by
  unfold run Outcome.ended
  cases r <;> cases m s <;> simp

theorem Eval.run_eq_none {α : Type} {m : Eval α} {s : State} : m.run s = none ↔ m s = .endless := by
  unfold run
  cases m s <;> simp

/-- What is recorded from a value on; nothing is when there is none. -/
def onValue {δ ε α : Type} (k : α → State → List ε) : Except δ α → State → List ε
  | .ok a, t => k a t
  | .error _, _ => []

/-- An evaluator and what it records of the evaluation of each node. -/
structure Recorder (ε : Type) extends Evaluator where
  trace : Node → State → List ε

namespace Recorder

variable {ε : Type} (R : Recorder ε)

/-- Where a sequence goes on: after the expression, or after the label of a jump. -/
def rest? (all es : List Node) : Except Signal Value → Option (List Node)
  | .ok _ => some es
  | .error (.jump l _) => Evaluator.afterLabel? l all
  | .error _ => none

def sequence (all : List Node) : Nat → List Node → State → List ε
  | _, [], _ => []
  | 0, _ :: _, _ => []
  | n + 1, e :: es, s => R.trace e s ++ (R.eval e s).after fun r t =>
    (rest? all es r).elim [] fun rest => sequence all n rest t

/-- Whether a loop goes on. -/
def again (breakLabel continueLabel : Option Label) : Except Signal Value → Bool
  | .ok _ => true
  | .error (.jump l _) => !(breakLabel == some l) && continueLabel == some l
  | .error _ => false

def loop (body : Node) (breakLabel continueLabel : Option Label) : Nat → State → List ε
  | 0, _ => []
  | n + 1, s => R.trace body s ++ (R.eval body s).after fun r t =>
    bif again breakLabel continueLabel r then loop body breakLabel continueLabel n t else []

def lambda (f : Lambda) (args : List Value) (s : State) : List ε :=
  if f.params.length ≠ args.length then [] else R.trace f.body (s.entered f args)

/-- The events of host code, with those of the delegates that it invokes one call deeper. -/
def routine (call : Value → List Value → Eval Value) (trace : Value → List Value → State → List ε) :
    Routine → State → List ε
  | .finish _ _, _ => []
  | .invoke f args store resume, s => trace f args { s with store } ++
    (call f args { s with store }).after fun r t =>
      routine call trace (resume r t.store) { t with store := {} }

variable [Recording ε]

def delegate (n : Nat) (f : Value) (args : List Value) (s : State) : List ε :=
  Recording.call f args :: match f with
    | .delegate sig addr =>
      if sig.arity ≠ args.length then []
      else match s.store.delegates[addr]? with
        | some (.closure f captures limit) =>
          Recording.inner (R.lambda f args (s.isolated captures limit))
        | some (.host id) => Recording.inner <| match n with
          | 0 => []
          | n + 1 => routine (R.callDelegate n) (delegate n) (R.host.delegate id args s.store)
            { s with store := {} }
        | none => Recording.hang
    | _ => []

end Recorder

variable {ε : Type} [Recording ε]

def Action.trace (R : Recorder ε) : Action → State → List ε
  | .eval n, s => R.trace n s
  | .sequence body, s => R.sequence body R.depth body s
  | .loop body b c, s => R.loop body b c R.depth s
  | .use c, s => Recording.use c :: Recording.inner
    (Recorder.routine R.invoke (R.delegate R.depth) (c.routine R.host s.store)
      { s with store := {} })
  | .invoke f args, s => R.delegate R.depth f args s
  | .convert f v, s => Recording.convert f v (R.lambda f [v] (s.isolated s.env.capture s.limit))
  | .assign p v, _ => [Recording.assign p v]
  | .element addr position v, _ => [Recording.element addr position v]
  | .newArray _ _, _ | .newException _ _, _ | .closure _, _ => []

def Plan.trace (R : Recorder ε) {α : Type} : Plan α → State → List ε
  | .pure _, _ | .signal _, _ => []
  | .endless, _ => Recording.hang
  | .look next, s => (next s.view).trace R s
  | .act a next, s => a.trace R s ++
    (a.run R.toEvaluator s).after (onValue fun v t => (next v).trace R t)
  | .within f p next, s => p.trace R (f.enter s) ++
    (p.run R.toEvaluator (f.enter s)).after (onValue fun v t => (next v).trace R (f.leave t))
  | .attempt p next, s => p.trace R s ++ (p.run R.toEvaluator s).after fun r =>
    onValue (fun c t => (next c).trace R t) (Caught.ofResult r)
  | .final p n next, s => p.trace R s ++ (p.run R.toEvaluator s).after fun r t =>
    R.trace n t ++ (R.eval n t).after (onValue fun _ => onValue (fun v u => (next v).trace R u) r)

/-- The trace of the evaluation of a node to a depth. -/
def trace (host : Host) : Nat → Node → State → Trace
  | 0, _, _ => []
  | n + 1, node, s => match s.spent? with
    | some limit => [.trip limit]
    | none => .node node :: node.plan.trace ⟨⟨host, n, eval host n⟩, trace host n⟩ s.ticked

/-- The recorder of a given depth. -/
def recorder (host : Host) (depth : Nat) : Recorder Event :=
  ⟨evaluator host depth, trace host depth⟩

/-! ### Runs as they go on

The equations give each run the form that its trace has. -/

variable {α β : Type} {ev : Evaluator} {s : State}

namespace Eval

theorem bind_eq {m : Eval α} {f : α → Eval β} : (m >>= f) s = (m s).andThen fun r t => match r with
    | .ok a => f a t
    | .error x => .signal x t := by
  change Eval.bind m f s = _
  unfold Eval.bind
  cases m s <;> rfl

theorem outcome_bind_eq {m : Eval α} {f : Except Signal α → Eval β} :
    (m.outcome >>= f) s = (m s).andThen fun r t => f r t := by
  change Eval.bind m.outcome f s = _
  unfold Eval.bind outcome
  cases m s <;> rfl

theorem around_andThen {m : Eval α} {before after : State → State}
    {g : Except Signal α → State → Outcome β} :
    (m.around before after s).andThen g = (m (before s)).andThen fun r t => g r (after t) := by
  unfold around
  cases m (before s) <;> rfl

theorem tick_eq : tick s = match s.spent? with
    | some limit => .signal (.fatal (.budgetExceeded limit)) s.ticked
    | none => .value () s.ticked := by
  obtain ⟨env, handling, steps, limit, store⟩ := s
  cases limit with
  | none => rfl
  | some n => by_cases h : n < steps + 1 <;> simp [tick, State.spent?, State.ticked, h]

end Eval

theorem eval_succ {host : Host} {n : Nat} {node : Node} : eval host (n + 1) node s =
    match s.spent? with
    | some limit => .signal (.fatal (.budgetExceeded limit)) s.ticked
    | none => node.plan.run (evaluator host n) s.ticked := by
  refine Eval.bind_eq.trans ?_
  rw [Eval.tick_eq, Node.run_plan]
  cases s.spent? <;> rfl

namespace Plan

theorem run_look {next : View → Plan α} : (look next).run ev s = (next s.view).run ev s := rfl

theorem run_act {a : Action} {next : Value → Plan α} : (act a next).run ev s =
    (a.run ev s).andThen fun r t => match r with
      | .ok v => (next v).run ev t
      | .error x => .signal x t :=
  Eval.bind_eq

theorem run_within {f : Frame} {p : Plan Value} {next : Value → Plan α} :
    (within f p next).run ev s = (p.run ev (f.enter s)).andThen fun r t => match r with
      | .ok v => (next v).run ev (f.leave t)
      | .error x => .signal x (f.leave t) :=
  Eval.bind_eq.trans Eval.around_andThen

theorem run_attempt {p : Plan Value} {next : Caught → Plan α} :
    (attempt p next).run ev s = (p.run ev s).andThen fun r t => match Caught.ofResult r with
      | .ok c => (next c).run ev t
      | .error e => .signal (.fatal e) t := by
  rw [run, Eval.outcome_bind_eq]
  congr
  funext r t
  cases Caught.ofResult r <;> rfl

theorem run_final {p : Plan Value} {n : Node} {next : Value → Plan α} :
    (final p n next).run ev s = (p.run ev s).andThen fun r t =>
      (ev.eval n t).andThen fun r' u => match r', r with
        | .ok _, .ok v => (next v).run ev u
        | .ok _, .error x | .error x, _ => .signal x u := by
  rw [run, Eval.outcome_bind_eq]
  congr
  funext r t
  refine Eval.bind_eq.trans ?_
  cases ev.eval n t <;> cases r <;> rfl

@[simp] theorem trace_eval {R : Recorder ε} {n : Node} : (eval n).trace R s = R.trace n s := by
  change R.trace n s ++ (R.eval n s).after _ = _
  cases R.eval n s <;> exact List.append_nil _

/-- Plans in a row record what the first does and then what the second does. -/
theorem trace_bind {R : Recorder ε} {p : Plan α} {f : α → Plan β} : (p >>= f).trace R s =
    p.trace R s ++ (p.run R.toEvaluator s).after (onValue fun a t => (f a).trace R t) := by
  change (Plan.bind p f).trace R s = _
  induction p generalizing s with
  | pure a => rfl
  | signal x => rfl
  | endless => exact (List.append_nil _).symm
  | look next ih => exact ih s.view
  | act a next ih =>
    rw [Plan.bind, Plan.run_act, Plan.trace, Plan.trace, List.append_assoc]
    cases a.run R.toEvaluator s with
    | value v t => exact congrArg _ (ih v)
    | signal x t => rfl
    | endless => rfl
  | within fr p next _ ih =>
    rw [Plan.bind, Plan.run_within, Plan.trace, Plan.trace, List.append_assoc]
    cases p.run R.toEvaluator (fr.enter s) with
    | value v t => exact congrArg _ (ih v)
    | signal x t => rfl
    | endless => rfl
  | attempt p next _ ih =>
    rw [Plan.bind, Plan.run_attempt, Plan.trace, Plan.trace, List.append_assoc]
    cases p.run R.toEvaluator s with
    | value v t => exact congrArg _ (ih _)
    | signal x t => cases x with
      | fatal e => rfl
      | _ => exact congrArg _ (ih _)
    | endless => rfl
  | final p n next _ ih =>
    rw [Plan.bind, Plan.run_final, Plan.trace, Plan.trace, List.append_assoc]
    cases p.run R.toEvaluator s with
    | value v t =>
      simp only [Outcome.andThen, Outcome.after, List.append_assoc]
      cases R.eval n t with
      | value w u => simpa [Outcome.after, onValue] using ih v
      | signal x u => rfl
      | endless => rfl
    | signal x t =>
      simp only [Outcome.andThen, Outcome.after, List.append_assoc]
      cases R.eval n t <;> rfl
    | endless => rfl

end Plan

namespace Evaluator

theorem runSequence_go {all : List Node} {n : Nat} {e : Node} {es : List Node} {last : Value} :
    ev.runSequence all (n + 1) (e :: es) last s = (ev.eval e s).andThen fun r t => match r with
      | .ok v => ev.runSequence all n es v t
      | .error (.jump l v) => match afterLabel? l all with
        | some rest => ev.runSequence all n rest v t
        | none => .signal (.jump l v) t
      | .error x => .signal x t := by
  simp only [runSequence]
  cases ev.eval e s with
  | value v t => rfl
  | signal x t => cases x <;> rfl
  | endless => rfl

theorem runLoop_go {body : Node} {b c : Option Label} {n : Nat} :
    ev.runLoop body b c (n + 1) s = (ev.eval body s).andThen fun r t => match r with
      | .ok _ => ev.runLoop body b c n t
      | .error (.jump l v) =>
        if b == some l then .value (l.ty.result v) t
        else if c == some l then ev.runLoop body b c n t
        else .signal (.jump l v) t
      | .error x => .signal x t := by
  simp only [runLoop]
  cases ev.eval body s with
  | value v t => rfl
  | signal x t => cases x <;> rfl
  | endless => rfl

theorem runRoutine_invoke {call : Value → List Value → Eval Value} {f : Value} {args : List Value}
    {store : Store} {resume : Except Signal Value → Store → Routine} :
    runRoutine call (.invoke f args store resume) s =
      (call f args { s with store }).andThen fun r t =>
        runRoutine call (resume r t.store) { t with store := {} } := by
  simp only [runRoutine]
  cases call f args { s with store } <;> rfl

/-- Calls a delegate of the host, if the depth is not used up. -/
def hostDelegate (ev : Evaluator) (id : Nat) (args : List Value) : Nat → Eval Value
  | 0 => Eval.endless
  | n + 1 => onStore (ev.callDelegate n) (ev.host.delegate id args)

/-- What stands at the address is called. -/
theorem callDelegate_eq {n : Nat} {sig : Signature} {addr : Nat} {args : List Value} :
    ev.callDelegate n (.delegate sig addr) args s =
      if sig.arity ≠ args.length then
        .signal (.fatal (.arityMismatch "delegate" sig.arity args.length)) s
      else match s.store.delegates[addr]? with
        | some (.closure f captures limit) => ev.callLambda f captures limit args s
        | some (.host id) => ev.hostDelegate id args n s
        | none => .endless := by
  have hd (host : Nat → Eval Value) : (Eval.store >>= fun st => match st.delegates[addr]? with
        | some (.closure f captures limit) => ev.callLambda f captures limit args
        | some (.host id) => host id
        | none => Eval.endless) s = match s.store.delegates[addr]? with
        | some (.closure f captures limit) => ev.callLambda f captures limit args s
        | some (.host id) => host id s
        | none => .endless := by
    change (match s.store.delegates[addr]? with
        | some (.closure f captures limit) => ev.callLambda f captures limit args
        | some (.host id) => host id
        | none => Eval.endless : Eval Value) s = _
    rcases s.store.delegates[addr]? with _ | (⟨f, captures, limit⟩ | id) <;> rfl
  cases n with
  | zero =>
    rw [callDelegate]
    split
    · rfl
    · exact hd fun id => ev.hostDelegate id args 0
  | succ n =>
    rw [callDelegate]
    split
    · rfl
    · exact hd fun id => ev.hostDelegate id args (n + 1)

/-- What is no delegate cannot be called, whoever calls it. -/
theorem callDelegate_fault {f : Value} (hf : ∀ sig addr, f ≠ .delegate sig addr) :
    ∃ e ≠ Fault.endless, ∀ (ev : Evaluator) (n : Nat) (args : List Value),
      ev.callDelegate n f args = Eval.fault e := by
  cases f with
  | delegate sig addr => exact absurd rfl (hf sig addr)
  | null => exact ⟨.raise _ _, nofun, fun ev n args => by cases n <;> rfl⟩
  | _ => exact ⟨.fatal _, nofun, fun ev n args => by cases n <;> rfl⟩

/-- How the body of a lambda ends is seen as the end of the lambda. -/
theorem runLambda_eq {f : Lambda} {args : List Value} : ev.runLambda f args s =
    if f.params.length ≠ args.length then
      .signal (.fatal (.arityMismatch (f.name.getD "lambda") f.params.length args.length)) s
    else (ev.eval f.body (s.entered f args)).andThen fun r t => match r with
      | .ok v => .value (if f.ret.isVoid then .void else v) { t with env := t.env.pop }
      | .error (.jump l _) => .signal (.fatal (.unresolvedGoto l.text)) { t with env := t.env.pop }
      | .error x => .signal x { t with env := t.env.pop } := by
  unfold runLambda
  split
  · rfl
  · refine Eval.outcome_bind_eq.trans (Eval.around_andThen.trans ?_)
    change (ev.eval f.body (s.entered f args)).andThen _ = _
    congr
    funext r t
    cases r with
    | ok v => rfl
    | error x => cases x <;> rfl

end Evaluator

namespace Recorder

variable {R : Recorder ε} {n : Nat} {args : List Value}

def hostTrace (R : Recorder ε) (id : Nat) (args : List Value) : Nat → State → List ε
  | 0, _ => []
  | n + 1, s => routine (R.callDelegate n) (R.delegate n) (R.host.delegate id args s.store)
    { s with store := {} }

theorem delegate_eq {sig : Signature} {addr : Nat} : R.delegate n (.delegate sig addr) args s =
    Recording.call (.delegate sig addr) args ::
      if sig.arity ≠ args.length then []
      else match s.store.delegates[addr]? with
        | some (.closure f captures limit) =>
          Recording.inner (R.lambda f args (s.isolated captures limit))
        | some (.host id) => Recording.inner (R.hostTrace id args n s)
        | none => Recording.hang := by
  rw [delegate.eq_def]
  dsimp only
  rcases s.store.delegates[addr]? with _ | (⟨f, captures, limit⟩ | id)
  · rfl
  · rfl
  · cases n <;> rfl

theorem delegate_fault {f : Value} (hf : ∀ sig addr, f ≠ .delegate sig addr) :
    R.delegate n f args s = [Recording.call f args] := by
  cases f with
  | delegate sig addr => exact absurd rfl (hf sig addr)
  | _ => cases n <;> rfl

end Recorder

end ExprTree
