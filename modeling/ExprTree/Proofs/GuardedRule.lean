import ExprTree.Proofs.Environment
import ExprTree.Proofs.Trace

/-! The rule of guarded nodes: which of their parts are evaluated, in which order, from which
states, and how the node ends. -/
namespace ExprTree

/-- A part of a guarded node. Handlers are told by their position. -/
inductive Stage where
  | body
  | filter (handler : Nat)
  | handler (handler : Nat)
  | fault
  | finalizer

/-- The order of the parts, `count` being the number of handlers. -/
def Stage.rank (count : Nat) : Stage → Nat
  | .body => 0
  | .filter i => 2 * i + 1
  | .handler i => 2 * i + 2
  | .fault => 2 * count + 1
  | .finalizer => 2 * count + 2

/-- One evaluation of a part: where it starts and how it ends. -/
structure Turn where
  stage : Stage
  node : Node
  start : State
  result : Except Signal Value
  final : State

namespace Guarded

/-- Where the filter of a handler starts: with the exception as the handler's variable. -/
def filterStart (h : CatchClause) (x : Value) (s : State) : State :=
  (Frame.bindings (Evaluator.bindings h x)).enter s

/-- Where the body of a handler starts: the exception is also what a rethrow raises. -/
def handlerStart (h : CatchClause) (x : Value) (s : State) : State :=
  filterStart h x ((Frame.handling x).enter s)

/-- Only `true` accepts; any other value and a thrown exception reject. -/
def verdict : Except Signal Value → Except Signal Bool
  | .ok (.bool b) => .ok b
  | .ok _ | .error (.thrown _) => .ok false
  | .error x => .error x

section

variable (ev : Evaluator) (x : Value)

/-- What the filter of the handler at position `i` says of the exception `x`. -/
inductive Filters (i : Nat) (h : CatchClause) (s : State) :
    List Turn → Except Signal Bool → State → Prop where
  | absent (hf : h.filter = none) : Filters i h s [] (.ok true) s
  | evaluated {f : Node} {r : Except Signal Value} {t : State} (hf : h.filter = some f)
    (he : (ev.eval f).run (filterStart h x s) = some (r, t)) :
    Filters i h s [⟨.filter i, f, filterStart h x s, r, t⟩] (verdict r)
      ((Frame.bindings (Evaluator.bindings h x)).leave t)

/-- What the handlers from position `i` on, and the fault body after them, make of the exception
`x`. -/
inductive Handles (fault : Option Node) :
    Nat → List CatchClause → State → List Turn → Except Signal Value → State → Prop where
  | unhandled {i : Nat} {s : State} (hf : fault = none) :
    Handles fault i [] s [] (.error (.thrown x)) s
  /-- The exception goes on after the fault body, unless that fails itself. -/
  | fault {i : Nat} {f : Node} {r : Except Signal Value} {s t : State} (hf : fault = some f)
    (he : (ev.eval f).run s = some (r, t)) :
    Handles fault i [] s [⟨.fault, f, s, r, t⟩] (r.bind fun _ => .error (.thrown x)) t
  | skipped {i : Nat} {h : CatchClause} {hs : List CatchClause} {turns : List Turn}
    {r : Except Signal Value} {s t : State} (hx : x.isInstanceOf h.test = false)
    (hr : Handles fault (i + 1) hs s turns r t) : Handles fault i (h :: hs) s turns r t
  /-- The handler that accepts has the last word. -/
  | handled {i : Nat} {h : CatchClause} {hs : List CatchClause} {filter : List Turn}
    {r : Except Signal Value} {s t u : State} (hx : x.isInstanceOf h.test = true)
    (hf : Filters ev x i h s filter (.ok true) t)
    (he : (ev.eval h.body).run (handlerStart h x t) = some (r, u)) :
    Handles fault i (h :: hs) s (filter ++ [⟨.handler i, h.body, handlerStart h x t, r, u⟩]) r
      ((Frame.handling x).leave ((Frame.bindings (Evaluator.bindings h x)).leave u))
  | rejected {i : Nat} {h : CatchClause} {hs : List CatchClause} {filter turns : List Turn}
    {r : Except Signal Value} {s t u : State} (hx : x.isInstanceOf h.test = true)
    (hf : Filters ev x i h s filter (.ok false) t) (hr : Handles fault (i + 1) hs t turns r u) :
    Handles fault i (h :: hs) s (filter ++ turns) r u
  /-- The filter jumps or fails for good. -/
  | failed {i : Nat} {h : CatchClause} {hs : List CatchClause} {filter : List Turn} {y : Signal}
    {s t : State} (hx : x.isInstanceOf h.test = true)
    (hf : Filters ev x i h s filter (.error y) t) :
    Handles fault i (h :: hs) s filter (.error y) t

variable (body : Node) (handlers : List CatchClause) (fault : Option Node) (s : State)

/-- The body, and the handlers of what it throws. -/
inductive Protects : List Turn → Except Signal Value → State → Prop where
  | passed {r : Except Signal Value} {t : State} (he : (ev.eval body).run s = some (r, t))
    (hr : ∀ x, r ≠ .error (.thrown x)) : Protects [⟨.body, body, s, r, t⟩] r t
  | thrown {x : Value} {turns : List Turn} {r : Except Signal Value} {t u : State}
    (he : (ev.eval body).run s = some (.error (.thrown x), t))
    (hh : Handles ev x fault 0 handlers t turns r u) :
    Protects (⟨.body, body, s, .error (.thrown x), t⟩ :: turns) r u

/-- The finalizer comes last, whatever the outcome is before, and its own failure replaces that. A
node of type void has no value. -/
inductive Rule (finalizer : Option Node) : List Turn → Except Signal Value → State → Prop where
  | plain {turns : List Turn} {r : Except Signal Value} {t : State} (hf : finalizer = none)
    (hp : Protects ev body handlers fault s turns r t) :
    Rule finalizer turns (r.map body.ty.result) t
  | finalized {f : Node} {turns : List Turn} {r q : Except Signal Value} {t u : State}
    (hf : finalizer = some f) (hp : Protects ev body handlers fault s turns r t)
    (he : (ev.eval f).run t = some (q, u)) :
    Rule finalizer (turns ++ [⟨.finalizer, f, t, q, u⟩]) (q.bind fun _ => r.map body.ty.result) u

end

/-! ### The rule and the run -/

section

variable {α β : Type} {R : Recorder Event} {s t u : State}

/-- The plan ends so, and what it does is done by the evaluations of nodes. -/
def Does (R : Recorder Event) (p : Plan α) (s : State) (turns : List Turn) (r : Except Signal α)
    (t : State) : Prop :=
  p.run R.toEvaluator s = .ended r t ∧ p.trace R s = turns.flatMap fun e => R.trace e.node e.start

theorem does_pure {a : α} : Does R (pure a) s [] (.ok a) s := ⟨rfl, rfl⟩

theorem does_signal {x : Signal} : Does R (.signal x : Plan α) s [] (.error x) s := ⟨rfl, rfl⟩

theorem does_eval {n : Node} (stage : Stage) {r : Except Signal Value}
    (he : (R.eval n).run s = some (r, t)) : Does R (Plan.eval n) s [⟨stage, n, s, r, t⟩] r t := by
  have he := Eval.run_eq_some.mp he
  refine ⟨by rw [Plan.run_eval]; exact he, ?_⟩
  change R.trace n s ++ (R.eval n s).after _ = _
  rw [he, Outcome.ended_after]
  cases r <;> rfl

variable {p : Plan α} {turns turns' : List Turn} {r : Except Signal α}

/-- The plans go on as the second one does. -/
theorem Does.bind {f : α → Plan β} {q : Except Signal β} {a : α} (hp : Does R p s turns (.ok a) t)
    (hf : Does R (f a) t turns' q u) : Does R (p >>= f) s (turns ++ turns') q u := by
  constructor
  · rw [Plan.run_bind, Eval.bind_eq, hp.1]
    exact hf.1
  · rw [Plan.trace_bind, hp.1, hp.2, List.flatMap_append, ← hf.2]
    rfl

theorem Does.bind_error {f : α → Plan β} {x : Signal} (hp : Does R p s turns (.error x) t) :
    Does R (p >>= f) s turns (.error x) t := by
  constructor
  · rw [Plan.run_bind, Eval.bind_eq, hp.1]
    rfl
  · rw [Plan.trace_bind, hp.1, hp.2]
    exact List.append_nil _

theorem Does.within {f : Frame} {p : Plan Value} {r : Except Signal Value}
    (hp : Does R p (f.enter s) turns r t) : Does R (.within f p .pure) s turns r (f.leave t) := by
  constructor
  · rw [Plan.run_within, hp.1]
    cases r <;> rfl
  · rw [Plan.trace, hp.1, hp.2]
    cases r <;> exact List.append_nil _

theorem Does.attempt {p : Plan Value} {r : Except Signal Value} {c : Caught}
    {next : Caught → Plan α} {q : Except Signal α} (hp : Does R p s turns r t)
    (hc : Caught.ofResult r = .ok c) (hn : Does R (next c) t turns' q u) :
    Does R (.attempt p next) s (turns ++ turns') q u := by
  constructor
  · rw [Plan.run_attempt, hp.1, Outcome.ended_andThen, hc]
    exact hn.1
  · rw [Plan.trace, hp.1, hp.2, Outcome.ended_after, hc, List.flatMap_append, ← hn.2]
    rfl

theorem Does.attempt_fatal {p : Plan Value} {e : EvalError} {next : Caught → Plan α}
    (hp : Does R p s turns (.error (.fatal e)) t) :
    Does R (.attempt p next) s turns (.error (.fatal e)) t := by
  constructor
  · rw [Plan.run_attempt, hp.1]
    rfl
  · rw [Plan.trace, hp.1, hp.2]
    exact List.append_nil _

theorem Does.final {p : Plan Value} {n : Node} {stage : Stage} {r q : Except Signal Value}
    (hp : Does R p s turns r t) (he : (R.eval n).run t = some (q, u)) :
    Does R (.final p n .pure) s (turns ++ [⟨stage, n, t, q, u⟩]) (q.bind fun _ => r) u := by
  have he := Eval.run_eq_some.mp he
  constructor
  · rw [Plan.run_final, hp.1, Outcome.ended_andThen, he, Outcome.ended_andThen]
    cases q <;> cases r <;> rfl
  · rw [Plan.trace, hp.1, hp.2, Outcome.ended_after, he, Outcome.ended_after, List.flatMap_append]
    cases q <;> cases r <;> rfl

theorem Does.map {g : α → β} (hp : Does R p s turns r t) :
    Does R (do return g (← p)) s turns (r.map g) t := by
  cases r with
  | ok a =>
    rw [← List.append_nil turns]
    exact hp.bind does_pure
  | error x => exact hp.bind_error

variable {x : Value} {i : Nat} {h : CatchClause} {hs : List CatchClause} {body : Node}
  {fault finalizer : Option Node}

theorem Filters.does {r : Except Signal Bool} (hf : Filters R.toEvaluator x i h s turns r t) :
    Does R (Plan.accepts h (Evaluator.bindings h x)) s turns r t := by
  unfold Plan.accepts
  cases hf with
  | absent hn =>
    rw [hn]
    exact does_pure
  | @evaluated f r t hn he =>
    rw [hn]
    have hw := Does.within (f := .bindings _) (does_eval (.filter i) he)
    rcases r with (e | y | ⟨l, v⟩) | v
    · exact hw.attempt_fatal
    · exact hw.attempt rfl does_pure
    · exact hw.attempt rfl does_signal
    · refine hw.attempt rfl ?_
      cases v <;> exact does_pure

theorem Handles.does {r : Except Signal Value}
    (hh : Handles R.toEvaluator x fault i hs s turns r t) :
    Does R (Plan.handle x fault hs) s turns r t := by
  induction hh with
  | unhandled hf =>
    subst hf
    exact does_pure.bind does_signal
  | fault hf he =>
    subst hf
    have hd := does_eval .fault he
    rename_i r _ _
    cases r with
    | ok v => exact hd.bind does_signal
    | error y => exact hd.bind_error
  | skipped hx _ ih =>
    simp only [Plan.handle, hx, Bool.false_eq_true, if_false]
    exact ih
  | handled hx hf he =>
    simp only [Plan.handle, hx, if_true]
    refine hf.does.bind ?_
    exact (Does.within (f := .bindings _) (does_eval _ he)).within (f := .handling x)
  | rejected hx hf _ ih =>
    simp only [Plan.handle, hx, if_true]
    exact hf.does.bind ih
  | failed hx hf =>
    simp only [Plan.handle, hx, if_true]
    exact hf.does.bind_error

theorem Protects.does {r : Except Signal Value}
    (hp : Protects R.toEvaluator body hs fault s turns r t) :
    Does R (Plan.guard body hs fault) s turns r t := by
  cases hp with
  | passed he hr =>
    have hd := does_eval .body he
    rcases r with (e | x | ⟨l, v⟩) | v
    · exact hd.attempt_fatal
    · exact absurd rfl (hr x)
    · exact hd.attempt rfl does_signal
    · exact hd.attempt rfl does_pure
  | thrown he hh => exact (does_eval _ he).attempt rfl hh.does

theorem Rule.does {r : Except Signal Value}
    (hg : Rule R.toEvaluator body hs fault s finalizer turns r t) :
    Does R (Plan.evalGuarded body hs finalizer fault) s turns r t := by
  cases hg with
  | plain hf hp =>
    subst hf
    exact hp.does.map
  | finalized hf hp he =>
    subst hf
    rename_i r q _
    have hr : q.bind (fun _ => r.map body.ty.result) = (q.bind fun _ => r).map body.ty.result := by
      cases q <;> rfl
    rw [hr]
    exact (hp.does.final he).map

end

/-! ### The rule covers every run -/

theorem filters_total (ev : Evaluator) (x : Value) (i : Nat) (h : CatchClause) (s : State) :
    (∃ turns r t, Filters ev x i h s turns r t) ∨
      (Plan.accepts h (Evaluator.bindings h x)).run ev s = .endless := by
  cases hn : h.filter with
  | none => exact .inl ⟨_, _, _, .absent hn⟩
  | some f =>
    cases he : (ev.eval f).run (filterStart h x s) with
    | some p => exact .inl ⟨_, _, _, .evaluated hn he⟩
    | none =>
      have he : ev.eval f ((Frame.bindings (Evaluator.bindings h x)).enter s) = .endless :=
        Eval.run_eq_none.mp he
      right
      unfold Plan.accepts
      rw [hn]
      rw [Plan.run_attempt, Plan.run_within, Plan.run_eval, he]
      rfl

theorem handles_total (ev : Evaluator) (x : Value) (fault : Option Node) (i : Nat)
    (hs : List CatchClause) (s : State) :
    (∃ turns r t, Handles ev x fault i hs s turns r t) ∨
      (Plan.handle x fault hs).run ev s = .endless := by
  induction hs generalizing i s with
  | nil =>
    cases hf : fault with
    | none => exact .inl ⟨_, _, _, .unhandled rfl⟩
    | some f =>
      cases he : (ev.eval f).run s with
      | some p => exact .inl ⟨_, _, _, .fault rfl he⟩
      | none =>
        have he : ev.eval f s = .endless := Eval.run_eq_none.mp he
        right
        simp only [Plan.handle, Plan.run_bind, Plan.run_eval]
        rw [Eval.bind_eq, he]
        rfl
  | cons h hs ih =>
    cases hx : x.isInstanceOf h.test with
    | false =>
      simp only [Plan.handle, hx, Bool.false_eq_true, if_false]
      refine (ih (i + 1) s).imp_left ?_
      rintro ⟨turns, r, t, hh⟩
      exact ⟨turns, r, t, .skipped hx hh⟩
    | true =>
      simp only [Plan.handle, hx, if_true]
      rcases filters_total ev x i h s with ⟨filter, q, t, hf⟩ | he
      · have hd := (Filters.does (R := ⟨ev, fun _ _ => []⟩) hf).1
        rcases q with y | _ | _
        · exact .inl ⟨_, _, _, .failed hx hf⟩
        · rw [Plan.run_bind, Eval.bind_eq, hd]
          refine (ih (i + 1) t).imp_left ?_
          rintro ⟨turns, r, u, hh⟩
          exact ⟨_, r, u, .rejected hx hf hh⟩
        · cases he : (ev.eval h.body).run (handlerStart h x t) with
          | some p => exact .inl ⟨_, _, _, .handled hx hf he⟩
          | none =>
            have he : ev.eval h.body ((Frame.bindings (Evaluator.bindings h x)).enter
                ((Frame.handling x).enter t)) = .endless := Eval.run_eq_none.mp he
            right
            rw [Plan.run_bind, Eval.bind_eq, hd]
            change (Plan.within (.handling x) _ _).run ev t = _
            rw [Plan.run_within, Plan.run_within, Plan.run_eval, he]
            rfl
      · right
        rw [Plan.run_bind, Eval.bind_eq, he]
        rfl

theorem protects_total (ev : Evaluator) (body : Node) (hs : List CatchClause) (fault : Option Node)
    (s : State) :
    (∃ turns r t, Protects ev body hs fault s turns r t) ∨
      (Plan.guard body hs fault).run ev s = .endless := by
  cases he : (ev.eval body).run s with
  | none =>
    right
    rw [Plan.guard, Plan.run_attempt, Plan.run_eval, Eval.run_eq_none.mp he]
    rfl
  | some p =>
    obtain ⟨r, t⟩ := p
    by_cases hr : ∃ x, r = .error (.thrown x)
    · obtain ⟨x, rfl⟩ := hr
      refine (handles_total ev x fault 0 hs t).imp ?_ fun hh => ?_
      · rintro ⟨turns, r, u, hh⟩
        exact ⟨_, r, u, .thrown he hh⟩
      · rw [Plan.guard, Plan.run_attempt, Plan.run_eval, Eval.run_eq_some.mp he]
        exact hh
    · exact .inl ⟨_, _, _, .passed he fun x hx => hr ⟨x, hx⟩⟩

theorem rule_total (ev : Evaluator) (body : Node) (hs : List CatchClause)
    (fault finalizer : Option Node) (s : State) :
    (∃ turns r t, Rule ev body hs fault s finalizer turns r t) ∨
      (Plan.evalGuarded body hs finalizer fault).run ev s = .endless := by
  rcases protects_total ev body hs fault s with ⟨turns, r, t, hp⟩ | he
  · cases hf : finalizer with
    | none => exact .inl ⟨_, _, _, .plain rfl hp⟩
    | some f =>
      cases he : (ev.eval f).run t with
      | some p => exact .inl ⟨_, _, _, .finalized rfl hp he⟩
      | none =>
        have hd := (Protects.does (R := ⟨ev, fun _ _ => []⟩) hp).1
        right
        rw [Plan.evalGuarded, Plan.run_bind, Eval.bind_eq, Plan.run_final, hd,
          Outcome.ended_andThen, Eval.run_eq_none.mp he]
        rfl
  · right
    cases finalizer with
    | none =>
      rw [Plan.evalGuarded, Plan.run_bind, Eval.bind_eq, he]
      rfl
    | some f =>
      rw [Plan.evalGuarded, Plan.run_bind, Eval.bind_eq, Plan.run_final, he]
      rfl

/-! ### What the rule says of the evaluations -/

theorem lookup_filterStart {h : CatchClause} {x : Value} {s : State} :
    ∀ p ∈ h.var, (filterStart h x s).env.lookup p.id = some x := by
  intro p hp
  have hb : Evaluator.bindings h x = [(p.id, x)] := by
    unfold Evaluator.bindings
    rw [Option.mem_def.mp hp]
    rfl
  change (s.env.push.defineAll (Evaluator.bindings h x)).lookup p.id = some x
  rw [hb, Environment.push_defineAll]
  simp [Environment.lookup, Slots.ofBindings, Slots.set, Slots.get?]

/-- What is evaluated because of the exception `x`. A filter and the body of a handler are so only
if the exception is of the handler's class, and they find it bound to the handler's variable; in the
body of a handler a rethrow raises it again. -/
def Catches (handlers : List CatchClause) (fault : Option Node) (x : Value) (e : Turn) : Prop :=
  match e.stage with
  | .filter i =>
    ∃ h, handlers[i]? = some h ∧ h.filter = some e.node ∧ x.isInstanceOf h.test = true ∧
      ∀ p ∈ h.var, e.start.env.lookup p.id = some x
  | .handler i => ∃ h, handlers[i]? = some h ∧ h.body = e.node ∧ x.isInstanceOf h.test = true ∧
      (∀ p ∈ h.var, e.start.env.lookup p.id = some x) ∧ e.start.handling.head? = some x
  | .fault => fault = some e.node
  | .body | .finalizer => False

/-- The evaluations of a guarded node: first that of its body; if this throws an exception, those of
filters and then at most one, of the body of a handler or of the fault body; and at last that of the
finalizer. -/
structure Account (body : Node) (handlers : List CatchClause) (fault finalizer : Option Node)
    (s : State) (turn : Turn) (caught final : List Turn) : Prop where
  first : turn.stage = .body ∧ turn.node = body ∧ turn.start = s
  unthrown : (∀ x, turn.result ≠ .error (.thrown x)) → caught = []
  thrown (x : Value) : turn.result = .error (.thrown x) → ∀ e ∈ caught, Catches handlers fault x e
  search : ∀ e ∈ caught.dropLast, ∃ i, e.stage = .filter i
  last : final.map (fun e => (e.stage, e.node)) =
    (finalizer.map fun f => (Stage.finalizer, f)).toList
  /-- No part is evaluated twice. -/
  order : (turn :: caught ++ final).Pairwise fun d e =>
    d.stage.rank handlers.length < e.stage.rank handlers.length

section

variable {ev : Evaluator} {x : Value} {i : Nat} {h : CatchClause} {hs all : List CatchClause}
  {body : Node} {fault finalizer : Option Node} {s t : State} {turns : List Turn}

theorem Filters.stages {r : Except Signal Bool} (hf : Filters ev x i h s turns r t) :
    turns.length ≤ 1 ∧ ∀ e ∈ turns, e.stage = .filter i := by
  cases hf with
  | absent hn => simp
  | evaluated hn he => simp

theorem Filters.catches {r : Except Signal Bool} (hf : Filters ev x i h s turns r t)
    (hi : all[i]? = some h) (hx : x.isInstanceOf h.test = true) :
    ∀ e ∈ turns, Catches all fault x e := by
  cases hf with
  | absent hn => exact List.forall_mem_nil _
  | evaluated hn he =>
    intro e hm
    obtain rfl := List.mem_singleton.mp hm
    exact ⟨h, hi, hn, hx, lookup_filterStart⟩

theorem Handles.catches {r : Except Signal Value} (hh : Handles ev x fault i hs s turns r t)
    (ha : all.drop i = hs) : ∀ e ∈ turns, Catches all fault x e := by
  have head {i : Nat} {h : CatchClause} {hs : List CatchClause} (ha : all.drop i = h :: hs) :
      all[i]? = some h := by rw [← List.head?_drop, ha]; rfl
  have tail {i : Nat} {h : CatchClause} {hs : List CatchClause} (ha : all.drop i = h :: hs) :
      all.drop (i + 1) = hs := by rw [← List.tail_drop, ha]; rfl
  induction hh with
  | unhandled hf => exact List.forall_mem_nil _
  | fault hf he =>
    intro e hm
    obtain rfl := List.mem_singleton.mp hm
    exact hf
  | skipped hx hr ih => exact ih (tail ha)
  | handled hx hf he =>
    refine List.forall_mem_append.mpr ⟨hf.catches (head ha) hx, fun e hm => ?_⟩
    obtain rfl := List.mem_singleton.mp hm
    exact ⟨_, head ha, rfl, hx, lookup_filterStart, rfl⟩
  | rejected hx hf hr ih => exact List.forall_mem_append.mpr ⟨hf.catches (head ha) hx, ih (tail ha)⟩
  | failed hx hf => exact hf.catches (head ha) hx

theorem Handles.search {r : Except Signal Value} (hh : Handles ev x fault i hs s turns r t) :
    ∀ e ∈ turns.dropLast, ∃ j, e.stage = .filter j := by
  induction hh with
  | unhandled hf => exact List.forall_mem_nil _
  | fault hf he => exact List.forall_mem_nil _
  | skipped hx hr ih => exact ih
  | handled hx hf he =>
    rw [List.dropLast_concat]
    exact fun e hm => ⟨_, hf.stages.2 e hm⟩
  | @rejected i h hs filter turns r s t u hx hf hr ih =>
    intro e hm
    cases turns with
    | nil =>
      rw [List.append_nil] at hm
      exact ⟨_, hf.stages.2 e (List.dropLast_subset _ hm)⟩
    | cons d turns =>
      rw [List.dropLast_append_of_ne_nil (List.cons_ne_nil _ _)] at hm
      rcases List.mem_append.mp hm with hm | hm
      · exact ⟨_, hf.stages.2 e hm⟩
      · exact ih e hm
  | failed hx hf => exact fun e hm => ⟨_, hf.stages.2 e (List.dropLast_subset _ hm)⟩

/-- The evaluation of a filter comes before those that follow it. -/
theorem Filters.order {r : Except Signal Bool} {n : Nat} {later : List Turn}
    (hf : Filters ev x i h s turns r t)
    (hp : later.Pairwise fun d e => d.stage.rank n < e.stage.rank n)
    (hl : ∀ e ∈ later, 2 * i + 1 < e.stage.rank n) :
    (turns ++ later).Pairwise fun d e => d.stage.rank n < e.stage.rank n := by
  cases hf with
  | absent hn => exact hp
  | evaluated hn he => exact List.pairwise_cons.mpr ⟨hl, hp⟩

/-- The evaluations for the handlers from position `i` on stand between those before it and the
finalizer. -/
theorem Handles.order {r : Except Signal Value} (hh : Handles ev x fault i hs s turns r t) {n : Nat}
    (hn : i + hs.length = n) : (turns.Pairwise fun d e => d.stage.rank n < e.stage.rank n) ∧
      ∀ e ∈ turns, 2 * i < e.stage.rank n ∧ e.stage.rank n < 2 * n + 2 := by
  have filter {i : Nat} {h : CatchClause} {s t : State} {turns : List Turn} {r : Except Signal Bool}
      (hf : Filters ev x i h s turns r t) (hi : i < n) :
      ∀ e ∈ turns, 2 * i < e.stage.rank n ∧ e.stage.rank n < 2 * n + 2 := by
    intro e hm
    rw [hf.stages.2 e hm, Stage.rank]
    omega
  induction hh with
  | unhandled hf => exact ⟨.nil, List.forall_mem_nil _⟩
  | fault hf he =>
    obtain rfl : _ = n := hn
    refine ⟨List.pairwise_singleton _ _, fun e hm => ?_⟩
    obtain rfl := List.mem_singleton.mp hm
    simp [Stage.rank]
  | skipped hx hr ih =>
    rw [List.length_cons] at hn
    obtain ⟨hp, hb⟩ := ih (by omega)
    refine ⟨hp, fun e hm => ?_⟩
    have := hb e hm
    omega
  | handled hx hf he =>
    rw [List.length_cons] at hn
    refine ⟨hf.order (List.pairwise_singleton _ _) fun e hm => ?_,
      List.forall_mem_append.mpr ⟨filter hf (by omega), fun e hm => ?_⟩⟩
    · obtain rfl := List.mem_singleton.mp hm
      simp [Stage.rank]
    · obtain rfl := List.mem_singleton.mp hm
      simp only [Stage.rank]
      omega
  | rejected hx hf hr ih =>
    rw [List.length_cons] at hn
    obtain ⟨hp, hb⟩ := ih (by omega)
    refine ⟨hf.order hp fun e hm => ?_,
      List.forall_mem_append.mpr ⟨filter hf (by omega), fun e hm => ?_⟩⟩
    · have := hb e hm
      omega
    · have := hb e hm
      omega
  | failed hx hf =>
    rw [List.length_cons] at hn
    have hp := hf.order (n := n) .nil (List.forall_mem_nil _)
    rw [List.append_nil] at hp
    exact ⟨hp, filter hf (by omega)⟩

/-- The evaluations of the body and of the handlers, before the finalizer. -/
theorem Protects.account {r : Except Signal Value} (hp : Protects ev body hs fault s turns r t) :
    ∃ turn caught, turns = turn :: caught ∧ Account body hs fault none s turn caught [] ∧
      ∀ e ∈ turns, e.stage.rank hs.length < 2 * hs.length + 2 := by
  cases hp with
  | @passed r t he hr =>
    refine ⟨_, [], rfl, ?_, fun e hm => ?_⟩
    · constructor
      · exact ⟨rfl, rfl, rfl⟩
      · exact fun _ => rfl
      · exact fun x hx => absurd hx (hr x)
      · exact List.forall_mem_nil _
      · rfl
      · exact List.pairwise_singleton _ _
    · obtain rfl := List.mem_singleton.mp hm
      simp [Stage.rank]
  | @thrown x turns r t u he hh =>
    obtain ⟨hp, hb⟩ := hh.order (Nat.zero_add _)
    refine ⟨_, turns, rfl, ?_,
      List.forall_mem_cons.mpr ⟨by simp [Stage.rank], fun e hm => (hb e hm).2⟩⟩
    constructor
    · exact ⟨rfl, rfl, rfl⟩
    · exact fun hx => absurd rfl (hx x)
    · rintro _ ⟨⟩
      exact hh.catches rfl
    · exact hh.search
    · rfl
    · rw [List.append_nil]
      exact List.pairwise_cons.mpr ⟨fun e hm => (hb e hm).1, hp⟩

theorem Rule.account {r : Except Signal Value} (hg : Rule ev body hs fault s finalizer turns r t) :
    ∃ turn caught final, turns = turn :: caught ++ final ∧
      Account body hs fault finalizer s turn caught final := by
  cases hg with
  | plain hf hp =>
    subst hf
    obtain ⟨turn, caught, rfl, ha, -⟩ := hp.account
    exact ⟨turn, caught, [], by simp, ha⟩
  | finalized hf hp he =>
    subst hf
    obtain ⟨turn, caught, rfl, ha, hb⟩ := hp.account
    refine ⟨turn, caught, _, rfl, ha.first, ha.unthrown, ha.thrown, ha.search, rfl, ?_⟩
    have ho := ha.order
    rw [List.append_nil] at ho
    refine List.pairwise_append.mpr ⟨ho, List.pairwise_singleton _ _, fun d hd e hm => ?_⟩
    obtain rfl := List.mem_singleton.mp hm
    exact hb d hd

end

end Guarded

/-- Unless no step is left for it, a guarded node ends if and only if the rule has an end for it,
and in that. What it does then is what the evaluations of the rule do, one after the other, none of
which is one of the same part as another: the body from where the node starts; filters and the body
of at most one handler, only of handlers whose class the exception is of and with their variable
bound to it; the fault body; and the finalizer last, whatever came before. -/
theorem guarded_evaluation (host : Host) (depth id : Nat) (body : Node)
    (handlers : List CatchClause) (finalizer fault : Option Node) (s : State) :
    let node : Node := .guarded id body handlers finalizer fault
    match s.spent? with
    | some limit =>
      (eval host (depth + 1) node).run s =
        some (.error (.fatal (.budgetExceeded limit)), s.ticked) ∧
      trace host (depth + 1) node s = [.trip limit]
    | none =>
      (∀ r t, (eval host (depth + 1) node).run s = some (r, t) ↔
        ∃ turns,
        Guarded.Rule (evaluator host depth) body handlers fault s.ticked finalizer turns r t) ∧
      ∀ turns r t,
        Guarded.Rule (evaluator host depth) body handlers fault s.ticked finalizer turns r t →
        trace host (depth + 1) node s =
          .node node :: turns.flatMap (fun e => trace host depth e.node e.start) ∧
        ∃ turn caught final, turns = turn :: caught ++ final ∧
          Guarded.Account body handlers fault finalizer s.ticked turn caught final := by
  intro node
  cases hs : s.spent? with
  | some limit =>
    refine ⟨Eval.run_eq_some.mpr ?_, ?_⟩
    · rw [eval_succ, hs]
      rfl
    · simp [trace, hs]
  | none =>
    have heval : eval host (depth + 1) node s = node.plan.run (evaluator host depth) s.ticked := by
      rw [eval_succ, hs]
    have htrace : trace host (depth + 1) node s =
        .node node :: node.plan.trace (recorder host depth) s.ticked := by
      rw [trace, hs]
      rfl
    have does {turns : List Turn} {r : Except Signal Value} {t : State}
        (hg :
          Guarded.Rule (evaluator host depth) body handlers fault s.ticked finalizer turns r t) :
        Guarded.Does (recorder host depth) node.plan s.ticked turns r t :=
      Guarded.Rule.does (R := recorder host depth) hg
    refine ⟨fun r t => ⟨fun hrun => ?_, fun ⟨turns, hg⟩ => ?_⟩, fun turns r t hg =>
      ⟨?_, hg.account⟩⟩
    · have hrun : node.plan.run (evaluator host depth) s.ticked = .ended r t :=
        heval.symm.trans (Eval.run_eq_some.mp hrun)
      rcases Guarded.rule_total (evaluator host depth) body handlers fault finalizer s.ticked with
        ⟨turns, r', t', hg⟩ | hend
      · obtain ⟨rfl, rfl⟩ := Outcome.ended_inj.mp (hrun.symm.trans (does hg).1)
        exact ⟨turns, hg⟩
      · exact absurd (hrun.symm.trans hend) Outcome.ended_ne_endless
    · exact Eval.run_eq_some.mpr (heval.trans (does hg).1)
    · rw [htrace, (does hg).2]
      rfl

end ExprTree
