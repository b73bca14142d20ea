import ExprTree.Proofs.Coupling
import ExprTree.Proofs.Following
import ExprTree.Proofs.Reuse

/-! How runs end when nothing limits them: what is left of an outcome and of what was done before it
once the steps of the interpreter itself are not counted. -/
namespace ExprTree

/-- The state but for the count of steps. -/
def State.uncounted (s : State) : State := { s with steps := 0 }

/-- The interpreter itself goes past the count of a step. -/
def Deed.isNode : Deed → Bool
  | .node => true
  | _ => false

/-- What was done, in order, but for the interpreter's own steps. -/
def Trace.acts (tr : Trace) : List Deed := tr.deeds.filter (!·.isNode)

structure Ending where
  result : Except Signal Value
  state : State
  acts : List Deed

/-- What was done before is put in front. -/
def Ending.after (e : Ending) (acts : List Deed) : Ending := { e with acts := acts ++ e.acts }

/-- The value is changed, if the run has one. -/
def Ending.map (g : Value → Value) (e : Ending) : Ending := { e with result := e.result.map g }

theorem Ending.map_id (e : Ending) : e.map id = e := by
  rcases e with ⟨_ | _, _, _⟩ <;> rfl

def Outcome.ending (o : Outcome Value) (tr : Trace) : Option Ending :=
  match o with
  | .value v t => some ⟨.ok v, t.uncounted, tr.acts⟩
  | .signal x t => some ⟨.error x, t.uncounted, tr.acts⟩
  | .endless => none

/-- How the evaluation of a node to a depth ends. -/
def ending (host : Host) (depth : Nat) (n : Node) (s : State) : Option Ending :=
  (eval host depth n s).ending (trace host depth n s)

/-- The evaluation of the node ends so, given the depth for it. -/
def Ends (host : Host) (n : Node) (s : State) (e : Ending) : Prop :=
  ∃ depth, ending host depth n s = some e

namespace Trace

variable {tr tr' : Trace} {n : Node}

@[simp] theorem acts_nil : acts [] = [] := rfl

@[simp] theorem acts_node : acts (.node n :: tr) = tr.acts := rfl

@[simp] theorem acts_append : acts (tr ++ tr') = tr.acts ++ tr'.acts := by
  simp [acts]

end Trace

namespace Outcome

variable {o : Outcome Value} {tr : Trace} {e : Ending} {r : Except Signal Value} {t : State}

@[simp] theorem ending_ended : (ended r t).ending tr = some ⟨r, t.uncounted, tr.acts⟩ := by
  cases r <;> rfl

theorem ending_eq_some :
    o.ending tr = some e ↔ ∃ t, o = ended e.result t ∧ e = ⟨e.result, t.uncounted, tr.acts⟩ := by
  refine ⟨fun h => ?_, ?_⟩
  · cases o with
    | value v t => exact ⟨t, by cases h; rfl, by cases h; rfl⟩
    | signal x t => exact ⟨t, by cases h; rfl, by cases h; rfl⟩
    | endless => cases h
  · rintro ⟨t, rfl, h⟩
    rw [ending_ended, ← h]

theorem ending_ne_none : o.ending tr ≠ none ↔ o ≠ .endless := by
  cases o <;> simp [ending]

theorem endless_or_ended (o : Outcome Value) : o = .endless ∨ ∃ r t, o = ended r t := by
  cases o with
  | value v t => exact .inr ⟨.ok v, t, rfl⟩
  | signal x t => exact .inr ⟨.error x, t, rfl⟩
  | endless => exact .inl rfl

/-- A run that goes on ends as what comes last does, after the acts of both. -/
theorem ending_andThen {g : Except Signal Value → State → Outcome Value}
    {k : Except Signal Value → State → Trace} :
    (o.andThen g).ending (tr ++ o.after k) = some e ↔
      ∃ r t f, o = ended r t ∧ (g r t).ending (k r t) = some f ∧ e = f.after tr.acts := by
  rcases o.endless_or_ended with rfl | ⟨r, t, rfl⟩
  · refine ⟨nofun, ?_⟩
    rintro ⟨r, t, f, he, -⟩
    exact absurd he.symm ended_ne_endless
  · have hrun : (g r t).ending (tr ++ k r t) = some e ↔
        ∃ f, (g r t).ending (k r t) = some f ∧ e = f.after tr.acts := by
      cases g r t <;> simp [ending, Ending.after, eq_comm]
    rw [ended_andThen, ended_after, hrun]
    constructor
    · rintro ⟨f, hf⟩
      exact ⟨r, t, f, rfl, hf⟩
    · rintro ⟨r', t', f, he, hf⟩
      obtain ⟨rfl, rfl⟩ := ended_inj.mp he
      exact ⟨f, hf⟩

end Outcome

variable {host : Host} {n m : Nat} {node : Node} {s t : State} {e f : Ending}

/-! ### Runs without a limit -/

theorem ending_succ (h : s.limit = none) : ending host (n + 1) node s =
    (node.plan.run (evaluator host n) s.ticked).ending
    (node.plan.trace (recorder host n) s.ticked) := by
  have hs : s.spent? = none := by rw [State.spent?, h]
  rw [ending, eval_succ, trace, hs]
  cases node.plan.run (evaluator host n) s.ticked <;> rfl

theorem ending_mono (h : n ≤ m) (he : ending host n node s = some e) :
    ending host m node s = some e := by
  have ho : eval host n node s ≠ .endless := Outcome.ending_ne_none.mp (by rw [← ending, he]; nofun)
  obtain ⟨heq, htr⟩ := ((leads Host.blind_exact h).eval node s s (.refl s)).eq ho
  have heq : eval host m node s = eval host n node s := heq
  have htr : trace host m node s = trace host n node s := htr
  rw [ending, heq, htr]
  exact he

theorem Ends.unique (he : Ends host node s e) (hf : Ends host node s f) : e = f := by
  obtain ⟨n, he⟩ := he
  obtain ⟨m, hf⟩ := hf
  have he := ending_mono (Nat.le_max_left n m) he
  have hf := ending_mono (Nat.le_max_right n m) hf
  exact Option.some.inj (he.symm.trans hf)

/-- Runs that may differ in the count of steps end alike, after the same acts. -/
theorem Twins.ended {α : Type} {env : Environment} {o o' : Outcome α} {tr tr' : Trace}
    (h : Coupling.recounted.Runs () env Eq o o' tr tr') :
    tr'.acts = tr.acts ∧ ((o = .endless ∧ o' = .endless) ∨
      ∃ r t t', o = .ended r t ∧ o' = .ended r t' ∧ t'.uncounted = t.uncounted) := by
  obtain ⟨ho, htr⟩ := h
  have hstate {s t : State} (h : Coupling.recounted.States () env s t) :
      t.uncounted = s.uncounted := by
    have he : s.env = t.env := h.env
    simp [State.uncounted, he, h.handling, h.limit, Store.Paired.eq_iff.mp h.store]
  refine ⟨by rw [Trace.acts, htr, Trace.acts], ?_⟩
  cases ho with
  | @value a b t t' hv hs => exact .inr ⟨.ok a, t, t', rfl, by rw [hv]; rfl, hstate hs⟩
  | @signal x y t t' hx hs =>
    exact .inr ⟨.error x, t, t', rfl, by rw [Link.same_signals.mp hx]; rfl, hstate hs⟩
  | endless => exact .inl ⟨rfl, rfl⟩

theorem recounted_states (hl : s.limit = none) (h : t.uncounted = s.uncounted) :
    Coupling.recounted.States () s.env s t := by
  obtain ⟨env, handling, steps, limit, store⟩ := s
  obtain ⟨env', handling', steps', limit', store'⟩ := t
  obtain ⟨rfl, rfl, rfl, rfl⟩ :
      env' = env ∧ handling' = handling ∧ limit' = limit ∧ store' = store := by
    simpa [State.uncounted] using h
  exact ⟨⟨rfl, rfl, rfl, rfl, .inr ⟨trivial, hl⟩⟩, .refl (fun _ => rfl) store'⟩

theorem recounted_recorder :
    Recorder.Coupled Coupling.recounted (recorder host n) (recorder host n) :=
  coupled Coupling.recounted_lawful Host.opaque_same n

/-- Where there is no limit, the count of steps does not matter. -/
theorem ending_recounted (hl : s.limit = none) (h : t.uncounted = s.uncounted) :
    ending host n node t = ending host n node s := by
  have hR : Recorder.Coupled Coupling.recounted (recorder host n) (recorder host n) :=
    recounted_recorder
  have hruns := hR.eval (i := ()) (n := node) (m := node) rfl (recounted_states hl h)
  obtain ⟨ha, ⟨ho, ho'⟩ | ⟨r, u, u', ho, ho', hu⟩⟩ := hruns.ended
  · have ho : eval host n node s = .endless := ho
    have ho' : eval host n node t = .endless := ho'
    rw [ending, ending, ho, ho']
    rfl
  · have ho : eval host n node s = .ended r u := ho
    have ho' : eval host n node t = .ended r u' := ho'
    have ha : (trace host n node t).acts = (trace host n node s).acts := ha
    rw [ending, ending, ho, ho', Outcome.ending_ended, Outcome.ending_ended, hu, ha]

/-- How a run that starts with the evaluation of a node ends. -/
theorem ending_eval {g : Except Signal Value → State → Outcome Value}
    {k : Except Signal Value → State → Trace} :
    (((evaluator host n).eval node s).andThen g).ending
      ((recorder host n).trace node s ++ ((evaluator host n).eval node s).after k) = some e ↔
      ∃ r t f, eval host n node s = .ended r t ∧ (g r t).ending (k r t) = some f ∧
        e = f.after (trace host n node s).acts :=
  Outcome.ending_andThen

/-- A node that takes one action ends as the action does. -/
theorem ending_act {a : Action} {R : Recorder Event} (g : Value → Value) :
    ((Plan.act a fun v => .pure (g v)).run R.toEvaluator s).ending
      ((Plan.act a fun v => .pure (g v)).trace R s) =
      ((a.run R.toEvaluator s).ending (a.trace R s)).map (·.map g) := by
  rw [Plan.run_act, Plan.trace]
  cases a.run R.toEvaluator s with
  | value v t => exact congrArg (Outcome.ending _) (List.append_nil _)
  | signal x t => exact congrArg (Outcome.ending _) (List.append_nil _)
  | endless => rfl

/-- No limit is set on the way. -/
theorem limit_of_ended {r : Except Signal Value} (hl : s.limit = none)
    (h : eval host n node s = .ended r t) : t.limit = none := by
  have hleaves : (eval host n node s).Leaves fun t => t.limit = s.limit := eval_keeps_limit
  rw [h] at hleaves
  cases r with
  | ok v => exact Eq.trans hleaves hl
  | error x => exact Eq.trans hleaves hl

theorem limit_of_uncounted (ht : t.uncounted = s.uncounted)
    (hl : s.limit = none) : t.limit = none :=
  (congrArg State.limit ht).trans hl

namespace Ends

theorem of_ended {r : Except Signal Value} (h : eval host n node s = .ended r t) :
    Ends host node s ⟨r, t.uncounted, (trace host n node s).acts⟩ :=
  ⟨n, Outcome.ending_eq_some.mpr ⟨t, h, rfl⟩⟩

theorem recounted (hl : s.limit = none) (ht : t.uncounted = s.uncounted) (h : Ends host node s e) :
    Ends host node t e := by
  obtain ⟨n, h⟩ := h
  exact ⟨n, (ending_recounted hl ht).trans h⟩

/-- From some depth on the node ends so, whatever the count of steps. -/
theorem eventually (hl : s.limit = none) (h : Ends host node s e) :
    ∃ n, ∀ m ≥ n, ∀ u : State, u.uncounted = s.uncounted →
      ∃ v, eval host m node u = .ended e.result v ∧
      v.uncounted = e.state ∧ (trace host m node u).acts = e.acts := by
  obtain ⟨n, h⟩ := h
  refine ⟨n, fun m hm u hu => ?_⟩
  have he : ending host m node u = some e := (ending_recounted hl hu).trans (ending_mono hm h)
  obtain ⟨v, hv, he⟩ := Outcome.ending_eq_some.mp he
  rw [he]
  exact ⟨v, hv, rfl, rfl⟩

theorem limit (hl : s.limit = none) (h : Ends host node s e)
    (ht : t.uncounted = e.state) : t.limit = none := by
  obtain ⟨n, h⟩ := h
  obtain ⟨v, hv, he⟩ := Outcome.ending_eq_some.mp h
  rw [he] at ht
  exact limit_of_uncounted ht (limit_of_ended hl hv)

theorem state_limit (hl : s.limit = none) (h : Ends host node s e) : e.state.limit = none := by
  obtain ⟨n, h⟩ := h
  obtain ⟨v, hv, he⟩ := Outcome.ending_eq_some.mp h
  rw [he]
  exact show v.limit = none from limit_of_ended hl hv

end Ends

end ExprTree
