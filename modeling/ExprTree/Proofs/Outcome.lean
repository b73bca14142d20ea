import ExprTree.Eval.Place

/-! What every outcome of a run satisfies, and contracts: an invariant of the state together with a
relation between the state before a run and the one after it. -/
namespace ExprTree

variable {α β : Type} {m : Eval α} {f : α → Eval β} {s t : State}

/-- If the run ends, then so that `Q`: every outcome satisfies it, and a run without one satisfies
anything. -/
def Eval.IfEnds (m : Eval α) (s : State) (Q : Except Signal α → State → Prop) : Prop :=
  match m s with
  | .value a t => Q (.ok a) t
  | .signal x t => Q (.error x) t
  | .endless => True

namespace Eval

variable {Q R : Except Signal α → State → Prop} {r : Except Signal α}

theorem IfEnds.mono (h : m.IfEnds s Q) (hq : ∀ r t, Q r t → R r t) : m.IfEnds s R := by
  unfold IfEnds at *
  cases hm : m s with
  | value a t => exact hq _ _ (by simpa [hm] using h)
  | signal x t => exact hq _ _ (by simpa [hm] using h)
  | endless => trivial

theorem ifEnds_iff_run : m.IfEnds s Q ↔ ∀ r t, m.run s = some (r, t) → Q r t := by
  unfold IfEnds run
  cases m s <;> simp

/-- A bind ends as its second part does, or in the signal of its first. -/
theorem ifEnds_bind {Q : Except Signal β → State → Prop} :
    (m >>= f).IfEnds s Q ↔ m.IfEnds s fun r t => match r with
      | .ok a => (f a).IfEnds t Q
      | .error x => Q (.error x) t := by
  change IfEnds (Eval.bind m f) s Q ↔ _
  unfold IfEnds Eval.bind
  cases m s <;> rfl

theorem ifEnds_modify_bind {g : State → State} {f : Unit → Eval β}
    {Q : Except Signal β → State → Prop} : (modify g >>= f).IfEnds s Q ↔ (f ()).IfEnds (g s) Q :=
  Iff.rfl

theorem ifEnds_outcome {Q : Except Signal (Except Signal α) → State → Prop} :
    m.outcome.IfEnds s Q ↔ m.IfEnds s fun r t => Q (.ok r) t := by
  unfold IfEnds outcome
  cases m s <;> rfl

theorem ifEnds_around {before after : State → State} :
    (m.around before after).IfEnds s Q ↔ m.IfEnds (before s) fun r t => Q r (after t) := by
  unfold IfEnds around
  cases m (before s) <;> rfl

/-- An isolated run starts in an environment of its own and changes nothing but the store. -/
theorem ifEnds_isolated {captures : Slots} {limit : Option Nat} {m : Eval Value}
    {Q : Except Signal Value → State → Prop} : (Evaluator.isolated captures limit m).IfEnds s Q ↔
      m.IfEnds ⟨.ofCaptures captures, [], 0, limit, s.store⟩ fun r t =>
        Q r { s with store := t.store } := by
  unfold IfEnds Evaluator.isolated
  cases m ⟨.ofCaptures captures, [], 0, limit, s.store⟩ <;> rfl

theorem ifEnds_onStore {call : Value → List Value → Eval Value} {run : Store → Routine}
    {Q : Except Signal Value → State → Prop} : (Evaluator.onStore call run).IfEnds s Q ↔
      (Evaluator.runRoutine call (run s.store)).IfEnds { s with store := {} } Q :=
  Iff.rfl

theorem ifEnds_finish {call : Value → List Value → Eval Value} {result : Except Signal Value}
    {store : Store} {Q : Except Signal Value → State → Prop} :
    (Evaluator.runRoutine call (.finish result store)).IfEnds s Q ↔ Q result { s with store } := by
  cases result <;> rfl

/-- A delegate that host code invokes has the store until it replies. -/
theorem ifEnds_invoke {call : Value → List Value → Eval Value} {f : Value} {args : List Value}
    {store : Store} {resume : Except Signal Value → Store → Routine}
    {Q : Except Signal Value → State → Prop} :
    (Evaluator.runRoutine call (.invoke f args store resume)).IfEnds s Q ↔
      (call f args).IfEnds { s with store } fun r t =>
        (Evaluator.runRoutine call (resume r t.store)).IfEnds { t with store := {} } Q := by
  unfold IfEnds
  simp only [Evaluator.runRoutine]
  cases call f args { s with store } <;> rfl

@[simp] theorem ifEnds_pure {a : α} : (pure a : Eval α).IfEnds s Q ↔ Q (.ok a) s := Iff.rfl

@[simp] theorem ifEnds_signal {x : Signal} : (signal x : Eval α).IfEnds s Q ↔ Q (.error x) s :=
  Iff.rfl

@[simp] theorem ifEnds_endless : (endless : Eval α).IfEnds s Q := trivial

theorem ifEnds_lookup {p : Param} {Q : Except Signal Value → State → Prop}
    (hv : ∀ v, s.env.lookup p.id = some v → Q (.ok v) s)
    (hn : s.env.lookup p.id = none → Q (.error (.fatal (.unboundParameter p.text))) s) :
    (Evaluator.lookup p).IfEnds s Q := by
  refine ifEnds_bind.mpr ?_
  change IfEnds _ s Q
  cases h : s.env.lookup p.id with
  | none => exact hn h
  | some v => exact hv v h

theorem ifEnds_assign {p : Param} {v : Value} {Q : Except Signal Unit → State → Prop}
    (hv : ∀ env, s.env.assign? p.id v = some env → Q (.ok ()) { s with env })
    (hn : s.env.assign? p.id v = none → Q (.error (.fatal (.unboundParameter p.text))) s) :
    (Evaluator.assign p v).IfEnds s Q := by
  unfold IfEnds Evaluator.assign
  cases h : s.env.assign? p.id v with
  | none => exact hn h
  | some env => exact hv env h

/-- A step is counted whether or not there was one left. -/
theorem ifEnds_tick {Q : Except Signal Unit → State → Prop}
    (hv : Q (.ok ()) { s with steps := s.steps + 1 })
    (hx : ∀ n, Q (.error (.fatal (.budgetExceeded n))) { s with steps := s.steps + 1 }) :
    tick.IfEnds s Q := by
  obtain ⟨env, handling, steps, limit, store⟩ := s
  unfold IfEnds tick
  cases limit with
  | none => exact hv
  | some n =>
    by_cases hn : n < steps + 1
    · simpa [hn] using hx n
    · simpa [hn] using hv

end Eval

/-- What a kind of run keeps: an invariant, and how the last state stands to the first. -/
structure Contract where
  inv : State → Prop
  step : State → State → Prop
  refl (s : State) : step s s
  trans {s t u : State} : step s t → step t u → step s u

namespace Contract

variable {C : Contract} {P P' : Signal → State → Prop} {Q : α → State → Prop}
  {R : β → State → Prop}

/-- The run keeps the contract, its values satisfying `Q` and its signals `P`. -/
def Holds (C : Contract) (P : Signal → State → Prop) (Q : α → State → Prop) (m : Eval α)
    (s : State) : Prop :=
  m.IfEnds s fun r t => C.inv t ∧ C.step s t ∧ match r with
    | .ok a => Q a t
    | .error x => P x t

theorem Holds.mono {Q' : α → State → Prop} (h : C.Holds P Q m s) (hp : ∀ x t, P x t → P' x t)
    (hq : ∀ a t, C.inv t → C.step s t → Q a t → Q' a t) : C.Holds P' Q' m s := by
  refine Eval.IfEnds.mono h ?_
  rintro (x | a) t ⟨hi, hs, ht⟩
  · exact ⟨hi, hs, hp x t ht⟩
  · exact ⟨hi, hs, hq a t hi hs ht⟩

/-- The steps of two runs in a row are one step. -/
theorem Holds.bind (hm : C.Holds P Q m s)
    (hf : ∀ a t, C.inv t → C.step s t → Q a t → C.Holds P R (f a) t) :
    C.Holds P R (m >>= f) s := by
  refine Eval.ifEnds_bind.mpr (Eval.IfEnds.mono hm ?_)
  rintro (x | a) t ⟨hi, hs, ht⟩
  · exact ⟨hi, hs, ht⟩
  · refine Eval.IfEnds.mono (hf a t hi hs ht) ?_
    intro r u hu
    exact ⟨hu.1, C.trans hs hu.2.1, hu.2.2⟩

/-- After an outcome was made a value, its signal satisfies what the run promised of it. -/
theorem Holds.outcome (hm : C.Holds P Q m s) :
    C.Holds P' (fun r t => match r with
      | .ok a => Q a t
      | .error x => P x t) m.outcome s :=
  Eval.ifEnds_outcome.mpr (Eval.IfEnds.mono hm fun r t h => by cases r <;> exact h)

theorem holds_pure {a : α} (hi : C.inv s) (hq : Q a s) : C.Holds P Q (pure a) s :=
  ⟨hi, C.refl s, hq⟩

theorem holds_signal {x : Signal} (hi : C.inv s) (hp : P x s) :
    C.Holds P Q (Eval.signal x : Eval α) s :=
  ⟨hi, C.refl s, hp⟩

/-- A change of the store is a step of its own. -/
theorem holds_withStore {g : Store → α × Store} (hi : C.inv { s with store := (g s.store).2 })
    (hs : C.step s { s with store := (g s.store).2 })
    (hq : Q (g s.store).1 { s with store := (g s.store).2 }) :
    C.Holds P Q (Eval.withStore g) s :=
  ⟨hi, hs, hq⟩

end Contract

end ExprTree
