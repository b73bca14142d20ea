import ExprTree.Proofs.Detached
import ExprTree.Proofs.HostCode
import ExprTree.Proofs.Trace

/-! Invariants of the store along a run. The counter only grows and the limit stays. -/
namespace ExprTree

variable {α β : Type}

/-- However a run ends, its last state satisfies `Q`. -/
def Outcome.Leaves (o : Outcome α) (Q : State → Prop) : Prop :=
  match o with
  | .value _ t => Q t
  | .signal _ t => Q t
  | .endless => True

namespace Outcome.Leaves

variable {o : Outcome α} {Q Q' : State → Prop} {s : State}

theorem mono (h : o.Leaves Q) (hq : ∀ t, Q t → Q' t) : o.Leaves Q' := by
  cases o with
  | value a t => exact hq t h
  | signal x t => exact hq t h
  | endless => trivial

theorem and (h : o.Leaves Q) (h' : o.Leaves Q') : o.Leaves fun t => Q t ∧ Q' t := by
  cases o with
  | value a t => exact ⟨h, h'⟩
  | signal x t => exact ⟨h, h'⟩
  | endless => trivial

theorem andThen {g : Except Signal α → State → Outcome β} (h : o.Leaves Q)
    (hg : ∀ r t, Q t → (g r t).Leaves Q') : (o.andThen g).Leaves Q' := by
  cases o with
  | value a t => exact hg _ t h
  | signal x t => exact hg _ t h
  | endless => trivial

theorem onto (h : o.Leaves fun t => Q { s with store := t.store }) : (o.onto s).Leaves Q := by
  cases o <;> exact h

end Outcome.Leaves

/-- What keeps `I` from one store to the next, in runs whose limits satisfy `L`. Closures of the
store have such a limit as well, or keep `I` by assumption. -/
structure StoreInvariant (host : Host) (I : Store → Prop) (L : Option Nat → Prop) : Prop where
  frame {s t : Store} : s.Edited t → t.delegates = s.delegates → I s → I t
  closure {s : Store} {f : Lambda} {captures : Slots} {l : Option Nat} : L l → I s →
    I (s.newDelegate f.signature (.closure f captures l)).2
  stored {s : Store} {f : Lambda} {captures : Slots} {l : Option Nat} : I s →
    .closure f captures l ∈ s.delegates →
      L l ∨ ∀ n, (evaluator host n).Vouches I (fun _ => True) f captures l
  host : host.Keeps I fun _ => True

/-- From `s` on: the invariant holds, the limit is the same and no step was taken back. -/
structure State.Onward (I : Store → Prop) (s t : State) : Prop where
  inv : I t.store
  limit : t.limit = s.limit
  steps : s.steps ≤ t.steps

namespace State.Onward

variable {I : Store → Prop} {s t u : State} {f : Frame}

theorem refl (h : I s.store) : s.Onward I s := ⟨h, rfl, Nat.le_refl _⟩

theorem enter (h : I s.store) : s.Onward I (f.enter s) := ⟨by simpa using h, by simp, by simp⟩

theorem leave (h : s.Onward I t) : s.Onward I (f.leave t) :=
  ⟨by simpa using h.inv, by simpa using h.limit, by simpa using h.steps⟩

theorem trans (h : s.Onward I t) (h' : t.Onward I u) : s.Onward I u :=
  ⟨h'.inv, h'.limit.trans h.limit, Nat.le_trans h.steps h'.steps⟩

end State.Onward

namespace Evaluator

variable {ev : Evaluator} {I : Store → Prop} {L : Option Nat → Prop} {n : Nat}

/-- Every node goes onward from a state with the invariant. -/
def Advances (ev : Evaluator) (I : Store → Prop) (L : Option Nat → Prop) : Prop :=
  ∀ n s, L s.limit → I s.store → (ev.eval n s).Leaves (s.Onward I)

variable (he : ev.Advances I L)

include he

theorem sequence_advances {all es : List Node} {k : Nat} {last : Value} {s : State} (hl : L s.limit)
    (hs : I s.store) : (ev.runSequence all k es last s).Leaves (s.Onward I) := by
  induction k generalizing es last s with
  | zero =>
    cases es with
    | nil => exact .refl hs
    | cons e es => trivial
  | succ k ih =>
    cases es with
    | nil => exact .refl hs
    | cons e es =>
      rw [runSequence_go]
      refine (he e s hl hs).andThen fun r t ht => ?_
      have go (es : List Node) (v : Value) : (ev.runSequence all k es v t).Leaves (s.Onward I) :=
        (ih (ht.limit ▸ hl) ht.inv).mono fun _ => ht.trans
      rcases r with (e | x | ⟨l, v⟩) | v
      · exact ht
      · exact ht
      · dsimp only
        cases afterLabel? l all with
        | none => exact ht
        | some rest => exact go _ _
      · exact go _ _

theorem loop_advances {body : Node} {b c : Option Label} {k : Nat} {s : State} (hl : L s.limit)
    (hs : I s.store) : (ev.runLoop body b c k s).Leaves (s.Onward I) := by
  induction k generalizing s with
  | zero => trivial
  | succ k ih =>
    rw [runLoop_go]
    refine (he body s hl hs).andThen fun r t ht => ?_
    have go : (ev.runLoop body b c k t).Leaves (s.Onward I) :=
      (ih (ht.limit ▸ hl) ht.inv).mono fun _ => ht.trans
    rcases r with (e | x | ⟨l, v⟩) | v
    · exact ht
    · exact ht
    · dsimp only
      split
      · exact ht
      · split
        · exact go
        · exact ht
    · exact go

/-- A lambda counts from the beginning again. -/
theorem lambda_leaves {f : Lambda} {args : List Value} {s : State} (hl : L s.limit)
    (hs : I s.store) : (ev.runLambda f args s).Leaves fun t => I t.store := by
  rw [runLambda_eq]
  split
  · exact hs
  · refine (he f.body _ (by simpa [State.entered] using hl)
      (by simpa [State.entered] using hs)).andThen ?_
    rintro ((e | x | ⟨l, v⟩) | v) t ht <;> exact ht.inv

theorem call_leaves {f : Lambda} {captures : Slots} {l : Option Nat} {args : List Value} {s : State}
    (hl : L l) (hs : I s.store) :
    (ev.callLambda f captures l args s).Leaves fun t => I t.store := by
  unfold callLambda
  rw [isolated_eq]
  exact .onto (lambda_leaves he hl hs)

end Evaluator

/-! ### Host code and delegates -/

theorem Eval.IfEnds.leaves {m : Eval α} {s : State} {Q : Except Signal α → State → Prop}
    {Q' : State → Prop} (h : m.IfEnds s Q) (hq : ∀ r t, Q r t → Q' t) : (m s).Leaves Q' := by
  unfold IfEnds at h
  cases hm : m s with
  | value a t => exact hq _ t (by simpa [hm] using h)
  | signal x t => exact hq _ t (by simpa [hm] using h)
  | endless => trivial

/-- A detached run that keeps the invariant goes onward. -/
theorem Eval.Detached.onward {m : Eval α} {I : Store → Prop} {s : State} (hm : m.Detached)
    (h : (m s).Leaves fun t => I t.store) : (m s).Leaves (s.Onward I) := by
  rw [hm s s rfl]
  exact .onto (h.mono fun t ht => ⟨ht, rfl, Nat.le_refl _⟩)

theorem routine_leaves {I : Store → Prop} {call : Value → List Value → Eval Value}
    (hc : ∀ f args s, I s.store → (call f args s).Leaves fun t => I t.store) {r : Routine}
    (hr : r.Keeps I fun _ => True) (s : State) :
    (Evaluator.runRoutine call r s).Leaves fun t => I t.store := by
  induction r generalizing s with
  | finish result store => cases result <;> exact hr.1
  | invoke f args store resume ih =>
    rw [Evaluator.runRoutine_invoke]
    refine (hc f args { s with store } hr.1).andThen fun r t ht => ?_
    exact ih r t.store (hr.2 r t.store ht fun _ _ => trivial) _

/-- A handle keeps what the host keeps and no change of anything but delegates breaks. -/
theorem HandleCall.trusted {host : Host} {I : Store → Prop} (c : HandleCall)
    (hI : ∀ {s t : Store}, s.Edited t → t.delegates = s.delegates → I s → I t)
    (hh : host.Keeps I fun _ => True) :
    Routine.Trusted I (fun _ => True) (c.routine host) := by
  exact hh.routine (fun _ _ => hI) ⟨fun _ => trivial, fun _ => trivial⟩ c

namespace StoreInvariant

variable {host : Host} {I : Store → Prop} {L : Option Nat → Prop} {n : Nat}

theorem routine (h : StoreInvariant host I L) (c : HandleCall) :
    Routine.Trusted I (fun _ => True) (c.routine host) :=
  c.trusted h.frame h.host

variable (h : StoreInvariant host I L) (he : (evaluator host n).Advances I L)

include h he

/-- Closures of the store have a limit in `L` or are assumed to keep the invariant. -/
theorem dispatch_leaves {k : Nat} {f : Value} {args : List Value} {s : State} (hs : I s.store)
    (hh : ∀ id, ((evaluator host n).hostDelegate id args k s).Leaves fun t => I t.store) :
    ((evaluator host n).callDelegate k f args s).Leaves fun t => I t.store := by
  by_cases hf : ∃ sig addr, f = .delegate sig addr
  · obtain ⟨sig, addr, rfl⟩ := hf
    rw [Evaluator.callDelegate_eq]
    split
    · exact hs
    · split
      · rename_i g captures l hg
        rcases h.stored hs (Array.mem_of_getElem? hg) with hl | hv
        · exact Evaluator.call_leaves he hl hs
        · exact Eval.IfEnds.leaves (hv n args s hs) fun _ _ ht => ht.1
      · exact hh _
      · trivial
  · simp only [not_exists] at hf
    obtain ⟨e, -, hfault⟩ := Evaluator.callDelegate_fault hf
    rw [hfault]
    cases e with
    | fatal e => exact hs
    | raise c m => exact h.frame (Store.Edit.newObject s.store c _).edited rfl hs
    | endless => trivial

theorem delegate_leaves (k : Nat) (f : Value) (args : List Value) (s : State) (hs : I s.store) :
    ((evaluator host n).callDelegate k f args s).Leaves fun t => I t.store := by
  induction k generalizing f args s with
  | zero => exact h.dispatch_leaves he hs fun _ => trivial
  | succ k ih =>
    refine h.dispatch_leaves he hs fun id => ?_
    exact routine_leaves ih (h.host _ (.delegate id args) s.store hs) _

/-! ### Actions, plans and nodes -/

theorem action_advances {a : Action} {s : State} (hl : L s.limit) (hs : I s.store) :
    (a.run (evaluator host n) s).Leaves (s.Onward I) := by
  cases a with
  | eval node => exact he node s hl hs
  | sequence body => exact Evaluator.sequence_advances he hl hs
  | loop body b c => exact Evaluator.loop_advances he hl hs
  | use c =>
    refine Evaluator.onHost_detached.onward ?_
    exact routine_leaves (h.delegate_leaves he n) (h.routine c s.store hs) _
  | invoke f args => exact Evaluator.invoke_detached.onward (h.delegate_leaves he n f args s hs)
  | convert f v =>
    change ((evaluator host n).callLambda f s.env.capture s.limit [v] s).Leaves _
    exact Evaluator.callLambda_detached.onward (Evaluator.call_leaves he hl hs)
  | assign p v =>
    change (Eval.bind (Evaluator.assign p v) _ s).Leaves _
    unfold Eval.bind Evaluator.assign
    cases s.env.assign? p.id v with
    | none => exact .refl hs
    | some env => exact ⟨hs, rfl, Nat.le_refl _⟩
  | element addr position v =>
    exact ⟨h.frame (Store.Edit.setArrayItem s.store addr position v).edited rfl hs, rfl,
      Nat.le_refl _⟩
  | newArray elem items =>
    exact ⟨h.frame (Store.Edit.newArray s.store elem items).edited rfl hs, rfl, Nat.le_refl _⟩
  | newException c message =>
    exact ⟨h.frame (Store.Edit.newObject s.store c _).edited rfl hs, rfl, Nat.le_refl _⟩
  | closure f => exact ⟨h.closure hl hs, rfl, Nat.le_refl _⟩

theorem plan_advances {p : Plan α} {s : State} (hl : L s.limit) (hs : I s.store) :
    (p.run (evaluator host n) s).Leaves (s.Onward I) := by
  induction p generalizing s with
  | pure a => exact .refl hs
  | signal x => exact .refl hs
  | endless => trivial
  | look next ih => exact ih _ hl hs
  | act a next ih =>
    rw [Plan.run_act]
    refine (h.action_advances he hl hs).andThen fun r t ht => ?_
    cases r with
    | ok v => exact (ih v (ht.limit ▸ hl) ht.inv).mono fun _ => ht.trans
    | error x => exact ht
  | within f p next ihp ih =>
    rw [Plan.run_within]
    refine (ihp (by simpa using hl) (by simpa using hs)).andThen fun r t ht => ?_
    have ht' : s.Onward I (f.leave t) := ((State.Onward.enter hs).trans ht).leave
    cases r with
    | ok v => exact (ih v (ht'.limit ▸ hl) ht'.inv).mono fun _ => ht'.trans
    | error x => exact ht'
  | attempt p next ihp ih =>
    rw [Plan.run_attempt]
    refine (ihp hl hs).andThen fun r t ht => ?_
    have go (c : Caught) : ((next c).run (evaluator host n) t).Leaves (s.Onward I) :=
      (ih c (ht.limit ▸ hl) ht.inv).mono fun _ => ht.trans
    rcases r with (e | x | ⟨l, v⟩) | v
    · exact ht
    · exact go _
    · exact go _
    · exact go _
  | final p node next ihp ih =>
    rw [Plan.run_final]
    refine (ihp hl hs).andThen fun r t ht => ?_
    refine (he node t (ht.limit ▸ hl) ht.inv).andThen fun r' u hu => ?_
    have hu := ht.trans hu
    cases r' with
    | error x => cases r <;> exact hu
    | ok w => cases r with
      | ok v => exact (ih v (hu.limit ▸ hl) hu.inv).mono fun _ => hu.trans
      | error x => exact hu

omit he in
/-- The evaluation of a node counts a step, keeps the limit and keeps the invariant. -/
theorem eval_leaves (n : Nat) (node : Node) (s : State) (hl : L s.limit) (hs : I s.store) :
    (eval host n node s).Leaves fun t => s.Onward I t ∧ s.steps < t.steps := by
  induction n generalizing node s with
  | zero => trivial
  | succ n ih =>
    have hgo (t : State) (ht : s.ticked.Onward I t) : s.Onward I t ∧ s.steps < t.steps :=
      ⟨⟨ht.inv, ht.limit, Nat.le_of_succ_le ht.steps⟩, ht.steps⟩
    rw [eval_succ]
    cases s.spent? with
    | some limit => exact hgo _ (.refl hs)
    | none =>
      refine (h.plan_advances (s := s.ticked) ?_ hl hs).mono hgo
      exact fun node s hl hs => (ih node s hl hs).mono fun _ ht => ht.1

omit he in
theorem advances (n : Nat) : (evaluator host n).Advances I L :=
  fun node s hl hs => (h.eval_leaves n node s hl hs).mono fun _ ht => ht.1

end StoreInvariant

end ExprTree
