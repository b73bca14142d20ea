import ExprTree.Host.Scripted
import ExprTree.Proofs.Detached
import ExprTree.Proofs.Trace

/-! An interpreter that finds no step left does nothing more. Its counter stays above the limit
while the evaluation unwinds, so that no finalizer, handler or label takes part. -/
namespace ExprTree

namespace Trace

/-- How many nodes the interpreter itself evaluated. -/
def passes (tr : Trace) : Nat := tr.countP Event.isPass

/-- The interpreter itself always found a step left. -/
def Steady (tr : Trace) : Prop := ∀ e ∈ tr, e.isTrip = false

/-- The interpreter itself counted no step. -/
def Quiet (tr : Trace) : Prop := ∀ e ∈ tr, e.isPass = false ∧ e.isTrip = false

variable {tr tr' : Trace} {e : Event}

@[simp] theorem passes_nil : passes [] = 0 := rfl

@[simp] theorem passes_append : passes (tr ++ tr') = passes tr + passes tr' := List.countP_append

@[simp] theorem passes_cons : passes (e :: tr) = passes tr + if e.isPass then 1 else 0 :=
  List.countP_cons

theorem steady_nil : Steady [] := nofun

theorem steady_append : Steady (tr ++ tr') ↔ Steady tr ∧ Steady tr' := List.forall_mem_append

theorem not_steady_of_trip {limit : Nat} : ¬Steady (tr ++ .trip limit :: tr') :=
  fun h => by simpa [Event.isTrip] using h (.trip limit) (by simp)

theorem Quiet.passes (h : Quiet tr) : passes tr = 0 :=
  List.countP_eq_zero.mpr fun e he => by simp [h e he]

theorem Quiet.steady (h : Quiet tr) : Steady tr := fun e he => (h e he).2

theorem quiet_nil : Quiet [] := nofun

/-- What was called counts steps of its own. -/
theorem quiet_inner : Quiet (tr.map .inner) := by
  simp [Quiet, Event.isPass, Event.isTrip]

theorem quiet_cons (he : e.isPass = false ∧ e.isTrip = false) (h : Quiet tr) : Quiet (e :: tr) :=
  List.forall_mem_cons.mpr ⟨he, h⟩

end Trace

open Trace

variable {α β : Type} {n : Nat} {H H' : Prop} {s t : State} {tr tr' : Trace} {o : Outcome α} {a : α}

/-- The counter of `t` tells the evaluations since `s`, none of which was one too many. -/
structure Going (n : Nat) (s : State) (tr : Trace) (t : State) : Prop where
  limit : t.limit = some n
  steps : t.steps = s.steps + passes tr
  le : t.steps ≤ n
  steady : Steady tr

/-- Out of steps: the outcome is the error of the limit, and nothing else was done. -/
def Halted (n : Nat) (o : Outcome α) (tr : Trace) : Prop :=
  (∃ t, o = .signal (.fatal (.budgetExceeded n)) t ∧ t.limit = some n ∧ n < t.steps) ∧
    ∀ e ∈ tr, e = .trip n

/-- A run from a state with steps left. If it is still without an outcome, it has not run out of
steps; once it has, `H` is known and it is halted. -/
inductive Metered (n : Nat) (H : Prop) (s : State) : Outcome α → Trace → Prop where
  | value {a : α} {t : State} {tr : Trace} (h : Going n s tr t) : Metered n H s (.value a t) tr
  | signal {x : Signal} {t : State} {tr : Trace} (h : Going n s tr t) :
    Metered n H s (.signal x t) tr
  | endless {tr : Trace} (hle : s.steps + passes tr ≤ n) (h : Steady tr) : Metered n H s .endless tr
  | tripped {o : Outcome α} {pre post : Trace} (hH : H) (hn : s.steps + passes pre = n)
      (h : Steady pre) (hp : post ≠ []) (hh : Halted n o post) : Metered n H s o (pre ++ post)

namespace Going

variable {u : State}

/-- Nothing was counted, whatever else was done. -/
theorem of_quiet (hl : s.limit = some n) (hs : s.steps ≤ n) (htl : t.limit = s.limit)
    (hts : t.steps = s.steps) (hq : Quiet tr) : Going n s tr t :=
  ⟨htl.trans hl, by rw [hts, hq.passes, Nat.add_zero], hts ▸ hs, hq.steady⟩

theorem trans (h : Going n s tr t) (h' : Going n t tr' u) : Going n s (tr ++ tr') u where
  limit := h'.limit
  steps := by rw [h'.steps, h.steps, passes_append, Nat.add_assoc]
  le := h'.le
  steady := steady_append.mpr ⟨h.steady, h'.steady⟩

end Going

namespace Metered

theorem mono (h : Metered n H s o tr) (hH : H → H') : Metered n H' s o tr := by
  cases h with
  | value h => exact .value h
  | signal h => exact .signal h
  | endless hle h => exact .endless hle h
  | tripped hH' hn h hp hh => exact .tripped (hH hH') hn h hp hh

/-- Of the first state only the counter matters. -/
theorem from_steps (h : Metered n H s o tr) (hs : s.steps = t.steps) : Metered n H t o tr := by
  cases h with
  | value h => exact .value ⟨h.limit, hs ▸ h.steps, h.le, h.steady⟩
  | signal h => exact .signal ⟨h.limit, hs ▸ h.steps, h.le, h.steady⟩
  | endless hle h => exact .endless (hs ▸ hle) h
  | tripped hH hn h hp hh => exact .tripped hH (hs ▸ hn) h hp hh

/-- What was done before belongs to the run. -/
theorem after (h : Going n s tr t) (h' : Metered n H t o tr') : Metered n H s o (tr ++ tr') := by
  cases h' with
  | value h' => exact .value (h.trans h')
  | signal h' => exact .signal (h.trans h')
  | endless hle h' =>
    refine .endless ?_ (steady_append.mpr ⟨h.steady, h'⟩)
    rw [passes_append, ← Nat.add_assoc, ← h.steps]
    exact hle
  | @tripped _ pre post hH hn h' hp hh =>
    rw [← List.append_assoc]
    refine .tripped hH ?_ (steady_append.mpr ⟨h.steady, h'⟩) hp hh
    rw [passes_append, ← Nat.add_assoc, ← h.steps]
    exact hn

/-- A run that goes on from another one, if it halts where that one did. -/
theorem andThen {g : Except Signal α → State → Outcome β} {k : Except Signal α → State → Trace}
    (h : Metered n H s o tr)
    (hg : ∀ r t, t.limit = some n → t.steps ≤ n → Metered n H t (g r t) (k r t))
    (hf : ∀ t, H → t.limit = some n → n < t.steps →
      Halted n (g (.error (.fatal (.budgetExceeded n))) t)
        (k (.error (.fatal (.budgetExceeded n))) t)) :
    Metered n H s (o.andThen g) (tr ++ o.after k) := by
  cases h with
  | value h => exact (hg _ _ h.limit h.le).after h
  | signal h => exact (hg _ _ h.limit h.le).after h
  | endless hle h =>
    exact .endless (by simpa [Outcome.after] using hle) (by simpa [Outcome.after] using h)
  | @tripped _ pre post hH hn h hp hh =>
    obtain ⟨⟨t, rfl, hl, hs⟩, ht⟩ := hh
    have hk := hf t hH hl hs
    rw [List.append_assoc]
    refine .tripped hH hn h (by simp [hp]) ⟨hk.1, ?_⟩
    simp only [List.forall_mem_append]
    exact ⟨ht, hk.2⟩

theorem done (hl : s.limit = some n) (hs : s.steps ≤ n) (htl : t.limit = s.limit)
    (hts : t.steps = s.steps) (hq : Quiet tr) : Metered n H s (.value a t) tr :=
  .value (.of_quiet hl hs htl hts hq)

theorem failed {x : Signal} (hl : s.limit = some n) (hs : s.steps ≤ n) (htl : t.limit = s.limit)
    (hts : t.steps = s.steps) (hq : Quiet tr) : Metered n H s (.signal x t : Outcome α) tr :=
  .signal (.of_quiet hl hs htl hts hq)

theorem cut (hs : s.steps ≤ n) (hq : Quiet tr) : Metered n H s (.endless : Outcome α) tr :=
  .endless (by rwa [hq.passes]) hq.steady

/-- A detached run counts no step, and what it calls counts its own. -/
theorem detached {m : Eval α} (hm : m.Detached) (hl : s.limit = some n) (hs : s.steps ≤ n)
    (hq : Quiet tr) : Metered n H s (m s) tr := by
  cases h : m s with
  | value a t =>
    obtain ⟨store, rfl⟩ := hm.value h
    exact .done hl hs rfl rfl hq
  | signal x t =>
    obtain ⟨store, rfl⟩ := hm.signal h
    exact .failed hl hs rfl rfl hq
  | endless => exact .cut hs hq

end Metered

theorem halted_fatal (hl : t.limit = some n) (hs : n < t.steps) :
    Halted n (.signal (.fatal (.budgetExceeded n)) t : Outcome α) [] :=
  ⟨⟨t, rfl, hl, hs⟩, nofun⟩

namespace Recorder

variable {R : Recorder Event}

/-- With no step left, no node is evaluated. -/
def Halts (R : Recorder Event) (n : Nat) : Prop :=
  ∀ node t, t.limit = some n → n < t.steps → Halted n (R.eval node t) (R.trace node t)

/-- From states with steps left, every node is evaluated under the meter. -/
def Meters (R : Recorder Event) (n : Nat) : Prop :=
  ∀ node s, s.limit = some n → s.steps ≤ n →
    Metered n (R.Halts n) s (R.eval node s) (R.trace node s)

variable (hR : R.Meters n)

include hR

theorem sequence_metered {all es : List Node} {k : Nat} {last : Value} {s : State}
    (hl : s.limit = some n) (hs : s.steps ≤ n) :
    Metered n (R.Halts n) s (R.runSequence all k es last s) (R.sequence all k es s) := by
  induction k generalizing es last s with
  | zero =>
    cases es with
    | nil => exact .done hl hs rfl rfl quiet_nil
    | cons e es => exact .cut hs quiet_nil
  | succ k ih =>
    cases es with
    | nil => exact .done hl hs rfl rfl quiet_nil
    | cons e es =>
      rw [Evaluator.runSequence_go]
      refine (hR e s hl hs).andThen (fun r t hl hs => ?_) fun t _ => halted_fatal
      rcases r with (e | x | ⟨l, v⟩) | v
      · exact .failed hl hs rfl rfl quiet_nil
      · exact .failed hl hs rfl rfl quiet_nil
      · dsimp only [rest?]
        cases Evaluator.afterLabel? l all with
        | none => exact .failed hl hs rfl rfl quiet_nil
        | some rest => exact ih hl hs
      · exact ih hl hs

theorem loop_metered {body : Node} {b c : Option Label} {k : Nat} {s : State}
    (hl : s.limit = some n) (hs : s.steps ≤ n) :
    Metered n (R.Halts n) s (R.runLoop body b c k s) (R.loop body b c k s) := by
  induction k generalizing s with
  | zero => exact .cut hs quiet_nil
  | succ k ih =>
    rw [Evaluator.runLoop_go]
    refine (hR body s hl hs).andThen (fun r t hl hs => ?_) fun t _ => halted_fatal
    rcases r with (e | x | ⟨l, v⟩) | v
    · exact .failed hl hs rfl rfl quiet_nil
    · exact .failed hl hs rfl rfl quiet_nil
    · dsimp only [again]
      cases b == some l with
      | true => exact .done hl hs rfl rfl quiet_nil
      | false => cases c == some l with
        | true => exact ih hl hs
        | false => exact .failed hl hs rfl rfl quiet_nil
    · exact ih hl hs

omit hR in
theorem delegate_quiet {k : Nat} {f : Value} {args : List Value} {s : State} :
    Quiet (R.delegate k f args s) := by
  by_cases hf : ∃ sig addr, f = .delegate sig addr
  · obtain ⟨sig, addr, rfl⟩ := hf
    rw [delegate_eq]
    refine quiet_cons ⟨rfl, rfl⟩ ?_
    split
    · exact quiet_nil
    · split
      · exact quiet_inner
      · exact quiet_inner
      · exact quiet_cons ⟨rfl, rfl⟩ quiet_nil
  · simp only [not_exists] at hf
    rw [delegate_fault hf]
    exact quiet_cons ⟨rfl, rfl⟩ quiet_nil

theorem action_metered {a : Action} {s : State} (hl : s.limit = some n) (hs : s.steps ≤ n) :
    Metered n (R.Halts n) s (a.run R.toEvaluator s) (a.trace R s) := by
  cases a with
  | eval node => exact hR node s hl hs
  | sequence body => exact sequence_metered hR hl hs
  | loop body b c => exact loop_metered hR hl hs
  | use c => exact .detached Evaluator.onHost_detached hl hs (quiet_cons ⟨rfl, rfl⟩ quiet_inner)
  | invoke f args => exact .detached Evaluator.invoke_detached hl hs delegate_quiet
  | convert f v =>
    change Metered n _ s (R.callLambda f s.env.capture s.limit [v] s) _
    exact .detached Evaluator.callLambda_detached hl hs (quiet_cons ⟨rfl, rfl⟩ quiet_inner)
  | assign p v =>
    have hq : Quiet [.assign p v] := quiet_cons ⟨rfl, rfl⟩ quiet_nil
    change Metered n _ s (Eval.bind (Evaluator.assign p v) _ s) _
    unfold Eval.bind Evaluator.assign
    cases s.env.assign? p.id v with
    | none => exact .failed hl hs rfl rfl hq
    | some env => exact .done hl hs rfl rfl hq
  | element addr position v => exact .done hl hs rfl rfl (quiet_cons ⟨rfl, rfl⟩ quiet_nil)
  | newArray elem items => exact .done hl hs rfl rfl quiet_nil
  | newException c message => exact .done hl hs rfl rfl quiet_nil
  | closure f => exact .done hl hs rfl rfl quiet_nil

/-- A frame has no counter of its own. -/
theorem plan_metered {p : Plan α} {s : State} (hl : s.limit = some n) (hs : s.steps ≤ n) :
    Metered n (R.Halts n) s (p.run R.toEvaluator s) (p.trace R s) := by
  induction p generalizing s with
  | pure a => exact .done hl hs rfl rfl quiet_nil
  | signal x => exact .failed hl hs rfl rfl quiet_nil
  | endless => exact .cut hs (quiet_cons ⟨rfl, rfl⟩ quiet_nil)
  | look next ih => exact ih _ hl hs
  | act a next ih =>
    rw [Plan.run_act, Plan.trace]
    refine (action_metered hR hl hs).andThen (fun r t hl hs => ?_) fun t _ => halted_fatal
    cases r with
    | ok v => exact ih v hl hs
    | error x => exact .failed hl hs rfl rfl quiet_nil
  | within f p next ihp ih =>
    rw [Plan.run_within, Plan.trace]
    refine ((ihp (by simpa using hl) (by simpa using hs)).from_steps (by simp)).andThen
      (fun r t hl hs => ?_) fun t _ hl hs => halted_fatal (by simpa using hl) (by simpa using hs)
    cases r with
    | ok v => exact (ih v (by simpa using hl) (by simpa using hs)).from_steps (by simp)
    | error x => exact .failed hl hs (by simp) (by simp) quiet_nil
  | attempt p next ihp ih =>
    rw [Plan.run_attempt, Plan.trace]
    refine (ihp hl hs).andThen (fun r t hl hs => ?_) fun t _ => halted_fatal
    rcases r with (e | x | ⟨l, v⟩) | v
    · exact .failed hl hs rfl rfl quiet_nil
    · exact ih _ hl hs
    · exact ih _ hl hs
    · exact ih _ hl hs
  | final p node next ihp ih =>
    rw [Plan.run_final, Plan.trace]
    refine (ihp hl hs).andThen (fun r t hl hs => ?_) fun t hH hl hs => ?_
    · refine (hR node t hl hs).andThen (fun r' u hl hs => ?_) fun u _ hl hs => ?_
      · cases r' with
        | ok w => cases r with
          | ok v => exact ih v hl hs
          | error x => exact .failed hl hs rfl rfl quiet_nil
        | error x => cases r <;> exact .failed hl hs rfl rfl quiet_nil
      · cases r <;> exact halted_fatal hl hs
    · obtain ⟨⟨u, hu, hlu, hsu⟩, ht⟩ := hH node t hl hs
      simp only [hu, Outcome.andThen, Outcome.after, onValue, List.append_nil]
      exact ⟨⟨u, rfl, hlu, hsu⟩, ht⟩

end Recorder

/-! ### Nodes and lambdas -/

variable {host : Host} {depth : Nat}

theorem State.spent?_some {s : State} {n : Nat} (hl : s.limit = some n) (hs : n < s.steps + 1) :
    s.spent? = some n := by
  simp [spent?, hl, hs]

theorem State.spent?_none {s : State} {n : Nat} (hl : s.limit = some n) (hs : ¬n < s.steps + 1) :
    s.spent? = none := by
  simp [spent?, hl, hs]

theorem halts (host : Host) (n depth : Nat) : (recorder host (depth + 1)).Halts n := by
  intro node t hl hs
  have hspent := State.spent?_some hl (Nat.lt_succ_of_lt hs)
  refine ⟨⟨t.ticked, ?_, hl, Nat.lt_succ_of_lt hs⟩, ?_⟩
  · change eval host (depth + 1) node t = _
    rw [eval_succ, hspent]
  · change ∀ e ∈ trace host (depth + 1) node t, _
    simp [trace, hspent]

/-- Each node costs one step, and the first one too many is not evaluated. -/
theorem meters (host : Host) (n depth : Nat) : (recorder host depth).Meters n := by
  induction depth with
  | zero => exact fun node s _ hs => .cut hs quiet_nil
  | succ depth ih =>
    intro node s hl hs
    change Metered n _ s (eval host (depth + 1) node s) (trace host (depth + 1) node s)
    rw [eval_succ, trace]
    by_cases hn : n < s.steps + 1
    · rw [State.spent?_some hl hn]
      refine @Metered.tripped Value n _ s _ [] [.trip n] (halts host n depth)
        (by simp; omega) steady_nil
        (List.cons_ne_nil _ _) ?_
      exact ⟨⟨s.ticked, rfl, hl, hn⟩, by simp⟩
    · rw [State.spent?_none hl hn]
      have hgo : Going n s [.node node] s.ticked :=
        ⟨hl, rfl, by simp [State.ticked]; omega, by simp [Steady, Event.isTrip]⟩
      refine Metered.after hgo ?_
      exact (Recorder.plan_metered ih hgo.limit hgo.le).mono fun _ => halts host n depth

theorem passes_of_trips (h : ∀ e ∈ tr, e = .trip n) : passes tr = 0 :=
  List.countP_eq_zero.mpr fun e he => by simp [h e he, Event.isPass]

theorem Metered.passes_le (h : Metered n H s o tr) : s.steps + passes tr ≤ n := by
  cases h with
  | value h => exact h.steps ▸ h.le
  | signal h => exact h.steps ▸ h.le
  | endless hle h => exact hle
  | tripped hH hn h hp hh =>
    rw [passes_append, passes_of_trips hh.2]
    omega

/-- Whoever finds no step left had used them all, and has done nothing since. -/
theorem Metered.of_trip {pre post : Trace} {limit : Nat}
    (h : Metered n H s o (pre ++ .trip limit :: post)) :
    limit = n ∧ s.steps + passes pre = n ∧ Halted n o post := by
  generalize htr : pre ++ .trip limit :: post = tr at h
  cases h with
  | value h => exact absurd (htr ▸ h.steady) not_steady_of_trip
  | signal h => exact absurd (htr ▸ h.steady) not_steady_of_trip
  | endless hle h => exact absurd (htr ▸ h) not_steady_of_trip
  | @tripped _ before trips hH hn h hp hh =>
    obtain ⟨ho, ht⟩ := hh
    rcases List.append_eq_append_iff.mp htr with ⟨mid, rfl, hmid⟩ | ⟨mid, rfl, hmid⟩
    · -- the steady part goes up to the first trip
      cases mid with
      | nil =>
        obtain rfl : trips = .trip limit :: post := by simpa using hmid.symm
        obtain ⟨hl, hpost⟩ := List.forall_mem_cons.mp ht
        cases hl
        exact ⟨rfl, by simpa using hn, ho, hpost⟩
      | cons e mid =>
        obtain ⟨rfl, -⟩ := List.cons.inj hmid
        exact absurd h not_steady_of_trip
    · subst hmid
      simp only [List.forall_mem_append, List.forall_mem_cons] at ht
      obtain ⟨hmid, hl, hpost⟩ := ht
      cases hl
      exact ⟨rfl, by simpa [passes_of_trips hmid] using hn, ho, hpost⟩

/-- In a run under the limit `n`, at most `n` nodes are evaluated by the interpreter itself. Once a
step was one too many, all that is left in the trace are further steps that are not allowed: no
node, no handle, no delegate and no assignment. And the run ends in the error of the limit. -/
theorem budget_trip_final (host : Host) (depth n : Nat) (f : Lambda) (args : List Value) (s : State)
    (hs : s.limit = some n) :
    passes ((recorder host depth).lambda f args s) ≤ n ∧
    ∀ pre limit post, (recorder host depth).lambda f args s = pre ++ .trip limit :: post →
      limit = n ∧ passes pre = n ∧ (∀ e ∈ post, e = .trip n) ∧
      ∃ t, ((evaluator host depth).runLambda f args).run s =
        some (.error (.fatal (.budgetExceeded n)), t) := by
  have hm := meters host n depth f.body (s.entered f args) (by simp [State.entered, hs])
    (by simp [State.entered])
  by_cases ha : f.params.length = args.length
  · have htr : (recorder host depth).lambda f args s =
        (recorder host depth).trace f.body (s.entered f args) := by
      simp [Recorder.lambda, ha]
    rw [htr]
    have h0 : (s.entered f args).steps = 0 := by simp [State.entered]
    refine ⟨by simpa [h0] using hm.passes_le, fun pre limit post h => ?_⟩
    rw [h] at hm
    obtain ⟨hl, hp, ⟨t, ho, -, -⟩, ht⟩ := hm.of_trip
    refine ⟨hl, by simpa [h0] using hp, ht, { t with env := t.env.pop }, ?_⟩
    change (evaluator host depth).eval f.body (s.entered f args) = _ at ho
    simp [Eval.run, Evaluator.runLambda_eq, ha, ho, Outcome.andThen]
  · have htr : (recorder host depth).lambda f args s = [] := by simp [Recorder.lambda, ha]
    simp [htr]

/-- The finalizer would leave the outer loop, but finds no step left either. -/
theorem finalizer_after_trip :
    let l : Label := ⟨0, none, .void⟩
    let endless : Node := .loop 2 (.default 3 .void) none none
    let guarded : Node := .guarded 1 endless [] (some (.goto 4 .goto l none .void)) none
    let f : Lambda := .mk 0 none (.loop 0 guarded (some l) none) [] .void
    let s : State := .start (some 4) {}
    let evaluated : Trace := [.node f.body, .node guarded, .node endless, .node (.default 3 .void)]
    (recorder (Scripts.host {}) 8).lambda f [] s = evaluated ++ .trip 4 :: [.trip 4] ∧
      passes evaluated = 4 ∧
      ∃ t, ((evaluator (Scripts.host {}) 8).runLambda f []).run s =
        some (.error (.fatal (.budgetExceeded 4)), t) := by
  intro l endless guarded f s evaluated
  have htr : (recorder (Scripts.host {}) 8).lambda f [] s = evaluated ++ .trip 4 :: [.trip 4] := rfl
  obtain ⟨-, h⟩ := budget_trip_final (Scripts.host {}) 8 4 f [] s rfl
  obtain ⟨-, hp, -, hrun⟩ := h _ _ _ htr
  exact ⟨htr, hp, hrun⟩

end ExprTree
