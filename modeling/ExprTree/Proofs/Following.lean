import ExprTree.Proofs.Detached
import ExprTree.Proofs.Relimit

/-! Two runs of the same node, the second at a greater depth or with looser limits. As long as the
first one has an outcome and no limit that was loosened ends it, the second does the same. -/
namespace ExprTree

variable {Λ : Loosening} {α β : Type}

namespace Loosening

/-- No limit that may differ has run out: of this interpreter or of any that it called. -/
def Clear (Λ : Loosening) (tr : Trace) : Prop := ∀ e ∈ tr, ∀ n, Λ.tight n → e.core ≠ .trip n

variable {tr tr' : Trace} {e : Event}

theorem clear_append : Λ.Clear (tr ++ tr') ↔ Λ.Clear tr ∧ Λ.Clear tr' := List.forall_mem_append

theorem clear_cons : Λ.Clear (e :: tr) ↔ (∀ n, Λ.tight n → e.core ≠ .trip n) ∧ Λ.Clear tr :=
  List.forall_mem_cons

theorem clear_inner : Λ.Clear (tr.map .inner) ↔ Λ.Clear tr := List.forall_mem_map

end Loosening

theorem State.Near.withStore {s t : State} {u v : Store} (h : s.Near Λ t) (hu : u.Like Λ v) :
    State.Like Λ { s with store := u } { t with store := v } :=
  ⟨⟨h.env, h.handling, h.steps, h.limit⟩, hu⟩

namespace State.Like

variable {s t : State} {f : Frame}

theorem view (h : s.Like Λ t) : t.view = s.view := by
  simp [State.view, h.env, h.handling, h.store.bare]

theorem withEnv (h : s.Like Λ t) {env env' : Environment} (he : env' = env) :
    Like Λ { s with env } { t with env := env' } :=
  ⟨⟨he, h.handling, h.steps, h.limit⟩, h.store⟩

theorem withHandling (h : s.Like Λ t) {handling handling' : List Value}
    (hh : handling' = handling) : Like Λ { s with handling } { t with handling := handling' } :=
  ⟨⟨h.env, hh, h.steps, h.limit⟩, h.store⟩

theorem enter (h : s.Like Λ t) : (f.enter s).Like Λ (f.enter t) := by
  cases f with
  | bindings bs => exact h.withEnv (by rw [h.env])
  | handling x => exact h.withHandling (by rw [h.handling])

theorem leave (h : s.Like Λ t) : (f.leave s).Like Λ (f.leave t) := by
  cases f with
  | bindings bs => exact h.withEnv (by rw [h.env])
  | handling x => exact h.withHandling (by rw [h.handling])

theorem ticked (h : s.Like Λ t) : s.ticked.Like Λ t.ticked :=
  ⟨⟨h.env, h.handling, congrArg (· + 1) h.steps, h.limit⟩, h.store⟩

theorem entered (h : s.Like Λ t) {f : Lambda} {args : List Value} :
    (s.entered f args).Like Λ (t.entered f args) :=
  enter ⟨⟨h.env, rfl, rfl, h.limit⟩, h.store⟩

theorem popped (h : s.Like Λ t) : Like Λ { s with env := s.env.pop } { t with env := t.env.pop } :=
  h.withEnv (by rw [h.env])

theorem isolated (h : s.store.Like Λ t.store) {captures : Slots} {l l' : Option Nat}
    (hl : Λ.rel l l') : (s.isolated captures l).Like Λ (t.isolated captures l') :=
  ⟨⟨rfl, rfl, rfl, hl⟩, h⟩

/-- A limit decides the next step of one alone only if it is tight. -/
theorem spent? (h : s.Like Λ t) : (∃ n, Λ.tight n ∧ s.spent? = some n) ∨ t.spent? = s.spent? := by
  unfold State.spent?
  rw [h.steps]
  rcases Λ.looser h.limit with hl | ⟨n, hn, hl, hm⟩
  · exact Or.inr (by rw [hl])
  · by_cases hs : n < s.steps + 1
    · exact Or.inl ⟨n, hn, by simp [hl, hs]⟩
    · refine Or.inr ?_
      cases ht : t.limit with
      | none => simp [hl, hs]
      | some m =>
        have hm : ¬m < s.steps + 1 := fun h => hs (Nat.lt_of_le_of_lt (hm m ht) h)
        simp [hl, hs, hm]

end State.Like

/-- If the first run has an outcome that no tight limit decides, the second has the same one and did
the same. -/
def Follows (Λ : Loosening) (o o' : Outcome α) (tr tr' : Trace) : Prop :=
  o ≠ .endless → Λ.Clear tr → o.Like Λ o' ∧ tr' = tr

namespace Follows

variable {o o' : Outcome α} {tr tr' : Trace} {s t : State} {e : Event} {a : α}

theorem done (h : s.Like Λ t) : Follows Λ (.value a s) (.value a t) tr tr :=
  fun _ _ => ⟨.value a h, rfl⟩

theorem failed {x : Signal} (h : s.Like Λ t) :
    Follows Λ (.signal x s : Outcome α) (.signal x t) tr tr :=
  fun _ _ => ⟨.signal x h, rfl⟩

theorem cut : Follows Λ (.endless : Outcome α) o' tr tr' := fun h => absurd rfl h

theorem cons (h : Follows Λ o o' tr tr') : Follows Λ o o' (e :: tr) (e :: tr') := by
  intro ho hc
  obtain ⟨hl, rfl⟩ := h ho (Loosening.clear_cons.mp hc).2
  exact ⟨hl, rfl⟩

theorem inner (h : Follows Λ o o' tr tr') : Follows Λ o o' (tr.map .inner) (tr'.map .inner) := by
  intro ho hc
  obtain ⟨hl, rfl⟩ := h ho (Loosening.clear_inner.mp hc)
  exact ⟨hl, rfl⟩

theorem andThen {g g' : Except Signal α → State → Outcome β}
    {k k' : Except Signal α → State → Trace} (h : Follows Λ o o' tr tr')
    (hg : ∀ r s t, s.Like Λ t → Follows Λ (g r s) (g' r t) (k r s) (k' r t)) :
    Follows Λ (o.andThen g) (o'.andThen g') (tr ++ o.after k) (tr' ++ o'.after k') := by
  intro ho hc
  obtain ⟨hc, hk⟩ := Loosening.clear_append.mp hc
  have hne : o ≠ .endless := by
    rintro rfl
    exact ho rfl
  obtain ⟨hl, rfl⟩ := h hne hc
  cases hl with
  | value a hs =>
    obtain ⟨hl, hkk⟩ := hg _ _ _ hs ho hk
    exact ⟨hl, congrArg (tr' ++ ·) hkk⟩
  | signal x hs =>
    obtain ⟨hl, hkk⟩ := hg _ _ _ hs ho hk
    exact ⟨hl, congrArg (tr' ++ ·) hkk⟩

theorem change {g : Store → α × Store} (h : s.Like Λ t) (hg : Store.Oblivious g) :
    Follows Λ (Eval.withStore g s) (Eval.withStore g t) tr tr := by
  obtain ⟨hv, hs⟩ := h.store.change hg
  change Follows Λ (.value (g s.store).1 _) (.value (g t.store).1 _) _ _
  rw [hv]
  exact done (h.withStore hs)

theorem fault {e : Fault} (h : s.Like Λ t) :
    Follows Λ ((Eval.fault e : Eval α) s) (Eval.fault e t) tr tr := by
  cases e with
  | fatal e => exact failed h
  | raise c message =>
    obtain ⟨hv, hs⟩ := h.store.change (g := fun s => s.newException c message) fun _ _ => rfl
    change Follows Λ (.signal (.thrown (s.store.newException c message).1) _)
      (.signal (.thrown (t.store.newException c message).1) _) _ _
    rw [hv]
    exact failed (h.withStore hs)
  | endless => exact cut

/-- What is not recorded does not matter. -/
theorem map {g g' : Except Signal α → State → Outcome β} (h : Follows Λ o o' tr tr')
    (hg : ∀ r s t, s.Like Λ t → (g r s).Like Λ (g' r t)) :
    Follows Λ (o.andThen g) (o'.andThen g') tr tr' := by
  intro ho hc
  have hne : o ≠ .endless := by
    rintro rfl
    exact ho rfl
  obtain ⟨hl, rfl⟩ := h hne hc
  refine ⟨?_, rfl⟩
  cases hl with
  | value a hs => exact hg _ _ _ hs
  | signal x hs => exact hg _ _ _ hs

/-- The callers are alike, and what they called. -/
theorem onto {u v : State} (h : Follows Λ o o' tr tr') (hs : u.Like Λ v) :
    Follows Λ (o.onto u) (o'.onto v) tr tr' := by
  intro ho hc
  have hne : o ≠ .endless := by
    rintro rfl
    exact ho rfl
  obtain ⟨hl, rfl⟩ := h hne hc
  refine ⟨?_, rfl⟩
  cases hl with
  | value a ht => exact .value a (hs.withStore ht.store)
  | signal x ht => exact .signal x (hs.withStore ht.store)

end Follows

namespace Recorder

variable {R R' : Recorder Event}

/-- The second recorder may go deeper, and follows the first on every node. -/
structure Leads (Λ : Loosening) (R R' : Recorder Event) : Prop where
  host : R'.host = R.host
  blind : R.host.Blind Λ
  depth : R.depth ≤ R'.depth
  eval (n : Node) (s t : State) (h : s.Like Λ t) :
    Follows Λ (R.eval n s) (R'.eval n t) (R.trace n s) (R'.trace n t)

variable (hR : R.Leads Λ R')

include hR

theorem sequence_follows {all es : List Node} {k k' : Nat} {last : Value} {s t : State}
    (hk : k ≤ k') (hs : s.Like Λ t) :
    Follows Λ (R.runSequence all k es last s) (R'.runSequence all k' es last t)
      (R.sequence all k es s) (R'.sequence all k' es t) := by
  induction k generalizing k' es last s t with
  | zero =>
    cases es with
    | nil =>
      cases k' <;> exact .done hs
    | cons e es => exact .cut
  | succ k ih =>
    obtain ⟨k', rfl⟩ := Nat.exists_eq_add_of_le' hk
    have hk := Nat.le_add_left k k'
    cases es with
    | nil => exact .done hs
    | cons e es =>
      change Follows Λ _ (R'.runSequence all (k' + k + 1) (e :: es) last t) _
        (R'.sequence all (k' + k + 1) (e :: es) t)
      rw [Evaluator.runSequence_go, Evaluator.runSequence_go]
      refine (hR.eval e s t hs).andThen fun r s t hs => ?_
      rcases r with (e | x | ⟨l, v⟩) | v
      · exact .failed hs
      · exact .failed hs
      · dsimp only [rest?]
        cases Evaluator.afterLabel? l all with
        | none => exact .failed hs
        | some rest => exact ih hk hs
      · exact ih hk hs

theorem loop_follows {body : Node} {b c : Option Label} {k k' : Nat} {s t : State} (hk : k ≤ k')
    (hs : s.Like Λ t) : Follows Λ (R.runLoop body b c k s) (R'.runLoop body b c k' t)
      (R.loop body b c k s) (R'.loop body b c k' t) := by
  induction k generalizing k' s t with
  | zero => exact .cut
  | succ k ih =>
    obtain ⟨k', rfl⟩ := Nat.exists_eq_add_of_le' hk
    have hk := Nat.le_add_left k k'
    change Follows Λ _ (R'.runLoop body b c (k' + k + 1) t) _ (R'.loop body b c (k' + k + 1) t)
    rw [Evaluator.runLoop_go, Evaluator.runLoop_go]
    refine (hR.eval body s t hs).andThen fun r s t hs => ?_
    rcases r with (e | x | ⟨l, v⟩) | v
    · exact .failed hs
    · exact .failed hs
    · dsimp only [again]
      cases b == some l with
      | true => exact .done hs
      | false => cases c == some l with
        | true => exact ih hk hs
        | false => exact .failed hs
    · exact ih hk hs

theorem lambda_follows (f : Lambda) (args : List Value) {s t : State} (hs : s.Like Λ t) :
    Follows Λ (R.runLambda f args s) (R'.runLambda f args t) (R.lambda f args s)
      (R'.lambda f args t) := by
  rw [Evaluator.runLambda_eq, Evaluator.runLambda_eq]
  unfold lambda
  split
  · exact .failed hs
  · refine (hR.eval f.body _ _ hs.entered).map fun r s t hs => ?_
    rcases r with (e | x | ⟨l, v⟩) | v
    · exact .signal _ hs.popped
    · exact .signal _ hs.popped
    · exact .signal _ hs.popped
    · exact .value _ hs.popped

theorem call_follows {f : Lambda} {captures : Slots} {l l' : Option Nat} {args : List Value}
    {s t : State} (hs : s.Like Λ t) (hl : Λ.rel l l') :
    Follows Λ (R.callLambda f captures l args s) (R'.callLambda f captures l' args t)
      ((R.lambda f args (s.isolated captures l)).map .inner)
      ((R'.lambda f args (t.isolated captures l')).map .inner) := by
  unfold Evaluator.callLambda
  rw [Evaluator.isolated_eq, Evaluator.isolated_eq]
  exact ((lambda_follows hR f args (.isolated hs.store hl)).onto hs).inner

/-! ### Host code and delegates -/

omit hR in
theorem routine_follows {call call' : Value → List Value → Eval Value}
    {rec rec' : Value → List Value → State → Trace}
    (hc : ∀ f args s t, s.Like Λ t →
      Follows Λ (call f args s) (call' f args t) (rec f args s) (rec' f args t))
    {r r' : Routine} (hr : r.Pairs (Store.Like Λ) (fun _ => True) r') {s t : State}
    (hs : s.Near Λ t) :
    Follows Λ (Evaluator.runRoutine call r s) (Evaluator.runRoutine call' r' t)
      (routine call rec r s) (routine call' rec' r' t) := by
  induction hr generalizing s t with
  | finish r h _ =>
    cases r with
    | ok v => exact .done (hs.withStore h)
    | error x => exact .failed (hs.withStore h)
  | invoke f args h hk ih =>
    rw [Evaluator.runRoutine_invoke, Evaluator.runRoutine_invoke]
    refine (hc f args _ _ (hs.withStore h)).andThen fun r s t hs => ?_
    exact ih r _ _ (fun _ _ _ _ _ => trivial) hs.store ⟨hs.env, hs.handling, hs.steps, hs.limit⟩

omit hR in
theorem onStore_follows {call call' : Value → List Value → Eval Value}
    {rec rec' : Value → List Value → State → Trace}
    (hc : ∀ f args s t, s.Like Λ t →
      Follows Λ (call f args s) (call' f args t) (rec f args s) (rec' f args t))
    {run : Store → Routine} (hr : Routine.Opaque (Store.Like Λ) (fun _ => True) run) {s t : State}
    (hs : s.Like Λ t) :
    Follows Λ (Evaluator.onStore call run s) (Evaluator.onStore call' run t)
      ((routine call rec (run s.store) { s with store := {} }).map .inner)
      ((routine call' rec' (run t.store) { t with store := {} }).map .inner) := by
  have hn : State.Near Λ { s with store := {} } { t with store := {} } :=
    ⟨hs.env, hs.handling, hs.steps, hs.limit⟩
  exact (routine_follows hc (hr _ _ hs.store) hn).inner

/-- The same delegate is called, if the host code that may stand behind it is followed. -/
theorem dispatch_follows {f : Value} {args : List Value} {k k' : Nat} {s t : State}
    (hs : s.Like Λ t)
    (hh : ∀ id, Follows Λ (R.hostDelegate id args k s) (R'.hostDelegate id args k' t)
      ((R.hostTrace id args k s).map .inner) ((R'.hostTrace id args k' t).map .inner)) :
    Follows Λ (R.callDelegate k f args s) (R'.callDelegate k' f args t)
      (R.delegate k f args s) (R'.delegate k' f args t) := by
  by_cases hf : ∃ sig addr, f = .delegate sig addr
  · obtain ⟨sig, addr, rfl⟩ := hf
    rw [Evaluator.callDelegate_eq, Evaluator.callDelegate_eq, delegate_eq, delegate_eq]
    refine .cons ?_
    split
    · exact .failed hs
    · have hd := hs.store.delegates addr
      generalize s.store.delegates[addr]? = b, t.store.delegates[addr]? = b' at hd ⊢
      cases hd with
      | none => exact .cut
      | some hb => cases hb with
        | closure f captures hl => exact call_follows hR hs hl
        | host id => exact hh id
  · simp only [not_exists] at hf
    obtain ⟨e, -, he⟩ := Evaluator.callDelegate_fault hf
    rw [he, he, delegate_fault hf, delegate_fault hf]
    exact .fault hs

theorem delegate_follows {k k' : Nat} (hk : k ≤ k') (f : Value) (args : List Value) (s t : State)
    (hs : s.Like Λ t) : Follows Λ (R.callDelegate k f args s) (R'.callDelegate k' f args t)
      (R.delegate k f args s) (R'.delegate k' f args t) := by
  induction k generalizing k' f args s t with
  | zero => exact dispatch_follows hR hs fun _ => .cut
  | succ k ih =>
    obtain ⟨k', rfl⟩ := Nat.exists_eq_add_of_le' hk
    refine dispatch_follows hR hs fun id => ?_
    have h := onStore_follows (ih (Nat.le_add_left k k')) (hR.blind _ (.delegate id args)) hs
    simp only [Evaluator.hostDelegate, hostTrace, hR.host]
    exact h

/-! ### Actions, plans and nodes -/

theorem action_follows {a : Action} {s t : State} (hs : s.Like Λ t) :
    Follows Λ (a.run R.toEvaluator s) (a.run R'.toEvaluator t) (a.trace R s) (a.trace R' t) := by
  cases a with
  | eval n => exact hR.eval n s t hs
  | sequence body => exact sequence_follows hR hR.depth hs
  | loop body b c => exact loop_follows hR hR.depth hs
  | use c =>
    refine .cons ?_
    change Follows Λ (Evaluator.onStore R.invoke (c.routine R.host) s)
      (Evaluator.onStore R'.invoke (c.routine R'.host) t) _ _
    rw [hR.host]
    exact onStore_follows (delegate_follows hR hR.depth) (hR.blind.routine c) hs
  | invoke f args => exact delegate_follows hR hR.depth f args s t hs
  | convert f v =>
    refine .cons ?_
    change Follows Λ (R.callLambda f s.env.capture s.limit [v] s)
      (R'.callLambda f t.env.capture t.limit [v] t) _ _
    rw [hs.env]
    exact call_follows hR hs hs.limit
  | assign p v =>
    change Follows Λ (Eval.bind (Evaluator.assign p v) _ s)
      (Eval.bind (Evaluator.assign p v) _ t) _ _
    unfold Eval.bind Evaluator.assign
    rw [hs.env]
    cases s.env.assign? p.id v with
    | none => exact .failed hs
    | some env => exact .done (hs.withEnv rfl)
  | element addr position v =>
    exact .change (g := fun s => (Value.void, s.setArrayItem addr position v)) hs fun _ _ => rfl
  | newArray elem items => exact .change (g := fun s => s.newArray elem items) hs fun _ _ => rfl
  | newException c message =>
    exact .change (g := fun s => s.newException c message) hs fun _ _ => rfl
  | closure f =>
    obtain ⟨hv, hst⟩ := hs.store.newDelegate f.signature
      (DelegateBody.Like.closure f s.env.capture hs.limit)
    have hc : t.env.capture = s.env.capture := by rw [hs.env]
    rw [← hc] at hv hst
    change Follows Λ
      (.value (s.store.newDelegate f.signature (.closure f s.env.capture s.limit)).1 _)
      (.value (t.store.newDelegate f.signature (.closure f t.env.capture t.limit)).1 _) _ _
    rw [← hc, hv]
    exact .done (hs.withStore hst)

theorem plan_follows {p : Plan α} {s t : State} (hs : s.Like Λ t) :
    Follows Λ (p.run R.toEvaluator s) (p.run R'.toEvaluator t) (p.trace R s) (p.trace R' t) := by
  induction p generalizing s t with
  | pure a => exact .done hs
  | signal x => exact .failed hs
  | endless => exact .cut
  | look next ih =>
    rw [Plan.run_look, Plan.run_look, Plan.trace, Plan.trace, hs.view]
    exact ih _ hs
  | act a next ih =>
    rw [Plan.run_act, Plan.run_act, Plan.trace, Plan.trace]
    refine (action_follows hR hs).andThen fun r s t hs => ?_
    cases r with
    | ok v => exact ih v hs
    | error x => exact .failed hs
  | within f p next ihp ih =>
    rw [Plan.run_within, Plan.run_within, Plan.trace, Plan.trace]
    refine (ihp hs.enter).andThen fun r s t hs => ?_
    cases r with
    | ok v => exact ih v hs.leave
    | error x => exact .failed hs.leave
  | attempt p next ihp ih =>
    rw [Plan.run_attempt, Plan.run_attempt, Plan.trace, Plan.trace]
    refine (ihp hs).andThen fun r s t hs => ?_
    rcases r with (e | x | ⟨l, v⟩) | v
    · exact .failed hs
    · exact ih _ hs
    · exact ih _ hs
    · exact ih _ hs
  | final p n next ihp ih =>
    rw [Plan.run_final, Plan.run_final, Plan.trace, Plan.trace]
    refine (ihp hs).andThen fun r s t hs => (hR.eval n s t hs).andThen fun r' s t hs => ?_
    cases r' with
    | error x => cases r <;> exact .failed hs
    | ok w => cases r with
      | ok v => exact ih v hs
      | error x => exact .failed hs

end Recorder

/-- The second run does what the first one does, until a limit is in the way. -/
theorem leads {host : Host} (hb : host.Blind Λ) {n m : Nat} (h : n ≤ m) :
    (recorder host n).Leads Λ (recorder host m) := by
  induction n generalizing m with
  | zero => exact ⟨rfl, hb, h, fun _ _ _ _ => .cut⟩
  | succ n ih =>
    obtain ⟨m, rfl⟩ := Nat.exists_eq_add_of_le' h
    refine ⟨rfl, hb, h, fun node s t hs => ?_⟩
    change Follows Λ (eval host (n + 1) node s) (eval host (m + n + 1) node t)
      (trace host (n + 1) node s) (trace host (m + n + 1) node t)
    rw [eval_succ, eval_succ, trace, trace]
    rcases hs.spent? with ⟨k, hk, hl⟩ | hl
    · intro _ hc
      rw [hl] at hc
      exact absurd rfl (hc (.trip k) (by simp) k hk)
    · rw [hl]
      cases s.spent? with
      | some limit => exact .failed hs.ticked
      | none => exact .cons (Recorder.plan_follows (ih (Nat.le_add_left n m)) hs.ticked)

/-! ### Greater depths -/

theorem DelegateBody.like_exact {b b' : DelegateBody} : b.Like .exact b' ↔ b' = b := by
  constructor
  · rintro (⟨f, captures, hl⟩ | id)
    · cases hl
      rfl
    · rfl
  · rintro rfl
    cases b' with
    | closure f captures l => exact .closure f captures rfl
    | host id => exact .host id

theorem Store.like_exact {s t : Store} : s.Like .exact t ↔ t = s := by
  constructor
  · exact fun h => h.toPaired.eq fun _ _ => DelegateBody.like_exact.mp
  · rintro rfl
    exact ⟨.refl (fun _ => DelegateBody.like_exact.mpr rfl) t, Nat.zero_le _, fun _ _ => rfl⟩

theorem State.Like.eq {s t : State} (h : s.Like .exact t) : t = s := by
  obtain ⟨⟨he, hh, hs, hl⟩, hst⟩ := h
  have hl : s.limit = t.limit := hl
  have hst := Store.like_exact.mp hst
  cases s
  cases t
  simp_all

theorem State.Like.refl (s : State) : s.Like .exact s :=
  ⟨⟨rfl, rfl, rfl, rfl⟩, Store.like_exact.mpr rfl⟩

theorem Host.blind_exact {h : Host} : h.Blind .exact :=
  fun _ _ => Routine.opaque_same fun _ _ => Store.like_exact

theorem Follows.eq {o o' : Outcome α} {tr tr' : Trace} (h : Follows .exact o o' tr tr')
    (ho : o ≠ .endless) : o' = o ∧ tr' = tr := by
  obtain ⟨hl, ht⟩ := h ho fun _ _ _ hn => hn.elim
  refine ⟨?_, ht⟩
  cases hl with
  | value a hs => rw [hs.eq]
  | signal x hs => rw [hs.eq]

/-- An outcome that a call has at some depth it has at every greater one, after the same events. -/
theorem call_depth_mono {host : Host} {n m : Nat} (h : n ≤ m) {f : Lambda} {captures : Slots}
    {limit : Option Nat} {args : List Value} {s : State}
    (ho : (evaluator host n).callLambda f captures limit args s ≠ .endless) :
    (evaluator host m).callLambda f captures limit args s =
      (evaluator host n).callLambda f captures limit args s ∧
    ((recorder host m).lambda f args (s.isolated captures limit)).map Event.inner =
      ((recorder host n).lambda f args (s.isolated captures limit)).map Event.inner :=
  (Recorder.call_follows (leads Host.blind_exact h) (.refl s) rfl).eq ho

end ExprTree
