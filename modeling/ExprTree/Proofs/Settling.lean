import ExprTree.Proofs.BudgetTrip
import ExprTree.Proofs.Following
import ExprTree.Proofs.StoreInvariant
import Mathlib.Order.Filter.AtTopBot.Basic

/-! Runs under a limit settle: from some depth on, more depth changes neither the outcome nor what
was done. Each interpreter has a bounded number of steps, and interpreters are nested as deep as
calls are. -/
namespace ExprTree

open Filter

variable {α β : Type}

/-- From some depth on, the outcome and the trace are the same. There is no outcome only where the
run hangs. -/
def Settles (o : Nat → Outcome α) (tr : Nat → Trace) : Prop :=
  ∃ p q, (p = .endless → ∃ e ∈ q, e.core = .hang) ∧ ∀ᶠ k in atTop, o k = p ∧ tr k = q

/-- From some depth on, no event is more than so many calls deep. -/
def Shallow (d : Nat) (tr : Nat → Trace) : Prop := ∀ᶠ k in atTop, ∀ e ∈ tr k, e.level < d

namespace Shallow

variable {d : Nat} {tr tr' : Nat → Trace} {e : Nat → Event}

theorem shift (h : Shallow d tr) : Shallow d fun k => tr (k + 1) :=
  (tendsto_add_atTop_nat 1).eventually h

theorem tail (h : Shallow d fun k => e k :: tr k) : Shallow d tr :=
  h.mono fun _ hk x hx => hk x (List.mem_cons_of_mem _ hx)

theorem left (h : Shallow d fun k => tr k ++ tr' k) : Shallow d tr :=
  h.mono fun _ hk x hx => hk x (List.mem_append_left _ hx)

/-- What was called is one call less deep for itself. -/
theorem inner (h : Shallow (d + 1) fun k => (tr k).map .inner) : Shallow d tr :=
  h.mono fun _ hk _ hx => Nat.lt_of_succ_lt_succ (hk _ (List.mem_map_of_mem hx))

/-- A depth that is left is eventually one more than another. -/
theorem unroll (tr : Nat → Nat → Trace) {j : Nat} (h : Shallow d fun k => tr k (k - j)) :
    Shallow d fun k => tr k (k - (j + 1) + 1) := by
  refine (h.and (eventually_ge_atTop (j + 1))).mono fun k hk => ?_
  have hk' : k - (j + 1) + 1 = k - j := by omega
  simpa only [hk'] using hk.1

theorem not_zero (h : Shallow 0 fun k => e k :: tr k) : False := by
  obtain ⟨k, hk⟩ := h.exists
  exact Nat.not_lt_zero _ (hk _ (List.mem_cons_self ..))

end Shallow

namespace Settles

variable {d : Nat} {o o' : Nat → Outcome α} {tr tr' : Nat → Trace} {p : Outcome α} {q : Trace}
  {e : Event} {s : State}

theorem of_eventually (hp : p ≠ .endless) (h : ∀ᶠ k in atTop, o k = p ∧ tr k = q) : Settles o tr :=
  ⟨p, q, fun he => absurd he hp, h⟩

theorem value {a : α} {t : State} : Settles (fun _ => .value a t) fun _ => q :=
  of_eventually (p := .value a t) nofun (.of_forall fun _ => ⟨rfl, rfl⟩)

theorem signal {x : Signal} {t : State} : Settles (fun _ => (.signal x t : Outcome α)) fun _ => q :=
  of_eventually (p := .signal x t) nofun (.of_forall fun _ => ⟨rfl, rfl⟩)

theorem hang (h : .hang ∈ q) : Settles (fun _ => (.endless : Outcome α)) fun _ => q :=
  ⟨.endless, q, fun _ => ⟨.hang, h, rfl⟩, .of_forall fun _ => ⟨rfl, rfl⟩⟩

theorem congr (h : Settles o tr)
    (he : ∀ᶠ k in atTop, o' k = o k ∧ tr' k = tr k) : Settles o' tr' := by
  obtain ⟨p, q, hp, hev⟩ := h
  refine ⟨p, q, hp, (hev.and he).mono fun k hk => ?_⟩
  exact ⟨hk.2.1.trans hk.1.1, hk.2.2.trans hk.1.2⟩

theorem of_shift (h : Settles (fun k => o (k + 1)) fun k => tr (k + 1)) : Settles o tr := by
  obtain ⟨p, q, hp, hev⟩ := h
  obtain ⟨K, hK⟩ := eventually_atTop.mp hev
  refine ⟨p, q, hp, eventually_atTop.mpr ⟨K + 1, fun k hk => ?_⟩⟩
  obtain ⟨k, rfl⟩ := Nat.exists_eq_add_of_le' (Nat.le_of_add_left_le hk)
  exact hK k (Nat.le_of_succ_le_succ hk)

/-- A depth that is left is eventually one more than another. -/
theorem of_unrolled (o : Nat → Nat → Outcome α) (tr : Nat → Nat → Trace) {j : Nat}
    (h : Settles (fun k => o k (k - (j + 1) + 1)) fun k => tr k (k - (j + 1) + 1)) :
    Settles (fun k => o k (k - j)) fun k => tr k (k - j) := by
  refine h.congr ((eventually_ge_atTop (j + 1)).mono fun k hk => ?_)
  have hk' : k - (j + 1) + 1 = k - j := by omega
  simp only [hk', and_self]

theorem fault {e : Fault} (he : e ≠ .endless) :
    Settles (fun _ => (Eval.fault e s : Outcome α)) fun _ => q := by
  cases e with
  | fatal e => exact .signal
  | raise c m => exact .signal
  | endless => exact absurd rfl he

theorem cons (h : Settles o tr) : Settles o fun k => e :: tr k := by
  obtain ⟨p, q, hp, hev⟩ := h
  refine ⟨p, e :: q, fun he => ?_, hev.mono fun k hk => ⟨hk.1, congrArg (e :: ·) hk.2⟩⟩
  obtain ⟨x, hx, hc⟩ := hp he
  exact ⟨x, List.mem_cons_of_mem _ hx, hc⟩

theorem inner (h : Settles o tr) : Settles o fun k => (tr k).map .inner := by
  obtain ⟨p, q, hp, hev⟩ := h
  refine ⟨p, q.map .inner, fun he => ?_, hev.mono fun k hk => ⟨hk.1, congrArg _ hk.2⟩⟩
  obtain ⟨x, hx, hc⟩ := hp he
  exact ⟨.inner x, List.mem_map_of_mem hx, hc⟩

/-- What is made of an outcome without going on. -/
theorem map {g : Outcome α → Outcome β} (h : Settles o tr)
    (hg : ∀ p, g p = .endless → p = .endless) : Settles (fun k => g (o k)) tr := by
  obtain ⟨p, q, hp, hev⟩ := h
  exact ⟨g p, q, fun he => hp (hg p he), hev.mono fun k hk => ⟨congrArg g hk.1, hk.2⟩⟩

/-- The second run starts from the end that the first one settles at. -/
theorem andThen {Q : State → Prop} {g : Nat → Except Signal α → State → Outcome β}
    {c : Nat → Except Signal α → State → Trace} (h : Settles o tr) (hq : ∀ k, (o k).Leaves Q)
    (hs : Shallow d fun k => tr k ++ (o k).after (c k))
    (hg : ∀ r t, Q t → (Shallow d fun k => c k r t) → Settles (fun k => g k r t) fun k => c k r t) :
    Settles (fun k => (o k).andThen (g k)) fun k => tr k ++ (o k).after (c k) := by
  obtain ⟨p, q, hp, hev⟩ := h
  have go (r : Except Signal α) (t : State) (hQ : Q t)
      (hgo : ∀ k, p.andThen (g k) = g k r t) (hco : ∀ k, p.after (c k) = c k r t) :
      Settles (fun k => (o k).andThen (g k)) fun k => tr k ++ (o k).after (c k) := by
    have hc : Shallow d fun k => c k r t := by
      refine (hev.and hs).mono fun k hk e he => hk.2 e (List.mem_append_right _ ?_)
      rw [hk.1.1, hco]
      exact he
    obtain ⟨p', q', hp', hev'⟩ := hg r t hQ hc
    refine ⟨p', q ++ q', fun he => ?_, (hev.and hev').mono fun k hk => ?_⟩
    · obtain ⟨x, hx, hh⟩ := hp' he
      exact ⟨x, List.mem_append_right _ hx, hh⟩
    · dsimp only at hk ⊢
      rw [hk.1.1, hk.1.2, hgo, hco, hk.2.1, hk.2.2]
      exact ⟨rfl, rfl⟩
  obtain ⟨k, hk⟩ := hev.exists
  have hQ := hq k
  rw [hk.1] at hQ
  cases p with
  | value a t => exact go (.ok a) t hQ (fun _ => rfl) fun _ => rfl
  | signal x t => exact go (.error x) t hQ (fun _ => rfl) fun _ => rfl
  | endless =>
    obtain ⟨x, hx, hh⟩ := hp rfl
    refine ⟨.endless, q, fun _ => ⟨x, hx, hh⟩, hev.mono fun k hk => ?_⟩
    dsimp only
    rw [hk.1, hk.2]
    exact ⟨rfl, List.append_nil q⟩

end Settles

/-- Closures have a limit, but for some that come from elsewhere. -/
def Store.Limited (outside : Lambda → Slots → Option Nat → Prop) (s : Store) : Prop :=
  ∀ f captures l, .closure f captures l ∈ s.delegates → l.isSome ∨ outside f captures l

/-- What is assumed of what the host supplies: its code hands on stores whose closures have a limit,
and so do the closures of the store that have none, each call of which ends. -/
structure Supplies (h : Host) (outside : Lambda → Slots → Option Nat → Prop) : Prop where
  code : h.Keeps (Store.Limited outside) fun _ => True
  vouched {f : Lambda} {captures : Slots} {l : Option Nat} (ho : outside f captures l) (n : Nat) :
    (evaluator h n).Vouches (Store.Limited outside) (fun _ => True) f captures l
  ends {f : Lambda} {captures : Slots} {l : Option Nat} (ho : outside f captures l)
    (args : List Value)
    (s : State) (hs : s.store.Limited outside) :
    ∃ n, (evaluator h n).callLambda f captures l args s ≠ .endless

theorem Supplies.invariant {host : Host} {outside : Lambda → Slots → Option Nat → Prop}
    (h : Supplies host outside) :
    StoreInvariant host (Store.Limited outside) fun l => l.isSome = true where
  frame {s t} _ hd hs := by
    unfold Store.Limited
    rw [hd]
    exact hs
  closure {s f captures l} hl hs := by
    intro f' captures' l' hm
    rcases Array.mem_push.mp hm with hm | hm
    · exact hs _ _ _ hm
    · cases hm
      exact Or.inl hl
  stored hs hm := (hs _ _ _ hm).imp id h.vouched
  host := h.code

section

variable (host : Host) (outside : Lambda → Slots → Option Nat → Prop) (d : Nat)

/-- The evaluation of every node from the state settles, if it is less than `d` calls deep. -/
def SettlesFrom (s : State) : Prop :=
  ∀ node, Shallow d (fun k => trace host k node s) →
    Settles (fun k => eval host k node s) fun k => trace host k node s

/-- It does from every state with a limit. -/
def NodesSettle : Prop :=
  ∀ s : State, s.limit.isSome → s.store.Limited outside → SettlesFrom host d s

/-- Calls of delegates do, also when they have less depth left than the evaluator. -/
def CallsSettle : Prop :=
  ∀ j f args, ∀ s : State, s.store.Limited outside →
    Shallow d (fun k => (recorder host k).delegate (k - j) f args s) →
      Settles (fun k => (evaluator host k).callDelegate (k - j) f args s)
        fun k => (recorder host k).delegate (k - j) f args s

end

variable {host : Host} {outside : Lambda → Slots → Option Nat → Prop} {d : Nat} {s : State}

/-! ### Calls -/

theorem lambda_settles (hn : NodesSettle host outside d) {f : Lambda} {args : List Value}
    (hl : s.limit.isSome) (hs : s.store.Limited outside)
    (hd : Shallow d fun k => (recorder host k).lambda f args s) :
    Settles (fun k => (evaluator host k).runLambda f args s)
      fun k => (recorder host k).lambda f args s := by
  simp only [Evaluator.runLambda_eq]
  unfold Recorder.lambda at *
  by_cases ha : f.params.length = args.length
  · simp only [ha, ne_eq, not_true_eq_false, if_false] at hd ⊢
    refine Settles.map (g := fun o => o.andThen _) (hn _ ?_ ?_ f.body hd) fun p hp => ?_
    · simpa [State.entered] using hl
    · simpa [State.entered] using hs
    · cases p with
      | value v t => cases hp
      | signal x t => cases x <;> cases hp
      | endless => rfl
  · simp only [ha, ne_eq, not_false_eq_true, if_true]
    exact .signal

theorem call_settles (hn : NodesSettle host outside d) {f : Lambda} {captures : Slots}
    {l : Option Nat} {args : List Value} (hl : l.isSome) (hs : s.store.Limited outside)
    (hd : Shallow (d + 1) fun k =>
      ((recorder host k).lambda f args (s.isolated captures l)).map .inner) :
    Settles (fun k => (evaluator host k).callLambda f captures l args s)
      fun k => ((recorder host k).lambda f args (s.isolated captures l)).map .inner := by
  unfold Evaluator.callLambda
  simp only [Evaluator.isolated_eq]
  have h := lambda_settles (s := s.isolated captures l) hn hl hs hd.inner
  refine (h.map (g := fun o => o.onto s) fun p hp => ?_).inner
  cases p <;> first | rfl | cases hp

/-- What ends at some depth settles. -/
theorem outside_settles {f : Lambda} {captures : Slots} {l : Option Nat} {args : List Value}
    (h : ∃ n, (evaluator host n).callLambda f captures l args s ≠ .endless) :
    Settles (fun k => (evaluator host k).callLambda f captures l args s)
      fun k => ((recorder host k).lambda f args (s.isolated captures l)).map .inner := by
  obtain ⟨n, hn⟩ := h
  exact .of_eventually hn (eventually_atTop.mpr ⟨n, fun k hk => call_depth_mono hk hn⟩)

theorem routine_settles (hi : Supplies host outside) (hc : CallsSettle host outside d) {j : Nat}
    {r : Routine} (hr : r.Keeps (Store.Limited outside) fun _ => True)
    (hd : Shallow d fun k => Recorder.routine ((evaluator host k).callDelegate (k - j))
      ((recorder host k).delegate (k - j)) r s) :
    Settles (fun k => Evaluator.runRoutine ((evaluator host k).callDelegate (k - j)) r s)
      fun k => Recorder.routine ((evaluator host k).callDelegate (k - j))
        ((recorder host k).delegate (k - j)) r s := by
  induction r generalizing s with
  | finish result store =>
    cases result with
    | ok v => exact .value
    | error x => exact .signal
  | invoke f args store resume ih =>
    simp only [Evaluator.runRoutine_invoke]
    refine (hc j f args { s with store } hr.1 ?_).andThen (Q := fun t => t.store.Limited outside)
      (fun k => ?_) hd fun r t ht hd => ?_
    · exact hd.left
    · exact hi.invariant.delegate_leaves (hi.invariant.advances k) _ f args _ hr.1
    · exact ih r t.store (hr.2 r t.store ht fun _ _ => trivial) hd

theorem hostDelegate_settles (hi : Supplies host outside) (hc : CallsSettle host outside d)
    {j id : Nat} {args : List Value} (hs : s.store.Limited outside)
    (hd : Shallow d fun k => (recorder host k).hostTrace id args (k - j) s) :
    Settles (fun k => (evaluator host k).hostDelegate id args (k - j) s)
      fun k => (recorder host k).hostTrace id args (k - j) s := by
  refine .of_unrolled (fun k m => (evaluator host k).hostDelegate id args m s)
    (fun k m => (recorder host k).hostTrace id args m s) ?_
  have hd := Shallow.unroll (fun k m => (recorder host k).hostTrace id args m s) hd
  exact routine_settles hi hc (hi.code _ (.delegate id args) s.store hs) hd

theorem callsSettle_zero : CallsSettle host outside 0 := by
  intro j f args s _ hd
  by_cases hf : ∃ sig addr, f = .delegate sig addr
  · obtain ⟨sig, addr, rfl⟩ := hf
    simp only [Recorder.delegate_eq] at hd
    exact hd.not_zero.elim
  · simp only [not_exists] at hf
    simp only [Recorder.delegate_fault hf] at hd
    exact hd.not_zero.elim

/-- What is called is one call less deep for itself. -/
theorem callsSettle_succ (hi : Supplies host outside) (hn : NodesSettle host outside d)
    (hc : CallsSettle host outside d) : CallsSettle host outside (d + 1) := by
  intro j f args s hs hd
  by_cases hf : ∃ sig addr, f = .delegate sig addr
  · obtain ⟨sig, addr, rfl⟩ := hf
    simp only [Recorder.delegate_eq, Evaluator.callDelegate_eq] at hd ⊢
    refine Settles.cons ?_
    have hd := hd.tail
    by_cases ha : sig.arity = args.length
    · simp only [ha, ne_eq, not_true_eq_false, if_false] at hd ⊢
      rcases hb : s.store.delegates[addr]? with _ | (⟨f, captures, l⟩ | id)
      · exact .hang (List.mem_singleton_self _)
      · simp only [hb] at hd
        rcases hs f captures l (Array.mem_of_getElem? hb) with hl | ho
        · exact call_settles hn hl hs hd
        · exact outside_settles (hi.ends ho args s hs)
      · simp only [hb] at hd
        exact (hostDelegate_settles hi hc hs hd.inner).inner
    · simp only [ha, ne_eq, not_false_eq_true, if_true]
      exact .signal
  · simp only [not_exists] at hf
    obtain ⟨e, he, hfault⟩ := Evaluator.callDelegate_fault hf
    simp only [hfault, Recorder.delegate_fault hf]
    exact .fault he

/-- Under the limit `n`, evaluations from the state and from all that may come after it settle. -/
structure Ready (host : Host) (outside : Lambda → Slots → Option Nat → Prop) (d n : Nat)
    (s : State) : Prop where
  limit : s.limit = some n
  stored : s.store.Limited outside
  settles (t : State) (ht : s.Onward (Store.Limited outside) t) : SettlesFrom host d t

namespace Ready

variable {n : Nat} {t : State} (h : Ready host outside d n s)

include h

theorem here : SettlesFrom host d s := h.settles s (.refl h.stored)

theorem isSome : s.limit.isSome := by simp [h.limit]

theorem onward (ht : s.Onward (Store.Limited outside) t) : Ready host outside d n t where
  limit := ht.limit.trans h.limit
  stored := ht.inv
  settles u hu := h.settles u (ht.trans hu)

end Ready

/-! ### Repetitions -/

section

variable {n : Nat} (hi : Supplies host outside)

include hi

/-- A turn of a repetition, which goes on to another one only if there was a step left for this
one. -/
theorem turn_settles (h : Ready host outside d n s) {node : Node}
    {g : Nat → Except Signal Value → State → Outcome Value}
    {c : Nat → Except Signal Value → State → Trace}
    (hstop : ∀ k e t, g k (.error (.fatal e)) t = .signal (.fatal e) t ∧
      c k (.error (.fatal e)) t = [])
    (hd : Shallow d fun k => trace host k node s ++ (eval host k node s).after (c k))
    (hg : s.steps < n → ∀ r t, Ready host outside d n t → s.steps < t.steps →
      (Shallow d fun k => c k r t) → Settles (fun k => g k r t) fun k => c k r t) :
    Settles (fun k => (eval host k node s).andThen (g k))
      fun k => trace host k node s ++ (eval host k node s).after (c k) := by
  by_cases hn : n < s.steps + 1
  · have hspent := State.spent?_some h.limit hn
    refine .of_shift ?_
    simp only [eval_succ, trace, hspent, Outcome.andThen, Outcome.after, hstop]
    exact .signal
  · refine (h.here node hd.left).andThen
      (fun k => hi.invariant.eval_leaves k node s h.isSome h.stored) hd fun r t ht => ?_
    exact hg (by omega) r t (h.onward ht.1) ht.2

/-- With each turn a step less is left. -/
theorem sequence_settles {all es : List Node} {last : Value} {j : Nat}
    (h : Ready host outside d n s)
    (hd : Shallow d fun k => (recorder host k).sequence all (k - j) es s) :
    Settles (fun k => (evaluator host k).runSequence all (k - j) es last s)
      fun k => (recorder host k).sequence all (k - j) es s := by
  generalize hm : n - s.steps = m
  induction m using Nat.strong_induction_on generalizing es last j s with
  | _ m ih =>
    refine .of_unrolled (fun k i => (evaluator host k).runSequence all i es last s)
      (fun k i => (recorder host k).sequence all i es s) ?_
    have hd := Shallow.unroll (fun k i => (recorder host k).sequence all i es s) hd
    cases es with
    | nil => exact .value
    | cons e es =>
      simp only [Evaluator.runSequence_go]
      refine turn_settles hi h (fun _ _ _ => ⟨rfl, rfl⟩) hd fun hn r t ht hlt hd => ?_
      have go (rest : List Node) (v : Value)
          (hd : Shallow d fun k => (recorder host k).sequence all (k - (j + 1)) rest t) :
          Settles (fun k => (evaluator host k).runSequence all (k - (j + 1)) rest v t)
            fun k => (recorder host k).sequence all (k - (j + 1)) rest t :=
        ih (n - t.steps) (by omega) ht hd rfl
      rcases r with (e | x | ⟨l, v⟩) | v
      · exact .signal
      · exact .signal
      · dsimp only [Recorder.rest?] at hd ⊢
        cases hr : Evaluator.afterLabel? l all with
        | none => exact .signal
        | some rest =>
          simp only [hr] at hd
          exact go rest v hd
      · exact go es v hd

theorem loop_settles {body : Node} {b c : Option Label} {j : Nat} (h : Ready host outside d n s)
    (hd : Shallow d fun k => (recorder host k).loop body b c (k - j) s) :
    Settles (fun k => (evaluator host k).runLoop body b c (k - j) s)
      fun k => (recorder host k).loop body b c (k - j) s := by
  generalize hm : n - s.steps = m
  induction m using Nat.strong_induction_on generalizing j s with
  | _ m ih =>
    refine .of_unrolled (fun k i => (evaluator host k).runLoop body b c i s)
      (fun k i => (recorder host k).loop body b c i s) ?_
    have hd := Shallow.unroll (fun k i => (recorder host k).loop body b c i s) hd
    simp only [Evaluator.runLoop_go]
    refine turn_settles hi h (fun _ _ _ => ⟨rfl, rfl⟩) hd fun hn r t ht hlt hd => ?_
    have go (hd : Shallow d fun k => (recorder host k).loop body b c (k - (j + 1)) t) :
        Settles (fun k => (evaluator host k).runLoop body b c (k - (j + 1)) t)
          fun k => (recorder host k).loop body b c (k - (j + 1)) t :=
      ih (n - t.steps) (by omega) ht hd rfl
    rcases r with (e | x | ⟨l, v⟩) | v
    · exact .signal
    · exact .signal
    · by_cases hb : b == some l
      · simp only [hb, Recorder.again, Bool.not_true, Bool.false_and, cond_false, if_true]
        exact .value
      · by_cases hc : c == some l
        · simp only [hb, hc, Recorder.again, Bool.not_false, Bool.true_and, cond_true] at hd ⊢
          exact go hd
        · simp only [hb, hc, Recorder.again, Bool.and_false, cond_false]
          exact .signal
    · exact go hd

/-! ### Nodes -/

variable (hn : NodesSettle host outside d) (hc : CallsSettle host outside d)

include hn hc

theorem action_settles {a : Action} (h : Ready host outside (d + 1) n s)
    (hd : Shallow (d + 1) fun k => a.trace (recorder host k) s) :
    Settles (fun k => a.run (evaluator host k) s) fun k => a.trace (recorder host k) s := by
  cases a with
  | eval node => exact h.here node hd
  | sequence body => exact sequence_settles (j := 0) hi h hd
  | loop body b c => exact loop_settles (j := 0) hi h hd
  | use c =>
    exact (routine_settles (j := 0) hi hc (hi.invariant.routine c s.store h.stored)
      hd.tail.inner).inner.cons
  | invoke f args => exact callsSettle_succ hi hn hc 0 f args s h.stored hd
  | convert f v => exact (call_settles hn h.isSome h.stored hd.tail).cons
  | assign p v =>
    change Settles (fun _ => Eval.bind (Evaluator.assign p v) _ s) _
    unfold Eval.bind Evaluator.assign
    cases s.env.assign? p.id v with
    | none => exact .signal
    | some env => exact .value
  | element addr position v => exact .value
  | newArray elem items => exact .value
  | newException c message => exact .value
  | closure f => exact .value

theorem plan_settles {p : Plan α} (h : Ready host outside (d + 1) n s)
    (hd : Shallow (d + 1) fun k => p.trace (recorder host k) s) :
    Settles (fun k => p.run (evaluator host k) s) fun k => p.trace (recorder host k) s := by
  have onward (p : Plan Value) {s : State} (h : Ready host outside (d + 1) n s) (k : Nat) :
      (p.run (evaluator host k) s).Leaves (s.Onward (Store.Limited outside)) :=
    hi.invariant.plan_advances (hi.invariant.advances k) h.isSome h.stored
  induction p generalizing s with
  | pure a => exact .value
  | signal x => exact .signal
  | endless => exact .hang (List.mem_singleton_self _)
  | look next ih => exact ih _ h hd
  | act a next ih =>
    simp only [Plan.run_act]
    refine (action_settles hi hn hc h hd.left).andThen
      (fun k => hi.invariant.action_advances (hi.invariant.advances k) h.isSome h.stored) hd
      fun r t ht hd => ?_
    cases r with
    | ok v => exact ih v (h.onward ht) hd
    | error x => exact .signal
  | within f p next ihp ih =>
    have he : s.Onward (Store.Limited outside) (f.enter s) := .enter h.stored
    simp only [Plan.run_within]
    refine (ihp (h.onward he) hd.left).andThen (onward p (h.onward he)) hd fun r t ht hd => ?_
    cases r with
    | ok v => exact ih v (h.onward (he.trans ht).leave) hd
    | error x => exact .signal
  | attempt p next ihp ih =>
    simp only [Plan.run_attempt]
    refine (ihp h hd.left).andThen (onward p h) hd fun r t ht hd => ?_
    rcases r with (e | x | ⟨l, v⟩) | v
    · exact .signal
    · exact ih _ (h.onward ht) hd
    · exact ih _ (h.onward ht) hd
    · exact ih _ (h.onward ht) hd
  | final p node next ihp ih =>
    simp only [Plan.run_final]
    refine (ihp h hd.left).andThen (onward p h) hd fun r t ht hd => ?_
    have h := h.onward ht
    refine (h.here node hd.left).andThen
      (fun k => hi.invariant.advances k node t h.isSome h.stored) hd
      fun r' u hu hd => ?_
    cases r' with
    | error x => cases r <;> exact .signal
    | ok w => cases r with
      | ok v => exact ih v (h.onward hu) hd
      | error x => exact .signal

end

theorem nodesSettle_zero : NodesSettle host outside 0 := by
  intro s _ _ node hd
  have hd := hd.shift
  simp only [trace] at hd
  cases hs : s.spent? <;> simp only [hs] at hd <;> exact hd.not_zero.elim

/-- By induction on the steps that are left: the first one is spent on the node itself. -/
theorem nodesSettle_succ (hi : Supplies host outside) (hn : NodesSettle host outside d)
    (hc : CallsSettle host outside d) : NodesSettle host outside (d + 1) := by
  intro s hsome hs
  obtain ⟨n, hl⟩ := Option.isSome_iff_exists.mp hsome
  clear hsome
  generalize hm : n + 1 - s.steps = m
  induction m using Nat.strong_induction_on generalizing s with
  | _ m ih =>
    intro node hd
    have hd := hd.shift
    refine .of_shift ?_
    simp only [eval_succ, trace] at hd ⊢
    by_cases hsp : n < s.steps + 1
    · simp only [State.spent?_some hl hsp]
      exact .signal
    · simp only [State.spent?_none hl hsp] at hd ⊢
      refine (plan_settles (s := s.ticked) hi hn hc ⟨hl, hs, fun t ht => ?_⟩ hd.tail).cons
      have hsteps : s.steps + 1 ≤ t.steps := ht.steps
      exact ih (n + 1 - t.steps) (by omega) t ht.inv (ht.limit.trans hl) rfl

/-- By induction on how deep the calls are. -/
theorem nodes_and_calls_settle (hi : Supplies host outside) (d : Nat) :
    NodesSettle host outside d ∧ CallsSettle host outside d := by
  induction d with
  | zero => exact ⟨nodesSettle_zero, callsSettle_zero⟩
  | succ d ih => exact ⟨nodesSettle_succ hi ih.1 ih.2, callsSettle_succ hi ih.1 ih.2⟩

end ExprTree
