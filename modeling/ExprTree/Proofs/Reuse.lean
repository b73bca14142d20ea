import ExprTree.Callable
import ExprTree.Proofs.ClosureIsolation

/-! An interpreter is called again and again. A call sees nothing of those before it but the
store. -/
namespace ExprTree

variable {α : Type}

/-- A call through the interpreter of a lambda, on the state that its last call left. -/
def Evaluator.interpret (ev : Evaluator) (f : Lambda) (args : List Value) :
    Eval (Except EvalError Value) :=
  (ev.runLambda f args).collapsed

/-- What the caller sees of a run: how it ended, and the store then. -/
def Outcome.seen : Outcome α → Option (Except Signal α × Store)
  | .value a t => some (.ok a, t.store)
  | .signal x t => some (.error x, t.store)
  | .endless => none

/-- The states of one interpreter, with the arguments of its calls so far. Each call may go to a
depth of its own, and before the next one the store may change. -/
inductive Used (host : Host) (f : Lambda) (limit : Option Nat) : List (List Value) → State → Prop
  | built (store : Store) : Used host f limit [] (.start limit store)
  | called {past : List (List Value)} {args : List Value} {s t : State} {n : Nat}
      {r : Except Signal (Except EvalError Value)} (store : Store) : Used host f limit past s →
      ((evaluator host n).interpret f args).run s = some (r, t) →
      Used host f limit (past ++ [args]) { t with store }

/-- Between calls nothing is bound, also not in the frame that stays, and the limit is as it was
set. What the last call counted and handled is still there. -/
structure State.Idle (limit : Option Nat) (s : State) : Prop where
  env : s.env = .empty
  limit : s.limit = limit

/-! ### What is seen -/

namespace Outcome

variable {o : Outcome α} {s : State}

@[simp] theorem seen_onto : (o.onto s).seen = o.seen := by
  cases o <;> rfl

end Outcome

namespace Eval

variable {m m' : Eval α} {s u : State}

/-- How an exception or a jump is collapsed is told by the signal and the store. -/
theorem seen_collapsed (h : (m s).seen = (m' u).seen) :
    (m.collapsed s).seen = (m'.collapsed u).seen := by
  have hm (m : Eval α) (s : State) : (m.collapsed s).seen = (m s).seen.map fun p =>
      (.ok (p.1.mapError (·.collapse p.2)), p.2) := by
    have hb : m.collapsed s = _ := outcome_bind_eq
    rw [hb]
    cases m s <;> rfl
  rw [hm, hm, h]

theorem leaves_collapsed {Q : State → Prop} (h : (m s).Leaves Q) : (m.collapsed s).Leaves Q := by
  have hb : m.collapsed s = _ := outcome_bind_eq
  rw [hb]
  refine h.andThen fun r t ht => ?_
  cases r <;> exact ht

end Eval

/-! ### One call -/

theorem Environment.eq_empty_of_shape {e : Environment} (h : e.shape = Environment.empty.shape) :
    e = .empty := by
  obtain ⟨inner, bottom⟩ := e
  obtain ⟨hi, hb⟩ := shape_eq_iff.mp h
  have hi : inner = [] := List.map_eq_nil_iff.mp hi
  have hb : bottom = [] := List.map_eq_nil_iff.mp hb
  rw [hi, hb]
  rfl

variable {host : Host} {ev : Evaluator} {f : Lambda} {limit : Option Nat} {args : List Value}
  {n : Nat} {s u : State}

/-- Every evaluation ends under the limit that it started under. -/
theorem eval_keeps_limit {node : Node} :
    (eval host n node s).Leaves fun t => t.limit = s.limit := by
  have hi : StoreInvariant host (fun _ => True) fun _ => True :=
    ⟨fun _ _ _ => trivial, fun _ _ => trivial, fun _ _ => Or.inl trivial,
      Host.keeps_of_all (fun _ => trivial) fun _ => trivial⟩
  exact (hi.advances n node s trivial trivial).mono fun _ ht => ht.limit

/-- The body may assign only what a frame binds, and below the frame of its arguments none does. -/
theorem interpret_idle (hs : s.Idle limit) :
    ((evaluator host n).interpret f args s).Leaves (State.Idle limit) := by
  refine Eval.leaves_collapsed ?_
  rw [Evaluator.runLambda_eq]
  split
  · exact hs
  · have hb :
        (eval host n f.body (s.entered f args)).Leaves fun t => (s.entered f args).Balanced t :=
      eval_ifEnds_balanced.leaves fun _ _ ht => ht
    refine (hb.and eval_keeps_limit).andThen fun r t ht => ?_
    have hp : t.env.pop.shape = s.env.shape := Environment.shape_pop ht.1.shape
    rw [hs.env] at hp
    have hi : State.Idle limit { t with env := t.env.pop } :=
      ⟨Environment.eq_empty_of_shape hp, ht.2.trans hs.limit⟩
    rcases r with (e | x | ⟨l, v⟩) | v <;> exact hi

theorem Used.idle {past : List (List Value)} (h : Used host f limit past s) : s.Idle limit := by
  induction h with
  | built store => exact ⟨rfl, rfl⟩
  | @called past args s t n r store _ hrun ih =>
    have hl : ((evaluator host n).interpret f args s).Leaves (State.Idle limit) := interpret_idle ih
    unfold Eval.run at hrun
    have ht : t.Idle limit := by
      cases ho : (evaluator host n).interpret f args s <;> simp_all [Outcome.Leaves]
    exact ⟨ht.env, ht.limit⟩

/-- What is left from the last call is replaced before the body starts. -/
theorem runLambda_seen (hs : s.Idle limit) (hu : u.store = s.store) :
    (ev.runLambda f args s).seen = (ev.callLambda f [] limit args u).seen := by
  obtain ⟨env, handling, steps, l, store⟩ := s
  obtain ⟨rfl, rfl⟩ : env = .empty ∧ l = limit := ⟨hs.env, hs.limit⟩
  rw [Evaluator.callLambda, Evaluator.isolated_eq, Outcome.seen_onto, hu]
  simp only [Evaluator.runLambda_eq]
  split
  · rfl
  · rfl

/-- Whatever an interpreter was called with before and however those calls ended, its next call ends
as that of an interpreter just built does from the same store, with the same store, as the call of
the lambda compiled under the same limit, and, with as many arguments as there are parameters, as
the invocation of a delegate made of it, which the store still holds. -/
theorem interpreter_reuse (host : Host) (f : Lambda) (limit : Option Nat) (past : List (List Value))
    (s : State) (hs : Used host f limit past s) (n : Nat) (args : List Value) :
    let ev := evaluator host n
    let c : Callable := ⟨f, limit⟩
    let seen := (ev.interpret f args s).seen
    seen = (ev.interpret f args (.start limit s.store)).seen ∧
    (∀ u, u.store = s.store → seen = (c.call ev args u).seen) ∧
    ∀ made, ∃ addr, (c.toDelegate made).1 = .delegate f.signature addr ∧
      (c.toDelegate made).2.Holds addr (.closure f [] limit) ∧
      ∀ u, u.store = s.store → s.store.Holds addr (.closure f [] limit) →
        args.length = f.params.length →
        seen = ((ev.invoke (.delegate f.signature addr) args).collapsed u).seen := by
  intro ev c seen
  have hcall (u : State) (hu : u.store = s.store) :
      seen = ((ev.callLambda f [] limit args).collapsed u).seen :=
    Eval.seen_collapsed (runLambda_seen hs.idle hu)
  refine ⟨?_, hcall, fun made => ⟨made.delegates.size, rfl, ?_, ?_⟩⟩
  · have hfresh : (ev.interpret f args (.start limit s.store)).seen =
        ((ev.callLambda f [] limit args).collapsed s).seen :=
      Eval.seen_collapsed (runLambda_seen ⟨rfl, rfl⟩ rfl)
    rw [hfresh]
    exact hcall s rfl
  · simp [Store.Holds, Callable.toDelegate, Store.newDelegate, c]
  · intro u hu hd ha
    rw [hcall u hu]
    refine Eval.seen_collapsed ?_
    rw [invoke_held (hu ▸ hd) ha]

/-- The first call is stopped by the limit and the second has no argument. The third is not stopped,
though it counts as many steps as the limit allows. -/
theorem third_call_fits :
    let host := Scripts.host {}
    let p : Param := ⟨0, none, .bool⟩
    let f : Lambda := .mk 0 none (.conditional 1 (.param p) (.loop 2 (.default 3 .bool) none none)
      (.default 4 .bool) .bool) [p] .bool
    let c : Callable := ⟨f, some 3⟩
    let store := (c.toDelegate {}).2
    ∃ s, Used host f (some 3) [[.bool true], []] s ∧ s.store = store ∧ s.steps = 4 ∧
      ((evaluator host 3).interpret f [.bool false] s).seen =
        some (.ok (.ok (.bool false)), store) ∧
      (c.call (evaluator host 3) [.bool false] s).seen = some (.ok (.ok (.bool false)), store) ∧
      (((evaluator host 3).invoke (c.toDelegate {}).1 [.bool false]).collapsed s).seen =
        some (.ok (.ok (.bool false)), store) := by
  intro host p f c store
  let s : State := { State.start (some 3) store with steps := 4 }
  have hstopped : ((evaluator host 9).interpret f [.bool true]).run (.start (some 3) store) =
      some (.ok (.error (.budgetExceeded 3)), s) := rfl
  have hmissing : ((evaluator host 0).interpret f []).run s =
      some (.ok (.error (.arityMismatch "lambda" 1 0)), s) := rfl
  have hs : Used host f (some 3) [[.bool true], []] s :=
    .called store (.called store (.built store) hstopped) hmissing
  obtain ⟨hfresh, hcall, hmade⟩ := interpreter_reuse host f (some 3) _ s hs 3 [.bool false]
  obtain ⟨addr, hd, hheld, hinvoke⟩ := hmade {}
  have hr : ((evaluator host 3).interpret f [.bool false] s).seen =
      some (.ok (.ok (.bool false)), store) := by
    rw [hfresh]
    rfl
  refine ⟨s, hs, rfl, rfl, hr, (hcall s rfl).symm.trans hr, ?_⟩
  rw [hd]
  exact (hinvoke s rfl hheld rfl).symm.trans hr

end ExprTree
