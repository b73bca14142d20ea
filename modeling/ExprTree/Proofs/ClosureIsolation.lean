import ExprTree.Proofs.Balance
import ExprTree.Proofs.Capture
import ExprTree.Proofs.StoreInvariant

/-! A closure has its own copy of what was visible where it was made. Its invocations share the
store with everything else, and nothing but the store. -/
namespace ExprTree

/-- The delegate that stands at an address. -/
def Store.Holds (addr : Nat) (b : DelegateBody) (s : Store) : Prop := s.delegates[addr]? = some b

/-- How the end of its body is the end of a lambda: a jump has left its scope, and void has no
value. -/
def Outcome.returned (f : Lambda) : Outcome Value → Outcome Value
  | .value v t => .value (if f.ret.isVoid then .void else v) t
  | .signal (.jump l _) t => .signal (.fatal (.unresolvedGoto l.text)) t
  | .signal x t => .signal x t
  | .endless => .endless

variable {host : Host} {addr : Nat} {b : DelegateBody}

/-- Delegates are made at new addresses and stay where they are, host code being assumed to leave
them. -/
theorem holds_invariant (hh : host.Keeps (Store.Holds addr b) fun _ => True) :
    StoreInvariant host (Store.Holds addr b) fun _ => True where
  frame {s t} _ hd hs := by
    unfold Store.Holds at *
    rw [hd]
    exact hs
  closure {s f captures l} _ hs := by
    obtain ⟨hlt, -⟩ := Array.getElem?_eq_some_iff.mp hs
    have hne : addr ≠ s.delegates.size := Nat.ne_of_lt hlt
    simpa [Store.Holds, Store.newDelegate, Array.getElem?_push, hne] using hs
  stored _ _ := Or.inl trivial
  host := hh

/-- The delegate of a lambda takes as many arguments as the lambda has parameters. -/
theorem invoke_held {ev : Evaluator} {f : Lambda} {captures : Slots} {l : Option Nat}
    {args : List Value} {u : State} (hu : u.store.Holds addr (.closure f captures l))
    (ha : args.length = f.params.length) :
    ev.invoke (.delegate f.signature addr) args u = ev.callLambda f captures l args u := by
  have har : ¬f.signature.arity ≠ args.length := by
    simp [ha, Signature.arity, Lambda.signature]
  unfold Store.Holds at hu
  rw [Evaluator.invoke, Evaluator.callDelegate_eq, if_neg har, hu]

/-- The invocation of a closure is the evaluation of its body over its captures and its
arguments. -/
theorem invoke_closure {ev : Evaluator} {f : Lambda} {captures : Slots} {l : Option Nat}
    {args : List Value} {u : State} (hu : u.store.Holds addr (.closure f captures l))
    (ha : args.length = f.params.length) :
    ev.invoke (.delegate f.signature addr) args u =
      ((ev.eval f.body ⟨(Environment.ofCaptures captures).push.defineAll
        ((f.params.map Param.id).zip args), [], 0, l, u.store⟩).returned f).onto u := by
  rw [invoke_held hu ha, Evaluator.callLambda, Evaluator.isolated_eq, Evaluator.runLambda_eq,
    if_neg (by simp [ha])]
  change Outcome.onto u ((ev.eval f.body ⟨(Environment.ofCaptures captures).push.defineAll
        ((f.params.map Param.id).zip args), [], 0, l, u.store⟩).andThen _) = _
  generalize ev.eval f.body _ = o
  cases o with
  | value v t => rfl
  | signal x t => cases x <;> rfl
  | endless => rfl

/-- The evaluation of a lambda gives a delegate over what is visible there, `R`. From then on,
whatever is done by whatever interpreter, the delegate stays the same one. Invoked in any state,
with as many arguments as it has parameters, it ends as its body does when that is evaluated over
`R` and the arguments, with nothing handled and no steps counted, from the store as it is then; and
its caller finds all but the store unchanged. So what is assigned to a captured variable is seen by
the body that assigns it and no other. -/
theorem closure_isolation (host : Host)
    (hh : ∀ addr b, host.Keeps (Store.Holds addr b) fun _ => True) (f : Lambda) (n : Nat)
    (s : State) (hd : s.env.Distinct) (hs : s.spent? = none) :
    let R := s.env.capture
    let body : DelegateBody := .closure f R s.limit
    (∀ i, (Environment.ofCaptures R).lookup i = s.env.lookup i) ∧
    ∃ addr t, (eval host (n + 1) (.lambda f)).run s = some (.ok (.delegate f.signature addr), t) ∧
      t.env = s.env ∧ t.store.Holds addr body ∧
      (∀ m (a : Action) u, u.store.Holds addr body →
        (a.run (evaluator host m) u).Leaves fun v => v.store.Holds addr body) ∧
      ∀ m args u, u.store.Holds addr body → args.length = f.params.length →
        let env := (Environment.ofCaptures R).push.defineAll ((f.params.map Param.id).zip args)
        env.Distinct ∧
        (evaluator host m).invoke (.delegate f.signature addr) args u =
          (((evaluator host m).eval f.body ⟨env, [], 0, s.limit, u.store⟩).returned f).onto u ∧
        ((evaluator host m).invoke (.delegate f.signature addr) args u).Leaves fun v =>
          v = { u with store := v.store } ∧ v.store.Holds addr body := by
  intro R body
  refine ⟨fun i => Environment.lookup_ofCaptures hd, s.store.delegates.size,
    { s.ticked with store := (s.store.newDelegate f.signature body).2 }, ?_, rfl, ?_, ?_, ?_⟩
  · have he : eval host (n + 1) (.lambda f) s = _ := eval_succ
    rw [hs] at he
    unfold Eval.run
    rw [he]
    rfl
  · simp [Store.Holds, Store.newDelegate]
  · intro m a u hu
    have hi := holds_invariant (hh s.store.delegates.size body)
    exact (hi.action_advances (hi.advances m) trivial hu).mono fun _ hv => hv.inv
  · intro m args u hu ha
    have hi := holds_invariant (hh s.store.delegates.size body)
    refine ⟨Environment.distinct_ofCaptures.push_defineAll, invoke_closure hu ha, ?_⟩
    rw [Evaluator.invoke_detached u u rfl]
    exact .onto ((hi.delegate_leaves (hi.advances m) m _ args u hu).mono fun v hv => ⟨rfl, hv⟩)

/-- The closure returns what it captured and overwrites it. Neither that nor what its creator has
assigned since is seen when it is invoked again. -/
theorem captured_once :
    let host := Scripts.host {}
    let x : Param := ⟨0, none, .bool⟩
    let y : Param := ⟨1, none, .bool⟩
    let swap : Node := .block 2 [y] [.binary 3 .assign (.param y) (.param x) none none .bool,
      .binary 4 .assign (.param x) (.default 5 .bool) none none .bool, .param y] .bool
    let f : Lambda := .mk 0 none swap [] .bool
    let s : State := { State.start none {} with env := .ofCaptures [(0, .bool true)] }
    ∃ d t, (eval host 1 (.lambda f)).run s = some (.ok d, t) ∧ ∀ u : State,
      u.env = .ofCaptures [(0, .bool false)] → u.store = t.store →
        (evaluator host 4).invoke d [] u = .value (.bool true) u ∧
        ((evaluator host 4).invoke d [] u).andThen (fun _ => (evaluator host 4).invoke d []) =
          .value (.bool true) u := by
  intro host x y swap f s
  obtain ⟨-, addr, t, hrun, -, ht, -, hinv⟩ :=
    closure_isolation host (fun _ _ => Host.scripts_nil_keeps) f 0 s
    Environment.distinct_ofCaptures rfl
  refine ⟨_, t, hrun, fun u _ hu => ?_⟩
  obtain ⟨-, hi, -⟩ := hinv 4 [] u (hu ▸ ht) rfl
  have hcall :
      (evaluator host 4).invoke (.delegate f.signature addr) [] u = .value (.bool true) u := by
    rw [hi]
    rfl
  rw [hcall]
  exact ⟨rfl, hcall⟩

end ExprTree
