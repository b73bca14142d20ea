import ExprTree.Proofs.Factories
import ExprTree.Proofs.Settling

/-! A limit and calls. Each call of a delegate counts its own steps, so a limit bounds what each
call does by itself, and only as long as calls are not nested without end does it bound what a run
does in all. -/
namespace ExprTree

open Filter

/-- A call under a limit ends, if the calls of delegates in it are nested to a bounded depth: all
that it does, with everything that it calls, is one finite trace, and it has an outcome unless it
hangs. A callable is called from a state of its own, which has its limit. -/
theorem budget_termination (host : Host) (outside : Lambda → Slots → Option Nat → Prop)
    (hh : Supplies host outside) (n d : Nat) (f : Lambda) (args : List Value) (s : State)
    (hl : s.limit = some n) (hs : s.store.Limited outside)
    (hd : Shallow d fun k => (recorder host k).lambda f args s) :
    ∃ tr K, (∀ k, K ≤ k → (recorder host k).lambda f args s = tr) ∧
      ((∃ r t, ∀ k, K ≤ k → ((evaluator host k).runLambda f args).run s = some (r, t)) ∨
        ∃ e ∈ tr, e.core = .hang) := by
  obtain ⟨p, tr, hp, hev⟩ := lambda_settles (nodes_and_calls_settle hh d).1 (by simp [hl]) hs hd
  obtain ⟨K, hK⟩ := eventually_atTop.mp hev
  dsimp only at hK
  refine ⟨tr, K, fun k hk => (hK k hk).2, ?_⟩
  cases p with
  | value v t => exact Or.inl ⟨.ok v, t, fun k hk => by simp only [Eval.run, (hK k hk).1]⟩
  | signal x t => exact Or.inl ⟨.error x, t, fun k hk => by simp only [Eval.run, (hK k hk).1]⟩
  | endless => exact Or.inr (hp rfl)

/-- A host without scripts, and with no closure of its own. -/
theorem supplies_nil : Supplies (Scripts.host {}) fun _ _ _ => False where
  code := Host.scripts_nil_keeps
  vouched ho := ho.elim
  ends ho := ho.elim

/-- A loop that makes a closure and invokes it is stopped in its second turn. -/
theorem loop_of_calls_stopped :
    let made : Lambda := .mk 3 none (.default 4 .bool) [] .bool
    let turn : Node := .invoke 2 (.lambda made) [] .bool
    let f : Lambda := .mk 0 none (.loop 1 turn none none) [] .void
    let s : State := .start (some 3) {}
    let tr (k : Nat) := (recorder (Scripts.host {}) k).lambda f [] s
    Supplies (Scripts.host {}) (fun _ _ _ => False) ∧ s.store.Limited (fun _ _ _ => False) ∧
      (∀ k, tr (k + 4) = [.node f.body, .node turn, .node (.lambda made),
        .call (.delegate made.signature 0) [], .inner (.node made.body), .trip 3]) ∧
      Shallow 2 tr ∧
      ∃ r t K, ∀ k, K ≤ k →
        ((evaluator (Scripts.host {}) k).runLambda f []).run s = some (r, t) := by
  intro made turn f s tr
  let d : Value := .delegate made.signature 0
  let u : State := { s.entered f [] with steps := 1 }
  let t : State :=
    { s.entered f [] with steps := 3, store := { delegates := #[.closure made [] (some 3)] } }
  have htr (k : Nat) : tr (k + 4) = [.node f.body, .node turn, .node (.lambda made), .call d [],
      .inner (.node made.body), .trip 3] := by
    let R := recorder (Scripts.host {}) (k + 2)
    let R' := recorder (Scripts.host {}) (k + 3)
    have hcall : R.callDelegate (k + 2) d [] t = .value (.bool false) t := by
      rw [Evaluator.callDelegate_eq]
      rfl
    have hcalls : R.delegate (k + 2) d [] t = [.call d [], .inner (.node made.body)] := by
      rw [Recorder.delegate_eq]
      rfl
    have hturn : R'.eval turn u = .value (.bool false) t := by
      refine eval_succ.trans ?_
      change (Plan.act (.invoke d []) .pure).run R.toEvaluator t = _
      rw [Plan.run_act]
      change (R.callDelegate (k + 2) d [] t).andThen _ = _
      rw [hcall]
      rfl
    have hloop : R'.runLoop turn none none (k + 3) u =
        .signal (.fatal (.budgetExceeded 3)) t.ticked := by
      rw [Evaluator.runLoop_go, hturn]
      rfl
    change .node f.body :: ((.node turn :: .node (.lambda made) ::
      (R.delegate (k + 2) d [] t ++ (R.callDelegate (k + 2) d [] t).after _)) ++
        (R'.eval turn u).after _ ++
        (R'.runLoop turn none none (k + 3) u).after _) = _
    rw [hcalls, hcall, hturn, hloop]
    rfl
  have hd : Shallow 2 tr := by
    refine eventually_atTop.mpr ⟨4, fun k hk => ?_⟩
    obtain ⟨k, rfl⟩ := Nat.exists_eq_add_of_le' hk
    rw [htr]
    simp [Event.level]
  have hs : s.store.Limited fun _ _ _ => False := fun _ _ _ h => absurd h (Array.not_mem_empty _)
  obtain ⟨all, K, hall, h⟩ :=
    budget_termination (Scripts.host {}) _ supplies_nil 3 2 f [] s rfl hs hd
  refine ⟨supplies_nil, hs, htr, hd, ?_⟩
  rcases h with ⟨r, t, h⟩ | ⟨e, he, hc⟩
  · exact ⟨r, t, K, h⟩
  · have hnone : ∀ e ∈ tr (K + 4), e.core ≠ .hang := by
      rw [htr]
      simp [Event.core]
    have hall : tr (K + 4) = all := hall (K + 4) (by omega)
    exact absurd hc (hnone e (hall ▸ he))

/-! ### Nesting without end -/

/-- How many nodes are evaluated, by the interpreter itself and by all that it calls. -/
def evaluations (tr : Trace) : Nat := tr.countP fun e => e.core.isPass

theorem evaluations_append {tr tr' : Trace} :
    evaluations (tr ++ tr') = evaluations tr + evaluations tr' :=
  List.countP_append

theorem evaluations_inner {tr : Trace} : evaluations (tr.map .inner) = evaluations tr :=
  List.countP_map

namespace SelfApplication

def x : Param := ⟨0, none, .object⟩

/-- Applies its argument to the argument itself. -/
def apply : Lambda :=
  .mk 3 none
    (.invoke 2 (.unary 1 .convert (some (.param x)) none (Signature.mk [.object] .object).ty)
    [.param x] .object) [x] .object

def main : Lambda := .mk 5 none (.invoke 4 (.lambda apply) [.lambda apply] .object) [] .object

theorem main_made : (Node.lambda main).All Node.Made := by
  have hx : (Node.param x).All Node.Made := ⟨rfl, nofun⟩
  have happly : (Node.lambda apply).All Node.Made := by
    refine ⟨⟨none, rfl⟩, List.forall_mem_singleton.mpr ⟨rfl, ?_⟩⟩
    refine List.forall_mem_cons.mpr ⟨⟨⟨some _, rfl⟩, ?_⟩, List.forall_mem_singleton.mpr hx⟩
    exact List.forall_mem_singleton.mpr hx
  refine ⟨⟨none, rfl⟩, List.forall_mem_singleton.mpr ⟨rfl, ?_⟩⟩
  exact List.forall_mem_cons.mpr ⟨happly, List.forall_mem_singleton.mpr happly⟩

def delegate (addr : Nat) : Value := .delegate apply.signature addr

/-- Where the body starts when the argument is the delegate of the address. -/
def entry (addr : Nat) (store : Store) : State :=
  (State.isolated (.start none store) [] (some 4)).entered apply [delegate addr]

/-- What is left of a node once the callee and the argument are evaluated. -/
def application (a b : Nat) : Plan Value := .act (.invoke (delegate a) [delegate b]) .pure

variable {host : Host} {a b n : Nat} {s : State}

section

variable (h : s.store.delegates[a]? = some (.closure apply [] (some 4)))
  (he : eval host n apply.body (entry b s.store) = .endless)

include h he

theorem call_endless :
    (evaluator host n).callDelegate n (delegate a) [delegate b] s = .endless := by
  have ha : ¬apply.signature.arity ≠ [delegate b].length := not_not_intro rfl
  have hp : ¬apply.params.length ≠ [delegate b].length := not_not_intro rfl
  rw [delegate, Evaluator.callDelegate_eq, if_neg ha, h]
  dsimp only
  rw [Evaluator.callLambda, Evaluator.isolated_eq, Evaluator.runLambda_eq, if_neg hp]
  change ((eval host n apply.body (entry b s.store)).andThen _).onto s = _
  rw [he]
  rfl

/-- An application ends only if the body does. -/
theorem application_endless : (application a b).run (evaluator host n) s = .endless := by
  rw [application, Plan.run_act]
  change ((evaluator host n).callDelegate n (delegate a) [delegate b] s).andThen _ = _
  rw [call_endless h he]
  rfl

theorem evaluations_application : evaluations ((application a b).trace (recorder host n) s) =
    evaluations (trace host n apply.body (entry b s.store)) := by
  have ha : ¬apply.signature.arity ≠ [delegate b].length := not_not_intro rfl
  have htr :
      (recorder host n).delegate n (delegate a) [delegate b] s =
        [.call (delegate a) [delegate b]] ++
      (trace host n apply.body (entry b s.store)).map .inner := by
    rw [delegate, Recorder.delegate_eq, if_neg ha, h]
    rfl
  change evaluations ((recorder host n).delegate n (delegate a) [delegate b] s ++
    ((evaluator host n).callDelegate n (delegate a) [delegate b] s).after _) = _
  rw [call_endless h he, htr, evaluations_append, evaluations_append, evaluations_inner]
  exact Nat.zero_add _

end

section

variable {addr k : Nat} {store : Store}
  (h : store.delegates[addr]? = some (.closure apply [] (some 4)))

include h

/-- The body makes the same application again before it ends. -/
theorem body_endless : eval host k apply.body (entry addr store) = .endless := by
  induction k with
  | zero => rfl
  | succ k ih =>
    match k, ih with
    | 0, _ => rfl
    | 1, _ => rfl
    | k + 2, ih =>
      rw [eval_succ]
      exact application_endless (s := { entry addr store with steps := 4 }) h ih

/-- The limit allows the four steps that it takes to get there. -/
theorem le_evaluations_body :
    k ≤ evaluations (trace host (k + 2) apply.body (entry addr store)) := by
  induction k with
  | zero => exact Nat.zero_le _
  | succ k ih =>
    let s : State := { entry addr store with steps := 4 }
    let before : Trace :=
      [.node apply.body, .node (.unary 1 .convert (some (.param x)) none apply.ty),
      .node (.param x), .node (.param x)]
    have htr : trace host (k + 3) apply.body (entry addr store) =
        before ++ (application addr addr).trace (recorder host (k + 2)) s := rfl
    rw [htr, evaluations_append, evaluations_application h (body_endless h)]
    change k + 1 ≤ 4 + evaluations (trace host (k + 2) apply.body (entry addr store))
    omega

end

/-- The delegate that is applied to itself is not stopped by a limit of four steps, though the
factories built it and no host code runs. -/
theorem runs_past_limit :
    let s : State := .start (some 4) {}
    Supplies (Scripts.host {}) (fun _ _ _ => False) ∧ (Node.lambda main).All Node.Made ∧
      (∀ k, ((evaluator (Scripts.host {}) k).runLambda main []).run s = none) ∧
      (∀ n, ∃ k, n ≤ evaluations ((recorder (Scripts.host {}) k).lambda main [] s)) ∧
      ¬∃ tr K, ∀ k, K ≤ k → (recorder (Scripts.host {}) k).lambda main [] s = tr := by
  intro s
  let store : Store := { delegates := #[.closure apply [] (some 4), .closure apply [] (some 4)] }
  let t : State := { s.entered main [] with steps := 3, store := store }
  have hp : ¬main.params.length ≠ ([] : List Value).length := not_not_intro rfl
  have hend (k : Nat) : (evaluator (Scripts.host {}) k).runLambda main [] s = .endless := by
    have heval : eval (Scripts.host {}) k main.body (s.entered main []) = .endless := by
      match k with
      | 0 => rfl
      | 1 => rfl
      | k + 2 =>
        rw [eval_succ]
        exact application_endless (s := t) (a := 0) (b := 1) rfl (body_endless rfl)
    rw [Evaluator.runLambda_eq, if_neg hp]
    change (eval (Scripts.host {}) k main.body (s.entered main [])).andThen _ = _
    rw [heval]
    rfl
  have hmany (n : Nat) :
      n ≤ evaluations ((recorder (Scripts.host {}) (n + 3)).lambda main [] s) := by
    have htr : (recorder (Scripts.host {}) (n + 3)).lambda main [] s =
        [.node main.body, .node (.lambda apply), .node (.lambda apply)] ++
          (application 0 1).trace (recorder (Scripts.host {}) (n + 2)) t := rfl
    rw [htr, evaluations_append, evaluations_application (s := t) rfl (body_endless rfl)]
    exact Nat.le_add_left_of_le (le_evaluations_body rfl)
  refine ⟨supplies_nil, main_made,
    fun k => by simp only [Eval.run, hend], fun n => ⟨_, hmany n⟩, ?_⟩
  rintro ⟨tr, K, hK⟩
  have hle := hmany (evaluations tr + 1 + K)
  rw [hK _ (by omega)] at hle
  omega

end SelfApplication

end ExprTree
