import ExprTree.Host.Scripted
import ExprTree.Proofs.Following

/-! A limit that is not reached changes nothing: a run under a greater one, or under none, makes the
same evaluations in the same order and ends the same way. -/
namespace ExprTree

/-- The limit `n` becomes `m`, in the interpreter and in closures from the address `base` on. -/
def Loosening.raise (n : Nat) (m : Option Nat) (base : Nat) (hm : ∀ k, m = some k → n ≤ k) :
    Loosening where
  rel l l' := l = l' ∨ l = some n ∧ l' = m
  tight k := k = n
  base := base
  looser := by
    rintro l l' (rfl | ⟨rfl, rfl⟩)
    · exact Or.inl rfl
    · exact Or.inr ⟨n, rfl, rfl, hm⟩

variable {n : Nat} {m : Option Nat} {base : Nat} {hm : ∀ k, m = some k → n ≤ k}

theorem DelegateBody.Like.refl (b : DelegateBody) : b.Like (.raise n m base hm) b := by
  cases b with
  | closure f captures l => exact .closure f captures (Or.inl rfl)
  | host id => exact .host id

theorem Store.Like.same {s : Store} (hs : base ≤ s.delegates.size) :
    s.Like (.raise n m base hm) s where
  bare := rfl
  size := rfl
  base := hs
  old _ _ := rfl
  delegates i := by
    cases s.delegates[i]? with
    | none => exact .none
    | some b => exact .some (.refl b)

/-- Alike outcomes are the same result, in states that are alike. -/
theorem Outcome.Like.run {Λ : Loosening} {α : Type} {p q : Eval α} {s t u : State}
    {r : Except Signal α} (h : (p s).Like Λ (q t)) (hp : p.run s = some (r, u)) :
    ∃ v, q.run t = some (r, v) ∧ u.Like Λ v := by
  unfold Eval.run at *
  generalize p s = o, q t = o' at *
  cases h with
  | value a hs =>
    cases hp
    exact ⟨_, rfl, hs⟩
  | signal x hs =>
    cases hp
    exact ⟨_, rfl, hs⟩

/-- A run under the limit `n` that finishes, with no step too many in it or in a closure that has
this limit, is also the run under any greater limit `m` or under none: the same evaluations, uses of
handles, calls and assignments in the same order, the same outcome, and the same store but for the
limit `m` in the place of `n` in closures that it made. -/
theorem budget_transparent (host : Host) (n : Nat) (m : Option Nat) (hm : ∀ k, m = some k → n ≤ k)
    (f : Lambda) (args : List Value) (s : State)
    (hb : host.Blind (.raise n m s.store.delegates.size hm)) (depth depth' : Nat)
    (hd : depth ≤ depth')
    (r : Except Signal Value) (t : State)
    (hrun : ((evaluator host depth).runLambda f args).run { s with limit := some n } = some (r, t))
    (hclear : ∀ e ∈ (recorder host depth).lambda f args { s with limit := some n },
      e.core ≠ .trip n) :
    ∃ u, ((evaluator host depth').runLambda f args).run { s with limit := m } = some (r, u) ∧
      t.Like (.raise n m s.store.delegates.size hm) u ∧
      (recorder host depth').lambda f args { s with limit := m } =
        (recorder host depth).lambda f args { s with limit := some n } := by
  have hs : State.Like (.raise n m s.store.delegates.size hm) { s with limit := some n }
      { s with limit := m } := ⟨⟨rfl, rfl, rfl, Or.inr ⟨rfl, rfl⟩⟩, .same (Nat.le_refl _)⟩
  have hf := Recorder.lambda_follows (leads hb hd) f args hs
  have hne : (evaluator host depth).runLambda f args { s with limit := some n } ≠ .endless := by
    intro h
    simp [Eval.run, h] at hrun
  obtain ⟨hl, htr⟩ := hf hne fun e he k hk => hk ▸ hclear e he
  obtain ⟨u, hu, htu⟩ := hl.run hrun
  exact ⟨u, hu, htu, htr⟩

/-- A closure is made and invoked, both counters staying within the limit of two steps; with no
limit the same is done. -/
theorem closure_made_under_no_limit :
    let host := Scripts.host {}
    let made : Lambda := .mk 1 none (.default 3 .bool) [] .bool
    let f : Lambda := .mk 0 none (.invoke 2 (.lambda made) [] .bool) [] .bool
    let t : State :=
      { State.start (some 2) { delegates := #[.closure made [] (some 2)] } with steps := 2 }
    let tr : Trace := [.node f.body, .node (.lambda made), .call (.delegate made.signature 0) [],
      .inner (.node made.body)]
    ((evaluator host 3).runLambda f []).run (.start (some 2) {}) = some (.ok (.bool false), t) ∧
      (recorder host 3).lambda f [] (.start (some 2) {}) = tr ∧
      ∃ u, ((evaluator host 4).runLambda f []).run (.start none {}) = some (.ok (.bool false), u) ∧
        t.Like (.raise 2 none 0 nofun) u ∧ (recorder host 4).lambda f [] (.start none {}) = tr := by
  intro host made f t tr
  let d : Value := .delegate made.signature 0
  let s : State := .start (some 2) {}
  let R := recorder host 2
  let u : State := { s.entered f [] with steps := 2, store := t.store }
  have hcall : R.callDelegate 2 d [] u = .value (.bool false) u := by
    rw [Evaluator.callDelegate_eq]
    rfl
  have hcalls : R.delegate 2 d [] u = [.call d [], .inner (.node made.body)] := by
    rw [Recorder.delegate_eq]
    rfl
  have hbody : eval host 3 f.body (s.entered f []) = .value (.bool false) u := by
    rw [eval_succ]
    change (Plan.act (.invoke d []) .pure).run R.toEvaluator u = _
    rw [Plan.run_act]
    change (R.callDelegate 2 d [] u).andThen _ = _
    rw [hcall]
    rfl
  have hlam : (evaluator host 3).runLambda f [] s = .value (.bool false) t := by
    rw [Evaluator.runLambda_eq, if_neg (by decide)]
    change (eval host 3 f.body (s.entered f [])).andThen _ = _
    rw [hbody]
    rfl
  have hrun : ((evaluator host 3).runLambda f []).run s = some (.ok (.bool false), t) := by
    unfold Eval.run
    rw [hlam]
  have htr : (recorder host 3).lambda f [] s = tr := by
    change .node f.body :: .node (.lambda made) ::
      (R.delegate 2 d [] u ++ (R.callDelegate 2 d [] u).after _) = _
    rw [hcalls, hcall]
    rfl
  have hb : host.Blind (.raise 2 none 0 nofun) := Host.scripts_nil fun _ _ h => .finish _ h nofun
  obtain ⟨v, hv, htv, hvtr⟩ :=
    budget_transparent host 2 none nofun f [] s hb 3 4 (by omega) _ _ hrun (by
    change ∀ e ∈ (recorder host 3).lambda f [] s, _
    rw [htr]
    simp [tr, Event.core])
  exact ⟨hrun, htr, v, hv, htv, hvtr.trans htr⟩

end ExprTree
