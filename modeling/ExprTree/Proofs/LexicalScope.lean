import ExprTree.Proofs.Scoping

/-! A lambda that uses no parameter but its own finds every parameter that it uses, and so does
every closure that it makes, whenever it is invoked. -/
namespace ExprTree

/-- Whether the signal is the error that a parameter is not in scope. -/
def Signal.isUnbound : Signal → Bool
  | .fatal (.unboundParameter _) => true
  | _ => false

/-- The closures of the store captured all that they use, or are assumed to do without. -/
def Store.Scoped (outside : Lambda → Slots → Option Nat → Prop) (s : Store) : Prop :=
  ∀ f captures limit, .closure f captures limit ∈ s.delegates →
    (∀ i, .param i ∈ f.free → i ∈ captures.ids) ∨ outside f captures limit

namespace Scoping

/-- Parameters are found. -/
def binding (outside : Lambda → Slots → Option Nat → Prop) : Scoping :=
  ⟨False, False, True, outside⟩

variable {outside : Lambda → Slots → Option Nat → Prop}

theorem binding_storeOk : (binding outside).StoreOk = Store.Scoped outside := by
  funext s
  refine propext ⟨fun h f c l hm => ?_, fun h f c l hm => ?_⟩
  · exact (h f c l hm).imp (fun hc => hc.bound trivial) fun ho => ho
  · exact (h f c l hm).imp (fun hc => ⟨fun _ => hc, fun hr => hr.elim⟩) fun ho => ho

theorem binding_foreign : (binding outside).Foreign = fun x => x.isUnbound = false := by
  funext x
  rcases x with e | v | ⟨l, v⟩
  · cases e <;> simp [Foreign, Allows, binding, Signal.isUnbound]
  · simp [Foreign, Allows, Signal.isUnbound]
  · simp [Foreign, Allows, binding, Signal.isUnbound]

end Scoping

variable {host : Host} {outside : Lambda → Slots → Option Nat → Prop} {n : Nat} {s : State}
  {f : Lambda} {captures : Slots} {limit : Option Nat} {args : List Value}

section

variable (hh : host.Keeps (Store.Scoped outside) (·.isUnbound = false))
  (ho : ∀ n f c l, outside f c l →
    (evaluator host n).Vouches (Store.Scoped outside) (·.isUnbound = false) f c l)

include hh ho

theorem binding_assumed (n : Nat) : (Scoping.binding outside).Assumed (evaluator host n) := by
  refine ⟨?_, fun {f c l} h => ?_, fun h => h.elim⟩
  · rw [Scoping.binding_storeOk, Scoping.binding_foreign]
    exact hh
  · rw [Scoping.Vouched, Scoping.binding_storeOk, Scoping.binding_foreign]
    exact ho n f c l h

/-- Whatever delegate of the store is invoked, it finds its parameters. -/
theorem invoke_bound {g : Value} (hs : s.store.Scoped outside) :
    ((evaluator host n).invoke g args).IfEnds s fun r _ => ∀ x, r = .error x →
      x.isUnbound = false := by
  have ha := binding_assumed hh ho
  rw [← Scoping.binding_storeOk] at hs
  have hk :
      ((Scoping.binding outside).contract fun _ => False).Keeps (Scoping.binding outside).Foreign
      ((evaluator host n).invoke g args) :=
        Scoping.callDelegate_keeps (Scoping.eval_keeps ha) (ha n)
  refine Eval.IfEnds.mono (hk s ⟨fun _ _ hi => hi.elim, hs⟩) ?_
  rintro r t ⟨_, _, hr⟩ x rfl
  rw [Scoping.binding_foreign] at hr
  exact hr

theorem callLambda_bound (hf : ∀ i, .param i ∈ f.body.free → i ∈ f.params.map Param.id)
    (hs : s.store.Scoped outside) :
    ((evaluator host n).callLambda f captures limit args).IfEnds s fun r t =>
      t.store.Scoped outside ∧ ∀ x, r = .error x → x.isUnbound = false := by
  have ha := binding_assumed hh ho
  have hc : (Scoping.binding outside).Closed f captures := by
    refine ⟨fun _ i hi => ?_, fun h => h.elim⟩
    obtain ⟨hb, j, hj, hn⟩ := Lambda.mem_free.mp hi
    cases hj
    exact absurd (hf i hb) hn
  have hv : (Scoping.binding outside).Vouched (evaluator host n) f captures limit :=
    hc.vouched (Scoping.eval_keeps ha) fun h => h.elim
  rw [Scoping.Vouched, Scoping.binding_storeOk, Scoping.binding_foreign] at hv
  exact hv args s hs

end

/-- A call of a lambda that uses no parameter but its own never fails on one that is not in scope.
Nor does, from the store that the call leaves, any invocation of a delegate. -/
theorem lexical_scope_safe (host : Host) (outside : Lambda → Slots → Option Nat → Prop)
    (hh : host.Keeps (Store.Scoped outside) (·.isUnbound = false))
    (ho : ∀ n f c l, outside f c l →
      (evaluator host n).Vouches (Store.Scoped outside) (·.isUnbound = false) f c l)
    (f : Lambda) (hf : ∀ i, .param i ∈ f.body.free → i ∈ f.params.map Param.id)
    (n : Nat) (captures : Slots) (limit : Option Nat) (args : List Value) (s : State)
    (hs : s.store.Scoped outside) :
    ((evaluator host n).callLambda f captures limit args).IfEnds s fun r t =>
      (∀ p, r ≠ .error (.fatal (.unboundParameter p))) ∧ t.store.Scoped outside ∧
      ∀ m g values u, u.store = t.store → ((evaluator host m).invoke g values).IfEnds u fun r' _ =>
        ∀ p, r' ≠ .error (.fatal (.unboundParameter p)) := by
  refine Eval.IfEnds.mono (callLambda_bound hh ho hf hs) ?_
  rintro r t ⟨ht, hr⟩
  refine ⟨?_, ht, fun m g values u hu => ?_⟩
  · rintro p rfl
    simpa [Signal.isUnbound] using hr _ rfl
  · refine Eval.IfEnds.mono (invoke_bound hh ho (hu ▸ ht)) ?_
    rintro r' v hr' p rfl
    simpa [Signal.isUnbound] using hr' _ rfl

open Evaluator in
/-- A closure over a parameter is invoked after the call that made it, whose frame is gone. -/
theorem closure_outlives_call :
    let p : Param := ⟨0, none, .bool⟩
    let inner : Lambda := .mk 1 none (.param p) [] .bool
    let f : Lambda := .mk 0 none (.lambda inner) [p] inner.ty
    let g : Value := .delegate inner.signature 0
    let store : Store := { delegates := #[.closure inner [(0, .bool true)] none] }
    let ev := evaluator (Scripts.host {}) 3
    (ev.callLambda f [] none [.bool true]).run (.start none {}) = some (.ok g, .start none store) ∧
      ∃ r, (ev.invoke g []).run (.start none store) = some (r, .start none store) ∧
        r = .ok (.bool true) ∧ ∀ q, r ≠ .error (.fatal (.unboundParameter q)) := by
  intro p inner f g store ev
  have hf : ∀ i, .param i ∈ f.body.free → i ∈ f.params.map Param.id := by
    simp [f, inner, p, Lambda.body, Lambda.params, Node.free, Lambda.free, Param.symbol]
  have hrun : (ev.callLambda f [] none [.bool true]).run (.start none {}) =
      some (.ok g, .start none store) := rfl
  have hlater : (ev.invoke g []).run (.start none store) =
      some (.ok (.bool true), .start none store) := by
    change (callDelegate ev 3 (.delegate inner.signature 0) []).run _ = _
    rw [callDelegate]
    rfl
  have h := lexical_scope_safe (Scripts.host {}) (fun _ _ _ => False) Host.scripts_nil_keeps
    (fun _ _ _ _ h => h.elim) f hf 3 [] none [.bool true] (.start none {})
    fun _ _ _ h => absurd h (Array.not_mem_empty _)
  obtain ⟨_, _, hi⟩ := Eval.ifEnds_iff_run.mp h _ _ hrun
  have hg := Eval.ifEnds_iff_run.mp (hi 3 g [] (.start none store) rfl) _ _ hlater
  exact ⟨hrun, _, hlater, rfl, hg⟩

end ExprTree
