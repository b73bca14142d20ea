import ExprTree.Proofs.Scoping

/-! Where jumps go: to a free label of the node they leave, and never out of a lambda that confines
them. -/
namespace ExprTree

/-- Neither a jump nor the error that one was not caught. -/
def Signal.isConfined : Signal → Bool
  | .jump .. | .fatal (.unresolvedGoto _) => false
  | _ => true

def Signal.isJump : Signal → Bool
  | .jump .. => true
  | _ => false

/-- No jump leaves a closure of the store, by its form or as assumed of those from elsewhere. -/
def Store.Confined (outside : Lambda → Slots → Option Nat → Prop) (s : Store) : Prop :=
  ∀ f captures limit, .closure f captures limit ∈ s.delegates →
    (Node.lambda f).Confined ∨ outside f captures limit

namespace Scoping

/-- Only the targets of jumps are promised. -/
def targets : Scoping := ⟨True, False, False, fun _ _ _ => False⟩

/-- No jump is left unresolved. -/
def resolving (outside : Lambda → Slots → Option Nat → Prop) : Scoping :=
  ⟨True, True, False, outside⟩

variable {outside : Lambda → Slots → Option Nat → Prop}

theorem targets_storeOk (s : Store) : targets.StoreOk s :=
  fun _ _ _ _ => Or.inl ⟨fun h => h.elim, fun h => h.elim⟩

theorem targets_foreign : targets.Foreign = fun x => x.isJump = false := by
  funext x
  rcases x with e | v | ⟨l, v⟩
  · cases e <;> simp [Foreign, Allows, targets, Signal.isJump]
  · simp [Foreign, Allows, Signal.isJump]
  · simp [Foreign, Allows, targets, Signal.isJump]

theorem resolving_storeOk : (resolving outside).StoreOk = Store.Confined outside := by
  funext s
  refine propext ⟨fun h f c l hm => ?_, fun h f c l hm => ?_⟩
  · exact (h f c l hm).imp (fun hc => hc.confined trivial) fun ho => ho
  · exact (h f c l hm).imp (fun hc => ⟨fun hb => hb.elim, fun _ => hc⟩) fun ho => ho

theorem resolving_foreign : (resolving outside).Foreign = fun x => x.isConfined = true := by
  funext x
  rcases x with e | v | ⟨l, v⟩
  · cases e <;> simp [Foreign, Allows, resolving, Signal.isConfined]
  · simp [Foreign, Allows, Signal.isConfined]
  · simp [Foreign, Allows, resolving, Signal.isConfined]

end Scoping

variable {host : Host} {outside : Lambda → Slots → Option Nat → Prop} {n : Nat} {node : Node}
  {s : State} {f : Lambda} {captures : Slots} {limit : Option Nat} {args : List Value}

theorem eval_jump_free (hh : host.Keeps (fun _ => True) (·.isJump = false)) :
    (eval host n node).IfEnds s fun r _ => ∀ l v, r = .error (.jump l v) →
      l.symbol ∈ node.free := by
  have ha (m : Nat) : Scoping.targets.Assumed (evaluator host m) := by
    refine ⟨?_, fun h => h.elim, fun h => h.elim⟩
    rw [Scoping.targets_foreign, funext fun s => eq_true (Scoping.targets_storeOk s)]
    exact hh
  have hk := Scoping.eval_keeps (n := n) ha (· ∈ node.free) node ⟨fun _ h => h, fun h => h.elim⟩ s
    ⟨fun h => h.elim, Scoping.targets_storeOk _⟩
  refine Eval.IfEnds.mono hk ?_
  rintro r t ⟨_, _, hr⟩ l v rfl
  exact hr trivial

/-- Calls of a confined lambda, and of all closures that it makes, resolve their jumps. -/
theorem callLambda_confined (hh : host.Keeps (Store.Confined outside) (·.isConfined))
    (ho : ∀ n f c l, outside f c l →
      (evaluator host n).Vouches (Store.Confined outside) (·.isConfined) f c l)
    (hf : (Node.lambda f).Confined) (hs : s.store.Confined outside) :
    ((evaluator host n).callLambda f captures limit args).IfEnds s fun r t =>
      t.store.Confined outside ∧ ∀ x, r = .error x → x.isConfined := by
  have ha (m : Nat) : (Scoping.resolving outside).Assumed (evaluator host m) := by
    refine ⟨?_, fun {f c l} h => ?_, fun _ => trivial⟩
    · rw [Scoping.resolving_storeOk, Scoping.resolving_foreign]
      exact hh
    · rw [Scoping.Vouched, Scoping.resolving_storeOk, Scoping.resolving_foreign]
      exact ho m f c l h
  have hc : (Scoping.resolving outside).Closed f captures := ⟨fun h => h.elim, fun _ => hf⟩
  have hv : (Scoping.resolving outside).Vouched (evaluator host n) f captures limit :=
    hc.vouched (Scoping.eval_keeps ha) fun _ => trivial
  rw [Scoping.Vouched, Scoping.resolving_storeOk, Scoping.resolving_foreign] at hv
  exact hv args s hs

/-- A jump out of a node goes to one of its free labels. So a lambda that has no free label, nor has
any lambda nested in it, never fails on an unresolved jump, as long as the host and the closures
that are not of its making do not. -/
theorem label_scoping (host : Host) :
    (host.Keeps (fun _ => True) (·.isJump = false) → ∀ n node s,
      (eval host n node).IfEnds s fun r _ => ∀ l v, r = .error (.jump l v) → l.symbol ∈ node.free) ∧
    ∀ outside, host.Keeps (Store.Confined outside) (·.isConfined) →
      (∀ n f c l, outside f c l →
        (evaluator host n).Vouches (Store.Confined outside) (·.isConfined) f c l) →
      ∀ f, (Node.lambda f).Confined → ∀ n captures limit args s, s.store.Confined outside →
        ((evaluator host n).callLambda f captures limit args).IfEnds s fun r t =>
          t.store.Confined outside ∧ ∀ l, r ≠ .error (.fatal (.unresolvedGoto l)) := by
  refine ⟨fun hh n node s => eval_jump_free hh, ?_⟩
  intro outside hh ho f hf n captures limit args s hs
  refine Eval.IfEnds.mono (callLambda_confined hh ho hf hs) ?_
  rintro r t ⟨ht, hr⟩
  refine ⟨ht, ?_⟩
  rintro l rfl
  simpa [Signal.isConfined] using hr _ rfl

/-- A jump leaves the inner of two loops for the outer one, and not the lambda. -/
theorem break_outer_loop :
    let l : Label := ⟨0, none, .void⟩
    let jump : Node := .goto 0 .breakTo l none .void
    let f : Lambda := .mk 1 none (.loop 2 (.loop 3 jump none none) (some l) none) [] .void
    let ev := evaluator (Scripts.host {}) 5
    (ev.eval jump).run (.start none {}) =
        some (.error (.jump l .void), { State.start none {} with steps := 1 }) ∧
      l.symbol ∈ jump.free ∧
      ∃ r, (ev.callLambda f [] none []).run (.start none {}) = some (r, .start none {}) ∧
        r = .ok .void ∧ ∀ k, r ≠ .error (.fatal (.unresolvedGoto k)) := by
  intro l jump f ev
  obtain ⟨hj, hc⟩ := label_scoping (Scripts.host {})
  have hf : (Node.lambda f).Confined := by
    have hleaf : jump.Confined := ⟨by simp [jump], by simp [jump, Node.children]⟩
    have hloop (id : Nat) (b : Option Label) (n : Node) (hn : n.Confined) :
        (Node.loop id n b none).Confined := ⟨by simp, List.forall_mem_singleton.mpr hn⟩
    refine ⟨?_, List.forall_mem_singleton.mpr (hloop 2 (some l) _ (hloop 3 none _ hleaf))⟩
    rintro _ ⟨⟩
    simp [f, jump, l, Lambda.body, Node.free, Label.symbol]
  have hjump : (ev.eval jump).run (.start none {}) =
      some (.error (.jump l .void), { State.start none {} with steps := 1 }) := rfl
  have hcall :
      (ev.callLambda f [] none []).run (.start none {}) = some (.ok .void, .start none {}) :=
    rfl
  have hends :=
    hc (fun _ _ _ => False) Host.scripts_nil_keeps (fun _ _ _ _ h => h.elim) f hf 5 [] none []
    (.start none {}) fun _ _ _ h => absurd h (Array.not_mem_empty _)
  obtain ⟨_, hr⟩ := Eval.ifEnds_iff_run.mp hends _ _ hcall
  refine ⟨hjump, ?_, _, hcall, rfl, hr⟩
  exact Eval.ifEnds_iff_run.mp (hj Host.scripts_nil_keeps 5 jump _) _ _ hjump l .void rfl

end ExprTree
