import ExprTree.Proofs.Retyping
import ExprTree.Proofs.Walk

/-! Rewriting constants to nodes of the same type never fails, and keeps the types and the kinds of
all other nodes. -/
namespace ExprTree

namespace Rewriter

variable {σ : Type} {r : Rewriter σ}

/-- Every constant that a factory made has an answer of its own type. -/
def KeepsTypes (r : Rewriter σ) : Prop :=
  ∀ c, c.kind = .constant → c.Made → ∀ s, ∃ m t, (r.variant c (pure c)).run.run s = (.ok m, t) ∧
    m.ty = c.ty

theorem visitItem_retyped (hr : r.OnlyConstants) (hc : r.KeepsTypes) {i : Item}
    (hi : i.All Item.Made) : (r.visitItem i).Gives (fun _ => True) False i.Retyped := by
  have hrel : r.Relates (fun _ => True) False (fun k l => l = k) fun i j =>
      i.Retyped j ∧ ∀ p, i = .param p → j = i :=
    { only := hr.atoms
      advance := id
      keep := fun _ _ => ⟨Item.Retyped.refl _, fun _ _ => rfl⟩
      kind := fun h hn => h.1.kind (Node.kind_ne_of_isAtomic hn)
      param := fun h => Or.inl (by cases h.2 _ rfl; rfl)
      label := fun l => by
        rw [hr.label]
        exact Visit.gives_pure rfl }
  refine (hrel.visitItem_gives hi ?_ ?_).mono fun _ h => h.1.1
  · intro n hmade hatom
    cases n with
    | constant id v ty =>
      rintro s a t - hrun
      obtain ⟨m, u, hm, hty⟩ := hc (.constant id v ty) rfl hmade s
      rw [hm] at hrun
      cases hrun
      exact ⟨trivial, ⟨hty, fun h => absurd rfl h, fun h => absurd rfl h⟩, nofun⟩
    | param p =>
      rw [hr.variant (.param p) _ nofun]
      exact Visit.gives_pure ⟨Item.Retyped.refl _, fun _ _ => rfl⟩
    | _ => cases hatom
  · intro i a fresh out hi hatom _ hout
    have hm : Meets False i.Retyped out := by
      refine hout.retyped (fun _ _ h => by rw [h]) (fun _ _ h => h.1) (fun ps qs h hu => ?_) hi.here
      have heq : List.Forall₂ Eq ps qs := h.imp fun p q hpq => by cases hpq.2 p rfl; rfl
      rw [List.forall₂_eq_eq_eq] at heq
      exact heq ▸ hu
    cases out with
    | error e => exact hm
    | ok j =>
      refine ⟨hm, ?_⟩
      rintro p rfl
      cases hatom _ rfl

end Rewriter

/-- A rewriter that answers for constants alone, and with nodes of their types, rewrites every tree
that the factories built; each node of it comes back with its type and, unless it is a constant, of
its kind. -/
theorem typed_rewriting {σ : Type} (r : Rewriter σ) (n : Node) (hr : r.OnlyConstants)
    (hc : r.KeepsTypes) (hn : (Item.node n).All Item.Made) :
    (Item.node n).All fun i => ∀ m, i = .node m → ∀ a next, ∃ m' t,
      r.run m a next = (.ok m', t) ∧ m'.ty = m.ty ∧ (m.kind ≠ .constant → m'.kind = m.kind) := by
  refine hn.self.mono ?_
  rintro _ hm m rfl a next
  have hgives := (Rewriter.visitItem_retyped hr hc hm).of_map
  rcases hrun : r.run m a next with ⟨e | m', t⟩
  · exact (hgives (a, next) _ _ trivial hrun).elim
  · have halike := (hgives (a, next) _ _ trivial hrun).2
    exact ⟨m', t, rfl, halike.ty, halike.kind⟩

namespace TypedRewriting

/-- Replaces each constant by the default of its type. -/
def forget : Rewriter Unit := .ofConstants fun _ t _ => Visit.build fun id => .ok (.default id t)

def test : Node := .constant 0 (.bool true) .bool
def failure : Node := .constant 1 .null .str
def fail : Node := .unary 2 .throw (some failure) none .void

/-- One branch throws, so that it is not of the type of the other. -/
def guardedTest : Node := .conditional 3 test test fail .bool

theorem keepsTypes_forget : forget.KeepsTypes := by
  rintro c hc - ⟨a, next⟩
  cases c <;> cases hc
  rename_i id v t
  exact ⟨.default next t, ((), next + 1), rfl, rfl⟩

theorem made_guardedTest : (Item.node guardedTest).All Item.Made := by
  have htest : (Item.node test).All Item.Made := .mk (Or.inl rfl) nofun
  have hfailure : (Item.node failure).All Item.Made := .mk (Or.inr rfl) nofun
  have hfail : (Item.node fail).All Item.Made :=
    .mk ⟨none, rfl⟩ (List.forall_mem_singleton.mpr hfailure)
  refine .mk ⟨none, rfl⟩ ?_
  exact List.forall_mem_cons.mpr ⟨htest, List.forall_mem_cons.mpr
    ⟨htest, List.forall_mem_singleton.mpr hfail⟩⟩

end TypedRewriting

open TypedRewriting in
/-- The conditional is built again over defaults, its second branch still a throw. -/
theorem rewritten_branch_throws : (forget.OnlyConstants ∧ forget.KeepsTypes ∧
    (Item.node guardedTest).All Item.Made) ∧
    ∃ m t b, forget.run guardedTest () 4 = (.ok m, t) ∧ m.ty = .bool ∧ m.kind = .conditional ∧
      m = .conditional 8 (.default 4 .bool) (.default 5 .bool) b .bool ∧
      b = .unary 7 .throw (some (.default 6 .str)) none .void := by
  have h :=
    (typed_rewriting forget guardedTest (Rewriter.onlyConstants_ofConstants _) keepsTypes_forget
      made_guardedTest).here
  obtain ⟨m, t, hrun, hty, hkind⟩ := h guardedTest rfl () 4
  refine ⟨⟨Rewriter.onlyConstants_ofConstants _, keepsTypes_forget, made_guardedTest⟩, m, t, _,
    hrun, hty, hkind nofun, ?_, rfl⟩
  have hm := congrArg Prod.fst hrun
  exact (Except.ok.inj hm).symm

end ExprTree
