import ExprTree.Proofs.Updating
import ExprTree.Proofs.Walk

/-! Sharing is exact under the rewriting of constants: what is visited comes back as it is exactly
when all constants below it do. -/
namespace ExprTree

/-- `kept` holds of all constants that a walk reaches from the item. -/
def Item.Kept (kept : Node → Prop) (i : Item) : Prop :=
  i.All fun j => ∀ c, j = .node c → c.kind = .constant → kept c

/-- The item was made before the id `k` was given out. -/
def Item.Older (k : Nat) (i : Item) : Prop := ∀ id, i.identity = .node id → id < k

/-- The answer is the item itself where `kept` holds of all constants below it, and another one
elsewhere. -/
structure Item.Exact (kept : Node → Prop) (i j : Item) : Prop where
  same_iff : i.same j = true ↔ i.Kept kept
  eq : i.Kept kept → j = i

namespace Item

variable {kept : Node → Prop} {i j : Item} {k fresh : Nat}

theorem same_self (i : Item) : i.same i = true := by
  cases i <;> simp [same, Identified.same, Node.same]

theorem same_comm (i j : Item) : i.same j = j.same i := by
  cases i <;> cases j <;> simp [same, Identified.same, Node.same, eq_comm, Bool.beq_comm]

theorem Exact.of_same (h : i.Exact kept j) (hs : i.same j = true) : i.Exact kept i :=
  ⟨⟨fun _ => h.same_iff.mp hs, fun _ => i.same_self⟩, fun _ => rfl⟩

theorem kept_constant {c : Node} (hc : c.kind = .constant) : (node c).Kept kept ↔ kept c := by
  constructor
  · intro h
    exact h.here c rfl hc
  · intro h
    refine .mk ?_ ?_
    · rintro d ⟨⟩ _
      exact h
    · cases c <;> cases hc
      exact nofun

theorem kept_iff (hi : ∀ n, i = .node n → n.kind ≠ .constant) :
    i.Kept kept ↔ ∀ c ∈ i.children, c.Kept kept := by
  constructor
  · intro h c hc
    exact h.child hc
  · intro h
    exact .mk (fun n hn hkind => absurd hkind (hi n hn)) h

theorem Older.of_identity {n : Node} {id : Nat} (hn : n.identity = .node id) (hid : id < k) :
    (node n).Older k := by
  intro id' h
  cases hn.symm.trans h
  exact hid

/-- An item built anew has an id that none has had before. -/
theorem Renewed.not_same (h : i.Renewed fresh j) (hi : i.Older k) (hk : k ≤ fresh) :
    ¬i.same j = true := by
  intro hs
  have hid := identity_eq_of_same hs
  rw [h.identity] at hid
  have hlt := hi fresh hid
  omega

end Item

namespace Rewriter

open Visit

variable {σ : Type} {r : Rewriter σ} {kept : Node → Prop} {k : Nat}

/-- What becomes of a constant hangs on the constant alone, and so does whether it is kept. -/
def Decides (r : Rewriter σ) (k : Nat) (kept : Node → Prop) : Prop :=
  ∀ c, c.kind = .constant → (Item.node c).Older k →
    (r.variant c (pure c)).Gives (k ≤ ·.2) True fun m => (Item.node c).Exact kept (.node m)

theorem visitItem_exact (hr : r.OnlyConstants) (hc : r.Decides k kept) {i : Item}
    (hi : i.All (Item.Older k)) :
    (r.visitItem i).Gives (k ≤ ·.2) True fun j =>
      i.Exact kept j ∧ i.All (r.Visited (k ≤ ·.2)) := by
  have hrel : r.Relates (k ≤ ·.2) True (fun k l => l = k) fun i j => i.Exact kept j ∧
      ∀ n m, i = .node n → j = .node m → n.kind ≠ .constant → m.kind = n.kind :=
    { only := hr.atoms
      advance := Nat.le_succ_of_le
      keep := by
        intro i j h hs
        rw [Item.same_comm] at hs
        refine ⟨h.1.of_same hs, ?_⟩
        rintro n m rfl ⟨⟩ _
        rfl
      kind := fun h hn => h.2 _ _ rfl rfl (Node.kind_ne_of_isAtomic hn)
      param := fun _ => Or.inr trivial
      label := fun l => by
        rw [hr.label]
        exact gives_pure rfl }
  refine (hrel.visitItem_gives hi ?_ ?_).mono fun j hj => ⟨hj.1.1, hj.2⟩
  · intro n hold hatom
    by_cases hn : n.kind = .constant
    · refine (hc n hn hold).mono fun m hm => ⟨hm, ?_⟩
      rintro _ _ ⟨⟩ ⟨⟩ hkind
      exact absurd hn hkind
    · have hkept : (Item.node n).Kept kept := by
        refine .mk ?_ ?_
        · rintro c ⟨⟩ hkind
          exact absurd hkind hn
        · cases n <;> cases hatom <;> exact nofun
      rw [hr.variant n _ hn]
      refine gives_pure ⟨⟨⟨fun _ => hkept, fun _ => Item.same_self _⟩, fun _ => rfl⟩, ?_⟩
      rintro _ _ ⟨⟩ ⟨⟩ _
      rfl
  · intro i a fresh out hi hatom hs hout
    have hconst (n : Node) (hn : i = .node n) : n.kind ≠ .constant :=
      Node.kind_ne_of_isAtomic (hatom n hn)
    have hm := hout.meets (K := Item.Kept kept) Item.same_label_of_eq
      fun _ _ h => h.1.same_iff
    rw [← Item.kept_iff hconst] at hm
    cases out with
    | error e => trivial
    | ok j =>
      rcases hm with ⟨hkept, rfl⟩ | ⟨hkept, hnew⟩
      · refine ⟨⟨⟨fun _ => hkept, fun _ => j.same_self⟩, fun _ => rfl⟩, ?_⟩
        rintro n m rfl ⟨⟩ _
        rfl
      · refine ⟨⟨?_, fun h => absurd h hkept⟩, fun n m hn hm _ => hnew.kind n m hn hm⟩
        have hnot := hnew.not_same hi.here hs
        exact ⟨fun h => absurd h hnot, fun h => absurd h hkept⟩

/-- The rewriter that overrides nothing gives back what it is given. -/
theorem visitItem_identity (i : Item) (a : σ) :
    ((identity : Rewriter σ).visitItem i).Gives (·.1 = a) False fun j => j = i := by
  have hr : (identity : Rewriter σ).Relates (·.1 = a) False (fun k l => l = k) fun i j => j = i :=
    { only := onlyConstants_identity.atoms
      advance := id
      keep := fun _ _ => rfl
      kind := by rintro n _ ⟨⟩ _; rfl
      param := by rintro p _ ⟨⟩; exact Or.inl rfl
      label := fun _ => gives_pure rfl }
  have hall : i.All fun _ => True := Item.all_of_forall (fun _ => trivial) i
  refine (hr.visitItem_gives hall ?_ ?_).mono fun j hj => hj.1
  · intro n _ _
    exact gives_pure rfl
  · intro i b fresh out _ _ _ hout
    have hm := hout.meets (K := fun _ => True) Item.same_label_of_eq fun i j h => by
      rw [h]
      exact ⟨fun _ => trivial, fun _ => i.same_self⟩
    cases out with
    | error e => exact hm fun _ _ => trivial
    | ok j =>
      rcases hm with ⟨_, hj⟩ | ⟨hnot, _⟩
      · exact hj
      · exact absurd (fun _ _ => trivial) hnot

end Rewriter

/-- Where a rewriter answers for constants alone, what a walk visits comes back as it is exactly if
all constants below it do: the tree, when it is rewritten, and then whatever is below it. The
rewriter that overrides nothing gives back the tree, and cannot fail. -/
theorem exact_sharing {σ : Type} (r : Rewriter σ) (kept : Node → Prop) (k : Nat) (n : Node)
    (hr : r.OnlyConstants) (hc : r.Decides k kept) (hn : (Item.node n).All (Item.Older k)) :
    (∀ a next m t, k ≤ next → r.run n a next = (.ok m, t) → (Item.node n).Exact kept (.node m) ∧
      (Item.node n).All fun i => (∃ s j t, k ≤ s.2 ∧ (r.visitItem i).run.run s = (.ok j, t)) ∧
        ∀ s j t, k ≤ s.2 → (r.visitItem i).run.run s = (.ok j, t) → i.Exact kept j) ∧
    ∀ (m : Node) (a : σ) (next : Nat),
      ∃ next', (Rewriter.identity : Rewriter σ).run m a next = (.ok m, a, next') := by
  constructor
  · intro a next m t hk hrun
    have hroot := (Rewriter.visitItem_exact hr hc hn).of_map (a, next) _ _ hk hrun
    refine ⟨hroot.2.1, (hroot.2.2.and hn.self).mono ?_⟩
    rintro i ⟨hvisited, hi⟩
    refine ⟨hvisited, ?_⟩
    intro s j t hs hj
    exact (Rewriter.visitItem_exact hr hc hi s _ _ hs hj).2.1
  · intro m a next
    rcases hrun : (Rewriter.identity : Rewriter σ).run m a next with ⟨e | m', b, next'⟩
    · exact ((Rewriter.visitItem_identity (.node m) a).of_map (a, next) _ _ rfl hrun).elim
    · obtain ⟨rfl, hm⟩ := (Rewriter.visitItem_identity (.node m) a).of_map (a, next) _ _ rfl hrun
      cases hm
      exact ⟨next', rfl⟩

namespace Sharing

/-- Replaces each `true` by a new `false`. -/
def falsify : Rewriter Unit :=
  .ofConstants fun v _ descend => match v with
    | .bool true => Visit.build fun id => .ok (.constant id (.bool false) .bool)
    | _ => descend

def negated : Node := .unary 2 (.arith .not) (some (.constant 1 (.bool false) .bool)) none .bool

/-- True and not false. -/
def both : Node := .binary 3 .andAlso (.constant 0 (.bool true) .bool) negated none none .bool

/-- The constants that stay. -/
def NotTrue (c : Node) : Prop := ∀ id t, c ≠ .constant id (.bool true) t

theorem decides_falsify : falsify.Decides 4 NotTrue := by
  intro c hc hold
  cases c <;> cases hc
  rename_i id v t
  by_cases hv : v = .bool true
  · subst hv
    have hnot : ¬(Item.node (.constant id (.bool true) t)).Kept NotTrue := by
      rw [Item.kept_constant rfl]
      exact fun h => h id t rfl
    have hv : falsify.variant (.constant id (.bool true) t) (pure (.constant id (.bool true) t)) =
        Visit.build fun id => .ok (.constant id (.bool false) .bool) := rfl
    rw [hv]
    refine Visit.gives_build (fun _ _ => Nat.le_succ_of_le) fun a fresh hfresh => ?_
    refine ⟨⟨fun hs => ?_, fun h => absurd h hnot⟩, fun h => absurd h hnot⟩
    have hid := hold id rfl
    simp only [Item.same, same, Node.same, Node.identity, Identity.node.injEq, decide_eq_true_eq]
      at hs
    omega
  · have hd :
        falsify.variant (.constant id v t) (pure (.constant id v t)) = pure (.constant id v t) := by
      cases v with
      | bool b =>
        cases b with
        | false => rfl
        | true => exact absurd rfl hv
      | _ => rfl
    have hkept : (Item.node (.constant id v t)).Kept NotTrue := by
      rw [Item.kept_constant rfl]
      rintro _ _ ⟨⟩
      exact hv rfl
    rw [hd]
    exact Visit.gives_pure ⟨⟨fun _ => hkept, fun _ => Item.same_self _⟩, fun _ => rfl⟩

theorem older_both : (Item.node both).All (Item.Older 4) := by
  have hleft : (Item.node (.constant 0 (.bool true) .bool)).All (Item.Older 4) :=
    .mk (.of_identity rfl (by decide)) nofun
  have hinner : (Item.node (.constant 1 (.bool false) .bool)).All (Item.Older 4) :=
    .mk (.of_identity rfl (by decide)) nofun
  have hright : (Item.node negated).All (Item.Older 4) :=
    .mk (.of_identity rfl (by decide)) (List.forall_mem_singleton.mpr hinner)
  refine .mk (.of_identity rfl (by decide)) ?_
  exact List.forall_mem_cons.mpr ⟨hleft, List.forall_mem_singleton.mpr hright⟩

end Sharing

open Sharing in
/-- The right operand is shared by the new node. -/
theorem right_operand_shared : (falsify.OnlyConstants ∧ falsify.Decides 4 NotTrue ∧
    (Item.node both).All (Item.Older 4)) ∧
    ∃ m, falsify.run both () 4 = (.ok m, (), 7) ∧ (Item.node both).Exact NotTrue (.node m) ∧
      (∃ m', m = .binary 6 .andAlso m' negated none none .bool ∧ ¬Node.same both m = true) := by
  have h :=
    (exact_sharing falsify NotTrue 4 both (Rewriter.onlyConstants_ofConstants _) decides_falsify
      older_both).1 () 4 _ _
    (Nat.le_refl 4) rfl
  exact ⟨⟨Rewriter.onlyConstants_ofConstants _, decides_falsify, older_both⟩, _, rfl, h.1, _,
    rfl, by decide⟩

end ExprTree
