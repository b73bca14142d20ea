import ExprTree.Proofs.Images
import ExprTree.Proofs.JumpTargets

/-! Trees are linked with their images, if the exchanged constants, parameters and labels are. -/
namespace ExprTree

open scoped Function

section

variable {T T' : Label → Label → Prop} {R : Item → Item → Prop} {i j : Item}

/-- Related parts are related by whatever holds of the labels of the one and those of the other. -/
theorem Parts.Rel.retarget {s : Shape} {p q : Parts s} (h : p.Rel T R q)
    (hT : ∀ k ∈ p.labels, ∀ l, T k l → T' k l) : p.Rel T' R q := by
  cases p <;> cases q
  case loop b c _ b' c' _ =>
    have label? {k l : Option Label} (hk : ∀ a ∈ k, a ∈ b.toList ++ c.toList)
        (h : Option.Rel T k l) :
        Option.Rel T' k l := by
      cases h with
      | none => exact .none
      | some h => exact .some (hT _ (hk _ rfl) _ h)
    obtain ⟨hb, hc, hx⟩ := h
    exact ⟨label? (by simp +contextual) hb, label? (by simp +contextual) hc, hx⟩
  case label | goto => exact ⟨hT _ (List.mem_singleton_self _) _ h.1, h.2⟩
  all_goals exact h

theorem Item.Over.retarget (h : i.Over T R j)
    (hT : ∀ n, i = .node n → ∀ k ∈ n.targets, ∀ l, T k l → T' k l) : i.Over T' R j := by
  cases h with
  | node id hp hw =>
    exact .node id (hp.retarget fun k hk => hT _ rfl k (Parts.labels_subset k hk)) hw
  | switchCase id ht hb => exact .switchCase id ht hb
  | catchClause id hv hf hb => exact .catchClause id hv hf hb
  | elementInit id ha => exact .elementInit id ha
  | assign id hv => exact .assign id hv
  | nested id hb => exact .nested id hb
  | list id hi => exact .list id hi

end

/-- What images have to be for the link: names for names, constants and parameters for such. -/
structure Link.Images (L : Link) (T : Label → Label → Prop) (A : Node → Node → Prop)
    (P : Node → Prop) : Prop
    extends Item.Exchange T A P where
  node {n m : Node} (h : (Item.node n).Image T A P (.node m)) : L.node n m
  atom {n m : Node} (h : A n m) (hn : n.isAtomic = true) : m.isAtomic = true
  param {p q : Param} (h : A (.param p) (.param q)) : L.Names p q
  target {n : Node} {k l : Label} (hn : P n) (hk : k ∈ n.targets) (h : T k l) : L.Targets k l
  lookup {d e : Environment} {i j : Nat} (h : L.env d e) (hi : L.slot i j) : e.lookup j = d.lookup i
  label {k k' l l' : Label} (h : L.label k k') (hl : L.label l l') : k.id = l.id ↔ k'.id = l'.id

theorem Link.Images.covers {L : Link} {T : Label → Label → Prop} {A : Node → Node → Prop}
    {P : Node → Prop} (hL : L.Images T A P) : L.Covers (Item.Image T A P) where
  node := hL.node
  param h := by
    obtain ⟨_, ⟨⟩, hA⟩ := h.of_atom rfl
    exact hL.param hA
  ty h := h.ty hL.toExchange
  atom h hn := by
    obtain ⟨_, ⟨⟩, hA⟩ := h.of_atom hn
    exact hL.atom hA hn
  compound {i j} h hi := by
    have hatom (n : Node) (hn : i = .node n) : n.isAtomic = false := by
      have hwhole := hi n hn
      cases n <;> first | rfl | cases hwhole
    obtain ⟨hP, hover⟩ := h.of_over hatom
    exact hover.retarget fun n hn k hk l => hL.target (hP n hn) hk
  quote h := by
    obtain ⟨hP, -⟩ := h.of_over (by rintro _ ⟨⟩; rfl)
    exact absurd (hL.ordinary (hP _ rfl)) Bool.false_ne_true
  lookup := hL.lookup
  label := hL.label

end ExprTree
