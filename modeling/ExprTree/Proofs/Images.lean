import ExprTree.Proofs.Rebuilding
import ExprTree.Proofs.Sharing

/-! Images of trees: the same tree but for what stands in the place of its constants, parameters and
labels. A rewriter that answers for those alone gives an image, where it gives something. -/
namespace ExprTree

open scoped Function

/-- The second item is the first one with constants and parameters exchanged by `A` and labels by
`T`; its other nodes satisfy `P`. -/
inductive Item.Image (T : Label → Label → Prop) (A : Node → Node → Prop) (P : Node → Prop) :
    Item → Item → Prop where
  | atom {n m : Node} (hn : n.isAtomic = true) (h : A n m) : Image T A P (.node n) (.node m)
  | compound {S : Item → Item → Prop} {i j : Item}
    (hi : ∀ n, i = .node n → n.isAtomic = false ∧ P n)
    (h : i.Over T S j) (hS : ∀ c d, S c d → Image T A P c d) : Image T A P i j

/-- Neither a quoted tree nor an extension. -/
def Node.isOrdinary : Node → Bool
  | .unary _ .quote _ _ _ | .extension .. => false
  | _ => true

theorem Node.isSealed_of_isOrdinary {n : Node} (h : n.isOrdinary = true) : n.isSealed = false := by
  cases n <;> first | rfl | cases h

/-- Constants, parameters and labels are exchanged for such of the same type, in trees without
quoted ones and extensions. -/
structure Item.Exchange (T : Label → Label → Prop) (A : Node → Node → Prop)
    (P : Node → Prop) : Prop where
  labelTy {k l : Label} (h : T k l) : l.ty = k.ty
  ty {n m : Node} (h : A n m) : m.ty = n.ty
  ordinary {n : Node} (h : P n) : n.isOrdinary = true

theorem Node.isAssignable_over {n : Node} {p : Parts n.shape} {id : Nat} :
    (n.over id p).isAssignable = n.isAssignable := by
  cases n <;> cases p <;> rfl

namespace Item.Image

variable {T : Label → Label → Prop} {A : Node → Node → Prop} {P : Node → Prop} {i j : Item}
  {n m : Node}

theorem of_atom (h : Image T A P (.node n) j) (hn : n.isAtomic = true) :
    ∃ m, j = .node m ∧ A n m := by
  cases h with
  | atom _ h => exact ⟨_, rfl, h⟩
  | compound hi => exact absurd hn (Bool.eq_false_iff.mp (hi n rfl).1)

/-- All else is over images of its parts. -/
theorem of_over (h : Image T A P i j) (hi : ∀ n, i = .node n → n.isAtomic = false) :
    (∀ n, i = .node n → P n) ∧ i.Over T (Image T A P) j := by
  cases h with
  | atom hn => exact absurd hn (Bool.eq_false_iff.mp (hi _ rfl))
  | compound hi h hS => exact ⟨fun n hn => (hi n hn).2, h.mono hS⟩

theorem kind (h : Image T A P (.node n) (.node m)) (hn : n.isAtomic = false) : m.kind = n.kind := by
  obtain ⟨-, h⟩ := h.of_over (by rintro _ ⟨⟩; exact hn)
  cases h with
  | node => exact Node.kind_over

theorem isAssignable (h : Image T A P (.node n) (.node m)) (hn : n.isAtomic = false) :
    m.isAssignable = n.isAssignable := by
  obtain ⟨-, h⟩ := h.of_over (by rintro _ ⟨⟩; exact hn)
  cases h with
  | node => exact Node.isAssignable_over

/-- An image has the type of the tree. -/
theorem ty (h : Image T A P (.node n) (.node m)) (hX : Item.Exchange T A P) : m.ty = n.ty := by
  suffices hty :
      ∀ i j, Image T A P i j → ∀ n m, i = .node n → j = .node m →
      m.ty = n.ty from hty _ _ h _ _ rfl rfl
  intro i j h
  induction h with
  | atom hn h =>
    rintro _ _ ⟨⟩ ⟨⟩
    exact hX.ty h
  | compound hi h hS ih =>
    rintro n m rfl rfl
    cases h with
    | node id hp =>
      exact Node.over_ty hp (fun _ _ => hX.labelTy) fun a b hab => ih _ _ hab a b rfl rfl

/-- And as far as the factories check, it may stand in its place. -/
theorem retyped (h : Image T A P i j) (hX : Item.Exchange T A P) (hA : ∀ n m, A n m → n.Alike m) :
    i.Retyped j := by
  have alike {n m : Node} (h : Image T A P (.node n) (.node m)) : n.Alike m := by
    by_cases hn : n.isAtomic = true
    · obtain ⟨_, ⟨⟩, h⟩ := h.of_atom hn
      exact hA _ _ h
    · have hn := Bool.eq_false_iff.mpr hn
      exact ⟨h.ty hX, fun _ => h.kind hn, fun _ => h.isAssignable hn⟩
  cases h with
  | atom hn h => exact hA _ _ h
  | compound hi h hS =>
    have himage := compound hi h hS
    cases h with
    | node => exact alike himage
    | switchCase id ht hb => exact ⟨ht.imp fun _ _ h => alike (hS _ _ h), alike (hS _ _ hb)⟩
    | catchClause id hv hf hb => exact alike (hS _ _ hb)
    | elementInit | assign | nested | list => trivial

end Item.Image

/-! ### Rewriting to images -/

/-- An image that is the same as the item is the item. -/
def Item.Exchanged (T : Label → Label → Prop) (A : Node → Node → Prop) (P : Node → Prop)
    (i j : Item) : Prop :=
  Image T A P i j ∧ (i.same j = true → j = i)

namespace Rewriter

open Visit

/-- The rewriter answers for constants and parameters by `A`, and for labels by `T`. -/
structure Exchanges {σ : Type} (r : Rewriter σ) (k : Nat) (fails : Prop) (T : Label → Label → Prop)
    (A : Node → Node → Prop) (P : Node → Prop) : Prop extends Item.Exchange T A P where
  only : r.OnlyAtoms
  label (l : Label) : (r.label l).Gives (k ≤ ·.2) fails (T l)
  atom {n : Node} (hn : n.isAtomic = true) (hP : P n) :
    (r.variant n (pure n)).Gives (k ≤ ·.2) fails (A n)
  sameLabel {l l' : Label} (h : T l l') (hs : Identified.same l l' = true) : l' = l
  same {n m : Node} (h : A n m) (hs : n.same m = true) : m = n
  written {n m : Node} (h : A n m) (hm : m.isAssignable = true) : m.kind = n.kind
  param {p : Param} {m : Node} (h : A (.param p) m) : m.kind = .parameter ∨ fails

variable {σ : Type} {r : Rewriter σ} {k : Nat} {fails : Prop} {T : Label → Label → Prop}
  {A : Node → Node → Prop} {P : Node → Prop}

theorem Exchanges.faithful (hr : r.Exchanges k fails T A P) :
    Item.Faithful T (Item.Exchanged T A P) where
  label := hr.sameLabel
  eq h := h.2
  ty h := h.1.ty hr.toExchange
  kind {n m} h hm := by
    by_cases hn : n.isAtomic = true
    · obtain ⟨_, ⟨⟩, hA⟩ := h.1.of_atom hn
      exact hr.written hA hm
    · exact h.1.kind (Bool.eq_false_iff.mpr hn)

theorem Exchanges.relates (hr : r.Exchanges k fails T A P) :
    r.Relates (k ≤ ·.2) fails T (Item.Exchanged T A P) where
  only := hr.only
  advance := Nat.le_succ_of_le
  keep {i j} h hs := by
    rw [Item.same_comm] at hs
    obtain rfl := h.2 hs
    exact h
  kind h := h.1.kind
  param h := by
    obtain ⟨_, ⟨⟩, hA⟩ := h.1.of_atom rfl
    exact hr.param hA
  label := hr.label

/-- What an item is visited to is an image of it, as is what each item below it is visited to; and
the visit fails only if updating may. -/
theorem Exchanges.visitItem_gives (hr : r.Exchanges k fails T A P) {i : Item}
    (hi : i.All fun i => i.Made ∧ i.Older k ∧ ∀ n, i = .node n → P n)
    (hu : ∀ (i : Item) fresh out, i.Made → i.Updated T (Item.Exchanged T A P) fresh out →
      Meets fails (fun _ => True) out) :
    (r.visitItem i).Gives (k ≤ ·.2) fails fun j => i.Exchanged T A P j ∧
      i.All (r.Visited (k ≤ ·.2)) := by
  refine hr.relates.visitItem_gives hi ?_ ?_
  · rintro n ⟨-, -, hn⟩ hatom
    exact (hr.atom hatom (hn n rfl)).mono fun m hm =>
      ⟨.atom hatom hm, fun hs => congrArg Item.node (hr.same hm hs)⟩
  · intro i a fresh out hall hatom hfresh hout
    obtain ⟨hmade, holder, hnode⟩ := hall.here
    have hok := hu i fresh out hmade hout
    cases out with
    | error e => exact hok
    | ok j =>
      have hsealed (n : Node) (hn : i = .node n) : n.isSealed = false :=
        Node.isSealed_of_isOrdinary (hr.ordinary (hnode n hn))
      obtain ⟨hover, hid⟩ := hout.over hr.faithful hsealed hmade
      refine ⟨.compound (fun n hn => ⟨hatom n hn, hnode n hn⟩) hover fun _ _ h => h.1, fun hs => ?_⟩
      rcases hid with rfl | hid
      · rfl
      · have hlt := holder fresh ((Item.identity_eq_of_same hs).trans hid)
        exact absurd hfresh (by omega)

end Rewriter

end ExprTree
