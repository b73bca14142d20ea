import ExprTree.Proofs.Factories
import ExprTree.Proofs.Items
import ExprTree.Proofs.Visit

/-! What updating gives, where it gives something: the item itself when all parts are the same, else
an item of the same form with a fresh id. -/
namespace ExprTree

open scoped Function

theorem Meets.bind {ε α β : Type} {Q : β → Prop} {x : Except ε α} {f : α → Except ε β}
    (h : ∀ a, Meets True Q (f a)) : Meets True Q (x >>= f) := by
  cases x with
  | error e => trivial
  | ok a => exact h a

theorem Meets.map {ε α β : Type} {fails : Prop} {Q : β → Prop} {f : α → β} {x : Except ε α}
    (h : Meets fails (fun a => Q (f a)) x) : Meets fails Q (f <$> x) := by
  cases x with
  | error e => exact h
  | ok a => exact h

theorem Meets.mono {ε α : Type} {fails : Prop} {Q Q' : α → Prop} {x : Except ε α}
    (h : Meets fails Q x) (hQ : ∀ a, Q a → Q' a) : Meets fails Q' x := by
  cases x with
  | error e => exact h
  | ok a => exact hQ a h

/-- The node with another id and over other parts, and of another type where that is inferred from
them. -/
def Node.overAs (t : Ty) (id : Nat) : (n : Node) → Parts n.shape → Node
  | .binary _ op _ _ m _ _, .binary l r c => .binary id op l r m c t
  | .unary _ op _ m ty, .unary x =>
    .unary id op x m (if op.takesType || op == .throw then ty else t)
  | .invoke .., .invoke f as => .invoke id f as t
  | .index _ _ i _ _, .index x as => .index id x i as t
  | n, p => n.over id p

/-- A node built anew in the place of another. -/
structure Node.Renewed (fresh : Nat) (n m : Node) : Prop where
  kind : m.kind = n.kind
  isAssignable : m.isAssignable = n.isAssignable
  identity : m.identity = .node fresh

namespace Node

theorem rebuild_unary_overAs {id fresh : Nat} {op : UnaryOp} {x y : Option Node} {m : Option Method}
    {t : Ty} :
    Meets True (fun k => ∃ u, k = (unary id op x m t).overAs u fresh (.unary y))
      ((unary id op x m t).rebuild fresh (.unary y)) := by
  cases hk : (unary id op x m t).rebuild fresh (.unary y) with
  | error e => trivial
  | ok k =>
    by_cases hop : op = .throw
    · subst hop
      cases y <;>
        simp only [rebuild, Build.unary, Build.bind_ok, Build.pure_ok] at hk <;>
        obtain ⟨_, _, _, _, rfl⟩ := hk <;>
        exact ⟨t, rfl⟩
    · cases y with
      | none => cases op <;> first | cases hk | exact absurd rfl hop
      | some y =>
        have hne : (op == .throw) = false := beq_eq_false_iff_ne.mpr hop
        obtain ⟨u, rfl, hu⟩ := Build.unary_shape hop hk
        refine ⟨u, ?_⟩
        cases htakes : op.takesType with
        | true =>
          rw [htakes, Bool.true_or, if_pos rfl] at hu
          cases Build.unaryType_target hu htakes
          rw [overAs, ite_self]
        | false => rw [overAs, htakes, hne, Bool.or_self, if_neg Bool.false_ne_true]

/-- Whatever a factory checks, what it returns is the node over the new parts, but for an inferred
type. -/
theorem rebuild_overAs (fresh : Nat) (n : Node) (p : Parts n.shape) :
    Meets True (fun m => ∃ t, m = n.overAs t fresh p) (n.rebuild fresh p) := by
  cases n <;> cases p
  case constant | default | param => exact ⟨.void, rfl⟩
  case unary => exact rebuild_unary_overAs
  case new c args =>
    refine Meets.map (Meets.bind fun _ => ?_)
    exact ⟨.void, rfl⟩
  case newArray id form e items items' =>
    cases form
    · exact Meets.bind fun _ => ⟨.void, rfl⟩
    · exact Meets.bind fun _ => Meets.bind fun _ => ⟨.void, rfl⟩
  case lambda f body ps =>
    refine Meets.map (Meets.bind fun _ => ?_)
    dsimp only
    split
    · exact ⟨.void, rfl⟩
    · exact Meets.bind fun _ => ⟨.void, rfl⟩
  -- The other factories are checks, chosen by cases on what is given, before the node.
  all_goals
    simp only [rebuild, Build.binary, Build.typeTest, Build.conditional, Build.call, Build.invoke,
      Build.member, Build.index, Build.block, Build.loop, Build.label, Build.goto, Build.switch,
      Build.guarded, Build.listInit, Build.memberInit]
    repeat' first
      | exact ⟨_, rfl⟩
      | exact ⟨.void, rfl⟩
      | refine Meets.bind fun _ => ?_
      | split
      | trivial

variable {n : Node} {p : Parts n.shape}

theorem renewed_overAs (fresh : Nat) (t : Ty) (h : n.parts.same p = false) :
    n.Renewed fresh (n.overAs t fresh p) := by
  cases n <;> cases p
  case constant | default | param => cases h
  all_goals exact ⟨rfl, rfl, rfl⟩

/-- Whatever a factory checks, what it returns has its own kind and the given id. -/
theorem rebuild_meets (fresh : Nat) (h : n.parts.same p = false) :
    Meets True (n.Renewed fresh) (n.rebuild fresh p) := by
  refine (rebuild_overAs fresh n p).mono ?_
  rintro _ ⟨t, rfl⟩
  exact renewed_overAs fresh t h

end Node

/-! ### Sameness of related parts -/

section

variable {α : Type} [Identified α] {f : α → Item} {K : Item → Prop} {S : α → α → Prop}

theorem sameOption_iff {x y : Option α} (hS : ∀ a b, S a b → (same a b = true ↔ K (f a)))
    (h : Option.Rel S x y) : same x y = true ↔ ∀ c ∈ x.toList.map f, K c := by
  cases h with
  | none => simp [same, sameOption]
  | some h => simpa [same, sameOption] using hS _ _ h

theorem sameList_iff {xs ys : List α} (hS : ∀ a b, S a b → (same a b = true ↔ K (f a)))
    (h : List.Forall₂ S xs ys) : same xs ys = true ↔ ∀ c ∈ xs.map f, K c := by
  induction h with
  | nil => simp [same, sameList]
  | cons h _ ih =>
    rw [List.map_cons, List.forall_mem_cons, ← hS _ _ h, ← ih]
    exact Bool.and_eq_true_iff

end

namespace Item

/-- A form of items. They are the same if what they are made of is. -/
structure Form {α : Type} [Identified α] (f : α → Item) : Prop where
  same (a b : α) : (f a).same (f b) = Identified.same a b
  injective : f.Injective

namespace Form

theorem node : Form .node := ⟨fun _ _ => rfl, fun _ _ => node.inj⟩

theorem lambda : Form .lambda where
  same := same_lambda
  injective := by rintro _ _ ⟨⟩; rfl

theorem new : Form .new where
  same := same_new
  injective := by rintro _ _ ⟨⟩; rfl

theorem param : Form .param where
  same := same_param
  injective := by rintro _ _ ⟨⟩; rfl

theorem switchCase : Form .switchCase := ⟨fun _ _ => rfl, fun _ _ => switchCase.inj⟩

theorem catchClause : Form .catchClause := ⟨fun _ _ => rfl, fun _ _ => catchClause.inj⟩

theorem elementInit : Form .elementInit := ⟨fun _ _ => rfl, fun _ _ => elementInit.inj⟩

theorem memberBinding : Form .memberBinding := ⟨fun _ _ => rfl, fun _ _ => memberBinding.inj⟩

variable {α : Type} [Identified α] {f : α → Item} {R : Item → Item → Prop} {K : Item → Prop}

theorem same_iff (hf : Form f) (hR : ∀ i j, R i j → (i.same j = true ↔ K i)) (a b : α)
    (h : (R on f) a b) : Identified.same a b = true ↔ K (f a) := by
  rw [← hf.same]
  exact hR _ _ h

theorem eq_of_same (hf : Form f) (hR : ∀ i j, R i j → i.same j = true → j = i) (a b : α)
    (h : (R on f) a b) (hs : Identified.same a b = true) : b = a :=
  hf.injective (hR _ _ h ((hf.same a b).trans hs))

end Form

theorem same_label_of_eq (k l : Label) (h : l = k) : Identified.same k l = true := by
  rw [h]
  exact beq_self_eq_true k.id

theorem same_label? {T : Label → Label → Prop} (hT : ∀ k l, T k l → Identified.same k l = true)
    {k l : Option Label} (h : Option.Rel T k l) : Identified.same k l = true := by
  cases h with
  | none => rfl
  | some h => exact hT _ _ h

end Item

/-- Where an item comes back the same exactly if `K` holds of it, parts do exactly if `K` holds of
them all. -/
theorem Parts.same_iff {T : Label → Label → Prop} {R : Item → Item → Prop} {K : Item → Prop}
    (hT : ∀ k l, T k l → Identified.same k l = true) (hR : ∀ i j, R i j → (i.same j = true ↔ K i))
    {s : Shape} {p q : Parts s} (h : p.Rel T R q) :
    p.same q = true ↔ ∀ c ∈ p.items, K c := by
  have hnode := Item.Form.node.same_iff hR
  have hnew := Item.Form.new.same_iff hR
  have hlambda := Item.Form.lambda.same_iff hR
  have hparam := Item.Form.param.same_iff hR
  have hcase := Item.Form.switchCase.same_iff hR
  have hclause := Item.Form.catchClause.same_iff hR
  have hinit := Item.Form.elementInit.same_iff hR
  have hbinding := Item.Form.memberBinding.same_iff hR
  cases p <;> cases q <;> simp only [Parts.Rel] at h
  all_goals simp only [Parts.same, Parts.items, Bool.and_eq_true, List.forall_mem_append,
    List.forall_mem_cons]
  case leaf => simp
  case binary => rw [hnode _ _ h.1, hnode _ _ h.2.1, sameOption_iff hlambda h.2.2]; simp [and_assoc]
  case unary | member | extension => exact sameOption_iff hnode h
  case typeTest => rw [hnode _ _ h]; simp
  case conditional => rw [hnode _ _ h.1, hnode _ _ h.2.1, hnode _ _ h.2.2]; simp [and_assoc]
  case call => rw [sameOption_iff hnode h.1, sameList_iff hnode h.2]
  case invoke | index => rw [hnode _ _ h.1, sameList_iff hnode h.2]
  case new | newArray => exact sameList_iff hnode h
  case lambda => rw [hnode _ _ h.1, sameList_iff hparam h.2]
  case block => rw [sameList_iff hparam h.1, sameList_iff hnode h.2]
  case loop => rw [hnode _ _ h.2.2, Item.same_label? hT h.1, Item.same_label? hT h.2.1]; simp
  case label | goto => rw [hT _ _ h.1, sameOption_iff hnode h.2]; simp
  case switch =>
    rw [hnode _ _ h.1, sameList_iff hcase h.2.1, sameOption_iff hnode h.2.2]; simp [and_assoc]
  case guarded =>
    rw [hnode _ _ h.1, sameList_iff hclause h.2.1, sameOption_iff hnode h.2.2.1,
      sameOption_iff hnode h.2.2.2]
    simp [and_assoc]
  case listInit => rw [hnew _ _ h.1, sameList_iff hinit h.2]
  case memberInit => rw [hnew _ _ h.1, sameList_iff hbinding h.2]

namespace Item

def identity : Item → Identity
  | .node n => n.identity
  | .switchCase c => .node c.id
  | .catchClause h => .node h.id
  | .elementInit i => .node i.id
  | .memberBinding b => .node b.id

theorem identity_eq_of_same {i j : Item} (h : i.same j = true) : i.identity = j.identity := by
  cases i <;> cases j <;> simp_all [same, Identified.same, Node.same, identity]

/-- An item built anew in the place of another. -/
structure Renewed (fresh : Nat) (i j : Item) : Prop where
  identity : j.identity = .node fresh
  kind (n m : Node) : i = .node n → j = .node m → m.kind = n.kind

variable {T : Label → Label → Prop} {R : Item → Item → Prop} {K : Item → Prop} {fresh : Nat}
  {i : Item} {out : Build.Result Item}

/-- An item is kept when all below it came back the same, and else built anew, if it can be. -/
theorem Updated.meets (h : i.Updated T R fresh out) (hT : ∀ k l, T k l → Identified.same k l = true)
    (hR : ∀ i j, R i j → (i.same j = true ↔ K i)) :
    Meets (¬∀ c ∈ i.children, K c) (fun j => ((∀ c ∈ i.children, K c) ∧ j = i) ∨
      (¬(∀ c ∈ i.children, K c) ∧ i.Renewed fresh j)) out := by
  have hchoice {α : Type} {f : α → Item} {b : Bool} {x : α} {y : Build.Result α}
      (hb : b = true ↔ ∀ c ∈ (f x).children, K c)
      (hy : b = false → Meets True (fun a => (f x).Renewed fresh (f a)) y) :
      Meets (¬∀ c ∈ (f x).children, K c) (fun j => ((∀ c ∈ (f x).children, K c) ∧ j = f x) ∨
        (¬(∀ c ∈ (f x).children, K c) ∧ (f x).Renewed fresh j)) (f <$> if b then .ok x else y) := by
    rw [← hb]
    cases b with
    | true => exact Or.inl ⟨rfl, rfl⟩
    | false =>
      have hy := hy rfl
      refine Meets.map ?_
      rw [if_neg Bool.false_ne_true]
      cases y with
      | error e => exact Bool.false_ne_true
      | ok a => exact Or.inr ⟨Bool.false_ne_true, hy⟩
  have hnode := Form.node.same_iff hR
  have hparam := Form.param.same_iff hR
  cases h with
  | @node n parts hs hp =>
    refine hchoice ?_ fun hb => ?_
    · rw [Parts.same_iff hT hR hp, children, hs]
      rfl
    · have hr := Node.rebuild_meets fresh hb
      cases hm : n.rebuild fresh parts with
      | error e => trivial
      | ok m =>
        rw [hm] at hr
        exact ⟨hr.identity, by rintro _ _ ⟨⟩ ⟨⟩; exact hr.kind⟩
  | hidden hs => exact Or.inl ⟨by simp [children, hs], rfl⟩
  | switchCase ht hb =>
    refine hchoice ?_ fun _ => Meets.bind fun _ => ⟨rfl, by rintro _ _ ⟨⟩⟩
    rw [Bool.and_eq_true, sameList_iff hnode ht, hnode _ _ hb]
    simp only [children, List.forall_mem_append, List.forall_mem_singleton]
  | @catchClause h var filter body hv hf hb =>
    refine hchoice ?_ fun _ => ?_
    · rw [Bool.and_eq_true, Bool.and_eq_true, hnode _ _ hb, sameOption_iff hnode hf,
        sameOption_iff hparam hv]
      simp only [children, List.forall_mem_append, List.forall_mem_singleton, and_assoc]
    · refine Meets.bind fun _ => ?_
      cases var <;> cases filter <;> exact Meets.bind fun _ => Meets.bind fun _ =>
        ⟨rfl, by rintro _ _ ⟨⟩⟩
  | elementInit ha =>
    refine hchoice ?_ fun _ => Meets.bind fun _ => Meets.bind fun _ => ⟨rfl, by rintro _ _ ⟨⟩⟩
    rw [sameList_iff hnode ha, children]
  | assign hv =>
    refine hchoice ?_ fun _ => Meets.bind fun _ => Meets.bind fun _ => ⟨rfl, by rintro _ _ ⟨⟩⟩
    rw [hnode _ _ hv, children, List.forall_mem_singleton]
  | nested hb =>
    refine hchoice ?_ fun _ => Meets.bind fun _ => ⟨rfl, by rintro _ _ ⟨⟩⟩
    rw [sameList_iff (Form.memberBinding.same_iff hR) hb, children]
  | list hi =>
    refine hchoice ?_ fun _ => ⟨rfl, by rintro _ _ ⟨⟩⟩
    rw [sameList_iff (Form.elementInit.same_iff hR) hi, children]

end Item

end ExprTree
