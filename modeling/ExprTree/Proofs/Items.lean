import ExprTree.Update
import Mathlib.Data.List.Forall2

/-! The items that a walk over a tree visits: its nodes, and the cases, clauses, initializers and
bindings among their parts. -/
namespace ExprTree

open scoped Function

/-- What has parts that a walk visits. -/
inductive Item where
  | node (n : Node)
  | switchCase (c : SwitchCase)
  | catchClause (h : CatchClause)
  | elementInit (i : ElementInit)
  | memberBinding (b : MemberBinding)

namespace Item

@[simp] abbrev param (p : Param) : Item := .node (.param p)

@[simp] abbrev lambda (f : Lambda) : Item := .node (.lambda f)

@[simp] abbrev new (c : Construction) : Item := .node (.new c)

/-- Items of different forms are never the same. -/
def same : Item → Item → Bool
  | .node a, .node b => Identified.same a b
  | .switchCase a, .switchCase b => Identified.same a b
  | .catchClause a, .catchClause b => Identified.same a b
  | .elementInit a, .elementInit b => Identified.same a b
  | .memberBinding a, .memberBinding b => Identified.same a b
  | _, _ => false

end Item

theorem Identity.decide_node (i j : Nat) : decide (Identity.node i = .node j) = (i == j) := by
  simp only [beq_eq_decide, node.injEq]

theorem Identity.decide_param (i j : Nat) : decide (Identity.param i = .param j) = (i == j) := by
  simp only [beq_eq_decide, param.injEq]

namespace Item

theorem same_param (p q : Param) : (param p).same (param q) = Identified.same p q :=
  Identity.decide_param p.id q.id

theorem same_lambda (f g : Lambda) : (lambda f).same (lambda g) = Identified.same f g :=
  Identity.decide_node f.id g.id

theorem same_new (c d : Construction) : (new c).same (new d) = Identified.same c d :=
  Identity.decide_node c.id d.id

end Item

/-- The parts that are visited, bound parameters among them; labels are not visited. -/
def Parts.items {s : Shape} : Parts s → List Item
  | .leaf => []
  | .binary l r c => [.node l, .node r] ++ c.toList.map .lambda
  | .unary x | .member x | .label _ x | .goto _ x | .extension x => x.toList.map .node
  | .typeTest x => [.node x]
  | .conditional t a b => [.node t, .node a, .node b]
  | .call x as => x.toList.map .node ++ as.map .node
  | .invoke f as => .node f :: as.map .node
  | .new as | .newArray as => as.map .node
  | .index x as => .node x :: as.map .node
  | .lambda b ps => .node b :: ps.map .param
  | .block vs b => vs.map .param ++ b.map .node
  | .loop _ _ b => [.node b]
  | .switch v cs x => .node v :: (cs.map .switchCase ++ x.toList.map .node)
  | .guarded b hs f x =>
    .node b :: (hs.map .catchClause ++ (f.toList.map .node ++ x.toList.map .node))
  | .listInit c is => .new c :: is.map .elementInit
  | .memberInit c bs => .new c :: bs.map .memberBinding

/-- An extension that hides its reduction. -/
def Node.isSealed : Node → Bool
  | .extension _ _ _ _ b => b
  | _ => false

/-- The items that a walk visits next, a quoted tree among them. -/
def Item.children : Item → List Item
  | .node n => if n.isSealed then [] else n.parts.items
  | .switchCase c => c.tests.map .node ++ [.node c.body]
  | .catchClause h => h.var.toList.map .param ++ (h.filter.toList.map .node ++ [.node h.body])
  | .elementInit i => i.args.map .node
  | .memberBinding (.assign _ _ v) => [.node v]
  | .memberBinding (.nested _ _ bs) => bs.map .memberBinding
  | .memberBinding (.list _ _ is) => is.map .elementInit

section

variable {α : Type} [SizeOf α] {f : α → Item} {k : Nat}

private theorem sizeOf_pos (xs : List α) : 0 < sizeOf xs := by
  cases xs with
  | nil => exact Nat.one_pos
  | cons x xs =>
    rw [List.cons.sizeOf_spec]
    omega

private theorem sizeOf_map {xs : List α} (hf : ∀ x, sizeOf (f x) ≤ sizeOf x + 2)
    (hk : sizeOf xs < k) : ∀ c ∈ xs.map f, sizeOf c < k := by
  induction xs with
  | nil => exact nofun
  | cons x xs ih =>
    rw [List.cons.sizeOf_spec] at hk
    have hx := hf x
    have hxs := sizeOf_pos xs
    rw [List.map_cons, List.forall_mem_cons]
    exact ⟨by omega, ih (by omega)⟩

private theorem sizeOf_toList {x : Option α} (hf : ∀ x, sizeOf (f x) ≤ sizeOf x + 2)
    (hk : sizeOf x + 1 < k) : ∀ c ∈ x.toList.map f, sizeOf c < k := by
  refine sizeOf_map hf ?_
  cases x <;> simp at hk ⊢ <;> omega

end

theorem Item.sizeOf_child (i : Item) : ∀ c ∈ i.children, sizeOf c < sizeOf i := by
  have hnode (n : Node) : sizeOf (Item.node n) ≤ sizeOf n + 2 := by simp; omega
  have hparam (p : Param) : sizeOf (Item.param p) ≤ sizeOf p + 2 := by simp; omega
  have hlambda (f : Lambda) : sizeOf (Item.lambda f) ≤ sizeOf f + 2 := by simp; omega
  cases i
  case' node n => cases n
  case' node.new c => cases c
  case' node.lambda f => cases f
  case' node.extension hidden => cases hidden
  case' switchCase c => cases c
  case' catchClause h => cases h
  case' elementInit i => cases i
  case' memberBinding b => cases b
  all_goals
    simp only [Item.children, Node.isSealed, Bool.false_eq_true, if_false, if_true, Node.parts,
      Parts.items, List.forall_mem_append, List.forall_mem_cons, Lambda.body, Lambda.params,
      Construction.args, SwitchCase.tests, SwitchCase.body, CatchClause.var, CatchClause.filter,
      CatchClause.body, ElementInit.args]
    and_intros
  case node.listInit.refine_1 id c is => have his := sizeOf_pos is; simp; omega
  case node.memberInit.refine_1 id c bs => have hbs := sizeOf_pos bs; simp; omega
  all_goals first
    | (simp; done)
    | (simp; omega)
    | exact sizeOf_toList ‹_› (by simp; omega)
    | exact sizeOf_map ‹_› (by simp; omega)
    | exact sizeOf_map (by simp; omega) (by simp; omega)

/-- The property holds of the item and of all items below it. -/
inductive Item.All (P : Item → Prop) : Item → Prop where
  | mk {i : Item} (here : P i) (below : ∀ c ∈ i.children, All P c) : All P i

namespace Item

variable {P Q : Item → Prop} {i c : Item}

theorem All.here (h : i.All P) : P i := by
  cases h with
  | mk here _ => exact here

theorem All.child (h : i.All P) (hc : c ∈ i.children) : c.All P := by
  cases h with
  | mk _ below => exact below c hc

/-- What holds below an item holds below each item below it. -/
theorem All.self (h : i.All P) : i.All fun j => j.All P := by
  induction h with
  | mk here below ih => exact .mk (.mk here below) ih

theorem All.and (hP : i.All P) (hQ : i.All Q) : i.All fun j => P j ∧ Q j := by
  induction hP with
  | mk here _ ih => exact .mk ⟨here, hQ.here⟩ fun c hc => ih c hc (hQ.child hc)

theorem All.mono (h : i.All P) (hPQ : ∀ i, P i → Q i) : i.All Q := by
  induction h with
  | mk here _ ih => exact .mk (hPQ _ here) ih

/-- The items below an item are smaller than it. -/
theorem all_of_forall (h : ∀ i, P i) (i : Item) : i.All P :=
  .mk (h i) fun c hc =>
    have := sizeOf_child i c hc
    all_of_forall h c
termination_by sizeOf i

end Item

/-! ### Related parts -/

/-- The parts of one are related to those of the other, one by one, and labels by `T`. -/
def Parts.Rel (T : Label → Label → Prop) (R : Item → Item → Prop) {s : Shape} :
    Parts s → Parts s → Prop
  | .leaf, .leaf => True
  | .binary l r c, .binary l' r' c' =>
    R (.node l) (.node l') ∧ R (.node r) (.node r') ∧ Option.Rel (R on .lambda) c c'
  | .unary x, .unary x' => Option.Rel (R on .node) x x'
  | .typeTest x, .typeTest x' => R (.node x) (.node x')
  | .conditional t a b, .conditional t' a' b' =>
    R (.node t) (.node t') ∧ R (.node a) (.node a') ∧ R (.node b) (.node b')
  | .call x as, .call x' as' => Option.Rel (R on .node) x x' ∧ List.Forall₂ (R on .node) as as'
  | .invoke f as, .invoke f' as' => R (.node f) (.node f') ∧ List.Forall₂ (R on .node) as as'
  | .new as, .new as' => List.Forall₂ (R on .node) as as'
  | .newArray is, .newArray is' => List.Forall₂ (R on .node) is is'
  | .member x, .member x' => Option.Rel (R on .node) x x'
  | .index x as, .index x' as' => R (.node x) (.node x') ∧ List.Forall₂ (R on .node) as as'
  | .lambda b ps, .lambda b' ps' => R (.node b) (.node b') ∧ List.Forall₂ (R on .param) ps ps'
  | .block vs b, .block vs' b' => List.Forall₂ (R on .param) vs vs' ∧ List.Forall₂ (R on .node) b b'
  | .loop l c b, .loop l' c' b' => Option.Rel T l l' ∧ Option.Rel T c c' ∧ R (.node b) (.node b')
  | .label l x, .label l' x' => T l l' ∧ Option.Rel (R on .node) x x'
  | .goto l x, .goto l' x' => T l l' ∧ Option.Rel (R on .node) x x'
  | .switch v cs x, .switch v' cs' x' =>
    R (.node v) (.node v') ∧ List.Forall₂ (R on .switchCase) cs cs' ∧ Option.Rel (R on .node) x x'
  | .guarded b hs f x, .guarded b' hs' f' x' => R (.node b) (.node b') ∧
    List.Forall₂ (R on .catchClause) hs hs' ∧ Option.Rel (R on .node) f f' ∧
    Option.Rel (R on .node) x x'
  | .listInit c is, .listInit c' is' =>
    R (.new c) (.new c') ∧ List.Forall₂ (R on .elementInit) is is'
  | .memberInit c bs, .memberInit c' bs' =>
    R (.new c) (.new c') ∧ List.Forall₂ (R on .memberBinding) bs bs'
  | .extension x, .extension x' => Option.Rel (R on .node) x x'

/-- The parameters that the parts bind; those of catch clauses are theirs. -/
def Parts.params {s : Shape} : Parts s → List Param
  | .lambda _ ps => ps
  | .block vs _ => vs
  | _ => []

/-- The node with another id and over other parts, all else kept. -/
def Node.over (id : Nat) : (n : Node) → Parts n.shape → Node
  | .constant i v t, _ => .constant i v t
  | .default i t, _ => .default i t
  | .param p, _ => .param p
  | .binary _ op _ _ m _ t, .binary l r c => .binary id op l r m c t
  | .unary _ op _ m t, .unary x => .unary id op x m t
  | .typeTest _ test _ t, .typeTest x => .typeTest id test x t
  | .conditional _ _ _ _ t, .conditional test a b => .conditional id test a b t
  | .call _ _ m _, .call x as => .call id x m as
  | .invoke _ _ _ t, .invoke f as => .invoke id f as t
  | .new c, .new as => .new (.mk id c.ctor as)
  | .newArray _ form e _, .newArray is => .newArray id form e is
  | .member _ _ m, .member x => .member id x m
  | .index _ _ i _ t, .index x as => .index id x i as t
  | .lambda f, .lambda b ps => .lambda (.mk id f.name b ps f.ret)
  | .block _ _ _ t, .block vs b => .block id vs b t
  | .loop .., .loop l c b => .loop id b l c
  | .label .., .label l x => .label id l x
  | .goto _ kind _ _ t, .goto l x => .goto id kind l x t
  | .switch _ _ _ _ m t, .switch v cs x => .switch id v cs x m t
  | .guarded .., .guarded b hs f x => .guarded id b hs f x
  | .listInit .., .listInit c is => .listInit id c is
  | .memberInit .., .memberInit c bs => .memberInit id c bs
  | .extension _ name t _ isSealed, .extension x => .extension id name t x isSealed

theorem Node.kind_over {n : Node} {p : Parts n.shape} {id : Nat} : (n.over id p).kind = n.kind := by
  cases n <;> cases p <;> rfl

/-- A node is over its own parts. -/
theorem Node.exists_over (n : Node) : ∃ id, n.over id n.parts = n := by
  cases n
  case new c => cases c with | mk i => exact ⟨i, rfl⟩
  case lambda f => cases f with | mk i => exact ⟨i, rfl⟩
  case constant i _ _ => exact ⟨i, rfl⟩
  case default i _ => exact ⟨i, rfl⟩
  case param p => exact ⟨p.id, rfl⟩
  all_goals exact ⟨_, rfl⟩

/-- What updating an item gives over parts that are related to its own. -/
inductive Item.Updated (T : Label → Label → Prop) (R : Item → Item → Prop) (fresh : Nat) :
    Item → Build.Result Item → Prop where
  | node {n : Node} {parts : Parts n.shape} (hs : n.isSealed = false) (hp : n.parts.Rel T R parts) :
    Updated T R fresh (.node n) (.node <$> n.update fresh parts)
  | hidden {n : Node} (hs : n.isSealed = true) : Updated T R fresh (.node n) (.ok (.node n))
  | switchCase {c : SwitchCase} {tests : List Node} {body : Node}
    (ht : List.Forall₂ (R on .node) c.tests tests) (hb : R (.node c.body) (.node body)) :
    Updated T R fresh (.switchCase c) (.switchCase <$> c.update fresh tests body)
  | catchClause {h : CatchClause} {var : Option Param} {filter : Option Node} {body : Node}
    (hv : Option.Rel (R on .param) h.var var) (hf : Option.Rel (R on .node) h.filter filter)
    (hb : R (.node h.body) (.node body)) :
    Updated T R fresh (.catchClause h) (.catchClause <$> h.update fresh var filter body)
  | elementInit {i : ElementInit} {args : List Node} (ha : List.Forall₂ (R on .node) i.args args) :
    Updated T R fresh (.elementInit i) (.elementInit <$> i.update fresh args)
  | assign {id : Nat} {m : Member} {v v' : Node} (hv : R (.node v) (.node v')) :
    Updated T R fresh (.memberBinding (.assign id m v))
      (.memberBinding <$> (MemberBinding.assign id m v).updateValue fresh v')
  | nested {id : Nat} {m : Member} {bs bs' : List MemberBinding}
    (hb : List.Forall₂ (R on .memberBinding) bs bs') :
    Updated T R fresh (.memberBinding (.nested id m bs))
      (.memberBinding <$> (MemberBinding.nested id m bs).updateBindings fresh bs')
  | list {id : Nat} {m : Member} {is is' : List ElementInit}
    (hi : List.Forall₂ (R on .elementInit) is is') :
    Updated T R fresh (.memberBinding (.list id m is))
      (.memberBinding <$> (MemberBinding.list id m is).updateInits fresh is')

/-- Constants and parameters. -/
def Node.isAtomic : Node → Bool
  | .constant .. | .param _ => true
  | _ => false

theorem Node.kind_ne_of_isAtomic {n : Node} (h : n.isAtomic = false) : n.kind ≠ .constant := by
  rintro hn
  cases n <;> cases hn
  cases h

/-- The node that the node writes to. -/
def Node.written? : Node → Option Node
  | .binary _ .assign l _ _ _ _ | .binary _ (.compound _) l _ _ _ _ => some l
  | .unary _ .preIncrement x _ _ | .unary _ .preDecrement x _ _ | .unary _ .postIncrement x _ _
  | .unary _ .postDecrement x _ _ => x
  | _ => none

/-- The second item is the first one over related parts, and writes to a node of the same kind. -/
inductive Item.Over (T : Label → Label → Prop) (R : Item → Item → Prop) : Item → Item → Prop where
  | node {n : Node} {p : Parts n.shape} (id : Nat) (hp : n.parts.Rel T R p)
    (hw : Option.Rel (fun x y => y.kind = x.kind) n.written? (n.over id p).written?) :
    Over T R (.node n) (.node (n.over id p))
  | switchCase {c : SwitchCase} {tests : List Node} {body : Node} (id : Nat)
    (ht : List.Forall₂ (R on .node) c.tests tests) (hb : R (.node c.body) (.node body)) :
    Over T R (.switchCase c) (.switchCase (.mk id tests body))
  | catchClause {h : CatchClause} {var : Option Param} {filter : Option Node}
    {body : Node} (id : Nat)
    (hv : Option.Rel (R on .param) h.var var) (hf : Option.Rel (R on .node) h.filter filter)
    (hb : R (.node h.body) (.node body)) :
    Over T R (.catchClause h) (.catchClause (.mk id h.test var filter body))
  | elementInit {e : ElementInit} {args : List Node} (id : Nat)
    (ha : List.Forall₂ (R on .node) e.args args) :
    Over T R (.elementInit e) (.elementInit (.mk id e.add args))
  | assign {k : Nat} {m : Member} {v v' : Node} (id : Nat) (hv : R (.node v) (.node v')) :
    Over T R (.memberBinding (.assign k m v)) (.memberBinding (.assign id m v'))
  | nested {k : Nat} {m : Member} {bs bs' : List MemberBinding} (id : Nat)
    (hb : List.Forall₂ (R on .memberBinding) bs bs') :
    Over T R (.memberBinding (.nested k m bs)) (.memberBinding (.nested id m bs'))
  | list {k : Nat} {m : Member} {is is' : List ElementInit} (id : Nat)
    (hi : List.Forall₂ (R on .elementInit) is is') :
    Over T R (.memberBinding (.list k m is)) (.memberBinding (.list id m is'))

section

variable {T : Label → Label → Prop} {R : Item → Item → Prop} {K : Item → Prop} {fresh : Nat}
  {i : Item} {out : Build.Result Item}

theorem option_rel_and_left {α β : Type} {p : α → Prop} {S : α → β → Prop} {x : Option α}
    {y : Option β} :
    Option.Rel (fun a b => p a ∧ S a b) x y ↔ (∀ a ∈ x, p a) ∧ Option.Rel S x y := by
  cases x <;> cases y <;> simp

theorem option_rel_mono {α : Type} {S S' : α → α → Prop} {x y : Option α} (h : Option.Rel S x y)
    (hS : ∀ a b, S a b → S' a b) : Option.Rel S' x y := by
  cases h with
  | none => exact .none
  | some h => exact .some (hS _ _ h)

theorem Parts.Rel.mono {T' : Label → Label → Prop} {R' : Item → Item → Prop} {s : Shape}
    {p q : Parts s} (h : p.Rel T R q) (hT : ∀ k l, T k l → T' k l)
    (hR : ∀ i j, R i j → R' i j) : p.Rel T' R' q := by
  have items {α : Type} {f : α → Item} {xs ys : List α} (h : List.Forall₂ (R on f) xs ys) :
      List.Forall₂ (R' on f) xs ys := h.imp fun _ _ => hR _ _
  have item? {α : Type} {f : α → Item} {x y : Option α} (h : Option.Rel (R on f) x y) :
      Option.Rel (R' on f) x y := option_rel_mono h fun _ _ => hR _ _
  have label? {k l : Option Label} (h : Option.Rel T k l) : Option.Rel T' k l :=
    option_rel_mono h hT
  cases p <;> cases q
  case leaf => trivial
  case binary => exact ⟨hR _ _ h.1, hR _ _ h.2.1, item? h.2.2⟩
  case unary | member | extension => exact item? h
  case typeTest => exact hR _ _ h
  case conditional => exact ⟨hR _ _ h.1, hR _ _ h.2.1, hR _ _ h.2.2⟩
  case call => exact ⟨item? h.1, items h.2⟩
  case invoke | index | lambda | listInit | memberInit => exact ⟨hR _ _ h.1, items h.2⟩
  case new | newArray => exact items h
  case block => exact ⟨items h.1, items h.2⟩
  case loop => exact ⟨label? h.1, label? h.2.1, hR _ _ h.2.2⟩
  case label | goto => exact ⟨hT _ _ h.1, item? h.2⟩
  case switch => exact ⟨hR _ _ h.1, items h.2.1, item? h.2.2⟩
  case guarded => exact ⟨hR _ _ h.1, items h.2.1, item? h.2.2.1, item? h.2.2.2⟩

theorem Parts.Rel.params {s : Shape} {p q : Parts s} (h : p.Rel T R q) :
    List.Forall₂ (R on .param) p.params q.params := by
  cases p <;> cases q
  case lambda => exact h.2
  case block => exact h.1
  all_goals exact .nil

theorem Parts.Rel.split {s : Shape} {p q : Parts s} (h : p.Rel T (fun i j => K i ∧ R i j) q) :
    (∀ c ∈ p.items, K c) ∧ p.Rel T R q := by
  cases p <;> cases q
  all_goals
    simp only [Parts.Rel, and_assoc, List.forall₂_and_left, option_rel_and_left] at h ⊢
    simp only [Parts.items, List.forall_mem_append, List.forall_mem_cons, List.forall_mem_map,
      Option.mem_toList]
    grind

theorem Item.Updated.split (h : i.Updated T (fun i j => K i ∧ R i j) fresh out) :
    (∀ c ∈ i.children, K c) ∧ i.Updated T R fresh out := by
  cases h with
  | node hs hp =>
    obtain ⟨hK, hR⟩ := hp.split
    exact ⟨by simpa [children, hs] using hK, .node hs hR⟩
  | hidden hs => exact ⟨by simp [children, hs], .hidden hs⟩
  | switchCase ht hb =>
    simp only [List.forall₂_and_left] at ht
    exact ⟨by simp [children]; grind, .switchCase ht.2 hb.2⟩
  | catchClause hv hf hb =>
    simp only [option_rel_and_left] at hv hf
    exact ⟨by simp [children]; grind, .catchClause hv.2 hf.2 hb.2⟩
  | elementInit ha =>
    simp only [List.forall₂_and_left] at ha
    exact ⟨by simpa [children] using ha.1, .elementInit ha.2⟩
  | assign hv => exact ⟨by simpa [children] using hv.1, .assign hv.2⟩
  | nested hb =>
    simp only [List.forall₂_and_left] at hb
    exact ⟨by simpa [children] using hb.1, .nested hb.2⟩
  | list hi =>
    simp only [List.forall₂_and_left] at hi
    exact ⟨by simpa [children] using hi.1, .list hi.2⟩

theorem Item.Over.mono {R' : Item → Item → Prop} {j : Item} (h : i.Over T R j)
    (hR : ∀ c d, R c d → R' c d) : i.Over T R' j := by
  cases h with
  | node id hp hw => exact .node id (hp.mono (fun _ _ h => h) hR) hw
  | switchCase id ht hb => exact .switchCase id (ht.imp fun _ _ => hR _ _) (hR _ _ hb)
  | catchClause id hv hf hb =>
    exact .catchClause id (option_rel_mono hv fun _ _ => hR _ _)
      (option_rel_mono hf fun _ _ => hR _ _) (hR _ _ hb)
  | elementInit id ha => exact .elementInit id (ha.imp fun _ _ => hR _ _)
  | assign id hv => exact .assign id (hR _ _ hv)
  | nested id hb => exact .nested id (hb.imp fun _ _ => hR _ _)
  | list id hi => exact .list id (hi.imp fun _ _ => hR _ _)

end

end ExprTree
