import ExprTree.Proofs.JumpTargets
import ExprTree.Proofs.Retyping
import ExprTree.Proofs.Sharing

/-! An update exchanges the children of an item and nothing else: what comes back is the item
itself, when no child is another, or an item with the given children and with all else that the item
was made with, and over the former children that one becomes what the item was. -/
namespace ExprTree

open Build (Result)
open scoped Function

/-- What an update exchanges. -/
inductive Children where
  | node {s : Shape} (p : Parts s)
  | switchCase (tests : List Node) (body : Node)
  | catchClause (var : Option Param) (filter : Option Node) (body : Node)
  | elementInit (args : List Node)
  | value (v : Node)
  | bindings (bs : List MemberBinding)
  | inits (is : List ElementInit)

/-- What an item has been made with beside its children. Types that a factory infers are not among
it. -/
inductive Attributes where
  | leaf (n : Node)
  | binary (op : BinaryOp) (method : Option Method)
  /-- Conversions and throws are given a type. -/
  | unary (op : UnaryOp) (method : Option Method) (target : Option Ty)
  | typeTest (test : TypeTest) (target : Ty)
  | conditional (ty : Ty)
  | call (method : Method)
  | invoke
  | new (ctor : Constructor)
  | newArray (form : ArrayForm) (elem : Ty)
  | member (m : Member)
  | index (indexer : Option Indexer)
  | lambda (name : Option String) (ret : Ty)
  | block (ty : Ty)
  | loop
  | label
  | goto (kind : JumpKind) (ty : Ty)
  | switch (comparer : Option Method) (ty : Ty)
  | guarded
  | listInit
  | memberInit
  | extension (name : String) (ty : Ty) (isSealed : Bool)
  | switchCase
  | catchClause (test : Ty)
  | elementInit (add : Method)
  | assign (m : Member)
  | nested (m : Member)
  | list (m : Member)

def Node.attributes : Node → Attributes
  | .constant id v t => .leaf (.constant id v t)
  | .default id t => .leaf (.default id t)
  | .param p => .leaf (.param p)
  | .binary _ op _ _ m _ _ => .binary op m
  | .unary _ op _ m t => .unary op m (if op.takesType || op == .throw then some t else none)
  | .typeTest _ test _ t => .typeTest test t
  | .conditional _ _ _ _ t => .conditional t
  | .call _ _ m _ => .call m
  | .invoke .. => .invoke
  | .new c => .new c.ctor
  | .newArray _ form e _ => .newArray form e
  | .member _ _ m => .member m
  | .index _ _ i _ _ => .index i
  | .lambda f => .lambda f.name f.ret
  | .block _ _ _ t => .block t
  | .loop .. => .loop
  | .label .. => .label
  | .goto _ kind _ _ t => .goto kind t
  | .switch _ _ _ _ m t => .switch m t
  | .guarded .. => .guarded
  | .listInit .. => .listInit
  | .memberInit .. => .memberInit
  | .extension _ name t _ isSealed => .extension name t isSealed

namespace Item

def contents : Item → Children
  | .node n => .node n.parts
  | .switchCase c => .switchCase c.tests c.body
  | .catchClause h => .catchClause h.var h.filter h.body
  | .elementInit i => .elementInit i.args
  | .memberBinding (.assign _ _ v) => .value v
  | .memberBinding (.nested _ _ bs) => .bindings bs
  | .memberBinding (.list _ _ is) => .inits is

def attributes : Item → Attributes
  | .node n => n.attributes
  | .switchCase _ => .switchCase
  | .catchClause h => .catchClause h.test
  | .elementInit i => .elementInit i.add
  | .memberBinding (.assign _ m _) => .assign m
  | .memberBinding (.nested _ m _) => .nested m
  | .memberBinding (.list _ m _) => .list m

/-- The item with another identity. -/
def under (id : Nat) : Item → Item
  | .node n => .node (n.over id n.parts)
  | .switchCase c => .switchCase (.mk id c.tests c.body)
  | .catchClause h => .catchClause (.mk id h.test h.var h.filter h.body)
  | .elementInit i => .elementInit (.mk id i.add i.args)
  | .memberBinding (.assign _ m v) => .memberBinding (.assign id m v)
  | .memberBinding (.nested _ m bs) => .memberBinding (.nested id m bs)
  | .memberBinding (.list _ m is) => .memberBinding (.list id m is)

/-- What updating an item over other children gives, of whatever form a binding is updated as. -/
inductive Updates (fresh : Nat) : Item → Children → Result Item → Prop where
  | node {n : Node} (p : Parts n.shape) :
    Updates fresh (.node n) (.node p) (.node <$> n.update fresh p)
  | switchCase {c : SwitchCase} (tests : List Node) (body : Node) :
    Updates fresh (.switchCase c) (.switchCase tests body)
      (.switchCase <$> c.update fresh tests body)
  | catchClause {h : CatchClause} (var : Option Param) (filter : Option Node) (body : Node) :
    Updates fresh (.catchClause h) (.catchClause var filter body)
      (.catchClause <$> h.update fresh var filter body)
  | elementInit {i : ElementInit} (args : List Node) :
    Updates fresh (.elementInit i) (.elementInit args) (.elementInit <$> i.update fresh args)
  | value {b : MemberBinding} (v : Node) :
    Updates fresh (.memberBinding b) (.value v) (.memberBinding <$> b.updateValue fresh v)
  | bindings {b : MemberBinding} (bs : List MemberBinding) :
    Updates fresh (.memberBinding b) (.bindings bs) (.memberBinding <$> b.updateBindings fresh bs)
  | inits {b : MemberBinding} (is : List ElementInit) :
    Updates fresh (.memberBinding b) (.inits is) (.memberBinding <$> b.updateInits fresh is)

end Item

/-- Every child of one is the child of the other in its place. -/
inductive Children.Identical : Children → Children → Prop where
  | node {s : Shape} {p q : Parts s} (h : p.Rel (same · ·) (Item.same · ·) q) :
    Identical (.node p) (.node q)
  | switchCase {tests tests' : List Node} {body body' : Node}
    (ht : List.Forall₂ (same · ·) tests tests') (hb : same body body') :
    Identical (.switchCase tests body) (.switchCase tests' body')
  | catchClause {var var' : Option Param} {filter filter' : Option Node} {body body' : Node}
    (hv : Option.Rel (same · ·) var var') (hf : Option.Rel (same · ·) filter filter')
    (hb : same body body') :
    Identical (.catchClause var filter body) (.catchClause var' filter' body')
  | elementInit {args args' : List Node} (ha : List.Forall₂ (same · ·) args args') :
    Identical (.elementInit args) (.elementInit args')
  | value {v v' : Node} (h : same v v') : Identical (.value v) (.value v')
  | bindings {bs bs' : List MemberBinding} (h : List.Forall₂ (same · ·) bs bs') :
    Identical (.bindings bs) (.bindings bs')
  | inits {is is' : List ElementInit} (h : List.Forall₂ (same · ·) is is') :
    Identical (.inits is) (.inits is')

/-- What is built of the children and with the attributes. -/
def Attributes.build (fresh : Nat) : Attributes → Children → Result Item
  | .leaf n, .node .leaf => .ok (.node n)
  | .binary op m, .node (.binary l r c) => .node <$> Build.binary fresh (.binary op) l r m c
  | .unary op m target, .node (.unary x) => .node <$> Build.unary fresh (.unary op) x target m
  | .typeTest test t, .node (.typeTest x) => .node <$> Build.typeTest fresh (.typeTest test) x t
  | .conditional ty, .node (.conditional t a b) => .node <$> Build.conditional fresh t a b (some ty)
  | .call m, .node (.call x as) => .node <$> Build.call fresh x m as
  | .invoke, .node (.invoke f as) => .node <$> Build.invoke fresh f as
  | .new c, .node (.new as) => .node <$> (Build.construction fresh c as).map .new
  | .newArray form e, .node (.newArray is) => .node <$> Build.newArray fresh (.newArray form) e is
  | .member m, .node (.member x) => .node <$> Build.member fresh x m
  | .index i, .node (.index x as) => .node <$> Build.index fresh x i as
  | .lambda name ret, .node (.lambda b ps) =>
    .node <$> (Build.lambda fresh name b ps (some ret)).map .lambda
  | .block ty, .node (.block vs b) => .node <$> Build.block fresh vs b (some ty)
  | .loop, .node (.loop l c b) => .node <$> Build.loop fresh b l c
  | .label, .node (.label l x) => .node <$> Build.label fresh l x
  | .goto kind ty, .node (.goto l x) => .node <$> Build.goto fresh kind l x (some ty)
  | .switch m ty, .node (.switch v cs x) => .node <$> Build.switch fresh v cs x m (some ty)
  | .guarded, .node (.guarded b hs f x) => .node <$> Build.guarded fresh b hs f x
  | .listInit, .node (.listInit c is) => .node <$> Build.listInit fresh c is
  | .memberInit, .node (.memberInit c bs) => .node <$> Build.memberInit fresh c bs
  | .extension name ty isSealed, .node (.extension r) =>
    .ok (.node (.extension fresh name ty r isSealed))
  | .switchCase, .switchCase tests body => .switchCase <$> Build.switchCase fresh tests body
  | .catchClause t, .catchClause var filter body =>
    .catchClause <$> Build.catchClause fresh t var filter body
  | .elementInit add, .elementInit args => .elementInit <$> Build.elementInit fresh add args
  | .assign m, .value v => .memberBinding <$> Build.assignBinding fresh m v
  | .nested m, .bindings bs => .memberBinding <$> Build.nestedBinding fresh m bs
  | .list m, .inits is => .memberBinding <$> Build.listBinding fresh m is
  | _, _ => .error (.invalid "children of another form")

/-! ### Identical children -/

section

variable {α : Type} [Identified α]

theorem sameOption_rel {x y : Option α} : same x y ↔ Option.Rel (same · ·) x y := by
  cases x <;> cases y <;> simp [same, sameOption]

theorem sameList_rel {xs ys : List α} : same xs ys ↔ List.Forall₂ (same · ·) xs ys := by
  induction xs generalizing ys with
  | nil => cases ys <;> simp [same, sameList]
  | cons x xs ih =>
    cases ys with
    | nil => simp [same, sameList]
    | cons y ys =>
      rw [List.forall₂_cons, ← ih]
      exact Bool.and_eq_true_iff

end

theorem option_rel_symm {α : Type} {S : α → α → Prop} {x y : Option α} (h : Option.Rel S x y)
    (hS : ∀ a b, S a b → S b a) : Option.Rel S y x := by
  cases h with
  | none => exact .none
  | some h => exact .some (hS _ _ h)

/-- Items of one form are the same if what they are made of is. -/
theorem Item.Form.same_on {α : Type} [Identified α] {f : α → Item} (hf : Form f) :
    ((fun i j => i.same j = true) on f) = fun a b => Identified.same a b = true := by
  funext a b
  exact congrArg (· = true) (hf.same a b)

theorem Item.Form.same_symm {α : Type} [Identified α] {f : α → Item} (hf : Form f) (a b : α)
    (h : Identified.same a b = true) : Identified.same b a = true := by
  rw [← hf.same, same_comm, hf.same]
  exact h

/-- Parts are the same if each one is. -/
theorem Parts.same_rel {s : Shape} {p q : Parts s} :
    p.same q ↔ p.Rel (Identified.same · ·) (Item.same · ·) q := by
  cases p <;> cases q <;>
    simp only [Parts.same, Parts.Rel, Bool.and_eq_true, sameOption_rel, sameList_rel,
      Item.Form.same_on .node, Item.Form.same_on .lambda, Item.Form.same_on .param,
      Item.Form.same_on .switchCase, Item.Form.same_on .catchClause, Item.Form.same_on .elementInit,
      Item.Form.same_on .memberBinding, Item.Form.same .node]
  case binary | conditional | switch | guarded => simp only [and_assoc]
  case loop => tauto
  case listInit c _ c' _ | memberInit c _ c' _ => rw [← Item.Form.new.same, Item.Form.node.same]

theorem Parts.Rel.symm {T : Label → Label → Prop} {R : Item → Item → Prop} {s : Shape}
    {p q : Parts s} (h : p.Rel T R q) (hT : ∀ k l, T k l → T l k)
    (hR : ∀ i j, R i j → R j i) : q.Rel T R p := by
  have items {α : Type} {f : α → Item} {xs ys : List α} (h : List.Forall₂ (R on f) xs ys) :
      List.Forall₂ (R on f) ys xs := (h.imp fun _ _ => hR _ _).flip
  have item? {α : Type} {f : α → Item} {x y : Option α} (h : Option.Rel (R on f) x y) :
      Option.Rel (R on f) y x := option_rel_symm h fun _ _ => hR _ _
  cases p <;> cases q
  case leaf => trivial
  case binary => exact ⟨hR _ _ h.1, hR _ _ h.2.1, item? h.2.2⟩
  case unary | member | extension => exact item? h
  case typeTest => exact hR _ _ h
  case conditional => exact ⟨hR _ _ h.1, hR _ _ h.2.1, hR _ _ h.2.2⟩
  case call => exact ⟨item? h.1, items h.2⟩
  case invoke | index | lambda | listInit | memberInit => exact ⟨hR _ _ h.1, items h.2⟩
  case new | newArray => exact items h
  case block => exact ⟨items h.1, items h.2⟩
  case loop => exact ⟨option_rel_symm h.1 hT, option_rel_symm h.2.1 hT, hR _ _ h.2.2⟩
  case label | goto => exact ⟨hT _ _ h.1, item? h.2⟩
  case switch => exact ⟨hR _ _ h.1, items h.2.1, item? h.2.2⟩
  case guarded => exact ⟨hR _ _ h.1, items h.2.1, item? h.2.2.1, item? h.2.2.2⟩

theorem Children.Identical.symm {c d : Children} (h : c.Identical d) : d.Identical c := by
  have hnode := Item.Form.node.same_symm
  have nodes {ns ms : List Node} (h : List.Forall₂ (same · ·) ns ms) :
      List.Forall₂ (same · ·) ms ns :=
    (h.imp hnode).flip
  cases h with
  | node h =>
    refine .node (h.symm (fun k l h => ?_) fun i j h => ?_)
    · exact (Bool.beq_comm).trans h
    · exact (Item.same_comm j i).trans h
  | switchCase ht hb => exact .switchCase (nodes ht) (hnode _ _ hb)
  | catchClause hv hf hb =>
    exact .catchClause (option_rel_symm hv Item.Form.param.same_symm) (option_rel_symm hf hnode)
      (hnode _ _ hb)
  | elementInit ha => exact .elementInit (nodes ha)
  | value h => exact .value (hnode _ _ h)
  | bindings h => exact .bindings (h.imp Item.Form.memberBinding.same_symm).flip
  | inits h => exact .inits (h.imp Item.Form.elementInit.same_symm).flip

/-! ### What is built reads back -/

/-- An item built anew of the children and with the attributes. -/
structure Item.Built (fresh : Nat) (a : Attributes) (c : Children) (j : Item) : Prop where
  identity : j.identity = .node fresh
  contents : j.contents = c
  attributes : j.attributes = a

theorem Node.built_overAs (fresh : Nat) (t : Ty) {n : Node} {p : Parts n.shape}
    (h : n.parts.same p = false) :
    Item.Built fresh n.attributes (.node p) (.node (n.overAs t fresh p)) := by
  cases n <;> cases p
  case constant | default | param => cases h
  case unary id op x m ty y =>
    refine ⟨rfl, rfl, ?_⟩
    change Attributes.unary op m _ = .unary op m _
    split <;> rfl
  all_goals exact ⟨rfl, rfl, rfl⟩

/-- Whatever a factory checks, what it returns has the children and attributes that it was given. -/
theorem Node.rebuild_built (fresh : Nat) {n : Node} {p : Parts n.shape}
    (h : n.parts.same p = false) :
    Meets True (fun m => Item.Built fresh n.attributes (.node p) (.node m))
      (n.rebuild fresh p) := by
  refine (rebuild_overAs fresh n p).mono ?_
  rintro _ ⟨t, rfl⟩
  exact built_overAs fresh t h

namespace Node

variable {n : Node} {fresh : Nat}

theorem parts_identical {p : Parts n.shape} :
    n.parts.same p = true ↔ (Item.node n).contents.Identical (.node p) := by
  constructor
  · intro h
    exact .node (Parts.same_rel.mp h)
  · intro h
    cases h with
    | node h => exact Parts.same_rel.mpr h

theorem build_attributes (p : Parts n.shape) :
    n.attributes.build fresh (.node p) = .node <$> n.rebuild fresh p := by
  cases n <;> cases p <;> rfl

end Node

namespace Item

variable {i j : Item} {c : Children} {fresh : Nat} {out : Result Item}

/-- Over the same children it is the item, and else what is built from its attributes. -/
structure KeptOrBuilt (fresh : Nat) (i : Item) (c : Children) (out : Result Item) : Prop where
  kept : i.contents.Identical c → out = .ok i
  built : ¬i.contents.Identical c → ∀ j, out = .ok j ↔ i.attributes.build fresh c = .ok j

theorem keptOrBuilt_ite {α : Type} {f : α → Item} {b : Bool} {x : α} {y : Result α}
    (hb : b = true ↔ (f x).contents.Identical c) (hy : (f x).attributes.build fresh c = f <$> y) :
    KeptOrBuilt fresh (f x) c (f <$> if b then .ok x else y) := by
  constructor
  · intro h
    rw [hb.mpr h]
    rfl
  · intro h j
    rw [if_neg (hb.not.mpr h), hy]

theorem keptOrBuilt_error {e e' : BuildError} (hc : ¬i.contents.Identical c)
    (he : i.attributes.build fresh c = .error e') : KeptOrBuilt fresh i c (.error e) := by
  refine ⟨fun h => absurd h hc, fun _ j => ?_⟩
  rw [he]
  exact ⟨nofun, nofun⟩

theorem Updates.keptOrBuilt (h : i.Updates fresh c out) : i.KeptOrBuilt fresh c out := by
  cases h with
  | @node n p => exact keptOrBuilt_ite Node.parts_identical (Node.build_attributes p)
  | switchCase tests body =>
    refine keptOrBuilt_ite ?_ rfl
    rw [Bool.and_eq_true, sameList_rel]
    exact ⟨fun h => .switchCase h.1 h.2, fun | .switchCase ht hb => ⟨ht, hb⟩⟩
  | catchClause var filter body =>
    refine keptOrBuilt_ite ?_ rfl
    rw [Bool.and_eq_true, Bool.and_eq_true, sameOption_rel, sameOption_rel]
    exact ⟨fun h => .catchClause h.1.1 h.1.2 h.2, fun | .catchClause hv hf hb => ⟨⟨hv, hf⟩, hb⟩⟩
  | elementInit args =>
    exact keptOrBuilt_ite (sameList_rel.trans ⟨.elementInit, fun | .elementInit h => h⟩) rfl
  | @value b v =>
    cases b with
    | assign id m w => exact keptOrBuilt_ite ⟨.value, fun | .value h => h⟩ rfl
    | nested | list => exact keptOrBuilt_error nofun rfl
  | @bindings b bs =>
    cases b with
    | nested id m cs =>
      exact keptOrBuilt_ite (sameList_rel.trans ⟨.bindings, fun | .bindings h => h⟩) rfl
    | assign | list => exact keptOrBuilt_error nofun rfl
  | @inits b is =>
    cases b with
    | list id m js => exact keptOrBuilt_ite (sameList_rel.trans ⟨.inits, fun | .inits h => h⟩) rfl
    | assign | nested => exact keptOrBuilt_error nofun rfl

/-- What is built for an update has the given children and the attributes that the item had. -/
theorem Updates.built (h : i.Updates fresh c out) (hc : ¬i.contents.Identical c) :
    Meets True (Built fresh i.attributes c) (i.attributes.build fresh c) := by
  cases h with
  | @node n p =>
    rw [Node.parts_identical.symm.not, Bool.not_eq_true] at hc
    rw [attributes, Node.build_attributes]
    exact (Node.rebuild_built fresh hc).map
  | switchCase tests body =>
    refine Meets.map ?_
    exact Meets.bind fun _ => ⟨rfl, rfl, rfl⟩
  | catchClause var filter body =>
    refine Meets.map (Meets.bind fun _ => ?_)
    cases var <;> cases filter <;> exact Meets.bind fun _ => Meets.bind fun _ => ⟨rfl, rfl, rfl⟩
  | elementInit args =>
    refine Meets.map ?_
    exact Meets.bind fun _ => Meets.bind fun _ => ⟨rfl, rfl, rfl⟩
  | @value b v =>
    cases b with
    | assign id m w =>
      refine Meets.map ?_
      exact Meets.bind fun _ => Meets.bind fun _ => ⟨rfl, rfl, rfl⟩
    | nested | list => trivial
  | @bindings b bs =>
    cases b with
    | nested id m cs =>
      refine Meets.map ?_
      exact Meets.bind fun _ => ⟨rfl, rfl, rfl⟩
    | assign | list => trivial
  | @inits b is =>
    cases b with
    | list id m js => exact ⟨rfl, rfl, rfl⟩
    | assign | nested => trivial

theorem exists_updates_node {n m : Node} (next : Nat) (hs : m.shape = n.shape) :
    ∃ back, (Item.node m).Updates next (.node n.parts) back := by
  generalize n.parts = q
  generalize n.shape = s at hs q
  subst hs
  exact ⟨_, .node q⟩

theorem exists_updates_binding (next : Nat) (b b' : MemberBinding) :
    ∃ back, (memberBinding b').Updates next (memberBinding b).contents back := by
  cases b with
  | assign id m v => exact ⟨_, .value v⟩
  | nested id m bs => exact ⟨_, .bindings bs⟩
  | list id m is => exact ⟨_, .inits is⟩

/-- What has the children of an update may be updated over those that were there before. -/
theorem Updates.exists_back (h : i.Updates fresh c out) (hj : j.contents = c) (next : Nat) :
    ∃ back, j.Updates next i.contents back := by
  rcases j with m | d | d | d | b'
  case memberBinding =>
    cases h with
    | value | bindings | inits => exact exists_updates_binding next _ b'
    | node | switchCase | catchClause | elementInit => cases b' <;> cases hj
  all_goals cases h
  case node.node n p =>
    simp only [contents, Children.node.injEq] at hj
    exact exists_updates_node next hj.1
  case switchCase.switchCase c _ _ => exact ⟨_, .switchCase c.tests c.body⟩
  case catchClause.catchClause h _ _ _ => exact ⟨_, .catchClause h.var h.filter h.body⟩
  case elementInit.elementInit e _ => exact ⟨_, .elementInit e.args⟩
  all_goals cases hj

theorem contents_under (id : Nat) (i : Item) : (i.under id).contents = i.contents := by
  rcases i with n | _ | _ | _ | (_ | _ | _)
  case node => cases n <;> rfl
  all_goals rfl

theorem attributes_under (id : Nat) (i : Item) : (i.under id).attributes = i.attributes := by
  rcases i with n | _ | _ | _ | (_ | _ | _)
  case node => cases n <;> rfl
  all_goals rfl

/-- What a factory has made is made again of its children and its attributes. -/
theorem Made.build (h : i.Made) (next : Nat) :
    i.attributes.build next i.contents = .ok (i.under next) := by
  rcases i with n | c | k | e | (⟨id, m, v⟩ | ⟨id, m, bs⟩ | ⟨id, m, is⟩)
  case node =>
    have hp : n.parts.Rel (· = ·) Retyped n.parts :=
      Parts.rel_self (fun _ _ => rfl) fun c _ => Retyped.refl c
    rw [attributes, contents, Node.build_attributes,
      Node.rebuild_alike next h (fun k l hl => congrArg Label.ty hl.symm) hp id]
    rfl
  case switchCase =>
    obtain ⟨_, hne, -⟩ := Build.bind_ok.mp h
    change switchCase <$> Build.switchCase next c.tests c.body = _
    rw [Build.switchCase, hne]
    rfl
  case catchClause =>
    obtain ⟨hcatch, hvar, hfilter, -⟩ := Build.catchClause_ok.mp h
    change catchClause <$> Build.catchClause next k.test k.var k.filter k.body = _
    rw [Build.catchClause_ok.mpr ⟨hcatch, hvar, hfilter, rfl⟩]
    rfl
  case elementInit =>
    obtain ⟨hstatic, hargs⟩ := Node.made_init h
    have hargs' : Build.checkArguments "element initializer" e.add.params e.args = .ok () :=
      Build.checkArguments_ok.mpr hargs
    change elementInit <$> Build.elementInit next e.add e.args = _
    rw [Build.elementInit, hstatic, hargs']
    rfl
  case memberBinding.assign =>
    simp only [Made, MemberBinding.Made, Build.assignBinding, Build.bind_ok] at h
    obtain ⟨_, hwrite, _, hvalue, -⟩ := h
    change memberBinding <$> Build.assignBinding next m v = _
    rw [Build.assignBinding, hwrite, hvalue]
    rfl
  case memberBinding.nested =>
    simp only [Made, MemberBinding.Made, Build.nestedBinding, Build.bind_ok] at h
    obtain ⟨⟨_, hstatic, -⟩, -⟩ := h
    change memberBinding <$> Build.nestedBinding next m bs = _
    rw [Build.nestedBinding, hstatic]
    rfl
  case memberBinding.list => rfl

/-- Over the former children an item with the former attributes becomes what the item was. -/
theorem Built.restored (hj : j.Built fresh i.attributes c) (hm : i.Made)
    (hc : ¬i.contents.Identical c) {next : Nat} {back : Result Item}
    (h : j.Updates next i.contents back) : back = .ok (i.under next) := by
  have hne : ¬j.contents.Identical i.contents := by
    rw [hj.contents]
    exact fun h => hc h.symm
  rw [h.keptOrBuilt.built hne, hj.attributes]
  exact hm.build next

end Item

/-- An update gives back the item itself exactly when every child is the one that is there already.
Where it gives anything else, that is a fresh item with the given children and all else that the
item was made with. Over the former children that one can always be updated, to what the item
was. -/
theorem update_exchanges_children {i : Item} {c : Children} {fresh : Nat} {out : Result Item}
    (h : i.Updates fresh c out) (hfresh : i.identity ≠ .node fresh) :
    ((∃ j, out = .ok j ∧ i.same j = true) ↔ i.contents.Identical c) ∧
      (i.contents.Identical c → out = .ok i) ∧
      (¬i.contents.Identical c → ∀ j, out = .ok j → j.Built fresh i.attributes c ∧
        (i.Made → ∀ next, (∃ back, j.Updates next i.contents back) ∧
          ∀ back, j.Updates next i.contents back → back = .ok (i.under next))) ∧
      ∀ next, (i.under next).contents = i.contents ∧ (i.under next).attributes = i.attributes := by
  obtain ⟨hkept, hbuilt⟩ := h.keptOrBuilt
  have hanew (hc : ¬i.contents.Identical c) (j : Item) (hj : out = .ok j) :
      j.Built fresh i.attributes c := by
    have hmeets := h.built hc
    rw [(hbuilt hc j).mp hj] at hmeets
    exact hmeets
  refine ⟨⟨?_, fun hc => ⟨i, hkept hc, i.same_self⟩⟩, hkept, fun hc j hj => ?_, fun next => ?_⟩
  · rintro ⟨j, hj, hs⟩
    by_contra hc
    have hid := Item.identity_eq_of_same hs
    rw [(hanew hc j hj).identity] at hid
    exact hfresh hid
  · have hj' := hanew hc j hj
    exact ⟨hj',
      fun hm next => ⟨h.exists_back hj'.contents next, fun _ hback => hj'.restored hm hc hback⟩⟩
  · exact ⟨i.contents_under next, i.attributes_under next⟩

namespace UpdateLaws

/-- Throws null where a truth value is expected. -/
def thrown : Node := .unary 1 .throw (some (.constant 0 .null .object)) none .bool

def rethrown : Node := .unary 7 .throw none none .bool

theorem updates_thrown :
    (Item.node thrown).Updates 7 (.node (.unary none)) (.ok (.node rethrown)) :=
  .node (n := thrown) (.unary none)

theorem not_identical_thrown : ¬(Item.node thrown).contents.Identical (.node (.unary none)) := by
  rintro ⟨h⟩
  cases h

theorem made_thrown : (Item.node thrown).Made := ⟨some .bool, rfl⟩

end UpdateLaws

open UpdateLaws in
/-- A throw becomes a rethrow of the same type, and a throw again. -/
theorem throw_and_rethrow :
    ((Item.node thrown).Updates 7 (.node (.unary none)) (.ok (.node rethrown)) ∧
    (Item.node thrown).identity ≠ .node 7 ∧ ¬(Item.node thrown).contents.Identical
      (.node (.unary none)) ∧
    (Item.node thrown).Made) ∧
    (Item.node rethrown).Built 7 (.unary .throw none (some .bool)) (.node (.unary none)) ∧
    ∀ back, (Item.node rethrown).Updates 8 (.node thrown.parts) back →
      back = .ok (.node (.unary 8 .throw (some (.constant 0 .null .object)) none .bool)) := by
  have hfresh : (Item.node thrown).identity ≠ .node 7 := by decide
  have h := (update_exchanges_children updates_thrown hfresh).2.2.1 not_identical_thrown _ rfl
  exact ⟨⟨updates_thrown, hfresh, not_identical_thrown, made_thrown⟩, h.1, (h.2 made_thrown 8).2⟩

end ExprTree
