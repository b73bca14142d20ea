import ExprTree.Proofs.Items
import ExprTree.Proofs.Visit

/-! The walk of a rewriter over a tree. A relation between what is visited and what the visits
answer holds of a whole tree when it holds of the constants and parameters and passes from the parts
of an item to the item. -/
namespace ExprTree

open scoped Function

/-- Visits the item. -/
def Rewriter.visitItem {σ : Type} (r : Rewriter σ) : Item → Visit σ Item
  | .node n => .node <$> r.visit n
  | .switchCase c => .switchCase <$> r.visitCase c
  | .catchClause h => .catchClause <$> r.visitClause h
  | .elementInit i => .elementInit <$> r.visitInit i
  | .memberBinding b => .memberBinding <$> r.visitBinding b

/-- Only constants are answered for; all else is visited by the default descent. -/
structure Rewriter.OnlyConstants {σ : Type} (r : Rewriter σ) : Prop where
  node (n : Node) (descend : Visit σ Node) : r.node n descend = descend
  variant (n : Node) (descend : Visit σ Node) : n.kind ≠ .constant → r.variant n descend = descend
  label (l : Label) : r.label l = return l
  switchCase (c : SwitchCase) (descend : Visit σ SwitchCase) : r.switchCase c descend = descend
  catchClause (h : CatchClause) (descend : Visit σ CatchClause) : r.catchClause h descend = descend
  elementInit (i : ElementInit) (descend : Visit σ ElementInit) : r.elementInit i descend = descend
  memberBinding (b : MemberBinding) (descend : Visit σ MemberBinding) :
    r.memberBinding b descend = descend

theorem Rewriter.OnlyConstants.of_variant {σ : Type} {variant : Node → Visit σ Node → Visit σ Node}
    (h : ∀ n d, n.kind ≠ .constant → variant n d = d) : Rewriter.OnlyConstants { variant } where
  node _ _ := rfl
  variant := h
  label _ := rfl
  switchCase _ _ := rfl
  catchClause _ _ := rfl
  elementInit _ _ := rfl
  memberBinding _ _ := rfl

theorem Rewriter.onlyConstants_identity {σ : Type} : (identity : Rewriter σ).OnlyConstants :=
  .of_variant fun _ _ _ => rfl

/-- Answers for constants by their value and type. -/
def Rewriter.ofConstants {σ : Type} (f : Value → Ty → Visit σ Node → Visit σ Node) :
    Rewriter σ where
  variant n descend := match n with
    | .constant _ v t => f v t descend
    | _ => descend

theorem Rewriter.onlyConstants_ofConstants {σ : Type}
    (f : Value → Ty → Visit σ Node → Visit σ Node) : (ofConstants f).OnlyConstants := by
  refine .of_variant fun n d hn => ?_
  cases n with
  | constant => exact absurd rfl hn
  | _ => rfl

/-- Constants, parameters and labels may be answered for; all else is visited by the default
descent. -/
structure Rewriter.OnlyAtoms {σ : Type} (r : Rewriter σ) : Prop where
  node (n : Node) (descend : Visit σ Node) : r.node n descend = descend
  variant (n : Node) (descend : Visit σ Node) : n.isAtomic = false → r.variant n descend = descend
  switchCase (c : SwitchCase) (descend : Visit σ SwitchCase) : r.switchCase c descend = descend
  catchClause (h : CatchClause) (descend : Visit σ CatchClause) : r.catchClause h descend = descend
  elementInit (i : ElementInit) (descend : Visit σ ElementInit) : r.elementInit i descend = descend
  memberBinding (b : MemberBinding) (descend : Visit σ MemberBinding) :
    r.memberBinding b descend = descend

/-- What overrides two answers overrides no others. -/
theorem Rewriter.OnlyAtoms.of_variant {σ : Type} {variant : Node → Visit σ Node → Visit σ Node}
    {label : Label → Visit σ Label} (h : ∀ n d, n.isAtomic = false → variant n d = d) :
    Rewriter.OnlyAtoms { variant, label } where
  node _ _ := rfl
  variant := h
  switchCase _ _ := rfl
  catchClause _ _ := rfl
  elementInit _ _ := rfl
  memberBinding _ _ := rfl

theorem Rewriter.OnlyConstants.atoms {σ : Type} {r : Rewriter σ} (h : r.OnlyConstants) :
    r.OnlyAtoms where
  node := h.node
  variant n d hn := h.variant n d (Node.kind_ne_of_isAtomic hn)
  switchCase := h.switchCase
  catchClause := h.catchClause
  elementInit := h.elementInit
  memberBinding := h.memberBinding

/-- What a relation must do to be carried through the walk over a tree: not depend on the answer
that is dropped for being the same, keep the kinds of nodes other than constants and parameters, and
keep parameters, unless the walk may fail. -/
structure Rewriter.Relates {σ : Type} (r : Rewriter σ) (I : σ × Nat → Prop) (fails : Prop)
    (T : Label → Label → Prop) (R : Item → Item → Prop) : Prop where
  only : r.OnlyAtoms
  advance {a : σ} {next : Nat} : I (a, next) → I (a, next + 1)
  keep {i j : Item} : R i j → j.same i → R i i
  kind {n m : Node} : R (.node n) (.node m) → n.isAtomic = false → m.kind = n.kind
  param {p : Param} {m : Node} : R (.param p) (.node m) → m.kind = .parameter ∨ fails
  label (l : Label) : (r.label l).Gives I fails (T l)

namespace Rewriter

open Visit

variable {σ : Type} (r : Rewriter σ)

def visitNode? : Option Node → Visit σ (Option Node)
  | none => return none
  | some x => some <$> r.visit x

def visitLambda? (context : String) : Option Lambda → Visit σ (Option Lambda)
  | none => return none
  | some f => some <$> asLambda context (r.visitLambda f)

def visitParam? (context : String) : Option Param → Visit σ (Option Param)
  | none => return none
  | some p => some <$> asParam context (r.visitParam p)

theorem visit_constant (id : Nat) (v : Value) (t : Ty) :
    r.visit (.constant id v t) = r.answer (.constant id v t) (return .constant id v t) := rfl

theorem visit_param (p : Param) : r.visit (.param p) = r.visitParam p := rfl

theorem visit_lambda (f : Lambda) : r.visit (.lambda f) = r.visitLambda f := rfl

theorem visit_new (c : Construction) : r.visit (.new c) = r.visitConstruction c := rfl

theorem visitEach_eq (ns : List Node) : r.visitEach ns = ns.map fun n => (n, r.visit n) := by
  induction ns with
  | nil => rw [visitEach]; rfl
  | cons n ns ih => rw [visitEach, ih, List.map_cons]

theorem visitEachCase_eq (cs : List SwitchCase) :
    r.visitEachCase cs = cs.map fun c => (c, r.visitCase c) := by
  induction cs with
  | nil => rw [visitEachCase]; rfl
  | cons c cs ih => rw [visitEachCase, ih, List.map_cons]

theorem visitEachClause_eq (hs : List CatchClause) :
    r.visitEachClause hs = hs.map fun h => (h, r.visitClause h) := by
  induction hs with
  | nil => rw [visitEachClause]; rfl
  | cons h hs ih => rw [visitEachClause, ih, List.map_cons]

theorem visitEachInit_eq (is : List ElementInit) :
    r.visitEachInit is = is.map fun i => (i, r.visitInit i) := by
  induction is with
  | nil => rw [visitEachInit]; rfl
  | cons i is ih => rw [visitEachInit, ih, List.map_cons]

theorem visitEachBinding_eq (bs : List MemberBinding) :
    r.visitEachBinding bs = bs.map fun b => (b, r.visitBinding b) := by
  induction bs with
  | nil => rw [visitEachBinding]; rfl
  | cons b bs ih => rw [visitEachBinding, ih, List.map_cons]

/-! ### The default descent -/

/-- Visits the parts in order. -/
def visitParts {s : Shape} : Parts s → Visit σ (Parts s)
  | .leaf => return .leaf
  | .binary x y f =>
    return .binary (← r.visit x) (← r.visit y) (← r.visitLambda? "binary conversion" f)
  | .unary x => return .unary (← r.visitNode? x)
  | .typeTest x => return .typeTest (← r.visit x)
  | .conditional x a b => return .conditional (← r.visit x) (← r.visit a) (← r.visit b)
  | .call x as => return .call (← r.visitNode? x) (← items as (r.visitEach as))
  | .invoke f as => return .invoke (← r.visit f) (← items as (r.visitEach as))
  | .new as => return .new (← items as (r.visitEach as))
  | .newArray as => return .newArray (← items as (r.visitEach as))
  | .member x => return .member (← r.visitNode? x)
  | .index x as => return .index (← r.visit x) (← items as (r.visitEach as))
  | .lambda x ps => return .lambda (← r.visit x) (← r.visitParams "lambda parameter" ps)
  | .block vs ns =>
    return .block (← r.visitParams "block variable" vs) (← items ns (r.visitEach ns))
  | .loop b c x => return .loop (← r.visitLabel? b) (← r.visitLabel? c) (← r.visit x)
  | .label l x => return .label (← r.label l) (← r.visitNode? x)
  | .goto l x => return .goto (← r.label l) (← r.visitNode? x)
  | .switch x cs y =>
    return .switch (← r.visit x) (← items cs (r.visitEachCase cs)) (← r.visitNode? y)
  | .guarded x hs f g =>
    return .guarded (← r.visit x) (← items hs (r.visitEachClause hs)) (← r.visitNode? f)
      (← r.visitNode? g)
  | .listInit c is =>
    return .listInit (← asConstruction "list initializer constructor" (r.visitConstruction c))
      (← items is (r.visitEachInit is))
  | .memberInit c bs =>
    return .memberInit (← asConstruction "member initializer constructor" (r.visitConstruction c))
      (← items bs (r.visitEachBinding bs))
  | .extension x => return .extension (← r.visitNode? x)

attribute [local simp] visitParts Node.parts visitNode? visitLambda? in
/-- The default descent visits the parts of a node and then updates it. -/
theorem visit_eq {n : Node} (hn : n.shape ≠ .leaf) (hs : n.isSealed = false) :
    r.visit n = r.answer n (r.visitParts n.parts >>= update n) := by
  cases n with
  | constant | default | param => exact absurd rfl hn
  | new c =>
    obtain ⟨id, ctor, args⟩ := c
    rw [visit, visitConstruction]
    simp [Construction.args]
  | lambda f =>
    obtain ⟨id, name, body, ps, t⟩ := f
    rw [visit, visitLambda]
    simp [Lambda.body, Lambda.params]
  | extension id name t x isSealed =>
    obtain rfl : isSealed = false := hs
    rw [visit]
    cases x <;> simp
  | guarded _ _ _ fin fault =>
    rw [visit]
    cases fin <;> cases fault <;> simp
  | binary _ _ _ _ _ x | unary _ _ x | call _ x | member _ x | label _ _ x | goto _ _ _ x
  | switch _ _ _ x =>
    rw [visit]
    cases x <;> simp
  | _ =>
    rw [visit]
    simp

/-- What has no parts to visit stays as it is. -/
theorem visit_unparted {n : Node} (h : n.shape = .leaf ∨ n.isSealed = true) :
    r.visit n = r.answer n (pure n) := by
  cases n with
  | constant | param => rfl
  | default => rw [visit]
  | extension id name t x isSealed =>
    obtain rfl : isSealed = true := h.resolve_left nofun
    rw [visit]
    rfl
  | _ => exact absurd h nofun

variable {r}

theorem OnlyAtoms.answer {n : Node} {d : Visit σ Node} (h : r.OnlyAtoms) (hn : n.isAtomic = false) :
    r.answer n d = d := by
  rw [Rewriter.answer, h.node, h.variant n d hn]

variable {I : σ × Nat → Prop} {fails : Prop} {T : Label → Label → Prop} {R : Item → Item → Prop}
  {is : List Item}

theorem Relates.label? (hr : r.Relates I fails T R) (l : Option Label) :
    (r.visitLabel? l).Gives I fails (Option.Rel T l) := by
  cases l with
  | none => exact gives_pure .none
  | some l => exact (hr.label l).bind fun _ hl => gives_pure (.some hl)

/-- The visits of the items give related answers. -/
def Each (r : Rewriter σ) (I : σ × Nat → Prop) (fails : Prop) (R : Item → Item → Prop)
    (is : List Item) : Prop :=
  ∀ i ∈ is, (r.visitItem i).Gives I fails (R i)

namespace Each

theorem node (hb : r.Each I fails R is) (n : Node) (hn : .node n ∈ is) :
    (r.visit n).Gives I fails fun m => R (.node n) (.node m) :=
  (hb _ hn).of_map

theorem node? (hb : r.Each I fails R is) (x : Option Node) (hx : ∀ y ∈ x, .node y ∈ is) :
    (r.visitNode? x).Gives I fails (Option.Rel (R on .node) x) := by
  cases x with
  | none => exact gives_pure .none
  | some y => exact ((hb.node y (hx y rfl)).mono fun _ hm => .some hm).map

/-- Children of one form, each visited by `v`. -/
theorem list {α : Type} [Identified α] {f : α → Item} {v : α → Visit σ α} {xs : List α}
    (hb : r.Each I fails R is) (hr : r.Relates I fails T R)
    (hf : ∀ x y, same y x → (f y).same (f x))
    (hv : ∀ x, r.visitItem (f x) = f <$> v x) (hx : ∀ x ∈ xs, f x ∈ is) :
    (items xs (xs.map fun x => (x, v x))).Gives I fails (List.Forall₂ (R on f) xs) := by
  apply gives_items
  · intro x y hxy hsame
    exact hr.keep hxy (hf x y hsame)
  · intro x hmem
    have h := hb (f x) (hx x hmem)
    rw [hv] at h
    exact h.of_map

theorem nodes (hb : r.Each I fails R is) (hr : r.Relates I fails T R) (ns : List Node)
    (hn : ∀ n ∈ ns, .node n ∈ is) :
    (items ns (r.visitEach ns)).Gives I fails (List.Forall₂ (R on .node) ns) := by
  rw [visitEach_eq]
  exact hb.list hr (fun _ _ => id) (fun _ => rfl) hn

theorem lambda (hb : r.Each I fails R is) (hr : r.Relates I fails T R) (context : String)
    (f : Lambda) (hf : .lambda f ∈ is) :
    (asLambda context (r.visitLambda f)).Gives I fails ((R on .lambda) f) := by
  have hv := hb.node _ hf
  rw [visit_lambda] at hv
  exact gives_asLambda hv fun m hm => hr.kind hm rfl

theorem lambda? (hb : r.Each I fails R is) (hr : r.Relates I fails T R) (context : String)
    (f : Option Lambda) (hf : ∀ g ∈ f, .lambda g ∈ is) :
    (r.visitLambda? context f).Gives I fails (Option.Rel (R on .lambda) f) := by
  cases f with
  | none => exact gives_pure .none
  | some f => exact ((hb.lambda hr context f (hf f rfl)).mono fun _ hg => .some hg).map

theorem construction (hb : r.Each I fails R is) (hr : r.Relates I fails T R) (context : String)
    (c : Construction) (hc : .new c ∈ is) :
    (asConstruction context (r.visitConstruction c)).Gives I fails ((R on .new) c) := by
  have hv := hb.node _ hc
  rw [visit_new] at hv
  exact gives_asConstruction hv fun m hm => hr.kind hm rfl

theorem cases (hb : r.Each I fails R is) (hr : r.Relates I fails T R) (cs : List SwitchCase)
    (hc : ∀ c ∈ cs, .switchCase c ∈ is) :
    (items cs (r.visitEachCase cs)).Gives I fails (List.Forall₂ (R on .switchCase) cs) := by
  rw [visitEachCase_eq]
  exact hb.list hr (fun _ _ => id) (fun _ => rfl) hc

theorem clauses (hb : r.Each I fails R is) (hr : r.Relates I fails T R) (hs : List CatchClause)
    (hh : ∀ h ∈ hs, .catchClause h ∈ is) :
    (items hs (r.visitEachClause hs)).Gives I fails (List.Forall₂ (R on .catchClause) hs) := by
  rw [visitEachClause_eq]
  exact hb.list hr (fun _ _ => id) (fun _ => rfl) hh

theorem inits (hb : r.Each I fails R is) (hr : r.Relates I fails T R) (es : List ElementInit)
    (he : ∀ e ∈ es, .elementInit e ∈ is) :
    (items es (r.visitEachInit es)).Gives I fails (List.Forall₂ (R on .elementInit) es) := by
  rw [visitEachInit_eq]
  exact hb.list hr (fun _ _ => id) (fun _ => rfl) he

theorem bindings (hb : r.Each I fails R is) (hr : r.Relates I fails T R) (bs : List MemberBinding)
    (hm : ∀ b ∈ bs, .memberBinding b ∈ is) :
    (items bs (r.visitEachBinding bs)).Gives I fails (List.Forall₂ (R on .memberBinding) bs) := by
  rw [visitEachBinding_eq]
  exact hb.list hr (fun _ _ => id) (fun _ => rfl) hm

theorem param (hb : r.Each I fails R is) (hr : r.Relates I fails T R) (context : String) (p : Param)
    (hp : .param p ∈ is) : (asParam context (r.visitParam p)).Gives I fails ((R on .param) p) := by
  have hv := hb.node _ hp
  rw [visit_param] at hv
  exact gives_asParam hv fun m hm => hr.param hm

theorem param? (hb : r.Each I fails R is) (hr : r.Relates I fails T R) (context : String)
    (p : Option Param) (hp : ∀ q ∈ p, .param q ∈ is) :
    (r.visitParam? context p).Gives I fails (Option.Rel (R on .param) p) := by
  cases p with
  | none => exact gives_pure .none
  | some p => exact ((hb.param hr context p (hp p rfl)).mono fun _ hq => .some hq).map

theorem params (hb : r.Each I fails R is) (hr : r.Relates I fails T R) (context : String)
    (ps : List Param) (hp : ∀ p ∈ ps, .param p ∈ is) :
    (r.visitParams context ps).Gives I fails (List.Forall₂ (R on .param) ps) := by
  apply gives_items
  · intro p q hpq hsame
    refine hr.keep hpq ?_
    rw [Item.same_param]
    exact hsame
  · intro p hmem
    exact hb.param hr context p (hp p hmem)

end Each

attribute [local simp] Parts.items in
/-- Parts are visited to parts that are related to them, if their items are. -/
theorem Relates.parts (hr : r.Relates I fails T R) {s : Shape} {p : Parts s}
    (hb : r.Each I fails R p.items) : (r.visitParts p).Gives I fails (p.Rel T R) := by
  cases p with
  | leaf => exact gives_pure trivial
  | binary x y f =>
    have hx := hb.node x (by simp)
    have hy := hb.node y (by simp)
    have hf := hb.lambda? hr "binary conversion" f (by simp +contextual)
    exact hx.bind fun _ hx => hy.bind fun _ hy => hf.bind fun _ hf => gives_pure ⟨hx, hy, hf⟩
  | unary x | member x | extension x =>
    have hx := hb.node? x (by simp +contextual)
    exact hx.bind fun _ hx => gives_pure hx
  | typeTest x =>
    have hx := hb.node x (by simp)
    exact hx.bind fun _ hx => gives_pure hx
  | conditional x a b =>
    have hx := hb.node x (by simp)
    have ha := hb.node a (by simp)
    have hb := hb.node b (by simp)
    exact hx.bind fun _ hx => ha.bind fun _ ha => hb.bind fun _ hb => gives_pure ⟨hx, ha, hb⟩
  | call x args =>
    have hx := hb.node? x (by simp +contextual)
    have ha := hb.nodes hr args (by simp +contextual)
    exact hx.bind fun _ hx => ha.bind fun _ ha => gives_pure ⟨hx, ha⟩
  | invoke x args | index x args =>
    have hx := hb.node x (by simp)
    have ha := hb.nodes hr args (by simp +contextual)
    exact hx.bind fun _ hx => ha.bind fun _ ha => gives_pure ⟨hx, ha⟩
  | new args | newArray args =>
    have ha := hb.nodes hr args (by simp +contextual)
    exact ha.bind fun _ ha => gives_pure ha
  | lambda x ps =>
    have hx := hb.node x (by simp)
    have hp := hb.params hr "lambda parameter" ps (by simp +contextual)
    exact hx.bind fun _ hx => hp.bind fun _ hp => gives_pure ⟨hx, hp⟩
  | block vars body =>
    have hv := hb.params hr "block variable" vars (by simp +contextual)
    have hx := hb.nodes hr body (by simp +contextual)
    exact hv.bind fun _ hv => hx.bind fun _ hx => gives_pure ⟨hv, hx⟩
  | loop b c x =>
    have hx := hb.node x (by simp)
    exact (hr.label? b).bind fun _ hb => (hr.label? c).bind fun _ hc => hx.bind fun _ hx =>
      gives_pure ⟨hb, hc, hx⟩
  | label l x | goto l x =>
    have hx := hb.node? x (by simp +contextual)
    exact (hr.label l).bind fun _ hl => hx.bind fun _ hx => gives_pure ⟨hl, hx⟩
  | switch x cs y =>
    have hx := hb.node x (by simp)
    have hc := hb.cases hr cs (by simp +contextual)
    have hy := hb.node? y (by simp +contextual)
    exact hx.bind fun _ hx => hc.bind fun _ hc => hy.bind fun _ hy => gives_pure ⟨hx, hc, hy⟩
  | guarded x hs fin fault =>
    have hx := hb.node x (by simp)
    have hh := hb.clauses hr hs (by simp +contextual)
    have hf := hb.node? fin (by simp +contextual)
    have hg := hb.node? fault (by simp +contextual)
    exact hx.bind fun _ hx => hh.bind fun _ hh => hf.bind fun _ hf => hg.bind fun _ hg =>
      gives_pure ⟨hx, hh, hf, hg⟩
  | listInit c is =>
    have hc := hb.construction hr "list initializer constructor" c (by simp)
    have hi := hb.inits hr is (by simp +contextual)
    exact hc.bind fun _ hc => hi.bind fun _ hi => gives_pure ⟨hc, hi⟩
  | memberInit c bs =>
    have hc := hb.construction hr "member initializer constructor" c (by simp)
    have hm := hb.bindings hr bs (by simp +contextual)
    exact hc.bind fun _ hc => hm.bind fun _ hm => gives_pure ⟨hc, hm⟩

/-- One level of the walk: what updating gives over the answers of the children. -/
theorem Relates.visitNode (hr : r.Relates I fails T R) {S : Item → Prop} {n : Node}
    (hn : n.isAtomic = false) (hb : r.Each I fails R (Item.node n).children)
    (hu : ∀ a fresh out, I (a, fresh) → Item.Updated T R fresh (.node n) out → Meets fails S out) :
    (r.visitItem (.node n)).Gives I fails S := by
  have hkept (hkept : ∀ fresh, Item.Updated T R fresh (.node n) (.ok (.node n))) :
      (pure n : Visit σ Node).Gives I fails fun m => S (.node m) := by
    rintro ⟨a, fresh⟩ _ _ hs ⟨⟩
    exact ⟨hs, hu a fresh _ hs (hkept fresh)⟩
  refine Gives.map ?_
  by_cases hs : n.isSealed = true
  · rw [visit_unparted r (.inr hs), hr.only.answer hn]
    exact hkept fun _ => .hidden hs
  by_cases hleaf : n.shape = .leaf
  · obtain ⟨id, t, rfl⟩ : ∃ id t, n = .default id t := by
      cases n with
      | default id t => exact ⟨id, t, rfl⟩
      | constant | param => cases hn
      | _ => exact absurd hleaf nofun
    rw [visit_unparted r (.inl hleaf), hr.only.answer hn]
    have hsame (fresh : Nat) : Item.Updated T R fresh (.node (.default id t))
        (.node <$> (Node.default id t).update fresh .leaf) := .node rfl trivial
    exact hkept hsame
  · simp only [Bool.not_eq_true] at hs
    have hparts : r.Each I fails R n.parts.items := by simpa [Item.children, hs] using hb
    rw [visit_eq r hleaf hs, hr.only.answer hn]
    refine (hr.parts hparts).bind fun parts hp => ?_
    exact gives_build (fun _ _ => hr.advance) fun a fresh hfresh =>
      (hu a fresh _ hfresh (.node hs hp)).of_map

end Rewriter

namespace Rewriter

open Visit

variable {σ : Type} {r : Rewriter σ} {I : σ × Nat → Prop} {fails : Prop} {T : Label → Label → Prop}
  {R : Item → Item → Prop} {i : Item}

attribute [local simp] Item.children in
theorem Relates.step (hr : r.Relates I fails T R) {S : Item → Prop}
    (hi : ∀ n, i = .node n → n.isAtomic = false) (hb : r.Each I fails R i.children)
    (hu : ∀ a fresh out, I (a, fresh) → i.Updated T R fresh out → Meets fails S out) :
    (r.visitItem i).Gives I fails S := by
  cases i with
  | node n => exact hr.visitNode (hi n rfl) hb hu
  | switchCase c =>
    obtain ⟨id, tests, body⟩ := c
    have ht := hb.nodes hr tests (by simp +contextual [SwitchCase.tests])
    have hx := hb.node body (by simp [SwitchCase.body])
    refine Gives.map ?_
    rw [visitCase, hr.only.switchCase]
    refine ht.bind fun tests' ht => hx.bind fun body' hx => ?_
    exact gives_build (fun _ _ => hr.advance) fun a fresh hs =>
      (hu a fresh _ hs (.switchCase ht hx)).of_map
  | catchClause h =>
    obtain ⟨id, test, var, filter, body⟩ := h
    have hv := hb.param? hr "catch variable" var (by simp +contextual [CatchClause.var])
    have hf := hb.node? filter (by simp +contextual [CatchClause.filter])
    have hx := hb.node body (by simp [CatchClause.body])
    refine Gives.map ?_
    rw [visitClause, hr.only.catchClause]
    cases var <;> cases filter <;> exact hv.bind fun var' hv => hf.bind fun filter' hf =>
      hx.bind fun body' hx =>
      gives_build (fun _ _ => hr.advance) fun a fresh hs =>
        (hu a fresh _ hs (.catchClause hv hf hx)).of_map
  | elementInit e =>
    obtain ⟨id, add, args⟩ := e
    have ha := hb.nodes hr args (by simp +contextual [ElementInit.args])
    refine Gives.map ?_
    rw [visitInit, hr.only.elementInit]
    refine ha.bind fun args' ha => ?_
    exact gives_build (fun _ _ => hr.advance) fun a fresh hs =>
      (hu a fresh _ hs (.elementInit ha)).of_map
  | memberBinding b =>
    refine Gives.map ?_
    cases b with
    | assign id m v =>
      have hv := hb.node v (by simp)
      rw [visitBinding, hr.only.memberBinding]
      refine hv.bind fun v' hv => ?_
      exact gives_build (fun _ _ => hr.advance) fun a fresh hs =>
        (hu a fresh _ hs (.assign hv)).of_map
    | nested id m bs =>
      have hbs := hb.bindings hr bs (by simp)
      rw [visitBinding, hr.only.memberBinding]
      refine hbs.bind fun bs' hbs => ?_
      exact gives_build (fun _ _ => hr.advance) fun a fresh hs =>
        (hu a fresh _ hs (.nested hbs)).of_map
    | list id m is =>
      have his := hb.inits hr is (by simp)
      rw [visitBinding, hr.only.memberBinding]
      refine his.bind fun is' his => ?_
      exact gives_build (fun _ _ => hr.advance) fun a fresh hs =>
        (hu a fresh _ hs (.list his)).of_map

/-- A visit of the item was started where `I` holds and had an answer. -/
def Visited (r : Rewriter σ) (I : σ × Nat → Prop) (i : Item) : Prop :=
  ∃ s j t, I s ∧ (r.visitItem i).run.run s = (.ok j, t)

theorem OnlyAtoms.visit_atom (h : r.OnlyAtoms) {n : Node} (hn : n.isAtomic = true) :
    r.visit n = r.variant n (pure n) := by
  cases n <;> cases hn
  · rw [visit_constant, Rewriter.answer, h.node]
  · rw [visit_param, visitParam, Rewriter.answer, h.node]

/-- A relation that holds of the answers for constants and parameters, and of what any other item is
updated to over related parts, holds of what an item is visited to; and all items below it are
visited. -/
theorem Relates.visitItem_gives (hr : r.Relates I fails T R) {P : Item → Prop} (hi : i.All P)
    (hatom : ∀ n, P (.node n) → n.isAtomic = true →
      (r.variant n (pure n)).Gives I fails fun m => R (.node n) (.node m))
    (hu : ∀ i a fresh out, i.All P → (∀ n, i = .node n → n.isAtomic = false) → I (a, fresh) →
      i.Updated T R fresh out → Meets fails (R i) out) :
    (r.visitItem i).Gives I fails fun j => R i j ∧ i.All (r.Visited I) := by
  induction hi with
  | @mk i here below ih =>
    suffices hv :
        (r.visitItem i).Gives I fails fun j => (∀ c ∈ i.children, c.All (r.Visited I)) ∧ R i j by
      refine hv.ran.mono ?_
      rintro j ⟨⟨hc, hj⟩, s, t, hs, hrun⟩
      exact ⟨hj, .mk ⟨s, j, t, hs, hrun⟩ hc⟩
    by_cases hc : ∃ n, i = .node n ∧ n.isAtomic = true
    · obtain ⟨n, rfl, hn⟩ := hc
      refine Gives.map ?_
      rw [hr.only.visit_atom hn]
      refine (hatom n here hn).mono fun m hm => ⟨?_, hm⟩
      cases n <;> cases hn <;> exact nofun
    · have hr' : r.Relates I fails T fun i j => i.All (r.Visited I) ∧ R i j :=
        { only := hr.only
          advance := hr.advance
          keep := fun h hsame => ⟨h.1, hr.keep h.2 hsame⟩
          kind := fun h => hr.kind h.2
          param := fun h => hr.param h.2
          label := hr.label }
      have hi (n : Node) (hn : i = .node n) : n.isAtomic = false :=
        Bool.eq_false_iff.mpr fun hatom => hc ⟨n, hn, hatom⟩
      apply hr'.step hi
      · intro c hc
        exact (ih c hc).mono fun j hj => ⟨hj.2, hj.1⟩
      · intro a fresh out hs hout
        obtain ⟨hvisited, hout⟩ := hout.split
        have hR := hu i a fresh out (.mk here below) hi hs hout
        cases out with
        | error e => exact hR
        | ok j => exact ⟨hvisited, hR⟩

end Rewriter

end ExprTree
