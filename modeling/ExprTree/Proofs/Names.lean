import ExprTree.Tree

/-! The nodes that a node evaluates, and the labels and parameters that a tree refers to without
binding them. -/
namespace ExprTree

/-- What a tree refers to: a jump target or a slot, by its id. -/
inductive Symbol where
  | label (id : Nat)
  | param (id : Nat)
  deriving DecidableEq

mutual

def MemberBinding.nodes : MemberBinding → List Node
  | .assign _ _ v => [v]
  | .nested _ _ bs => bindingNodes bs
  | .list _ _ is => is.flatMap ElementInit.args

def bindingNodes : List MemberBinding → List Node
  | [] => []
  | b :: bs => b.nodes ++ bindingNodes bs

end

theorem bindingNodes_eq (bs : List MemberBinding) :
    bindingNodes bs = bs.flatMap MemberBinding.nodes := by
  induction bs with
  | nil => rw [bindingNodes, List.flatMap_nil]
  | cons b bs ih => rw [bindingNodes, ih, List.flatMap_cons]

def SwitchCase.nodes (c : SwitchCase) : List Node := c.tests ++ [c.body]

def CatchClause.nodes (h : CatchClause) : List Node := h.filter.toList ++ [h.body]

/-- The nodes that a node evaluates, a conversion as the lambda it is; a quoted tree is data. -/
def Node.children : Node → List Node
  | .constant .. | .default .. | .param _ | .unary _ .quote _ _ _ => []
  | .binary _ _ l r _ c _ => l :: r :: (c.map .lambda).toList
  | .unary _ _ x _ _ | .member _ x _ | .label _ _ x | .goto _ _ _ x _
  | .extension _ _ _ x _ => x.toList
  | .typeTest _ _ x _ => [x]
  | .conditional _ test a b _ => [test, a, b]
  | .call _ x _ args => x.toList ++ args
  | .invoke _ f args _ => f :: args
  | .new c => c.args
  | .newArray _ _ _ items => items
  | .index _ x _ args _ => x :: args
  | .lambda f => [f.body]
  | .block _ _ body _ => body
  | .loop _ body _ _ => [body]
  | .switch _ v cases x _ _ => v :: (cases.flatMap SwitchCase.nodes ++ x.toList)
  | .guarded _ body handlers fin fault =>
    body :: (handlers.flatMap CatchClause.nodes ++ (fin.toList ++ fault.toList))
  | .listInit _ c inits => c.args ++ inits.flatMap ElementInit.args
  | .memberInit _ c bindings => c.args ++ bindingNodes bindings

/-- The property holds of the node and of all nodes evaluated below it. -/
inductive Node.All (P : Node → Prop) : Node → Prop where
  | mk {n : Node} (here : P n) (below : ∀ c ∈ n.children, All P c) : All P n

theorem Node.All.here {P : Node → Prop} {n : Node} (h : n.All P) : P n := by
  cases h with
  | mk here _ => exact here

theorem Node.All.child {P : Node → Prop} {n c : Node} (h : n.All P) (hc : c ∈ n.children) :
    c.All P := by
  cases h with
  | mk _ below => exact below c hc

def Param.symbol (p : Param) : Symbol := .param p.id

def Label.symbol (l : Label) : Symbol := .label l.id

/-- The parameters that a node names itself. -/
def Node.slots : Node → List Param
  | .param p => [p]
  | .lambda f => f.params
  | .block _ vars _ _ => vars
  | .guarded _ _ handlers _ _ => handlers.filterMap CatchClause.var
  | _ => []

/-- The labels that a node names itself. -/
def Node.targets : Node → List Label
  | .loop _ _ b c => b.toList ++ c.toList
  | .label _ l _ | .goto _ _ l _ _ => [l]
  | _ => []

/-- The targets of the label nodes of a sequence. -/
def labelsOf (ns : List Node) : List Symbol := ns.filterMap fun
  | .label _ l _ => some l.symbol
  | _ => none

theorem eq_symbol_of_mem_labelsOf {x : Symbol} {ns : List Node} (h : x ∈ labelsOf ns) :
    ∃ l : Label, x = l.symbol := by
  obtain ⟨n, _, hn⟩ := List.mem_filterMap.mp h
  cases n with
  | label id l y => exact ⟨l, by simpa [eq_comm] using hn⟩
  | _ => cases hn

mutual

/-- The labels and parameters that a node refers to and does not bind. -/
def Node.free : Node → List Symbol
  | .constant .. | .default .. | .unary _ .quote _ _ _ => []
  | .param p => [p.symbol]
  | .binary _ _ l r _ c _ => l.free ++ r.free ++ freeConversion c
  | .unary _ _ x _ _ => freeOption x
  | .typeTest _ _ x _ => x.free
  | .conditional _ test a b _ => test.free ++ a.free ++ b.free
  | .call _ x _ args => freeOption x ++ freeAll args
  | .invoke _ f args _ => f.free ++ freeAll args
  | .new c => c.free
  | .newArray _ _ _ items => freeAll items
  | .member _ x _ => freeOption x
  | .index _ x _ args _ => x.free ++ freeAll args
  | .lambda f => f.free
  | .block _ vars body _ => (freeAll body).filter (· ∉ vars.map Param.symbol ++ labelsOf body)
  | .loop _ body b c => body.free.filter (· ∉ (b.toList ++ c.toList).map Label.symbol)
  | .label _ l x => (freeOption x).filter (· ≠ l.symbol)
  | .goto _ _ l x _ => l.symbol :: freeOption x
  | .switch _ v cases x _ _ => v.free ++ freeCases cases ++ freeOption x
  | .guarded _ body handlers fin fault =>
    body.free ++ freeClauses handlers ++ freeOption fin ++ freeOption fault
  | .listInit _ c inits => c.free ++ freeInits inits
  | .memberInit _ c bindings => c.free ++ freeBindings bindings
  | .extension _ _ _ x _ => freeOption x

/-- No jump leaves a lambda, so its labels are not free. -/
def Lambda.free : Lambda → List Symbol
  | .mk _ _ body ps _ => body.free.filter fun
    | .label _ => false
    | .param i => i ∉ ps.map Param.id

def Construction.free : Construction → List Symbol
  | .mk _ _ args => freeAll args

def freeOption : Option Node → List Symbol
  | none => []
  | some n => n.free

def freeConversion : Option Lambda → List Symbol
  | none => []
  | some f => f.free

def freeAll : List Node → List Symbol
  | [] => []
  | n :: ns => n.free ++ freeAll ns

def freeCases : List SwitchCase → List Symbol
  | [] => []
  | .mk _ tests body :: cs => freeAll tests ++ body.free ++ freeCases cs

/-- The variable is bound in the filter and in the body. -/
def freeClauses : List CatchClause → List Symbol
  | [] => []
  | .mk _ _ v filter body :: hs =>
    (freeOption filter ++ body.free).filter (· ∉ v.toList.map Param.symbol) ++ freeClauses hs

def freeInits : List ElementInit → List Symbol
  | [] => []
  | .mk _ _ args :: is => freeAll args ++ freeInits is

def MemberBinding.free : MemberBinding → List Symbol
  | .assign _ _ v => v.free
  | .nested _ _ bs => freeBindings bs
  | .list _ _ is => freeInits is

def freeBindings : List MemberBinding → List Symbol
  | [] => []
  | b :: bs => b.free ++ freeBindings bs

end

/-! ### Free names come from the nodes evaluated -/

variable {x : Symbol} {n c : Node} {ns : List Node}

@[simp] theorem mem_freeAll : x ∈ freeAll ns ↔ ∃ n ∈ ns, x ∈ n.free := by
  induction ns with
  | nil => simp [freeAll]
  | cons n ns ih => simp [freeAll, ih]

@[simp] theorem mem_freeOption {o : Option Node} : x ∈ freeOption o ↔ ∃ n ∈ o, x ∈ n.free := by
  cases o <;> simp [freeOption]

@[simp] theorem mem_freeConversion {f : Option Lambda} :
    x ∈ freeConversion f ↔ ∃ g ∈ f, x ∈ g.free := by
  cases f <;> simp [freeConversion]

@[simp] theorem mem_freeCases {cs : List SwitchCase} :
    x ∈ freeCases cs ↔ ∃ c ∈ cs, ∃ n ∈ c.nodes, x ∈ n.free := by
  induction cs with
  | nil => simp [freeCases]
  | cons c cs ih =>
    obtain ⟨i, tests, body⟩ := c
    have hn : (SwitchCase.mk i tests body).nodes = tests ++ [body] := rfl
    simp [freeCases, ih, hn, or_and_right, exists_or, or_assoc]

@[simp] theorem mem_freeClauses {hs : List CatchClause} : x ∈ freeClauses hs ↔
    ∃ h ∈ hs, (∃ n ∈ h.nodes, x ∈ n.free) ∧ x ∉ h.var.toList.map Param.symbol := by
  induction hs with
  | nil => simp [freeClauses]
  | cons h hs ih =>
    obtain ⟨i, t, v, f, b⟩ := h
    have hn : (CatchClause.mk i t v f b).nodes = f.toList ++ [b] := rfl
    have hv : (CatchClause.mk i t v f b).var = v := rfl
    simp [freeClauses, ih, hn, hv, or_and_right, exists_or, or_assoc]

@[simp] theorem mem_freeInits {is : List ElementInit} :
    x ∈ freeInits is ↔ ∃ i ∈ is, ∃ n ∈ i.args, x ∈ n.free := by
  induction is with
  | nil => simp [freeInits]
  | cons i is ih =>
    obtain ⟨k, m, args⟩ := i
    simp [freeInits, ih, ElementInit.args]

mutual

theorem MemberBinding.mem_free : (b : MemberBinding) → (x ∈ b.free ↔ ∃ n ∈ b.nodes, x ∈ n.free)
  | .assign .. => by simp [MemberBinding.free, MemberBinding.nodes]
  | .nested _ _ bs => by simp [MemberBinding.free, MemberBinding.nodes, mem_freeBindings bs]
  | .list .. => by
    simp [MemberBinding.free, MemberBinding.nodes]
    grind

theorem mem_freeBindings : (bs : List MemberBinding) →
    (x ∈ freeBindings bs ↔ ∃ n ∈ bindingNodes bs, x ∈ n.free)
  | [] => by simp [freeBindings, bindingNodes]
  | b :: bs => by
    simp [freeBindings, bindingNodes, MemberBinding.mem_free b, mem_freeBindings bs, or_and_right,
      exists_or]

end

@[simp] theorem Construction.mem_free {c : Construction} :
    x ∈ c.free ↔ ∃ n ∈ c.args, x ∈ n.free := by
  obtain ⟨i, k, args⟩ := c
  simp [Construction.free, Construction.args]

theorem Lambda.mem_free {f : Lambda} :
    x ∈ f.free ↔ x ∈ f.body.free ∧ ∃ i, x = .param i ∧ i ∉ f.params.map Param.id := by
  obtain ⟨i, name, body, ps, r⟩ := f
  cases x <;> simp [Lambda.free, Lambda.body, Lambda.params]

/-- Whether the node binds nothing over its children. -/
def Node.isOpen : Node → Bool
  | .lambda _ | .block .. | .loop .. | .label .. | .guarded .. => false
  | _ => true

theorem mem_free_of_child (ho : n.isOpen) (hc : c ∈ n.children) (hx : x ∈ c.free) : x ∈ n.free := by
  cases n with
  | unary id op y m t => cases op <;> simp_all [Node.children, Node.free]
  | binary id op l r m f t =>
    simp only [Node.children, List.mem_cons, Option.mem_toList,
      Option.map_eq_some_iff] at hc
    rcases hc with rfl | rfl | ⟨g, hg, rfl⟩
    · simp [Node.free, hx]
    · simp [Node.free, hx]
    · simp only [Node.free, List.mem_append, mem_freeConversion] at hx ⊢
      exact Or.inr ⟨g, hg, hx⟩
  | memberInit id k bs =>
    simp only [Node.children, List.mem_append] at hc
    simp only [Node.free, List.mem_append, Construction.mem_free, mem_freeBindings]
    exact hc.imp (fun h => ⟨c, h, hx⟩) fun h => ⟨c, h, hx⟩
  | _ => simp_all [Node.isOpen, Node.children, Node.free]; try grind

end ExprTree
