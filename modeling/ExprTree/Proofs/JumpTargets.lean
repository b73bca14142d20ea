import ExprTree.Proofs.Coupling
import ExprTree.Proofs.HostCode
import ExprTree.Proofs.LinkedNodes
import ExprTree.Proofs.Names

/-! Jumps go to labels that the tree or the host names. A run is coupled with itself, so that a
label has to be one of those wherever it is translated. -/
namespace ExprTree

/-- Every label that the node names itself is one of `Q`. -/
def Node.Aims (Q : Label → Prop) (n : Node) : Prop := ∀ l ∈ n.targets, Q l

/-- The nodes that are evaluated for the item. -/
def Item.nodes : Item → List Node
  | .node n => [n]
  | .switchCase c => c.nodes
  | .catchClause h => h.nodes
  | .elementInit i => i.args
  | .memberBinding b => b.nodes

/-- The labels of the parts. -/
def Parts.labels {s : Shape} : Parts s → List Label
  | .loop l c _ => l.toList ++ c.toList
  | .label l _ | .goto l _ => [l]
  | _ => []

section

variable {T : Label → Label → Prop} {R : Item → Item → Prop}

theorem option_rel_self {α : Type} {S : α → α → Prop} {x : Option α} :
    Option.Rel S x x ↔ ∀ a ∈ x, S a a := by
  cases x <;> simp

/-- Parts are related to themselves if each of them is. -/
theorem Parts.rel_self {s : Shape} {p : Parts s} (hT : ∀ l ∈ p.labels, T l l)
    (hR : ∀ c ∈ p.items, R c c) : p.Rel T R p := by
  cases p <;> simp_all [Parts.Rel, Parts.items, Parts.labels, List.forall₂_same, option_rel_self,
    Function.onFun]

end

section

variable {Q : Label → Prop} {n : Node} {c : Item} {i : Item}

/-- The item mentions in what is evaluated of it labels of `Q` only. -/
def Item.Aims (Q : Label → Prop) (i : Item) : Prop := ∀ n ∈ i.nodes, n.All (Node.Aims Q)

@[simp] theorem Item.aims_node : (node n).Aims Q ↔ n.All (Node.Aims Q) := List.forall_mem_singleton

theorem Node.aims_param (p : Param) : (Node.param p).All (Node.Aims Q) := .mk nofun nofun

theorem Node.aims_new {k : Construction} (h : ∀ a ∈ k.args, a.All (Node.Aims Q)) :
    (Node.new k).All (Node.Aims Q) :=
  .mk nofun h

theorem Parts.labels_subset : ∀ l ∈ n.parts.labels, l ∈ n.targets := by
  cases n <;> simp [Node.parts, Parts.labels, Node.targets]

/-- What is evaluated of the parts is evaluated of the node, but for the parameters and the
construction, which mention no labels themselves. -/
theorem Item.aims_of_parts (hn : n.isWhole = false) (h : n.All (Node.Aims Q)) :
    ∀ c ∈ n.parts.items, c.Aims Q := by
  have hc (m : Node) (hm : m ∈ n.children) : m.All (Node.Aims Q) := h.child hm
  cases n
  case unary op x k t => cases op <;> cases hn <;> simp_all [Parts.items, Node.parts, Node.children]
  all_goals
    simp only [Node.parts, Parts.items, List.forall_mem_append, List.forall_mem_cons,
      List.forall_mem_map, aims_node, Node.aims_param, implies_true, and_true, true_and]
    simp only [Node.children, List.forall_mem_append, List.forall_mem_cons,
      List.forall_mem_flatMap] at hc
  case listInit => exact ⟨Node.aims_new hc.1, hc.2⟩
  case memberInit =>
    rw [bindingNodes_eq, List.forall_mem_flatMap] at hc
    exact ⟨Node.aims_new hc.1, hc.2⟩
  all_goals first
    | exact hc
    | simp_all [Item.Aims, Item.nodes]

end

/-! ### A run beside itself -/

/-- Everything corresponds to itself, labels if they are of `Q`. -/
def Link.within (Q : Label → Prop) : Link :=
  ⟨fun n m => m = n ∧ n.All (Node.Aims Q), Eq, fun k l => l = k ∧ Q k, Eq⟩

/-- The interpreter that runs a tree with labels of `Q` beside itself, and those of the closures
that it calls. -/
def Coupling.within (Q : Label → Prop) : Coupling Bool where
  link confined := if confined then .within Q else .same
  body := Eq
  foreign := Q
  uncounted := False

section

variable {Q : Label → Prop}

theorem Link.within_targets {l : Label} (h : Q l) : (within Q).Targets l l := ⟨⟨rfl, h⟩, rfl, rfl⟩

theorem Link.within_covers : (within Q).Covers fun i j => j = i ∧ i.Aims Q where
  node := by
    rintro n _ ⟨⟨⟩, h⟩
    exact ⟨rfl, Item.aims_node.mp h⟩
  param := by
    rintro p _ ⟨⟨⟩, -⟩
    exact ⟨rfl, rfl, rfl, rfl⟩
  ty := by
    rintro n _ ⟨⟨⟩, -⟩
    rfl
  atom := by
    rintro n _ ⟨⟨⟩, -⟩ hn
    exact hn
  compound := by
    rintro _ i ⟨rfl, h⟩ hi
    cases i with
    | node n =>
      have h := Item.aims_node.mp h
      obtain ⟨id, hid⟩ := n.exists_over
      have hp : n.parts.Rel (within Q).Targets (fun i j => j = i ∧ i.Aims Q) n.parts := by
        refine Parts.rel_self (fun l hl => ?_) fun c hc => ⟨rfl, ?_⟩
        · exact within_targets (h.here l (Parts.labels_subset l hl))
        · exact Item.aims_of_parts (hi n rfl) h c hc
      have hover := Item.Over.node id hp (by rw [hid]; exact option_rel_self.mpr fun _ _ => rfl)
      rwa [hid] at hover
    | switchCase c =>
      cases c with | mk id tests body => ?_
      obtain ⟨ht, hb⟩ := List.forall_mem_append.mp h
      refine .switchCase id (List.forall₂_same.mpr fun n hn => ⟨rfl, ?_⟩) ⟨rfl, ?_⟩
      · exact Item.aims_node.mpr (ht n hn)
      · exact Item.aims_node.mpr (List.forall_mem_singleton.mp hb)
    | catchClause c =>
      cases c with | mk id test var filter body => ?_
      obtain ⟨hf, hb⟩ := List.forall_mem_append.mp h
      refine .catchClause id (option_rel_self.mpr fun p _ => ⟨rfl, ?_⟩)
        (option_rel_self.mpr fun n hn => ⟨rfl, ?_⟩)
        ⟨rfl, ?_⟩
      · exact Item.aims_node.mpr (Node.aims_param p)
      · exact Item.aims_node.mpr (hf n (Option.mem_toList.mpr hn))
      · exact Item.aims_node.mpr (List.forall_mem_singleton.mp hb)
    | elementInit e =>
      cases e with | mk id add args => ?_
      exact .elementInit id (List.forall₂_same.mpr fun n hn => ⟨rfl, Item.aims_node.mpr (h n hn)⟩)
    | memberBinding b => cases b with
      | assign id m v =>
        exact .assign id ⟨rfl, Item.aims_node.mpr (h v (by simp [Item.nodes, MemberBinding.nodes]))⟩
      | nested id m bs =>
        refine .nested id (List.forall₂_same.mpr fun b hb => ⟨rfl, fun n hn => h n ?_⟩)
        rw [Item.nodes, MemberBinding.nodes, bindingNodes_eq]
        exact List.mem_flatMap_of_mem hb hn
      | list id m is =>
        refine .list id (List.forall₂_same.mpr fun e he => ⟨rfl, fun n hn => h n ?_⟩)
        rw [Item.nodes, MemberBinding.nodes]
        exact List.mem_flatMap_of_mem he hn
  quote := by
    rintro id x k t _ ⟨⟨⟩, -⟩
    exact ⟨id, rfl⟩
  lookup := by
    rintro d _ i _ ⟨⟩ ⟨⟩
    rfl
  label := by
    rintro k _ l _ ⟨rfl, -⟩ ⟨rfl, -⟩
    rfl

theorem Link.within_lawful : (within Q).Lawful where
  enter := same_lawful.enter
  leave := same_lawful.leave
  assign := same_lawful.assign
  label := within_covers.label
  lambda := by
    rintro f _ ⟨⟨⟩, h⟩
    refine ⟨rfl, rfl, List.forall₂_same.mpr fun p _ => ⟨rfl, rfl, rfl, rfl⟩, rfl, ?_⟩
    exact h.child (List.mem_singleton_self _)
  plan {n m} h := by
    obtain ⟨rfl, h⟩ := h
    have hself : Item.node m = .node m ∧ (Item.node m).Aims Q := ⟨rfl, Item.aims_node.mpr h⟩
    cases m with
    | constant id v t => exact .pure rfl
    | param p => exact Plan.linked_read within_covers (.slot ⟨rfl, rfl, rfl, rfl⟩)
    | _ => exact within_covers.plan hself rfl

theorem Coupling.within_lawful : (within Q).Lawful := by
  refine beside_lawful Link.within_lawful (fun _ h => ⟨rfl, h⟩) (fun _ => rfl) ?_ fun _ _ h =>
    .inl h.symm
  rintro f _ d _ l ⟨⟨⟩, -⟩ ⟨⟩
  rfl

end

theorem Host.opaque_of_keeps {host : Host} {Q : Label → Prop}
    (h : host.Keeps (fun _ => True) (·.Within Q)) : host.Opaque Eq Q :=
  fun _ hc => Routine.opaque_of_trusted (fun _ _ => Store.Paired.eq_iff) (h _ hc)

/-- A jump out of a node goes to a label that the node or the host names. -/
theorem eval_jump_within {host : Host} {Q : Label → Prop}
    (hh : host.Keeps (fun _ => True) (·.Within Q)) {n : Node} (hn : n.All (Node.Aims Q))
    {depth : Nat} {s t : State} {l : Label} {v : Value}
    (h : eval host depth n s = .signal (.jump l v) t) : Q l := by
  have hR := coupled Coupling.within_lawful (Host.opaque_of_keeps hh) depth
  have hs : (Coupling.within Q).States true s.env s s :=
    ⟨⟨rfl, rfl, rfl, rfl, .inl rfl⟩, .refl (fun _ => rfl) s.store⟩
  have ho := (hR.eval (i := true) (n := n) (m := n) ⟨rfl, hn⟩ hs).outcome
  change (eval host depth n s).Alike _ _ _ (eval host depth n s) at ho
  rw [h] at ho
  cases ho with | signal hx => ?_
  cases hx with | jump hl => ?_
  exact hl.label.2

end ExprTree
