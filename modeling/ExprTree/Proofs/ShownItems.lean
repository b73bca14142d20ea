import ExprTree.Proofs.Items
import ExprTree.Tree.Text

/-! What the text of a value or a tree is made of: the texts of the items that it shows, and those
of the arrays that stand in them as constants. -/
namespace ExprTree

/-! ### Lists of texts -/

section

variable {α β : Type} {g h : α → Option β} {xs : List α}

theorem any_const {o : Option α} {b : Bool} : o.any (fun _ => b) = (o.isSome && b) := by
  cases o <;> simp

theorem isSome_mapM : (xs.mapM g).isSome = xs.all fun x => (g x).isSome := by
  induction xs with
  | nil => rfl
  | cons x xs ih => simp [List.mapM_cons, Option.isSome_bind, any_const, ih]

@[congr] theorem mapM_congr {ys : List α} (hys : xs = ys) (hx : ∀ x ∈ ys, g x = h x) :
    xs.mapM g = ys.mapM h := by
  subst hys
  induction xs with
  | nil => rfl
  | cons x xs ih =>
    rw [List.forall_mem_cons] at hx
    rw [List.mapM_cons, List.mapM_cons, hx.1, ih hx.2]

end

variable {s : Store} {f g : Nat → Option String}

theorem Node.textsWith_eq (ns : List Node) : Node.textsWith s f ns = ns.mapM (·.textWith s f) := by
  induction ns with
  | nil => rfl
  | cons n ns ih => rw [Node.textsWith, List.mapM_cons, ih]

theorem SwitchCase.textsWith_eq (cs : List SwitchCase) :
    SwitchCase.textsWith s f cs = cs.mapM (·.textWith s f) := by
  induction cs with
  | nil => rfl
  | cons c cs ih => rw [SwitchCase.textsWith, List.mapM_cons, ih]

theorem CatchClause.textsWith_eq (hs : List CatchClause) :
    CatchClause.textsWith s f hs = hs.mapM (·.textWith s f) := by
  induction hs with
  | nil => rfl
  | cons h hs ih => rw [CatchClause.textsWith, List.mapM_cons, ih]

theorem ElementInit.textsWith_eq (is : List ElementInit) :
    ElementInit.textsWith s f is = is.mapM (·.textWith s f) := by
  induction is with
  | nil => rfl
  | cons i is ih => rw [ElementInit.textsWith, List.mapM_cons, ih]

theorem MemberBinding.textsWith_eq (bs : List MemberBinding) :
    MemberBinding.textsWith s f bs = bs.mapM (·.textWith s f) := by
  induction bs with
  | nil => rfl
  | cons b bs ih => rw [MemberBinding.textsWith, List.mapM_cons, ih]

/-! ### Items -/

namespace Item

/-- The items whose texts go into that of the item. An operator's conversion is not shown, and an
extension only by its name; the constant of a quoted tree shows that. -/
def shown : Item → List Item
  | .node (.constant _ (.expr n) _) => [.node n]
  | .node (.binary _ _ l r _ _ _) => [.node l, .node r]
  | .node (.extension ..) => []
  | i => i.children

/-- The array whose text stands for the item. -/
def array? : Item → Option Nat
  | .node (.constant _ (.array _ addr) _) => some addr
  | _ => none

def textWith (s : Store) (f : Nat → Option String) : Item → Option String
  | .node n => n.textWith s f
  | .switchCase c => c.textWith s f
  | .catchClause h => h.textWith s f
  | .elementInit i => i.textWith s f
  | .memberBinding b => b.textWith s f

variable {i : Item}

theorem sizeOf_shown (i : Item) : ∀ c ∈ i.shown, sizeOf c < sizeOf i := by
  unfold shown
  split
  · simp
    omega
  · simp
    omega
  · exact nofun
  · exact i.sizeOf_child

/-- An item has a text if all that it shows has one, and its text depends on nothing else. -/
theorem text_of_shown (s : Store) (f g : Nat → Option String) (i : Item) :
    ((i.textWith s f).isSome ↔ (∀ c ∈ i.shown, (c.textWith s f).isSome) ∧
      ∀ a ∈ i.array?, (f a).isSome) ∧
    ((∀ c ∈ i.shown, c.textWith s f = c.textWith s g) → (∀ a ∈ i.array?, f a = g a) →
      i.textWith s f = i.textWith s g) := by
  cases i
  case' node n => cases n
  case' node.constant id v t => cases v
  case' node.unary id op x m t => cases x
  case' node.call id x m as => cases x
  case' node.member id x m => cases x
  case' node.new c => cases c
  case' node.lambda c => cases c
  case' node.label id l x => cases x
  case' node.goto id kind l x t => cases x
  case' node.switch id v cs x m t => cases x
  case' node.guarded id b hs fin fault => cases fin <;> cases fault
  case' switchCase c => cases c
  case' catchClause h => rcases h with ⟨_, _, var, _ | filter, _⟩
  case' elementInit e => cases e
  case' memberBinding b => cases b
  all_goals
    simp only [shown, array?, children, Node.isSealed, Node.parts, Parts.items, Construction.args,
      Lambda.body, Lambda.params, SwitchCase.tests, SwitchCase.body, CatchClause.var,
      CatchClause.filter, CatchClause.body, ElementInit.args]
    simp only [textWith, Node.textWith, Value.textWith, Lambda.textWith, Construction.textWith,
      SwitchCase.textWith, CatchClause.textWith, ElementInit.textWith, MemberBinding.textWith,
      Node.textsWith_eq, SwitchCase.textsWith_eq, CatchClause.textsWith_eq,
      ElementInit.textsWith_eq, MemberBinding.textsWith_eq]
    constructor
    · simp [Option.isSome_bind, any_const, isSome_mapM, Node.textWith, or_imp, forall_and]
    · simp +contextual [Node.textWith, or_imp, forall_and]

/-- An array whose text goes into that of the item. -/
inductive Shows : Item → Nat → Prop where
  | array {i : Item} {a : Nat} (h : i.array? = some a) : Shows i a
  | part {i c : Item} {a : Nat} (hc : c ∈ i.shown) (h : Shows c a) : Shows i a

theorem textWith_isSome (s : Store) (f : Nat → Option String) (i : Item) :
    (i.textWith s f).isSome ↔ ∀ a, i.Shows a → (f a).isSome := by
  have ih : ∀ c ∈ i.shown, ((c.textWith s f).isSome ↔ ∀ a, c.Shows a → (f a).isSome) := fun c hc =>
    have := sizeOf_shown i c hc
    textWith_isSome s f c
  rw [(text_of_shown s f f i).1]
  constructor
  · rintro ⟨hshown, harray⟩ a (h | ⟨hc, h⟩)
    · exact harray a h
    · exact (ih _ hc).mp (hshown _ hc) a h
  · intro h
    exact ⟨fun c hc => (ih c hc).mpr fun a ha => h a (.part hc ha), fun a ha => h a (.array ha)⟩
termination_by sizeOf i

theorem textWith_congr (s : Store) {f g : Nat → Option String} (i : Item)
    (h : ∀ a, i.Shows a → f a = g a) : i.textWith s f = i.textWith s g :=
  (text_of_shown s f g i).2
    (fun c hc =>
      have := sizeOf_shown i c hc
      textWith_congr s c fun a ha => h a (.part hc ha))
    fun a ha => h a (.array ha)
termination_by sizeOf i

end Item

/-- An array whose text goes into that of the value. -/
def Value.Shows (v : Value) (addr : Nat) : Prop :=
  match v with
  | .array _ a => a = addr
  | .expr n => (Item.node n).Shows addr
  | _ => False

theorem Value.textWith_isSome {v : Value} :
    (v.textWith s f).isSome ↔ ∀ a, v.Shows a → (f a).isSome := by
  cases v with
  | array e a => simp [textWith, Shows]
  | expr n =>
    rw [textWith]
    exact Item.textWith_isSome s f (.node n)
  | _ => simp [textWith, Shows]

theorem Value.textWith_congr {v : Value} (h : ∀ a, v.Shows a → f a = g a) :
    v.textWith s f = v.textWith s g := by
  cases v with
  | array e a =>
    rw [textWith, textWith]
    exact h a rfl
  | expr n =>
    rw [textWith, textWith]
    exact Item.textWith_congr s (.node n) h
  | _ => rw [textWith, textWith]

end ExprTree
