import ExprTree.Operator.Element
import ExprTree.Operator.Unary

/-! Text and native operators read the arrays, lists and objects of the store, and never its
delegates. -/
namespace ExprTree

/-- The store without its delegates. -/
def Store.bare (s : Store) : Store := { s with delegates := .empty }

variable (s : Store) (f : Nat → Option String)

/-! ### Text -/

mutual

theorem Value.textWith_bare : (v : Value) →
    v.textWith s.bare f = v.textWith s f
  | .expr n => by simp only [Value.textWith, Node.textWith_bare n]
  | .object .. | .list .. => by simp only [Value.textWith]; rfl
  | .void | .null | .bool _ | .char _ | .int .. | .float32 _ | .float64 _ | .decimal _ | .str _
  | .array .. | .delegate .. => by simp only [Value.textWith]

theorem Node.textWith_bare : (n : Node) →
    n.textWith s.bare f = n.textWith s f
  | .constant _ v _ => by
    have := Value.textWith_bare v
    cases v <;> simp only [Node.textWith, this]
  | .default .. | .param _ | .extension .. => by simp only [Node.textWith]
  | .unary _ _ none _ _ | .member _ none _ | .label _ _ none | .goto _ _ _ none _ => by
    simp only [Node.textWith]
  | .unary _ _ (some x) _ _ | .member _ (some x) _ | .label _ _ (some x) | .goto _ _ _ (some x) _
  | .typeTest _ _ x _ | .loop _ x _ _ => by
    simp only [Node.textWith, Node.textWith_bare x]
  | .binary _ _ l r _ _ _ => by
    simp only [Node.textWith, Node.textWith_bare l, Node.textWith_bare r]
  | .conditional _ c a b _ => by
    simp only [Node.textWith, Node.textWith_bare c, Node.textWith_bare a,
      Node.textWith_bare b]
  | .call _ none _ args => by simp only [Node.textWith, Node.textsWith_bare args]
  | .call _ (some x) _ args | .invoke _ x args _ | .index _ x _ args _ => by
    simp only [Node.textWith, Node.textWith_bare x, Node.textsWith_bare args]
  | .new c => by simp only [Node.textWith, Construction.textWith_bare c]
  | .newArray _ _ _ ns | .block _ _ ns _ => by
    simp only [Node.textWith, Node.textsWith_bare ns]
  | .lambda g => by simp only [Node.textWith, Lambda.textWith_bare g]
  | .switch _ x cases none _ _ => by
    simp only [Node.textWith, Node.textWith_bare x, SwitchCase.textsWith_bare cases]
  | .switch _ x cases (some y) _ _ => by
    simp only [Node.textWith, Node.textWith_bare x, Node.textWith_bare y,
      SwitchCase.textsWith_bare cases]
  | .guarded _ x hs none none => by
    simp only [Node.textWith, Node.textWith_bare x, CatchClause.textsWith_bare hs]
  | .guarded _ x hs (some y) none | .guarded _ x hs none (some y) => by
    simp only [Node.textWith, Node.textWith_bare x, Node.textWith_bare y,
      CatchClause.textsWith_bare hs]
  | .guarded _ x hs (some y) (some z) => by
    simp only [Node.textWith, Node.textWith_bare x, Node.textWith_bare y,
      Node.textWith_bare z, CatchClause.textsWith_bare hs]
  | .listInit _ c is => by
    simp only [Node.textWith, Construction.textWith_bare c, ElementInit.textsWith_bare is]
  | .memberInit _ c bs => by
    simp only [Node.textWith, Construction.textWith_bare c,
      MemberBinding.textsWith_bare bs]

theorem Node.textsWith_bare : (ns : List Node) →
    Node.textsWith s.bare f ns = Node.textsWith s f ns
  | [] => by simp only [Node.textsWith]
  | n :: ns => by simp only [Node.textsWith, Node.textWith_bare n, Node.textsWith_bare ns]

theorem Lambda.textWith_bare : (g : Lambda) →
    g.textWith s.bare f = g.textWith s f
  | .mk _ _ body _ _ => by simp only [Lambda.textWith, Node.textWith_bare body]

theorem Construction.textWith_bare : (c : Construction) →
    c.textWith s.bare f = c.textWith s f
  | .mk _ _ args => by simp only [Construction.textWith, Node.textsWith_bare args]

theorem SwitchCase.textWith_bare : (c : SwitchCase) →
    c.textWith s.bare f = c.textWith s f
  | .mk _ tests body => by
    simp only [SwitchCase.textWith, Node.textsWith_bare tests, Node.textWith_bare body]

theorem SwitchCase.textsWith_bare : (cs : List SwitchCase) →
    SwitchCase.textsWith s.bare f cs = SwitchCase.textsWith s f cs
  | [] => by simp only [SwitchCase.textsWith]
  | c :: cs => by
    simp only [SwitchCase.textsWith, SwitchCase.textWith_bare c,
      SwitchCase.textsWith_bare cs]

theorem CatchClause.textWith_bare : (h : CatchClause) →
    h.textWith s.bare f = h.textWith s f
  | .mk _ _ _ none body => by simp only [CatchClause.textWith, Node.textWith_bare body]
  | .mk _ _ _ (some x) body => by
    simp only [CatchClause.textWith, Node.textWith_bare x, Node.textWith_bare body]

theorem CatchClause.textsWith_bare : (hs : List CatchClause) →
    CatchClause.textsWith s.bare f hs = CatchClause.textsWith s f hs
  | [] => by simp only [CatchClause.textsWith]
  | h :: hs => by
    simp only [CatchClause.textsWith, CatchClause.textWith_bare h,
      CatchClause.textsWith_bare hs]

theorem ElementInit.textWith_bare : (i : ElementInit) →
    i.textWith s.bare f = i.textWith s f
  | .mk _ _ args => by simp only [ElementInit.textWith, Node.textsWith_bare args]

theorem ElementInit.textsWith_bare : (is : List ElementInit) →
    ElementInit.textsWith s.bare f is = ElementInit.textsWith s f is
  | [] => by simp only [ElementInit.textsWith]
  | i :: is => by
    simp only [ElementInit.textsWith, ElementInit.textWith_bare i,
      ElementInit.textsWith_bare is]

theorem MemberBinding.textWith_bare : (b : MemberBinding) →
    b.textWith s.bare f = b.textWith s f
  | .assign _ _ x => by simp only [MemberBinding.textWith, Node.textWith_bare x]
  | .nested _ _ bs => by simp only [MemberBinding.textWith, MemberBinding.textsWith_bare bs]
  | .list _ _ is => by simp only [MemberBinding.textWith, ElementInit.textsWith_bare is]

theorem MemberBinding.textsWith_bare : (bs : List MemberBinding) →
    MemberBinding.textsWith s.bare f bs = MemberBinding.textsWith s f bs
  | [] => by simp only [MemberBinding.textsWith]
  | b :: bs => by
    simp only [MemberBinding.textsWith, MemberBinding.textWith_bare b,
      MemberBinding.textsWith_bare bs]

end
/-! ### Arrays and operators -/

theorem Store.arrayText_bare (n addr : Nat) : s.bare.arrayText n addr = s.arrayText n addr := by
  induction n generalizing addr with
  | zero => rfl
  | succ n ih =>
    have hf : s.bare.arrayText n = s.arrayText n := funext ih
    have hv : (Value.textWith s.bare (s.arrayText n) ·) = (Value.textWith s (s.arrayText n) ·) :=
      funext fun v => Value.textWith_bare s _ v
    simp only [Store.arrayText, hf, hv]
    rfl

variable (a b : Value)

theorem Value.text?_bare : a.text? s.bare = a.text? s := by
  have hf : s.bare.textOfArray = s.textOfArray := funext fun addr => s.arrayText_bare _ addr
  rw [Value.text?, Value.text?, hf, Value.textWith_bare]

theorem concat_bare : concat s.bare a b = concat s a b := by
  have h (v : Value) : v.concatText? s.bare = v.concatText? s := by
    cases v <;> first | rfl | exact Value.text?_bare s _
  simp only [concat, h]

theorem NodeKind.applyBinary_bare (op : NodeKind) :
    op.applyBinary s.bare a b = op.applyBinary s a b := by
  unfold NodeKind.applyBinary
  split <;> first | rfl | simp only [concat_bare]

theorem NodeKind.applyUnary_bare (op : NodeKind) : op.applyUnary s.bare a = op.applyUnary s a := by
  cases a <;> rfl

theorem Value.element_bare : Value.element s.bare a b = Value.element s a b := by
  cases a <;> rfl

theorem Store.readElement_bare (addr position : Nat) :
    s.bare.readElement addr position = s.readElement addr position := rfl

end ExprTree
