import ExprTree.Eval.Construct

/-! The evaluator. -/
namespace ExprTree

/-- One node, its children being evaluated by `ev`. -/
def Evaluator.node (ev : Evaluator) : Node → Eval Value
  | .constant _ v _ => return v
  | .default _ t => return .zero t
  | .param p => Evaluator.lookup p
  | .binary _ op l r m c _ => ev.evalBinary op l r m c
  | .unary _ op x m t => ev.evalUnary op x m t
  | .typeTest _ test x t => ev.evalTypeTest test x t
  | .conditional _ test a b t => ev.evalConditional test a b t
  | .call _ x m args => ev.evalCall x m args
  | .invoke _ f args _ => ev.evalInvoke f args
  | .new c => ev.evalNew c
  | .newArray _ form e items => ev.evalNewArray form e items
  | .member _ x m => ev.evalMember x m
  | .index _ x i args _ => ev.evalIndex x i args
  | .lambda f => Evaluator.closure f
  | .block _ vars body t => ev.evalBlock vars body t
  | .loop _ body b c => ev.runLoop body b c ev.depth
  | .label _ l x => ev.evalLabel l x
  | .goto _ _ l x _ => ev.evalGoto l x
  | .switch _ v cases x m t => ev.evalSwitch v cases x m t
  | .guarded _ body handlers fin fault => ev.evalGuarded body handlers fin fault
  | .listInit _ c inits => ev.evalListInit c inits
  | .memberInit _ c bindings => ev.evalMemberInit c bindings
  | .extension _ name _ x _ => ev.evalExtension name x

/-- Evaluates a node to a depth: each node costs one step, and its children may go one level less
deep. -/
def eval (host : Host) : Nat → Node → Eval Value
  | 0, _ => Eval.endless
  | n + 1, node => do
    Eval.tick
    Evaluator.node ⟨host, n, eval host n⟩ node

/-- The evaluator of a given depth. -/
def evaluator (host : Host) (depth : Nat) : Evaluator := ⟨host, depth, eval host depth⟩

end ExprTree
