import ExprTree.Proofs.NodePlan

/-! Assignment nodes of all forms. Each finds the place of its target, makes what it stores there,
and writes the place last. -/
namespace ExprTree

/-- Whether the node has the value of before the step. -/
def UnaryOp.isPost : UnaryOp → Bool
  | .postIncrement | .postDecrement => true
  | _ => false

/-- How an assignment node comes to what it stores. -/
inductive Assignment where
  | plain (right : Node)
  | compound (op : Arith) (right : Node) (m : Option Method) (conversion : Option Lambda)
  | step (op : UnaryArith) (post : Bool) (m : Option Method)

/-- The right operand, which increments and decrements lack. -/
def Assignment.right? : Assignment → Option Node
  | .plain right | .compound _ right _ _ => some right
  | .step .. => none

/-- The target of an assignment node, and how it comes to what it stores. -/
def Node.assignment? : Node → Option (Node × Assignment)
  | .binary _ .assign target right _ _ _ => some (target, .plain right)
  | .binary _ (.compound op) target right m conversion _ =>
    some (target, .compound op right m conversion)
  | .unary _ op (some target) m _ => op.step?.map fun a => (target, .step a op.isPost m)
  | _ => none

/-- The receiver and the indices of a target. -/
def Node.operands : Node → List Node
  | .member _ object _ => object.toList
  | .index _ object _ args _ => object :: args
  | _ => []

namespace Plan

/-- A conversion lambda converts what an operator method gives. -/
def converted (m : Option Method) (conversion : Option Lambda) (v : Value) : Plan Value :=
  match m, conversion with
  | some _, some f => .act (.convert f v) .pure
  | _, _ => pure v

/-- The place of a target for the values of its operands. -/
def resolve : Node → List Value → Plan Place
  | .param p, _ => return .slot p
  | .member _ (some _) m, v :: _ =>
    if v.isNull then
      fault (.invalidOperation ("\x60" ++ m.name ++ "\x60 accessed through a null reference"))
    else return .member (some v) m
  | .member _ _ m, _ => return .member none m
  | .index _ _ indexer _ _, target :: args => match indexer, args with
    | some i, args => do
      indexed i target
      return .item target i args
    | none, [index] => do
      let (addr, position) ← element target index
      return .element addr position
    | none, args => fatal (.arityMismatch "array index" 1 args.length)
  | n, _ => fatal (.notAssignable n.kind)

/-- What is stored in the place, and the value of the node. -/
def produce : Assignment → Place → Plan (Value × Value)
  | .plain right, _ => do
    let v ← eval right
    return (v, v)
  | .compound op right m conversion, place => do
    let a ← read place
    let b ← eval right
    let v ← applyBinary (.binary (.arith op)) m a b
    let v ← converted m conversion v
    return (v, v)
  | .step op post m, place => do
    let old ← read place
    let new ← applyUnary (.unary (.arith op)) m old
    return (new, if post then old else new)

/-- Writes the place, and has the value. -/
def store (place : Place) (produced : Value × Value) : Plan Value := do
  write place produced.1
  return produced.2

variable {n target : Node} {a : Assignment}

theorem assignment_plan (h : n.assignment? = some (target, a)) :
    n.plan = place target >>= fun pl => produce a pl >>= store pl := by
  cases n with
  | binary _ op l r m f _ =>
    cases op with
    | assign =>
      cases h
      simp [Node.plan, evalBinary, assignment, produce, store]
    | compound op =>
      cases h
      simp only [Node.plan, evalBinary, compound, produce, store, bind_assoc, pure_bind]
      cases m <;> cases f <;> rfl
    | _ => cases h
  | unary _ op x m _ =>
    cases x with
    | none => cases h
    | some x =>
      cases op <;> cases h
      all_goals simp [Node.plan, evalUnary, step, produce, store, UnaryOp.isPost]
  | _ => cases h

/-- The operands of a target are evaluated first. -/
theorem place_eq : place target = evalAll target.operands >>= resolve target := by
  cases target with
  | member _ object m =>
    cases object with
    | none => rfl
    | some x =>
      simp only [place, receiver?, receiver, Node.operands, Option.toList, evalAll, map_bind,
        bind_assoc, pure_bind]
      refine congrArg _ (funext fun v => ?_)
      rw [resolve]
      split <;> rfl
  | index _ object i args _ =>
    simp only [place, Node.operands, evalAll, bind_assoc, pure_bind]
    rfl
  | _ => rfl

/-- To evaluate a target is to read its place. -/
theorem target_plan (h : target.isAssignable) : target.plan = place target >>= read := by
  cases target with
  | param p => rfl
  | member _ object m => simp [Node.plan, evalMember, place, read]
  | index _ object i args _ =>
    simp only [Node.plan, evalIndex, place, bind_assoc]
    refine congrArg _ (funext fun x => congrArg _ (funext fun vs => ?_))
    cases i with
    | some i => simp [read]
    | none =>
      cases vs with
      | nil => rfl
      | cons v vs =>
        cases vs with
        | nil => simp [read]
        | cons w vs => rfl
  | _ => cases h

end Plan

end ExprTree
