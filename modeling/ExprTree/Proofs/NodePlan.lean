import ExprTree.Proofs.Plan
import ExprTree.Proofs.ControlNodes

/-! The plan of each node. It is the evaluator's own text over actions, and carrying it out is
evaluating the node. -/
namespace ExprTree

namespace Plan

variable {α : Type}

def eval (n : Node) : Plan Value := .act (.eval n) .pure

def use (c : HandleCall) : Plan Value := .act (.use c) .pure

def fatal (e : EvalError) : Plan α := .signal (.fatal e)

def fault : Fault → Plan α
  | .fatal e => fatal e
  | .raise c m => .act (.newException c m) fun x => .signal (.thrown x)
  | .endless => .endless

def ofExcept : Except Fault α → Plan α
  | .ok a => pure a
  | .error f => fault f

/-! ### Operands and places -/

def evalAll : List Node → Plan (List Value)
  | [] => return []
  | n :: ns => do
    let v ← eval n
    return v :: (← evalAll ns)

def receiver (object : Node) (member : String) : Plan Value := do
  let v ← eval object
  if v.isNull then
    fault (.invalidOperation ("\x60" ++ member ++ "\x60 accessed through a null reference"))
  else return v

def receiver? (object : Option Node) (member : String) : Plan (Option Value) :=
  match object with
  | none => return none
  | some x => some <$> receiver x member

def indexed (i : Indexer) (target : Value) : Plan Unit :=
  if target.isNull then
    fault (.invalidOperation ("indexer \x60" ++ i.name ++ "\x60 accessed through a null reference"))
  else return ()

def element (array index : Value) : Plan (Nat × Nat) :=
  .look fun w => ofExcept (Value.element w.store array index)

def place : Node → Plan Place
  | .param p => return .slot p
  | .member _ object m => do return .member (← receiver? object m.name) m
  | .index _ object indexer args _ => do
    let target ← eval object
    let args ← evalAll args
    match indexer, args with
    | some i, args => do
      indexed i target
      return .item target i args
    | none, [index] => do
      let (addr, position) ← element target index
      return .element addr position
    | none, args => fatal (.arityMismatch "array index" 1 args.length)
  | n => fatal (.notAssignable n.kind)

def lookup (p : Param) : Plan Value :=
  .look fun w => match w.env.lookup p.id with
    | some v => return v
    | none => fatal (.unboundParameter p.text)

def readElement (addr position : Nat) : Plan Value :=
  .look fun w => ofExcept (w.store.readElement addr position)

def writeElement (addr position : Nat) (v : Value) : Plan Unit :=
  .look fun w =>
    let length := (w.store.arrayItems addr).size
    if position < length then .act (.element addr position v) fun _ => return ()
    else fault (.indexOutOfRange position length)

def read : Place → Plan Value
  | .slot p => lookup p
  | .member target m => use (.get m target)
  | .element addr position => readElement addr position
  | .item target i args => use (.getItem i target args)

def write : Place → Value → Plan Unit
  | .slot p, v => .act (.assign p v) fun _ => return ()
  | .member target m, v => .act (.use (.set m target v)) fun _ => return ()
  | .element addr position, v => writeElement addr position v
  | .item target i args, v => .act (.use (.setItem i target args v)) fun _ => return ()

/-! ### Operators -/

def applyBinary (op : NodeKind) (m : Option Method) (a b : Value) : Plan Value :=
  match m with
  | some m => use (.method m none [a, b])
  | none => .look fun w => ofExcept (op.applyBinary w.store a b)

def applyUnary (op : NodeKind) (m : Option Method) (v : Value) : Plan Value :=
  match m with
  | some m => use (.method m none [v])
  | none => .look fun w => ofExcept (op.applyUnary w.store v)

def assignment (target right : Node) : Plan Value := do
  let place ← place target
  let v ← eval right
  write place v
  return v

def compound (op : Arith) (target right : Node) (m : Option Method) (conversion : Option Lambda) :
    Plan Value := do
  let place ← place target
  let a ← read place
  let b ← eval right
  let v ← applyBinary (.binary (.arith op)) m a b
  let v ← match m, conversion with
    | some _, some f => .act (.convert f v) .pure
    | _, _ => pure v
  write place v
  return v

def step (op : UnaryArith) (post : Bool) (target : Node) (m : Option Method) : Plan Value := do
  let place ← place target
  let old ← read place
  let new ← applyUnary (.unary (.arith op)) m old
  write place new
  return if post then old else new

def evalBool (n : Node) : Plan Bool := do
  let v ← eval n
  match v.bool? with
  | some b => return b
  | none => fault (.typeMismatch "bool" v.sortName)

def evalBinary (op : BinaryOp) (l r : Node) (m : Option Method) (conversion : Option Lambda) :
    Plan Value :=
  match op with
  | .assign => assignment l r
  | .compound op => compound op l r m conversion
  | .andAlso => do
    if ← evalBool l then return .bool (← evalBool r) else return .bool false
  | .orElse => do
    if ← evalBool l then return .bool true else return .bool (← evalBool r)
  | .coalesce => do
    let v ← eval l
    if v.isNull then eval r
    else match conversion with
      | some f => .act (.convert f v) .pure
      | none => return v
  | .arrayIndex => do
    let array ← eval l
    let index ← eval r
    let (addr, position) ← element array index
    readElement addr position
  | .arith _ | .compare _ => do
    let a ← eval l
    let b ← eval r
    applyBinary (.binary op) m a b

def evalThrow : Option Node → Plan Value
  | none => .look fun w => match w.handling with
    | x :: _ => .signal (.thrown x)
    | [] => fault (.invalidOperation "rethrow outside of a catch handler")
  | some n => do
    let v ← eval n
    if v.isNull then fault (.raise .nullReference "the thrown value is null")
    else if v.isException then .signal (.thrown v)
    else fatal (.notAnException v.sortName)

def applyUnaryOp (op : UnaryOp) (m : Option Method) (ty : Ty) (v : Value) : Plan Value :=
  match m with
  | some m => use (.method m none [v])
  | none => match op with
    | .convert => ofExcept (v.convert ty false)
    | .convertChecked => ofExcept (v.convert ty true)
    | .typeAs => return v.typeAs ty
    | .unbox => ofExcept (v.unbox ty)
    | .arith .arrayLength =>
      if v.isNull then fault (.invalidOperation "cannot read the length of a null array")
      else applyUnary (.unary op) none v
    | op => applyUnary (.unary op) none v

def evalUnary (op : UnaryOp) (operand : Option Node) (m : Option Method) (ty : Ty) : Plan Value :=
  match op, operand with
  | .throw, x => evalThrow x
  | op, none => fatal (.unsupportedNode (.unary op))
  | .quote, some x => return .expr x
  | .preIncrement, some x => step .increment false x m
  | .preDecrement, some x => step .decrement false x m
  | .postIncrement, some x => step .increment true x m
  | .postDecrement, some x => step .decrement true x m
  | op, some x => do
    let v ← eval x
    applyUnaryOp op m ty v

def evalTypeTest (test : TypeTest) (x : Node) (target : Ty) : Plan Value := do
  let v ← eval x
  return .bool <| match test with
    | .is => v.isInstanceOf target
    | .equal => v.hasExactType target

/-! ### Control -/

def evalConditional (test ifTrue ifFalse : Node) (ty : Ty) : Plan Value := do
  let v ← if ← evalBool test then eval ifTrue else eval ifFalse
  return ty.result v

def evalBlock (vars : List Param) (body : List Node) (ty : Ty) : Plan Value := do
  let v ← match vars with
    | [] => .act (.sequence body) .pure
    | vars =>
      .within (.bindings (vars.map fun p => (p.id, .zero p.ty))) (.act (.sequence body) .pure) .pure
  return ty.result v

def evalLabel (target : Label) (fallback : Option Node) : Plan Value :=
  match fallback with
  | none => return .zero target.ty
  | some x => .attempt (eval x) fun
    | .value v => return v
    | .thrown x => .signal (.thrown x)
    | .jump l v => if l == target then return v else .signal (.jump l v)

def evalGoto (target : Label) (value : Option Node) : Plan Value := do
  let v ← match value with
    | some x => eval x
    | none => pure .void
  .signal (.jump target v)

def matchesCase (comparer : Option Method) (v candidate : Value) : Plan Bool :=
  match comparer with
  | none => return v.valuesEqual candidate
  | some m => do
    let r ← use (.method m none [v, candidate])
    match r.bool? with
    | some b => return b
    | none => fault (.typeMismatch "bool" r.sortName)

def anyMatches (comparer : Option Method) (v : Value) : List Node → Plan Bool
  | [] => return false
  | t :: ts => do
    let candidate ← eval t
    if ← matchesCase comparer v candidate then return true else anyMatches comparer v ts

def selectCase (comparer : Option Method) (v : Value) : List SwitchCase → Plan (Option Node)
  | [] => return none
  | c :: cs => do
    if ← anyMatches comparer v c.tests then return some c.body else selectCase comparer v cs

def evalSwitch (value : Node) (cases : List SwitchCase) (fallback : Option Node)
    (comparer : Option Method) (ty : Ty) : Plan Value := do
  let v ← eval value
  let selected ← selectCase comparer v cases
  match selected.or fallback with
  | some body => return ty.result (← eval body)
  | none => return .zero ty

def accepts (h : CatchClause) (bindings : Slots) : Plan Bool :=
  match h.filter with
  | none => return true
  | some f => .attempt (.within (.bindings bindings) (eval f) .pure) fun
    | .value (.bool b) => return b
    | .value _ | .thrown _ => return false
    | .jump l v => .signal (.jump l v)

def handle (exception : Value) (fault : Option Node) : List CatchClause → Plan Value
  | [] => do
    match fault with
    | some f => let _ ← eval f
    | none => pure ()
    .signal (.thrown exception)
  | h :: hs => do
    let bindings := Evaluator.bindings h exception
    if exception.isInstanceOf h.test then
      if ← accepts h bindings then
        .within (.handling exception) (.within (.bindings bindings) (eval h.body) .pure) .pure
      else handle exception fault hs
    else handle exception fault hs

def guard (body : Node) (handlers : List CatchClause) (fault : Option Node) : Plan Value :=
  .attempt (eval body) fun
    | .value v => return v
    | .thrown x => handle x fault handlers
    | .jump l v => .signal (.jump l v)

def evalGuarded (body : Node) (handlers : List CatchClause) (finalizer fault : Option Node) :
    Plan Value := do
  let v ← match finalizer with
    | none => guard body handlers fault
    | some f => .final (guard body handlers fault) f .pure
  return body.ty.result v

/-! ### Calls, constructions and accesses -/

def evalCall (object : Option Node) (m : Method) (args : List Node) : Plan Value := do
  let receiver ← receiver? object m.name
  let args ← evalAll args
  use (.method m receiver args)

def evalInvoke (callee : Node) (args : List Node) : Plan Value := do
  let f ← eval callee
  let args ← evalAll args
  .act (.invoke f args) .pure

def evalNew (c : Construction) : Plan Value := do
  let args ← evalAll c.args
  use (.construct c.ctor args)

def newSized (elem : Ty) (size : Value) : Plan Value :=
  match size.index? with
  | none => fault (.typeMismatch "integer array size" size.sortName)
  | some n =>
    if n < 0 then fault (.overflow "negative array size")
    else .act (.newArray elem (.replicate n.toNat (.zero elem))) .pure

def evalNewArray (form : ArrayForm) (elem : Ty) (items : List Node) : Plan Value := do
  let values ← evalAll items
  match form, values with
  | .items, values => .act (.newArray elem values.toArray) .pure
  | .bounds, [size] => newSized elem size
  | .bounds, sizes =>
    fault (.unsupported (.newArray .bounds) (sizes.length.repr ++ "-dimensional arrays"))

def evalMember (object : Option Node) (m : Member) : Plan Value := do
  use (.get m (← receiver? object m.name))

def evalIndex (object : Node) (indexer : Option Indexer) (args : List Node) : Plan Value := do
  let target ← eval object
  let args ← evalAll args
  match indexer, args with
  | some i, args => do
    indexed i target
    use (.getItem i target args)
  | none, [index] => do
    let (addr, position) ← element target index
    readElement addr position
  | none, args => fatal (.arityMismatch "array index" 1 args.length)

def addAll (collection : Value) : List ElementInit → Plan Unit
  | [] => return ()
  | i :: is => do
    let args ← evalAll i.args
    let _ ← use (.method i.add (if i.add.isStatic then none else some collection) args)
    addAll collection is

def initialized (what : String) (m : Member) (target : Option Value) : Plan Value := do
  let v ← use (.get m target)
  if v.isNull then
    fault
      (.invalidOperation (what ++ " \x60" ++ m.name ++ "\x60 is null and cannot be initialized"))
  else return v

mutual

def bindMember (target : Value) : MemberBinding → Plan Unit
  | .assign _ m value => do
    let v ← eval value
    .act (.use (.set m (if m.isStatic then none else some target) v)) fun _ => return ()
  | .nested _ m bindings => do
    let v ← initialized "member" m (if m.isStatic then none else some target)
    bindAll v bindings
  | .list _ m inits => do
    let v ← initialized "collection" m (if m.isStatic then none else some target)
    addAll v inits

def bindAll (target : Value) : List MemberBinding → Plan Unit
  | [] => return ()
  | b :: bs => do
    bindMember target b
    bindAll target bs

end

def evalListInit (c : Construction) (inits : List ElementInit) : Plan Value := do
  let v ← evalNew c
  addAll v inits
  return v

def evalMemberInit (c : Construction) (bindings : List MemberBinding) : Plan Value := do
  let v ← evalNew c
  bindAll v bindings
  return v

def evalExtension (name : String) (reduction : Option Node) : Plan Value :=
  match reduction with
  | some n => eval n
  | none => fatal (.invalidReduction name "nothing to reduce to")

end Plan

def Node.plan : Node → Plan Value
  | .constant _ v _ => return v
  | .default _ t => return .zero t
  | .param p => .lookup p
  | .binary _ op l r m c _ => .evalBinary op l r m c
  | .unary _ op x m t => .evalUnary op x m t
  | .typeTest _ test x t => .evalTypeTest test x t
  | .conditional _ test a b t => .evalConditional test a b t
  | .call _ x m args => .evalCall x m args
  | .invoke _ f args _ => .evalInvoke f args
  | .new c => .evalNew c
  | .newArray _ form e items => .evalNewArray form e items
  | .member _ x m => .evalMember x m
  | .index _ x i args _ => .evalIndex x i args
  | .lambda f => .act (.closure f) .pure
  | .block _ vars body t => .evalBlock vars body t
  | .loop _ body b c => .act (.loop body b c) .pure
  | .label _ l x => .evalLabel l x
  | .goto _ _ l x _ => .evalGoto l x
  | .switch _ v cases x m t => .evalSwitch v cases x m t
  | .guarded _ body handlers fin fault => .evalGuarded body handlers fin fault
  | .listInit _ c inits => .evalListInit c inits
  | .memberInit _ c bindings => .evalMemberInit c bindings
  | .extension _ name _ x _ => .evalExtension name x

/-! ### Carrying out the plan of a node -/

namespace Plan

variable {α : Type} {ev : Evaluator}

@[simp] theorem run_eval {n : Node} : (eval n).run ev = ev.eval n := bind_pure _

@[simp] theorem run_use {c : HandleCall} : (use c).run ev = ev.onHost (c.routine ev.host) :=
  bind_pure _

@[simp] theorem run_fatal {e : EvalError} : (fatal e : Plan α).run ev = Eval.fatal e := rfl

@[simp] theorem run_fault {x : Fault} : (fault x : Plan α).run ev = Eval.fault x := by
  cases x <;> rfl

@[simp] theorem run_ofExcept {r : Except Fault α} : (ofExcept r).run ev = Eval.ofExcept r := by
  cases r with
  | ok a => rfl
  | error x => exact run_fault

@[simp] theorem run_map {β : Type} {g : α → β} {p : Plan α} :
    (g <$> p).run ev = g <$> p.run ev := by
  rw [← bind_pure_comp, run_bind]
  exact bind_pure_comp g _

theorem run_ite {c : Prop} [Decidable c] {p q : Plan α} :
    (if c then p else q).run ev = if c then p.run ev else q.run ev := by
  split <;> rfl

@[simp] theorem run_evalAll {ns : List Node} : (evalAll ns).run ev = ev.evalAll ns := by
  induction ns with
  | nil => rfl
  | cons n ns ih => simp [evalAll, Evaluator.evalAll, ih]

@[simp] theorem run_receiver {x : Node} {m : String} : (receiver x m).run ev = ev.receiver x m := by
  simp [receiver, Evaluator.receiver, run_ite]

@[simp] theorem run_receiver? {x : Option Node} {m : String} :
    (receiver? x m).run ev = ev.receiver? x m := by
  cases x <;> simp [receiver?, Evaluator.receiver?]

@[simp] theorem run_indexed {i : Indexer} {v : Value} :
    (indexed i v).run ev = Evaluator.indexed i v := by
  simp [indexed, Evaluator.indexed, run_ite]

@[simp] theorem run_element {a i : Value} :
    (element a i).run ev = Eval.store >>= fun s => Eval.ofExcept (Value.element s a i) := by
  funext s
  change (ofExcept (Value.element s.store.bare a i)).run ev s = _
  rw [Value.element_bare, run_ofExcept]
  rfl

@[simp] theorem run_readElement {addr i : Nat} :
    (readElement addr i).run ev = Eval.store >>= fun s => Eval.ofExcept (s.readElement addr i) := by
  funext s
  change (ofExcept (s.store.bare.readElement addr i)).run ev s = _
  rw [Store.readElement_bare, run_ofExcept]
  rfl

@[simp] theorem run_lookup {p : Param} : (lookup p).run ev = Evaluator.lookup p := by
  funext s
  simp only [lookup, run, Evaluator.lookup]
  change (Plan.run ev _) s = _
  change _ = (match s.env.lookup p.id with
    | some v => Pure.pure v
    | none => Eval.fatal (.unboundParameter p.text) : Eval Value) s
  cases h : s.env.lookup p.id <;> simp [State.view, h]

@[simp] theorem run_place {n : Node} : (place n).run ev = ev.place n := by
  cases n with
  | member id x m => simp [place, Evaluator.place]
  | index id x i args t =>
    simp only [place, Evaluator.place, run_bind, run_eval, run_evalAll]
    congr; funext v; congr; funext vs
    split <;> simp
  | _ => rfl

@[simp] theorem run_writeElement {addr i : Nat} {v : Value} :
    (writeElement addr i v).run ev = Evaluator.writeElement addr i v := by
  funext s
  simp only [writeElement, run, Evaluator.writeElement]
  change (Plan.run ev (if i < (s.store.arrayItems addr).size then _ else _)) s =
    (if i < (s.store.arrayItems addr).size then _ else _ : Eval Unit) s
  split
  · rfl
  · rw [run_fault]
    rfl

@[simp] theorem run_read {p : Place} : (read p).run ev = ev.read p := by
  cases p <;> simp [read, Evaluator.read] <;> rfl

@[simp] theorem run_write {p : Place} {v : Value} : (write p v).run ev = ev.write p v := by
  cases p with
  | slot p =>
    simp [write, Evaluator.write, run, Action.run]
  | member target m =>
    simp [write, Evaluator.write, run, Action.run, Evaluator.set, HandleCall.routine]
  | element addr i => simp [write, Evaluator.write]
  | item target i args =>
    simp [write, Evaluator.write, run, Action.run, Evaluator.setItem, HandleCall.routine]

@[simp] theorem run_applyBinary {op : NodeKind} {m : Option Method} {a b : Value} :
    (applyBinary op m a b).run ev = ev.applyBinary op m a b := by
  cases m with
  | some m => simp [applyBinary, Evaluator.applyBinary, Evaluator.method, HandleCall.routine]
  | none =>
    funext s
    change (ofExcept (op.applyBinary s.store.bare a b)).run ev s = _
    rw [NodeKind.applyBinary_bare, run_ofExcept]
    rfl

@[simp] theorem run_applyUnary {op : NodeKind} {m : Option Method} {v : Value} :
    (applyUnary op m v).run ev = ev.applyUnary op m v := by
  cases m with
  | some m => simp [applyUnary, Evaluator.applyUnary, Evaluator.method, HandleCall.routine]
  | none =>
    funext s
    change (ofExcept (op.applyUnary s.store.bare v)).run ev s = _
    rw [NodeKind.applyUnary_bare, run_ofExcept]
    rfl

@[simp] theorem run_convert {f : Lambda} {v : Value} :
    (act (.convert f v) .pure).run ev = ev.convertBy f v := bind_pure _

@[simp] theorem run_assignment {target right : Node} :
    (assignment target right).run ev = ev.assignment target right := by
  simp [assignment, Evaluator.assignment]

@[simp] theorem run_compound {op : Arith} {target right : Node} {m : Option Method}
    {conversion : Option Lambda} :
    (compound op target right m conversion).run ev = ev.compound op target right m conversion := by
  simp only [compound, Evaluator.compound, run_bind, run_place, run_read, run_eval, run_applyBinary]
  cases m <;> cases conversion <;> simp

@[simp] theorem run_step {op : UnaryArith} {post : Bool} {target : Node} {m : Option Method} :
    (step op post target m).run ev = ev.step op post target m := by
  simp [step, Evaluator.step]

/-! ### Operators -/

@[simp] theorem run_evalBool {n : Node} : (evalBool n).run ev = ev.evalBool n := by
  simp only [evalBool, Evaluator.evalBool, run_bind, run_eval]
  congr; funext v
  cases v.bool? <;> simp

theorem run_evalBinary {op : BinaryOp} {l r : Node} {m : Option Method}
    {conversion : Option Lambda} :
    (evalBinary op l r m conversion).run ev = ev.evalBinary op l r m conversion := by
  cases op with
  | coalesce =>
    simp only [evalBinary, Evaluator.evalBinary, run_bind, run_eval, run_ite]
    cases conversion <;> simp
  | arrayIndex =>
    simp [evalBinary, Evaluator.evalBinary]
  | _ => simp [evalBinary, Evaluator.evalBinary, run_ite]

@[simp] theorem run_evalThrow {x : Option Node} : (evalThrow x).run ev = ev.evalThrow x := by
  cases x with
  | none =>
    funext s
    change (run ev (match s.handling with
      | x :: _ => _
      | [] => _)) s = (match s.handling with
      | x :: _ => _
      | [] => _ : Eval Value) s
    cases s.handling with
    | nil => exact congrFun run_fault s
    | cons x xs => rfl
  | some n =>
    simp only [evalThrow, Evaluator.evalThrow, run_bind, run_eval, run_ite, run_fault, run_fatal]
    rfl

@[simp] theorem run_applyUnaryOp {op : UnaryOp} {m : Option Method} {t : Ty} {v : Value} :
    (applyUnaryOp op m t v).run ev = ev.applyUnaryOp op m t v := by
  cases m with
  | some m => simp [applyUnaryOp, Evaluator.applyUnaryOp, Evaluator.method, HandleCall.routine]
  | none =>
    unfold applyUnaryOp Evaluator.applyUnaryOp
    dsimp only
    split <;> simp [run_ite]

theorem run_evalUnary {op : UnaryOp} {x : Option Node} {m : Option Method} {t : Ty} :
    (evalUnary op x m t).run ev = ev.evalUnary op x m t := by
  unfold evalUnary Evaluator.evalUnary
  split <;> simp

theorem run_evalTypeTest {test : TypeTest} {x : Node} {t : Ty} :
    (evalTypeTest test x t).run ev = ev.evalTypeTest test x t := by
  cases test <;> simp [evalTypeTest, Evaluator.evalTypeTest]

/-! ### Control -/

theorem run_evalConditional {test a b : Node} {t : Ty} :
    (evalConditional test a b t).run ev = ev.evalConditional test a b t := by
  simp [evalConditional, Evaluator.evalConditional, run_ite]

theorem run_evalBlock {vars : List Param} {body : List Node} {t : Ty} :
    (evalBlock vars body t).run ev = ev.evalBlock vars body t := by
  cases vars with
  | nil => rfl
  | cons p ps =>
    simp [evalBlock, Evaluator.evalBlock, run, Action.run, Eval.withBindings]
    rfl

theorem run_evalLabel {l : Label} {x : Option Node} :
    (evalLabel l x).run ev = ev.evalLabel l x := by
  cases x with
  | none => rfl
  | some x =>
    simp only [evalLabel, Evaluator.evalLabel, run, run_eval]
    congr; funext r
    cases r with
    | ok v => rfl
    | error x => cases x with
      | jump k v => simp [Caught.ofResult, Caught.toEval, run_ite, run]
      | _ => rfl

theorem run_evalGoto {l : Label} {x : Option Node} :
    (evalGoto l x).run ev = ev.evalGoto l x := by
  cases x <;> simp [evalGoto, Evaluator.evalGoto, run]

@[simp] theorem run_matchesCase {comparer : Option Method} {v c : Value} :
    (matchesCase comparer v c).run ev = ev.matchesCase comparer v c := by
  cases comparer with
  | none => rfl
  | some m =>
    simp only [matchesCase, Evaluator.matchesCase, run_bind, run_use]
    change (ev.method m none [v, c] >>= _) = _
    congr; funext v
    cases v.bool? <;> simp

@[simp] theorem run_anyMatches {comparer : Option Method} {v : Value} {ts : List Node} :
    (anyMatches comparer v ts).run ev = ev.anyMatches comparer v ts := by
  induction ts with
  | nil => rfl
  | cons t ts ih => simp [anyMatches, Evaluator.anyMatches, run_ite, ih]

@[simp] theorem run_selectCase {comparer : Option Method} {v : Value} {cs : List SwitchCase} :
    (selectCase comparer v cs).run ev = ev.selectCase comparer v cs := by
  induction cs with
  | nil => rfl
  | cons c cs ih => simp [selectCase, Evaluator.selectCase, run_ite, ih]

theorem run_evalSwitch {value : Node} {cs : List SwitchCase} {fallback : Option Node}
    {comparer : Option Method} {t : Ty} :
    (evalSwitch value cs fallback comparer t).run ev =
      ev.evalSwitch value cs fallback comparer t := by
  simp only [evalSwitch, Evaluator.evalSwitch, run_bind, run_eval, run_selectCase]
  congr; funext v; congr; funext selected
  cases selected.or fallback <;> simp

@[simp] theorem run_accepts {h : CatchClause} {bs : Slots} :
    (accepts h bs).run ev = ev.accepts h bs := by
  unfold accepts Evaluator.accepts
  cases h.filter with
  | none => rfl
  | some f =>
    simp only [run, run_eval, bind_pure]
    congr; funext r
    cases r with
    | ok v => cases v <;> rfl
    | error x => cases x <;> rfl

@[simp] theorem run_handle {x : Value} {fault : Option Node} {hs : List CatchClause} :
    (handle x fault hs).run ev = ev.handle x fault hs := by
  induction hs with
  | nil =>
    simp only [handle, Evaluator.handle]
    cases fault <;> simp [run]
  | cons h hs ih =>
    simp only [handle, Evaluator.handle, run_bind, run_ite, run_accepts, ih]
    simp only [run, run_eval, bind_pure]
    rfl

theorem run_guard {body : Node} {hs : List CatchClause} {fault : Option Node} :
    (guard body hs fault).run ev = (do
      match ← (ev.eval body).outcome with
      | .error (.thrown x) => ev.handle x fault hs
      | r => Eval.ofResult r) := by
  simp only [guard, run, run_eval]
  congr; funext r
  cases r with
  | ok v => rfl
  | error x => cases x with
    | thrown x => exact run_handle
    | _ => rfl

/-- Making an outcome a value and taking it apart again does nothing. -/
theorem outcome_ofResult {m : Eval α} : m.outcome >>= Eval.ofResult = m := by
  funext s
  change Eval.bind m.outcome Eval.ofResult s = m s
  unfold Eval.bind Eval.outcome
  cases m s <;> rfl

theorem run_evalGuarded {body : Node} {hs : List CatchClause} {finalizer fault : Option Node} :
    (evalGuarded body hs finalizer fault).run ev = ev.evalGuarded body hs finalizer fault := by
  have h : ev.evalGuarded body hs finalizer fault = (do
      let r ← ((guard body hs fault).run ev).outcome
      match finalizer with
      | some f => let _ ← ev.eval f
      | none => Pure.pure ()
      return body.ty.result (← Eval.ofResult r)) := by
    rw [run_guard]
    rfl
  rw [h]
  unfold evalGuarded
  cases finalizer with
  | none => simp only [run_bind, run_return, ← bind_assoc, outcome_ofResult]
  | some f => simp [run]

/-! ### Calls, constructions and accesses -/

@[simp] theorem run_evalCall {x : Option Node} {m : Method} {args : List Node} :
    (evalCall x m args).run ev = ev.evalCall x m args := by
  simp [evalCall, Evaluator.evalCall, Evaluator.method, HandleCall.routine]

theorem run_evalInvoke {f : Node} {args : List Node} :
    (evalInvoke f args).run ev = ev.evalInvoke f args := by
  simp [evalInvoke, Evaluator.evalInvoke, run, Action.run]

@[simp] theorem run_evalNew {c : Construction} : (evalNew c).run ev = ev.evalNew c := by
  simp [evalNew, Evaluator.evalNew, Evaluator.construct, HandleCall.routine]

@[simp] theorem run_newSized {elem : Ty} {size : Value} :
    (newSized elem size).run ev = Evaluator.newSized elem size := by
  unfold newSized Evaluator.newSized
  cases size.index? with
  | none => simp
  | some n => simp [run_ite, run, Action.run]

theorem run_evalNewArray {form : ArrayForm} {elem : Ty} {items : List Node} :
    (evalNewArray form elem items).run ev = ev.evalNewArray form elem items := by
  simp only [evalNewArray, Evaluator.evalNewArray, run_bind, run_evalAll]
  congr; funext vs
  split <;> simp [run, Action.run]

theorem run_evalMember {x : Option Node} {m : Member} :
    (evalMember x m).run ev = ev.evalMember x m := by
  simp [evalMember, Evaluator.evalMember, Evaluator.get, HandleCall.routine]

theorem run_evalIndex {x : Node} {i : Option Indexer} {args : List Node} :
    (evalIndex x i args).run ev = ev.evalIndex x i args := by
  simp only [evalIndex, Evaluator.evalIndex, run_bind, run_eval, run_evalAll]
  congr; funext v; congr; funext vs
  split <;> simp [Evaluator.getItem, HandleCall.routine]

@[simp] theorem run_addAll {v : Value} {is : List ElementInit} :
    (addAll v is).run ev = ev.addAll v is := by
  induction is with
  | nil => rfl
  | cons i is ih => simp [addAll, Evaluator.addAll, ih, Evaluator.method, HandleCall.routine]

@[simp] theorem run_initialized {what : String} {m : Member} {target : Option Value} :
    (initialized what m target).run ev = ev.initialized what m target := by
  simp [initialized, Evaluator.initialized, run_ite, Evaluator.get, HandleCall.routine]

mutual

theorem run_bindMember :
    ∀ (b : MemberBinding) (target : Value), (bindMember target b).run ev = ev.bind target b
  | .assign _ m value, _ => by
    simp [bindMember, Evaluator.bind, run, Action.run, Evaluator.set, HandleCall.routine]
  | .nested _ m bs, _ => by
    simp only [bindMember, Evaluator.bind, run_bind, run_initialized, run_bindAll bs]
  | .list _ m is, _ => by simp [bindMember, Evaluator.bind]

theorem run_bindAll :
    ∀ (bs : List MemberBinding) (target : Value), (bindAll target bs).run ev = ev.bindAll target bs
  | [], _ => rfl
  | b :: bs, _ => by
    simp only [bindAll, Evaluator.bindAll, run_bind, run_bindMember b, run_bindAll bs]

end

theorem run_evalListInit {c : Construction} {is : List ElementInit} :
    (evalListInit c is).run ev = ev.evalListInit c is := by
  simp [evalListInit, Evaluator.evalListInit]

theorem run_evalMemberInit {c : Construction} {bs : List MemberBinding} :
    (evalMemberInit c bs).run ev = ev.evalMemberInit c bs := by
  simp [evalMemberInit, Evaluator.evalMemberInit, run_bindAll]

theorem run_evalExtension {name : String} {x : Option Node} :
    (evalExtension name x).run ev = ev.evalExtension name x := by
  cases x <;> simp [evalExtension, Evaluator.evalExtension]

end Plan

/-- The plan of a node does what the evaluator does with it. -/
theorem Node.run_plan {ev : Evaluator} {n : Node} : n.plan.run ev = ev.node n := by
  cases n with
  | constant _ v _ => rfl
  | default _ t => rfl
  | param p => exact Plan.run_lookup
  | binary _ op l r m c _ => exact Plan.run_evalBinary
  | unary _ op x m t => exact Plan.run_evalUnary
  | typeTest _ test x t => exact Plan.run_evalTypeTest
  | conditional _ test a b t => exact Plan.run_evalConditional
  | call _ x m args => exact Plan.run_evalCall
  | invoke _ f args _ => exact Plan.run_evalInvoke
  | new c => exact Plan.run_evalNew
  | newArray _ form e items => exact Plan.run_evalNewArray
  | member _ x m => exact Plan.run_evalMember
  | index _ x i args _ => exact Plan.run_evalIndex
  | lambda f => exact bind_pure _
  | block _ vars body t => exact Plan.run_evalBlock
  | loop _ body b c => exact bind_pure _
  | label _ l x => exact Plan.run_evalLabel
  | goto _ _ l x _ => exact Plan.run_evalGoto
  | switch _ v cases x m t => exact Plan.run_evalSwitch
  | guarded _ body handlers fin fault => exact Plan.run_evalGuarded
  | listInit _ c inits => exact Plan.run_evalListInit
  | memberInit _ c bindings => exact Plan.run_evalMemberInit
  | extension _ name _ x _ => exact Plan.run_evalExtension

end ExprTree
