import ExprTree.Eval.Control

/-! Calls, constructions and accesses. Receivers and arguments are evaluated from left to right
before the handle is used. -/
namespace ExprTree.Evaluator

variable (ev : Evaluator)

def evalCall (object : Option Node) (m : Method) (args : List Node) : Eval Value := do
  let receiver ← ev.receiver? object m.name
  let args ← ev.evalAll args
  ev.method m receiver args

def evalInvoke (callee : Node) (args : List Node) : Eval Value := do
  let f ← ev.eval callee
  let args ← ev.evalAll args
  ev.invoke f args

def evalNew (c : Construction) : Eval Value := do
  let args ← ev.evalAll c.args
  ev.construct c.ctor args

def newSized (elem : Ty) (size : Value) : Eval Value :=
  match size.index? with
  | none => Eval.fault (.typeMismatch "integer array size" size.sortName)
  | some n =>
    if n < 0 then Eval.fault (.overflow "negative array size")
    else Eval.withStore (·.newArray elem (.replicate n.toNat (.zero elem)))

def evalNewArray (form : ArrayForm) (elem : Ty) (items : List Node) : Eval Value := do
  let values ← ev.evalAll items
  match form, values with
  | .items, values => Eval.withStore (·.newArray elem values.toArray)
  | .bounds, [size] => newSized elem size
  | .bounds, sizes =>
    Eval.fault (.unsupported (.newArray .bounds) (sizes.length.repr ++ "-dimensional arrays"))

def evalMember (object : Option Node) (m : Member) : Eval Value := do
  ev.get m (← ev.receiver? object m.name)

def evalIndex (object : Node) (indexer : Option Indexer) (args : List Node) : Eval Value := do
  let target ← ev.eval object
  let args ← ev.evalAll args
  match indexer, args with
  | some i, args => do
    indexed i target
    ev.getItem i target args
  | none, [index] => do
    let (addr, position) ← Eval.ofExcept (Value.element (← Eval.store) target index)
    Eval.ofExcept ((← Eval.store).readElement addr position)
  | none, args => Eval.fatal (.arityMismatch "array index" 1 args.length)

/-- A closure over all that is visible. -/
def closure (f : Lambda) : Eval Value := do
  let s ← Eval.get
  Eval.withStore (·.newDelegate f.signature (.closure f s.env.capture s.limit))

def addAll (collection : Value) : List ElementInit → Eval Unit
  | [] => return ()
  | i :: is => do
    let args ← ev.evalAll i.args
    let _ ← ev.method i.add (if i.add.isStatic then none else some collection) args
    addAll collection is

/-- The present value of a member that an initializer works on. -/
def initialized (what : String) (m : Member) (target : Option Value) : Eval Value := do
  let v ← ev.get m target
  if v.isNull then
    Eval.fault
      (.invalidOperation (what ++ " \x60" ++ m.name ++ "\x60 is null and cannot be initialized"))
  else return v

mutual

def bind (target : Value) : MemberBinding → Eval Unit
  | .assign _ m value => do
    let v ← ev.eval value
    ev.set m (if m.isStatic then none else some target) v
  | .nested _ m bindings => do
    let v ← initialized ev "member" m (if m.isStatic then none else some target)
    bindAll v bindings
  | .list _ m inits => do
    let v ← initialized ev "collection" m (if m.isStatic then none else some target)
    addAll ev v inits

def bindAll (target : Value) : List MemberBinding → Eval Unit
  | [] => return ()
  | b :: bs => do
    bind target b
    bindAll target bs

end

def evalListInit (c : Construction) (inits : List ElementInit) : Eval Value := do
  let v ← ev.evalNew c
  addAll ev v inits
  return v

def evalMemberInit (c : Construction) (bindings : List MemberBinding) : Eval Value := do
  let v ← ev.evalNew c
  bindAll ev v bindings
  return v

/-- An extension is evaluated through its reduction. -/
def evalExtension (name : String) (reduction : Option Node) : Eval Value :=
  match reduction with
  | some n => ev.eval n
  | none => Eval.fatal (.invalidReduction name "nothing to reduce to")

end ExprTree.Evaluator
