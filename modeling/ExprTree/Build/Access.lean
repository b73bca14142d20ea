import ExprTree.Build.Check

/-! Factories of calls, constructions, member and element accesses, initializers and lambdas. -/
namespace ExprTree.Build

def call (id : Nat) (object : Option Node) (m : Method) (args : List Node) : Result Node := do
  checkInstance m.name m.isStatic object
  checkArguments "call" m.params args
  return .call id object m args

def invoke (id : Nat) (callee : Node) (args : List Node) : Result Node :=
  match callee.ty.signature? with
  | none => .error (.typeMismatch "invoke" (.fn [] .object) callee.ty)
  | some sig => do
    checkArguments "invoke" sig.params args
    return .invoke id callee args sig.ret

def construction (id : Nat) (ctor : Constructor) (args : List Node) : Result Construction := do
  checkArguments "new" ctor.params args
  return .mk id ctor args

/-- An array is made of its items or of a size; only one size can be evaluated. -/
def newArray (id : Nat) (kind : NodeKind) (elem : Ty) (items : List Node) : Result Node :=
  match kind with
  | .newArray .items => do
    items.forM fun i => checkAssignable "array element" elem i.ty
    return .newArray id .items elem items
  | .newArray .bounds => do
    require (!items.isEmpty) (.invalid "array bounds require at least one size")
    items.forM fun i => require i.ty.isInteger (.typeMismatch "array bound" (.int .i32) i.ty)
    return .newArray id .bounds elem items
  | kind => .error (.wrongFamily kind "array creation")

def member (id : Nat) (object : Option Node) (m : Member) : Result Node := do
  checkInstance m.name m.isStatic object
  return .member id object m

/-- Without an indexer the object is an array and the one argument an integer. -/
def indexType (object : Node) (indexer : Option Indexer) (args : List Node) : Result Ty :=
  match indexer with
  | some i => do
    checkArguments "indexer" i.params args
    return i.item
  | none => match object.ty with
    | .array e => match args with
      | [a] => do
        require a.ty.isInteger (.typeMismatch "array index" (.int .i32) a.ty)
        return e
      | args => .error (.argumentCount "array index" 1 args.length)
    | t => .error (.typeMismatch "array index" (.array .object) t)

def index (id : Nat) (object : Node) (indexer : Option Indexer)
    (args : List Node) : Result Node := do
  return .index id object indexer args (← indexType object indexer args)

/-- A lambda returns what its body does unless a type is given; void takes any body. -/
def lambda (id : Nat) (name : Option String) (body : Node) (params : List Param) (ret : Option Ty) :
    Result Lambda := do
  checkUnique params
  match ret with
  | none => return .mk id name body params body.ty
  | some t =>
    if t.isVoid then .ok () else checkAssignable "lambda body" t body.ty
    return .mk id name body params t

def elementInit (id : Nat) (add : Method) (args : List Node) : Result ElementInit := do
  require (!add.isStatic) (.invalid "element initializers need an instance method")
  checkArguments "element initializer" add.params args
  return .mk id add args

def listInit (id : Nat) (new : Construction) (inits : List ElementInit) : Result Node := do
  require (!inits.isEmpty) (.invalid "list initializer has no elements")
  return .listInit id new inits

def assignBinding (id : Nat) (m : Member) (value : Node) : Result MemberBinding := do
  require m.canWrite (.readOnlyMember m.name)
  checkAssignable "member binding" m.ty value.ty
  return .assign id m value

def nestedBinding (id : Nat) (m : Member) (bindings : List MemberBinding) :
    Result MemberBinding := do
  require (!m.isStatic) (.staticWithInstance m.name)
  return .nested id m bindings

def listBinding (id : Nat) (m : Member) (inits : List ElementInit) : Result MemberBinding :=
  .ok (.list id m inits)

/-- No member is bound twice. -/
def memberInit (id : Nat) (new : Construction) (bindings : List MemberBinding) : Result Node := do
  require (distinct (bindings.map fun b => b.member.id)) (.invalid "member bound more than once")
  return .memberInit id new bindings
where
  distinct : List Nat → Bool
    | [] => true
    | i :: is => !is.contains i && distinct is

end ExprTree.Build
