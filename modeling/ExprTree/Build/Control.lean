import ExprTree.Build.Check

/-! Factories of control nodes. Where a type may be given it defaults to that of the node's
result. -/
namespace ExprTree.Build

def conditional (id : Nat) (test ifTrue ifFalse : Node) (ty : Option Ty) : Result Node := do
  checkBool "conditional test" test.ty
  let ty := ty.getD ifTrue.ty
  checkBranch "conditional branch" ty ifTrue
  checkBranch "conditional branch" ty ifFalse
  return .conditional id test ifTrue ifFalse ty

/-- A block has the type of its last expression unless another is given. -/
def block (id : Nat) (vars : List Param) (body : List Node) (ty : Option Ty) : Result Node := do
  checkUnique vars
  match ty, body.getLast? with
  | some t, some last => checkBranch "block result" t last
  | _, _ => .ok ()
  let natural := (body.getLast?.map Node.ty).getD .void
  return .block id vars body (ty.getD natural)

def loop (id : Nat) (body : Node) (breakLabel continueLabel : Option Label) : Result Node := do
  match continueLabel with
  | some l => require l.ty.isVoid (.typeMismatch "continue label" .void l.ty)
  | none => .ok ()
  return .loop id body breakLabel continueLabel

def label (id : Nat) (target : Label) (fallback : Option Node) : Result Node := do
  match fallback with
  | some x => checkBranch "label default" target.ty x
  | none => .ok ()
  return .label id target fallback

/-- A jump carries a value exactly when its label has a type. -/
def goto (id : Nat) (kind : JumpKind) (target : Label) (value : Option Node) (ty : Option Ty) :
    Result Node := do
  match value, target.ty.isVoid with
  | some _, true => .error (.invalid "jump to a void label cannot carry a value")
  | none, false => .error (.invalid "jump to a typed label requires a value")
  | some v, false => checkAssignable "jump value" target.ty v.ty
  | none, true => .ok ()
  return .goto id kind target value (ty.getD .void)

def switchCase (id : Nat) (tests : List Node) (body : Node) : Result SwitchCase := do
  require (!tests.isEmpty) (.invalid "switch case has no test values")
  return .mk id tests body

def checkComparer (m : Method) : Result Unit := do
  require (m.isStatic && m.params.length == 2)
    (.invalid "switch comparer must be a static method of two parameters")
  checkBool "switch comparer" m.ret

/-- Without a comparer the type of each test and that of the value must be storable one in the
other. -/
def checkTests (ty : Ty) (tests : List Node) : Result Unit :=
  tests.forM fun t =>
    require (ty.accepts t.ty || t.ty.accepts ty) (.typeMismatch "switch case value" ty t.ty)

def switch (id : Nat) (value : Node) (cases : List SwitchCase) (fallback : Option Node)
    (comparer : Option Method) (ty : Option Ty) : Result Node := do
  require (!cases.isEmpty || fallback.isSome) (.invalid "switch needs a case or a default body")
  match comparer with
  | some m => checkComparer m
  | none => checkTests value.ty (cases.flatMap SwitchCase.tests)
  let natural := match cases, fallback with
    | c :: _, _ => c.body.ty
    | [], some x => x.ty
    | [], none => .void
  let ty := ty.getD natural
  cases.forM fun c => checkBranch "switch case body" ty c.body
  match fallback with
  | some x => checkBranch "switch default body" ty x
  | none => .ok ()
  return .switch id value cases fallback comparer ty

def catchClause (id : Nat) (test : Ty) (var : Option Param) (filter : Option Node) (body : Node) :
    Result CatchClause := do
  require test.isCatchable (.typeMismatch "catch type" (.cls .exception) test)
  match var with
  | some p => checkAssignable "catch variable" p.ty test
  | none => .ok ()
  match filter with
  | some f => checkBool "catch filter" f.ty
  | none => .ok ()
  return .mk id test var filter body

def guarded (id : Nat) (body : Node) (handlers : List CatchClause) (finalizer fault : Option Node) :
    Result Node := do
  require (finalizer.isNone || fault.isNone) (.invalid "try cannot have both finally and fault")
  require (!handlers.isEmpty || finalizer.isSome || fault.isSome)
    (.invalid "try needs a handler, finally or fault")
  handlers.forM fun h => checkBranch "catch body" body.ty h.body
  return .guarded id body handlers finalizer fault

end ExprTree.Build
