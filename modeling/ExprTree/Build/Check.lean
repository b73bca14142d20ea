import ExprTree.Error

/-! Checks that several factories share. -/
namespace ExprTree.Build

abbrev Result (α : Type) := Except BuildError α

def require (ok : Bool) (e : BuildError) : Result Unit := if ok then .ok () else .error e

/-- A value of type `found` must be storable where `expected` is declared. -/
def checkAssignable (context : String) (expected found : Ty) : Result Unit :=
  require (expected.accepts found) (.typeMismatch context expected found)

def checkEach (context : String) : List Ty → List Node → Result Unit
  | p :: ps, a :: as => do
    checkAssignable context p a.ty
    checkEach context ps as
  | _, _ => .ok ()

/-- The arguments must be as many as the parameters, each storable in its own. -/
def checkArguments (context : String) (params : List Ty) (args : List Node) : Result Unit := do
  require (params.length == args.length) (.argumentCount context params.length args.length)
  checkEach context params args

/-- A static member takes no instance, any other needs one. -/
def checkInstance (member : String) (isStatic : Bool) (object : Option Node) : Result Unit :=
  match isStatic, object with
  | true, some _ => .error (.staticWithInstance member)
  | false, none => .error (.instanceRequired member)
  | _, _ => .ok ()

/-- Parameters must differ in identity; the first repeated one is named. -/
def checkUnique (params : List Param) : Result Unit := go [] params
where
  go (seen : List Nat) : List Param → Result Unit
    | [] => .ok ()
    | p :: ps =>
      if seen.contains p.id then .error (.duplicateParameter p.text) else go (p.id :: seen) ps

/-- A jump and a throw never complete, so they fit any type. -/
def diverges : Node → Bool
  | .goto .. => true
  | .unary _ op .. => op == .throw
  | _ => false

/-- A branch must fit a type other than void. -/
def checkBranch (context : String) (ty : Ty) (branch : Node) : Result Unit :=
  if ty.isVoid || diverges branch then .ok () else checkAssignable context ty branch.ty

def checkBool (context : String) (ty : Ty) : Result Unit :=
  require ty.isBool (.typeMismatch context .bool ty)

/-- An operator method is static and takes the operands in order. -/
def checkOperatorMethod (context : String) (m : Method) (args : List Node) : Result Unit := do
  require m.isStatic (.invalid "operator methods must be static")
  checkArguments context m.params args

/-- Parameters, writable members and index nodes can be assigned. -/
def checkTarget (n : Node) : Result Unit :=
  match n with
  | .member _ _ m => require m.canWrite (.readOnlyMember m.name)
  | n => require n.isAssignable (.notAssignable n.kind)

end ExprTree.Build
