import ExprTree.Tree.Text

/-! What can go wrong, each with its message: building a tree, rewriting one, and evaluating one. -/
namespace ExprTree

/-- A factory or an update refused its arguments. -/
inductive BuildError where
  | typeMismatch (context : String) (expected found : Ty)
  | argumentCount (context : String) (expected found : Nat)
  | wrongFamily (kind : NodeKind) (family : String)
  | undefinedOperator (kind : NodeKind) (operand : Ty)
  | methodNotAllowed (kind : NodeKind)
  | conversionNotAllowed (kind : NodeKind)
  | notAssignable (found : NodeKind)
  | readOnlyMember (member : String)
  | instanceRequired (member : String)
  | staticWithInstance (member : String)
  | duplicateParameter (name : String)
  | invalid (why : String)

/-- The name of the cause. -/
def BuildError.name : BuildError → String
  | .typeMismatch .. => "TypeMismatch"
  | .argumentCount .. => "ArgumentCount"
  | .wrongFamily .. => "WrongFamily"
  | .undefinedOperator .. => "UndefinedOperator"
  | .methodNotAllowed _ => "MethodNotAllowed"
  | .conversionNotAllowed _ => "ConversionNotAllowed"
  | .notAssignable _ => "NotAssignable"
  | .readOnlyMember _ => "ReadOnlyMember"
  | .instanceRequired _ => "InstanceRequired"
  | .staticWithInstance _ => "StaticWithInstance"
  | .duplicateParameter _ => "DuplicateParameter"
  | .invalid _ => "Invalid"

private def ticked (s : String) : String := "\x60" ++ s ++ "\x60"

def BuildError.message : BuildError → String
  | .typeMismatch c e f => c ++ ": expected " ++ e.text ++ ", found " ++ f.text
  | .argumentCount c e f => c ++ ": expected " ++ e.repr ++ " argument(s), found " ++ f.repr
  | .wrongFamily k family => ticked k.name ++ " is not a " ++ family ++ " node type"
  | .undefinedOperator k t => ticked k.name ++ " is not defined for operand type " ++ t.text
  | .methodNotAllowed k => ticked k.name ++ " does not accept an operator method"
  | .conversionNotAllowed k => ticked k.name ++ " does not accept a conversion lambda"
  | .notAssignable k => "left-hand side " ++ ticked k.name ++ " is not assignable"
  | .readOnlyMember m => "member " ++ ticked m ++ " is not writable"
  | .instanceRequired m => "member " ++ ticked m ++ " requires an instance expression"
  | .staticWithInstance m => "static member " ++ ticked m ++ " cannot take an instance expression"
  | .duplicateParameter p => "parameter " ++ ticked p ++ " appears more than once"
  | .invalid why => why

/-- A rewriter produced a tree that its parents cannot hold. -/
inductive RewriteError where
  | wrongNode (context expected : String) (found : NodeKind)
  | build (e : BuildError)

def RewriteError.name : RewriteError → String
  | .wrongNode .. => "InvalidRewrite"
  | .build e => e.name

def RewriteError.message : RewriteError → String
  | .wrongNode c e k => "rewriting " ++ c ++ " must produce a " ++ e ++ " node, got " ++ k.name
  | .build e => e.message

/-- An error that no evaluated code can catch. -/
inductive EvalError where
  | unsupportedNode (kind : NodeKind)
  | unsupportedOperand (kind : NodeKind) (operand : String)
  | notAssignable (kind : NodeKind)
  | arityNotSupported (arity max : Nat)
  | arityMismatch (context : String) (expected found : Nat)
  | typeMismatch (expected found : String)
  | unboundParameter (name : String)
  | unresolvedGoto (label : String)
  | notAnException (found : String)
  | budgetExceeded (limit : Nat)
  | unhandled (exception : String)
  | invalidReduction (name message : String)

def EvalError.name : EvalError → String
  | .unsupportedNode _ => "UnsupportedNode"
  | .unsupportedOperand .. => "UnsupportedOperand"
  | .notAssignable _ => "NotAssignable"
  | .arityNotSupported .. => "ArityNotSupported"
  | .arityMismatch .. => "ArityMismatch"
  | .typeMismatch .. => "TypeMismatch"
  | .unboundParameter _ => "UnboundParameter"
  | .unresolvedGoto _ => "UnresolvedGoto"
  | .notAnException _ => "NotAnException"
  | .budgetExceeded _ => "BudgetExceeded"
  | .unhandled _ => "Unhandled"
  | .invalidReduction .. => "InvalidReduction"

def EvalError.message : EvalError → String
  | .unsupportedNode k => "unsupported node kind " ++ ticked k.name
  | .unsupportedOperand k t => ticked k.name ++ " is not supported for " ++ t
  | .notAssignable k => ticked k.name ++ " is not an assignable location"
  | .arityNotSupported n m =>
    "lambdas with " ++ n.repr ++ " parameters are not supported (max " ++ m.repr ++ ")"
  | .arityMismatch c e f => c ++ " expects " ++ e.repr ++ " argument(s), got " ++ f.repr
  | .typeMismatch e f => "type mismatch: expected " ++ e ++ ", got " ++ f
  | .unboundParameter p => "parameter " ++ ticked p ++ " is not in scope"
  | .unresolvedGoto l => "jump to label " ++ ticked l ++ " was not resolved"
  | .notAnException t => "cannot throw a non-exception value (" ++ t ++ ")"
  | .budgetExceeded n => "evaluation budget of " ++ n.repr ++ " steps exceeded"
  | .unhandled x => "unhandled exception: " ++ x
  | .invalidReduction n m => "extension " ++ ticked n ++ " did not reduce: " ++ m

/-- What leaves a node other than by a value: a fatal error, an exception object, or a jump. -/
inductive Signal where
  | fatal (e : EvalError)
  | thrown (exception : Value)
  | jump (target : Label) (value : Value)

namespace Signal

def isFatal : Signal → Bool
  | .fatal _ => true
  | _ => false

/-- The signal as the outermost caller sees it. -/
def collapse (s : Store) : Signal → EvalError
  | .fatal e => e
  | .thrown x => .unhandled (x.text s)
  | .jump l _ => .unresolvedGoto l.text

def text (s : Store) : Signal → String
  | .fatal e => e.message
  | .thrown x => "thrown: " ++ x.text s
  | .jump l v => "goto " ++ l.text ++ " (" ++ v.text s ++ ")"

end Signal

/-- Why an operator has no value: a fatal error, an exception still to be made, or text without
end. -/
inductive Fault where
  | fatal (e : EvalError)
  | raise (c : ClassType) (message : String)
  | endless

namespace Fault

def invalidOperation (message : String) : Fault := .raise .invalidOperation message

def divideByZero : Fault := .raise .divideByZero "attempted to divide by zero"

def overflow (operation : String) : Fault :=
  .raise .overflow ("arithmetic operation resulted in an overflow (" ++ operation ++ ")")

def indexOutOfRange (index : Int) (length : Nat) : Fault :=
  .raise .indexOutOfRange
    ("index " ++ index.repr ++ " is outside the bounds of a length-" ++ length.repr ++ " array")

def invalidCast (source target : Ty) : Fault :=
  .raise .invalidCast ("unable to cast a value of type " ++ source.text ++ " to " ++ target.text)

def unsupported (kind : NodeKind) (operand : String) : Fault :=
  .fatal (.unsupportedOperand kind operand)

def typeMismatch (expected found : String) : Fault := .fatal (.typeMismatch expected found)

end Fault

end ExprTree
