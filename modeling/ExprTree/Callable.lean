import ExprTree.Eval

/-! Calls from outside: a lambda with the limit of its calls, and the typed adapters over it. -/
namespace ExprTree

/-- The outcome as the outermost caller sees it: an exception is unhandled and a jump unresolved. -/
def Eval.collapsed {α : Type} (m : Eval α) : Eval (Except EvalError α) := do
  match ← m.outcome with
  | .ok a => return .ok a
  | .error x => return .error (x.collapse (← Eval.store))

structure Callable where
  lambda : Lambda
  limit : Option Nat

namespace Callable

/-- The most parameters that a compiled lambda may have. -/
def maxArity : Nat := 4

def compile (f : Lambda) (limit : Option Nat) : Except EvalError Callable :=
  if f.params.length ≤ maxArity then .ok ⟨f, limit⟩
  else .error (.arityNotSupported f.params.length maxArity)

def signature (c : Callable) : Signature := c.lambda.signature
def arity (c : Callable) : Nat := c.lambda.params.length

/-- Each call starts from nothing but its arguments and the store. -/
def call (c : Callable) (ev : Evaluator) (args : List Value) : Eval (Except EvalError Value) :=
  (ev.callLambda c.lambda [] c.limit args).collapsed

/-- A new delegate that calls the lambda. -/
def toDelegate (c : Callable) (s : Store) : Value × Store :=
  s.newDelegate c.signature (.closure c.lambda [] c.limit)

end Callable

/-- Which values a type of the host stands for; `unit` takes any result and drops it. -/
inductive HostValues where
  | exactly (ty : Ty)
  | any
  | unit

/-- A type of the host, with the name for a wrong declaration and the one for a wrong value. -/
structure HostType where
  values : HostValues
  fullName : String
  name : String

namespace HostType

/-- Whether a parameter or a result declared so may have this type. -/
def accepts (t : HostType) (declared : Ty) : Bool :=
  match t.values with
  | .exactly ty => decide (declared = ty)
  | .any | .unit => true

def take (t : HostType) (v : Value) : Except EvalError Value :=
  match t.values with
  | .exactly ty => if v.runtimeType = ty then .ok v else .error (.typeMismatch t.name v.sortName)
  | .any => .ok v
  | .unit => .ok .void

private def check (t : HostType) (declared : Ty) : Except EvalError Unit :=
  if t.accepts declared then .ok () else .error (.typeMismatch declared.text t.fullName)

end HostType

structure Adapter where
  callable : Callable
  params : List HostType
  ret : HostType

namespace Adapter

/-- The declared parameters must match in number and then in type, and last the result. -/
def make (c : Callable) (params : List HostType) (ret : HostType) : Except EvalError Adapter := do
  if c.arity ≠ params.length then .error (.arityMismatch "typed adapter" c.arity params.length)
  (c.signature.params.zip params).forM fun (declared, t) => t.check declared
  ret.check c.signature.ret
  return ⟨c, params, ret⟩

/-- One value for each parameter, from left to right; what is missing is void. -/
private def takeAll : List HostType → List Value → Except EvalError (List Value)
  | [], _ => .ok []
  | t :: ts, args => do
    let v ← t.take (args.head?.getD .void)
    return v :: (← takeAll ts args.tail)

def call (a : Adapter) (ev : Evaluator) (args : List Value) : Eval (Except EvalError Value) := do
  match takeAll a.params args with
  | .error e => return .error e
  | .ok args => do
    match ← a.callable.call ev args with
    | .error e => return .error e
    | .ok v => return a.ret.take v

end Adapter

end ExprTree
