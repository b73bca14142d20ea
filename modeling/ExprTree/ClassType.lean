/-! Nominal classes with single inheritance, and the exception classes that every program knows. -/
namespace ExprTree

/-- A class carries its whole base chain, which is therefore finite. Ids are drawn fresh, so two
equal classes are one declaration. -/
inductive ClassType where
  | root (id : Nat) (name : String)
  | derived (id : Nat) (name : String) (base : ClassType)
  deriving DecidableEq

namespace ClassType

def name : ClassType → String
  | .root _ n | .derived _ n _ => n

def base? : ClassType → Option ClassType
  | .root .. => none
  | .derived _ _ b => some b

/-- A class derives from itself and from every class of its base chain. -/
def derivesFrom (c target : ClassType) : Bool :=
  decide (c = target) || match c with
    | .root .. => false
    | .derived _ _ b => b.derivesFrom target

/-- A class over `base`, or without a base. -/
def declare (id : Nat) (name : String) : Option ClassType → ClassType
  | none => .root id name
  | some base => .derived id name base

def exception : ClassType := .root 0 "Exception"
def invalidOperation : ClassType := .derived 1 "InvalidOperationException" exception
def nullReference : ClassType := .derived 2 "NullReferenceException" exception
def indexOutOfRange : ClassType := .derived 3 "IndexOutOfRangeException" exception
def arithmetic : ClassType := .derived 4 "ArithmeticException" exception
def divideByZero : ClassType := .derived 5 "DivideByZeroException" arithmetic
def overflow : ClassType := .derived 6 "OverflowException" arithmetic
def invalidCast : ClassType := .derived 7 "InvalidCastException" exception

/-- The classes that need no declaration. -/
def builtin : List ClassType :=
  [exception, invalidOperation, nullReference, indexOutOfRange, arithmetic, divideByZero, overflow,
    invalidCast]

/-- The first id that no class above uses. -/
def firstFreeId : Nat := 8

/-- An exception class derives from `Exception` when no base is named. -/
def declareException (id : Nat) (name : String) (base : Option ClassType) : ClassType :=
  .derived id name (base.getD exception)

def isException (c : ClassType) : Bool := c.derivesFrom exception

@[simp] theorem derivesFrom_self (c : ClassType) : c.derivesFrom c = true := by
  cases c <;> simp [derivesFrom]

end ClassType

end ExprTree
