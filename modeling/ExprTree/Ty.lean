import ExprTree.ClassType
import ExprTree.Numeric.IntKind

/-! Types of trees and of values, the order "a value of this type may be stored there", and the
text of a type. -/
namespace ExprTree

inductive Ty where
  | void | object | bool | char
  | int (kind : IntKind)
  | float32 | float64 | decimal | str
  | array (elem : Ty)
  | list (elem : Ty)
  | fn (params : List Ty) (ret : Ty)
  | cls (c : ClassType)
  | expr
  deriving Inhabited

namespace Ty

mutual

private def beq : Ty → Ty → Bool
  | .void, .void | .object, .object | .bool, .bool | .char, .char | .float32, .float32
  | .float64, .float64 | .decimal, .decimal | .str, .str | .expr, .expr => true
  | .int k, .int l => decide (k = l)
  | .array a, .array b | .list a, .list b => a.beq b
  | .fn ps r, .fn qs s => beqAll ps qs && r.beq s
  | .cls c, .cls d => decide (c = d)
  | _, _ => false

private def beqAll : List Ty → List Ty → Bool
  | [], [] => true
  | a :: as, b :: bs => a.beq b && beqAll as bs
  | _, _ => false

end

mutual

private theorem beq_self : (a : Ty) → a.beq a = true
  | .void | .object | .bool | .char | .float32 | .float64 | .decimal | .str | .expr => rfl
  | .int k => by simp [beq]
  | .array a => by simp [beq, beq_self a]
  | .list a => by simp [beq, beq_self a]
  | .fn ps r => by simp [beq, beqAll_self ps, beq_self r]
  | .cls c => by simp [beq]

private theorem beqAll_self : (as : List Ty) → beqAll as as = true
  | [] => rfl
  | a :: as => by simp [beqAll, beq_self a, beqAll_self as]

end

mutual

private theorem eq_of_beq {a b : Ty} (h : a.beq b = true) : a = b := by
  cases a <;> cases b <;> simp [beq] at h ⊢
  case array => exact eq_of_beq h
  case list => exact eq_of_beq h
  case fn => exact ⟨eq_of_beqAll h.1, eq_of_beq h.2⟩
  all_goals exact h

private theorem eq_of_beqAll {as bs : List Ty} (h : beqAll as bs = true) : as = bs := by
  cases as <;> cases bs <;> simp [beqAll] at h ⊢
  exact ⟨eq_of_beq h.1, eq_of_beqAll h.2⟩

end

instance : DecidableEq Ty := fun a b =>
  if h : a.beq b = true then isTrue (eq_of_beq h) else isFalse fun e => h (e ▸ beq_self a)

end Ty

/-- The kinds of numbers that operators and conversions tell apart. -/
inductive NumKind where
  | int (kind : IntKind)
  | float32 | float64 | decimal
  deriving DecidableEq

def NumKind.ty : NumKind → Ty
  | .int k => .int k
  | .float32 => .float32
  | .float64 => .float64
  | .decimal => .decimal

def NumKind.name : NumKind → String
  | .int .i8 => "Int8" | .int .u8 => "UInt8" | .int .i16 => "Int16" | .int .u16 => "UInt16"
  | .int .i32 => "Int32" | .int .u32 => "UInt32" | .int .i64 => "Int64" | .int .u64 => "UInt64"
  | .float32 => "Float32" | .float64 => "Float64" | .decimal => "Decimal"

def NumKind.isInteger : NumKind → Bool
  | .int _ => true
  | _ => false

/-- Floats and decimals are signed. -/
def NumKind.isSigned : NumKind → Bool
  | .int k => k.signed
  | _ => true

/-- What a callable takes and returns. -/
structure Signature where
  params : List Ty
  ret : Ty
  deriving DecidableEq

def Signature.arity (s : Signature) : Nat := s.params.length
def Signature.ty (s : Signature) : Ty := .fn s.params s.ret

namespace Ty

def numKind? : Ty → Option NumKind
  | .int k => some (.int k)
  | .float32 => some .float32
  | .float64 => some .float64
  | .decimal => some .decimal
  | _ => none

def isNumeric (t : Ty) : Bool := t.numKind?.isSome

def isInteger : Ty → Bool
  | .int _ => true
  | _ => false

def isBool : Ty → Bool
  | .bool => true
  | _ => false

def isVoid : Ty → Bool
  | .void => true
  | _ => false

/-- Reference types hold null, which is also their zero. -/
def isReference : Ty → Bool
  | .object | .str | .array _ | .list _ | .fn .. | .cls _ | .expr => true
  | _ => false

def elem? : Ty → Option Ty
  | .array e | .list e => some e
  | _ => none

def signature? : Ty → Option Signature
  | .fn ps r => some ⟨ps, r⟩
  | _ => none

def class? : Ty → Option ClassType
  | .cls c => some c
  | _ => none

/-- Whether a value of type `source` may be stored where `target` is expected: the type itself,
any type but void under `object`, and a class under its bases. -/
def accepts (target source : Ty) : Bool :=
  decide (target = source) || match target, source with
    | .object, s => !s.isVoid
    | .cls t, .cls s => s.derivesFrom t
    | _, _ => false

/-- Whether a handler may name this type: an exception class, or `object` for every exception. -/
def isCatchable : Ty → Bool
  | .object => true
  | .cls c => c.isException
  | _ => false

mutual

def text : Ty → String
  | .void => "void" | .object => "object" | .bool => "bool" | .char => "char"
  | .int k => k.name
  | .float32 => "f32" | .float64 => "f64" | .decimal => "decimal" | .str => "str"
  | .array e => e.text ++ "[]"
  | .list e => "List<" ++ e.text ++ ">"
  | .fn ps r => "fn(" ++ String.intercalate ", " (texts ps) ++ ") -> " ++ r.text
  | .cls c => c.name
  | .expr => "Expr"

def texts : List Ty → List String
  | [] => []
  | t :: ts => t.text :: texts ts

end

/-- The types without parts. -/
def simple : List Ty :=
  [.void, .object, .bool, .char, .float32, .float64, .decimal, .str] ++ IntKind.all.map .int

/-- The type without parts of a name, `expr` being the one of trees. -/
def ofName? (s : String) : Option Ty :=
  if s = "expr" then some .expr else simple.find? fun t => t.text == s

@[simp] theorem accepts_self (t : Ty) : t.accepts t = true := by simp [accepts]

end Ty

def Signature.text (s : Signature) : String := s.ty.text

end ExprTree
