import ExprTree.Tree
import ExprTree.Numeric.Shortest

/-! What a value tells about itself without the store: its type, its number and its identity. -/
namespace ExprTree.Value

/-- The zero of a type: null for references and void for void. -/
def zero : Ty → Value
  | .void => .void
  | .bool => .bool false
  | .char => .char '\x00'
  | .int k => .int k (Word.zero k)
  | .float32 => .float32 0
  | .float64 => .float64 0
  | .decimal => .decimal .zero
  | .object | .str | .array _ | .list _ | .fn .. | .cls _ | .expr => .null

/-- The exact type; null counts as an `object`. -/
def runtimeType : Value → Ty
  | .void => .void
  | .null => .object
  | .bool _ => .bool
  | .char _ => .char
  | .int k _ => .int k
  | .float32 _ => .float32
  | .float64 _ => .float64
  | .decimal _ => .decimal
  | .str _ => .str
  | .array e _ => .array e
  | .list e _ => .list e
  | .object c _ => .cls c
  | .delegate s _ => s.ty
  | .expr _ => .expr

/-- The word for a value's sort in messages. -/
def sortName : Value → String
  | .void => "void"
  | .null => "null"
  | .bool _ => "bool"
  | .char _ => "char"
  | .int k _ => k.name
  | .float32 _ => "f32"
  | .float64 _ => "f64"
  | .decimal _ => "decimal"
  | .str _ => "str"
  | .array .. => "array"
  | .list .. => "list"
  | .object .. => "object"
  | .delegate .. => "delegate"
  | .expr _ => "expr"

def numKind? : Value → Option NumKind
  | .int k _ => some (.int k)
  | .float32 _ => some .float32
  | .float64 _ => some .float64
  | .decimal _ => some .decimal
  | _ => none

def isNull : Value → Bool
  | .null => true
  | _ => false

def bool? : Value → Option Bool
  | .bool b => some b
  | _ => none

def str? : Value → Option String
  | .str s => some s
  | _ => none

def class? : Value → Option ClassType
  | .object c _ => some c
  | _ => none

def isException (v : Value) : Bool := v.class?.any ClassType.isException

/-- The value of an integer of any kind. -/
def integer? : Value → Option Int
  | .int _ w => some w.toInt
  | _ => none

/-- Whether both are references to one thing of the store, or one quoted tree. -/
def sameReference : Value → Value → Bool
  | .array _ a, .array _ b | .list _ a, .list _ b | .object _ a, .object _ b
  | .delegate _ a, .delegate _ b => a == b
  | .expr m, .expr n => m.same n
  | _, _ => false

/-- Scalars of one kind compare by value, decimals numerically, and references by identity. -/
def eqv : Value → Value → Bool
  | .void, .void | .null, .null => true
  | .bool a, .bool b => a == b
  | .char a, .char b => a == b
  | .int k a, .int l b => decide (k = l) && a.toInt == b.toInt
  | .float32 a, .float32 b => a == b
  | .float64 a, .float64 b => a == b
  | .decimal a, .decimal b => a.compare b == .eq
  | .str a, .str b => a == b
  | a, b => a.sameReference b

/-- Whether the value is a non-null instance of the type. -/
def isInstanceOf (v : Value) (t : Ty) : Bool :=
  match v with
  | .null | .void => false
  | v => t.accepts v.runtimeType

/-- Whether the value's type is exactly this one. -/
def hasExactType (v : Value) (t : Ty) : Bool :=
  match v with
  | .null | .void => false
  | v => decide (v.runtimeType = t)

end ExprTree.Value
