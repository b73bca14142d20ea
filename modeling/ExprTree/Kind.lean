/-! Operators and the kinds of nodes. -/
namespace ExprTree

/-- Operators that a compound assignment may apply. -/
inductive Arith where
  | add | addChecked | subtract | subtractChecked | multiply | multiplyChecked
  | divide | modulo | power | and | or | xor | shiftLeft | shiftRight
  deriving DecidableEq

inductive Comparison where
  | equal | notEqual | less | lessOrEqual | greater | greaterOrEqual
  deriving DecidableEq

inductive BinaryOp where
  | arith (op : Arith)
  | compare (op : Comparison)
  | andAlso | orElse | coalesce | arrayIndex | assign
  | compound (op : Arith)
  deriving DecidableEq

/-- Unary operators that a value's kind alone decides. -/
inductive UnaryArith where
  | negate | negateChecked | plus | not | complement | isTrue | isFalse | increment | decrement
  | arrayLength
  deriving DecidableEq

inductive UnaryOp where
  | arith (op : UnaryArith)
  | convert | convertChecked | typeAs | unbox | quote | throw
  | preIncrement | preDecrement | postIncrement | postDecrement
  deriving DecidableEq

inductive TypeTest where
  | is | equal
  deriving DecidableEq

inductive ArrayForm where
  | items | bounds
  deriving DecidableEq

inductive NodeKind where
  | binary (op : BinaryOp)
  | unary (op : UnaryOp)
  | typeTest (op : TypeTest)
  | newArray (form : ArrayForm)
  | constant | default | parameter
  | memberAccess | index | call | invoke | new | listInit | memberInit | lambda
  | conditional | block | loop | label | goto | switch | guarded | extension
  deriving DecidableEq

namespace Arith

def name : Arith → String
  | .add => "Add" | .addChecked => "AddChecked"
  | .subtract => "Subtract" | .subtractChecked => "SubtractChecked"
  | .multiply => "Multiply" | .multiplyChecked => "MultiplyChecked"
  | .divide => "Divide" | .modulo => "Modulo" | .power => "Power"
  | .and => "And" | .or => "Or" | .xor => "ExclusiveOr"
  | .shiftLeft => "LeftShift" | .shiftRight => "RightShift"

/-- The name of the compound assignment. -/
def assignName : Arith → String
  | .addChecked => "AddAssignChecked"
  | .subtractChecked => "SubtractAssignChecked"
  | .multiplyChecked => "MultiplyAssignChecked"
  | op => op.name ++ "Assign"

def symbol : Arith → String
  | .add | .addChecked => "+"
  | .subtract | .subtractChecked => "-"
  | .multiply | .multiplyChecked => "*"
  | .divide => "/" | .modulo => "%" | .power => "**"
  | .and => "&" | .or => "|" | .xor => "^"
  | .shiftLeft => "<<" | .shiftRight => ">>"

def isChecked : Arith → Bool
  | .addChecked | .subtractChecked | .multiplyChecked => true
  | _ => false

def all : List Arith :=
  [.add, .addChecked, .subtract, .subtractChecked, .multiply, .multiplyChecked, .divide, .modulo,
    .power, .and, .or, .xor, .shiftLeft, .shiftRight]

end Arith

namespace Comparison

def name : Comparison → String
  | .equal => "Equal" | .notEqual => "NotEqual"
  | .less => "LessThan" | .lessOrEqual => "LessThanOrEqual"
  | .greater => "GreaterThan" | .greaterOrEqual => "GreaterThanOrEqual"

def symbol : Comparison → String
  | .equal => "==" | .notEqual => "!="
  | .less => "<" | .lessOrEqual => "<="
  | .greater => ">" | .greaterOrEqual => ">="

def all : List Comparison := [.equal, .notEqual, .less, .lessOrEqual, .greater, .greaterOrEqual]

end Comparison

namespace BinaryOp

def name : BinaryOp → String
  | .arith op => op.name
  | .compare op => op.name
  | .andAlso => "AndAlso" | .orElse => "OrElse"
  | .coalesce => "Coalesce" | .arrayIndex => "ArrayIndex" | .assign => "Assign"
  | .compound op => op.assignName

def symbol : BinaryOp → String
  | .arith op => op.symbol
  | .compare op => op.symbol
  | .andAlso => "&&" | .orElse => "||" | .coalesce => "??" | .arrayIndex => "" | .assign => "="
  | .compound op => op.symbol ++ "="

def isAssignment : BinaryOp → Bool
  | .assign | .compound _ => true
  | _ => false

def isChecked : BinaryOp → Bool
  | .arith op | .compound op => op.isChecked
  | _ => false

def all : List BinaryOp :=
  Arith.all.map .arith ++ Comparison.all.map .compare ++
    [.andAlso, .orElse, .coalesce, .arrayIndex, .assign] ++ Arith.all.map .compound

end BinaryOp

namespace UnaryArith

def name : UnaryArith → String
  | .negate => "Negate" | .negateChecked => "NegateChecked" | .plus => "UnaryPlus"
  | .not => "Not" | .complement => "OnesComplement"
  | .isTrue => "IsTrue" | .isFalse => "IsFalse"
  | .increment => "Increment" | .decrement => "Decrement" | .arrayLength => "ArrayLength"

def all : List UnaryArith :=
  [.negate, .negateChecked, .plus, .not, .complement, .isTrue, .isFalse, .increment, .decrement,
    .arrayLength]

end UnaryArith

namespace UnaryOp

def name : UnaryOp → String
  | .arith op => op.name
  | .convert => "Convert" | .convertChecked => "ConvertChecked"
  | .typeAs => "TypeAs" | .unbox => "Unbox" | .quote => "Quote" | .throw => "Throw"
  | .preIncrement => "PreIncrementAssign" | .preDecrement => "PreDecrementAssign"
  | .postIncrement => "PostIncrementAssign" | .postDecrement => "PostDecrementAssign"

def symbol : UnaryOp → String
  | .arith .plus => "+"
  | .arith .negate | .arith .negateChecked => "-"
  | .arith .not => "!"
  | .arith .complement => "~"
  | .preIncrement | .postIncrement => "++"
  | .preDecrement | .postDecrement => "--"
  | _ => ""

/-- The operator that an increment or decrement assignment applies. -/
def step? : UnaryOp → Option UnaryArith
  | .preIncrement | .postIncrement => some .increment
  | .preDecrement | .postDecrement => some .decrement
  | _ => none

/-- Whether the node takes a type: the target of a conversion. -/
def takesType : UnaryOp → Bool
  | .convert | .convertChecked | .typeAs | .unbox => true
  | _ => false

def all : List UnaryOp :=
  UnaryArith.all.map .arith ++
    [.convert, .convertChecked, .typeAs, .unbox, .quote, .throw,
      .preIncrement, .preDecrement, .postIncrement, .postDecrement]

end UnaryOp

namespace NodeKind

def name : NodeKind → String
  | .binary op => op.name
  | .unary op => op.name
  | .typeTest .is => "TypeIs" | .typeTest .equal => "TypeEqual"
  | .newArray .items => "NewArrayInit" | .newArray .bounds => "NewArrayBounds"
  | .constant => "Constant" | .default => "Default" | .parameter => "Parameter"
  | .memberAccess => "MemberAccess" | .index => "Index" | .call => "Call" | .invoke => "Invoke"
  | .new => "New" | .listInit => "ListInit" | .memberInit => "MemberInit" | .lambda => "Lambda"
  | .conditional => "Conditional" | .block => "Block" | .loop => "Loop" | .label => "Label"
  | .goto => "Goto" | .switch => "Switch" | .guarded => "Try" | .extension => "Extension"

def all : List NodeKind :=
  BinaryOp.all.map .binary ++ UnaryOp.all.map .unary ++
    [.typeTest .is, .typeTest .equal, .newArray .items, .newArray .bounds, .constant, .default,
      .parameter, .memberAccess, .index, .call, .invoke, .new, .listInit, .memberInit, .lambda,
      .conditional, .block, .loop, .label, .goto, .switch, .guarded, .extension]

def ofName? (s : String) : Option NodeKind := all.find? fun k => k.name == s

def symbol : NodeKind → String
  | .binary op => op.symbol
  | .unary op => op.symbol
  | _ => ""

def isBinary : NodeKind → Bool
  | .binary _ => true
  | _ => false

def isUnary : NodeKind → Bool
  | .unary _ => true
  | _ => false

def isAssignment : NodeKind → Bool
  | .binary op => op.isAssignment
  | _ => false

def isIncrementAssignment : NodeKind → Bool
  | .unary op => op.step?.isSome
  | _ => false

def isComparison : NodeKind → Bool
  | .binary (.compare _) => true
  | _ => false

def isShortCircuit : NodeKind → Bool
  | .binary .andAlso | .binary .orElse => true
  | _ => false

/-- The operator that a compound assignment applies. -/
def compoundOperator? : NodeKind → Option NodeKind
  | .binary (.compound op) => some (.binary (.arith op))
  | _ => none

end NodeKind

end ExprTree
