import ExprTree.Build.Check

/-! Factories of operator nodes: which operands an operator accepts, and the type of its result. An
`object` operand is always accepted, for its kind is only known when it is evaluated. -/
namespace ExprTree.Build

/-- Whether the native operator is defined for operands of a type other than `object`. -/
def arithOperand : Arith → Ty → Bool
  | .and, t | .or, t | .xor, t => t.isInteger || t.isBool
  | .shiftLeft, t | .shiftRight, t => t.isInteger
  | _, t => t.isNumeric

def orderOperand : Ty → Bool
  | .char | .str => true
  | t => t.isNumeric

def unaryOperand : UnaryArith → Ty → Bool
  | .not, t => t.isInteger || t.isBool
  | .complement, t => t.isInteger
  | .isTrue, t | .isFalse, t => t.isBool
  | .arrayLength, _ => true
  | _, t => t.isNumeric

def checkOperand (kind : NodeKind) (accepted : Ty → Bool) (t : Ty) : Result Unit :=
  require (decide (t = .object) || accepted t) (.undefinedOperator kind t)

/-- The type of a native arithmetic operator; a plus with a string concatenates. -/
def arithType (op : Arith) (l r : Ty) : Result Ty :=
  if op = .add ∧ (l = .str ∨ r = .str) then .ok .str
  else do
    checkOperand (.binary (.arith op)) (arithOperand op) l
    checkOperand (.binary (.arith op)) (arithOperand op) r
    return l

/-- Equality is defined for all operands. -/
def comparisonType (op : Comparison) (l r : Ty) : Result Ty :=
  match op with
  | .equal | .notEqual => .ok .bool
  | op => do
    checkOperand (.binary (.compare op)) orderOperand l
    checkOperand (.binary (.compare op)) orderOperand r
    return .bool

def methodOr (method : Option Method) (args : List Node) (native : Result Ty) : Result Ty :=
  match method with
  | none => native
  | some m => do
    checkOperatorMethod "operator method" m args
    return m.ret

/-- A compound assignment stores what its operator, method or conversion gives. -/
def checkCompound (op : Arith) (l r : Node) (method : Option Method)
    (conversion : Option Lambda) : Result Unit :=
  match method with
  | none => do
    require conversion.isNone (.conversionNotAllowed (.binary (.compound op)))
    let _ ← arithType op l.ty r.ty
  | some m => do
    checkOperatorMethod "compound assignment" m [l, r]
    match conversion with
    | none =>
      require (decide (m.ret = l.ty)) (.typeMismatch "compound assignment operator" l.ty m.ret)
    | some f =>
      let context := "compound assignment conversion"
      let params := f.params.map Param.ty
      require (decide (params = [m.ret])) (.typeMismatch context m.ret (params.head?.getD .void))
      checkAssignable context l.ty f.ret

/-- The type of a binary node. -/
def binaryType (op : BinaryOp) (l r : Node) (method : Option Method) (conversion : Option Lambda) :
    Result Ty :=
  match op with
  | .assign => do
    checkTarget l
    checkAssignable "assignment" l.ty r.ty
    return l.ty
  | .compound a => do
    checkTarget l
    checkCompound a l r method conversion
    return l.ty
  | .andAlso | .orElse => do
    require l.ty.isBool (.undefinedOperator (.binary op) l.ty)
    require r.ty.isBool (.undefinedOperator (.binary op) r.ty)
    return .bool
  | .coalesce => do
    require l.ty.isReference (.undefinedOperator (.binary op) l.ty)
    match conversion with
    | none => return r.ty
    | some f =>
      checkArguments "coalesce conversion" (f.params.map Param.ty) [l]
      return f.ret
  | .arrayIndex => match l.ty with
    | .array e => do
      require (r.ty.isInteger || decide (r.ty = .object)) (.undefinedOperator (.binary op) r.ty)
      return e
    | t => .error (.undefinedOperator (.binary op) t)
  | .arith a => methodOr method [l, r] (arithType a l.ty r.ty)
  | .compare c => methodOr method [l, r] (comparisonType c l.ty r.ty)

def takesConversion : BinaryOp → Bool
  | .coalesce | .compound _ => true
  | _ => false

def takesMethod : BinaryOp → Bool
  | .arith _ | .compare _ | .compound _ => true
  | _ => false

def binary (id : Nat) (kind : NodeKind) (l r : Node) (method : Option Method)
    (conversion : Option Lambda) : Result Node :=
  match kind with
  | .binary op => do
    require (conversion.isNone || takesConversion op) (.conversionNotAllowed kind)
    require (method.isNone || takesMethod op) (.methodNotAllowed kind)
    return .binary id op l r method conversion (← binaryType op l r method conversion)
  | kind => .error (.wrongFamily kind "binary")

def unaryMethodOr (kind : NodeKind) (accepted : Ty → Bool) (x : Node) (method : Option Method) :
    Result Ty :=
  methodOr method [x] do
    checkOperand kind accepted x.ty
    return x.ty

def needTarget (target : Option Ty) (what : String) : Result Ty :=
  match target with
  | some t => .ok t
  | none => .error (.invalid (what ++ " requires a target type"))

/-- The type of a unary node with an operand, throws apart. -/
def unaryType (op : UnaryOp) (x : Node) (target : Option Ty) (method : Option Method) : Result Ty :=
  match op with
  | .convert | .convertChecked => do
    let t ← needTarget target "conversion"
    match method with
    | none => return t
    | some m =>
      checkOperatorMethod "conversion method" m [x]
      checkAssignable "conversion method" t m.ret
      return t
  | .typeAs => do
    let t ← needTarget target "type-as"
    require t.isReference (.undefinedOperator (.unary op) t)
    return t
  | .unbox => do
    let t ← needTarget target "unbox"
    require (decide (x.ty = .object) && !t.isReference) (.undefinedOperator (.unary op) x.ty)
    return t
  | .quote => match x with
    | .lambda _ => .ok .expr
    | _ => .error (.invalid "quote requires a lambda operand")
  | .arith .arrayLength => match x.ty with
    | .array _ => .ok (.int .i32)
    | t => .error (.undefinedOperator (.unary op) t)
  | .preIncrement | .preDecrement | .postIncrement | .postDecrement => do
    checkTarget x
    let produced ← unaryMethodOr (.unary op) Ty.isNumeric x method
    require (decide (produced = x.ty)) (.typeMismatch "increment assignment operator" x.ty produced)
    return x.ty
  | .arith .isTrue | .arith .isFalse => do
    let _ ← unaryMethodOr (.unary op) Ty.isBool x method
    return .bool
  | .arith a => unaryMethodOr (.unary op) (unaryOperand a) x method
  | .throw => .ok (target.getD .void)

def takesUnaryMethod : UnaryOp → Bool
  | .typeAs | .unbox | .quote | .throw | .arith .arrayLength => false
  | _ => true

/-- Throws may lack an operand; `target` is the type of a conversion, or of a throw in a typed
position. -/
def unary (id : Nat) (kind : NodeKind) (operand : Option Node) (target : Option Ty)
    (method : Option Method) : Result Node :=
  match kind with
  | .unary .throw => do
    require method.isNone (.methodNotAllowed kind)
    match operand with
    | some x => require x.ty.isReference (.undefinedOperator kind x.ty)
    | none => .ok ()
    return .unary id .throw operand method (target.getD .void)
  | .unary op => match operand with
    | none => .error (.invalid "unary node requires an operand")
    | some x => do
      require (method.isNone || takesUnaryMethod op) (.methodNotAllowed kind)
      require (target.isNone || op.takesType)
        (.invalid "only conversions and throw take a target type")
      return .unary id op (some x) method (← unaryType op x target method)
  | kind => .error (.wrongFamily kind "unary")

def typeTest (id : Nat) (kind : NodeKind) (x : Node) (target : Ty) : Result Node :=
  match kind with
  | .typeTest t => .ok (.typeTest id t x target)
  | kind => .error (.wrongFamily kind "type test")

/-- A constant of the value's own type. -/
def constant (id : Nat) (v : Value) : Node := .constant id v v.runtimeType

/-- A constant of a declared type: null of a reference type, or a value that fits. -/
def constantTyped (id : Nat) (v : Value) (ty : Ty) : Result Node := do
  let fits := match v with
    | .null => ty.isReference
    | v => ty.accepts v.runtimeType
  require fits (.typeMismatch "constant" ty v.runtimeType)
  return .constant id v ty

/-- Slots hold values, so none has type void. -/
def param (id : Nat) (name : Option String) (ty : Ty) : Result Param := do
  require (!ty.isVoid) (.invalid "parameters cannot have type void")
  return ⟨id, name, ty⟩

end ExprTree.Build
