import ExprTree.Store
import ExprTree.Text.Quoted

/-! The text of values and trees, on one line: operators in parentheses, statements in braces. A
value whose arrays contain one another has no finite text. -/
namespace ExprTree

private def commas (items : List String) : String := String.intercalate ", " items

private def braced (body : String) : String := "\x7b " ++ body ++ " \x7d"

private def binaryText (op : BinaryOp) (l r : String) : String :=
  match op with
  | .arrayIndex => l ++ "[" ++ r ++ "]"
  | op =>
    let inner := "(" ++ l ++ " " ++ op.symbol ++ " " ++ r ++ ")"
    if op.isChecked then "checked" ++ inner else inner

private def unaryText (op : UnaryOp) (ty : Ty) (x : String) : String :=
  match op with
  | .arith .negate | .arith .plus | .arith .not | .arith .complement => op.symbol ++ x
  | .arith .negateChecked => "checked(-" ++ x ++ ")"
  | .preIncrement | .preDecrement => op.symbol ++ x
  | .postIncrement | .postDecrement => x ++ op.symbol
  | .convert => "(" ++ ty.text ++ ")" ++ x
  | .convertChecked => "checked((" ++ ty.text ++ ")" ++ x ++ ")"
  | .typeAs => "(" ++ x ++ " as " ++ ty.text ++ ")"
  | .unbox => "unbox<" ++ ty.text ++ ">(" ++ x ++ ")"
  | .arith .arrayLength => x ++ ".Length"
  | .quote => "quote(" ++ x ++ ")"
  | .throw => "throw " ++ x
  | .arith .isTrue => "is_true(" ++ x ++ ")"
  | .arith .isFalse => "is_false(" ++ x ++ ")"
  | .arith .increment => "increment(" ++ x ++ ")"
  | .arith .decrement => "decrement(" ++ x ++ ")"

def JumpKind.word : JumpKind → String
  | .goto => "goto"
  | .breakTo => "break"
  | .continueTo => "continue"
  | .returnTo => "return"

private def labelWord (word : String) (l : Option Label) : String :=
  (l.map fun l => " " ++ word ++ " " ++ l.text).getD ""

mutual

/-- The text of a value over a text for each array. -/
def Value.textWith (s : Store) (arrayText : Nat → Option String) : Value → Option String
  | .void => some "void"
  | .null => some "null"
  | .bool b => some (if b then "true" else "false")
  | .char c => some (String.singleton c)
  | .int _ w => some w.toInt.repr
  | .float32 x => some (float32Text x)
  | .float64 x => some (floatText x)
  | .decimal d => some d.text
  | .str t => some t
  | .array _ a => arrayText a
  | .list e a => some ("List<" ++ e.text ++ ">(" ++ (s.listItems a).size.repr ++ ")")
  | .object c a => some <| match (s.field? a Store.messageField).bind Value.str? with
    | some m => c.name ++ ": " ++ m
    | none => c.name ++ " \x7b .. \x7d"
  | .delegate sig _ => some ("<delegate " ++ sig.text ++ ">")
  | .expr n => n.textWith s arrayText

def Node.textWith (s : Store) (arrayText : Nat → Option String) : Node → Option String
  | .constant _ v _ => match v with
    | .str t => some (Text.quoteString t)
    | .char c => some (Text.quoteChar c)
    | v => v.textWith s arrayText
  | .default _ t => some ("default(" ++ t.text ++ ")")
  | .param p => some p.text
  | .binary _ op l r _ _ _ => do
    return binaryText op (← l.textWith s arrayText) (← r.textWith s arrayText)
  | .unary _ op x _ ty => match x with
    | none => some "rethrow"
    | some x => do return unaryText op ty (← x.textWith s arrayText)
  | .typeTest _ test x target => do
    let verb := match test with
      | .is => " is "
      | .equal => " is exactly "
    return "(" ++ (← x.textWith s arrayText) ++ verb ++ target.text ++ ")"
  | .conditional _ test a b ty => do
    let test ← test.textWith s arrayText
    let a ← a.textWith s arrayText
    let b ← b.textWith s arrayText
    return if ty.isVoid then "if (" ++ test ++ ") " ++ braced a ++ " else " ++ braced b
      else "(" ++ test ++ " ? " ++ a ++ " : " ++ b ++ ")"
  | .call _ object m args => do
    let target ← match object with
      | none => pure ""
      | some x => (· ++ ".") <$> x.textWith s arrayText
    return target ++ m.name ++ "(" ++ commas (← Node.textsWith s arrayText args) ++ ")"
  | .invoke _ f args _ => do
    return (← f.textWith s arrayText) ++ "(" ++ commas (← Node.textsWith s arrayText args) ++ ")"
  | .new c => c.textWith s arrayText
  | .newArray _ form elem items => do
    let items := commas (← Node.textsWith s arrayText items)
    return match form with
      | .bounds => "new " ++ elem.text ++ "[" ++ items ++ "]"
      | .items => "new " ++ elem.text ++ "[] " ++ braced items
  | .member _ object m => match object with
    | none => some m.name
    | some x => do return (← x.textWith s arrayText) ++ "." ++ m.name
  | .index _ x _ args _ => do
    return (← x.textWith s arrayText) ++ "[" ++ commas (← Node.textsWith s arrayText args) ++ "]"
  | .lambda f => f.textWith s arrayText
  | .block _ vars body _ => do
    let vars := vars.map fun p => "var " ++ p.text ++ ": " ++ p.ty.text ++ "; "
    let body ← Node.textsWith s arrayText body
    return "\x7b " ++ String.join vars ++ String.join (body.map (· ++ "; ")) ++ "\x7d"
  | .loop _ body b c => do
    let body ← body.textWith s arrayText
    return "loop" ++ labelWord "break" b ++ labelWord "continue" c ++ " " ++ braced body
  | .label _ l fallback => match fallback with
    | none => some (l.text ++ ":")
    | some x => do return l.text ++ ": " ++ (← x.textWith s arrayText)
  | .goto _ kind l value _ => match value with
    | none => some (kind.word ++ " " ++ l.text)
    | some x => do return kind.word ++ " " ++ l.text ++ " " ++ (← x.textWith s arrayText)
  | .switch _ value cases fallback _ _ => do
    let value ← value.textWith s arrayText
    let cases ← SwitchCase.textsWith s arrayText cases
    let fallback ← match fallback with
      | none => pure ""
      | some x => do pure ("default: " ++ (← x.textWith s arrayText) ++ "; ")
    return "switch (" ++ value ++ ") \x7b " ++ String.join (cases.map (· ++ " ")) ++
      fallback ++ "\x7d"
  | .guarded _ body handlers finalizer fault => do
    let body ← body.textWith s arrayText
    let handlers ← CatchClause.textsWith s arrayText handlers
    let finalizer ← match finalizer with
      | none => pure ""
      | some x => do pure (" finally " ++ braced (← x.textWith s arrayText))
    let fault ← match fault with
      | none => pure ""
      | some x => do pure (" fault " ++ braced (← x.textWith s arrayText))
    return "try " ++ braced body ++ String.join (handlers.map (" " ++ ·)) ++ finalizer ++ fault
  | .listInit _ c inits => do
    return (← c.textWith s arrayText) ++ " " ++
      braced (commas (← ElementInit.textsWith s arrayText inits))
  | .memberInit _ c bindings => do
    return (← c.textWith s arrayText) ++ " " ++
      braced (commas (← MemberBinding.textsWith s arrayText bindings))
  | .extension _ name _ _ _ => some (name ++ "(..)")

def Node.textsWith (s : Store) (arrayText : Nat → Option String) : List Node → Option (List String)
  | [] => some []
  | n :: ns => do return (← n.textWith s arrayText) :: (← Node.textsWith s arrayText ns)

def Lambda.textWith (s : Store) (arrayText : Nat → Option String) : Lambda → Option String
  | .mk _ _ body params _ => do
    return "(" ++ commas (params.map Param.text) ++ ") => " ++ (← body.textWith s arrayText)

def Construction.textWith (s : Store) (arrayText : Nat → Option String) :
    Construction → Option String
  | .mk _ ctor args => do
    return "new " ++ ctor.ty.text ++ "(" ++ commas (← Node.textsWith s arrayText args) ++ ")"

def SwitchCase.textWith (s : Store) (arrayText : Nat → Option String) : SwitchCase → Option String
  | .mk _ tests body => do
    let tests ← Node.textsWith s arrayText tests
    return "case " ++ commas tests ++ ": " ++ (← body.textWith s arrayText) ++ ";"

def SwitchCase.textsWith (s : Store) (arrayText : Nat → Option String) :
    List SwitchCase → Option (List String)
  | [] => some []
  | c :: cs => do return (← c.textWith s arrayText) :: (← SwitchCase.textsWith s arrayText cs)

def CatchClause.textWith (s : Store) (arrayText : Nat → Option String) : CatchClause → Option String
  | .mk _ test var filter body => do
    let var := (var.map fun p => " " ++ p.text).getD ""
    let filter ← match filter with
      | none => pure ""
      | some x => do pure (" when (" ++ (← x.textWith s arrayText) ++ ")")
    return "catch (" ++ test.text ++ var ++ ")" ++ filter ++ " " ++
      braced (← body.textWith s arrayText)

def CatchClause.textsWith (s : Store) (arrayText : Nat → Option String) :
    List CatchClause → Option (List String)
  | [] => some []
  | c :: cs => do return (← c.textWith s arrayText) :: (← CatchClause.textsWith s arrayText cs)

def ElementInit.textWith (s : Store) (arrayText : Nat → Option String) : ElementInit → Option String
  | .mk _ _ args => do
    return match ← Node.textsWith s arrayText args with
      | [single] => single
      | args => braced (commas args)

def ElementInit.textsWith (s : Store) (arrayText : Nat → Option String) :
    List ElementInit → Option (List String)
  | [] => some []
  | i :: is => do return (← i.textWith s arrayText) :: (← ElementInit.textsWith s arrayText is)

def MemberBinding.textWith (s : Store) (arrayText : Nat → Option String) :
    MemberBinding → Option String
  | .assign _ m value => do return m.name ++ " = " ++ (← value.textWith s arrayText)
  | .nested _ m bindings => do
    return m.name ++ " = " ++ braced (commas (← MemberBinding.textsWith s arrayText bindings))
  | .list _ m inits => do
    return m.name ++ " = " ++ braced (commas (← ElementInit.textsWith s arrayText inits))

def MemberBinding.textsWith (s : Store) (arrayText : Nat → Option String) :
    List MemberBinding → Option (List String)
  | [] => some []
  | b :: bs => do return (← b.textWith s arrayText) :: (← MemberBinding.textsWith s arrayText bs)

end

namespace Store

/-- The text of an array whose items lead through at most so many further arrays. -/
def arrayText (s : Store) : Nat → Nat → Option String
  | 0, _ => none
  | n + 1, addr => do
    return "[" ++ commas (← (s.arrayItems addr).toList.mapM (·.textWith s (s.arrayText n))) ++ "]"

/-- More arrays in a row than the store has, and one past them, would repeat one of them. -/
def textOfArray (s : Store) (addr : Nat) : Option String := s.arrayText (s.arrays.size + 1) addr

end Store

/-- The text of a value, unless its arrays contain one another. -/
def Value.text? (s : Store) (v : Value) : Option String := v.textWith s s.textOfArray

def Node.text? (s : Store) (n : Node) : Option String := n.textWith s s.textOfArray

/-- The text of a value for messages; endless text is left out. -/
def Value.text (s : Store) (v : Value) : String := (v.text? s).getD ""

def Node.text (s : Store) (n : Node) : String := (n.text? s).getD ""

/-- The text of a value with its sort. -/
def Value.debugText (s : Store) : Value → String
  | .str t => "Str(" ++ Text.quoteString t ++ ")"
  | .void => "void"
  | .null => "null"
  | v => v.sortName ++ "(" ++ v.text s ++ ")"

end ExprTree
