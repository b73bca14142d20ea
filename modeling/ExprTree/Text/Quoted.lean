import ExprTree.Text.Unprintable

/-! Quoted characters and strings: quotes, backslashes and line characters are escaped, and what has
no shape of its own is written as its code point. -/
namespace ExprTree.Text

/-- How a character is written between quotes of the form `quote`. -/
def escapeChar (quote c : Char) : String :=
  if c = '\x00' then "\\0"
  else if c = '\t' then "\\t"
  else if c = '\r' then "\\r"
  else if c = '\n' then "\\n"
  else if c = '\\' then "\\\\"
  else if c = quote then "\\" ++ String.singleton c
  else if 32 ≤ c.toNat && c.toNat < 127 then String.singleton c
  else if isUnprintable c then "\\u\x7b" ++ String.ofList (Nat.toDigits 16 c.toNat) ++ "\x7d"
  else String.singleton c

def quoteString (s : String) : String :=
  "\"" ++ String.join (s.toList.map (escapeChar '"')) ++ "\""

def quoteChar (c : Char) : String := "'" ++ escapeChar '\'' c ++ "'"

end ExprTree.Text
