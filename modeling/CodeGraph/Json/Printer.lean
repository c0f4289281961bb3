import CodeGraph.Json.Value

/-!
# Printing JSON

The text of a value, without blanks. In texts, quotes, backslashes and control characters are
escaped, and all else is written as it is.
-/

namespace CodeGraph.Json

def hexDigit (n : Nat) : Char := "0123456789abcdef".toList.getD n '0'

/-- A character between quotes. -/
def escaped (c : Char) : List Char :=
  if c = '"' then ['\\', '"']
  else if c = '\\' then ['\\', '\\']
  else if c.toNat < 0x20 then
    ['\\', 'u', '0', '0', hexDigit (c.toNat / 16), hexDigit (c.toNat % 16)]
  else [c]

def quoted (s : String) : String := "\"" ++ String.ofList (s.toList.flatMap escaped) ++ "\""

def Number.render : Number → String
  | integer n => toString n
  | decimal negative significand exponent =>
    (if negative then "-" else "") ++ toString significand ++ "e" ++ toString exponent

namespace Value

mutual

/-- The text of a value. -/
def render : Value → String
  | null => "null"
  | bool b => if b then "true" else "false"
  | number n => n.render
  | string s => quoted s
  | array items => "[" ++ ",".intercalate (renderItems items) ++ "]"
  | object members => "\x7b" ++ ",".intercalate (renderMembers members) ++ "\x7d"

def renderItems : List Value → List String
  | [] => []
  | v :: rest => v.render :: renderItems rest

def renderMembers : List (String × Value) → List String
  | [] => []
  | (name, v) :: rest => (quoted name ++ ":" ++ v.render) :: renderMembers rest

end

end Value

end CodeGraph.Json
