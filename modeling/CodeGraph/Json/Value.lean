import CodeGraph.Bits

/-!
# JSON values

A value of the data format. The members of an object are kept in ascending order of their names, and
a name occurs once; `Value.ofMembers` brings members into that form, where the last of several
members with one name counts.
-/

namespace CodeGraph.Json

/-- A number is an integer of at most 64 bits, or a decimal `± significand · 10 ^ exponent`. -/
inductive Number where
  | integer (n : Int)
  | decimal (negative : Bool) (significand : Nat) (exponent : Int)
deriving DecidableEq, Repr

inductive Value where
  | null
  | bool (b : Bool)
  | number (n : Number)
  | string (s : String)
  | array (items : List Value)
  | object (members : List (String × Value))
deriving Repr, Inhabited

namespace Value

/-- Puts a member in its place among sorted members, instead of one with the same name. -/
def insertMember (name : String) (v : Value) : List (String × Value) → List (String × Value)
  | [] => [(name, v)]
  | (name', v') :: ms =>
    if name < name' then (name, v) :: (name', v') :: ms
    else if name = name' then (name, v) :: ms
    else (name', v') :: insertMember name v ms

/-- The object with these members. -/
def ofMembers (ms : List (String × Value)) : Value :=
  .object (ms.foldl (fun acc (name, v) => insertMember name v acc) [])

/-- The member with this name, if the value is an object that has one. -/
def member? (name : String) : Value → Option Value
  | .object ms => ms.lookup name
  | _ => none

def ofNat (n : Nat) : Value := .number (.integer n)

/-- The text of a string value. -/
def string? : Value → Option String
  | .string s => some s
  | _ => none

def array? : Value → Option (List Value)
  | .array items => some items
  | _ => none

def bool? : Value → Option Bool
  | .bool b => some b
  | _ => none

/-- The value of an integer between `lo` and `hi`. -/
def int? (lo hi : Int) : Value → Option Int
  | .number (.integer n) => if lo ≤ n ∧ n ≤ hi then some n else none
  | _ => none

/-- An unsigned integer of 32 bits. -/
def uint32? (v : Value) : Option Nat := (v.int? 0 (Bits.limit32 - 1)).map Int.toNat

/-- A signed integer of 32 bits. -/
def int32? (v : Value) : Option Int := v.int? (-Bits.limit31) (Bits.limit31 - 1)

end Value

end CodeGraph.Json
