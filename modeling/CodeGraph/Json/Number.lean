import CodeGraph.Bits
import CodeGraph.Json.Value

/-!
# Numerals

Reads the digits of a JSON numeral. The significand takes as many digits as 64 bits hold. A numeral
whose value is too large for a binary number of 64 bits has no value.
-/

namespace CodeGraph.Json.Number

/-- Adds digits to the significand while it stays below `2 ^ 64`. Returns it and the digits left. -/
def takeDigits (significand : Nat) : List Nat → Nat × List Nat
  | [] => (significand, [])
  | d :: ds =>
    if significand * 10 + d < Bits.limit64 then takeDigits (significand * 10 + d) ds
    else (significand, d :: ds)

/-- The nearest number with a significand of 53 bits, the even one of two. -/
def round53 (n : Nat) : Nat :=
  if n < Bits.limit53 then n
  else
    let k := n.log2 - 52
    let unit := Nat.pow 2 k
    let q := n / unit
    let r := n % unit
    let up := 2 * r > unit || (2 * r == unit && q % 2 == 1)
    (if up then q + 1 else q) * unit

/-- Whether `significand · 10 ^ exponent` has a finite value when both factors and their product are
rounded to 53 bits. -/
def isFinite (significand : Nat) (exponent : Int) : Bool :=
  if significand == 0 || exponent < 0 then true
  else if exponent > 308 then false
  else round53 (round53 significand * round53 (Nat.pow 10 exponent.toNat)) < Nat.pow 2 1024

def ofDecimal (negative : Bool) (significand : Nat) (exponent : Int) : Option Number :=
  if isFinite significand exponent then some (.decimal negative significand exponent) else none

/-- The value of a numeral with the given digits before the point, after the point, and in the
exponent, whose sign comes first. -/
def ofDigits (negative : Bool) (whole fraction : List Nat) (exponent : Option (Bool × List Nat)) :
    Option Number :=
  let (significand, wholeLeft) := takeDigits 0 whole
  match fraction, exponent, wholeLeft with
  | [], none, [] =>
    if !negative then some (.integer significand)
    else if significand != 0 && significand ≤ Bits.limit63 then
      some (.integer (-(significand : Int)))
    else some (.decimal true significand 0)
  | _, _, _ =>
    let (significand, fractionLeft) := takeDigits significand fraction
    let shift : Int := (wholeLeft.length : Int) - (fraction.length - fractionLeft.length : Nat)
    match exponent with
    | none => ofDecimal negative significand shift
    | some (negativeExponent, digits) =>
      let e : Nat := digits.foldl (fun e d => e * 10 + d) 0
      if e ≥ Bits.limit31 then
        if significand != 0 && !negativeExponent then none else some (.decimal negative 0 0)
      else ofDecimal negative significand (if negativeExponent then shift - e else shift + e)

end CodeGraph.Json.Number
