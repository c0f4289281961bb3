/-!
# Numbers of fixed width

The first numbers that words of 16, 31, 32, 53, 63 and 64 bits do not hold. A word of 53 bits is
what a decimal number in double precision keeps of its digits.
-/

namespace CodeGraph.Bits

def limit16 : Nat := 65536

def limit31 : Nat := 2147483648

def limit32 : Nat := 4294967296

def limit53 : Nat := 9007199254740992

def limit63 : Nat := 9223372036854775808

def limit64 : Nat := 18446744073709551616

end CodeGraph.Bits
