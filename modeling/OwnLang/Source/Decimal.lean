/-!
# Decimal numbers
-/

namespace OwnLang

/-- The bound of numbers that 64 bits can hold: two to the power of 64. -/
def wordBound : Nat := 18446744073709551616

/-- The number that decimal digits stand for. -/
def decimalValue (digits : List Char) : Nat :=
  digits.foldl (fun n c => 10 * n + (c.toNat - '0'.toNat)) 0

end OwnLang
