/-!
# Decimal numerals

A numeral is one or more decimal digits, possibly after a plus sign, whose value
does not exceed a given bound. Leading zeros are allowed.
-/

namespace TermIndex.Surface

/-- The largest variable number or index, `2 ^ 32 - 1`. -/
def maxId : Nat := 4294967295

/-- The largest literal, `2 ^ 64 - 1`. -/
def maxLiteral : Nat := 18446744073709551615

/-- The value of a list of digits, most significant first. -/
def digitsValue (ds : List Char) : Nat :=
  ds.foldl (fun n d => 10 * n + (d.toNat - '0'.toNat)) 0

/-- The value of a numeral, unless the text is none or its value exceeds `bound`. -/
def numeral? (bound : Nat) (s : List Char) : Option Nat :=
  let ds := match s with
    | '+' :: rest => rest
    | _ => s
  if ds.isEmpty || ! ds.all Char.isDigit then none
  else
    let n := digitsValue ds
    if n ≤ bound then some n else none

end TermIndex.Surface
