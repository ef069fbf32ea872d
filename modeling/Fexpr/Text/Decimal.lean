/-!
# Text/Decimal — numbers written in decimal digits

Only the ten ASCII digits count as digits.
-/

namespace Fexpr

namespace Decimal

/-- Whether a text holds nothing but digits; the empty text does. -/
def isDigits (cs : List Char) : Bool :=
  cs.all Char.isDigit

/-- **The number that a run of digits denotes**; leading zeros do not count. -/
def value (digits : List Char) : Nat :=
  digits.foldl (fun n c => 10 * n + (c.toNat - '0'.toNat)) 0

theorem value_append_digit (digits : List Char) (c : Char) :
    value (digits ++ [c]) = 10 * value digits + (c.toNat - '0'.toNat) := by
  simp [value, List.foldl_append]

end Decimal

end Fexpr
