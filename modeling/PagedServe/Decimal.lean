/-
PagedServe/Decimal.lean

Natural numbers in decimal digits.
-/
import PagedServe.Word

namespace PagedServe.Decimal

/-- The number that a digit stands for. -/
def digitValue (c : Char) : Nat := c.toNat - '0'.toNat

/-- Read one more digit behind those read so far. -/
def step (read : Nat) (c : Char) : Nat := 10 * read + digitValue c

/-- The number that digits spell, the most significant first. -/
def value (digits : List Char) : Nat := digits.foldl step 0

/-- The number that digits spell, if there are any, all are digits, and it fits
in 64 bits. -/
def word? (digits : List Char) : Option Nat :=
  if digits ≠ [] ∧ digits.all Char.isDigit ∧ value digits < Word.limit then some (value digits)
  else none

end PagedServe.Decimal
