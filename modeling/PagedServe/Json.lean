/-
PagedServe/Json.lean

JSON values as they are written. A number keeps its literal, an object keeps its
members in order and with repetitions, and a string whose escapes leave half of
a surrogate pair alone has no text (`none`), so that such values can be skipped
but never used.
-/
import PagedServe.Decimal

namespace PagedServe

/-- A value, with what is written of it kept. -/
inductive Json where
  | null
  | bool (b : Bool)
  | num (literal : List Char)
  | str (text : Option String)
  | arr (items : List Json)
  | obj (members : List (Option String × Json))

namespace Json

/-- A whole number in 64 bits, written with digits alone. -/
def nat? : Json → Option Nat
  | .num literal => Decimal.word? literal
  | _ => none

/-- A truth value. -/
def bool? : Json → Option Bool
  | .bool b => some b
  | _ => none

/-- Either null, for nothing, or a value that `read` accepts. -/
def optional? {α : Type} (read : Json → Option α) : Json → Option (Option α)
  | .null => some none
  | v => (read v).map some

end Json

end PagedServe
