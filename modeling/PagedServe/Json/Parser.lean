/-
PagedServe/Json/Parser.lean

The value that a list of tokens spells.

`Parser.step` takes a token, and `parse?` folds it over the tokens. The arrays
and objects that are still open lie on a stack, so a text may nest to any depth.
Exactly one value must come; commas stand between items and nowhere else.
-/
import PagedServe.Json.Token

namespace PagedServe.Json

/-- An array or object that is still open; what it holds is kept last first. -/
inductive Frame where
  | array (items : List Json)
  | object (members : List (Option String × Json))
  /-- An object in which the value of `key` is to come. -/
  | member (members : List (Option String × Json)) (key : Option String)

/-- What may come next. -/
inductive Expect where
  | value
  /-- A first item, or the end of the array. -/
  | itemOrEnd
  /-- A first key, or the end of the object. -/
  | keyOrEnd
  | key
  | colon
  /-- A comma, or the end of the innermost container. -/
  | commaOrEnd

/-- The state between two tokens: either a value is complete, or more is expected inside the
containers of the stack, the innermost first. -/
inductive Parser where
  | expecting (what : Expect) (stack : List Frame)
  | done (value : Json)

namespace Parser

/-- A value is to come, and nothing is open. -/
def start : Parser := .expecting .value []

/-- A value is complete: it belongs to the innermost container, or is the answer. -/
def complete (value : Json) : List Frame → Option Parser
  | [] => some (.done value)
  | .array items :: stack => some (.expecting .commaOrEnd (.array (value :: items) :: stack))
  | .member members key :: stack =>
    some (.expecting .commaOrEnd (.object ((key, value) :: members) :: stack))
  | .object _ :: _ => none

/-- A token where a value must begin. -/
def value (stack : List Frame) : Token → Option Parser
  | .null => complete .null stack
  | .bool b => complete (.bool b) stack
  | .num literal => complete (.num literal) stack
  | .str text => complete (.str text) stack
  | .openArray => some (.expecting .itemOrEnd (.array [] :: stack))
  | .openObject => some (.expecting .keyOrEnd (.object [] :: stack))
  | _ => none

/-- A token where a key must come. -/
def key : List Frame → Token → Option Parser
  | .object members :: stack, .str text =>
    some (.expecting .colon (.member members text :: stack))
  | _, _ => none

/-- The innermost container ends. -/
def close : List Frame → Token → Option Parser
  | .array items :: stack, .closeArray => complete (.arr items.reverse) stack
  | .object members :: stack, .closeObject => complete (.obj members.reverse) stack
  | _, _ => none

/-- The state after one more token, if it may come here. -/
def step (p : Parser) (t : Token) : Option Parser :=
  match p with
  | .done _ => none
  | .expecting what stack =>
    match what, t with
    | .value, t => value stack t
    | .itemOrEnd, .closeArray => close stack t
    | .itemOrEnd, t => value stack t
    | .keyOrEnd, .closeObject => close stack t
    | .keyOrEnd, t => key stack t
    | .key, t => key stack t
    | .colon, .colon => some (.expecting .value stack)
    | .colon, _ => none
    | .commaOrEnd, .comma =>
      match stack with
      | .array _ :: _ => some (.expecting .value stack)
      | .object _ :: _ => some (.expecting .key stack)
      | _ => none
    | .commaOrEnd, t => close stack t

/-- The value, if it is complete. -/
def finish? : Parser → Option Json
  | .done value => some value
  | .expecting .. => none

end Parser

/-- The value of a token list. -/
def ofTokens? (tokens : List Token) : Option Json :=
  (tokens.foldlM Parser.step Parser.start).bind Parser.finish?

/-- The value that a text spells, with nothing around it but blanks. -/
def parse? (text : String) : Option Json := (lex? text.toList).bind ofTokens?

end PagedServe.Json
