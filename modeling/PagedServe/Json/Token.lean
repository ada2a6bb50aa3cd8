/-
PagedServe/Json/Token.lean

JSON text cut into tokens, one character at a time.

`Lexer.step` takes a character, and `lex?` folds it over the text. Between
tokens only blank, tab, line feed and carriage return are skipped. A string may
hold any character from the blank on; a number must have the exact JSON form,
and ends at the first character that does not continue it.
-/
import PagedServe.Json

namespace PagedServe.Json

/-- The smallest parts of a text. A string is decoded already, and has no text if it cannot
be. -/
inductive Token where
  | openArray
  | closeArray
  | openObject
  | closeObject
  | comma
  | colon
  | null
  | bool (b : Bool)
  | num (literal : List Char)
  | str (text : Option String)

/-! ### String contents -/

/-- A character of a string, or the 16-bit unit of a numeric escape. -/
inductive Piece where
  | char (c : Char)
  | unit (u : Nat)

/-- The first half of a surrogate pair. -/
def isHighSurrogate (u : Nat) : Bool := 0xD800 ≤ u && u < 0xDC00

/-- The second half of a surrogate pair. -/
def isLowSurrogate (u : Nat) : Bool := 0xDC00 ≤ u && u < 0xE000

/-- The characters that pieces spell. A high surrogate must be followed at once
by a low one, and a low one must follow a high one. -/
def decode : List Piece → Option (List Char)
  | [] => some []
  | .char c :: rest => (decode rest).map (c :: ·)
  | .unit u :: .unit v :: rest =>
    if isHighSurrogate u then
      if isLowSurrogate v then
        (decode rest).map (Char.ofNat (0x10000 + (u - 0xD800) * 0x400 + (v - 0xDC00)) :: ·)
      else none
    else if isLowSurrogate u then none
    else (decode (.unit v :: rest)).map (Char.ofNat u :: ·)
  | .unit u :: rest =>
    if isHighSurrogate u || isLowSurrogate u then none
    else (decode rest).map (Char.ofNat u :: ·)

/-- The character of a two-letter escape. -/
def simpleEscape? : Char → Option Char
  | '"' => some '"'
  | '\\' => some '\\'
  | '/' => some '/'
  | 'b' => some '\x08'
  | 'f' => some '\x0c'
  | 'n' => some '\n'
  | 'r' => some '\r'
  | 't' => some '\t'
  | _ => none

/-- The value of a hexadecimal digit, in either case. -/
def hexDigit? (c : Char) : Option Nat :=
  if '0' ≤ c ∧ c ≤ '9' then some (c.toNat - '0'.toNat)
  else if 'a' ≤ c ∧ c ≤ 'f' then some (c.toNat - 'a'.toNat + 10)
  else if 'A' ≤ c ∧ c ≤ 'F' then some (c.toNat - 'A'.toNat + 10)
  else none

/-! ### Numbers -/

/-- What has been seen of a number. -/
inductive NumberPhase where
  | minus
  | zero
  | whole
  | point
  | fraction
  | exponent
  | exponentSign
  | exponentDigits

namespace NumberPhase

/-- The number may end here. -/
def isComplete : NumberPhase → Bool
  | .zero | .whole | .fraction | .exponentDigits => true
  | .minus | .point | .exponent | .exponentSign => false

/-- The phase after one more character, if that continues the number. -/
def next? (phase : NumberPhase) (c : Char) : Option NumberPhase :=
  let digit := c.isDigit
  let mark := c == 'e' || c == 'E'
  match phase with
  | .minus => if c = '0' then some .zero else if digit then some .whole else none
  | .zero => if c = '.' then some .point else if mark then some .exponent else none
  | .whole =>
    if digit then some .whole
    else if c = '.' then some .point
    else if mark then some .exponent
    else none
  | .point => if digit then some .fraction else none
  | .fraction => if digit then some .fraction else if mark then some .exponent else none
  | .exponent =>
    if digit then some .exponentDigits
    else if c = '+' ∨ c = '-' then some .exponentSign
    else none
  | .exponentSign => if digit then some .exponentDigits else none
  | .exponentDigits => if digit then some .exponentDigits else none

end NumberPhase

/-! ### The lexer -/

/-- What the lexer is inside of. Characters and pieces seen are kept last first. -/
inductive LexMode where
  | between
  /-- Inside a word, with these letters still to come. -/
  | word (letters : List Char) (token : Token)
  | number (phase : NumberPhase) (seen : List Char)
  | text (pieces : List Piece)
  /-- Just after a backslash. -/
  | escape (pieces : List Piece)
  /-- Inside a numeric escape, after so many of its four digits. -/
  | unicode (pieces : List Piece) (count value : Nat)

/-- The state between two characters. -/
structure Lexer where
  mode : LexMode
  /-- Finished tokens, last first. -/
  tokens : List Token

namespace Lexer

/-- Nothing has been read. -/
def start : Lexer := ⟨.between, []⟩

/-- A character that may stand between tokens. -/
def isBlank (c : Char) : Bool := c == ' ' || c == '\t' || c == '\n' || c == '\r'

/-- A character that no unfinished token claims. -/
def begin (tokens : List Token) (c : Char) : Option Lexer :=
  if isBlank c then some ⟨.between, tokens⟩
  else match c with
    | '[' => some ⟨.between, .openArray :: tokens⟩
    | ']' => some ⟨.between, .closeArray :: tokens⟩
    | '\x7b' => some ⟨.between, .openObject :: tokens⟩
    | '\x7d' => some ⟨.between, .closeObject :: tokens⟩
    | ',' => some ⟨.between, .comma :: tokens⟩
    | ':' => some ⟨.between, .colon :: tokens⟩
    | 'n' => some ⟨.word ['u', 'l', 'l'] .null, tokens⟩
    | 't' => some ⟨.word ['r', 'u', 'e'] (.bool true), tokens⟩
    | 'f' => some ⟨.word ['a', 'l', 's', 'e'] (.bool false), tokens⟩
    | '"' => some ⟨.text [], tokens⟩
    | '-' => some ⟨.number .minus [c], tokens⟩
    | '0' => some ⟨.number .zero [c], tokens⟩
    | _ => if c.isDigit then some ⟨.number .whole [c], tokens⟩ else none

/-- The state after one more character. One that ends a number or a word begins the next token. -/
def step (l : Lexer) (c : Char) : Option Lexer :=
  match l.mode with
  | .between => begin l.tokens c
  | .word [] token => begin (token :: l.tokens) c
  | .word (letter :: letters) token =>
    if c ≠ letter then none
    else if letters.isEmpty then some ⟨.between, token :: l.tokens⟩
    else some ⟨.word letters token, l.tokens⟩
  | .number phase seen =>
    match phase.next? c with
    | some phase => some ⟨.number phase (c :: seen), l.tokens⟩
    | none => if phase.isComplete then begin (.num seen.reverse :: l.tokens) c else none
  | .text pieces =>
    if c = '"' then some ⟨.between, .str ((decode pieces.reverse).map String.ofList) :: l.tokens⟩
    else if c = '\\' then some ⟨.escape pieces, l.tokens⟩
    else if c.toNat < 0x20 then none
    else some ⟨.text (.char c :: pieces), l.tokens⟩
  | .escape pieces =>
    if c = 'u' then some ⟨.unicode pieces 0 0, l.tokens⟩
    else (simpleEscape? c).map fun e => ⟨.text (.char e :: pieces), l.tokens⟩
  | .unicode pieces count value =>
    (hexDigit? c).map fun digit =>
      let value := 16 * value + digit
      if count = 3 then ⟨.text (.unit value :: pieces), l.tokens⟩
      else ⟨.unicode pieces (count + 1) value, l.tokens⟩

/-- The tokens, if the text does not end inside one. -/
def finish? (l : Lexer) : Option (List Token) :=
  match l.mode with
  | .between => some l.tokens.reverse
  | .number phase seen =>
    if phase.isComplete then some (Token.num seen.reverse :: l.tokens).reverse else none
  | _ => none

end Lexer

/-- The tokens of a text, or nothing if some part of it is no token. -/
def lex? (text : List Char) : Option (List Token) :=
  (text.foldlM Lexer.step Lexer.start).bind Lexer.finish?

end PagedServe.Json
