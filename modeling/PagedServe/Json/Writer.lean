/-
PagedServe/Json/Writer.lean

Texts that spell a JSON value.

`Json.tokens` lists the tokens of a value, and `Token.text` gives the characters of one.
Blanks may stand before, between and behind them, so a value has many texts: `Spells` says
which, and `compact` is the one without blanks.

Strings are written as they are. Those with characters that need an escape are not plain
(`Token.IsPlain`), and their texts may not read back.
-/
import PagedServe.Json.Token

namespace PagedServe.Json

/-- A number, in decimal digits. -/
def ofNat (n : Nat) : Json := .num (Nat.toDigits 10 n)

/-- Null for nothing. -/
def ofOption {α : Type} (write : α → Json) : Option α → Json
  | none => .null
  | some v => write v

/-! ### Tokens -/

mutual

def tokens : Json → List Token
  | .null => [.null]
  | .bool b => [.bool b]
  | .num literal => [.num literal]
  | .str text => [.str text]
  | .arr items => .openArray :: itemTokens [] items
  | .obj members => .openObject :: memberTokens [] members

/-- Items, `lead` before the first and a comma before each other one, and the end of the array. -/
def itemTokens (lead : List Token) : List Json → List Token
  | [] => [.closeArray]
  | v :: items => lead ++ (v.tokens ++ itemTokens [.comma] items)

/-- Members, `lead` before the first and a comma before each other one, and the end of the
object. -/
def memberTokens (lead : List Token) : List (Option String × Json) → List Token
  | [] => [.closeObject]
  | (key, v) :: members =>
    lead ++ (.str key :: .colon :: (v.tokens ++ memberTokens [.comma] members))

end

/-! ### Characters -/

/-- The characters of a token; a string is written without escapes. -/
def Token.text : Token → List Char
  | .openArray => ['[']
  | .closeArray => [']']
  | .openObject => ['\x7b']
  | .closeObject => ['\x7d']
  | .comma => [',']
  | .colon => [':']
  | .null => ['n', 'u', 'l', 'l']
  | .bool true => ['t', 'r', 'u', 'e']
  | .bool false => ['f', 'a', 'l', 's', 'e']
  | .num literal => literal
  | .str text => '"' :: ((text.getD "").toList ++ ['"'])

/-- A character that stands for itself in a string. -/
def isPlainChar (c : Char) : Bool := c ≠ '"' && c ≠ '\\' && 0x20 ≤ c.toNat

/-- What `Token.text` writes is this token: whole numbers and strings without escapes. -/
def Token.IsPlain : Token → Prop
  | .num literal => ∃ n, literal = Nat.toDigits 10 n
  | .str text => ∃ s, text = some s ∧ s.toList.all isPlainChar = true
  | _ => True

/-- The characters are those of the tokens, with blanks anywhere around them. -/
inductive Spells : List Token → List Char → Prop where
  | nil : Spells [] []
  | blank {tokens : List Token} {text : List Char} {c : Char} (hblank : Lexer.isBlank c = true)
      (h : Spells tokens text) : Spells tokens (c :: text)
  | token {tokens : List Token} {text : List Char} (t : Token) (h : Spells tokens text) :
      Spells (t :: tokens) (t.text ++ text)

/-- The text without blanks. -/
def compact (v : Json) : String := String.ofList (v.tokens.flatMap Token.text)

theorem spells_compact (v : Json) : Spells v.tokens v.compact.toList := by
  rw [compact, String.toList_ofList]
  induction v.tokens with
  | nil => exact .nil
  | cons t tokens ih => exact .token t ih

end PagedServe.Json
