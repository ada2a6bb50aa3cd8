/-
PagedServe/Proofs/JsonText.lean

Reading a text gives back the value that it spells.

Both stages of reading are folds, so each has a lemma that says what state a piece of input leads
to, whatever comes after it: the characters of a token for the lexer (`rest_token`), the tokens
of a value for the parser (`run_value`).

A number ends only where a character comes that does not continue it.  The lexer is then one
character late, which the lemmas hide by looking at what the rest of the text comes to
(`Lexer.rest`) and not at states.  Two numbers side by side would be read as one; the tokens of
a value never have them (`separated_tokens`).

Main statement: `parse?_of_spells`.
-/
import Mathlib.Tactic.IntervalCases
import PagedServe.Json.Parser
import PagedServe.Json.Writer

namespace PagedServe.Json

/-! ### From tokens to the value -/

namespace Parser

/-- The state after some tokens. -/
def run (p : Parser) (tokens : List Token) : Option Parser := tokens.foldlM step p

/-- A value is not an end, so it may come where the first item may. -/
theorem run_itemOrEnd (v : Json) (stack : List Frame) (rest : List Token) :
    run (.expecting .itemOrEnd stack) (v.tokens ++ rest) =
      run (.expecting .value stack) (v.tokens ++ rest) := by
  cases v <;> rfl

mutual

/-- The tokens of a value complete it. -/
theorem run_value (v : Json) (stack : List Frame) (rest : List Token) :
    run (.expecting .value stack) (v.tokens ++ rest) =
      (complete v stack).bind fun p => run p rest := by
  match v with
  | .null => rfl
  | .bool _ => rfl
  | .num _ => rfl
  | .str _ => rfl
  | .arr [] => rfl
  | .arr (v :: items) =>
    -- the first item has no comma before it, so it is read here and the others below
    show run (.expecting .itemOrEnd (.array [] :: stack))
      ((v.tokens ++ itemTokens [.comma] items) ++ rest) = _
    rw [List.append_assoc, run_itemOrEnd, run_value v]
    exact run_items items [v] stack rest
  | .obj [] => rfl
  | .obj ((key, v) :: members) =>
    show run (.expecting .value (.member [] key :: stack))
      ((v.tokens ++ memberTokens [.comma] members) ++ rest) = _
    rw [List.append_assoc, run_value v]
    exact run_members members [(key, v)] stack rest

/-- Further items and the end of an array, of which `held` is already read, last first. -/
theorem run_items (items held : List Json) (stack : List Frame) (rest : List Token) :
    run (.expecting .commaOrEnd (.array held :: stack)) (itemTokens [.comma] items ++ rest) =
      (complete (.arr (held.reverse ++ items)) stack).bind fun p => run p rest := by
  match items with
  | [] =>
    rw [List.append_nil]
    rfl
  | v :: items =>
    show run (.expecting .value (.array held :: stack))
      ((v.tokens ++ itemTokens [.comma] items) ++ rest) = _
    rw [List.append_assoc, run_value v]
    show run (.expecting .commaOrEnd (.array (v :: held) :: stack)) _ = _
    rw [run_items items (v :: held), List.reverse_cons, List.append_assoc]
    rfl

/-- Further members and the end of an object, of which `held` is already read, last first. -/
theorem run_members (members held : List (Option String × Json)) (stack : List Frame)
    (rest : List Token) :
    run (.expecting .commaOrEnd (.object held :: stack)) (memberTokens [.comma] members ++ rest) =
      (complete (.obj (held.reverse ++ members)) stack).bind fun p => run p rest := by
  match members with
  | [] =>
    rw [List.append_nil]
    rfl
  | (key, v) :: members =>
    show run (.expecting .value (.member held key :: stack))
      ((v.tokens ++ memberTokens [.comma] members) ++ rest) = _
    rw [List.append_assoc, run_value v]
    show run (.expecting .commaOrEnd (.object ((key, v) :: held) :: stack)) _ = _
    rw [run_members members ((key, v) :: held), List.reverse_cons, List.append_assoc]
    rfl

end

end Parser

theorem ofTokens?_tokens (v : Json) : ofTokens? v.tokens = some v := by
  have hrun := Parser.run_value v [] []
  rw [List.append_nil] at hrun
  show (Parser.run Parser.start v.tokens).bind Parser.finish? = _
  rw [Parser.start, hrun]
  rfl

/-! ### From characters to tokens -/

theorem decode_chars (cs : List Char) : decode (cs.map Piece.char) = some cs := by
  induction cs with
  | nil => rfl
  | cons c cs ih => rw [List.map_cons, decode, ih, Option.map_some]

/-- A character that a number may go on with. -/
def continuesNumber (c : Char) : Bool := c.isDigit || c == '.' || c == 'e' || c == 'E'

theorem next?_digit {c : Char} (h : c.isDigit = true) :
    NumberPhase.whole.next? c = some .whole := by
  simp [NumberPhase.next?, h]

theorem next?_none {phase : NumberPhase} {c : Char} (hphase : phase = .zero ∨ phase = .whole)
    (h : continuesNumber c = false) : phase.next? c = none := by
  simp only [continuesNumber, Bool.or_eq_false_iff, beq_eq_false_iff_ne] at h
  obtain ⟨⟨⟨hdigit, hpoint⟩, he⟩, hE⟩ := h
  rcases hphase with rfl | rfl <;> simp [NumberPhase.next?, hdigit, hpoint, he, hE]

/-- A number that is not zero begins with another digit. -/
theorem toDigits_eq_cons {n : Nat} (hn : 0 < n) :
    ∃ d digits, 0 < d ∧ d < 10 ∧ Nat.toDigits 10 n = d.digitChar :: digits := by
  induction n using Nat.strongRecOn with
  | ind n ih =>
    rcases Nat.lt_or_ge n 10 with hlt | hge
    · exact ⟨n, [], hn, hlt, Nat.toDigits_of_lt_base hlt⟩
    · obtain ⟨d, digits, hd, hd10, hdigits⟩ := ih (n / 10) (by omega) (by omega)
      refine ⟨d, digits ++ [(n % 10).digitChar], hd, hd10, ?_⟩
      rw [Nat.toDigits_of_base_le (by decide) hge, hdigits]
      rfl

/-- A number's text has no end of its own. -/
def Token.isNumber : Token → Bool
  | .num _ => true
  | _ => false

/-- No two numbers stand side by side. -/
def Separated : List Token → Prop
  | [] => True
  | t :: tokens =>
    (t.isNumber = true → ∀ next ∈ tokens.head?, next.isNumber = false) ∧ Separated tokens

namespace Lexer

variable {done tokens : List Token} {text : List Char}

/-- What the rest of a text comes to. -/
def rest (l : Lexer) (text : List Char) : Option (List Token) :=
  (text.foldlM step l).bind finish?

theorem rest_cons (l : Lexer) (c : Char) (text : List Char) :
    rest l (c :: text) = (step l c).bind fun l => rest l text := by
  rw [rest, List.foldlM_cons]
  exact Option.bind_assoc ..

theorem rest_blank {c : Char} (h : isBlank c = true) :
    rest ⟨.between, done⟩ (c :: text) = rest ⟨.between, done⟩ text := by
  have hstep : step ⟨.between, done⟩ c = some ⟨.between, done⟩ := if_pos h
  rw [rest_cons, hstep, Option.bind_some]

/-! #### Strings -/

theorem rest_plain {cs : List Char} (h : cs.all isPlainChar = true) (pieces : List Piece) :
    rest ⟨.text pieces, done⟩ (cs ++ text) =
      rest ⟨.text ((cs.map Piece.char).reverse ++ pieces), done⟩ text := by
  induction cs generalizing pieces with
  | nil => rfl
  | cons c cs ih =>
    obtain ⟨hc, hcs⟩ := Bool.and_eq_true_iff.mp h
    simp only [isPlainChar, Bool.and_eq_true, decide_eq_true_eq] at hc
    obtain ⟨⟨hquote, hslash⟩, hcontrol⟩ := hc
    have hstep : step ⟨.text pieces, done⟩ c = some ⟨.text (.char c :: pieces), done⟩ := by
      simp only [step, if_neg hquote, if_neg hslash, if_neg (Nat.not_lt.mpr hcontrol)]
    rw [List.cons_append, rest_cons, hstep, Option.bind_some, ih hcs]
    rw [List.map_cons, List.reverse_cons, List.append_assoc]
    rfl

theorem rest_string {s : String} (h : s.toList.all isPlainChar = true) :
    rest ⟨.between, done⟩ ('"' :: (s.toList ++ ['"']) ++ text) =
      rest ⟨.between, .str (some s) :: done⟩ text := by
  have hopen : rest ⟨.between, done⟩ ('"' :: (s.toList ++ ['"']) ++ text) =
      rest ⟨.text [], done⟩ (s.toList ++ ('"' :: text)) := by
    rw [List.cons_append, rest_cons, List.append_assoc]
    rfl
  have hclose : step ⟨.text (s.toList.map Piece.char).reverse, done⟩ '"' =
      some ⟨.between, .str (some s) :: done⟩ := by
    simp only [step, if_pos, List.reverse_reverse, decode_chars, Option.map_some,
      String.ofList_toList]
  rw [hopen, rest_plain h, List.append_nil, rest_cons, hclose, Option.bind_some]

/-! #### Numbers -/

/-- A number ends where something else begins. -/
theorem rest_number {phase : NumberPhase} {seen : List Char}
    (hphase : phase = .zero ∨ phase = .whole) (h : ∀ c ∈ text.head?, continuesNumber c = false) :
    rest ⟨.number phase seen, done⟩ text = rest ⟨.between, .num seen.reverse :: done⟩ text := by
  have hcomplete : phase.isComplete = true := by rcases hphase with rfl | rfl <;> rfl
  cases text with
  | nil =>
    show finish? ⟨.number phase seen, done⟩ = finish? ⟨.between, _⟩
    simp only [finish?, if_pos hcomplete]
  | cons c text =>
    -- the character that ends the number begins what comes next
    have hnext := next?_none hphase (h c rfl)
    have hstep : step ⟨.number phase seen, done⟩ c =
        step ⟨.between, .num seen.reverse :: done⟩ c := by
      simp only [step, hnext, if_pos hcomplete]
    rw [rest_cons, hstep, ← rest_cons]

theorem rest_digits {digits : List Char} (h : ∀ c ∈ digits, c.isDigit = true) (seen : List Char) :
    rest ⟨.number .whole seen, done⟩ (digits ++ text) =
      rest ⟨.number .whole (digits.reverse ++ seen), done⟩ text := by
  induction digits generalizing seen with
  | nil => rfl
  | cons c digits ih =>
    have hstep : step ⟨.number .whole seen, done⟩ c = some ⟨.number .whole (c :: seen), done⟩ := by
      simp only [step, next?_digit (h c List.mem_cons_self)]
    rw [List.cons_append, rest_cons, hstep, Option.bind_some,
      ih (fun d hd => h d (List.mem_cons_of_mem c hd)), List.reverse_cons, List.append_assoc]
    rfl

theorem rest_decimal (n : Nat) (h : ∀ c ∈ text.head?, continuesNumber c = false) :
    rest ⟨.between, done⟩ (Nat.toDigits 10 n ++ text) =
      rest ⟨.between, .num (Nat.toDigits 10 n) :: done⟩ text := by
  rcases Nat.eq_zero_or_pos n with rfl | hn
  · show rest ⟨.number .zero ['0'], done⟩ text = rest ⟨.between, .num ['0'] :: done⟩ text
    exact rest_number (.inl rfl) h
  · obtain ⟨d, digits, hd, hd10, hdigits⟩ := toDigits_eq_cons hn
    have hrest : ∀ c ∈ digits, c.isDigit = true := fun c hc =>
      Nat.isDigit_of_mem_toDigits (by decide) (by decide) (hdigits ▸ List.mem_cons_of_mem _ hc)
    have hstep : step ⟨.between, done⟩ d.digitChar = some ⟨.number .whole [d.digitChar], done⟩ := by
      interval_cases d <;> rfl
    rw [hdigits, List.cons_append, rest_cons, hstep, Option.bind_some, rest_digits hrest,
      rest_number (.inr rfl) h, List.reverse_append, List.reverse_reverse]
    rfl

/-! #### Whole texts -/

/-- The characters of a token, read as that token. -/
theorem rest_token {t : Token} (ht : t.IsPlain)
    (h : t.isNumber = true → ∀ c ∈ text.head?, continuesNumber c = false) :
    rest ⟨.between, done⟩ (t.text ++ text) = rest ⟨.between, t :: done⟩ text := by
  cases t with
  | num literal =>
    obtain ⟨n, rfl⟩ := ht
    exact rest_decimal n (h rfl)
  | str s =>
    obtain ⟨s, rfl, hs⟩ := ht
    exact rest_string hs
  | bool b => cases b <;> rfl
  | _ => rfl

/-- A text does not go on with a number unless its next token is one. -/
theorem head_of_spells (h : Spells tokens text)
    (htokens : ∀ t ∈ tokens.head?, t.isNumber = false) :
    ∀ c ∈ text.head?, continuesNumber c = false := by
  cases h with
  | nil => simp
  | blank hblank _ =>
    intro c hc
    obtain rfl := Option.some.inj hc
    simp only [isBlank, Bool.or_eq_true, beq_iff_eq] at hblank
    rcases hblank with ((rfl | rfl) | rfl) | rfl <;> rfl
  | token t _ =>
    -- every token has a first character, and only a number one that could go on with it
    intro c hc
    have ht : t.isNumber = false := htokens t rfl
    cases t with
    | num literal => cases ht
    | bool b => cases b <;> (obtain rfl := Option.some.inj hc; rfl)
    | _ => obtain rfl := Option.some.inj hc; rfl

theorem rest_of_spells (h : Spells tokens text) (hplain : ∀ t ∈ tokens, t.IsPlain)
    (hsep : Separated tokens) (done : List Token) :
    rest ⟨.between, done⟩ text = some (done.reverse ++ tokens) := by
  induction h generalizing done with
  | nil => rw [List.append_nil]; rfl
  | blank hblank _ ih => rw [rest_blank hblank, ih hplain hsep]
  | @token tokens text t htext ih =>
    have hnext : t.isNumber = true → ∀ c ∈ text.head?, continuesNumber c = false := fun ht =>
      head_of_spells htext (hsep.1 ht)
    rw [rest_token (hplain t List.mem_cons_self) hnext,
      ih (fun t' ht' => hplain t' (List.mem_cons_of_mem t ht')) hsep.2, List.reverse_cons,
      List.append_assoc]
    rfl

end Lexer

/-! ### The tokens of a value -/

theorem separated_append {front tokens : List Token}
    (hfront : (front.all fun t => !t.isNumber) = true) (h : Separated tokens) :
    Separated (front ++ tokens) := by
  induction front with
  | nil => exact h
  | cons t front ih =>
    obtain ⟨ht, hfront⟩ := Bool.and_eq_true_iff.mp hfront
    have hother : t.isNumber = false := by simpa using ht
    exact ⟨fun hnum => absurd hnum (by rw [hother]; decide), ih hfront⟩

/-- Tokens that may stand behind a number. -/
structure MayFollow (tokens : List Token) : Prop where
  separated : Separated tokens
  head : ∀ t ∈ tokens.head?, t.isNumber = false

theorem head_itemTokens (items : List Json) (rest : List Token) :
    ∀ t ∈ (itemTokens [.comma] items ++ rest).head?, t.isNumber = false := by
  cases items <;> (intro t ht; obtain rfl := Option.some.inj ht; rfl)

theorem head_memberTokens (members : List (Option String × Json)) (rest : List Token) :
    ∀ t ∈ (memberTokens [.comma] members ++ rest).head?, t.isNumber = false := by
  cases members <;> (intro t ht; obtain rfl := Option.some.inj ht; rfl)

mutual

theorem separated_tokens (v : Json) {rest : List Token} (h : MayFollow rest) :
    Separated (v.tokens ++ rest) := by
  match v with
  | .null => exact ⟨fun hnum => (nomatch hnum), h.separated⟩
  | .bool _ => exact ⟨fun hnum => (nomatch hnum), h.separated⟩
  | .num _ => exact ⟨fun _ => h.head, h.separated⟩
  | .str _ => exact ⟨fun hnum => (nomatch hnum), h.separated⟩
  | .arr items => exact ⟨fun hnum => (nomatch hnum), separated_items items rfl h.separated⟩
  | .obj members => exact ⟨fun hnum => (nomatch hnum), separated_members members rfl h.separated⟩

theorem separated_items (items : List Json) {lead rest : List Token}
    (hlead : (lead.all fun t => !t.isNumber) = true) (h : Separated rest) :
    Separated (itemTokens lead items ++ rest) := by
  match items with
  | [] => exact ⟨fun hnum => (nomatch hnum), h⟩
  | v :: items =>
    have hrest : Separated (itemTokens [.comma] items ++ rest) := separated_items items rfl h
    have hvalue := separated_tokens v ⟨hrest, head_itemTokens items rest⟩
    show Separated ((lead ++ (v.tokens ++ itemTokens [.comma] items)) ++ rest)
    rw [List.append_assoc, List.append_assoc]
    exact separated_append hlead hvalue

theorem separated_members (members : List (Option String × Json)) {lead rest : List Token}
    (hlead : (lead.all fun t => !t.isNumber) = true) (h : Separated rest) :
    Separated (memberTokens lead members ++ rest) := by
  match members with
  | [] => exact ⟨fun hnum => (nomatch hnum), h⟩
  | (key, v) :: members =>
    have hrest : Separated (memberTokens [.comma] members ++ rest) :=
      separated_members members rfl h
    have hvalue := separated_tokens v ⟨hrest, head_memberTokens members rest⟩
    have hmember : Separated ([.str key, .colon] ++ _) := separated_append rfl hvalue
    show Separated ((lead ++ ([.str key, .colon] ++ (v.tokens ++ memberTokens [.comma] members)))
      ++ rest)
    rw [List.append_assoc, List.append_assoc, List.append_assoc]
    exact separated_append hlead hmember

end

/-- All tokens of a value are plain. -/
def IsPlain (v : Json) : Prop := ∀ t ∈ v.tokens, t.IsPlain

theorem isPlain_null : IsPlain .null := List.forall_mem_singleton.mpr trivial

theorem isPlain_bool (b : Bool) : IsPlain (.bool b) := List.forall_mem_singleton.mpr trivial

theorem isPlain_ofNat (n : Nat) : (ofNat n).IsPlain := List.forall_mem_singleton.mpr ⟨n, rfl⟩

theorem isPlain_str {s : String} (h : s.toList.all isPlainChar = true) :
    IsPlain (.str (some s)) := List.forall_mem_singleton.mpr ⟨s, rfl, h⟩

theorem isPlain_comma : ∀ t ∈ [Token.comma], t.IsPlain := List.forall_mem_singleton.mpr trivial

theorem isPlain_itemTokens {items : List Json} (h : ∀ v ∈ items, v.IsPlain) {lead : List Token}
    (hlead : ∀ t ∈ lead, t.IsPlain) : ∀ t ∈ itemTokens lead items, t.IsPlain := by
  induction items generalizing lead with
  | nil => exact List.forall_mem_singleton.mpr trivial
  | cons v items ih =>
    obtain ⟨hv, hitems⟩ := List.forall_mem_cons.mp h
    have hrest := ih hitems isPlain_comma
    exact List.forall_mem_append.mpr ⟨hlead, List.forall_mem_append.mpr ⟨hv, hrest⟩⟩

theorem isPlain_arr {items : List Json} (h : ∀ v ∈ items, v.IsPlain) : IsPlain (.arr items) :=
  List.forall_mem_cons.mpr ⟨trivial, isPlain_itemTokens h (List.forall_mem_nil _)⟩

theorem isPlain_memberTokens {members : List (Option String × Json)}
    (h : ∀ m ∈ members, (Token.str m.1).IsPlain ∧ m.2.IsPlain) {lead : List Token}
    (hlead : ∀ t ∈ lead, t.IsPlain) : ∀ t ∈ memberTokens lead members, t.IsPlain := by
  induction members generalizing lead with
  | nil => exact List.forall_mem_singleton.mpr trivial
  | cons m members ih =>
    obtain ⟨⟨hkey, hvalue⟩, hmembers⟩ := List.forall_mem_cons.mp h
    have hrest := ih hmembers isPlain_comma
    exact List.forall_mem_append.mpr ⟨hlead, List.forall_mem_cons.mpr ⟨hkey,
      List.forall_mem_cons.mpr ⟨trivial, List.forall_mem_append.mpr ⟨hvalue, hrest⟩⟩⟩⟩

theorem isPlain_obj {members : List (Option String × Json)}
    (h : ∀ m ∈ members, (Token.str m.1).IsPlain ∧ m.2.IsPlain) : IsPlain (.obj members) :=
  List.forall_mem_cons.mpr ⟨trivial, isPlain_memberTokens h (List.forall_mem_nil _)⟩

/-- A text of a plain value reads as this value, wherever it has blanks. -/
theorem parse?_of_spells {v : Json} {text : String} (hplain : v.IsPlain)
    (h : Spells v.tokens text.toList) : parse? text = some v := by
  have hsep : Separated v.tokens := by
    have happend : Separated (v.tokens ++ []) := separated_tokens v ⟨trivial, by simp⟩
    rwa [List.append_nil] at happend
  have hlex : lex? text.toList = some v.tokens := Lexer.rest_of_spells h hplain hsep []
  rw [parse?, hlex, Option.bind_some, ofTokens?_tokens]

end PagedServe.Json
