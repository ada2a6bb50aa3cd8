/-
PagedServe/Proofs/SettingsText.lean

Settings read back from their text.

Reading a record goes through its fields in the order of the text.  One field sets its own value
and keeps the others (`ReadsBack`), so after several of them the record has the written values
where there were some and the defaults elsewhere (`Sets`), in whatever order they came.  If only
defaults were left out, this is the record that was written (`Form.read_write`).

The three records inside the settings are fields like any other, and their reading is such an
instance again.  The way from the text to its value is `Json.parse?_of_spells`.

Main statement: `Settings.parse_written`.
-/
import Mathlib.Data.List.Forall2
import PagedServe.Proofs.JsonText
import PagedServe.Settings.Reader
import PagedServe.Settings.Writer

namespace PagedServe

/-! ### Values -/

theorem Decimal.word?_toDigits {n : Nat} (h : n < Word.limit) :
    Decimal.word? (Nat.toDigits 10 n) = some n := by
  have hvalue : Decimal.value (Nat.toDigits 10 n) = n :=
    Nat.ofDigitChars_toDigits (by decide) (by decide)
  have hdigits : (Nat.toDigits 10 n).all Char.isDigit = true :=
    List.all_eq_true.mpr fun _ hc => Nat.isDigit_of_mem_toDigits (by decide) (by decide) hc
  rw [Decimal.word?, hvalue, if_pos ⟨Nat.toDigits_ne_nil, hdigits, h⟩]

theorem Json.nat?_ofNat {n : Nat} (h : n < Word.limit) : (Json.ofNat n).nat? = some n :=
  Decimal.word?_toDigits h

theorem Json.optional?_ofOption {o : Option Nat} (h : ∀ n ∈ o, n < Word.limit) :
    (Json.ofOption Json.ofNat o).optional? Json.nat? = some o := by
  cases o with
  | none => rfl
  | some n =>
    show ((Json.ofNat n).nat?).map some = _
    rw [Json.nat?_ofNat (h n rfl)]
    rfl

theorem Json.isPlain_ofOption (o : Option Nat) : (Json.ofOption Json.ofNat o).IsPlain := by
  cases o with
  | none => exact Json.isPlain_null
  | some n => exact Json.isPlain_ofNat n

theorem ElementType.ofJson?_toJson (e : ElementType) : ofJson? e.toJson = some e := ofName?_name e

theorem ElementType.isPlain_toJson (e : ElementType) : e.toJson.IsPlain :=
  Json.isPlain_str (by cases e <;> decide)

/-! ### Fields one after another -/

section Fields

variable {α : Type} {writers : List (FieldWriter α)} {record a b c : α} {keys keys' : List String}

/-- From `a` to `b`, the fields under some keys take the values that they have in `record`. -/
structure Sets (writers : List (FieldWriter α)) (record : α) (keys : List String) (a b : α) :
    Prop where
  set : ∀ w ∈ writers, w.key ∈ keys → w.get b = w.get record
  kept : ∀ w ∈ writers, w.key ∉ keys → w.get b = w.get a

theorem Sets.refl : Sets writers record [] a a where
  set _ _ h := absurd h List.not_mem_nil
  kept _ _ _ := rfl

theorem Sets.trans (h : Sets writers record keys a b) (h' : Sets writers record keys' b c) :
    Sets writers record (keys ++ keys') a c where
  set w hw hkey := by
    -- what both parts set has the value of the later one, which is the same
    by_cases hlater : w.key ∈ keys'
    · exact h'.set w hw hlater
    · have hearlier := (List.mem_append.mp hkey).resolve_right hlater
      exact (h'.kept w hw hlater).trans (h.set w hw hearlier)
  kept w hw hkey := by
    rw [List.mem_append, not_or] at hkey
    exact (h'.kept w hw hkey.2).trans (h.kept w hw hkey.1)

/-- Reading what was written for a field sets this field. -/
structure ReadsBack (writers : List (FieldWriter α)) (record : α) (field : RecordField α)
    (w : FieldWriter α) : Prop where
  key_eq : field.key = w.key
  key_plain : w.key.toList.all Json.isPlainChar = true
  value_plain : (w.value record).IsPlain
  reads : ∀ a, ∃ b, field.read (w.value record) a = some b ∧ Sets writers record [w.key] a b

/-- A record is read field by field as it was written. -/
structure Mirrors (fields : List (RecordField α)) (writers : List (FieldWriter α)) (record : α) :
    Prop where
  fields : List.Forall₂ (ReadsBack writers record) fields writers
  nodup : (writers.map FieldWriter.key).Nodup
  ext : ∀ a, (∀ w ∈ writers, w.get a = w.get record) → a = record

theorem find?_of_mem (hnodup : (writers.map FieldWriter.key).Nodup) {w : FieldWriter α}
    (hw : w ∈ writers) : writers.find? (·.key == w.key) = some w := by
  induction writers with
  | nil => cases hw
  | cons w' writers ih =>
    obtain ⟨hfresh, hnodup⟩ := List.nodup_cons.mp hnodup
    rcases List.mem_cons.mp hw with rfl | hw
    · exact List.find?_cons_of_pos (beq_self_eq_true _)
    · have hne : w'.key ≠ w.key := fun heq => hfresh (heq ▸ List.mem_map_of_mem hw)
      rw [List.find?_cons_of_neg (by simpa using hne)]
      exact ih hnodup hw

theorem find?_field {fields : List (RecordField α)} {w : FieldWriter α} {all : List (FieldWriter α)}
    (h : List.Forall₂ (ReadsBack all record) fields writers)
    (hw : writers.find? (·.key == w.key) = some w) :
    ∃ field, fields.find? (·.key == w.key) = some field ∧ ReadsBack all record field w := by
  induction h with
  | nil => cases hw
  | @cons field w' fields writers hfield _ ih =>
    rw [List.find?_cons] at hw
    rw [List.find?_cons, hfield.key_eq]
    split at hw
    · obtain rfl := Option.some.inj hw
      exact ⟨field, rfl, hfield⟩
    · exact ih hw

theorem Mirrors.find_field {fields : List (RecordField α)} (h : Mirrors fields writers record)
    {w : FieldWriter α} (hw : w ∈ writers) :
    ∃ field, fields.find? (·.key == w.key) = some field ∧ ReadsBack writers record field w :=
  find?_field h.fields (find?_of_mem h.nodup hw)

/-- With its own values where some were read and the same defaults elsewhere, it is the record. -/
theorem Mirrors.eq_of_sets {fields : List (RecordField α)} (h : Mirrors fields writers record)
    (hsets : Sets writers record keys a b)
    (homitted : ∀ w ∈ writers, w.key ∉ keys → w.get record = w.get a) : b = record :=
  h.ext b fun w hw => by
    by_cases hkey : w.key ∈ keys
    · exact hsets.set w hw hkey
    · exact (hsets.kept w hw hkey).trans (homitted w hw hkey).symm

/-- Fields of an object in any order. -/
theorem readMembers_written {fields : List (RecordField α)} (h : Mirrors fields writers record)
    {ws : List (FieldWriter α)} (hws : ∀ w ∈ ws, w ∈ writers)
    (hnodup : (ws.map FieldWriter.key).Nodup) (seen : List String)
    (hseen : ∀ w ∈ ws, w.key ∉ seen) (a : α) :
    ∃ b, RecordField.readMembers fields seen (ws.map fun w => (some w.key, w.value record)) a =
      some b ∧ Sets writers record (ws.map FieldWriter.key) a b := by
  induction ws generalizing seen a with
  | nil => exact ⟨a, rfl, .refl⟩
  | cons w ws ih =>
    obtain ⟨hw, hws⟩ := List.forall_mem_cons.mp hws
    obtain ⟨hfresh, hnodup⟩ := List.nodup_cons.mp hnodup
    obtain ⟨hunseen, hseen⟩ := List.forall_mem_cons.mp hseen
    obtain ⟨field, hfind, hfield⟩ := h.find_field hw
    obtain ⟨b, hread, hsets⟩ := hfield.reads a
    -- no key comes twice, so the reader meets each of the others for the first time as well
    have hlater : ∀ w' ∈ ws, w'.key ∉ w.key :: seen := fun w' hw' hmem => by
      rcases List.mem_cons.mp hmem with heq | hmem
      · exact hfresh (heq ▸ List.mem_map_of_mem hw')
      · exact hseen w' hw' hmem
    obtain ⟨c, hrest, hsetsRest⟩ := ih hws hnodup (w.key :: seen) hlater b
    refine ⟨c, ?_, hsets.trans hsetsRest⟩
    have hcontains : ¬ seen.contains w.key = true := by simpa using hunseen
    rw [List.map_cons, RecordField.readMembers, hfind]
    simp only [if_neg hcontains, hread, Option.bind_some]
    exact hrest

/-- Fields of an array, from the first on. -/
theorem readItems_written {fields : List (RecordField α)} {all : List (FieldWriter α)}
    (h : List.Forall₂ (ReadsBack all record) fields writers) (n : Nat) (a : α) :
    ∃ b, RecordField.readItems fields ((writers.take n).map fun w => w.value record) a = some b ∧
      Sets all record ((writers.take n).map FieldWriter.key) a b := by
  induction h generalizing n a with
  | nil =>
    rw [List.take_nil]
    exact ⟨a, rfl, .refl⟩
  | @cons field w fields writers hfield _ ih =>
    -- what the array leaves out is left as it is
    cases n with
    | zero => exact ⟨a, rfl, .refl⟩
    | succ n =>
      obtain ⟨b, hread, hsets⟩ := hfield.reads a
      obtain ⟨c, hrest, hsetsRest⟩ := ih n b
      refine ⟨c, ?_, hsets.trans hsetsRest⟩
      rw [List.take_succ_cons, List.map_cons, RecordField.readItems, hread]
      exact hrest

/-! ### Records in any form -/

namespace Form

variable {fields : List (RecordField α)} {defaults : α} {form : Form}

theorem mem_of_mem_chosen {w : FieldWriter α} (hw : w ∈ form.chosen writers) : w ∈ writers := by
  cases form with
  | object keys =>
    obtain ⟨key, -, hfind⟩ := List.mem_filterMap.mp hw
    exact List.mem_of_find?_eq_some hfind
  | array length => exact List.mem_of_mem_take hw

/-- The fields of an object stand in the order of the keys. -/
theorem chosen_sublist (keys : List String) :
    (((Form.object keys).chosen writers).map FieldWriter.key).Sublist keys := by
  induction keys with
  | nil => exact .slnil
  | cons key keys ih =>
    rw [chosen, List.filterMap_cons]
    split
    case h_1 => exact ih.cons key
    case h_2 w hfind =>
      have hkey : w.key = key := by simpa using List.find?_some hfind
      rw [List.map_cons, hkey]
      exact ih.cons_cons key

theorem key_mem_chosen (hnodup : (writers.map FieldWriter.key).Nodup) {w : FieldWriter α}
    (hw : w ∈ writers) (hkey : w.key ∈ keys) :
    w.key ∈ ((Form.object keys).chosen writers).map FieldWriter.key :=
  List.mem_map_of_mem (List.mem_filterMap.mpr ⟨w.key, hkey, find?_of_mem hnodup hw⟩)

theorem Covers.omitted (hnodup : (writers.map FieldWriter.key).Nodup)
    (h : form.Covers writers defaults record) :
    ∀ w ∈ writers, w.key ∉ (form.chosen writers).map FieldWriter.key →
      w.get record = w.get defaults := by
  intro w hw hkey
  cases form with
  | object keys => exact h.2 w hw fun hmem => hkey (key_mem_chosen hnodup hw hmem)
  | array length =>
    rw [← List.take_append_drop length writers, List.mem_append] at hw
    exact h w (hw.resolve_left fun htake => hkey (List.mem_map_of_mem htake))

/-- What is read is the written record, if only defaults were left out. -/
theorem read_write (h : Mirrors fields writers record)
    (hcovers : form.Covers writers defaults record) :
    RecordField.readRecord fields defaults (form.write writers record) = some record := by
  have homitted := hcovers.omitted h.nodup
  cases form with
  | object keys =>
    obtain ⟨b, hread, hsets⟩ := readMembers_written h (fun _ hw => mem_of_mem_chosen hw)
      ((chosen_sublist keys).nodup hcovers.1) [] (fun _ _ => List.not_mem_nil) defaults
    exact hread.trans (congrArg some (h.eq_of_sets hsets homitted))
  | array length =>
    obtain ⟨b, hread, hsets⟩ := readItems_written h.fields length defaults
    exact hread.trans (congrArg some (h.eq_of_sets hsets homitted))

theorem isPlain_write (h : Mirrors fields writers record) (form : Form) :
    (form.write writers record).IsPlain := by
  cases form with
  | object keys =>
    refine Json.isPlain_obj fun m hm => ?_
    obtain ⟨w, hw, rfl⟩ := List.mem_map.mp hm
    obtain ⟨_, -, hfield⟩ := h.find_field (mem_of_mem_chosen hw)
    exact ⟨⟨w.key, rfl, hfield.key_plain⟩, hfield.value_plain⟩
  | array length =>
    refine Json.isPlain_arr fun v hv => ?_
    obtain ⟨w, hw, rfl⟩ := List.mem_map.mp hv
    obtain ⟨_, -, hfield⟩ := h.find_field (mem_of_mem_chosen hw)
    exact hfield.value_plain

/-- Where every field is written, nothing is left out. -/
theorem IsFull.covers (hnodup : (writers.map FieldWriter.key).Nodup)
    (h : form.IsFull writers) : form.Covers writers defaults record := by
  cases form with
  | object keys =>
    refine ⟨h.nodup_iff.mpr hnodup, fun w hw hkey => absurd (h.mem_iff.mpr ?_) hkey⟩
    exact List.mem_map_of_mem hw
  | array length =>
    obtain rfl : length = writers.length := h
    show ∀ w ∈ writers.drop writers.length, w.get record = w.get defaults
    rw [List.drop_length]
    exact List.forall_mem_nil _

end Form

/-- A field that is read through its value. -/
theorem readsBack {key : String} {Value : Type} {get : α → Value} {write : Value → Json}
    {parse : Json → Option Value} {put : Value → α → α}
    (hkey : key.toList.all Json.isPlainChar = true)
    (hplain : (write (get record)).IsPlain)
    (hparse : parse (write (get record)) = some (get record))
    (hsets : ∀ a, Sets writers record [key] a (put (get record) a)) :
    ReadsBack writers record ⟨key, fun v a => (parse v).map fun value => put value a⟩
      ⟨key, get, write⟩ where
  key_eq := rfl
  key_plain := hkey
  value_plain := hplain
  reads a := by
    refine ⟨put (get record) a, ?_, hsets a⟩
    show (parse (write (get record))).map _ = _
    rw [hparse]
    rfl

theorem readsBack_nat {key : String} {get : α → Nat} {put : Nat → α → α}
    (hkey : key.toList.all Json.isPlainChar = true) (h : get record < Word.limit)
    (hsets : ∀ a, Sets writers record [key] a (put (get record) a)) :
    ReadsBack writers record ⟨key, fun v a => v.nat?.map fun n => put n a⟩
      ⟨key, get, Json.ofNat⟩ :=
  readsBack hkey (Json.isPlain_ofNat _) (Json.nat?_ofNat h) hsets

end Fields

/-! ### The records -/

/-- The numbers are 64-bit ones. -/
structure ModelShape.InWords (m : ModelShape) : Prop where
  hiddenSize : m.hiddenSize < Word.limit
  layers : m.layers < Word.limit
  heads : m.heads < Word.limit
  kvHeads : m.kvHeads < Word.limit
  maxPositions : m.maxPositions < Word.limit

/-- The numbers are 64-bit ones, the budget's too if there is one. -/
structure MemoryBudget.InWords (m : MemoryBudget) : Prop where
  blockSize : m.blockSize < Word.limit
  cacheMiB : ∀ n ∈ m.cacheMiB, n < Word.limit
  reserveMiB : m.reserveMiB < Word.limit

/-- All numbers of the three records are 64-bit ones. -/
structure Settings.InWords (s : Settings) : Prop where
  model : s.model.InWords
  memory : s.memory.InWords
  maxInput : s.admission.maxInput < Word.limit

theorem ModelShape.mirrors {m : ModelShape} (h : m.InWords) :
    Mirrors ModelShape.fields ModelShape.writers m where
  fields := by
    refine .cons (readsBack_nat (by decide) h.hiddenSize fun a => ?_) <|
      .cons (readsBack_nat (by decide) h.layers fun a => ?_) <|
      .cons (readsBack_nat (by decide) h.heads fun a => ?_) <|
      .cons (readsBack_nat (by decide) h.kvHeads fun a => ?_) <|
      .cons (readsBack_nat (by decide) h.maxPositions fun a => ?_) <|
      .cons (readsBack (by decide) m.element.isPlain_toJson m.element.ofJson?_toJson
        fun a => ?_) .nil
    all_goals constructor <;> simp [writers]
  nodup := by decide
  ext a ha := by
    simp only [writers, List.forall_mem_cons] at ha
    obtain ⟨h₁, h₂, h₃, h₄, h₅, h₆, -⟩ := ha
    cases a
    cases m
    simp_all

theorem MemoryBudget.mirrors {m : MemoryBudget} (h : m.InWords) :
    Mirrors MemoryBudget.fields MemoryBudget.writers m where
  fields := by
    refine .cons (readsBack_nat (by decide) h.blockSize fun a => ?_) <|
      .cons (readsBack (by decide) (Json.isPlain_ofOption _) (Json.optional?_ofOption h.cacheMiB)
        fun a => ?_) <|
      .cons (readsBack_nat (by decide) h.reserveMiB fun a => ?_) .nil
    all_goals constructor <;> simp [writers]
  nodup := by decide
  ext a ha := by
    simp only [writers, List.forall_mem_cons] at ha
    obtain ⟨h₁, h₂, h₃, -⟩ := ha
    cases a
    cases m
    simp_all

theorem Admission.mirrors {a : Admission} (h : a.maxInput < Word.limit) :
    Mirrors Admission.fields Admission.writers a where
  fields := by
    refine .cons (readsBack (by decide) (Json.isPlain_bool _) rfl fun b => ?_) <|
      .cons (readsBack_nat (by decide) h fun b => ?_) .nil
    all_goals constructor <;> simp [writers]
  nodup := by decide
  ext a ha := by
    simp only [writers, List.forall_mem_cons] at ha
    obtain ⟨h₁, h₂, -⟩ := ha
    cases a
    simp_all

namespace Settings

variable {s : Settings} {layout : Layout}

theorem nodup_writers (layout : Layout) : ((writers layout).map FieldWriter.key).Nodup := by
  show ["model", "cache", "scheduler"].Nodup
  decide

theorem mirrors (h : s.InWords) (hcovers : layout.Covers s) :
    Mirrors fields (writers layout) s where
  fields := by
    have hmodel := ModelShape.mirrors h.model
    have hmemory := MemoryBudget.mirrors h.memory
    have hadmission := Admission.mirrors h.maxInput
    refine .cons (readsBack (by decide) (Form.isPlain_write hmodel _)
        (Form.read_write hmodel hcovers.model) fun a => ?_) <|
      .cons (readsBack (by decide) (Form.isPlain_write hmemory _)
        (Form.read_write hmemory hcovers.memory) fun a => ?_) <|
      .cons (readsBack (by decide) (Form.isPlain_write hadmission _)
        (Form.read_write hadmission hcovers.admission) fun a => ?_) .nil
    all_goals constructor <;> simp [writers]
  nodup := nodup_writers layout
  ext a ha := by
    simp only [writers, List.forall_mem_cons] at ha
    obtain ⟨h₁, h₂, h₃, -⟩ := ha
    cases a
    cases s
    simp_all

theorem parse_of_covers (h : s.InWords) (hcovers : layout.Covers s) {text : String}
    (htext : Json.Spells (layout.write s).tokens text.toList) :
    parse text = s.validate.map fun _ => s := by
  have hmirrors := mirrors h hcovers
  have hvalue : Json.parse? text = some (layout.write s) :=
    Json.parse?_of_spells (Form.isPlain_write hmirrors _) htext
  have hread : ofJson? (layout.write s) = some s := Form.read_write hmirrors hcovers.settings
  rw [parse, hvalue, Option.bind_some, hread]
  rfl

theorem Layout.IsFull.covers (h : layout.IsFull) (s : Settings) : layout.Covers s where
  settings := h.settings.covers (nodup_writers layout)
  model := h.model.covers (by decide)
  memory := h.memory.covers (by decide)
  admission := h.admission.covers (by decide)

theorem Layout.isFull_usual : usual.IsFull where
  settings := .refl _
  model := .refl _
  memory := .refl _
  admission := .refl _

/-- The usual text is read back. -/
theorem parse_text (h : s.InWords) : parse s.text = s.validate.map fun _ => s :=
  parse_of_covers h (Layout.isFull_usual.covers s) (Json.spells_compact _)

example : ({ memory := { cacheMiB := some 512 } } : Settings).text =
    "\x7b\"model\":\x7b\"hidden_size\":2048,\"num_hidden_layers\":22," ++
      "\"num_attention_heads\":32,\"num_key_value_heads\":4," ++
      "\"max_position_embeddings\":2048,\"dtype\":\"fp16\"\x7d," ++
    "\"cache\":\x7b\"seq_size_per_block\":8,\"kv_cache_mem_mb\":512," ++
      "\"reserve_runtime_mem_mb\":1024\x7d," ++
    "\"scheduler\":\x7b\"enable_fallback\":false,\"max_seq_len\":8192\x7d\x7d" := by
  cbv

/-- Settings in 64-bit numbers are read back as they were from every text that leaves out nothing
but defaults, with the records as objects or arrays, the keys of each object in any order, and
blanks anywhere; if they are not valid, the text is refused as they are.  Nothing is left out
where all fields of a record are written. -/
theorem parse_written (h : s.InWords) (layout : Layout) :
    (layout.IsFull → layout.Covers s) ∧
    (layout.Covers s → ∀ text : String, Json.Spells (layout.write s).tokens text.toList →
      parse text = s.validate.map fun _ => s) :=
  ⟨fun hfull => hfull.covers s, fun hcovers _ htext => parse_of_covers h hcovers htext⟩

/-- Settings with some values that are not the defaults. -/
def tuned : Settings where
  model := { hiddenSize := Word.limit - 1, element := .bf16 }
  admission := { fallback := true }

/-- Only what is set in `tuned`. -/
def sparse : Layout where
  settings := .object ["scheduler", "model"]
  model := .object ["dtype", "hidden_size"]
  memory := .array 0
  admission := .array 1

theorem parse_written_tuned :
    let text := " \x7b\"scheduler\":[true],\"model\":" ++
      "\x7b\"dtype\":\"bf16\",\"hidden_size\":18446744073709551615\x7d\x7d"
    parse text = .ok tuned := by
  intro text
  have hwords : tuned.InWords := by
    refine ⟨⟨?_, ?_, ?_, ?_, ?_⟩, ⟨?_, ?_, ?_⟩, ?_⟩ <;> decide
  have hcovers : sparse.Covers tuned := by
    refine ⟨⟨by decide, ?_⟩, ⟨by decide, ?_⟩, ?_, ?_⟩
    · simp [writers, tuned]
    · simp [ModelShape.writers, tuned]
    · simp [MemoryBudget.writers, Form.Covers, sparse, tuned]
    · simp [Admission.writers, Form.Covers, sparse, tuned]
  have htext : text.toList = ' ' :: (sparse.write tuned).compact.toList := by decide
  refine (parse_written hwords sparse).2 hcovers text ?_
  rw [htext]
  exact .blank rfl (Json.spells_compact _)

end Settings

end PagedServe
