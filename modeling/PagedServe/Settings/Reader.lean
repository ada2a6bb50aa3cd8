/-
PagedServe/Settings/Reader.lean

Settings read from JSON.

A record may be written as an object or as an array.

* In an object, fields may be missing and then keep their defaults; unknown keys
  are passed over; a field written twice is an error.
* In an array the values stand in the order of the fields; the last ones may be
  missing, and there may be no more values than fields.

Settings that read well are still validated.
-/
import PagedServe.Json.Parser
import PagedServe.Settings

namespace PagedServe

/-- One field of a record: its key and how a value is put into the record. -/
structure RecordField (α : Type) where
  key : String
  read : Json → α → Option α

namespace RecordField

variable {α : Type}

/-- Read the values of an array, one for each field from the first on. -/
def readItems : List (RecordField α) → List Json → α → Option α
  | _, [], record => some record
  | [], _ :: _, _ => none
  | field :: fields, value :: values, record =>
    (field.read value record).bind (readItems fields values)

/-- Read the members of an object; `seen` holds the fields met so far. -/
def readMembers (fields : List (RecordField α)) (seen : List String) :
    List (Option String × Json) → α → Option α
  | [], record => some record
  | (none, _) :: _, _ => none
  | (some key, value) :: rest, record =>
    match fields.find? (·.key == key) with
    | none => readMembers fields seen rest record
    | some field =>
      if seen.contains key then none
      else (field.read value record).bind (readMembers fields (key :: seen) rest)

/-- Read a record on top of its defaults. -/
def readRecord (fields : List (RecordField α)) (defaults : α) : Json → Option α
  | .obj members => readMembers fields [] members defaults
  | .arr items => readItems fields items defaults
  | _ => none

end RecordField

open RecordField

/-- A number format: its name, or an object with the name as its one key and
null under it. -/
def ElementType.ofJson? : Json → Option ElementType
  | .str (some name) => ofName? name
  | .obj [(some name, .null)] => ofName? name
  | _ => none

/-- The fields of a model, under their written names. -/
def ModelShape.fields : List (RecordField ModelShape) :=
  [⟨"hidden_size", fun v m => v.nat?.map fun n => { m with hiddenSize := n }⟩,
   ⟨"num_hidden_layers", fun v m => v.nat?.map fun n => { m with layers := n }⟩,
   ⟨"num_attention_heads", fun v m => v.nat?.map fun n => { m with heads := n }⟩,
   ⟨"num_key_value_heads", fun v m => v.nat?.map fun n => { m with kvHeads := n }⟩,
   ⟨"max_position_embeddings", fun v m => v.nat?.map fun n => { m with maxPositions := n }⟩,
   ⟨"dtype", fun v m => (ElementType.ofJson? v).map fun e => { m with element := e }⟩]

/-- The fields about memory. The budget alone may be null. -/
def MemoryBudget.fields : List (RecordField MemoryBudget) :=
  [⟨"seq_size_per_block", fun v m => v.nat?.map fun n => { m with blockSize := n }⟩,
   ⟨"kv_cache_mem_mb", fun v m => (v.optional? Json.nat?).map fun n => { m with cacheMiB := n }⟩,
   ⟨"reserve_runtime_mem_mb", fun v m => v.nat?.map fun n => { m with reserveMiB := n }⟩]

/-- The fields about admission. -/
def Admission.fields : List (RecordField Admission) :=
  [⟨"enable_fallback", fun v a => v.bool?.map fun b => { a with fallback := b }⟩,
   ⟨"max_seq_len", fun v a => v.nat?.map fun n => { a with maxInput := n }⟩]

def ModelShape.ofJson? : Json → Option ModelShape := readRecord ModelShape.fields {}

def MemoryBudget.ofJson? : Json → Option MemoryBudget := readRecord MemoryBudget.fields {}

def Admission.ofJson? : Json → Option Admission := readRecord Admission.fields {}

namespace Settings

/-- The three records, each read on top of its own defaults. -/
def fields : List (RecordField Settings) :=
  [⟨"model", fun v s => (ModelShape.ofJson? v).map fun m => { s with model := m }⟩,
   ⟨"cache", fun v s => (MemoryBudget.ofJson? v).map fun m => { s with memory := m }⟩,
   ⟨"scheduler", fun v s => (Admission.ofJson? v).map fun a => { s with admission := a }⟩]

/-- Settings from a value; what it leaves out keeps its default. -/
def ofJson? : Json → Option Settings := readRecord fields {}

/-- Settings from their text. -/
def parse (text : String) : Except Failure Settings :=
  match (Json.parse? text).bind ofJson? with
  | none => .error (.error .json)
  | some settings => do
    settings.validate
    return settings

/-- Settings from the content of a file; nothing if there is no such file. -/
def parseFile : Option ByteArray → Except Failure Settings
  | none => .error (.error (.file .notFound))
  | some bytes =>
    match String.fromUTF8? bytes with
    | none => .error (.error (.file .notText))
    | some text => parse text

end Settings

end PagedServe
