/-
PagedServe/Settings/Writer.lean

Settings written as JSON.

A record may be written in every form that can be read (`Form`): as an object with some of the
fields in any order, or as an array of the first ones. What is left out must have its default
value (`Form.Covers`).

A `Layout` fixes the form of each record, and `Settings.text` takes the usual one: objects with
all fields in their order.
-/
import PagedServe.Json.Writer
import PagedServe.Settings

namespace PagedServe

/-- One field of a record: its key, its value, and how this is written. -/
structure FieldWriter (α : Type) where
  key : String
  {Value : Type}
  get : α → Value
  write : Value → Json

/-- The value of the field in JSON. -/
def FieldWriter.value {α : Type} (w : FieldWriter α) (record : α) : Json := w.write (w.get record)

/-- How one record is written. -/
inductive Form where
  | object (keys : List String)
  /-- The values of so many fields, from the first on. -/
  | array (length : Nat)

namespace Form

variable {α : Type}

/-- The fields that are written, in the order in which they are. -/
def chosen (writers : List (FieldWriter α)) : Form → List (FieldWriter α)
  | .object keys => keys.filterMap fun key => writers.find? (·.key == key)
  | .array length => writers.take length

/-- A record in this form. -/
def write (writers : List (FieldWriter α)) (form : Form) (record : α) : Json :=
  match form with
  | .object _ => .obj ((form.chosen writers).map fun w => (some w.key, w.value record))
  | .array _ => .arr ((form.chosen writers).map fun w => w.value record)

/-- No field is written twice, and those left out have their default values. -/
def Covers (writers : List (FieldWriter α)) (defaults record : α) : Form → Prop
  | .object keys => keys.Nodup ∧
      ∀ w ∈ writers, w.key ∉ keys → w.get record = w.get defaults
  | .array length => ∀ w ∈ writers.drop length, w.get record = w.get defaults

/-- Every field is written: in an object in any order, in an array in that of the fields. -/
def IsFull (writers : List (FieldWriter α)) : Form → Prop
  | .object keys => keys.Perm (writers.map FieldWriter.key)
  | .array length => length = writers.length

/-- An object with all fields in their order. -/
def all (writers : List (FieldWriter α)) : Form := .object (writers.map FieldWriter.key)

end Form

def ElementType.toJson (e : ElementType) : Json := .str (some e.name)

/-- The fields of a model, in the order of its record. -/
def ModelShape.writers : List (FieldWriter ModelShape) :=
  [⟨"hidden_size", (·.hiddenSize), Json.ofNat⟩,
   ⟨"num_hidden_layers", (·.layers), Json.ofNat⟩,
   ⟨"num_attention_heads", (·.heads), Json.ofNat⟩,
   ⟨"num_key_value_heads", (·.kvHeads), Json.ofNat⟩,
   ⟨"max_position_embeddings", (·.maxPositions), Json.ofNat⟩,
   ⟨"dtype", (·.element), ElementType.toJson⟩]

/-- The fields about memory. -/
def MemoryBudget.writers : List (FieldWriter MemoryBudget) :=
  [⟨"seq_size_per_block", (·.blockSize), Json.ofNat⟩,
   ⟨"kv_cache_mem_mb", (·.cacheMiB), Json.ofOption Json.ofNat⟩,
   ⟨"reserve_runtime_mem_mb", (·.reserveMiB), Json.ofNat⟩]

/-- The fields about admission. -/
def Admission.writers : List (FieldWriter Admission) :=
  [⟨"enable_fallback", (·.fallback), Json.bool⟩,
   ⟨"max_seq_len", (·.maxInput), Json.ofNat⟩]

namespace Settings

/-- How each of the four records is written. -/
structure Layout where
  settings : Form
  model : Form
  memory : Form
  admission : Form

/-- The three records, each in the form of its own that the layout gives it. -/
def writers (layout : Layout) : List (FieldWriter Settings) :=
  [⟨"model", (·.model), layout.model.write ModelShape.writers⟩,
   ⟨"cache", (·.memory), layout.memory.write MemoryBudget.writers⟩,
   ⟨"scheduler", (·.admission), layout.admission.write Admission.writers⟩]

namespace Layout

def write (layout : Layout) (s : Settings) : Json := layout.settings.write (writers layout) s

/-- Nothing is written twice, and only defaults are left out. -/
structure Covers (layout : Layout) (s : Settings) : Prop where
  settings : layout.settings.Covers (writers layout) {} s
  model : layout.model.Covers ModelShape.writers {} s.model
  memory : layout.memory.Covers MemoryBudget.writers {} s.memory
  admission : layout.admission.Covers Admission.writers {} s.admission

/-- Every field of every record is written. -/
structure IsFull (layout : Layout) : Prop where
  settings : layout.settings.IsFull (writers layout)
  model : layout.model.IsFull ModelShape.writers
  memory : layout.memory.IsFull MemoryBudget.writers
  admission : layout.admission.IsFull Admission.writers

/-- Objects with all fields in their order. -/
def usual : Layout where
  settings := .object ["model", "cache", "scheduler"]
  model := .all ModelShape.writers
  memory := .all MemoryBudget.writers
  admission := .all Admission.writers

end Layout

/-- The usual text of settings. -/
def text (s : Settings) : String := (Layout.usual.write s).compact

end Settings

end PagedServe
