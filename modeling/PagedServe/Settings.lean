/-
PagedServe/Settings.lean

What a deployment sets: the shape of the model, the memory for its cache, and
the rules of admission, each with defaults. `Settings.validate` refuses what can
never give a usable cache, naming the first fault in a fixed order.
-/
import PagedServe.Word

namespace PagedServe

/-- The number format of cache elements. -/
inductive ElementType where
  | fp32
  | fp16
  | bf16
deriving DecidableEq

namespace ElementType

/-- The bytes of one number. -/
def bytes : ElementType → Nat
  | .fp32 => 4
  | .fp16 => 2
  | .bf16 => 2

/-- The name in settings files. -/
def name : ElementType → String
  | .fp32 => "fp32"
  | .fp16 => "fp16"
  | .bf16 => "bf16"

/-- The format with a name. -/
def ofName? : String → Option ElementType
  | "fp32" => some .fp32
  | "fp16" => some .fp16
  | "bf16" => some .bf16
  | _ => none

@[simp] theorem ofName?_name (e : ElementType) : ofName? e.name = some e := by cases e <;> rfl

theorem bytes_pos (e : ElementType) : 0 < e.bytes := by cases e <;> decide

end ElementType

/-- The numbers of a model that fix the size of its cache. -/
structure ModelShape where
  hiddenSize : Nat := 2048
  layers : Nat := 22
  heads : Nat := 32
  kvHeads : Nat := 4
  maxPositions : Nat := 2048
  element : ElementType := .fp16
deriving DecidableEq

/-- Numbers per head. -/
def ModelShape.headDim (m : ModelShape) : Except Failure Nat := Word.div m.hiddenSize m.heads

/-- How much memory the cache may take, in units of `2 ^ 20` bytes. -/
structure MemoryBudget where
  /-- Tokens per block. -/
  blockSize : Nat := 8
  /-- The budget; without it the free device memory less the reserve. -/
  cacheMiB : Option Nat := none
  /-- Device memory that the cache leaves alone. -/
  reserveMiB : Nat := 1024
deriving DecidableEq

/-- Which requests are let in. -/
structure Admission where
  /-- Stop a request at the head of the queue that can never be served. -/
  fallback : Bool := false
  /-- The longest accepted input, in tokens. -/
  maxInput : Nat := 8192
deriving DecidableEq

/-- The three groups of settings, each with its defaults. -/
structure Settings where
  model : ModelShape := {}
  memory : MemoryBudget := {}
  admission : Admission := {}
deriving DecidableEq

/-- Refuse settings that cannot produce a usable cache. -/
def Settings.validate (s : Settings) : Except Failure Unit :=
  if s.memory.blockSize = 0 then .error (.error (.settings .zeroBlockSize))
  else if s.model.heads = 0 ∨ s.model.kvHeads = 0 then .error (.error (.settings .zeroHeads))
  else if s.model.layers = 0 then .error (.error (.settings .zeroLayers))
  else if s.admission.maxInput = 0 then .error (.error (.settings .zeroInputLimit))
  else .ok ()

theorem Settings.validate_eq_ok {s : Settings} : s.validate = .ok () ↔
    s.memory.blockSize ≠ 0 ∧ s.model.heads ≠ 0 ∧ s.model.kvHeads ≠ 0 ∧ s.model.layers ≠ 0 ∧
      s.admission.maxInput ≠ 0 := by
  grind [Settings.validate]

end PagedServe
