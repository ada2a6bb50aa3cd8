/-
PagedServe/Failure.lean

Everything that can go wrong, told apart by cause.

* `Error` is an answer: the request, the settings or the books are at fault,
  and the caller is told which (`Error.message`).
* `Fault` is an abort: an arithmetic operation left its 64-bit range, a divisor
  was zero, a list asked for more room than there is or was asked for an item
  that it does not have, an array does not fit, or a loop did not come to its
  end.
* `Failure` is either of the two, the one error type that operations throw.

An operation that fails keeps what it had done up to that point; where that
matters the operation is a state transformer and the state survives the error.
-/
namespace PagedServe

/-- Where a stream is in its life. -/
inductive Phase where
  | waiting
  | running
  | finished
  | stopped
deriving DecidableEq

/-- The word for a phase in messages and reports. -/
def Phase.name : Phase → String
  | .waiting => "Waiting"
  | .running => "Running"
  | .finished => "Finished"
  | .stopped => "Stopped"

/-- Finished and stopped streams never change phase again. -/
def Phase.isTerminal : Phase → Bool
  | .waiting | .running => false
  | .finished | .stopped => true

/-! ### Causes -/

/-- Why a request is refused. -/
inductive InputError where
  | emptyInput
  | inputTooLong (length limit : Nat)
  | notWaiting (id : UInt64) (phase : Phase)
  | logicalBlock (index held : Nat)
  | noBlocks
  | layerRange (layer limit : Nat)
  | blockRange (id limit : Nat)
  | other (text : String)

/-- The text of the cause. -/
def InputError.describe : InputError → String
  | .emptyInput => "input_ids cannot be empty"
  | .inputTooLong length limit => s!"input length {length} exceeds max_seq_len {limit}"
  | .notWaiting id phase => s!"stream {id} is {phase.name}, not waiting"
  | .logicalBlock index held => s!"logical block {index} out of bounds ({held} allocated)"
  | .noBlocks => "block_ids cannot be empty"
  | .layerRange layer limit => s!"layer {layer} out of bounds (max {limit})"
  | .blockRange id limit => s!"block_id {id} out of bounds (max {limit})"
  | .other text => text

/-- How the books on block references fail to add up. -/
inductive LedgerError where
  | releasedWhileFree (id : Nat)
  | notAllocated (id : Nat)
  | strayFree (id : Nat)
  | freeTwice (id : Nat)
  | countMismatch (id refs : Nat) (free : Bool)
  | cachedNotAllocated (id : Nat)
  | other (text : String)

/-- The text of the cause, with the block it is about. -/
def LedgerError.describe : LedgerError → String
  | .releasedWhileFree id => s!"block {id} released while free"
  | .notAllocated id => s!"cannot share block {id}: not allocated"
  | .strayFree id => s!"free list holds invalid block {id}"
  | .freeTwice id => s!"block {id} appears twice on the free list"
  | .countMismatch id refs free => s!"block {id} has ref_count {refs} but free={free}"
  | .cachedNotAllocated id => s!"cached block {id} is not allocated"
  | .other text => text

/-- Why settings cannot produce a usable cache. -/
inductive SettingsError where
  | zeroBlockSize
  | zeroHeads
  | zeroLayers
  | zeroInputLimit
  | noAttentionHeads
  | withinReserve (deviceFree reserve : Nat)
  | tooFewBlocks (budget blocks blockBytes : Nat)
  | alreadyStarted
  | other (text : String)

/-- The text of the cause, with the settings by their written names. -/
def SettingsError.describe : SettingsError → String
  | .zeroBlockSize => "seq_size_per_block must be positive"
  | .zeroHeads => "head counts must be positive"
  | .zeroLayers => "num_hidden_layers must be positive"
  | .zeroInputLimit => "max_seq_len must be positive"
  | .noAttentionHeads => "model has no attention heads"
  | .withinReserve deviceFree reserve =>
    s!"device free memory {deviceFree} bytes does not exceed runtime reserve {reserve} bytes"
  | .tooFewBlocks budget blocks blockBytes =>
    s!"kv cache budget of {budget} bytes holds {blocks} blocks of {blockBytes} bytes, need at least 2"
  | .alreadyStarted => "engine loop already started"
  | .other text => text

/-- Why a settings file could not be read as text. -/
inductive FileError where
  | notFound
  | notText

/-! ### Errors, faults, failures -/

/-- What a caller is told of an operation that is refused or fails. -/
inductive Error where
  /-- Fewer blocks could be had than were asked for; `free` were free without eviction. -/
  | insufficientMemory (requested free : Nat)
  | invalidInput (cause : InputError)
  | invariantViolation (cause : LedgerError)
  | invalidTransition (source target : Phase)
  | settings (cause : SettingsError)
  | executor (text : String)
  | json
  | file (cause : FileError)

/-- The text shown to a caller: the category, then the cause. -/
def Error.message : Error → String
  | .insufficientMemory requested free =>
    s!"insufficient kv cache blocks: requested {requested}, free {free}"
  | .invalidInput cause => s!"invalid input: {cause.describe}"
  | .invariantViolation cause => s!"block pool invariant violated: {cause.describe}"
  | .invalidTransition source target =>
    s!"invalid state transition: {source.name} -> {target.name}"
  | .settings cause => s!"configuration error: {cause.describe}"
  | .executor text => s!"executor error: {text}"
  | .json => "json error"
  | .file _ => "io error"

/-- Memory pressure is the one error that the scheduler answers by making room. -/
def Error.isInsufficientMemory : Error → Bool
  | .insufficientMemory .. => true
  | _ => false

/-- What the program does not survive. -/
inductive Fault where
  /-- A 64-bit sum, product or difference left its range. -/
  | overflow
  /-- A divisor or a chunk length was zero. -/
  | divisionByZero
  /-- A list would need more bytes than a 64-bit address space has. -/
  | capacity
  /-- An index of the prefix cache names an entry that is not there. -/
  | missingEntry
  /-- A position lies outside its list. -/
  | outOfRange
  /-- A loop went on past the bound on its rounds. -/
  | endless
  /-- An array has not the shape, the index or the order of elements that is asked of it. -/
  | unfitArray

/-- What an operation throws. -/
inductive Failure where
  | error (e : Error)
  | fault (f : Fault)

/-- The failure is an error about memory pressure. -/
def Failure.isInsufficientMemory : Failure → Bool
  | .error e => e.isInsufficientMemory
  | .fault _ => false

end PagedServe
