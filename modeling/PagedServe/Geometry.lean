/-
PagedServe/Geometry.lean

The shape of the block memory, its sizes in bytes, and the shape that fills a
memory budget.

For each layer and block the cache stores keys and values: `heads` vectors of
`headDim` numbers for each of the `blockSize` tokens. `Geometry.forBudget` takes
as many blocks as the budget holds and insists on two, since one is reserved.

The products are taken in a fixed order and each must fit in 64 bits.
-/
import PagedServe.Settings

namespace PagedServe

/-- The dimensions of the cache memory. -/
structure Geometry where
  layers : Nat := 1
  /-- Blocks in the pool, the reserved one included. -/
  blocks : Nat
  heads : Nat := 1
  headDim : Nat := 1
  /-- Tokens per block. -/
  blockSize : Nat
  element : ElementType := .fp16
deriving DecidableEq

namespace Geometry

/-- Bytes of the keys (or the values) of one block in one layer. -/
def strideBytes (g : Geometry) : Except Failure Nat := do
  Word.mul (← Word.mul (← Word.mul g.heads g.headDim) g.blockSize) g.element.bytes

/-- Bytes of one block over all layers, keys and values. -/
def blockBytes (g : Geometry) : Except Failure Nat := do
  Word.mul (← Word.mul (← g.strideBytes) g.layers) 2

/-- Bytes of all blocks. -/
def totalBytes (g : Geometry) : Except Failure Nat := do
  Word.mul (← g.blockBytes) g.blocks

/-! ### Filling a budget -/

/-- The unit of the settings about memory. -/
def mebibyte : Nat := 1024 * 1024

/-- The shape of one block for a model; the number of blocks is still open. -/
def forModel (model : ModelShape) (memory : MemoryBudget) : Except Failure Geometry := do
  if memory.blockSize = 0 then .error (.error (.settings .zeroBlockSize))
  else if model.heads = 0 then .error (.error (.settings .noAttentionHeads))
  else
    let headDim ← model.headDim
    if headDim = 0 then .error (.error (.settings .noAttentionHeads))
    else
      return {
        layers := model.layers, blocks := 0, heads := model.kvHeads, headDim,
        blockSize := memory.blockSize, element := model.element }

/-- The bytes that the cache may take on a device with so many bytes free. -/
def budgetBytes (memory : MemoryBudget) (deviceFree : Nat) : Except Failure Nat :=
  match memory.cacheMiB with
  | some mib => Word.mul mib mebibyte
  | none => do
    let reserve ← Word.mul memory.reserveMiB mebibyte
    if deviceFree ≤ reserve then .error (.error (.settings (.withinReserve deviceFree reserve)))
    else return deviceFree - reserve

/-- The geometry with the most blocks within the budget. -/
def forBudget (model : ModelShape) (memory : MemoryBudget) (deviceFree : Nat) :
    Except Failure Geometry := do
  let shape ← forModel model memory
  let budget ← budgetBytes memory deviceFree
  let blockBytes ← shape.blockBytes
  let blocks ← Word.div budget blockBytes
  if blocks < 2 then .error (.error (.settings (.tooFewBlocks budget blocks blockBytes)))
  else return { shape with blocks }

end Geometry

end PagedServe
