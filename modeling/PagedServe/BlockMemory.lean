/-
PagedServe/BlockMemory.lean

The memory behind the blocks: two five-dimensional arrays of one shape, one for
keys and one for values, indexed by layer, block, head, slot and component.

* `blockKeys`, `blockValues` read one block of one layer.
* `gatherKeys`, `gatherValues` read several, one after another.
* `copyBlock` writes one block over another in every layer of both arrays.

Blocks lie along the second dimension.  Fresh arrays are stored layer by layer.
Writing makes new arrays, which are stored block by block; both arrays are always
written together, so one list of strides serves for both.
-/
import PagedServe.Geometry
import PagedServe.Strided

namespace PagedServe

/-- A flattened block, or several, with their dimensions. -/
structure Slab (α : Type) where
  dims : List Nat
  data : List α

/-- The elements of an array, in row-major order. -/
def Strided.toSlab {α : Type} (v : Strided α) : Slab α := ⟨v.dims, v.toList⟩

/-- The storage of an array. -/
structure BlockArray (α : Type) where
  element : Nat → α

/-- The dimensions of either array. -/
def BlockMemory.dims (g : Geometry) : List Nat :=
  [g.layers, g.blocks, g.heads, g.blockSize, g.headDim]

/-- Keys and values of every layer, block, head and position. Both arrays lie alike in their
storage, and have the dimensions of the geometry. -/
structure BlockMemory (α : Type) where
  geometry : Geometry
  keys : BlockArray α
  values : BlockArray α
  /-- How the elements lie in either storage. -/
  axes : List Axis
  axes_length : axes.map Axis.length = BlockMemory.dims geometry

namespace BlockMemory

variable {α : Type}

/-- The product of dimensions, taken in order; each step must fit in 64 bits. -/
def product (dims : List Nat) : Except Failure Nat := dims.foldlM Word.mul 1

/-- Elements in an array of a shape. A stride is the product of the dimensions
behind it, so the products from the last dimension on must fit as well, even if
another dimension is zero. -/
def elementCount (dims : List Nat) : Except Failure Nat := do
  let _ ← product dims.reverse
  product dims

/-- Refuse a shape that no array can have. -/
def checkShape (dims : List Nat) (element : ElementType) : Except Failure Unit := do
  Word.room (← elementCount dims) element.bytes

/-- Two arrays filled with one value. -/
def new (g : Geometry) (zero : α) : Except Failure (BlockMemory α) := do
  checkShape (dims g) g.element
  return ⟨g, ⟨fun _ => zero⟩, ⟨fun _ => zero⟩, Axis.rowMajor (dims g), Axis.length_rowMajor _⟩

/-- Bytes held by both arrays. -/
def totalBytes (m : BlockMemory α) : Except Failure Nat := do
  let count ← elementCount (dims m.geometry)
  Word.mul (← Word.add count count) m.geometry.element.bytes

/-- The array that a storage holds. -/
def view (m : BlockMemory α) (a : BlockArray α) : Strided α := ⟨a.element, m.axes, 0⟩

/-- Refuse a layer or block outside the arrays; the layer is named first. -/
def validate (g : Geometry) (layer : Nat) (blocks : List Nat) : Except Failure Unit :=
  if g.layers ≤ layer then .error (.error (.invalidInput (.layerRange layer g.layers)))
  else match blocks.find? (g.blocks ≤ ·) with
    | some id => .error (.error (.invalidInput (.blockRange id g.blocks)))
    | none => .ok ()

/-! ### Reading -/

/-- One block of one layer. -/
def block (m : BlockMemory α) (a : BlockArray α) (layer id : Nat) : Except Failure (Slab α) := do
  validate m.geometry layer [id]
  let blocks ← (m.view a).get layer
  let part ← blocks.get id
  return part.toSlab

/-- Several blocks of one layer. They are copied, so their shape must be one that
an array can have. Their numbers are passed on in 32 bits. -/
def gather (m : BlockMemory α) (a : BlockArray α) (layer : Nat) (ids : List Nat) :
    Except Failure (Slab α) := do
  if ids.isEmpty then .error (.error (.invalidInput .noBlocks))
  else
    let g := m.geometry
    validate g layer ids
    let blocks ← (m.view a).get layer
    checkShape [ids.length, g.heads, g.blockSize, g.headDim] g.element
    let rows ← blocks.select (ids.map UInt32.ofNat)
    return rows.toSlab

/-- The keys of a block. -/
def blockKeys (m : BlockMemory α) (layer id : Nat) : Except Failure (Slab α) :=
  m.block m.keys layer id

/-- The values of a block. -/
def blockValues (m : BlockMemory α) (layer id : Nat) : Except Failure (Slab α) :=
  m.block m.values layer id

/-- The keys of several blocks, one after another. -/
def gatherKeys (m : BlockMemory α) (layer : Nat) (ids : List Nat) : Except Failure (Slab α) :=
  m.gather m.keys layer ids

/-- The values of several blocks, one after another. -/
def gatherValues (m : BlockMemory α) (layer : Nat) (ids : List Nat) : Except Failure (Slab α) :=
  m.gather m.values layer ids

/-! ### Writing -/

/-- The array with block `source` written over block `target` in every layer. -/
def overwrite (v : Strided α) (source target : Nat) :
    Except Failure { w : Strided α // w.dims = v.dims } := do
  let part ← v.narrow 1 source 1
  v.scatterSecond part target

/-- Copy one block over another in every layer of both arrays. A memory without
layers refuses, whatever the numbers. -/
def copyBlock (m : BlockMemory α) (source target : Nat) : Except Failure (BlockMemory α) := do
  validate m.geometry 0 [source, target]
  let ⟨keys, hdims⟩ ← overwrite (m.view m.keys) source target
  let ⟨values, _⟩ ← overwrite (m.view m.values) source target
  return { m with
    keys := ⟨keys.stored⟩
    values := ⟨values.stored⟩
    axes := keys.axes
    axes_length := hdims.trans m.axes_length }

end BlockMemory

end PagedServe
