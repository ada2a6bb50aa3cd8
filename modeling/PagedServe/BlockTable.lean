/-
PagedServe/BlockTable.lean

A stream's blocks in logical order.

Position `p` of a stream lives in block `ids[p / blockSize]` at offset
`p % blockSize`, and its slot is `block * blockSize + offset` (`slots`).
`blocksFor` is the number of blocks that a length needs: its quotient by the
block size, rounded up.
-/
import PagedServe.Word

namespace PagedServe

/-- The number of blocks that `length` tokens fill or begin. -/
def blocksFor (length blockSize : Nat) : Except Failure Nat :=
  Word.ceilDiv length blockSize

/-- The physical blocks of a stream in logical order. -/
structure BlockTable where
  blockSize : Nat
  ids : List Nat

namespace BlockTable

/-- A table with no blocks and no block size. It maps nothing. -/
def empty : BlockTable := ⟨0, []⟩

/-- The physical block of a logical index. -/
def get (t : BlockTable) (index : Nat) : Except Failure Nat :=
  match t.ids[index]? with
  | some id => .ok id
  | none => .error (.error (.invalidInput (.logicalBlock index t.ids.length)))

/-- Map further logical blocks, behind those mapped already. -/
def append (t : BlockTable) (ids : List Nat) : BlockTable := { t with ids := t.ids ++ ids }

/-- The blocks held, and the table without them. -/
def take (t : BlockTable) : List Nat × BlockTable := (t.ids, { t with ids := [] })

/-- The tokens that fit into the blocks held. -/
def capacity (t : BlockTable) : Except Failure Nat := Word.mul t.ids.length t.blockSize

/-- The block and offset of a position, if the table reaches that far. -/
def locate (t : BlockTable) (position : Nat) : Option (Nat × Nat) :=
  t.ids[position / t.blockSize]?.map fun id => (id, position % t.blockSize)

/-- The bytes of a slot number. -/
def slotBytes : Nat := 8

/-- The slots of the first `length` positions. Positions past the blocks held
have none, and a table without a block size maps nothing. Room is made for as
many slots as there are positions. -/
def slots (t : BlockTable) (length : Nat) : Except Failure (List Nat) :=
  if t.blockSize = 0 then .ok []
  else do
    Word.room length slotBytes
    let covered := min length (t.ids.length * t.blockSize)
    ((List.range covered).filterMap t.locate).mapM fun (id, offset) => do
      Word.add (← Word.mul id t.blockSize) offset

end BlockTable

end PagedServe
