/-
PagedServe/Pool.lean

The arena of blocks: a reference count for every block and the free list.

Block 0 is reserved and never handed out. The other blocks are given from the
front of the free list and come back at its end, so blocks are reused in the
order in which they became free.

* `create` makes a pool if there is room for its blocks.
* `malloc` is all or nothing.
* `release` drops one reference from each listed block. Reserved, unknown and
  already free blocks are skipped, so releasing twice cannot free twice.
* `share` adds a reference, and only to a block that is in use.
* `check` tests that the free list and the counts agree; `Consistent` states
  that agreement.
-/
import PagedServe.Block
import PagedServe.Word

namespace PagedServe

/-- Block `i` has `refs[i]` references. -/
structure Pool where
  refs : Array Nat
  free : List Nat

namespace Pool

/-- The block kept out of circulation. -/
def reserved : Nat := 0

/-- A pool of `total` blocks, all free but the reserved one. -/
def new (total : Nat) : Pool where
  refs := Array.replicate total 0
  free := List.range' 1 (total - 1)

/-- The bytes kept for one block. -/
def recordBytes : Nat := 16

/-- A new pool, if there is room for its blocks. -/
def create (total : Nat) : Except Failure Pool := do
  Word.room total recordBytes
  return new total

/-! ### Figures -/

/-- All blocks, the reserved one included. -/
def total (p : Pool) : Nat := p.refs.size

/-- Blocks that can ever be handed out. -/
def usable (p : Pool) : Nat := p.refs.size - 1

/-- Blocks that can be handed out now. -/
def freeCount (p : Pool) : Nat := p.free.length

/-- Usable blocks that are not free. -/
def usedCount (p : Pool) : Nat := p.usable - p.free.length

/-- So many blocks are free. -/
def canAllocate (p : Pool) (n : Nat) : Bool := n ≤ p.free.length

/-- The references on a block, unless the index is unknown. -/
def refCount? (p : Pool) (id : Nat) : Option Nat := p.refs[id]?

/-- The block of an index, unless the index is unknown. -/
def block? (p : Pool) (id : Nat) : Option Block := p.refs[id]?.map (Block.mk id)

/-- Write a block's count back. -/
def store (p : Pool) (b : Block) : Pool := { p with refs := p.refs.setIfInBounds b.id b.refs }

@[simp] theorem store_free (p : Pool) (b : Block) : (p.store b).free = p.free := rfl

@[simp] theorem total_store (p : Pool) (b : Block) : (p.store b).total = p.total := by
  simp [total, store]

/-- Writing a block back shows at its index and nowhere else. -/
theorem refCount?_store (p : Pool) (b : Block) (id : Nat) :
    (p.store b).refCount? id =
      if b.id = id ∧ id < p.total then some b.refs else p.refCount? id := by
  by_cases h : b.id = id
  · subst h
    by_cases hlt : b.id < p.refs.size <;> simp [refCount?, store, total, hlt]
  · simp [refCount?, store, h]

theorem block?_eq_some {p : Pool} {id : Nat} {b : Block} :
    p.block? id = some b ↔ b.id = id ∧ p.refCount? id = some b.refs := by
  obtain ⟨bid, refs⟩ := b
  simp only [block?, refCount?, Option.map_eq_some_iff, Block.mk.injEq]
  constructor
  · rintro ⟨r, hr, rfl, rfl⟩
    exact ⟨rfl, hr⟩
  · rintro ⟨rfl, hr⟩
    exact ⟨refs, hr, rfl, rfl⟩

/-! ### Operations -/

/-- Add one reference to each listed block, whatever its count. -/
def retainEach (p : Pool) : List Nat → Except Failure Pool
  | [] => .ok p
  | id :: ids => match p.block? id with
    | some b => (p.store b.retain).retainEach ids
    | none => .error (.fault .outOfRange)

/-- Hand out `n` blocks from the front of the free list, one reference each. -/
def malloc (p : Pool) (n : Nat) : Except Failure (List Nat × Pool) :=
  if p.canAllocate n then do
    let ids := p.free.take n
    return (ids, ← retainEach { p with free := p.free.drop n } ids)
  else .error (.error (.insufficientMemory n p.free.length))

/-- Drop one reference from a block. The flag says whether that freed it. -/
def releaseOne (p : Pool) (id : Nat) : Bool × Pool :=
  if id = reserved then (false, p)
  else match p.block? id with
    | none => (false, p)
    | some b => match b.release with
      | .error _ => (false, p)
      | .ok b' =>
        if b'.inUse then (false, p.store b')
        else (true, { p.store b' with free := p.free ++ [id] })

/-- Drop one reference from each listed block, in order. The number counts the
blocks that became free. -/
def release (p : Pool) : List Nat → Nat × Pool
  | [] => (0, p)
  | id :: ids =>
    let (freed, p) := p.releaseOne id
    let (count, p) := p.release ids
    (freed.toNat + count, p)

/-- Add a reference to a block in use. The number is its new count. -/
def share (p : Pool) (id : Nat) : Except Failure (Nat × Pool) :=
  match p.block? id with
  | some b =>
    if id ≠ reserved ∧ b.inUse then .ok (b.retain.refs, p.store b.retain)
    else .error (.error (.invariantViolation (.notAllocated id)))
  | none => .error (.error (.invariantViolation (.notAllocated id)))

/-! ### Consistency -/

/-- The free list lists the blocks without references, each once, and never the
reserved block or one outside the pool. -/
structure Consistent (p : Pool) : Prop where
  nodup : p.free.Nodup
  inRange : ∀ id ∈ p.free, 0 < id ∧ id < p.total
  free_iff : ∀ id, 0 < id → id < p.total → (id ∈ p.free ↔ p.refCount? id = some 0)

/-- A new pool is consistent, also one without blocks. -/
theorem consistent_new (n : Nat) : (new n).Consistent where
  nodup := List.nodup_range'
  inRange := by
    intro id h
    have hid := List.mem_range'_1.1 h
    simp only [new, total, Array.size_replicate]
    omega
  free_iff := by
    intro id hpos hlt
    simp only [new, total, Array.size_replicate] at hlt
    have hmem : id ∈ (new n).free := List.mem_range'_1.2 (by omega)
    have hrefs : (new n).refCount? id = some 0 := by simp [new, refCount?, hlt]
    exact iff_of_true hmem hrefs

/-- Mark the blocks of the free list, refusing strays and repetitions. -/
def markFree (total : Nat) (marks : Array Bool) : List Nat → Except Failure (Array Bool)
  | [] => .ok marks
  | id :: ids =>
    if id = reserved ∨ total ≤ id then
      .error (.error (.invariantViolation (.strayFree id)))
    else match marks[id]? with
      | none => .error (.fault .outOfRange)
      | some true => .error (.error (.invariantViolation (.freeTwice id)))
      | some false => markFree total (marks.setIfInBounds id true) ids

/-- Compare marks with counts, from block `id` on. -/
def compareMarks (marks : Array Bool) : Nat → List Nat → Except Failure Unit
  | _, [] => .ok ()
  | id, refs :: rest => match marks[id]? with
    | none => .error (.fault .outOfRange)
    | some free =>
      if free = (Block.mk id refs).inUse then
        .error (.error (.invariantViolation (.countMismatch id refs free)))
      else compareMarks marks (id + 1) rest

/-- Test that the free list and the counts agree. -/
def check (p : Pool) : Except Failure Unit := do
  let marks ← markFree p.total (Array.replicate p.total false) p.free
  compareMarks marks 1 (p.refs.toList.drop 1)

end Pool

end PagedServe
