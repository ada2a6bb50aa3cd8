/-
PagedServe/Allocator.lean

The single owner of cache blocks: the pool, the prefix cache and the block
memory behind them.

A block is *free*, *cached only* (its one reference is the cache's), or held by
somebody. Free and cached-only blocks are available: `malloc` takes free blocks
and evicts cached-only ones, least recently used first, when the free ones do
not suffice.

* `malloc n` gives `n` fresh blocks or none.
* `mallocWithCache tokens reuse` covers a token list, sharing the blocks of a
  cached prefix and allocating the rest.
* `insertIntoCache` commits full blocks; the cache takes a reference on each
  block that is new to it.
* `freeWithCache` commits and then drops the caller's references.

The operations act on the state `Allocator` and keep what they have done when
they fail.
-/
import PagedServe.BlockMemory
import PagedServe.BlockTable
import PagedServe.Pool
import PagedServe.PrefixCache

namespace PagedServe

/-- The pool, the cache that keeps blocks of finished streams in it, and the memory behind both. -/
structure Allocator where
  geometry : Geometry
  pool : Pool
  cache : PrefixCache
  memory : BlockMemory UInt32

/-- Operations on an allocator; the state survives a failure. -/
abbrev AllocM := EStateM Failure Allocator

/-- The blocks given to a stream. -/
structure Grant where
  /-- Reused blocks of the prefix first, then fresh ones. -/
  ids : List Nat
  /-- Leading tokens whose states are in the reused blocks. -/
  reused : Nat

namespace Allocator

/-- An allocator with an empty cache, whose chains are named by `hash`. -/
def newWith (hash : ChainHash) (g : Geometry) : Except Failure Allocator := do
  if g.blockSize = 0 then .error (.error (.settings .zeroBlockSize))
  else
    let memory ← BlockMemory.new g 0
    let pool ← Pool.create g.blocks
    return ⟨g, pool, PrefixCache.new g.blockSize hash, memory⟩

/-- An allocator whose chains are named by the program's own hash. -/
def new (g : Geometry) : Except Failure Allocator := newWith chainHash g

/-! ### Figures -/

/-- The cache's reference is the only one on this block. -/
def cachedOnly (a : Allocator) (id : Nat) : Bool := a.pool.refCount? id == some 1

/-- Cached blocks that eviction would free. -/
def evictableCount (a : Allocator) : Nat := (a.cache.blocks.filter a.cachedOnly).length

/-- Blocks that `malloc` could hand out, eviction included. -/
def availableCount (a : Allocator) : Nat := a.pool.freeCount + a.evictableCount

/-- The share of usable blocks with a reference; zero if none is usable. -/
def usedRatio (a : Allocator) : Float :=
  if a.pool.usable = 0 then 0.0 else a.pool.usedCount.toFloat / a.pool.usable.toFloat

/-! ### Steps on one part -/

/-- Run an operation on the pool; one that fails leaves the pool alone. -/
def onPool {α : Type} (f : Pool → Except Failure (α × Pool)) : AllocM α := fun a =>
  match f a.pool with
  | .ok (r, pool) => .ok r { a with pool }
  | .error e => .error e a

/-- Run an operation on the cache; one that fails leaves the cache alone. -/
def onCache {α : Type} (f : PrefixCache → Except Failure (α × PrefixCache)) : AllocM α := fun a =>
  match f a.cache with
  | .ok (r, cache) => .ok r { a with cache }
  | .error e => .error e a

/-- Drop one reference from each listed block; the number counts blocks freed. -/
def free (ids : List Nat) : AllocM Nat := onPool fun p => .ok (p.release ids)

/-- Add one reference to each listed block, stopping at the first that is not in use. -/
def shareAll : List Nat → AllocM Unit
  | [] => pure ()
  | id :: ids => do
    let _ ← onPool fun p => p.share id
    shareAll ids

/-- Evict up to `n` cached-only blocks, least recently used first. Dropping the
only reference frees the block, so each eviction adds one free block. -/
def evict : Nat → AllocM Unit
  | 0 => pure ()
  | n + 1 => fun a =>
    match a.cache.popLru a.cachedOnly with
    | .error e => .error e a
    | .ok none => .ok () a
    | .ok (some (id, cache)) =>
      evict n { a with cache, pool := (a.pool.release [id]).2 }

/-! ### Operations -/

/-- `n` fresh blocks, evicting cached-only blocks if the free ones are too few. -/
def malloc (n : Nat) : AllocM (List Nat) := do
  let a ← get
  if a.pool.freeCount < n then
    match Word.add a.pool.freeCount a.evictableCount with
    | .error e => throw e
    | .ok available =>
      if available < n then
        throw (.error (.insufficientMemory n a.pool.freeCount))
      else
        evict (n - a.pool.freeCount)
        onPool fun p => p.malloc n
  else onPool fun p => p.malloc n

/-- Blocks for all of `tokens`. Each reused block gains a reference before the
rest is allocated, so it cannot be evicted; on memory pressure they are dropped
again. -/
def mallocWithCache (tokens : List UInt32) (reuse : Bool) : AllocM Grant := do
  let matched ← if reuse then onCache fun c => c.matchPrefix tokens else pure []
  shareAll matched
  let a ← get
  match blocksFor tokens.length a.geometry.blockSize with
  | .error e => throw e
  | .ok needed =>
    let fresh ← tryCatch (malloc (needed - matched.length)) fun e => do
      let _ ← free matched
      throw e
    return ⟨matched ++ fresh, matched.length * a.geometry.blockSize⟩

/-- Commit the full blocks of `tokens`, stored in `ids`, to the prefix cache. -/
def insertIntoCache (tokens : List UInt32) (ids : List Nat) : AllocM Unit := do
  let added ← onCache fun c => c.insert tokens ids
  shareAll added

/-- Commit the full blocks, then drop one reference from each block. -/
def freeWithCache (tokens : List UInt32) (ids : List Nat) : AllocM Nat := do
  insertIntoCache tokens ids
  free ids

/-- Drop every cache entry and its reference, block by block in any order. -/
def clearCache (order : List Nat := []) : AllocM Nat := do
  let blocks ← onCache fun c => .ok (c.clear order)
  free blocks

/-- Test that the books add up: the pool is consistent and every cached block
is in use. Of several that are not, the one committed first is named; entries have no
order of their own, so nothing more is proved of it than that it is one of them. -/
def check (a : Allocator) : Except Failure Unit := do
  a.pool.check
  match a.cache.blocks.find? fun id => (a.pool.refCount? id).getD 0 == 0 with
  | some id => .error (.error (.invariantViolation (.cachedNotAllocated id)))
  | none => return ()

end Allocator

end PagedServe
