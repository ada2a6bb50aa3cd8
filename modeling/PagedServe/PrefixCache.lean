/-
PagedServe/PrefixCache.lean

The cache of committed chains: which block holds the states of which token
prefix.

An entry stands for one full block of tokens after one chain of blocks. It is
found under the chained hash of its tokens, and keeps the tokens, so that equal
hashes alone never make a match. A second index lists the hashes by the tick of
their last use, oldest first.

* `matchPrefix` returns the blocks of the longest cached chain that begins the
  tokens, but leaves at least one token over, and refreshes what it returns.
* `insert` commits the full blocks of a token list. What is there already is
  refreshed and keeps its block; where another block of tokens sits under the
  same hash the walk ends. It returns the blocks newly held.
* `popLru` gives up the least recently used entry whose block passes a test.
* `clear` gives up all of them, in whatever order its caller names.

The cache holds no references of its own: its owner takes one for each block
that `insert` returns and drops one for each block that `popLru` or `clear`
returns.
-/
import PagedServe.ChainHash
import PagedServe.Failure

namespace PagedServe

/-- One committed block of tokens. -/
structure CacheEntry where
  block : Nat
  tokens : List UInt32
  lastUsed : Nat

/-- Committed blocks, looked up by the name of their chain and given up in order of last use. The
name of a block comes from `hash`, applied along the chain. -/
structure PrefixCache where
  blockSize : Nat
  hash : ChainHash
  /-- Entries under their chained hash, in the order in which they were added. -/
  entries : List (UInt64 × CacheEntry)
  /-- Ticks of last use with the hash used then, oldest first. -/
  recency : List (Nat × UInt64)
  /-- The tick of the latest use. -/
  tick : Nat

namespace PrefixCache

/-- A cache without entries. -/
def new (blockSize : Nat) (hash : ChainHash) : PrefixCache := ⟨blockSize, hash, [], [], 0⟩

/-- The number of entries. -/
def size (c : PrefixCache) : Nat := c.entries.length

/-- The blocks held, in the order in which they were committed. -/
def blocks (c : PrefixCache) : List Nat := c.entries.map fun (_, e) => e.block

/-- The entry under a hash. -/
def entry? (c : PrefixCache) (h : UInt64) : Option CacheEntry := c.entries.lookup h

/-- The entry under a hash, if it stands for exactly these tokens. -/
def find? (c : PrefixCache) (h : UInt64) (tokens : List UInt32) : Option CacheEntry :=
  (c.entry? h).filter fun e => e.tokens = tokens

/-- Make an entry the most recently used one. -/
def touch (c : PrefixCache) (h : UInt64) : PrefixCache :=
  let now := c.tick + 1
  match c.entry? h with
  | none => { c with tick := now }
  | some e =>
    { c with
      entries := c.entries.map fun (k, v) => if k = h then (k, { v with lastUsed := now }) else (k, v)
      recency := c.recency.filter (fun (t, _) => t ≠ e.lastUsed) ++ [(now, h)]
      tick := now }

/-- Add an entry under a hash that is not in use, as the most recent one. -/
def add (c : PrefixCache) (h : UInt64) (tokens : List UInt32) (block : Nat) : PrefixCache :=
  let now := c.tick + 1
  { c with
    entries := c.entries ++ [(h, ⟨block, tokens, now⟩)]
    recency := c.recency ++ [(now, h)]
    tick := now }

/-- Remove an entry and its line in the index. -/
def remove (c : PrefixCache) (tick : Nat) (h : UInt64) : PrefixCache :=
  { c with
    entries := c.entries.filter fun (k, _) => k ≠ h
    recency := c.recency.filter fun (t, _) => t ≠ tick }

/-! ### Looking chains up -/

/-- Walk down a chain while its blocks are cached. -/
def matchChain (c : PrefixCache) (parent : Option UInt64) :
    List (List UInt32) → List Nat × PrefixCache
  | [] => ([], c)
  | tokens :: rest =>
    let h := c.hash parent tokens
    match c.find? h tokens with
    | none => ([], c)
    | some e =>
      let (blocks, c') := (c.touch h).matchChain (some h) rest
      (e.block :: blocks, c')

/-- The blocks that may be matched: full ones that leave a token over. -/
def matchable (c : PrefixCache) (tokens : List UInt32) : List (List UInt32) :=
  (fullBlocks c.blockSize tokens).take ((tokens.length - 1) / c.blockSize)

/-- The cached blocks that a sequence begins with; they become the most recently used ones. -/
def matchPrefix (c : PrefixCache) (tokens : List UInt32) :
    Except Failure (List Nat × PrefixCache) :=
  if c.blockSize = 0 then .error (.fault .divisionByZero)
  else .ok (c.matchChain none (c.matchable tokens))

/-! ### Committing chains -/

/-- Walk down a chain, refreshing what is there and adding what is not. -/
def insertChain (c : PrefixCache) (parent : Option UInt64) :
    List (List UInt32 × Nat) → List Nat × PrefixCache
  | [] => ([], c)
  | (tokens, block) :: rest =>
    let h := c.hash parent tokens
    match c.entry? h with
    | none =>
      let (blocks, c') := (c.add h tokens block).insertChain (some h) rest
      (block :: blocks, c')
    | some e =>
      if e.tokens = tokens then (c.touch h).insertChain (some h) rest
      else ([], c)

/-- Commit the full blocks of a sequence. The answer is the blocks that were new to the cache. -/
def insert (c : PrefixCache) (tokens : List UInt32) (ids : List Nat) :
    Except Failure (List Nat × PrefixCache) :=
  if c.blockSize = 0 then .error (.fault .divisionByZero)
  else .ok (c.insertChain none ((fullBlocks c.blockSize tokens).zip ids))

/-! ### Giving entries up -/

/-- The first line of the index whose entry's block passes the test. -/
def oldest (c : PrefixCache) (evictable : Nat → Bool) :
    List (Nat × UInt64) → Except Failure (Option (Nat × UInt64 × Nat))
  | [] => .ok none
  | (tick, h) :: rest =>
    match c.entry? h with
    | none => .error (.fault .missingEntry)
    | some e =>
      if evictable e.block then .ok (some (tick, h, e.block)) else c.oldest evictable rest

/-- Remove the least recently used entry whose block passes the test. -/
def popLru (c : PrefixCache) (evictable : Nat → Bool) :
    Except Failure (Option (Nat × PrefixCache)) := do
  match ← c.oldest evictable c.recency with
  | none => return none
  | some (tick, h, block) => return some (block, c.remove tick h)

/-- The blocks held, in the order asked for if it is an order of them. -/
def drained (c : PrefixCache) (order : List Nat) : List Nat :=
  if order.isPerm c.blocks then order else c.blocks

/-- Drop every entry; the tick goes on. Entries have no order of their own, so the
blocks may come in any. -/
def clear (c : PrefixCache) (order : List Nat := []) : List Nat × PrefixCache :=
  (c.drained order, { c with entries := [], recency := [] })

end PrefixCache

end PagedServe
