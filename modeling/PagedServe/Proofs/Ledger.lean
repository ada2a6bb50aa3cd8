/-
PagedServe/Proofs/Ledger.lean

The books of an allocator: who holds which references.

`Ledger a held` says that the references of the pool are those of the cache,
one for each entry, and those of the list `held`, one for each occurrence.  The
list stands for everybody outside: the streams of a scheduler, or any other
clients.  With it come the agreement of pool and free list, of entries and
index, and the figures that never change.

Each operation is then described by what it does to `held`:

* `malloc` adds fresh blocks (`Ledger.malloc_ok`), or fails and changes nothing
  (`malloc_short`), and which of the two happens depends on the number of
  available blocks alone;
* `mallocWithCache` adds the blocks of a cached prefix and fresh ones
  (`Ledger.mallocWithCache`), or fails and leaves no trace but that of the lookup
  (`mallocWithCache_short`);
* `free` takes away, `insertIntoCache` and `clearCache` leave `held` alone.

None of them can fail in any other way while the ledger holds and blocks are
committed by somebody who holds them.
-/
import PagedServe.Proofs.Consistency
import PagedServe.Proofs.Outcome
import PagedServe.Proofs.PrefixCache
import PagedServe.Proofs.Releases
import Mathlib.Data.List.Perm.Subperm

namespace PagedServe

theorem blocksFor_eq_ok (n : Nat) {size : Nat} (hs : 0 < size) :
    blocksFor n size = .ok ((n + size - 1) / size) := if_neg (Nat.pos_iff_ne_zero.mp hs)

namespace Allocator

open PrefixCache (content)

/-- The pool's references are the cache's and those of the list. -/
structure Ledger (a : Allocator) (held : List Nat) : Prop where
  pool : a.pool.Consistent
  reserved : a.pool.refsOf Pool.reserved = 0
  balance : ∀ b, a.pool.refsOf b = held.count b + a.cache.blocks.count b
  index : a.cache.Indexed
  cacheSize : a.cache.blockSize = a.geometry.blockSize
  sizePos : 0 < a.geometry.blockSize
  total : a.pool.total = a.geometry.blocks
  fits : a.geometry.blocks < Word.limit

/-- The same shape, and chains named alike. -/
structure SameShape (a a' : Allocator) : Prop where
  geometry : a'.geometry = a.geometry
  hash : a'.cache.hash = a.cache.hash

theorem SameShape.refl (a : Allocator) : SameShape a a := ⟨rfl, rfl⟩

theorem SameShape.trans {a a' a'' : Allocator} (h : SameShape a a') (h' : SameShape a' a'') :
    SameShape a a'' :=
  ⟨h'.geometry.trans h.geometry, h'.hash.trans h.hash⟩

variable {a : Allocator} {held ids : List Nat}

/-- Only the number of references on each block counts, not their order. -/
theorem Ledger.congr {held' : List Nat} (L : a.Ledger held)
    (h : ∀ b, held'.count b = held.count b) : a.Ledger held' :=
  { L with balance := fun b => by rw [h, L.balance] }

theorem Ledger.refsOf_pos_of_mem (L : a.Ledger held) {b : Nat} (hb : b ∈ held) :
    0 < a.pool.refsOf b := by
  have := List.count_pos_iff.mpr hb
  rw [L.balance]
  omega

theorem Ledger.refsOf_pos_of_cached (L : a.Ledger held) {b : Nat} (hb : b ∈ a.cache.blocks) :
    0 < a.pool.refsOf b := by
  have := List.count_pos_iff.mpr hb
  rw [L.balance]
  omega

/-- A block with a reference is a usable one. -/
theorem Ledger.usable_of_refsOf (L : a.Ledger held) {b : Nat} (hb : 0 < a.pool.refsOf b) :
    0 < b ∧ b < a.geometry.blocks := by
  refine ⟨Nat.pos_of_ne_zero ?_, L.total ▸ Pool.lt_total_of_refsOf hb⟩
  rintro rfl
  have hzero := L.reserved
  rw [show Pool.reserved = 0 from rfl] at hzero
  omega

theorem Ledger.usable_eq (L : a.Ledger held) : a.pool.usable = a.geometry.blocks - 1 := by
  rw [← L.total]
  rfl

theorem blockSize_ne_zero (L : a.Ledger held) : a.cache.blockSize ≠ 0 := by
  rw [L.cacheSize]
  exact Nat.pos_iff_ne_zero.mp L.sizePos

/-- Books that add up pass the check. -/
theorem Ledger.check (L : a.Ledger held) : a.check = .ok () :=
  check_eq_ok.mpr ⟨L.pool, fun _ hb => L.refsOf_pos_of_cached hb⟩

/-! ### A new allocator -/

theorem newWith_eq_ok {hash : ChainHash} {g : Geometry} (h : newWith hash g = .ok a) :
    0 < g.blockSize ∧ a.geometry = g ∧ a.pool = Pool.new g.blocks ∧
      a.cache = PrefixCache.new g.blockSize hash ∧ g.blocks < Word.limit := by
  unfold newWith at h
  split at h
  · simp at h
  case isFalse hpos =>
    -- arrays and pool are both made only if there is room
    rcases hm : BlockMemory.new g (0 : UInt32) with e | memory
    · rw [hm] at h
      exact absurd h (by simp [bind, Except.bind])
    · rcases hp : Pool.create g.blocks with e | pool
      · rw [hm, hp] at h
        exact absurd h (by simp [bind, Except.bind])
      · rw [hm, hp] at h
        simp only [bind, Except.bind, pure, Except.pure, Except.ok.injEq] at h
        subst h
        obtain ⟨hpool, hfits⟩ := Pool.create_eq_ok hp
        exact ⟨Nat.pos_of_ne_zero hpos, rfl, hpool, rfl, hfits⟩

/-- What was computed from a new allocator shows that there is one. -/
theorem exists_newWith {α : Type} {hash : ChainHash} {g : Geometry} {f : Allocator → α} {r : α}
    (h : (newWith hash g).toOption.map f = some r) : ∃ a, newWith hash g = .ok a ∧ f a = r := by
  rcases hnew : newWith hash g with e | a
  · rw [hnew] at h
    exact absurd h (by simp [Except.toOption])
  · rw [hnew] at h
    exact ⟨a, rfl, Option.some.inj h⟩

/-- At first nobody holds anything. -/
theorem ledger_newWith {hash : ChainHash} {g : Geometry} (h : newWith hash g = .ok a) :
    a.Ledger [] := by
  obtain ⟨hpos, hgeometry, hpool, hcache, hfits⟩ := newWith_eq_ok h
  refine ⟨?_, ?_, ?_, ?_, ?_, ?_, ?_, ?_⟩
  · rw [hpool]
    exact Pool.consistent_new _
  · rw [hpool]
    exact Pool.refsOf_new _ _
  · intro b
    rw [hpool, hcache, Pool.refsOf_new]
    rfl
  · rw [hcache]
    exact PrefixCache.indexed_new _ _
  · rw [hcache, hgeometry]
    rfl
  · rw [hgeometry]
    exact hpos
  · rw [hpool, hgeometry]
    exact Pool.total_new _
  · rw [hgeometry]
    exact hfits

/-! ### Steps on one part -/

section Part

variable {α : Type} {r : α}

theorem onPool_of_ok {f : Pool → Except Failure (α × Pool)} {p : Pool}
    (h : f a.pool = .ok (r, p)) : onPool f a = .ok r { a with pool := p } := by
  simp only [onPool, h]

theorem onPool_of_error {f : Pool → Except Failure (α × Pool)} {e : Failure}
    (h : f a.pool = .error e) : onPool f a = .error e a := by
  simp only [onPool, h]

theorem onCache_of_ok {f : PrefixCache → Except Failure (α × PrefixCache)} {c : PrefixCache}
    (h : f a.cache = .ok (r, c)) : onCache f a = .ok r { a with cache := c } := by
  simp only [onCache, h]

theorem onCache_of_error {f : PrefixCache → Except Failure (α × PrefixCache)} {e : Failure}
    (h : f a.cache = .error e) : onCache f a = .error e a := by
  simp only [onCache, h]

end Part

/-! ### Dropping references -/

theorem free_eq_ok (a : Allocator) (ids : List Nat) :
    free ids a = .ok (a.pool.release ids).1 { a with pool := (a.pool.release ids).2 } := rfl

/-- Whoever drops references gives up just those. -/
theorem Ledger.release (L : a.Ledger (ids ++ held)) :
    Ledger { a with pool := (a.pool.release ids).2 } held := by
  refine { L with pool := L.pool.release ids, reserved := ?_, balance := ?_, total := ?_ }
  · show (a.pool.release ids).2.refsOf Pool.reserved = 0
    rw [Pool.refsOf_release L.reserved, L.reserved, Nat.zero_sub]
  · intro b
    show (a.pool.release ids).2.refsOf b = _
    rw [Pool.refsOf_release L.reserved, L.balance, List.count_append]
    show _ = held.count b + a.cache.blocks.count b
    omega
  · show (a.pool.release ids).2.total = _
    rw [Pool.total_release, L.total]

/-! ### Taking further references -/

theorem shareAll_eq_ok (h0 : a.pool.refsOf Pool.reserved = 0)
    (h : ∀ id ∈ ids, 0 < a.pool.refsOf id) :
    shareAll ids a = .ok () { a with pool := a.pool.retainAll ids } := by
  induction ids generalizing a with
  | nil => rfl
  | cons id ids ih =>
    have hid : 0 < a.pool.refsOf id := h id List.mem_cons_self
    have hlt : id < a.pool.total := Pool.lt_total_of_refsOf hid
    have hne : Pool.reserved ≠ id := fun he => by rw [← he, h0] at hid; exact Nat.lt_irrefl 0 hid
    have hshare : onPool (fun p => p.share id) a
        = .ok (a.pool.refsOf id + 1)
            { a with pool := a.pool.store (Block.retain ⟨id, a.pool.refsOf id⟩) } :=
      onPool_of_ok (Pool.share_eq_ok h0 hid)
    show (onPool (fun p => p.share id) >>= fun _ => shareAll ids) a = _
    rw [bind_of_ok hshare, ih]
    · show EStateM.Result.ok () { a with pool := Pool.retainAll _ ids } = _
      rw [Pool.retainAll_cons_of_some (Pool.block?_eq_refsOf hlt)]
    · rw [Pool.refsOf_retain hlt, h0, List.count_singleton, beq_false_of_ne (Ne.symm hne)]
      rfl
    · -- sharing one block leaves the others in use
      intro b hb
      rw [Pool.refsOf_retain hlt]
      exact Nat.add_pos_left (h b (List.mem_cons_of_mem id hb)) _

/-- References taken on blocks in use are held by the one who takes them. -/
theorem Ledger.retain (L : a.Ledger held) (h : ∀ id ∈ ids, 0 < a.pool.refsOf id) :
    Ledger { a with pool := a.pool.retainAll ids } (ids ++ held) := by
  have hlt : ∀ id ∈ ids, id < a.pool.total := fun id hid => Pool.lt_total_of_refsOf (h id hid)
  refine { L with pool := L.pool.retainAll h, reserved := ?_, balance := ?_, total := ?_ }
  · show (a.pool.retainAll ids).refsOf Pool.reserved = 0
    rw [Pool.refsOf_retainAll hlt, L.reserved, List.count_eq_zero_of_not_mem]
    intro hr
    exact Nat.lt_irrefl 0 (L.reserved ▸ h _ hr)
  · intro b
    show (a.pool.retainAll ids).refsOf b = _
    rw [Pool.refsOf_retainAll hlt, L.balance, List.count_append]
    show _ = _ + a.cache.blocks.count b
    omega
  · show (a.pool.retainAll ids).total = _
    rw [Pool.total_retainAll, L.total]

/-! ### Eviction -/

theorem evictableCount_eq_countP (a : Allocator) :
    a.evictableCount = a.cache.blocks.countP a.cachedOnly := by
  rw [evictableCount, List.countP_eq_length_filter]

theorem cachedOnly_eq_true {b : Nat} : a.cachedOnly b = true ↔ a.pool.refsOf b = 1 := by
  unfold cachedOnly Pool.refsOf
  rcases a.pool.refCount? b with - | n <;> simp

/-- One eviction frees the block of the entry and touches nothing else: the
entry's reference was the only one on it. -/
theorem Ledger.evictOne (L : a.Ledger held) {t : Nat} {h : UInt64} {e : CacheEntry}
    (hl : (t, h) ∈ a.cache.recency) (he : (h, e) ∈ a.cache.entries)
    (hone : a.pool.refsOf e.block = 1) :
    let a' := { a with cache := a.cache.remove t h, pool := (a.pool.release [e.block]).2 }
    a'.Ledger held ∧ a'.evictableCount + 1 = a.evictableCount ∧
      a'.pool.freeCount = a.pool.freeCount + 1 := by
  intro a'
  have hperm := L.index.blocks_remove he t
  have hcount : ∀ b, a.cache.blocks.count b = [e.block].count b + a'.cache.blocks.count b := by
    intro b
    rw [hperm.count_eq, ← List.count_append]
    rfl
  have hrefs : ∀ b, a'.pool.refsOf b = a.pool.refsOf b - [e.block].count b :=
    Pool.refsOf_release L.reserved [e.block]
  have hself : [e.block].count e.block = 1 := by simp
  have hL : a'.Ledger held := by
    refine ⟨L.pool.release _, ?_, ?_, L.index.remove hl, L.cacheSize, L.sizePos, ?_, L.fits⟩
    · rw [hrefs, L.reserved, Nat.zero_sub]
    · intro b
      rw [hrefs, L.balance, hcount]
      omega
    · show (a.pool.release [e.block]).2.total = _
      rw [Pool.total_release, L.total]
  refine ⟨hL, ?_, ?_⟩
  · -- no other entry holds the block, so the other entries are judged as before
    have hgone : e.block ∉ a'.cache.blocks := by
      intro hb
      have h1 := List.count_pos_iff.mpr hb
      have h2 := L.balance e.block
      rw [hone, hcount, hself] at h2
      omega
    have hsame : ∀ b ∈ a'.cache.blocks, (a'.cachedOnly b = true ↔ a.cachedOnly b = true) := by
      intro b hb
      have hne : b ≠ e.block := fun heq => hgone (heq ▸ hb)
      rw [cachedOnly_eq_true, cachedOnly_eq_true, hrefs,
        List.count_eq_zero_of_not_mem (fun hm => hne (List.mem_singleton.mp hm)), Nat.sub_zero]
    rw [evictableCount_eq_countP, evictableCount_eq_countP, hperm.countP_eq, List.countP_cons,
      if_pos (cachedOnly_eq_true.mpr hone), List.countP_congr hsame]
  · have hne : e.block ≠ Pool.reserved := by
      intro heq
      rw [heq, L.reserved] at hone
      exact Nat.zero_ne_one hone
    show ((a.pool.releaseOne e.block).2).free.length = _
    rw [(Pool.releaseOne_freed a.pool e.block).2, if_pos ⟨hne, hone⟩, List.length_append]
    rfl

/-- As many evictions as there are evictable entries succeed, and each turns an
evictable block into a free one. -/
theorem Ledger.evict (L : a.Ledger held) {n : Nat} (hn : n ≤ a.evictableCount) :
    ∃ a', evict n a = .ok () a' ∧ a'.Ledger held ∧ SameShape a a' ∧
      a'.cache.content.Sublist a.cache.content ∧ a'.pool.freeCount = a.pool.freeCount + n ∧
      a'.evictableCount + n = a.evictableCount := by
  induction n generalizing a with
  | zero => exact ⟨a, rfl, L, .refl a, List.Sublist.refl _, rfl, rfl⟩
  | succ n ih =>
    rcases L.index.popLru a.cachedOnly with ⟨b, c', hp⟩ | ⟨-, hnone⟩
    · obtain ⟨t, h, hl, ⟨e, hf, rfl⟩, htest, rfl⟩ := PrefixCache.popLru_eq_some hp
      obtain ⟨hL, hcount, hfree⟩ := L.evictOne hl (PrefixCache.mem_entries_of_lookup hf)
        (cachedOnly_eq_true.mp htest)
      obtain ⟨a', hok, hL', hshape, hsub, hfree', hcount'⟩ := ih hL (by omega)
      refine ⟨a', ?_, hL', ⟨hshape.geometry, hshape.hash⟩, ?_, by omega, by omega⟩
      · rw [Allocator.evict]
        simp only [hp]
        exact hok
      · refine hsub.trans ?_
        show (a.cache.remove t h).content.Sublist _
        rw [PrefixCache.content_remove]
        exact List.filter_sublist
    · -- nothing passes the test, so nothing was evictable
      have hzero : a.evictableCount = 0 := by
        rw [evictableCount, List.filter_eq_nil_iff.mpr fun b hb => by rw [hnone b hb]; simp]
        rfl
      omega

/-- If no block is cached twice, a usable block is available or somebody holds it. -/
theorem Ledger.usable_le (L : a.Ledger held) (hd : a.cache.blocks.Nodup) {l : List Nat}
    (hl : ∀ b ∈ held, b ∈ l) : a.pool.usable ≤ a.availableCount + l.length := by
  -- a block is free, or some stream holds it, or its only reference is the cache's
  have hcover : List.range' 1 a.pool.usable ⊆
      a.pool.free ++ (a.cache.blocks.filter a.cachedOnly ++ l) := by
    intro b hb
    have hrange := List.mem_range'_1.mp hb
    have htotal : a.pool.usable = a.pool.total - 1 := rfl
    by_cases hzero : a.pool.refsOf b = 0
    · exact List.mem_append_left _ ((L.pool.mem_free b).mpr ⟨hrange.1, by omega, hzero⟩)
    · refine List.mem_append_right _ ?_
      by_cases hheld : b ∈ held
      · exact List.mem_append_right _ (hl b hheld)
      · have hbalance := L.balance b
        rw [List.count_eq_zero_of_not_mem hheld, Nat.zero_add] at hbalance
        have hcached : b ∈ a.cache.blocks := List.count_pos_iff.mp (by omega)
        rw [List.count_eq_one_of_mem hd hcached] at hbalance
        refine List.mem_append_left _ (List.mem_filter.mpr ⟨hcached, ?_⟩)
        exact cachedOnly_eq_true.mpr hbalance
  have hle := (List.Nodup.subperm List.nodup_range' hcover).length_le
  rw [List.length_range', List.length_append, List.length_append] at hle
  show _ ≤ a.pool.free.length + (a.cache.blocks.filter a.cachedOnly).length + _
  omega

/-! ### Fresh blocks -/

/-- `a'` is `a` after blocks that nobody held were handed out. -/
structure Handed (a : Allocator) (held ids : List Nat) (a' : Allocator) : Prop where
  ledger : a'.Ledger (ids ++ held)
  shape : SameShape a a'
  content : a'.cache.content.Sublist a.cache.content
  nodup : ids.Nodup
  unheld : ∀ b ∈ ids, b ∉ held
  uncached : ∀ b ∈ ids, b ∉ a'.cache.blocks

/-- A block just handed out has one reference. -/
theorem Handed.refsOf_eq_one {a' : Allocator} (H : Handed a held ids a') {b : Nat} (hb : b ∈ ids) :
    a'.pool.refsOf b = 1 := by
  rw [H.ledger.balance, List.count_append, List.count_eq_one_of_mem H.nodup hb,
    List.count_eq_zero_of_not_mem (H.unheld b hb), List.count_eq_zero_of_not_mem (H.uncached b hb)]

/-- Blocks from the front of the free list are fresh. -/
theorem Ledger.handOut (L : a.Ledger held) (n : Nat) :
    Handed a held (a.pool.free.take n) { a with pool := a.pool.handOut n } := by
  -- nobody refers to a free block, neither a holder nor the cache
  have hzero : ∀ b ∈ a.pool.free.take n, held.count b + a.cache.blocks.count b = 0 := by
    intro b hb
    rw [← L.balance]
    exact ((L.pool.mem_free b).mp (List.mem_of_mem_take hb)).2.2
  refine ⟨?_, ⟨rfl, rfl⟩, List.Sublist.refl _, ?_, ?_, ?_⟩
  · refine { L with pool := L.pool.handOut n, reserved := ?_, balance := ?_, total := ?_ }
    · show (a.pool.handOut n).refsOf Pool.reserved = 0
      rw [L.pool.refsOf_handOut, L.reserved, List.count_eq_zero_of_not_mem]
      intro hr
      exact Nat.lt_irrefl 0 (L.pool.inRange _ (List.mem_of_mem_take hr)).1
    · intro b
      show (a.pool.handOut n).refsOf b = _
      rw [L.pool.refsOf_handOut, L.balance, List.count_append]
      show _ = _ + a.cache.blocks.count b
      omega
    · show (a.pool.handOut n).total = _
      rw [Pool.total_handOut, L.total]
  · exact (List.take_sublist n _).nodup L.pool.nodup
  · intro b hb hmem
    have hpos := List.count_pos_iff.mpr hmem
    have := hzero b hb
    omega
  · intro b hb hmem
    have hpos : 0 < a.cache.blocks.count b := List.count_pos_iff.mpr hmem
    have := hzero b hb
    omega

/-- Of the entries on one block none or one is evictable. -/
theorem Ledger.nodup_evictable (L : a.Ledger held) :
    (a.cache.blocks.filter a.cachedOnly).Nodup := by
  apply List.nodup_iff_count_le_one.mpr
  intro b
  by_cases hb : b ∈ a.cache.blocks.filter a.cachedOnly
  · have hcount := (List.filter_sublist (p := a.cachedOnly) (l := a.cache.blocks)).count_le b
    have hbalance := L.balance b
    rw [cachedOnly_eq_true.mp (List.mem_filter.mp hb).2] at hbalance
    omega
  · rw [List.count_eq_zero_of_not_mem hb]
    exact Nat.zero_le 1

/-- Free and evictable blocks are different usable ones, so there are not more of
them than that. -/
theorem Ledger.available_le (L : a.Ledger held) : a.availableCount ≤ a.pool.usable := by
  have hevictable : ∀ b ∈ a.cache.blocks.filter a.cachedOnly, a.pool.refsOf b = 1 := fun b hb =>
    cachedOnly_eq_true.mp (List.mem_filter.mp hb).2
  -- free blocks have no references and evictable ones have one
  have hapart : a.pool.free.Disjoint (a.cache.blocks.filter a.cachedOnly) := by
    intro b hfree hb
    have hzero := ((L.pool.mem_free b).mp hfree).2.2
    rw [hevictable b hb] at hzero
    exact Nat.one_ne_zero hzero
  have hrange : a.pool.free ++ a.cache.blocks.filter a.cachedOnly ⊆
      List.range' 1 a.pool.usable := by
    intro b hb
    have hin : 0 < b ∧ b < a.geometry.blocks := by
      rcases List.mem_append.mp hb with hb | hb
      · exact L.total ▸ L.pool.inRange b hb
      · exact L.usable_of_refsOf (by rw [hevictable b hb]; exact Nat.one_pos)
    rw [L.usable_eq]
    exact List.mem_range'_1.mpr (by omega)
  have hle := ((L.pool.nodup.append L.nodup_evictable hapart).subperm hrange).length_le
  rw [List.length_append, List.length_range'] at hle
  exact hle

theorem Ledger.add_eq_ok (L : a.Ledger held) :
    Word.add a.pool.freeCount a.evictableCount = .ok a.availableCount := by
  have hle := L.available_le
  rw [L.usable_eq] at hle
  have hfits := L.fits
  exact Word.add_eq_ok.mpr ⟨show a.availableCount < Word.limit by omega, rfl⟩

theorem malloc_of_free (L : a.Ledger held) {n : Nat} (h : n ≤ a.pool.freeCount) :
    malloc n a = .ok (a.pool.free.take n) { a with pool := a.pool.handOut n } := by
  unfold malloc
  rw [bind_get, if_neg (Nat.not_lt.mpr h)]
  exact onPool_of_ok (L.pool.malloc_eq_ok h)

theorem malloc_of_evict (L : a.Ledger held) {n : Nat} (h : a.pool.freeCount < n)
    (h' : n ≤ a.availableCount) :
    malloc n a = (evict (n - a.pool.freeCount) >>= fun _ => onPool fun p => p.malloc n) a := by
  unfold malloc
  simp only [bind_get, if_pos h, L.add_eq_ok, if_neg (Nat.not_lt.mpr h')]

/-- If even eviction cannot free enough blocks, nothing is changed. -/
theorem malloc_short (L : a.Ledger held) {n : Nat} (h : a.availableCount < n) :
    malloc n a = .error (.error (.insufficientMemory n a.pool.freeCount)) a := by
  have hfree : a.pool.freeCount < n := Nat.lt_of_le_of_lt (Nat.le_add_right _ _) h
  unfold malloc
  simp only [bind_get, if_pos hfree, L.add_eq_ok, if_pos h]
  rfl

/-- As many blocks as are available can be had. -/
theorem Ledger.malloc_ok (L : a.Ledger held) {n : Nat} (hn : n ≤ a.availableCount) :
    ∃ ids a', malloc n a = .ok ids a' ∧ ids.length = n ∧ Handed a held ids a' := by
  rcases Nat.lt_or_ge a.pool.freeCount n with hshort | henough
  · -- eviction makes up for what the free list lacks
    have havail : a.availableCount = a.pool.freeCount + a.evictableCount := rfl
    obtain ⟨a₁, hok, L₁, hshape, hsub, hfree, -⟩ :=
      L.evict (n := n - a.pool.freeCount) (by omega)
    have hn₁ : n ≤ a₁.pool.freeCount := by omega
    have H := L₁.handOut n
    refine ⟨a₁.pool.free.take n, { a₁ with pool := a₁.pool.handOut n }, ?_, ?_, ?_⟩
    · rw [malloc_of_evict L hshort hn, bind_of_ok hok]
      exact onPool_of_ok (L₁.pool.malloc_eq_ok hn₁)
    · exact List.length_take_of_le hn₁
    · exact { H with shape := hshape.trans H.shape, content := H.content.trans hsub }
  · refine ⟨a.pool.free.take n, _, malloc_of_free L henough, ?_, L.handOut n⟩
    exact List.length_take_of_le henough

/-! ### A prefix and the rest -/

/-- What a grant for `tokens` consists of: the blocks of a cached prefix, each
found under the chained hash of its position, and fresh blocks. -/
structure Granted (a : Allocator) (held : List Nat) (tokens : List UInt32) (grant : Grant)
    (a' : Allocator) : Prop where
  ledger : a'.Ledger (grant.ids ++ held)
  shape : SameShape a a'
  content : a'.cache.content.Sublist a.cache.content
  parts : ∃ matched fresh, grant.ids = matched ++ fresh ∧
    grant.reused = matched.length * a.geometry.blockSize ∧
    (∀ b ∈ fresh, a'.pool.refsOf b = 1) ∧
    ∀ (i b : Nat), matched[i]? = some b → ∃ k t,
      (chainHashes a.cache.hash none (fullBlocks a.geometry.blockSize tokens))[i]? = some k ∧
      (fullBlocks a.geometry.blockSize tokens)[i]? = some t ∧ (k, b, t) ∈ a.cache.content

/-- `a'` is `a` with the same holders, and nothing new is cached. -/
structure Neutral (a : Allocator) (held : List Nat) (a' : Allocator) : Prop where
  ledger : a'.Ledger held
  shape : SameShape a a'
  content : a'.cache.content.Sublist a.cache.content

/-- With some blocks in hand, not even eviction makes them `n`. -/
def Short (a : Allocator) (held : List Nat) (n : Nat) : Prop :=
  ∃ ids a', Neutral a (ids ++ held) a' ∧ a'.availableCount + ids.length < n

theorem Short.mono {n m : Nat} (h : Short a held n) (hle : n ≤ m) : Short a held m := by
  obtain ⟨ids, a', hn, hlt⟩ := h
  exact ⟨ids, a', hn, Nat.lt_of_lt_of_le hlt hle⟩

/-- `a'` is `a` after blocks `ids` were committed for `tokens`, each under the
chained hash of its position; `held` is what is held afterwards. -/
structure Committed (a : Allocator) (held : List Nat) (tokens : List UInt32) (ids : List Nat)
    (a' : Allocator) : Prop where
  ledger : a'.Ledger held
  shape : SameShape a a'
  content : ∃ added, a'.cache.content = a.cache.content ++ added ∧
    ∀ (k : UInt64) (b : Nat) (t : List UInt32), (k, b, t) ∈ added → ∃ i : Nat, ids[i]? = some b ∧
      (fullBlocks a.geometry.blockSize tokens)[i]? = some t ∧
      (chainHashes a.cache.hash none (fullBlocks a.geometry.blockSize tokens))[i]? = some k

/-- The blocks of the cached prefix, and the cache after it was looked up. -/
def matched (a : Allocator) (tokens : List UInt32) (reuse : Bool) : List Nat × PrefixCache :=
  if reuse then a.cache.matchChain none (a.cache.matchable tokens) else ([], a.cache)

theorem matched_same (a : Allocator) (tokens : List UInt32) (reuse : Bool) :
    PrefixCache.SameChains a.cache (a.matched tokens reuse).2 := by
  cases reuse with
  | true => exact PrefixCache.matchChain_same _ _ _
  | false => exact ⟨rfl, rfl⟩

theorem content_matched (a : Allocator) (tokens : List UInt32) (reuse : Bool) :
    (a.matched tokens reuse).2.content = a.cache.content := by
  cases reuse with
  | true => exact PrefixCache.content_matchChain _ _ _
  | false => rfl

theorem blocks_matched (a : Allocator) (tokens : List UInt32) (reuse : Bool) :
    (a.matched tokens reuse).2.blocks = a.cache.blocks := by
  rw [PrefixCache.blocks_eq_content, PrefixCache.blocks_eq_content, content_matched]

/-- A matched block stands under the chained hash of its position. -/
theorem matched_hit {tokens : List UInt32} {reuse : Bool} {i b : Nat}
    (hi : (a.matched tokens reuse).1[i]? = some b) : ∃ k t,
      (chainHashes a.cache.hash none (fullBlocks a.cache.blockSize tokens))[i]? = some k ∧
      (fullBlocks a.cache.blockSize tokens)[i]? = some t ∧ (k, b, t) ∈ a.cache.content := by
  cases reuse with
  | false => exact absurd hi (by simp [matched])
  | true =>
    obtain ⟨k, t, hk, ht, hmem⟩ := PrefixCache.matchChain_hit hi
    -- what may be matched is a prefix of the full blocks
    rw [PrefixCache.matchable, chainHashes_take] at hk
    rw [PrefixCache.matchable] at ht
    rw [List.getElem?_take] at hk ht
    split at hk
    case isTrue hlt =>
      rw [if_pos hlt] at ht
      exact ⟨k, t, hk, ht, hmem⟩
    case isFalse => exact absurd hk (by simp)

theorem matched_cached {tokens : List UInt32} {reuse : Bool} {b : Nat}
    (hb : b ∈ (a.matched tokens reuse).1) : b ∈ a.cache.blocks := by
  obtain ⟨i, hi⟩ := List.mem_iff_getElem?.mp hb
  obtain ⟨k, t, -, -, hmem⟩ := matched_hit hi
  exact PrefixCache.mem_blocks.mpr ⟨k, t, hmem⟩

/-- The matched blocks are not more than the tokens need. -/
theorem length_matched_le (tokens : List UInt32) (reuse : Bool) :
    (a.matched tokens reuse).1.length ≤
      (tokens.length + a.cache.blockSize - 1) / a.cache.blockSize := by
  cases reuse with
  | false => exact Nat.zero_le _
  | true =>
    have hchain := PrefixCache.length_matchChain_le a.cache none (a.cache.matchable tokens)
    have hcut : (a.cache.matchable tokens).length ≤ (tokens.length - 1) / a.cache.blockSize :=
      List.length_take_le _ _
    exact Nat.le_trans hchain (Nat.le_trans hcut (Nat.div_le_div_right (by omega)))

/-- The allocator once the matched prefix is pinned. -/
def pinned (a : Allocator) (tokens : List UInt32) (reuse : Bool) : Allocator :=
  { a with
    cache := (a.matched tokens reuse).2
    pool := a.pool.retainAll (a.matched tokens reuse).1 }

/-- A lookup moves no references. -/
theorem Ledger.lookedUp (L : a.Ledger held) (tokens : List UInt32) (reuse : Bool) :
    Ledger { a with cache := (a.matched tokens reuse).2 } held where
  pool := L.pool
  reserved := L.reserved
  balance := fun b => by
    rw [L.balance]
    show _ = _ + (a.matched tokens reuse).2.blocks.count b
    rw [blocks_matched]
  index := by
    cases reuse with
    | true => exact L.index.matchChain _ _
    | false => exact L.index
  cacheSize := (a.matched_same tokens reuse).blockSize.trans L.cacheSize
  sizePos := L.sizePos
  total := L.total
  fits := L.fits

theorem Ledger.refsOf_matched (L : a.Ledger held) {tokens : List UInt32} {reuse : Bool} {b : Nat}
    (hb : b ∈ (a.matched tokens reuse).1) : 0 < a.pool.refsOf b :=
  L.refsOf_pos_of_cached (matched_cached hb)

theorem Ledger.pinned (L : a.Ledger held) (tokens : List UInt32) (reuse : Bool) :
    (a.pinned tokens reuse).Ledger ((a.matched tokens reuse).1 ++ held) :=
  (L.lookedUp tokens reuse).retain fun _ hb => L.refsOf_matched hb

/-- What is left to do after the lookup. -/
theorem mallocWithCache_lookup (hs : a.cache.blockSize ≠ 0) (tokens : List UInt32) (reuse : Bool) :
    mallocWithCache tokens reuse a =
      (do
        shareAll (a.matched tokens reuse).1
        let a' ← get
        match blocksFor tokens.length a'.geometry.blockSize with
        | .error e => throw e
        | .ok needed =>
          let fresh ← tryCatch (malloc (needed - (a.matched tokens reuse).1.length)) fun e => do
            let _ ← free (a.matched tokens reuse).1
            throw e
          return ⟨(a.matched tokens reuse).1 ++ fresh,
            (a.matched tokens reuse).1.length * a'.geometry.blockSize⟩ : AllocM Grant)
        { a with cache := (a.matched tokens reuse).2 } := by
  unfold mallocWithCache
  -- without reuse nothing is looked up, and the cache stays as it is
  cases reuse with
  | true =>
    have hmatch : onCache (fun c => c.matchPrefix tokens) a
        = .ok (a.matched tokens true).1 { a with cache := (a.matched tokens true).2 } :=
      onCache_of_ok (PrefixCache.matchPrefix_eq_ok hs tokens)
    rw [if_pos rfl]
    exact bind_of_ok hmatch
  | false =>
    have hmatch : (pure [] : AllocM (List Nat)) a
        = .ok (a.matched tokens false).1 { a with cache := (a.matched tokens false).2 } := rfl
    rw [if_neg Bool.false_ne_true]
    exact bind_of_ok hmatch

/-- Pinning the prefix succeeds; then the rest is allocated, and on failure the
prefix is given back. -/
theorem mallocWithCache_eq (L : a.Ledger held) (tokens : List UInt32) (reuse : Bool) :
    mallocWithCache tokens reuse a =
      (do
        let fresh ← tryCatch
          (malloc ((tokens.length + a.geometry.blockSize - 1) / a.geometry.blockSize
            - (a.matched tokens reuse).1.length)) fun e => do
          let _ ← free (a.matched tokens reuse).1
          throw e
        return ⟨(a.matched tokens reuse).1 ++ fresh,
          (a.matched tokens reuse).1.length * a.geometry.blockSize⟩ : AllocM Grant)
        (a.pinned tokens reuse) := by
  -- cached blocks are in use, so none of them is refused
  have hshare : shareAll (a.matched tokens reuse).1 { a with cache := (a.matched tokens reuse).2 }
      = .ok () (a.pinned tokens reuse) :=
    shareAll_eq_ok L.reserved fun b hb => L.refsOf_matched hb
  have hblocks : blocksFor tokens.length (a.pinned tokens reuse).geometry.blockSize
      = .ok ((tokens.length + a.geometry.blockSize - 1) / a.geometry.blockSize) :=
    blocksFor_eq_ok _ L.sizePos
  rw [mallocWithCache_lookup (blockSize_ne_zero L), bind_of_ok hshare, bind_get, hblocks]
  rfl

/-- If the rest cannot be had beside the pinned prefix, the references on the prefix are
taken back, and only the lookup has left a trace. -/
theorem mallocWithCache_short (L : a.Ledger held) {tokens : List UInt32} {reuse : Bool}
    (h : (a.pinned tokens reuse).availableCount <
      (tokens.length + a.geometry.blockSize - 1) / a.geometry.blockSize
        - (a.matched tokens reuse).1.length) :
    mallocWithCache tokens reuse a =
      .error (.error (.insufficientMemory
        ((tokens.length + a.geometry.blockSize - 1) / a.geometry.blockSize
          - (a.matched tokens reuse).1.length) a.pool.freeCount))
        { a with cache := (a.matched tokens reuse).2 } := by
  -- taking references and dropping them again leads back to the same pool
  have hback : free (a.matched tokens reuse).1 (a.pinned tokens reuse)
      = .ok ((a.pinned tokens reuse).pool.release (a.matched tokens reuse).1).1
        { a with cache := (a.matched tokens reuse).2 } := by
    rw [free_eq_ok]
    show EStateM.Result.ok _ { a with
      cache := (a.matched tokens reuse).2
      pool := ((a.pool.retainAll _).release (a.matched tokens reuse).1).2 } = _
    rw [Pool.release_retainAll L.reserved fun b hb => L.refsOf_matched hb]
  rw [mallocWithCache_eq L, bind_of_error]
  rw [tryCatch_of_error (malloc_short (L.pinned tokens reuse) h), bind_of_ok hback]
  show EStateM.Result.error (Failure.error (.insufficientMemory _
    (a.pool.retainAll (a.matched tokens reuse).1).free.length)) _ = _
  rw [Pool.retainAll_free]
  rfl

/-- If it can be had, it comes after the prefix. -/
theorem mallocWithCache_of_malloc (L : a.Ledger held) {tokens : List UInt32} {reuse : Bool}
    {fresh : List Nat} {a' : Allocator}
    (h : malloc ((tokens.length + a.geometry.blockSize - 1) / a.geometry.blockSize
        - (a.matched tokens reuse).1.length) (a.pinned tokens reuse) = .ok fresh a') :
    mallocWithCache tokens reuse a =
      .ok ⟨(a.matched tokens reuse).1 ++ fresh,
        (a.matched tokens reuse).1.length * a.geometry.blockSize⟩ a' := by
  rw [mallocWithCache_eq L, bind_of_ok (tryCatch_of_ok h)]
  rfl

/-- Without reuse there is no lookup either, and a failure leaves no trace at all. -/
theorem eq_of_mallocWithCache_error (L : a.Ledger held) {tokens : List UInt32} {e : Failure}
    {a' : Allocator} (herr : mallocWithCache tokens false a = .error e a') : a' = a := by
  rcases Nat.lt_or_ge (a.pinned tokens false).availableCount
    ((tokens.length + a.geometry.blockSize - 1) / a.geometry.blockSize
      - (a.matched tokens false).1.length) with hshort | henough
  · rw [mallocWithCache_short L hshort] at herr
    cases herr
    rfl
  · obtain ⟨fresh, a₁, hok, -⟩ := (L.pinned tokens false).malloc_ok henough
    rw [mallocWithCache_of_malloc L hok] at herr
    cases herr

/-- Either the tokens are covered, or memory is short and the holders and what is
cached are as before. -/
theorem Ledger.mallocWithCache (L : a.Ledger held) (tokens : List UInt32) (reuse : Bool) :
    (∃ grant a', mallocWithCache tokens reuse a = .ok grant a' ∧ Granted a held tokens grant a' ∧
        blocksFor tokens.length a.geometry.blockSize = .ok grant.ids.length) ∨
      ∃ e a' n, mallocWithCache tokens reuse a = .error e a' ∧ e.isInsufficientMemory = true ∧
        Neutral a held a' ∧ blocksFor tokens.length a.geometry.blockSize = .ok n ∧
        Short a held n := by
  have L₁ := L.pinned tokens reuse
  have hshape : SameShape a (a.pinned tokens reuse) := ⟨rfl, (a.matched_same tokens reuse).hash⟩
  have hcontent : (a.pinned tokens reuse).cache.content = a.cache.content :=
    a.content_matched tokens reuse
  have hblocks := blocksFor_eq_ok tokens.length L.sizePos
  have hfit := length_matched_le (a := a) tokens reuse
  rw [L.cacheSize] at hfit
  rcases Nat.lt_or_ge (a.pinned tokens reuse).availableCount
    ((tokens.length + a.geometry.blockSize - 1) / a.geometry.blockSize
      - (a.matched tokens reuse).1.length) with hshort | henough
  · refine Or.inr ⟨_, _, _, mallocWithCache_short L hshort, rfl,
      ⟨L.lookedUp tokens reuse, ⟨hshape.geometry, hshape.hash⟩, hcontent ▸ List.Sublist.refl _⟩,
      hblocks, (a.matched tokens reuse).1, a.pinned tokens reuse,
      ⟨L₁, hshape, hcontent ▸ List.Sublist.refl _⟩, by omega⟩
  · -- the prefix stays pinned and the rest is fresh
    obtain ⟨fresh, a', hok, hlength, H⟩ := L₁.malloc_ok henough
    refine Or.inl ⟨_, a', mallocWithCache_of_malloc L hok,
      ⟨?_, hshape.trans H.shape, hcontent ▸ H.content, (a.matched tokens reuse).1, fresh, rfl,
        rfl, fun b hb => H.refsOf_eq_one hb, ?_⟩, ?_⟩
    · apply H.ledger.congr
      intro b
      show (((a.matched tokens reuse).1 ++ fresh) ++ held).count b = _
      rw [List.count_append, List.count_append, List.count_append, List.count_append]
      omega
    · intro i b hi
      rw [← L.cacheSize]
      exact matched_hit hi
    · show blocksFor tokens.length a.geometry.blockSize = .ok (List.length (_ ++ fresh))
      rw [List.length_append, hlength, Nat.add_sub_cancel' hfit, hblocks]

/-- Further fresh blocks for a grant. -/
theorem Granted.extend {a₁ a₂ : Allocator} {tokens : List UInt32} {grant : Grant}
    (G : Granted a held tokens grant a₁) (H : Handed a₁ (grant.ids ++ held) ids a₂) :
    Granted a held tokens { grant with ids := grant.ids ++ ids } a₂ := by
  obtain ⟨matched, fresh, hids, hreused, hfresh, hhit⟩ := G.parts
  refine ⟨?_, G.shape.trans H.shape, H.content.trans G.content, matched, fresh ++ ids, ?_, hreused,
    ?_, hhit⟩
  · apply H.ledger.congr
    intro b
    show ((grant.ids ++ ids) ++ held).count b = _
    rw [List.count_append, List.count_append, List.count_append, List.count_append]
    omega
  · show grant.ids ++ ids = _
    rw [hids, List.append_assoc]
  · intro b hb
    rcases List.mem_append.mp hb with hb | hb
    · -- a block granted before is not handed out again, nor does the cache take it up
      have hmem : b ∈ grant.ids ++ held :=
        List.mem_append_left held (hids ▸ List.mem_append_right matched hb)
      have hnot : b ∉ ids := fun hid => H.unheld b hid hmem
      have hone := hfresh b hb
      have hpos := H.ledger.refsOf_pos_of_mem (List.mem_append_right ids hmem)
      have hle := (H.content.map fun x => x.2.1).count_le b
      rw [← PrefixCache.blocks_eq_content, ← PrefixCache.blocks_eq_content] at hle
      rw [G.ledger.balance] at hone
      rw [H.ledger.balance, List.count_append, List.count_eq_zero_of_not_mem hnot] at hpos ⊢
      omega
    · exact H.refsOf_eq_one hb

/-! ### Committing and clearing -/

/-- Who holds blocks can commit them: the cache takes a reference on each block
that is new to it. -/
theorem Ledger.insertIntoCache (L : a.Ledger held) (tokens : List UInt32)
    (hids : ∀ b ∈ ids, b ∈ held) :
    ∃ a', insertIntoCache tokens ids a = .ok () a' ∧ Committed a held tokens ids a' := by
  have hinsert : onCache (fun c => c.insert tokens ids) a
      = .ok (a.cache.insertChain none ((fullBlocks a.cache.blockSize tokens).zip ids)).1
        { a with
          cache := (a.cache.insertChain none ((fullBlocks a.cache.blockSize tokens).zip ids)).2 } :=
    onCache_of_ok (PrefixCache.insert_eq_ok (blockSize_ne_zero L) tokens ids)
  rw [L.cacheSize] at hinsert
  obtain ⟨added, hcontent, hblocks, hplace⟩ := PrefixCache.content_insertChain_zip a.cache none
    (fullBlocks a.geometry.blockSize tokens) ids
  generalize (fullBlocks a.geometry.blockSize tokens).zip ids = chain at hinsert hcontent hblocks
  have hsame := PrefixCache.insertChain_same a.cache none chain
  -- the cache takes up blocks of the list only, and those are held
  have hnew : ∀ b ∈ (a.cache.insertChain none chain).1, 0 < a.pool.refsOf b := by
    intro b hb
    rw [← hblocks] at hb
    obtain ⟨⟨k, b, t⟩, hx, rfl⟩ := List.mem_map.mp hb
    obtain ⟨i, hi, -⟩ := hplace k b t hx
    exact L.refsOf_pos_of_mem (hids b (List.mem_of_getElem? hi))
  have hlt : ∀ b ∈ (a.cache.insertChain none chain).1, b < a.pool.total :=
    fun b hb => Pool.lt_total_of_refsOf (hnew b hb)
  refine ⟨{ a with
    cache := (a.cache.insertChain none chain).2
    pool := a.pool.retainAll (a.cache.insertChain none chain).1 }, ?_,
    ?_, ⟨rfl, hsame.hash⟩, added, hcontent, hplace⟩
  · show (onCache (fun c => c.insert tokens ids) >>= shareAll) a = _
    rw [bind_of_ok hinsert]
    exact shareAll_eq_ok L.reserved hnew
  · have Lr := L.retain hnew
    refine ⟨Lr.pool, Lr.reserved, ?_, L.index.insertChain _ _, hsame.blockSize.trans L.cacheSize,
      L.sizePos, Lr.total, L.fits⟩
    intro b
    have hcount : (a.cache.insertChain none chain).2.blocks.count b
        = a.cache.blocks.count b + (a.cache.insertChain none chain).1.count b := by
      rw [PrefixCache.blocks_eq_content (a.cache.insertChain none chain).2, hcontent,
        List.map_append, hblocks, List.count_append, ← PrefixCache.blocks_eq_content]
    show (a.pool.retainAll _).refsOf b = held.count b + _
    rw [Pool.refsOf_retainAll hlt, L.balance, hcount]
    omega

/-- Committing on the way out. -/
theorem Ledger.freeWithCache (L : a.Ledger (ids ++ held)) (tokens : List UInt32) :
    ∃ n a', freeWithCache tokens ids a = .ok n a' ∧ Committed a held tokens ids a' := by
  obtain ⟨a', hok, C⟩ := L.insertIntoCache tokens fun b hb => List.mem_append_left held hb
  refine ⟨(a'.pool.release ids).1, { a' with pool := (a'.pool.release ids).2 }, ?_,
    C.ledger.release, ⟨C.shape.geometry, C.shape.hash⟩, C.content⟩
  show (Allocator.insertIntoCache tokens ids >>= fun _ => free ids) a = _
  rw [bind_of_ok hok]
  exact free_eq_ok a' ids

/-- The entries go first, and then the references on their blocks. -/
theorem clearCache_eq (a : Allocator) (order : List Nat) :
    clearCache order a
      = free (a.cache.drained order) { a with cache := (a.cache.clear order).2 } := rfl

/-- Clearing the cache drops its references and nobody else's, in whatever order. -/
theorem Ledger.clearCache (L : a.Ledger held) (order : List Nat) :
    ∃ n a', clearCache order a = .ok n a' ∧ Neutral a held a' ∧ a'.cache.content = [] := by
  -- once the entries are gone, their references are held by the one who drops them
  have L₁ : Ledger { a with cache := (a.cache.clear order).2 }
      (a.cache.drained order ++ held) := by
    refine { L with balance := ?_, index := PrefixCache.Indexed.clear _ order }
    intro b
    -- counts do not see the order
    rw [L.balance, List.count_append, (PrefixCache.drained_perm a.cache order).count_eq]
    show _ = _ + ([] : List Nat).count b
    rw [List.count_nil]
    omega
  exact ⟨_, _, (clearCache_eq a order).trans (free_eq_ok _ _),
    ⟨L₁.release, ⟨rfl, rfl⟩, List.nil_sublist _⟩, rfl⟩

end Allocator

end PagedServe
