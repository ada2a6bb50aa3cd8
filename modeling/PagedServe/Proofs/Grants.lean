/-
PagedServe/Proofs/Grants.lean

What blocks for a token list cost, with and without reuse.

`mallocWithCache` looks the prefix up, takes a reference on each matched block and only then
allocates the rest.  A matched block that nobody else holds was evictable before and is not
any more: fewer blocks can be had beside the prefix (`evictableCount_pinned`), but at most as
many fewer as the prefix has blocks (`Ledger.evictableCount_le`), and just that many fewer
are needed.  If they cannot be had, the references on the prefix are taken back in the order
in which they were taken.  None of them was the last one, so no block comes to the free list
and the pool is what it was (`Pool.release_retainAll`).

`Refreshed` says what a lookup does to the cache, and `Covers` what a grant consists of.

Main statements: for honest clients, when blocks for a token list can be had, what they are,
and that a failure leaves no trace but the time of the lookup (`mallocWithCache_exact`);
and with reuse they can be had whenever they can be had without it, and more blocks are left
available (`reuse_costs_nothing`).
-/
import PagedServe.Proofs.Eviction

namespace PagedServe

/-! ### What a lookup leaves behind -/

namespace PrefixCache

/-- `c'` is `c` after the entries of some names were used.  The other entries and their places
in the order of use are as before. -/
structure Refreshed (names : List UInt64) (c c' : PrefixCache) : Prop where
  chains : SameChains c c'
  content : c'.content = c.content
  entries : ∀ k e, k ∉ names → ((k, e) ∈ c'.entries ↔ (k, e) ∈ c.entries)
  recency : (c'.recency.filter fun l => l.2 ∉ names) = c.recency.filter fun l => l.2 ∉ names

variable {c c' c'' : PrefixCache} {names later : List UInt64} {h : UInt64}

theorem Refreshed.refl (names : List UInt64) (c : PrefixCache) : Refreshed names c c :=
  ⟨⟨rfl, rfl⟩, rfl, fun _ _ _ => Iff.rfl, rfl⟩

theorem Refreshed.trans (R : Refreshed names c c') (R' : Refreshed later c' c'') :
    Refreshed (names ++ later) c c'' where
  chains := ⟨R'.chains.blockSize.trans R.chains.blockSize, R'.chains.hash.trans R.chains.hash⟩
  content := R'.content.trans R.content
  entries := by
    intro k e hk
    rw [List.mem_append, not_or] at hk
    exact (R'.entries k e hk.2).trans (R.entries k e hk.1)
  recency := by
    -- lines of neither list, in either order
    have hfirst : ∀ l : List (Nat × UInt64), l.filter (fun x => x.2 ∉ names ++ later)
        = (l.filter fun x => x.2 ∉ names).filter fun x => x.2 ∉ later := by
      intro l
      rw [List.filter_filter]
      apply List.filter_congr
      simp [Bool.and_comm]
    have hsecond : ∀ l : List (Nat × UInt64), l.filter (fun x => x.2 ∉ names ++ later)
        = (l.filter fun x => x.2 ∉ later).filter fun x => x.2 ∉ names := by
      intro l
      rw [List.filter_filter]
      apply List.filter_congr
      simp
    rw [hsecond, R'.recency, ← hsecond, hfirst, R.recency, ← hfirst]

theorem Indexed.refreshed_touch (hc : c.Indexed) {e : CacheEntry} (he : c.entry? h = some e) :
    Refreshed [h] c (c.touch h) where
  chains := ⟨touch_blockSize c h, touch_hash c h⟩
  content := content_touch c h
  entries := by
    intro k v hk
    have hne : k ≠ h := fun heq => hk (List.mem_singleton.mpr heq)
    simp [mem_entries_touch he, hne]
  recency := by
    have hline : (e.lastUsed, h) ∈ c.recency :=
      (hc.lines _ _).mpr ⟨e, mem_entries_of_lookup he, rfl⟩
    rw [touch_eq he]
    -- the line that leaves its place and the one that comes instead are both of this name
    show (c.recency.filter (fun l => l.1 ≠ e.lastUsed) ++ [(c.tick + 1, h)]).filter _ = _
    rw [hc.recency_filter hline, List.filter_append, List.filter_filter]
    simp

/-- A lookup uses the entries of the blocks that it returns. -/
theorem Indexed.refreshed_matchChain (hc : c.Indexed) (parent : Option UInt64)
    (chain : List (List UInt32)) :
    Refreshed ((chainHashes c.hash parent chain).take (c.matchChain parent chain).1.length)
      c (c.matchChain parent chain).2 := by
  induction chain generalizing c parent with
  | nil => exact .refl _ c
    -- one block of the chain at a time: a hit is a use, a miss ends the lookup
  | cons tokens rest ih =>
    rw [matchChain_cons]
    split
    · exact .refl _ c
    case h_2 e hf =>
      obtain ⟨he, -⟩ := Option.filter_eq_some_iff.mp hf
      have hrest := ih (hc.touch (c.hash parent tokens)) (some (c.hash parent tokens))
      rw [touch_hash] at hrest
      exact (hc.refreshed_touch he).trans hrest

end PrefixCache

namespace Allocator

open PrefixCache (Refreshed)

variable {a a' a₁ a₂ : Allocator} {held : List Nat} {tokens : List UInt32} {reuse : Bool}

/-- Looking `tokens` up uses the entries of the matched blocks. -/
theorem Ledger.refreshed (L : a.Ledger held) (tokens : List UInt32) (reuse : Bool) :
    Refreshed ((chainHashes a.cache.hash none (fullBlocks a.cache.blockSize tokens)).take
      (a.matched tokens reuse).1.length) a.cache (a.matched tokens reuse).2 := by
  cases reuse with
  | false => exact .refl _ _
  | true =>
    have hchain := L.index.refreshed_matchChain none (a.cache.matchable tokens)
    have hlength := PrefixCache.length_matchChain_le a.cache none (a.cache.matchable tokens)
    -- the walk ends within the blocks that may be matched
    have hcut : (a.cache.matchChain none (a.cache.matchable tokens)).1.length
        ≤ (tokens.length - 1) / a.cache.blockSize :=
      Nat.le_trans hlength (List.length_take_le _ _)
    rw [PrefixCache.matchable, chainHashes_take, List.take_take, ← PrefixCache.matchable,
      Nat.min_eq_left hcut] at hchain
    exact hchain

/-! ### What can be had -/

/-- The evictable entries whose block is none of these. -/
def evictableBeside (a : Allocator) (ids : List Nat) : Nat :=
  (a.cache.blocks.filter fun b => a.cachedOnly b ∧ b ∉ ids).length

theorem Ledger.refsOf_pinned (L : a.Ledger held) (tokens : List UInt32) (reuse : Bool) (b : Nat) :
    (a.pinned tokens reuse).pool.refsOf b
      = a.pool.refsOf b + (a.matched tokens reuse).1.count b :=
  Pool.refsOf_retainAll (fun _ hid => Pool.lt_total_of_refsOf (L.refsOf_matched hid)) b

theorem Ledger.refCount?_pinned (L : a.Ledger held) (tokens : List UInt32) (reuse : Bool)
    (b : Nat) : (a.pinned tokens reuse).pool.refCount? b
      = (a.pool.refCount? b).map (· + (a.matched tokens reuse).1.count b) := by
  rcases Nat.lt_or_ge b a.pool.total with hlt | hge
  · rw [Pool.refCount?_eq_some_refsOf (p := (a.pinned tokens reuse).pool)
      (Nat.lt_of_lt_of_eq hlt (Pool.total_retainAll _ _).symm),
      Pool.refCount?_eq_some_refsOf hlt, L.refsOf_pinned, Option.map_some]
  · have hout : a.pool.refCount? b = none := Array.getElem?_eq_none hge
    have hout' : (a.pinned tokens reuse).pool.refCount? b = none :=
      Array.getElem?_eq_none (Nat.le_trans (Nat.le_of_eq (Pool.total_retainAll _ _)) hge)
    rw [hout, hout', Option.map_none]

/-- Pinning the prefix takes its blocks from the evictable ones. -/
theorem Ledger.evictableCount_pinned (L : a.Ledger held) (tokens : List UInt32) (reuse : Bool) :
    (a.pinned tokens reuse).evictableCount = a.evictableBeside (a.matched tokens reuse).1 := by
  have hblocks : (a.pinned tokens reuse).cache.blocks = a.cache.blocks :=
    a.blocks_matched tokens reuse
  rw [evictableCount, evictableBeside, hblocks]
  apply congrArg List.length
  apply List.filter_congr
  intro b hb
  have hpos := L.refsOf_pos_of_cached hb
  rw [Bool.eq_iff_iff, decide_eq_true_iff, cachedOnly_eq_true, cachedOnly_eq_true,
    L.refsOf_pinned, ← List.count_eq_zero]
  omega

theorem Ledger.availableCount_pinned (L : a.Ledger held) (tokens : List UInt32) (reuse : Bool) :
    (a.pinned tokens reuse).availableCount
      = a.pool.freeCount + a.evictableBeside (a.matched tokens reuse).1 := by
  rw [availableCount, L.evictableCount_pinned]
  apply congrArg (· + _)
  show (a.pool.retainAll (a.matched tokens reuse).1).free.length = a.pool.free.length
  rw [Pool.retainAll_free]

/-- Some blocks are at most as many evictable ones as they are blocks. -/
theorem Ledger.evictableCount_le (L : a.Ledger held) (ids : List Nat) :
    a.evictableCount ≤ a.evictableBeside ids + ids.length := by
  -- those on the list and those beside it; the former are different blocks of the list
  have hsplit : a.evictableCount
      = ((a.cache.blocks.filter a.cachedOnly).filter fun b => b ∈ ids).length
        + a.evictableBeside ids := by
    rw [evictableCount, List.length_eq_length_filter_add fun b => decide (b ∈ ids)]
    apply congrArg (_ + ·)
    rw [List.filter_filter, evictableBeside]
    apply congrArg List.length
    apply List.filter_congr
    simp [and_comm]
  have hamong : ((a.cache.blocks.filter a.cachedOnly).filter fun b => b ∈ ids).length
      ≤ ids.length := by
    refine ((L.nodup_evictable.filter _).subperm fun b hb => ?_).length_le
    exact of_decide_eq_true (List.mem_filter.mp hb).2
  omega

/-! ### What is left -/

theorem Ledger.available_handOut (L : a.Ledger held) {n : Nat} (hn : n ≤ a.pool.freeCount) :
    availableCount { a with pool := a.pool.handOut n } + n = a.availableCount := by
  have hfree : (a.pool.handOut n).freeCount + n = a.pool.freeCount := by
    show (a.pool.handOut n).free.length + n = a.pool.free.length
    rw [Pool.handOut_free, List.length_drop]
    exact Nat.sub_add_cancel hn
  have hevictable : evictableCount { a with pool := a.pool.handOut n } = a.evictableCount := by
    apply congrArg List.length
    apply List.filter_congr
    intro b hb
    -- a cached block has a reference, so it is not one of the free list
    have hnot : b ∉ a.pool.free.take n := by
      intro hmem
      have hzero := ((L.pool.mem_free b).mp (List.mem_of_mem_take hmem)).2.2
      have hpos := L.refsOf_pos_of_cached hb
      omega
    rw [Bool.eq_iff_iff, cachedOnly_eq_true, cachedOnly_eq_true]
    show (a.pool.handOut n).refsOf b = 1 ↔ _
    rw [L.pool.refsOf_handOut, List.count_eq_zero_of_not_mem hnot, Nat.add_zero]
  show (a.pool.handOut n).freeCount + _ + n = _
  rw [hevictable, availableCount]
  omega

/-- Eviction turns evictable blocks into free ones, so `malloc n` takes `n` blocks from the
available ones, whether it evicts or not. -/
theorem Ledger.available_malloc (L : a.Ledger held) {n : Nat} (hn : n ≤ a.availableCount)
    {ids : List Nat} (hok : malloc n a = .ok ids a') :
    a'.availableCount + n = a.availableCount := by
  rcases Nat.lt_or_ge a.pool.freeCount n with hshort | henough
  · -- eviction first: each block that it frees was counted as evictable
    have havail : a.availableCount = a.pool.freeCount + a.evictableCount := rfl
    obtain ⟨a₁, hevict, L₁, -, -, hfree, hcount⟩ :=
      L.evict (n := n - a.pool.freeCount) (by omega)
    have hn₁ : n ≤ a₁.pool.freeCount := by omega
    have havail₁ : a₁.availableCount = a₁.pool.freeCount + a₁.evictableCount := rfl
    rw [malloc_of_evict L hshort hn, bind_of_ok hevict,
      onPool_of_ok (L₁.pool.malloc_eq_ok hn₁)] at hok
    cases hok
    rw [L₁.available_handOut hn₁]
    omega
  · -- enough are free
    rw [malloc_of_free L henough] at hok
    cases hok
    exact L.available_handOut henough

/-! ### What a grant consists of -/

/-- In `a'` the tokens are covered: a prefix by the matched blocks, which gained a reference
for each occurrence, and the rest by fresh blocks, which nobody held. -/
structure Covers (a : Allocator) (tokens : List UInt32) (matched fresh : List Nat) (grant : Grant)
    (a' : Allocator) : Prop where
  ids : grant.ids = matched ++ fresh
  length : grant.ids.length = (tokens.length + a.geometry.blockSize - 1) / a.geometry.blockSize
  reused : grant.reused = matched.length * a.geometry.blockSize
  proper : 0 < tokens.length → grant.reused < tokens.length
  /-- A matched block is not fresh, and neither it nor any block outside the grant has lost a
  reference. -/
  shared : ∀ b, b ∉ fresh →
    a'.pool.refCount? b = (a.pool.refCount? b).map (· + matched.count b)
  kept : ∀ x ∈ a.cache.content, x.2.1 ∈ matched → x ∈ a'.cache.content
  nodup : fresh.Nodup
  idle : ∀ b ∈ fresh, b ∈ a.pool.free ∨ a.pool.refCount? b = some 1 ∧ b ∈ a.cache.blocks
  unmatched : ∀ b ∈ fresh, b ∉ matched
  once : ∀ b ∈ fresh, a'.pool.refCount? b = some 1
  uncached : ∀ b ∈ fresh, b ∉ a'.cache.blocks

/-- The matched blocks leave a token over. -/
theorem Ledger.reused_lt (L : a.Ledger held) (reuse : Bool) (h : 0 < tokens.length) :
    (a.matched tokens reuse).1.length * a.geometry.blockSize < tokens.length := by
  have hle : (a.matched tokens reuse).1.length ≤ (tokens.length - 1) / a.geometry.blockSize := by
    cases reuse with
    | false => exact Nat.zero_le _
    | true =>
      rw [← L.cacheSize]
      exact Nat.le_trans (PrefixCache.length_matchChain_le a.cache none _) (List.length_take_le _ _)
  have hmul := Nat.mul_le_of_le_div _ _ _ hle
  omega

/-- What is allocated beside the pinned prefix, together with it. -/
theorem Ledger.covers (L : a.Ledger held)
    (hn : (tokens.length + a.geometry.blockSize - 1) / a.geometry.blockSize
        - (a.matched tokens reuse).1.length ≤ (a.pinned tokens reuse).availableCount) :
    ∃ fresh grant a', Allocator.mallocWithCache tokens reuse a = .ok grant a' ∧
      Covers a tokens (a.matched tokens reuse).1 fresh grant a' := by
  have L₁ := L.pinned tokens reuse
  have hfit := length_matched_le (a := a) tokens reuse
  rw [L.cacheSize] at hfit
  obtain ⟨fresh, a', hok, -, H⟩ := L₁.malloc_ok hn
  obtain ⟨_, _, hok', A⟩ := L₁.malloc_allotted hn
  cases hok.symm.trans hok'
  have hcontent : (a.pinned tokens reuse).cache.content = a.cache.content :=
    a.content_matched tokens reuse
  -- an entry that is gone had the only reference on its block, beside the prefix
  have hgone : ∀ x ∈ a.cache.content, x ∉ a'.cache.content →
      a.pool.refsOf x.2.1 = 1 ∧ x.2.1 ∉ (a.matched tokens reuse).1 := by
    rintro ⟨k, b, t⟩ hx hnot
    obtain ⟨e, he, rfl, rfl⟩ := PrefixCache.mem_content.mp (hcontent ▸ hx)
    have hone := A.removes.once (k, e) he fun he' =>
      hnot (PrefixCache.mem_content.mpr ⟨e, he', rfl, rfl⟩)
    have hrefs := L.refsOf_pinned tokens reuse e.block
    rw [Pool.refsOf, hone, Option.getD_some] at hrefs
    have hpos := L.refsOf_pos_of_cached (PrefixCache.mem_blocks.mpr ⟨k, _, hx⟩)
    show a.pool.refsOf e.block = 1 ∧ e.block ∉ _
    rw [← List.count_eq_zero]
    omega
  refine ⟨fresh, _, a', mallocWithCache_of_malloc L hok, rfl, ?_, rfl,
    fun h => L.reused_lt reuse h, ?_, ?_, A.nodup, ?_, ?_, A.once, A.uncached⟩
  · show List.length (_ ++ fresh) = _
    rw [List.length_append, A.length, Nat.add_sub_cancel' hfit]
  · intro b hb
    rw [A.others b hb, L.refCount?_pinned]
  · intro x hx hmatched
    by_contra hnot
    exact (hgone x hx hnot).2 hmatched
  · -- nobody held a fresh block, so it was free or the cache alone referred to it
    intro b hb
    have hunheld := H.unheld b hb
    rw [List.mem_append, not_or] at hunheld
    have hbalance := L.balance b
    rw [List.count_eq_zero_of_not_mem hunheld.2, Nat.zero_add] at hbalance
    by_cases hcached : b ∈ a.cache.blocks
    · obtain ⟨k, t, hx⟩ := PrefixCache.mem_blocks.mp hcached
      have hone : a.pool.refsOf b = 1 := (hgone _ hx fun hx' =>
        A.uncached b hb (PrefixCache.mem_blocks.mpr ⟨k, t, hx'⟩)).1
      refine Or.inr ⟨?_, hcached⟩
      rw [Pool.refCount?_eq_some_refsOf (Pool.lt_total_of_refsOf (hone ▸ Nat.one_pos)), hone]
    · rw [List.count_eq_zero_of_not_mem hcached] at hbalance
      have hone := H.refsOf_eq_one hb
      obtain ⟨hpos, hlt⟩ := H.ledger.usable_of_refsOf (b := b) (by omega)
      refine Or.inl ((L.pool.mem_free b).mpr ⟨hpos, ?_, hbalance⟩)
      rw [L.total]
      exact H.shape.geometry ▸ hlt
  · intro b hb hmatched
    exact H.unheld b hb (List.mem_append_left held hmatched)

/-- Whatever honest clients have done, blocks for `tokens` cannot be had just if the free blocks
and the evictable ones beside the matched prefix are fewer than the tokens need beyond it.
Then the pool is as it was, and of the cache only the times of use of the matched entries have
changed.  Otherwise the tokens are covered. -/
theorem mallocWithCache_exact {hash : ChainHash} {g : Geometry} {start : Allocator}
    (hnew : newWith hash g = .ok start) {calls : List (Client × Call)}
    (hhonest : World.Honest ⟨start, []⟩ calls) (tokens : List UInt32) (reuse : Bool) :
    let a := (World.serveAll ⟨start, []⟩ calls).allocator
    let need := (tokens.length + a.geometry.blockSize - 1) / a.geometry.blockSize
    ∃ matched cache,
      (if reuse then a.cache.matchPrefix tokens else .ok ([], a.cache)) = .ok (matched, cache) ∧
      ((∃ e a', mallocWithCache tokens reuse a = .error e a') ↔
        a.pool.freeCount + a.evictableBeside matched < need - matched.length) ∧
      (∀ e a', mallocWithCache tokens reuse a = .error e a' →
        e = .error (.insufficientMemory (need - matched.length) a.pool.freeCount) ∧
        a' = { a with cache } ∧
        Refreshed ((chainHashes a.cache.hash none (fullBlocks a.geometry.blockSize tokens)).take
          matched.length) a.cache cache) ∧
      ∀ grant a', mallocWithCache tokens reuse a = .ok grant a' →
        ∃ fresh, Covers a tokens matched fresh grant a' := by
  intro a need
  obtain ⟨B, -⟩ := World.Books.serveAll (w := ⟨start, []⟩) (ledger_newWith hnew) hhonest
  have L : a.Ledger (World.serveAll ⟨start, []⟩ calls).blocks := B
  -- without reuse nothing is looked up, and the cache stays as it is
  have hlookup : (if reuse then a.cache.matchPrefix tokens else .ok ([], a.cache))
      = .ok (a.matched tokens reuse) := by
    cases reuse with
    | true => exact PrefixCache.matchPrefix_eq_ok (blockSize_ne_zero L) tokens
    | false => rfl
  have havail := L.availableCount_pinned tokens reuse
  refine ⟨(a.matched tokens reuse).1, (a.matched tokens reuse).2, hlookup, ?_⟩
  rcases Nat.lt_or_ge (a.pinned tokens reuse).availableCount
    (need - (a.matched tokens reuse).1.length) with hshort | henough
  · -- too few beside the pinned prefix
    have herr := mallocWithCache_short L hshort
    refine ⟨iff_of_true ⟨_, _, herr⟩ (havail ▸ hshort), ?_, ?_⟩
    · intro e a' he
      cases herr.symm.trans he
      exact ⟨rfl, rfl, L.cacheSize ▸ L.refreshed tokens reuse⟩
    · intro grant a' hok
      cases herr.symm.trans hok
  · -- enough
    obtain ⟨fresh, grant, a', hok, C⟩ := L.covers henough
    refine ⟨iff_of_false ?_ (havail ▸ Nat.not_lt.mpr henough), ?_, ?_⟩
    · rintro ⟨e, b, he⟩
      cases hok.symm.trans he
    · intro e b he
      cases hok.symm.trans he
    · intro grant' b hok'
      cases hok.symm.trans hok'
      exact ⟨fresh, C⟩

/-- One block of the prefix is in use and the other is evictable, but not for this prefix: of
nine tokens with this prefix the last five do not fit into the two free blocks, and four do. -/
theorem mallocWithCache_exact_sharing :
    ∃ start, newWith chainHash { blocks := 5, blockSize := 2 } = .ok start ∧
      World.Honest ⟨start, []⟩ World.sharing ∧
      let a := (World.serveAll ⟨start, []⟩ World.sharing).allocator
      a.availableCount = 3 ∧ a.evictableBeside [1, 2] = 0 ∧
      (∃ cache, mallocWithCache [1, 2, 3, 4, 5, 6, 7, 8, 9] true a
          = .error (.error (.insufficientMemory 3 2)) { a with cache } ∧
        Refreshed ((chainHashes a.cache.hash none
          (fullBlocks a.geometry.blockSize [1, 2, 3, 4, 5, 6, 7, 8, 9])).take 2) a.cache cache) ∧
      ∃ grant a' fresh, mallocWithCache [1, 2, 3, 4, 5, 6, 7, 8] true a = .ok grant a' ∧
        grant.ids = [1, 2, 3, 4] ∧ Covers a [1, 2, 3, 4, 5, 6, 7, 8] [1, 2] fresh grant a' := by
  have hrun : (newWith chainHash { blocks := 5, blockSize := 2 }).toOption.map
      (fun start =>
        let a := (World.serveAll ⟨start, []⟩ World.sharing).allocator
        (decide (World.Honest ⟨start, []⟩ World.sharing),
          [a.availableCount, a.pool.freeCount, a.evictableBeside [1, 2], a.geometry.blockSize],
          [(a.cache.matchPrefix [1, 2, 3, 4, 5, 6, 7, 8, 9]).toOption.map Prod.fst,
            (a.cache.matchPrefix [1, 2, 3, 4, 5, 6, 7, 8]).toOption.map Prod.fst],
          match mallocWithCache [1, 2, 3, 4, 5, 6, 7, 8] true a with
          | .ok grant _ => grant.ids
          | .error _ _ => []))
      = some (true, [3, 2, 0, 2], [some [1, 2], some [1, 2]], [1, 2, 3, 4]) := by decide +kernel
  obtain ⟨start, hnew, hfacts⟩ := exists_newWith hrun
  simp only [Prod.mk.injEq, decide_eq_true_eq, List.cons.injEq, and_true] at hfacts
  obtain ⟨hhonest, ⟨havail, hfree, hbeside, hsize⟩, ⟨hnine, height⟩, hids⟩ := hfacts
  refine ⟨start, hnew, hhonest, havail, hbeside, ?_, ?_⟩
  · obtain ⟨matched, cache, hlookup, hiff, herror, -⟩ :=
      mallocWithCache_exact hnew hhonest [1, 2, 3, 4, 5, 6, 7, 8, 9] true
    rw [if_pos rfl] at hlookup
    rw [hlookup] at hnine
    obtain rfl : matched = [1, 2] := Option.some.inj hnine
    obtain ⟨e, a', herr⟩ := hiff.mpr (by rw [hfree, hbeside, hsize]; decide)
    obtain ⟨rfl, rfl, R⟩ := herror e a' herr
    refine ⟨cache, ?_, R⟩
    rw [hfree, hsize] at herr
    exact herr
  · obtain ⟨matched, cache, hlookup, hiff, -, hcovers⟩ :=
      mallocWithCache_exact hnew hhonest [1, 2, 3, 4, 5, 6, 7, 8] true
    rw [if_pos rfl] at hlookup
    rw [hlookup] at height
    obtain rfl : matched = [1, 2] := Option.some.inj height
    rcases hok : mallocWithCache [1, 2, 3, 4, 5, 6, 7, 8] true
      (World.serveAll ⟨start, []⟩ World.sharing).allocator with ⟨grant, a'⟩ | ⟨e, a'⟩
    · rw [hok] at hids
      obtain ⟨fresh, C⟩ := hcovers grant a' hok
      exact ⟨grant, a', fresh, rfl, hids, C⟩
    · rw [hok] at hids
      cases hids

/-! ### Reuse and memory -/

/-- The matched blocks count among those that the tokens need, but not among those that are
allocated for them. -/
theorem Ledger.available_mallocWithCache (L : a.Ledger held) {grant : Grant}
    (hok : Allocator.mallocWithCache tokens reuse a = .ok grant a') :
    a'.availableCount + (tokens.length + a.geometry.blockSize - 1) / a.geometry.blockSize
        = (a.pinned tokens reuse).availableCount + (a.matched tokens reuse).1.length ∧
      grant.ids.length = (tokens.length + a.geometry.blockSize - 1) / a.geometry.blockSize := by
  have L₁ := L.pinned tokens reuse
  have hfit := length_matched_le (a := a) tokens reuse
  rw [L.cacheSize] at hfit
  rcases Nat.lt_or_ge (a.pinned tokens reuse).availableCount
    ((tokens.length + a.geometry.blockSize - 1) / a.geometry.blockSize
      - (a.matched tokens reuse).1.length) with hshort | henough
  · cases (mallocWithCache_short L hshort).symm.trans hok
  · -- the matched prefix is pinned before the rest is allocated
    obtain ⟨fresh, b, hmalloc, hlength, -⟩ := L₁.malloc_ok henough
    cases (mallocWithCache_of_malloc L hmalloc).symm.trans hok
    have hleft := L₁.available_malloc henough hmalloc
    refine ⟨by omega, ?_⟩
    show List.length (_ ++ fresh) = _
    rw [List.length_append, hlength, Nat.add_sub_cancel' hfit]

/-- Whatever honest clients have done: if blocks for `tokens` can be had without reuse, they can
be had with it, they are as many, and at least as many blocks are available afterwards. -/
theorem reuse_costs_nothing {hash : ChainHash} {g : Geometry} {start : Allocator}
    (hnew : newWith hash g = .ok start) {calls : List (Client × Call)}
    (hhonest : World.Honest ⟨start, []⟩ calls) {tokens : List UInt32} {plain : Grant}
    {a₁ : Allocator}
    (hplain : mallocWithCache tokens false (World.serveAll ⟨start, []⟩ calls).allocator
      = .ok plain a₁) :
    let a := (World.serveAll ⟨start, []⟩ calls).allocator
    let need := (tokens.length + a.geometry.blockSize - 1) / a.geometry.blockSize
    ∃ grant a₂, mallocWithCache tokens true a = .ok grant a₂ ∧
      plain.ids.length = need ∧ grant.ids.length = need ∧
      a₁.availableCount ≤ a₂.availableCount := by
  intro a need
  obtain ⟨B, -⟩ := World.Books.serveAll (w := ⟨start, []⟩) (ledger_newWith hnew) hhonest
  have L : a.Ledger (World.serveAll ⟨start, []⟩ calls).blocks := B
  obtain ⟨hleft, hlength⟩ := L.available_mallocWithCache hplain
  -- without reuse nothing is pinned
  have hleft : a₁.availableCount + need = a.availableCount := hleft
  have hpinned : a.availableCount
      ≤ (a.pinned tokens true).availableCount + (a.matched tokens true).1.length := by
    have hle := L.evictableCount_le (a.matched tokens true).1
    rw [L.availableCount_pinned, availableCount]
    omega
  have hbeside : need - (a.matched tokens true).1.length ≤ (a.pinned tokens true).availableCount := by
    omega
  obtain ⟨fresh, grant, a₂, hok, -⟩ := L.covers hbeside
  obtain ⟨hleft₂, hlength₂⟩ := L.available_mallocWithCache hok
  have hleft₂ : a₂.availableCount + need
      = (a.pinned tokens true).availableCount + (a.matched tokens true).1.length := hleft₂
  exact ⟨grant, a₂, hok, hlength, hlength₂, by omega⟩

/-- Three blocks are available and three are needed.  Without reuse none is left; with reuse one
is left, since one of the blocks of the prefix was in use anyway. -/
theorem reuse_costs_nothing_sharing :
    ∃ start, newWith chainHash { blocks := 5, blockSize := 2 } = .ok start ∧
      World.Honest ⟨start, []⟩ World.sharing ∧
      let a := (World.serveAll ⟨start, []⟩ World.sharing).allocator
      ∃ plain a₁ grant a₂, mallocWithCache [1, 2, 3, 4, 5] false a = .ok plain a₁ ∧
        mallocWithCache [1, 2, 3, 4, 5] true a = .ok grant a₂ ∧
        plain.ids.length = 3 ∧ grant.ids.length = 3 ∧
        a₁.availableCount = 0 ∧ a₁.availableCount ≤ a₂.availableCount := by
  have hrun : (newWith chainHash { blocks := 5, blockSize := 2 }).toOption.map
      (fun start =>
        let a := (World.serveAll ⟨start, []⟩ World.sharing).allocator
        (decide (World.Honest ⟨start, []⟩ World.sharing), a.geometry.blockSize,
          match mallocWithCache [1, 2, 3, 4, 5] false a with
          | .ok _ a' => some a'.availableCount
          | .error _ _ => none))
      = some (true, 2, some 0) := by decide +kernel
  obtain ⟨start, hnew, hfacts⟩ := exists_newWith hrun
  simp only [Prod.mk.injEq, decide_eq_true_eq] at hfacts
  obtain ⟨hhonest, hsize, hleft⟩ := hfacts
  refine ⟨start, hnew, hhonest, ?_⟩
  rcases hplain : mallocWithCache [1, 2, 3, 4, 5] false
    (World.serveAll ⟨start, []⟩ World.sharing).allocator with ⟨plain, a₁⟩ | ⟨e, a'⟩
  · rw [hplain] at hleft
    obtain ⟨grant, a₂, hok, hlength, hlength₂, hle⟩ := reuse_costs_nothing hnew hhonest hplain
    rw [hsize] at hlength hlength₂
    exact ⟨plain, a₁, grant, a₂, hplain, hok, hlength, hlength₂, Option.some.inj hleft, hle⟩
  · rw [hplain] at hleft
    cases hleft

end Allocator

end PagedServe
