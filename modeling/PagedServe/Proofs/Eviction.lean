/-
PagedServe/Proofs/Eviction.lean

What `malloc` takes from the prefix cache, and when.

`malloc` counts the entries that could be evicted before it evicts the first of them, and
the eviction loop judges the entries anew after every block that it has freed.  The two
agree: the entry that goes has the only reference to its block, so no other entry becomes
evictable or ceases to be.

`Removes a n a'` says what a loop of `n` rounds has done to the cache: `n` entries are gone,
all of them evictable before, and every evictable entry that is left was used later than
each of them.  It is shown for one round (`Ledger.removesOne`) and carried along the loop
(`Removes.trans`, `Ledger.evict_removes`).

Main statement: for honest clients `malloc n` succeeds just if `n` blocks are available;
a failure changes nothing, and a success removes as many entries as free blocks were
lacking and changes no references but those on the blocks handed out (`malloc_exact`).
-/
import PagedServe.Proofs.Clients

namespace PagedServe

namespace Allocator

variable {a a₁ a₂ : Allocator} {held : List Nat} {n m : Nat}

/-- `a'` is `a` after `n` entries were evicted, the least recently used ones of those whose
block had one reference. -/
structure Removes (a : Allocator) (n : Nat) (a' : Allocator) : Prop where
  size : a'.cache.size + n = a.cache.size
  kept : a'.cache.entries.Sublist a.cache.entries
  order : a'.cache.recency.Sublist a.cache.recency
  once : ∀ x ∈ a.cache.entries, x ∉ a'.cache.entries → a.pool.refCount? x.2.block = some 1
  oldest : ∀ x ∈ a.cache.entries, x ∉ a'.cache.entries → ∀ y ∈ a'.cache.entries,
    a.pool.refCount? y.2.block = some 1 → x.2.lastUsed < y.2.lastUsed
  rest : a' = { a with
    pool := a'.pool
    cache := { a.cache with entries := a'.cache.entries, recency := a'.cache.recency } }

theorem Removes.refl (a : Allocator) : Removes a 0 a where
  size := rfl
  kept := List.Sublist.refl _
  order := List.Sublist.refl _
  once := fun _ hx hgone => absurd hx hgone
  oldest := fun _ hx hgone => absurd hx hgone
  rest := rfl

theorem Removes.geometry_eq (R : Removes a n a₁) : a₁.geometry = a.geometry := by
  rw [R.rest]

/-- `Removes` speaks of the cache; the pool may go on. -/
theorem Removes.setPool (R : Removes a n a₁) (p : Pool) : Removes a n { a₁ with pool := p } where
  size := R.size
  kept := R.kept
  order := R.order
  once := R.once
  oldest := R.oldest
  rest := congrArg (fun b : Allocator => { b with pool := p }) R.rest

/-- Two stretches of evictions make one, if the first one leaves the references on the
remaining entries' blocks alone. -/
theorem Removes.trans (R : Removes a m a₁) (R' : Removes a₁ n a₂)
    (hsame : ∀ x ∈ a₁.cache.entries, a₁.pool.refCount? x.2.block = a.pool.refCount? x.2.block) :
    Removes a (m + n) a₂ where
  size := by
    have hsize := R.size
    have hsize' := R'.size
    omega
  kept := R'.kept.trans R.kept
  order := R'.order.trans R.order
  once := by
    intro x hx hgone
    by_cases hx₁ : x ∈ a₁.cache.entries
    · rw [← hsame x hx₁]
      exact R'.once x hx₁ hgone
    · exact R.once x hx hx₁
  oldest := by
    -- an entry of the second stretch counts references as the first left them
    intro x hx hgone y hy hone
    have hy₁ : y ∈ a₁.cache.entries := R'.kept.subset hy
    by_cases hx₁ : x ∈ a₁.cache.entries
    · rw [← hsame y hy₁] at hone
      exact R'.oldest x hx₁ hgone y hy hone
    · exact R.oldest x hx hx₁ y hy₁ hone
  rest := by
    have hrest := R'.rest
    rw [R.rest] at hrest
    exact hrest

/-! ### The loop -/

/-- One round evicts the oldest evictable entry and takes the reference from its block. -/
theorem Ledger.removesOne (L : a.Ledger held) {b : Nat} {c' : PrefixCache}
    (hp : a.cache.popLru a.cachedOnly = .ok (some (b, c'))) :
    let a₁ := { a with cache := c', pool := (a.pool.release [b]).2 }
    Removes a 1 a₁ ∧ a₁.Ledger held ∧ a₁.evictableCount + 1 = a.evictableCount ∧
      ∀ d, a₁.pool.refsOf d ≠ 0 → a₁.pool.refsOf d = a.pool.refsOf d := by
  intro a₁
  obtain ⟨h, e, he, rfl, htest, rfl, holdest⟩ := L.index.popLru_oldest hp
  have hl : (e.lastUsed, h) ∈ a.cache.recency := (L.index.lines _ _).mpr ⟨e, he, rfl⟩
  obtain ⟨L₁, hcount, -⟩ := L.evictOne hl he (cachedOnly_eq_true.mp htest)
  have hmem : ∀ x, x ∈ a₁.cache.entries ↔ x ∈ a.cache.entries ∧ x.1 ≠ h := by
    intro x
    exact List.mem_filter.trans (and_congr_right fun _ => decide_eq_true_iff)
  -- the entry of that name is the only one that goes
  have hgone : ∀ x ∈ a.cache.entries, x ∉ a₁.cache.entries → x = (h, e) := by
    rintro ⟨k, v⟩ hx hnot
    have hk : k = h := by
      by_contra hk
      exact hnot ((hmem _).mpr ⟨hx, hk⟩)
    subst hk
    rw [L.index.entry_unique hx he]
  refine ⟨⟨?_, List.filter_sublist, List.filter_sublist, ?_, ?_, rfl⟩, L₁, hcount, ?_⟩
  · have hlength := (L.index.blocks_remove he e.lastUsed).length_eq
    rw [List.length_cons, PrefixCache.blocks, PrefixCache.blocks, List.length_map,
      List.length_map] at hlength
    exact hlength.symm
  · intro x hx hnot
    rw [hgone x hx hnot]
    exact beq_iff_eq.mp htest
  · intro x hx hnot y hy hone
    obtain ⟨hy, hname⟩ := (hmem y).mp hy
    have hle := holdest y hy (beq_iff_eq.mpr hone)
    rw [hgone x hx hnot]
    refine Nat.lt_of_le_of_ne hle fun heq => hname ?_
    have hly : (y.2.lastUsed, y.1) ∈ a.cache.recency := (L.index.lines _ _).mpr ⟨y.2, hy, rfl⟩
    exact L.index.line_unique (heq ▸ hly) hl
  · intro d hd
    have hrefs : a₁.pool.refsOf d = a.pool.refsOf d - [e.block].count d :=
      Pool.refsOf_release L.reserved _ d
    by_cases hde : d = e.block
    · subst hde
      rw [hrefs, cachedOnly_eq_true.mp htest, List.count_singleton_self] at hd
      exact absurd rfl hd
    · rw [hrefs, List.count_eq_zero_of_not_mem (fun hm => hde (List.mem_singleton.mp hm)),
        Nat.sub_zero]

/-- A loop of no more rounds than there are evictable entries removes one in each round, and
a block with references afterwards has all that it had. -/
theorem Ledger.evict_removes (L : a.Ledger held) (hn : n ≤ a.evictableCount)
    (hok : Allocator.evict n a = .ok () a₂) :
    Removes a n a₂ ∧ ∀ d, a₂.pool.refsOf d ≠ 0 → a₂.pool.refsOf d = a.pool.refsOf d := by
  induction n generalizing a with
  | zero =>
    cases hok
    exact ⟨.refl _, fun _ _ => rfl⟩
  | succ n ih =>
    rw [Allocator.evict] at hok
    rcases L.index.popLru a.cachedOnly with ⟨b, c', hp⟩ | ⟨-, hnone⟩
    · simp only [hp] at hok
      obtain ⟨R₁, L₁, hcount, hrefs⟩ := L.removesOne hp
      obtain ⟨R₂, hrefs₂⟩ := ih L₁ (by omega) hok
      refine ⟨Nat.add_comm 1 n ▸ R₁.trans R₂ fun x hx => ?_, fun d hd => ?_⟩
      · -- an entry that is left has a reference on its block, so the block lost none
        have hpos := L₁.refsOf_pos_of_cached (List.mem_map_of_mem hx)
        exact Pool.refCount?_congr (Pool.total_release _ _) (hrefs _ (Nat.pos_iff_ne_zero.mp hpos))
      · have hd₁ := hrefs₂ d hd
        rw [hd₁]
        exact hrefs d (hd₁ ▸ hd)
    · have hzero : a.evictableCount = 0 := by
        rw [evictableCount, List.filter_eq_nil_iff.mpr fun b hb => by rw [hnone b hb]; simp]
        rfl
      omega

/-! ### Allocation -/

/-- `a'` is `a` after `n` blocks were handed out and no more evicted than needed. -/
structure Allotted (a : Allocator) (n : Nat) (ids : List Nat) (a' : Allocator) : Prop where
  removes : Removes a (n - a.pool.freeCount) a'
  length : ids.length = n
  nodup : ids.Nodup
  nonzero : ∀ b ∈ ids, b ≠ 0
  once : ∀ b ∈ ids, a'.pool.refCount? b = some 1
  uncached : ∀ b ∈ ids, b ∉ a'.cache.blocks
  /-- Blocks that were evicted are among those handed out, so the others have what they
  had. -/
  others : ∀ b, b ∉ ids → a'.pool.refCount? b = a.pool.refCount? b

theorem Handed.refCount?_eq {ids : List Nat} (H : Handed a held ids a₁) {b : Nat}
    (hb : b ∈ ids) : a₁.pool.refCount? b = some 1 := by
  have hone := H.refsOf_eq_one hb
  rw [Pool.refCount?_eq_some_refsOf (Pool.lt_total_of_refsOf (by omega)), hone]

/-- The first `n` blocks of the free list, all of it if anything was evicted for them. -/
theorem Ledger.allotted (L : a.Ledger held) (L₁ : a₁.Ledger held) (hn : n ≤ a₁.pool.freeCount)
    (R : Removes a (n - a.pool.freeCount) a₁)
    (hrefs : ∀ b, b ∉ a₁.pool.free.take n → a₁.pool.refsOf b = a.pool.refsOf b) :
    Allotted a n (a₁.pool.free.take n) { a₁ with pool := a₁.pool.handOut n } := by
  have H := L₁.handOut n
  -- eviction frees blocks, and handing out counts on the listed ones only
  refine ⟨R.setPool _, List.length_take_of_le hn, H.nodup, ?_, fun b hb => H.refCount?_eq hb,
    H.uncached, ?_⟩
  · intro b hb
    exact Nat.pos_iff_ne_zero.mp (L₁.pool.inRange b (List.mem_of_mem_take hb)).1
  · intro b hb
    refine Pool.refCount?_congr ?_ ?_
    · rw [Pool.total_handOut, L₁.total, L.total, R.geometry_eq]
    · rw [L₁.pool.refsOf_handOut, List.count_eq_zero_of_not_mem hb, Nat.add_zero]
      exact hrefs b hb

/-- Available blocks can be had, at no higher cost than `Allotted` says. -/
theorem Ledger.malloc_allotted (L : a.Ledger held) (hn : n ≤ a.availableCount) :
    ∃ ids a', malloc n a = .ok ids a' ∧ Allotted a n ids a' := by
  rcases Nat.lt_or_ge a.pool.freeCount n with hshort | henough
  · have havail : a.availableCount = a.pool.freeCount + a.evictableCount := rfl
    have hfew : n - a.pool.freeCount ≤ a.evictableCount := by omega
    obtain ⟨a₁, hok, L₁, -, -, hfree, -⟩ := L.evict hfew
    obtain ⟨R, hrefs⟩ := L.evict_removes hfew hok
    have hall : a₁.pool.freeCount = n := by omega
    refine ⟨a₁.pool.free.take n, { a₁ with pool := a₁.pool.handOut n }, ?_,
      L.allotted L₁ (Nat.le_of_eq hall.symm) R fun b hb => ?_⟩
    · rw [malloc_of_evict L hshort hn, bind_of_ok hok]
      exact onPool_of_ok (L₁.pool.malloc_eq_ok (Nat.le_of_eq hall.symm))
    · -- all that eviction has freed is handed out
      rw [List.take_of_length_le (Nat.le_of_eq hall)] at hb
      by_cases hzero : a₁.pool.refsOf b = 0
      · rw [L₁.pool.mem_free, L₁.total, R.geometry_eq, and_iff_left hzero] at hb
        rw [hzero]
        by_contra hne
        exact hb (L.usable_of_refsOf (Nat.pos_of_ne_zero (Ne.symm hne)))
      · exact hrefs b hzero
  · refine ⟨_, _, malloc_of_free L henough, L.allotted L henough ?_ fun b _ => rfl⟩
    rw [Nat.sub_eq_zero_of_le henough]
    exact .refl a

/-- Whatever honest clients have done, `malloc n` succeeds just if `n` blocks are available.
If they are not, it says how many are free and changes nothing.  If they are, it removes one
evictable entry for each free block that is lacking, the least recently used ones first,
hands out `n` different blocks with one reference each which are not cached, and no other
block gains or loses a reference. -/
theorem malloc_exact {hash : ChainHash} {g : Geometry} {start : Allocator}
    (hnew : newWith hash g = .ok start) {calls : List (Client × Call)}
    (hhonest : World.Honest ⟨start, []⟩ calls) (n : Nat) :
    let a := (World.serveAll ⟨start, []⟩ calls).allocator
    ((∃ ids a', malloc n a = .ok ids a') ↔ n ≤ a.availableCount) ∧
    (∀ e a', malloc n a = .error e a' →
      e = .error (.insufficientMemory n a.pool.freeCount) ∧ a' = a) ∧
    ∀ ids a', malloc n a = .ok ids a' → Allotted a n ids a' := by
  intro a
  obtain ⟨B, -⟩ := World.Books.serveAll (w := ⟨start, []⟩) (ledger_newWith hnew) hhonest
  have L : a.Ledger (World.serveAll ⟨start, []⟩ calls).blocks := B
  rcases Nat.lt_or_ge a.availableCount n with hshort | henough
  · -- too few: no answer but the error
    have herr := malloc_short L hshort
    refine ⟨iff_of_false ?_ (Nat.not_le.mpr hshort), ?_, ?_⟩
    · rintro ⟨ids, a', hok⟩
      cases herr.symm.trans hok
    · intro e a' he
      cases herr.symm.trans he
      exact ⟨rfl, rfl⟩
    · intro ids a' hok
      cases herr.symm.trans hok
  · -- enough: no error
    obtain ⟨ids, a', hok, hallotted⟩ := L.malloc_allotted henough
    refine ⟨iff_of_true ⟨ids, a', hok⟩ henough, ?_, ?_⟩
    · intro e b he
      cases hok.symm.trans he
    · intro ids' b hok'
      cases hok.symm.trans hok'
      exact hallotted

/-- With two blocks free and one that only the cache refers to, three blocks cost this entry
and four are too many; the other entry shares its block with a client. -/
theorem malloc_exact_sharing :
    ∃ start, newWith chainHash { blocks := 5, blockSize := 2 } = .ok start ∧
      World.Honest ⟨start, []⟩ World.sharing ∧
      let a := (World.serveAll ⟨start, []⟩ World.sharing).allocator
      a.cache.blocks = [1, 2] ∧
      malloc 4 a = .error (.error (.insufficientMemory 4 2)) a ∧
      ∃ a', malloc 3 a = .ok [3, 4, 1] a' ∧ a'.cache.blocks = [2] ∧ Allotted a 3 [3, 4, 1] a' := by
  have hrun : (newWith chainHash { blocks := 5, blockSize := 2 }).toOption.map
      (fun start =>
        let a := (World.serveAll ⟨start, []⟩ World.sharing).allocator
        (decide (World.Honest ⟨start, []⟩ World.sharing), a.cache.blocks,
          [a.pool.freeCount, a.availableCount],
          match malloc 3 a with
          | .ok ids a' => [ids, a'.cache.blocks]
          | .error _ _ => []))
      = some (true, [1, 2], [2, 3], [[3, 4, 1], [2]]) := by decide +kernel
  obtain ⟨start, hnew, hfacts⟩ := exists_newWith hrun
  simp only [Prod.mk.injEq, decide_eq_true_eq, List.cons.injEq, and_true] at hfacts
  obtain ⟨hhonest, hcached, ⟨hfree, havail⟩, hthree⟩ := hfacts
  refine ⟨start, hnew, hhonest, hcached, ?_, ?_⟩
  · obtain ⟨hiff, herror, -⟩ := malloc_exact hnew hhonest 4
    rcases hfour : malloc 4 (World.serveAll ⟨start, []⟩ World.sharing).allocator
      with ⟨ids, a'⟩ | ⟨e, a'⟩
    · have hle := hiff.mp ⟨ids, a', hfour⟩
      omega
    · obtain ⟨he, ha'⟩ := herror e a' hfour
      rw [he, ha', hfree]
  · obtain ⟨-, -, hallotted⟩ := malloc_exact hnew hhonest 3
    rcases hok : malloc 3 (World.serveAll ⟨start, []⟩ World.sharing).allocator
      with ⟨ids, a'⟩ | ⟨e, a'⟩
    · rw [hok] at hthree
      simp only [List.cons.injEq, and_true] at hthree
      obtain ⟨rfl, hblocks⟩ := hthree
      exact ⟨a', rfl, hblocks, hallotted _ a' hok⟩
    · rw [hok] at hthree
      cases hthree

end Allocator

end PagedServe
