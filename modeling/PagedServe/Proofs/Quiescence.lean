/-
PagedServe/Proofs/Quiescence.lean

Nothing leaks when nothing runs.

Once the batch is empty nobody holds a block, and the references of the pool are those of
the cache alone.  That each cached block then has a single reference is more than the books
say: two entries for one block would leave it with two references and no holder, and it
could never be evicted.  No block is cached twice because all references to a shared block
bear one name (`Named.nodup_blocks`), however hashes collide.

`AtRest` says what the memory looks like then: every usable block is on the free list or
in one entry, all of them are available, and clearing the cache frees them all
(`Ledger.atRest`).

Main statement: so it is after every tick that leaves no batch, in the runs of a scheduler
and in those of an engine with any executor (`quiescence_leaks_nothing`).
-/
import PagedServe.Proofs.EngineRuns

namespace PagedServe

namespace Allocator

variable {a : Allocator}

/-- The block is on the free list once, without references and without entry. -/
structure Idle (a : Allocator) (b : Nat) : Prop where
  listed : a.pool.free.count b = 1
  uncached : b ∉ a.cache.blocks
  refs : a.pool.refCount? b = some 0

/-- The block has one entry, and its reference is the only one. -/
structure Kept (a : Allocator) (b : Nat) : Prop where
  unlisted : b ∉ a.pool.free
  cached : a.cache.blocks.count b = 1
  refs : a.pool.refCount? b = some 1

/-- Every usable block is free or kept by the cache, and can be had. -/
structure AtRest (a : Allocator) : Prop where
  each : ∀ b, 0 < b → b < a.geometry.blocks → a.Idle b ∨ a.Kept b
  total : a.pool.freeCount + a.cache.size = a.pool.usable
  available : a.availableCount = a.pool.usable
  clears : ∀ order, ∃ n a', clearCache order a = .ok n a' ∧ a'.cache.size = 0 ∧
    a'.pool.freeCount = a.pool.usable ∧ ∀ b, 0 < b → b < a.geometry.blocks → a'.Idle b

/-- A block that nobody holds is free, or the cache has it. -/
theorem Ledger.idle_or_kept (L : a.Ledger []) (hd : a.cache.blocks.Nodup) {b : Nat} (hpos : 0 < b)
    (hlt : b < a.geometry.blocks) : a.Idle b ∨ a.Kept b := by
  have hin : b < a.pool.total := L.total ▸ hlt
  have hfree := L.pool.mem_free b
  have hbalance := L.balance b
  rw [List.count_nil, Nat.zero_add] at hbalance
  have hcount := Pool.refCount?_eq_some_refsOf hin
  by_cases hcached : b ∈ a.cache.blocks
  · have hone := List.count_eq_one_of_mem hd hcached
    rw [hone] at hbalance
    refine Or.inr ⟨fun hmem => ?_, hone, hbalance ▸ hcount⟩
    have hzero := (hfree.mp hmem).2.2
    omega
  · rw [List.count_eq_zero_of_not_mem hcached] at hbalance
    have hmem := hfree.mpr ⟨hpos, hin, hbalance⟩
    exact Or.inl ⟨List.count_eq_one_of_mem L.pool.nodup hmem, hcached, hbalance ▸ hcount⟩

/-- Free list and cache share the usable blocks out between them. -/
theorem Ledger.free_add_size (L : a.Ledger []) (hd : a.cache.blocks.Nodup) :
    a.pool.freeCount + a.cache.size = a.pool.usable := by
  -- without holders a block is free, or cached and not free
  have hsame : ∀ b, b ∈ a.pool.free ++ a.cache.blocks ↔ b ∈ List.range' 1 a.pool.usable := by
    intro b
    rw [List.mem_append, List.mem_range'_1, L.usable_eq]
    constructor
    · intro hb
      have hin : 0 < b ∧ b < a.geometry.blocks := by
        rcases hb with hb | hb
        · exact L.total ▸ L.pool.inRange b hb
        · exact L.usable_of_refsOf (L.refsOf_pos_of_cached hb)
      omega
    · intro hb
      rcases L.idle_or_kept hd (b := b) (by omega) (by omega) with hidle | hkept
      · exact Or.inl (List.count_pos_iff.mp (by rw [hidle.listed]; exact Nat.one_pos))
      · exact Or.inr (List.count_pos_iff.mp (by rw [hkept.cached]; exact Nat.one_pos))
  have hapart : a.pool.free.Disjoint a.cache.blocks := by
    intro b hfree hcached
    have hzero := ((L.pool.mem_free b).mp hfree).2.2
    have hpos := L.refsOf_pos_of_cached hcached
    omega
  have hperm := (List.perm_ext_iff_of_nodup (L.pool.nodup.append hd hapart)
    List.nodup_range').mpr hsame
  have hlength := hperm.length_eq
  rw [List.length_append, List.length_range', PrefixCache.blocks, List.length_map] at hlength
  exact hlength

/-- Memory that nobody holds blocks of is at rest, if no block is cached twice. -/
theorem Ledger.atRest (L : a.Ledger []) (hd : a.cache.blocks.Nodup) : a.AtRest := by
  have htotal := L.free_add_size hd
  refine ⟨fun b hpos hlt => L.idle_or_kept hd hpos hlt, htotal, ?_, fun order => ?_⟩
  · -- all that is cached can be evicted
    have hall : a.cache.blocks.filter a.cachedOnly = a.cache.blocks := by
      refine List.filter_eq_self.mpr fun b hb => cachedOnly_eq_true.mpr ?_
      rw [L.balance, List.count_nil, List.count_eq_one_of_mem hd hb]
    rw [availableCount, evictableCount, hall, PrefixCache.blocks, List.length_map]
    exact htotal
  · obtain ⟨n, a', hok, N, hempty⟩ := L.clearCache order
    have hnone : a'.cache.blocks = [] := by
      rw [PrefixCache.blocks_eq_content, hempty]
      rfl
    have hsize : a'.cache.size = 0 := by
      rw [PrefixCache.size, ← List.length_map fun x : UInt64 × CacheEntry => x.2.block]
      exact congrArg List.length hnone
    have hd' : a'.cache.blocks.Nodup := hnone ▸ List.nodup_nil
    have hfree := N.ledger.free_add_size hd'
    rw [hsize, N.ledger.usable_eq, N.shape.geometry, ← L.usable_eq] at hfree
    refine ⟨n, a', hok, hsize, hfree, fun b hpos hlt => ?_⟩
    refine (N.ledger.idle_or_kept hd' hpos (N.shape.geometry ▸ hlt)).resolve_right fun hkept => ?_
    have hone := hkept.cached
    rw [hnone, List.count_nil] at hone
    exact absurd hone Nat.zero_ne_one

end Allocator

namespace Scheduler

open Allocator (exists_newWith)

variable {s : Scheduler}

/-- No block is cached twice, neither now nor after a tick, and a tick that leaves no batch
leaves the memory at rest. -/
structure Leakless (s : Scheduler) : Prop where
  once : s.allocator.cache.blocks.Nodup
  ticks : ∃ s', schedule s = .ok s'.running s' ∧ s'.allocator.cache.blocks.Nodup ∧
    (s'.running = [] → s'.allocator.AtRest)

/-- Without a batch nobody holds a block. -/
theorem Books.atRest (B : s.Books) (N : s.Named) (hempty : s.running = []) :
    s.allocator.AtRest := by
  have hnone : s.heldBlocks = [] := by
    rw [heldBlocks, hempty]
    rfl
  exact (hnone ▸ B.ledger).atRest (N.nodup_blocks B)

theorem Books.leakless (B : s.Books) (N : s.Named) : s.Leakless := by
  obtain ⟨s₁, s₂, s₃, s', hok, T⟩ := schedule_tick B
  obtain ⟨B', N'⟩ := T.moves.keeps (P := Named) (fun hstep B N => hstep.named B N) B N
  exact ⟨N.nodup_blocks B, s', hok, N'.nodup_blocks B', B'.atRest N'⟩

/-- At any point of any run of a scheduler, or of an engine with any executor, no block is
cached twice; and after a tick that leaves no batch every usable block is free or has one
reference, that of its one entry, all of them are available, and clearing the cache frees
every one. -/
theorem quiescence_leaks_nothing {hash : ChainHash} {g : Geometry} {a : Allocator}
    (hnew : Allocator.newWith hash g = .ok a) (admission : Admission) :
    (∀ events, (play (start admission a) events).Leakless) ∧
    ∀ executor history, Engine.Sole history →
      ((Engine.ofScheduler (start admission a) executor).after history).scheduler.Leakless := by
  refine ⟨fun events => ?_, fun executor history hsole => ?_⟩
  · exact (books_play hnew admission events).leakless (named_play hnew admission events)
  · obtain ⟨B, N⟩ := Engine.after_keeps
      (e := Engine.ofScheduler (start admission a) executor) (P := Named)
      (fun hstep B N => hstep.named B N) (books_start hnew admission) (named_start admission hnew)
      hsole
    exact B.leakless N

/-- A stream of five tokens runs and finishes; the next tick publishes its full blocks. -/
def finishedRun : List Event :=
  [.register 1 { input := [1, 2, 3, 4, 5] }, .call 0 (.setReuse true), .enqueue 0, .schedule,
    .call 0 .finish]

/-- That tick leaves no batch, two blocks in the cache and two free ones.  The four can be
had, and are free once the cache is cleared. -/
theorem quiescence_leaks_nothing_finished :
    ∃ a, Allocator.newWith chainHash { blocks := 5, blockSize := 2 } = .ok a ∧
      ∃ s', schedule (play (start {} a) finishedRun) = .ok [] s' ∧
        s'.allocator.cache.blocks = [1, 2] ∧ s'.allocator.pool.free = [4, 3] ∧
        s'.allocator.AtRest := by
  have hrun : (Allocator.newWith chainHash { blocks := 5, blockSize := 2 }).toOption.map
      (fun a =>
        let s' := stateAfter schedule (play (start {} a) finishedRun)
        (s'.running, s'.allocator.cache.blocks, s'.allocator.pool.free))
      = some ([], [1, 2], [4, 3]) := by decide +kernel
  obtain ⟨a, hnew, hfacts⟩ := exists_newWith hrun
  obtain ⟨-, s', hok, -, hrest⟩ := (quiescence_leaks_nothing hnew {}).1 finishedRun
  rw [stateAfter_of_ok hok] at hfacts
  simp only [Prod.mk.injEq] at hfacts
  obtain ⟨hbatch, hcached, hfree⟩ := hfacts
  exact ⟨a, hnew, s', hbatch ▸ hok, hcached, hfree, hrest hbatch⟩

end Scheduler

end PagedServe
