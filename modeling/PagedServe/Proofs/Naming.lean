/-
PagedServe/Proofs/Naming.lean

A block that is referenced more than once has one name.

A place in a table is named by the chained hash of the stream's tokens up to it,
and an entry of the cache by its hash.  Blocks come to be shared by a match, which
finds a place's name among the entries, or by a commit, which gives an entry the
name of a place.  So all references to a shared block bear the same name
(`Named`); nothing is said of blocks with a single reference.  Hashes may collide
as they like.

It follows that no block is cached twice (`Named.nodup_blocks`).
-/
import PagedServe.Proofs.Runs
import Mathlib.Data.List.Flatten

namespace PagedServe

namespace Scheduler

open Allocator (Neutral Committed Granted)

variable {s s' : Scheduler} {h k : Handle}

/-! ### References one by one -/

/-- Two items that count as one are the same. -/
theorem eq_of_count_map_le {α : Type} {f : α → Nat} {l : List α} {b : Nat}
    (hc : (l.map f).count b ≤ 1) {x y : α} (hx : x ∈ l) (hy : y ∈ l) (hfx : f x = b)
    (hfy : f y = b) : x = y := by
  obtain ⟨l₁, l₂, rfl⟩ := List.append_of_mem hx
  rw [List.map_append, List.map_cons, List.count_append, List.count_cons, hfx] at hc
  have hother : ∀ l : List α, y ∈ l → 0 < (l.map f).count b := fun l hl =>
    List.count_pos_iff.mpr (List.mem_map.mpr ⟨y, hl, hfy⟩)
  simp only [beq_self_eq_true, if_true] at hc
  -- anywhere but at the place of `x`, the other one would be counted as well
  rcases List.mem_append.mp hy with hy | hy
  · have := hother l₁ hy
    omega
  · rcases List.mem_cons.mp hy with rfl | hy
    · rfl
    · have := hother l₂ hy
      omega

/-- The places in the tables of the running streams: handle, index and block. -/
def places (s : Scheduler) : List (Handle × Nat × Nat) :=
  s.running.flatMap fun h => (s.blocksOf h).zipIdx.map fun (b, i) => (h, i, b)

theorem mem_places {i b : Nat} :
    (h, i, b) ∈ s.places ↔ h ∈ s.running ∧ (s.blocksOf h)[i]? = some b := by
  simp only [places, List.mem_flatMap, List.mem_map, Prod.mk.injEq, Prod.exists]
  constructor
  · rintro ⟨h, hh, b, i, hb, rfl, rfl, rfl⟩
    exact ⟨hh, List.mem_zipIdx_iff_getElem?.mp hb⟩
  · rintro ⟨hh, hb⟩
    exact ⟨h, hh, b, i, List.mem_zipIdx_iff_getElem?.mpr hb, rfl, rfl, rfl⟩

theorem heldBlocks_eq_places (s : Scheduler) : s.heldBlocks = s.places.map fun p => p.2.2 := by
  rw [heldBlocks, places, List.map_flatMap]
  apply List.flatMap_congr
  intro h _
  rw [List.map_map]
  exact (List.zipIdx_map_fst 0 (s.blocksOf h)).symm

/-- The name of a place, if the stream has tokens for all of it. -/
def nameAt (s : Scheduler) (h : Handle) (i : Nat) : Option UInt64 :=
  (chainHashes s.allocator.cache.hash none (fullBlocks s.blockSize (s.stream h).tokens))[i]?

/-! ### Shared blocks have one name -/

/-- All references to the block bear this name. -/
structure NamedBy (s : Scheduler) (b : Nat) (n : UInt64) : Prop where
  entries : ∀ k t, (k, b, t) ∈ s.allocator.cache.content → k = n
  places : ∀ h i, (h, i, b) ∈ s.places → s.nameAt h i = some n

/-- Blocks with several references have one name. -/
def Named (s : Scheduler) : Prop :=
  ∀ b, 1 < s.allocator.pool.refsOf b → ∃ n, s.NamedBy b n

/-- No block is cached twice. -/
theorem Named.nodup_blocks (N : s.Named) (B : s.Books) : s.allocator.cache.blocks.Nodup := by
  have hkeys : (s.allocator.cache.content.map Prod.fst).Nodup := by
    have hsame : s.allocator.cache.content.map Prod.fst
        = s.allocator.cache.entries.map Prod.fst := by
      rw [PrefixCache.content, List.map_map]
      rfl
    rw [hsame]
    exact B.ledger.index.keys
  rw [PrefixCache.blocks_eq_content]
  refine (List.nodup_map_iff_inj_on hkeys.of_map).mpr ?_
  rintro ⟨k, b, t⟩ hx ⟨k', b', t'⟩ hy hbb
  obtain rfl : b = b' := hbb
  -- two entries of a block are two references, and so would have the same name
  by_cases hone : (s.allocator.cache.content.map fun x => x.2.1).count b ≤ 1
  · exact eq_of_count_map_le hone hx hy rfl rfl
  · have hshared : 1 < s.allocator.pool.refsOf b := by
      rw [B.ledger.balance, PrefixCache.blocks_eq_content]
      omega
    obtain ⟨n, hn⟩ := N b hshared
    have hname : k = k' := (hn.entries k t hx).trans (hn.entries k' t' hy).symm
    exact List.inj_on_of_nodup_map hkeys hx hy hname

/-! ### Names last -/

/-- A named place keeps its name while tokens are added. -/
theorem nameAt_of_tokens (B : s.Books) (hshape : Allocator.SameShape s.allocator s'.allocator)
    (htokens : ∃ more, (s'.stream h).tokens = (s.stream h).tokens ++ more) {i : Nat}
    {n : UInt64} (hn : s.nameAt h i = some n) : s'.nameAt h i = some n := by
  obtain ⟨more, htokens⟩ := htokens
  have hsize : s'.blockSize = s.blockSize := congrArg Geometry.blockSize hshape.geometry
  rw [nameAt, hshape.hash, hsize, htokens]
  exact chainHashes_append B.blockSize_pos more hn

/-- A stream with the same tokens has the same names. -/
theorem nameAt_of_same (B : s.Books) (hshape : Allocator.SameShape s.allocator s'.allocator)
    (hsame : (s'.stream h).tokens = (s.stream h).tokens) {i : Nat} {n : UInt64}
    (hn : s.nameAt h i = some n) : s'.nameAt h i = some n :=
  nameAt_of_tokens B hshape ⟨[], by rw [hsame, List.append_nil]⟩ hn

/-- Streams leave, tokens are added and entries are evicted: names last. -/
theorem Named.keep (N : s.Named) (B : s.Books) (B' : s'.Books)
    (hrun : s'.running.Sublist s.running)
    (hsame : ∀ h ∈ s'.running, s'.blocksOf h = s.blocksOf h)
    (htokens : ∀ h ∈ s'.running, ∃ more, (s'.stream h).tokens = (s.stream h).tokens ++ more)
    (hshape : Allocator.SameShape s.allocator s'.allocator)
    (hcontent : s'.allocator.cache.content.Sublist s.allocator.cache.content) : s'.Named := by
  have hheld : s'.heldBlocks.Sublist s.heldBlocks := by
    rw [heldBlocks, List.flatMap_congr hsame]
    exact hrun.flatMap _
  intro b hb
  -- no block gains references, so one that is shared now was shared before and has a name
  have hless : s'.allocator.pool.refsOf b ≤ s.allocator.pool.refsOf b := by
    have h₁ := hheld.count_le b
    have h₂ := (hcontent.map fun x => x.2.1).count_le b
    rw [B.ledger.balance, B'.ledger.balance, PrefixCache.blocks_eq_content,
      PrefixCache.blocks_eq_content]
    omega
  obtain ⟨n, hn⟩ := N b (Nat.lt_of_lt_of_le hb hless)
  refine ⟨n, fun k t hk => hn.entries k t (hcontent.subset hk), fun h i hi => ?_⟩
  obtain ⟨hh, hblock⟩ := mem_places.mp hi
  rw [hsame h hh] at hblock
  have hplace : (h, i, b) ∈ s.places := mem_places.mpr ⟨hrun.subset hh, hblock⟩
  exact nameAt_of_tokens B hshape (htokens h hh) (hn.places h i hplace)

/-- No stream of the batch is touched. -/
theorem Named.frame (N : s.Named) (B : s.Books) (B' : s'.Books) (hrun : s'.running = s.running)
    (hstream : ∀ h ∈ s.running, s'.stream h = s.stream h)
    (hshape : Allocator.SameShape s.allocator s'.allocator)
    (hcontent : s'.allocator.cache.content.Sublist s.allocator.cache.content) : s'.Named := by
  have hsame : ∀ h ∈ s'.running, s'.stream h = s.stream h := fun h hh => hstream h (hrun ▸ hh)
  refine N.keep B B' (hrun ▸ List.Sublist.refl _) (fun h hh => ?_) (fun h hh => ⟨[], ?_⟩) hshape
    hcontent
  · rw [blocksOf, hsame h hh]
    rfl
  · rw [hsame h hh, List.append_nil]

/-! ### Names are handed on -/

/-- The name under which a stream commits a block is the name of the block's place. -/
theorem nameAt_of_commit (B : s.Books) (hrun : h ∈ s.running) {i : Nat} {k : UInt64}
    (hk : (chainHashes s.allocator.cache.hash none
      (fullBlocks s.allocator.geometry.blockSize (s.stream h).fullTokens))[i]? = some k) :
    s.nameAt h i = some k := by
  rw [Stream.fullTokens, B.tables h hrun] at hk
  exact chainHashes_of_take B.blockSize_pos hk

/-- A commit names a block that had no name, or repeats the name it had. -/
theorem Named.commit (N : s.Named) (B : s.Books) (hrun : h ∈ s.running) {held ids : List Nat}
    {a : Allocator} (ha : Committed s.allocator held (s.stream h).fullTokens ids a)
    (hids : ∀ i b : Nat, ids[i]? = some b → (s.blocksOf h)[i]? = some b)
    (hheld : ∀ b, held.count b ≤ s.heldBlocks.count b) {b : Nat} (hb : 1 < a.pool.refsOf b) :
    ∃ n, (∀ k t, (k, b, t) ∈ a.cache.content → k = n) ∧
      ∀ h i, (h, i, b) ∈ s.places → s.nameAt h i = some n := by
  obtain ⟨added, hcontent, hplace⟩ := ha.content
  have hnew : ∀ k t, (k, b, t) ∈ added →
      ∃ i, (h, i, b) ∈ s.places ∧ s.nameAt h i = some k := by
    intro k t hx
    obtain ⟨i, hi, -, hk⟩ := hplace k b t hx
    exact ⟨i, mem_places.mpr ⟨hrun, hids i b hi⟩, nameAt_of_commit B hrun hk⟩
  have hrefs : s.allocator.pool.refsOf b
      = (s.places.map fun p => p.2.2).count b + s.allocator.cache.blocks.count b := by
    rw [B.ledger.balance, heldBlocks_eq_places]
  by_cases hshared : 1 < s.allocator.pool.refsOf b
  · obtain ⟨n, hn⟩ := N b hshared
    refine ⟨n, fun k t hk => ?_, hn.places⟩
    rw [hcontent] at hk
    rcases List.mem_append.mp hk with hk | hk
    · exact hn.entries k t hk
    · obtain ⟨i, hi, hname⟩ := hnew k t hk
      exact Option.some.inj (hname.symm.trans (hn.places h i hi))
  · -- the block had one reference, the place that it is committed from
    have hcount : (added.map fun x => x.2.1).count b ≠ 0 := by
      intro hzero
      have hle := hheld b
      rw [ha.ledger.balance, PrefixCache.blocks_eq_content, hcontent, List.map_append,
        List.count_append, hzero, ← PrefixCache.blocks_eq_content] at hb
      rw [B.ledger.balance] at hshared
      omega
    obtain ⟨⟨k, b', t⟩, hx, hbb⟩ :=
      List.mem_map.mp (List.count_pos_iff.mp (Nat.pos_of_ne_zero hcount))
    obtain rfl : b' = b := hbb
    obtain ⟨i, hi, hname⟩ := hnew k t hx
    have hplaced : 0 < (s.places.map fun p => p.2.2).count b' :=
      List.count_pos_iff.mpr (List.mem_map.mpr ⟨_, hi, rfl⟩)
    have hone : ∀ h' i', (h', i', b') ∈ s.places → h' = h ∧ i' = i := by
      intro h' i' hi'
      have heq := eq_of_count_map_le (f := fun p : Handle × Nat × Nat => p.2.2) (b := b')
        (by omega) hi' hi rfl rfl
      exact ⟨congrArg Prod.fst heq, congrArg (fun p => p.2.1) heq⟩
    refine ⟨k, fun k' t' hk' => ?_, fun h' i' hi' => ?_⟩
    · rw [hcontent] at hk'
      rcases List.mem_append.mp hk' with hk' | hk'
      · have hcached : 0 < s.allocator.cache.blocks.count b' :=
          List.count_pos_iff.mpr (PrefixCache.mem_blocks.mpr ⟨k', t', hk'⟩)
        omega
      · obtain ⟨i', hi', hname'⟩ := hnew k' t' hk'
        rw [(hone h i' hi').2, hname] at hname'
        exact (Option.some.inj hname').symm
    · obtain ⟨rfl, rfl⟩ := hone h' i' hi'
      exact hname

theorem Named.publish (N : s.Named) (B : s.Books) (hrun : h ∈ s.running) {held ids : List Nat}
    (ha : Committed s.allocator held (s.stream h).fullTokens ids s'.allocator)
    (hids : ∀ i b : Nat, ids[i]? = some b → (s.blocksOf h)[i]? = some b)
    (hheld : ∀ b, held.count b ≤ s.heldBlocks.count b)
    (hstay : ∀ k ∈ s'.running, k ∈ s.running ∧ s'.blocksOf k = s.blocksOf k ∧
      ∃ more, (s'.stream k).tokens = (s.stream k).tokens ++ more) : s'.Named := by
  intro b hb
  obtain ⟨n, hentries, hplaces⟩ := N.commit B hrun ha hids hheld hb
  refine ⟨n, hentries, fun k i hi => ?_⟩
  obtain ⟨hk, hblock⟩ := mem_places.mp hi
  obtain ⟨hk', hsame, htokens⟩ := hstay k hk
  rw [hsame] at hblock
  exact nameAt_of_tokens B ha.shape htokens (hplaces k i (mem_places.mpr ⟨hk', hblock⟩))

/-- A match finds blocks under the names of the places they are put in. -/
theorem Named.enter (N : s.Named) (B : s.Books) {rest : List Handle} {grant : Grant} {a : Allocator}
    (hwait : s.waiting = h :: rest) (hphase : (s.stream h).phase = .waiting)
    (ha : Granted s.allocator s.heldBlocks (s.stream h).tokens grant a) :
    Named { s.setStream h ((s.stream h).started grant s.blockSize) with
      allocator := a, running := s.running ++ [h], waiting := rest } := by
  obtain ⟨matched, fresh, hids, -, hfresh, hhit⟩ := ha.parts
  have hnot : h ∉ s.running := fun hrun => B.started h hrun hphase
  have hself : (s.setStream h ((s.stream h).started grant s.blockSize)).stream h
      = (s.stream h).started grant s.blockSize :=
    stream_setStream_self (B.queued h (hwait ▸ List.mem_cons_self))
  have hsize : a.geometry.blockSize = s.blockSize := congrArg Geometry.blockSize ha.shape.geometry
  -- a place of the stream that joins stands under the name of a cached entry
  have hjoin : ∀ {i b : Nat}, 1 < a.pool.refsOf b → grant.ids[i]? = some b → ∃ k t,
      (k, b, t) ∈ s.allocator.cache.content ∧ s.nameAt h i = some k := by
    intro i b hb hi
    have hold : b ∉ fresh := by
      intro hmem
      rw [hfresh b hmem] at hb
      exact Nat.lt_irrefl 1 hb
    rw [hids] at hi
    rcases Nat.lt_or_ge i matched.length with hlt | hge
    · rw [List.getElem?_append_left hlt] at hi
      obtain ⟨k, t, hk, -, hmem⟩ := hhit i b hi
      exact ⟨k, t, hmem, hk⟩
    · rw [List.getElem?_append_right hge] at hi
      exact absurd (List.mem_of_getElem? hi) hold
  intro b hb
  have hb' : 1 < a.pool.refsOf b := hb
  have hless := (ha.content.map fun x => x.2.1).count_le b
  rw [← PrefixCache.blocks_eq_content, ← PrefixCache.blocks_eq_content] at hless
  have hrefs := B.ledger.balance b
  -- the name of the block before the stream joined
  obtain ⟨n, hentries, hplaces⟩ : ∃ n, (∀ k t, (k, b, t) ∈ s.allocator.cache.content → k = n) ∧
      ∀ h i, (h, i, b) ∈ s.places → s.nameAt h i = some n := by
    by_cases hshared : 1 < s.allocator.pool.refsOf b
    · obtain ⟨n, hn⟩ := N b hshared
      exact ⟨n, hn.entries, hn.places⟩
    · -- the grant shares the block, and the entry it was found under was all there was
      have hgranted : b ∈ grant.ids := by
        by_contra hout
        rw [ha.ledger.balance, List.count_append, List.count_eq_zero_of_not_mem hout] at hb'
        omega
      obtain ⟨i, hi⟩ := List.mem_iff_getElem?.mp hgranted
      obtain ⟨k, t, hmem, -⟩ := hjoin hb' hi
      have hcached : 0 < s.allocator.cache.blocks.count b :=
        List.count_pos_iff.mpr (PrefixCache.mem_blocks.mpr ⟨k, t, hmem⟩)
      refine ⟨k, fun k' t' hmem' => ?_, fun h' i' hi' => ?_⟩
      · rw [PrefixCache.blocks_eq_content] at hrefs hcached
        have heq := eq_of_count_map_le (f := fun x : UInt64 × Nat × List UInt32 => x.2.1) (b := b)
          (by omega) hmem' hmem rfl rfl
        exact congrArg Prod.fst heq
      · have hheld : 0 < s.heldBlocks.count b := by
          rw [heldBlocks_eq_places]
          exact List.count_pos_iff.mpr (List.mem_map.mpr ⟨_, hi', rfl⟩)
        omega
  refine ⟨n, fun k t hk => hentries k t (ha.content.subset hk), fun h' i hi => ?_⟩
  obtain ⟨hh', hblock⟩ := mem_places.mp hi
  by_cases hne : h' = h
  · subst hne
    have hid : grant.ids[i]? = some b := by
      have hb : ((s.setStream h' _).stream h').table.ids[i]? = some b := hblock
      rw [hself] at hb
      exact hb
    obtain ⟨k, t, hmem, hname⟩ := hjoin hb' hid
    obtain rfl := hentries k t hmem
    refine nameAt_of_same B ha.shape ?_ hname
    show ((s.setStream h' _).stream h').tokens = _
    rw [hself]
    rfl
  · have hrun : h' ∈ s.running := by
      rcases List.mem_append.mp hh' with hrun | hlast
      · exact hrun
      · exact absurd (List.mem_singleton.mp hlast) hne
    rw [blocksOf_of_ne hne] at hblock
    refine nameAt_of_same B ha.shape ?_ (hplaces h' i (mem_places.mpr ⟨hrun, hblock⟩))
    exact congrArg Stream.tokens (stream_setStream_of_ne hne)

/-- Fresh blocks have a single reference and need no name. -/
theorem Named.grow (N : s.Named) (B : s.Books) (hrun : h ∈ s.running) {ids : List Nat}
    {a : Allocator} (ha : Allocator.Handed s.allocator s.heldBlocks ids a) :
    Named { s.setStream h ((s.stream h).grow ids) with allocator := a } := by
  intro b hb
  have hb' : 1 < a.pool.refsOf b := hb
  have hold : b ∉ ids := by
    intro hmem
    rw [ha.refsOf_eq_one hmem] at hb'
    exact Nat.lt_irrefl 1 hb'
  have hless := (ha.content.map fun x => x.2.1).count_le b
  rw [← PrefixCache.blocks_eq_content, ← PrefixCache.blocks_eq_content] at hless
  -- so the block was shared before
  have hshared : 1 < s.allocator.pool.refsOf b := by
    rw [ha.ledger.balance, List.count_append, List.count_eq_zero_of_not_mem hold] at hb'
    rw [B.ledger.balance]
    omega
  obtain ⟨n, hn⟩ := N b hshared
  refine ⟨n, fun k t hk => hn.entries k t (ha.content.subset hk), fun h' i hi => ?_⟩
  obtain ⟨hrun', hblock⟩ := mem_places.mp hi
  by_cases hne : h' = h
  · subst hne
    have hself : (s.setStream h' ((s.stream h').grow ids)).stream h' = (s.stream h').grow ids :=
      stream_setStream_self (B.known h' hrun)
    have hid : (s.blocksOf h' ++ ids)[i]? = some b := by
      have hb : ((s.setStream h' _).stream h').table.ids[i]? = some b := hblock
      rw [hself] at hb
      exact hb
    have hplace : (s.blocksOf h')[i]? = some b := by
      rcases Nat.lt_or_ge i (s.blocksOf h').length with hlt | hge
      · rwa [List.getElem?_append_left hlt] at hid
      · rw [List.getElem?_append_right hge] at hid
        exact absurd (List.mem_of_getElem? hid) hold
    refine nameAt_of_same B ha.shape ?_ (hn.places h' i (mem_places.mpr ⟨hrun, hplace⟩))
    show ((s.setStream h' _).stream h').tokens = _
    rw [hself]
    rfl
  · rw [blocksOf_of_ne hne] at hblock
    refine nameAt_of_same B ha.shape ?_ (hn.places h' i (mem_places.mpr ⟨hrun', hblock⟩))
    exact congrArg Stream.tokens (stream_setStream_of_ne hne)

/-- A stream is put back later on, and perhaps leaves the queue. -/
theorem Named.touch (N : s.Named) (B : s.Books) {x : Stream} {a : Allocator} {w : List Handle}
    (hx : Stream.Continues (s.stream h) x)
    (B' : Books { s.setStream h x with allocator := a, waiting := w })
    (hshape : Allocator.SameShape s.allocator a)
    (hcontent : a.cache.content.Sublist s.allocator.cache.content) :
    Named { s.setStream h x with allocator := a, waiting := w } := by
  refine N.keep B B' (.refl _) (fun k _ => ?_) (fun k _ => (continues_setStream hx k).tokens)
    hshape hcontent
  exact congrArg BlockTable.ids (continues_setStream hx k).table

/-- A stream leaves the batch, and perhaps for the queue. -/
theorem Named.leave (N : s.Named) (B : s.Books) {x : Stream} {a : Allocator} {w : List Handle}
    (B' : Books { s.setStream h x with
      allocator := a, running := s.running.erase h, waiting := w })
    (ha : Neutral s.allocator (s.heldWithout h) a) :
    Named { s.setStream h x with
      allocator := a, running := s.running.erase h, waiting := w } := by
  have hne : ∀ k ∈ s.running.erase h, k ≠ h := fun k hk => (B.nodup.mem_erase_iff.mp hk).1
  refine N.keep B B' List.erase_sublist (fun k hk => blocksOf_of_ne (hne k hk))
    (fun k hk => ⟨[], ?_⟩) ha.shape ha.content
  show ((s.setStream h x).stream k).tokens = _
  rw [stream_setStream_of_ne (hne k hk), List.append_nil]

/-- Every step keeps names. -/
theorem Step.named {p : Stage} (hstep : Step p s s') (B : s.Books) (N : s.Named) : s'.Named := by
  have B' := hstep.books B
  -- only `commit` and `release` add entries, and only `grow` and `enter` give blocks; after all
  -- other steps the names are those of before
  cases hstep with
  | register _ id request =>
    exact N.frame B B' rfl (fun k hk => stream_push (Nat.ne_of_lt (B.known k hk))) (.refl _)
      (.refl _)
  | enqueue =>
    exact N.touch B (Stream.continues_markQueued _ _) B' (.refl _) (.refl _)
  | call _ h c => exact N.touch B (Stream.continues_call c _) B' (.refl _) (.refl _)
  | clear ha => exact N.frame B B' rfl (fun _ _ => rfl) ha.shape ha.content
  | sleep => exact N.frame B B' rfl (fun _ _ => rfl) (.refl _) (.refl _)
  | lapse => exact N.touch B (Stream.continues_checkTimeout _ _) B' (.refl _) (.refl _)
  | drop => exact N.frame B B' rfl (fun _ _ => rfl) (.refl _) (.refl _)
  | expire => exact N.touch B (Stream.continues_checkTimeout _ _) B' (.refl _) (.refl _)
  | grow hrun hlive hmissing ha => exact N.grow B hrun ha
  | commit hrun hlive hreuse hmissing ha =>
    refine N.publish B hrun ha (fun i b hi => ?_) (fun _ => Nat.le_refl _)
      fun k hk => ⟨hk, ?_, ?_⟩
    · rw [List.getElem?_take] at hi
      split at hi
      · exact hi
      · simp at hi
    · exact congrArg BlockTable.ids
        (continues_setStream (Stream.continues_setCommitted _ _) k).table
    · exact (continues_setStream (Stream.continues_setCommitted _ _) k).tokens
  | preempt hnewest holder ha => exact N.leave B B' ha
  | abandon honly hmissing hshort ha => exact N.leave B B' ha
  | @release _ h a hrun hended ha =>
    have hne : ∀ k ∈ s.running.erase h, k ≠ h ∧ k ∈ s.running := fun k hk =>
      B.nodup.mem_erase_iff.mp hk
    refine N.publish B hrun ha (fun _ _ hi => hi) (fun b => ?_)
      fun k hk => ⟨(hne k hk).2, ?_, [], ?_⟩
    · rw [(heldBlocks_perm hrun).count_eq, List.count_append]
      exact Nat.le_add_left _ _
    · exact blocksOf_of_ne (hne k hk).1
    · show ((s.setStream h _).stream k).tokens = _
      rw [stream_setStream_of_ne (hne k hk).1, List.append_nil]
  | enter hwait hphase hcovers ha => exact N.enter B hwait hphase ha
  | skip hwait hphase ha => exact N.frame B B' rfl (fun _ _ => rfl) ha.shape ha.content
  | refuse hwait hfallback hneed hshort hhopeless ha =>
    exact N.touch B (Stream.continues_stop _ _) B' ha.shape ha.content
  | wait ha => exact N.frame B B' rfl (fun _ _ => rfl) ha.shape ha.content

theorem Steps.named {p : Stage} (hsteps : Steps p s s') (B : s.Books) (N : s.Named) : s'.Named :=
  (hsteps.keepsBooks (fun hstep B N => hstep.named B N) B N).2

theorem named_start (admission : Admission) {hash : ChainHash} {g : Geometry} {a : Allocator}
    (hnew : Allocator.newWith hash g = .ok a) : (start admission a).Named := by
  intro b hb
  have hnone : a.pool.refsOf b = 0 := by
    rw [(Allocator.newWith_eq_ok hnew).2.2.1, Pool.refsOf_new]
  rw [show (start admission a).allocator = a from rfl, hnone] at hb
  simp at hb

theorem named_play {hash : ChainHash} {g : Geometry} {a : Allocator}
    (hnew : Allocator.newWith hash g = .ok a) (admission : Admission) (events : List Event) :
    (play (start admission a) events).Named :=
  (play_keeps (fun hstep B N => hstep.named B N) (books_start hnew admission)
    (named_start admission hnew) events).2

end Scheduler

end PagedServe
