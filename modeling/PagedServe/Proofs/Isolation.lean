/-
PagedServe/Proofs/Isolation.lean

Streams that run side by side share full blocks of a common prefix, or nothing.

A block in two places of tables has two references, so both places bear one name
(`Named`).  Names are chained hashes and may collide; if those of the streams at hand
do not (`Collisionless`), the places stand for the same chunks.  Then they are at the
same position and the tokens up to the end of the block are the same
(`shared_place`).  In the table of one stream no block comes twice.

Together with the coverage of the batch this says where the tokens of the streams are
kept: each in a slot of its own, except for the full blocks of common prefixes.
-/
import PagedServe.Proofs.Coverage
import PagedServe.Proofs.Naming
import PagedServe.Proofs.Slots

namespace PagedServe

/-! ### Chains of chunks under their hashes -/

/-- The chains of full chunks that a token list begins with, each under its hash. -/
def namedChains (hash : ChainHash) (size : Nat) (tokens : List UInt32) :
    List (UInt64 × List (List UInt32)) :=
  (chainHashes hash none (fullBlocks size tokens)).zipIdx.map fun (n, i) =>
    (n, (fullBlocks size tokens).take (i + 1))

theorem mem_namedChains {hash : ChainHash} {size : Nat} {tokens : List UInt32} {i : Nat}
    {n : UInt64} (h : (chainHashes hash none (fullBlocks size tokens))[i]? = some n) :
    (n, (fullBlocks size tokens).take (i + 1)) ∈ namedChains hash size tokens :=
  List.mem_map.mpr ⟨(n, i), List.mem_zipIdx_iff_getElem?.mpr h, rfl⟩

/-- Chains of the same chunks end at the same position and cover the same tokens. -/
theorem eq_of_chain_eq {size : Nat} (hs : 0 < size) {xs ys : List UInt32} {i j : Nat}
    (hi : (i + 1) * size ≤ xs.length) (hj : (j + 1) * size ≤ ys.length)
    (h : (fullBlocks size xs).take (i + 1) = (fullBlocks size ys).take (j + 1)) :
    i = j ∧ xs.take ((i + 1) * size) = ys.take ((i + 1) * size) := by
  -- a prefix of so many chunks has that length, and its tokens are a prefix as well
  have hcut : ∀ {zs : List UInt32} {k : Nat}, (k + 1) * size ≤ zs.length →
      ((fullBlocks size zs).take (k + 1)).length = k + 1 ∧
        ((fullBlocks size zs).take (k + 1)).flatten = zs.take ((k + 1) * size) := by
    intro zs k hk
    have hlength : (zs.take ((k + 1) * size)).length / size = k + 1 := by
      rw [List.length_take_of_le hk, Nat.mul_div_cancel _ hs]
    rw [← fullBlocks_take hs, length_fullBlocks hs, flatten_fullBlocks hs, hlength, List.take_take,
      Nat.min_self]
    exact ⟨rfl, rfl⟩
  obtain ⟨hlength, hflatten⟩ := hcut hi
  obtain ⟨hlength', hflatten'⟩ := hcut hj
  rw [h, hlength'] at hlength
  obtain rfl : i = j := by omega
  rw [h, hflatten'] at hflatten
  exact ⟨rfl, hflatten.symm⟩

namespace Scheduler

variable {s s' : Scheduler} {h k : Handle}

/-- The chains of all streams. -/
def chains (s : Scheduler) : List (UInt64 × List (List UInt32)) :=
  (List.range s.streams.size).flatMap fun h =>
    namedChains s.allocator.cache.hash s.blockSize (s.stream h).tokens

/-- Different chains of chunks among the tokens of the streams have different hashes. -/
def Collisionless (s : Scheduler) : Prop :=
  ∀ x ∈ s.chains, ∀ y ∈ s.chains, x.1 = y.1 → x.2 = y.2

instance (s : Scheduler) : Decidable s.Collisionless :=
  inferInstanceAs (Decidable (∀ x ∈ s.chains, ∀ y ∈ s.chains, x.1 = y.1 → x.2 = y.2))

theorem length_of_nameAt (hpos : 0 < s.blockSize) {i : Nat} {n : UInt64}
    (hn : s.nameAt h i = some n) : (i + 1) * s.blockSize ≤ (s.stream h).tokens.length := by
  have hlt := (List.getElem?_eq_some_iff.mp hn).1
  rw [length_chainHashes, length_fullBlocks hpos] at hlt
  exact Nat.le_trans (Nat.mul_le_mul_right _ hlt) (Nat.div_mul_le_self _ _)

theorem mem_chains (hpos : 0 < s.blockSize) {i : Nat} {n : UInt64} (hn : s.nameAt h i = some n) :
    (n, (fullBlocks s.blockSize (s.stream h).tokens).take (i + 1)) ∈ s.chains := by
  have hh : h < s.streams.size := by
    by_contra hout
    -- the blank stream has no tokens and no names
    have hlength := length_of_nameAt hpos hn
    rw [stream_of_le (Nat.le_of_not_lt hout), Nat.succ_mul] at hlength
    have hzero : (Stream.new 0 ⟨[], 0, 0⟩ 0).tokens.length = 0 := rfl
    omega
  exact List.mem_flatMap.mpr ⟨h, List.mem_range.mpr hh, mem_namedChains hn⟩

/-- Places with the same name are the same positions of common prefixes. -/
theorem Collisionless.eq_of_name (C : s.Collisionless) (hpos : 0 < s.blockSize) {i j : Nat}
    {n : UInt64} (hi : s.nameAt h i = some n) (hj : s.nameAt k j = some n) :
    i = j ∧ (s.stream h).tokens.take ((i + 1) * s.blockSize)
      = (s.stream k).tokens.take ((i + 1) * s.blockSize) :=
  eq_of_chain_eq hpos (length_of_nameAt hpos hi) (length_of_nameAt hpos hj)
    (C _ (mem_chains hpos hi) _ (mem_chains hpos hj) rfl)

/-! ### Shared places -/

/-- Two places of one block are the same position of two streams with a common prefix. -/
theorem shared_place (B : s.Books) (N : s.Named) (C : s.Collisionless) {i j b : Nat}
    (hi : (h, i, b) ∈ s.places) (hj : (k, j, b) ∈ s.places) (hne : ¬ (h = k ∧ i = j)) :
    i = j ∧ (i + 1) * s.blockSize ≤ (s.stream h).tokens.length ∧
      (i + 1) * s.blockSize ≤ (s.stream k).tokens.length ∧
      (s.stream h).tokens.take ((i + 1) * s.blockSize)
        = (s.stream k).tokens.take ((i + 1) * s.blockSize) := by
  -- two places count as two references
  have hshared : 1 < s.allocator.pool.refsOf b := by
    by_contra hone
    have hcount : (s.places.map fun p => p.2.2).count b ≤ 1 := by
      have hbalance := B.ledger.balance b
      rw [heldBlocks_eq_places] at hbalance
      omega
    have heq := eq_of_count_map_le (f := fun p : Handle × Nat × Nat => p.2.2) hcount hi hj rfl rfl
    exact hne ⟨congrArg Prod.fst heq, congrArg (fun p => p.2.1) heq⟩
  -- a block with several references has one name, and without collisions a name means one
  -- prefix
  obtain ⟨n, hn⟩ := N b hshared
  have hname := hn.places h i hi
  have hname' := hn.places k j hj
  obtain ⟨rfl, htokens⟩ := C.eq_of_name B.blockSize_pos hname hname'
  exact ⟨rfl, length_of_nameAt B.blockSize_pos hname, length_of_nameAt B.blockSize_pos hname',
    htokens⟩

/-- In the table of a stream no block comes twice. -/
theorem nodup_blocksOf (B : s.Books) (N : s.Named) (C : s.Collisionless) (hh : h ∈ s.running) :
    (s.blocksOf h).Nodup := by
  refine List.nodup_iff_injective_get.mpr fun i j hij => ?_
  have hi : (h, i.val, (s.blocksOf h).get i) ∈ s.places :=
    mem_places.mpr ⟨hh, List.getElem?_eq_getElem i.isLt⟩
  have hj : (h, j.val, (s.blocksOf h).get i) ∈ s.places := by
    rw [hij]
    exact mem_places.mpr ⟨hh, List.getElem?_eq_getElem j.isLt⟩
  by_contra hne
  have heq := (shared_place B N C hi hj fun hc => hne (Fin.ext hc.2)).1
  exact hne (Fin.ext heq)

/-- A tick changes neither tokens nor names. -/
theorem Collisionless.tick (C : s.Collisionless) {s₁ s₂ s₃ : Scheduler} (T : Tick s s₁ s₂ s₃ s')
    (B : s.Books) : s'.Collisionless := by
  obtain ⟨hsame, hsize, hshape⟩ := T.frame B
  have hchains : s'.chains = s.chains := by
    have hblock : s'.blockSize = s.blockSize := congrArg Geometry.blockSize hshape.geometry
    rw [chains, chains, hsize, hshape.hash, hblock]
    exact List.flatMap_congr fun h _ => by rw [(hsame h).tokens]
  rw [Collisionless, hchains]
  exact C

/-! ### Slots of running streams -/

section Slots

open BlockTable

/-- Room for a list of slots leaves room to count on. -/
theorem lt_limit_of_room {n : Nat} (h : Word.room n slotBytes = .ok ()) : n + 1 < Word.limit := by
  have hbytes : n * 8 ≤ Word.limit / 2 - 1 := Word.room_eq_ok.mp h
  have hlimit : 2 < Word.limit := by decide
  omega

theorem le_mul_of_blocksFor {n m size : Nat} (hs : 0 < size) (h : blocksFor n size = .ok m) :
    n ≤ m * size := by
  rw [blocksFor_eq_ok _ hs] at h
  have hlt := Nat.lt_mul_div_succ (n + size - 1) hs
  rw [Except.ok.inj h, Nat.mul_succ, Nat.mul_comm] at hlt
  omega

/-- The blocks of a settled stream reach as far as its tokens. -/
theorem slots_of_settled (B : s.Books) (N : s.Named) (C : s.Collisionless) (hh : h ∈ s.running)
    (hblocks : blocksFor (s.stream h).seqLength s.blockSize = .ok (s.blocksOf h).length)
    (hroom : Word.room (s.stream h).seqLength slotBytes = .ok ())
    (hfits : s.allocator.geometry.blocks * s.blockSize ≤ Word.limit) :
    ∃ slots, (s.stream h).slots = .ok slots ∧ slots.length = (s.stream h).seqLength ∧
      slots.Nodup ∧ ∀ slot ∈ slots,
        1 ≤ slot / s.blockSize ∧ slot / s.blockSize < s.allocator.geometry.blocks := by
  have hpos : 0 < (s.stream h).table.blockSize := B.tables h hh ▸ B.blockSize_pos
  -- the table reaches as far as the tokens, and its slots fit into 64 bits
  have hreach : (s.stream h).seqLength
      ≤ (s.stream h).table.ids.length * (s.stream h).table.blockSize := by
    rw [B.tables h hh]
    exact le_mul_of_blocksFor B.blockSize_pos hblocks
  have husable : ∀ b ∈ (s.stream h).table.ids, 0 < b ∧ b < s.allocator.geometry.blocks :=
    fun b hb => B.usable (Or.inl (mem_heldBlocks.mpr ⟨h, hh, hb⟩))
  have hslots := slots_eq_ok (t := (s.stream h).table) hpos hroom fun b hb => by
    rw [B.tables h hh]
    exact Nat.le_trans (Nat.mul_le_mul_right _ (husable b hb).2) hfits
  rw [Nat.min_eq_left hreach] at hslots
  refine ⟨_, hslots, by rw [List.length_map, List.length_range],
    nodup_slots hpos (nodup_blocksOf B N C hh) hreach, ?_⟩
  intro slot hslot
  obtain ⟨p, hp, rfl⟩ := List.mem_map.mp hslot
  have hp := getElem?_block (t := (s.stream h).table)
    (Nat.lt_of_lt_of_le (List.mem_range.mp hp) hreach)
  rw [← B.tables h hh, slotAt_div hpos]
  exact husable _ (List.mem_of_getElem? hp)

/-- A slot that two streams map positions to lies in a full block of a common prefix. -/
theorem shared_slot (B : s.Books) (N : s.Named) (C : s.Collisionless) (hh : h ∈ s.running)
    (hk : k ∈ s.running) (hne : h ≠ k) {slots slots' : List Nat} {p q slot : Nat}
    (hslots : (s.stream h).slots = .ok slots) (hslots' : (s.stream k).slots = .ok slots')
    (hp : slots[p]? = some slot) (hq : slots'[q]? = some slot) :
    p = q ∧ (p / s.blockSize + 1) * s.blockSize ≤ (s.stream h).tokens.length ∧
      (p / s.blockSize + 1) * s.blockSize ≤ (s.stream k).tokens.length ∧
      (s.stream h).tokens.take ((p / s.blockSize + 1) * s.blockSize)
        = (s.stream k).tokens.take ((p / s.blockSize + 1) * s.blockSize) := by
  obtain ⟨-, hreach, rfl⟩ := slot_of_slots hslots hp
  obtain ⟨-, hreach', hsame⟩ := slot_of_slots hslots' hq
  have hpos := B.blockSize_pos
  have hdiv := slotAt_div (t := (s.stream h).table) (B.tables h hh ▸ hpos) p
  have hdiv' := slotAt_div (t := (s.stream k).table) (B.tables k hk ▸ hpos) q
  have hmod := slotAt_mod (t := (s.stream h).table) p
  have hmod' := slotAt_mod (t := (s.stream k).table) q
  have hi := getElem?_block hreach
  have hj := getElem?_block hreach'
  rw [← hdiv, B.tables h hh] at hi
  rw [← hdiv', ← hsame, B.tables k hk] at hj
  rw [B.tables h hh] at hmod
  rw [← hsame, B.tables k hk] at hmod'
  -- the block and the offset are read off the slot
  obtain ⟨hindex, hfull⟩ := shared_place B N C (mem_places.mpr ⟨hh, hi⟩) (mem_places.mpr ⟨hk, hj⟩)
    fun hc => hne hc.1
  refine ⟨?_, hfull⟩
  rw [← Nat.div_add_mod p s.blockSize, ← hmod, hmod', hindex, Nat.div_add_mod]

end Slots

/-- After every tick of a run in which lengths are not set, and whose streams have no
chains of chunks with colliding hashes: a running stream holds just the blocks that its
tokens need, up to the last numbers of 64 bits; they give each token a slot of its own in
a usable block, if slots fit into 64 bits and a list of so many of them has room; and a
slot that two running streams use is the same position of both, in a block that both have
filled with the same tokens as far as its end. -/
theorem running_slots_isolated {hash : ChainHash} {g : Geometry} {a : Allocator}
    (hnew : Allocator.newWith hash g = .ok a) (admission : Admission) (events : List Event)
    (hcounts : ∀ e ∈ events, e.counts = true)
    (hapart : (play (start admission a) events).Collisionless) :
    ∃ s', schedule (play (start admission a) events) = .ok s'.running s' ∧
      (∀ h ∈ s'.running, (s'.stream h).seqLength + 1 < Word.limit →
        blocksFor (s'.stream h).seqLength g.blockSize = .ok (s'.blocksOf h).length) ∧
      (∀ h ∈ s'.running, g.blocks * g.blockSize ≤ Word.limit →
        Word.room (s'.stream h).seqLength BlockTable.slotBytes = .ok () →
        ∃ slots, (s'.stream h).slots = .ok slots ∧ slots.length = (s'.stream h).seqLength ∧
          slots.Nodup ∧
          ∀ slot ∈ slots, 1 ≤ slot / g.blockSize ∧ slot / g.blockSize < g.blocks) ∧
      ∀ h ∈ s'.running, ∀ k ∈ s'.running, h ≠ k → ∀ slots slots' p q slot,
        (s'.stream h).slots = .ok slots → (s'.stream k).slots = .ok slots' →
        slots[p]? = some slot → slots'[q]? = some slot →
        p = q ∧ (p / g.blockSize + 1) * g.blockSize ≤ (s'.stream h).seqLength ∧
          (p / g.blockSize + 1) * g.blockSize ≤ (s'.stream k).seqLength ∧
          (s'.stream h).tokens.take ((p / g.blockSize + 1) * g.blockSize)
            = (s'.stream k).tokens.take ((p / g.blockSize + 1) * g.blockSize) := by
  have B := books_play hnew admission events
  have N := named_play hnew admission events
  have hcounted := counted_play hnew admission hcounts
  have hgeometry : (play (start admission a) events).allocator.geometry = g :=
    (sameShape_play (books_start hnew admission) events).geometry.trans
      (Allocator.newWith_eq_ok hnew).2.1
  generalize play (start admission a) events = s at B N hcounted hgeometry hapart
  obtain ⟨s₁, s₂, s₃, s', hok, T⟩ := schedule_tick B
  -- books, names and counts hold before the tick, and every step of a tick keeps them
  obtain ⟨B', N'⟩ := T.keeps (P := Named) (fun _ hstep B N => hstep.named B N) B N
  obtain ⟨-, hcounted'⟩ := T.keeps (P := fun t => ∀ k, (t.stream k).Counted t.blockSize)
    (fun hp hstep B hs => hstep.counted hp B hs) B hcounted
  have C' := hapart.tick T B
  have hg : s'.allocator.geometry = g := (T.frame B).2.2.geometry.trans hgeometry
  have hsize : s'.blockSize = g.blockSize := congrArg Geometry.blockSize hg
  have hexact : ∀ h ∈ s'.running, (s'.stream h).seqLength + 1 < Word.limit →
      (s'.stream h).seqLength = (s'.stream h).tokens.length ∧
        blocksFor (s'.stream h).seqLength s'.blockSize = .ok (s'.blocksOf h).length :=
    fun h hh hcount =>
      blocksFor_of_settled B'.blockSize_pos (hcounted' h) (T.covered B h hh) hcount
  refine ⟨s', hok, fun h hh hcount => ?_, fun h hh hfits hroom => ?_,
    fun h hh k hk hne slots slots' p q slot hslots hslots' hp hq => ?_⟩
  · -- just the blocks that are needed
    rw [← hsize]
    exact (hexact h hh hcount).2
  · -- a slot for each token
    rw [← hsize, ← hg] at hfits ⊢
    exact slots_of_settled B' N' C' hh (hexact h hh (lt_limit_of_room hroom)).2 hroom hfits
  · -- one slot in two lists; that they could be listed at all bounds both lengths
    have hcount : ∀ {k slots}, k ∈ s'.running → (s'.stream k).slots = .ok slots →
        (s'.stream k).seqLength + 1 < Word.limit := fun hk hslots =>
      lt_limit_of_room ((BlockTable.eq_of_slots hslots).2
        (B'.tables _ hk ▸ Nat.pos_iff_ne_zero.mp B'.blockSize_pos))
    rw [(hexact h hh (hcount hh hslots)).1, (hexact k hk (hcount hk hslots')).1, ← hsize]
    exact shared_slot B' N' C' hh hk hne hslots hslots' hp hq

/-- A stream publishes its first block, and another one begins with the same tokens. -/
def commonPrefixRun : List Event :=
  [.register 1 { input := [1, 2, 3] }, .call 0 (.setReuse true), .enqueue 0, .schedule, .schedule,
    .register 2 { input := [1, 2, 4] }, .call 1 (.setReuse true), .enqueue 1]

/-- The two streams share the slots of the first block and no other. -/
theorem running_slots_isolated_common :
    ∃ a s', Allocator.newWith chainHash { blocks := 5, blockSize := 2 } = .ok a ∧
      schedule (play (start {} a) commonPrefixRun) = .ok [0, 1] s' ∧
      (s'.stream 0).slots = .ok [2, 3, 4] ∧ (s'.stream 1).slots = .ok [2, 3, 6] ∧
      [2, 3, 4].Nodup ∧ (s'.stream 0).tokens.take 2 = (s'.stream 1).tokens.take 2 := by
  have hrun : (Allocator.newWith chainHash { blocks := 5, blockSize := 2 }).toOption.map
      (fun a =>
        let s := play (start {} a) commonPrefixRun
        let s' := stateAfter schedule s
        (decide s.Collisionless, s'.running, (s'.stream 0).seqLength,
          [0, 1].map fun h => (s'.stream h).slots.toOption))
      = some (true, [0, 1], 3, [some [2, 3, 4], some [2, 3, 6]]) := by decide +kernel
  obtain ⟨a, hnew, hfacts⟩ := Allocator.exists_newWith hrun
  simp only [Prod.mk.injEq, List.map_cons, List.map_nil, List.cons.injEq, and_true] at hfacts
  obtain ⟨hapart, hrunning, hlength, hslots, hslots'⟩ := hfacts
  obtain ⟨s', hok, -, hcovered, hshared⟩ := running_slots_isolated hnew {} commonPrefixRun
    (by decide) (of_decide_eq_true hapart)
  rw [stateAfter_of_ok hok] at hrunning hslots hslots' hlength
  have hzero : 0 ∈ s'.running := by rw [hrunning]; decide
  have hone : 1 ∈ s'.running := by rw [hrunning]; decide
  replace hslots := eq_ok_of_toOption hslots
  replace hslots' := eq_ok_of_toOption hslots'
  obtain ⟨slots, hslots₀, -, hnodup, -⟩ := hcovered 0 hzero (by decide) (by rw [hlength]; rfl)
  rw [hslots] at hslots₀
  obtain rfl := Except.ok.inj hslots₀
  obtain ⟨-, -, -, htokens⟩ := hshared 0 hzero 1 hone (by decide) [2, 3, 4] [2, 3, 6] 0 0 2 hslots
    hslots' rfl rfl
  rw [hrunning] at hok
  exact ⟨a, s', hnew, hok, hslots, hslots', hnodup, htokens⟩

/-- Blocks so large that the third one begins at the end of the 64-bit numbers.  They
take no room, since there are no heads. -/
def wideGeometry : Geometry := { blocks := 4, heads := 0, blockSize := Word.limit / 2 }

/-- Two streams of one token each. -/
def wideRun : List Event :=
  [.register 1 { input := [1] }, .register 2 { input := [2] }, .enqueue 0, .enqueue 1]

/-- The slot of the second stream's token does not fit into 64 bits, so its slots
cannot be listed. -/
theorem wide_block_without_slots :
    ∃ a s', Allocator.newWith chainHash wideGeometry = .ok a ∧
      (∀ e ∈ wideRun, e.counts = true) ∧ (play (start {} a) wideRun).Collisionless ∧
      schedule (play (start {} a) wideRun) = .ok [0, 1] s' ∧ (s'.stream 1).seqLength = 1 ∧
      ¬ ∃ slots, (s'.stream 1).slots = .ok slots := by
  have hrun : (Allocator.newWith chainHash wideGeometry).toOption.map
      (fun a =>
        let s := play (start {} a) wideRun
        let s' := stateAfter schedule s
        (decide s.Collisionless, s'.running, (s'.stream 1).seqLength,
          (s'.stream 1).slots.toOption))
      = some (true, [0, 1], 1, none) := by decide +kernel
  obtain ⟨a, hnew, hfacts⟩ := Allocator.exists_newWith hrun
  simp only [Prod.mk.injEq] at hfacts
  obtain ⟨hapart, hrunning, hlength, hslots⟩ := hfacts
  obtain ⟨s₁, s₂, s₃, s', hok, -⟩ := schedule_tick (books_play hnew {} wideRun)
  rw [stateAfter_of_ok hok] at hrunning hlength hslots
  rw [hrunning] at hok
  refine ⟨a, s', hnew, by decide, of_decide_eq_true hapart, hok, hlength, ?_⟩
  rintro ⟨slots, hlisted⟩
  rw [hlisted] at hslots
  simp [Except.toOption] at hslots

end Scheduler

end PagedServe
