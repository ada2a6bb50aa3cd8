/-
PagedServe/Proofs/Stranding.lean

Commits that fail.

A commit first puts the whole chain into the cache and then takes a reference on each block
that is new to it, one after the other.  At the first block that is not in use it stops.  The
entries of this block and of all behind it stay in the cache without a reference: they are
*stranded*.  When such a block is handed out to somebody, the one reference on it looks like
that of its entry.  The entry is evicted for the next request, the reference is dropped, and
the block is handed out a second time.

`Backed a held bare` says how far the references go: every block has one for each time that
it is held or cached, but for those of the list `bare`.  Each operation keeps this, whatever
comes of it, if the list takes up what is stranded and what is given back by somebody who
does not have it (`Backed.carry`).  A block that is handed out has no reference before, so
whoever holds it already holds a block of the list.

Main statement: a commit that fails leaves all that it was to commit in the cache, and a
failing check; and a block is handed out while somebody holds it only if a commit has
stranded it, or somebody gave it back without having it (`failed_commits_strand`).
-/
import PagedServe.Proofs.Clients

namespace PagedServe

namespace Allocator

variable {a a' : Allocator} {g : Geometry} {held held' bare bare' ids : List Nat}

/-! ### References and what they are for -/

/-- Pool and cache agree with themselves, whatever the references are for. -/
structure Sound (a : Allocator) (g : Geometry) : Prop where
  pool : a.pool.Consistent
  reserved : a.pool.refsOf Pool.reserved = 0
  index : a.cache.Indexed
  geometry : a.geometry = g
  cacheSize : a.cache.blockSize = g.blockSize
  sizePos : 0 < g.blockSize

/-- Every block has a reference for each time that it is held or cached, but for those of the
list `bare`. -/
structure Backed (a : Allocator) (g : Geometry) (held bare : List Nat) : Prop where
  sound : a.Sound g
  cover : ∀ b, held.count b + a.cache.blocks.count b ≤ a.pool.refsOf b + bare.count b

theorem Sound.blockSize_ne_zero (S : a.Sound g) : a.cache.blockSize ≠ 0 := by
  rw [S.cacheSize]
  exact Nat.pos_iff_ne_zero.mp S.sizePos

theorem Sound.release (S : a.Sound g) (ids : List Nat) :
    Sound { a with pool := (a.pool.release ids).2 } g := by
  refine { S with pool := S.pool.release ids, reserved := ?_ }
  show (a.pool.release ids).2.refsOf Pool.reserved = 0
  rw [Pool.refsOf_release S.reserved, S.reserved, Nat.zero_sub]

/-- Blocks with references gain some, so the others stay without. -/
theorem refsOf_retainAll_of_unused (h : ∀ b ∈ ids, 0 < a.pool.refsOf b) {b : Nat}
    (hb : a.pool.refsOf b = 0) : (a.pool.retainAll ids).refsOf b = 0 := by
  have hnot : b ∉ ids := fun hmem => Nat.lt_irrefl 0 (hb ▸ h b hmem)
  rw [Pool.refsOf_retainAll (fun b hb => Pool.lt_total_of_refsOf (h b hb)), hb,
    List.count_eq_zero_of_not_mem hnot]

theorem Sound.retain (S : a.Sound g) (h : ∀ b ∈ ids, 0 < a.pool.refsOf b) :
    Sound { a with pool := a.pool.retainAll ids } g :=
  { S with
    pool := S.pool.retainAll h
    reserved := refsOf_retainAll_of_unused h S.reserved }

/-- An entry without a reference is found by the check. -/
theorem Sound.check_eq_error (S : a.Sound g) {b : Nat} (hb : b ∈ a.cache.blocks)
    (hzero : a.pool.refsOf b = 0) :
    ∃ d, a.check = .error (.error (.invariantViolation (.cachedNotAllocated d))) := by
  rcases a.check_or_violates with ⟨-, -, hused⟩ | ⟨cause, herr, hv⟩
  · exact absurd (hused b hb) (by omega)
  · rcases hv with hv | ⟨d, -, rfl, -⟩
    · exact absurd hv (S.pool.not_violates cause)
    · exact ⟨d, herr⟩

theorem backed_newWith {hash : ChainHash} (hnew : newWith hash g = .ok a) : a.Backed g [] [] := by
  have L := ledger_newWith hnew
  have hgeometry := (newWith_eq_ok hnew).2.1
  refine ⟨⟨L.pool, L.reserved, L.index, hgeometry, ?_, ?_⟩, fun b => ?_⟩
  · rw [L.cacheSize, hgeometry]
  · exact hgeometry ▸ L.sizePos
  · exact Nat.le_of_eq (L.balance b).symm

theorem Backed.mono (B : a.Backed g held bare) (hheld : ∀ b, held'.count b ≤ held.count b)
    (hbare : ∀ b, bare.count b ≤ bare'.count b) : a.Backed g held' bare' := by
  refine ⟨B.sound, fun b => ?_⟩
  have hcover := B.cover b
  have hfewer := hheld b
  have hmore := hbare b
  omega

/-- What is both held and bare may be left out of account. -/
theorem Backed.cancel (B : a.Backed g (ids ++ held) (ids ++ bare)) : a.Backed g held bare := by
  refine ⟨B.sound, fun b => ?_⟩
  have hcover := B.cover b
  rw [List.count_append, List.count_append] at hcover
  omega

/-- Whatever is given back: as far as it exceeds what leaves the hands, it was not had. -/
theorem Backed.release (B : a.Backed g held bare) (extra : List Nat)
    (h : ∀ b, held'.count b + ids.count b ≤ held.count b + extra.count b) :
    Backed { a with pool := (a.pool.release ids).2 } g held' (extra ++ bare) := by
  refine ⟨B.sound.release ids, fun b => ?_⟩
  have hcover := B.cover b
  have hreturned := h b
  show _ + a.cache.blocks.count b ≤ (a.pool.release ids).2.refsOf b + _
  rw [Pool.refsOf_release B.sound.reserved, List.count_append]
  omega

theorem Backed.retain (B : a.Backed g held bare) (h : ∀ b ∈ ids, 0 < a.pool.refsOf b) :
    Backed { a with pool := a.pool.retainAll ids } g (ids ++ held) bare := by
  refine ⟨B.sound.retain h, fun b => ?_⟩
  have hcover := B.cover b
  show _ + a.cache.blocks.count b ≤ (a.pool.retainAll ids).refsOf b + _
  rw [Pool.refsOf_retainAll (fun b hb => Pool.lt_total_of_refsOf (h b hb)), List.count_append]
  omega

/-! ### Requests for blocks -/

/-- An evicted entry takes one reference with it, be it its own or not. -/
theorem Backed.evict (B : a.Backed g held bare) (n : Nat) :
    ∃ a', Allocator.evict n a = .ok () a' ∧ a'.Backed g held bare := by
  induction n generalizing a with
  | zero => exact ⟨a, rfl, B⟩
  | succ n ih =>
    rcases B.sound.index.popLru a.cachedOnly with ⟨b, c, hp⟩ | ⟨hp, -⟩
    · obtain ⟨t, h, hl, ⟨e, hf, rfl⟩, -, rfl⟩ := PrefixCache.popLru_eq_some hp
      have hperm := B.sound.index.blocks_remove (PrefixCache.mem_entries_of_lookup hf) t
      have B₁ : Backed { a with
          cache := a.cache.remove t h, pool := (a.pool.release [e.block]).2 } g held bare := by
        refine ⟨{ B.sound.release [e.block] with index := B.sound.index.remove hl }, fun b => ?_⟩
        -- one entry less on its block, and one reference less if there was any
        have hcover := B.cover b
        rw [hperm.count_eq, ← List.singleton_append, List.count_append] at hcover
        show _ + (a.cache.remove t h).blocks.count b
          ≤ (a.pool.release [e.block]).2.refsOf b + _
        rw [Pool.refsOf_release B.sound.reserved]
        omega
      obtain ⟨a', hok, B'⟩ := ih B₁
      refine ⟨a', ?_, B'⟩
      rw [Allocator.evict]
      simp only [hp]
      exact hok
    · refine ⟨a, ?_, B⟩
      rw [Allocator.evict]
      simp only [hp]

/-- What is handed out had no reference, so that only a bare block can be among it that
somebody holds. -/
theorem Backed.handOut (B : a.Backed g held bare) (n : Nat) :
    Ends (fun ids a' => a'.Backed g (ids ++ held) bare ∧ ∀ b ∈ ids, held.count b ≤ bare.count b)
      (fun a' => a'.Backed g held bare) (onPool (fun p => p.malloc n) a) := by
  rcases Nat.lt_or_ge a.pool.freeCount n with hshort | henough
  · rw [onPool_of_error (Pool.malloc_eq_error hshort)]
    exact B
  · rw [onPool_of_ok (B.sound.pool.malloc_eq_ok henough)]
    have hzero : ∀ b ∈ a.pool.free.take n, a.pool.refsOf b = 0 := fun b hb =>
      ((B.sound.pool.mem_free b).mp (List.mem_of_mem_take hb)).2.2
    refine ⟨⟨{ B.sound with pool := B.sound.pool.handOut n, reserved := ?_ }, fun b => ?_⟩,
      fun b hb => ?_⟩
    · show (a.pool.handOut n).refsOf Pool.reserved = 0
      rw [B.sound.pool.refsOf_handOut, B.sound.reserved, List.count_eq_zero_of_not_mem]
      exact fun hr => Nat.lt_irrefl 0 (B.sound.pool.inRange _ (List.mem_of_mem_take hr)).1
    · -- what is counted on blocks handed out are their new references
      have hcover := B.cover b
      rw [List.count_append]
      show _ + a.cache.blocks.count b ≤ (a.pool.handOut n).refsOf b + _
      rw [B.sound.pool.refsOf_handOut]
      omega
    · have hcover := B.cover b
      rw [hzero b hb] at hcover
      omega

theorem Backed.malloc (B : a.Backed g held bare) (n : Nat) :
    Ends (fun ids a' => a'.Backed g (ids ++ held) bare ∧ ∀ b ∈ ids, held.count b ≤ bare.count b)
      (fun a' => a'.Backed g held bare) (Allocator.malloc n a) := by
  unfold Allocator.malloc
  rw [bind_get]
  split
  · rcases Word.add a.pool.freeCount a.evictableCount with e | available
    · exact B
    · dsimp only
      split
      · exact B
      · obtain ⟨a', hok, B'⟩ := B.evict (n - a.pool.freeCount)
        rw [bind_of_ok hok]
        exact B'.handOut n
  · exact B.handOut n

/-! ### Sharing -/

/-- The pool counts references on the block. -/
def inUse (a : Allocator) (b : Nat) : Bool := a.pool.refsOf b ≠ 0

/-- Either all blocks of a list are in use or there is a first one that is not. -/
theorem inUse_or_first_unused (a : Allocator) (ids : List Nat) :
    ((∀ b ∈ ids, 0 < a.pool.refsOf b) ∧ ids.dropWhile a.inUse = []) ∨
      ∃ front b back, ids = front ++ b :: back ∧ (∀ d ∈ front, 0 < a.pool.refsOf d) ∧
        a.pool.refsOf b = 0 ∧ ids.dropWhile a.inUse = b :: back := by
  induction ids with
  | nil => exact Or.inl ⟨fun b hb => absurd hb List.not_mem_nil, rfl⟩
  | cons id ids ih =>
    by_cases hid : a.pool.refsOf id = 0
    · refine Or.inr ⟨[], id, ids, rfl, fun d hd => absurd hd List.not_mem_nil, hid, ?_⟩
      exact List.dropWhile_cons_of_neg (by simp [inUse, hid])
    · have hpos : 0 < a.pool.refsOf id := Nat.pos_of_ne_zero hid
      have hskip : (id :: ids).dropWhile a.inUse = ids.dropWhile a.inUse :=
        List.dropWhile_cons_of_pos (by simp [inUse, hid])
      rw [hskip]
      rcases ih with ⟨hall, hnil⟩ | ⟨front, b, back, rfl, hfront, hb, hdrop⟩
      · exact Or.inl ⟨List.forall_mem_cons.mpr ⟨hpos, hall⟩, hnil⟩
      · exact Or.inr ⟨id :: front, b, back, rfl, List.forall_mem_cons.mpr ⟨hpos, hfront⟩, hb,
          hdrop⟩

theorem shareAll_append (l l' : List Nat) (a : Allocator) :
    shareAll (l ++ l') a = (shareAll l >>= fun _ => shareAll l') a := by
  induction l generalizing a with
  | nil => rfl
  | cons id l ih =>
    show (onPool (fun p => p.share id) >>= fun _ => shareAll (l ++ l')) a
      = ((onPool (fun p => p.share id) >>= fun _ => shareAll l) >>= fun _ => shareAll l') a
    rcases hshare : onPool (fun p => p.share id) a with ⟨r, a₁⟩ | ⟨e, a₁⟩
    · rw [bind_of_ok hshare, ih]
      have hfirst : (onPool (fun p => p.share id) >>= fun _ => shareAll l) a = shareAll l a₁ :=
        bind_of_ok hshare
      rcases hrest : shareAll l a₁ with ⟨u, a₂⟩ | ⟨e, a₂⟩
      · rw [bind_of_ok hrest, bind_of_ok (hfirst.trans hrest)]
      · rw [bind_of_error hrest, bind_of_error (hfirst.trans hrest)]
    · rw [bind_of_error hshare, bind_of_error (bind_of_error hshare)]

/-- Sharing stops at the first block that is not in use; the references taken before stay. -/
theorem shareAll_eq_error {front back : List Nat} {b : Nat}
    (h0 : a.pool.refsOf Pool.reserved = 0) (hfront : ∀ d ∈ front, 0 < a.pool.refsOf d)
    (hb : a.pool.refsOf b = 0) :
    shareAll (front ++ b :: back) a
      = .error (.error (.invariantViolation (.notAllocated b)))
        { a with pool := a.pool.retainAll front } := by
  rw [shareAll_append, bind_of_ok (shareAll_eq_ok h0 hfront)]
  exact bind_of_error (onPool_of_error (Pool.share_eq_error (refsOf_retainAll_of_unused hfront hb)))

theorem Backed.shareAll (B : a.Backed g held bare) (ids : List Nat) :
    Ends (fun _ a' => a'.Backed g (ids ++ held) bare) (fun a' => a'.Backed g held bare)
      (Allocator.shareAll ids a) := by
  rcases a.inUse_or_first_unused ids with ⟨hall, -⟩ | ⟨front, b, back, rfl, hfront, hb, -⟩
  · rw [shareAll_eq_ok B.sound.reserved hall]
    exact B.retain hall
  · rw [shareAll_eq_error B.sound.reserved hfront hb]
    refine (B.retain hfront).mono (fun d => ?_) fun _ => Nat.le_refl _
    rw [List.count_append]
    exact Nat.le_add_left _ _

/-! ### Covering tokens -/

theorem Backed.lookedUp (B : a.Backed g held bare) (tokens : List UInt32) (reuse : Bool) :
    Backed { a with cache := (a.matched tokens reuse).2 } g held bare := by
  have hsame := a.matched_same tokens reuse
  refine ⟨{ B.sound with index := ?_, cacheSize := hsame.blockSize.trans B.sound.cacheSize },
    fun b => ?_⟩
  · cases reuse with
    | true => exact B.sound.index.matchChain _ _
    | false => exact B.sound.index
  · show _ + (a.matched tokens reuse).2.blocks.count b ≤ _
    rw [blocks_matched]
    exact B.cover b

/-- References on the matched prefix that are given back were had. -/
theorem Backed.mallocWithCache (B : a.Backed g held bare) (tokens : List UInt32) (reuse : Bool) :
    Ends (fun grant a' => a'.Backed g (grant.ids ++ held) bare ∧
        ∀ b ∈ grant.ids.drop (grant.reused / g.blockSize), held.count b ≤ bare.count b)
      (fun a' => a'.Backed g held bare) (Allocator.mallocWithCache tokens reuse a) := by
  rw [mallocWithCache_lookup B.sound.blockSize_ne_zero]
  refine Ends.bind ((B.lookedUp tokens reuse).shareAll _) fun _ a₁ B₁ => ?_
  rw [bind_get, B₁.sound.geometry, blocksFor_eq_ok _ B.sound.sizePos]
  refine Ends.bind (Ends.tryCatch (B₁.malloc _) fun e a₂ B₂ => ?_) fun fresh a₂ h => ?_
  · -- the rest failed: the references on the prefix are dropped again
    rw [bind_of_ok (free_eq_ok a₂ _)]
    refine B₂.release [] fun b => Nat.le_of_eq ?_
    rw [List.count_append, Nat.add_comm]
    rfl
  · -- it was had
    obtain ⟨B₂, hfresh⟩ := h
    refine ⟨B₂.mono (fun b => ?_) fun _ => Nat.le_refl _, fun b hb => ?_⟩
    · show (((a.matched tokens reuse).1 ++ fresh) ++ held).count b ≤ _
      simp only [List.count_append]
      omega
    · replace hb : b ∈ ((a.matched tokens reuse).1 ++ fresh).drop
          ((a.matched tokens reuse).1.length * g.blockSize / g.blockSize) := hb
      rw [Nat.mul_div_cancel _ B.sound.sizePos, List.drop_left] at hb
      have hcount := hfresh b hb
      rw [List.count_append] at hcount
      omega

/-! ### Committing -/

/-- The blocks that a commit is to take a reference on, and the cache that it makes. -/
def takenUp (a : Allocator) (m : Commit) : List Nat × PrefixCache :=
  a.cache.insertChain none ((fullBlocks a.cache.blockSize m.tokens).zip m.ids)

/-- The blocks that a commit leaves in the cache without a reference: from the first one on
that is not in use. -/
def Commit.stranded (m : Commit) (a : Allocator) : List Nat := (a.takenUp m).1.dropWhile a.inUse

theorem blocks_takenUp (a : Allocator) (m : Commit) :
    (a.takenUp m).2.blocks = a.cache.blocks ++ (a.takenUp m).1 := by
  obtain ⟨added, hcontent, hblocks, -⟩ := PrefixCache.content_insertChain_zip a.cache none
    (fullBlocks a.cache.blockSize m.tokens) m.ids
  rw [PrefixCache.blocks_eq_content, PrefixCache.blocks_eq_content]
  show List.map _ (PrefixCache.content (PrefixCache.insertChain _ _ _).2) = _
  rw [hcontent, List.map_append, hblocks]
  rfl

theorem insertIntoCache_eq (hs : a.cache.blockSize ≠ 0) (m : Commit) :
    insertIntoCache m.tokens m.ids a
      = shareAll (a.takenUp m).1 { a with cache := (a.takenUp m).2 } := by
  have hinsert : onCache (fun c => c.insert m.tokens m.ids) a
      = .ok (a.takenUp m).1 { a with cache := (a.takenUp m).2 } :=
    onCache_of_ok (PrefixCache.insert_eq_ok hs m.tokens m.ids)
  exact bind_of_ok hinsert

/-- `a'` is `a` after a commit that failed at block `b`.  All that it was to commit is in the
cache, and the blocks before `b` have their reference. -/
structure Strands (a : Allocator) (m : Commit) (front : List Nat) (b : Nat) (back : List Nat)
    (e : Failure) (a' : Allocator) : Prop where
  added : a.cache.insert m.tokens m.ids = .ok (front ++ b :: back, a'.cache)
  grown : a'.cache.blocks = a.cache.blocks ++ (front ++ b :: back)
  backed : ∀ d ∈ front, 0 < a.pool.refsOf d
  unused : a.pool.refsOf b = 0
  error : e = .error (.invariantViolation (.notAllocated b))
  rest : a' = { a with cache := a'.cache, pool := a.pool.retainAll front }
  unchecked : ∃ d, a'.check = .error (.error (.invariantViolation (.cachedNotAllocated d)))

theorem Backed.takenUp (B : a.Backed g held bare) (m : Commit) :
    Backed { a with cache := (a.takenUp m).2 } g held ((a.takenUp m).1 ++ bare) := by
  refine ⟨{ B.sound with index := B.sound.index.insertChain _ _, cacheSize := ?_ }, fun b => ?_⟩
  · exact (PrefixCache.insertChain_same _ _ _).blockSize.trans B.sound.cacheSize
  · have hcover := B.cover b
    show _ + (a.takenUp m).2.blocks.count b ≤ a.pool.refsOf b + _
    rw [blocks_takenUp, List.count_append, List.count_append]
    omega

/-- What is stranded is bare from then on. -/
theorem Backed.insertIntoCache (B : a.Backed g held bare) (m : Commit) :
    Ends (fun _ a' => a'.Backed g held (m.stranded a ++ bare))
      (fun a' => a'.Backed g held (m.stranded a ++ bare))
      (Allocator.insertIntoCache m.tokens m.ids a) := by
  have B₁ := B.takenUp m
  rw [insertIntoCache_eq B.sound.blockSize_ne_zero, Commit.stranded]
  rcases a.inUse_or_first_unused (a.takenUp m).1 with
    ⟨hall, hnil⟩ | ⟨front, b, back, hsplit, hfront, hb, hdrop⟩
  · rw [shareAll_eq_ok B₁.sound.reserved hall, hnil]
    exact (B₁.retain hall).cancel
  · rw [hdrop, hsplit, shareAll_eq_error B₁.sound.reserved hfront hb]
    rw [hsplit, List.append_assoc] at B₁
    exact (B₁.retain hfront).cancel

/-- A commit fails just if it strands blocks. -/
theorem Sound.commit (S : a.Sound g) (m : Commit) :
    (m.stranded a = [] ∧ ∃ a', insertIntoCache m.tokens m.ids a = .ok () a') ∨
      ∃ e front b back a', insertIntoCache m.tokens m.ids a = .error e a' ∧
        m.stranded a = b :: back ∧ Strands a m front b back e a' := by
  have hnothing : a.Backed g [] a.cache.blocks := ⟨S, fun b => by
    rw [List.count_nil, Nat.zero_add]
    exact Nat.le_add_left _ _⟩
  have S₁ := (hnothing.takenUp m).sound
  rw [insertIntoCache_eq S.blockSize_ne_zero]
  rcases a.inUse_or_first_unused (a.takenUp m).1 with
    ⟨hall, hnil⟩ | ⟨front, b, back, hsplit, hfront, hb, hdrop⟩
  · -- all new entries are on blocks in use
    exact Or.inl ⟨hnil, _, shareAll_eq_ok S₁.reserved hall⟩
  · -- the first that is not ends the sharing, when all entries are in the cache already
    have hblocks := a.blocks_takenUp m
    rw [hsplit] at hblocks
    have hmem : b ∈ (a.takenUp m).2.blocks := by
      rw [hblocks]
      simp
    refine Or.inr ⟨.error (.invariantViolation (.notAllocated b)), front, b, back, { a with
      cache := (a.takenUp m).2, pool := a.pool.retainAll front }, ?_, hdrop, ?_, hblocks, hfront,
      hb, rfl, rfl, (S₁.retain hfront).check_eq_error hmem (refsOf_retainAll_of_unused hfront hb)⟩
    · rw [hsplit]
      exact shareAll_eq_error S₁.reserved hfront hb
    · rw [PrefixCache.insert_eq_ok S.blockSize_ne_zero, ← hsplit]
      rfl

theorem Backed.clearCache (B : a.Backed g held bare) (order : List Nat) :
    Ends (fun _ a' => a'.Backed g held bare) (fun a' => a'.Backed g held bare)
      (Allocator.clearCache order a) := by
  -- the references of all entries are held by the one who drops them
  have B₁ : Backed { a with cache := (a.cache.clear order).2 } g
      (a.cache.drained order ++ held) bare := by
    refine ⟨{ B.sound with index := PrefixCache.Indexed.clear _ order }, fun b => ?_⟩
    have hcover := B.cover b
    rw [List.count_append, (PrefixCache.drained_perm a.cache order).count_eq,
      Nat.add_comm (List.count b a.cache.blocks)]
    exact hcover
  rw [clearCache_eq, free_eq_ok]
  refine B₁.release [] fun b => Nat.le_of_eq ?_
  rw [List.count_append, Nat.add_comm]
  rfl

/-! ### Any clients -/

/-- The blocks that a call strands. -/
def Call.stranded (call : Call) (a : Allocator) : List Nat :=
  match call.commit? with
  | some m => m.stranded a
  | none => []

/-- In a call that commits nothing but the insertion can fail. -/
theorem Sound.carry_commit (S : a.Sound g) {call : Call} {m : Commit}
    (hm : call.commit? = some m) :
    (m.stranded a = [] ∧ ∃ t a', carry call a = .ok t a') ∨
      ∃ e front b back a', carry call a = .error e a' ∧ m.stranded a = b :: back ∧
        Strands a m front b back e a' := by
  -- after the commit only a release can follow, and that never fails
  rcases S.commit m with ⟨hnil, a', hok⟩ | ⟨e, front, b, back, a', herr, h⟩
  · refine Or.inl ⟨hnil, ?_⟩
    cases call with
    | insert tokens ids =>
      cases hm
      exact ⟨_, _, bind_of_ok hok⟩
    | freeWithCache tokens ids =>
      cases hm
      have hfree : freeWithCache tokens ids a
          = .ok (a'.pool.release ids).1 { a' with pool := (a'.pool.release ids).2 } := by
        show (insertIntoCache tokens ids >>= fun _ => free ids) _ = _
        rw [bind_of_ok hok]
        exact free_eq_ok a' ids
      exact ⟨_, _, bind_of_ok hfree⟩
    | malloc | mallocWithCache | free | clearCache => cases hm
  · refine Or.inr ⟨e, front, b, back, a', ?_, h⟩
    cases call with
    | insert tokens ids =>
      cases hm
      exact bind_of_error herr
    | freeWithCache tokens ids =>
      cases hm
      exact bind_of_error (bind_of_error herr)
    | malloc | mallocWithCache | free | clearCache => cases hm

namespace World

/-- The blocks that a client gives back by a call without having them. -/
def overdraft (w : World) (c : Client) (call : Call) : List Nat :=
  match carry call w.allocator with
  | .ok t _ => ((t.returned.map (Prod.mk c)).diff w.held).map Prod.snd
  | .error _ _ => []

/-- The blocks that have been stranded in the course of some calls. -/
def stranded : World → List (Client × Call) → List Nat
  | _, [] => []
  | w, (c, call) :: calls => call.stranded w.allocator ++ (w.serve c call).stranded calls

/-- The blocks that have been given back by clients who did not have them. -/
def overdrawn : World → List (Client × Call) → List Nat
  | _, [] => []
  | w, (c, call) :: calls => w.overdraft c call ++ (w.serve c call).overdrawn calls

variable {w : World}

/-- What becomes of the blocks in all hands together, whoever has what. -/
theorem count_exchange_add (held : List (Client × Nat)) (c : Client) (t : Transfer) (b : Nat) :
    ((exchange held c t).map Prod.snd).count b + t.returned.count b
      = t.received.count b + (held.map Prod.snd).count b
        + (((t.returned.map (Prod.mk c)).diff held).map Prod.snd).count b := by
  -- what is held or given back, each pair as often as it is more often
  have hperm : (held.diff (t.returned.map (Prod.mk c)) ++ t.returned.map (Prod.mk c)).Perm
      (held ++ (t.returned.map (Prod.mk c)).diff held) := by
    rw [List.perm_iff_count]
    intro x
    rw [List.count_append, List.count_append, List.count_diff, List.count_diff]
    omega
  have hcount := (hperm.map Prod.snd).count_eq b
  have hsnd : ∀ l : List Nat, (l.map (Prod.mk c)).map Prod.snd = l := fun l => by
    rw [List.map_map]
    exact List.map_id l
  rw [List.map_append, List.map_append, List.count_append, List.count_append, hsnd] at hcount
  rw [exchange, List.map_append, List.count_append, hsnd]
  omega

/-- Blocks received are in the hands of the client. -/
theorem backed_received {t : Transfer} (ht : t.returned = []) (c : Client) (extra : List Nat)
    (B : a'.Backed g (t.received ++ w.blocks) (extra ++ bare)) :
    a'.Backed g ((exchange w.held c t).map Prod.snd)
      (extra ++ (((t.returned.map (Prod.mk c)).diff w.held).map Prod.snd ++ bare)) := by
  refine B.mono (fun b => ?_) fun b => ?_
  · have hcount := count_exchange_add w.held c t b
    rw [ht, List.map_nil, List.nil_diff, List.map_nil, List.count_nil] at hcount
    rw [List.count_append]
    exact Nat.le_of_eq hcount
  · simp only [List.count_append]
    omega

/-- References given back are dropped, had or not. -/
theorem backed_returned (c : Client) (ids extra : List Nat)
    (B : a'.Backed g w.blocks (extra ++ bare)) :
    Backed { a' with pool := (a'.pool.release ids).2 } g
      ((exchange w.held c { returned := ids }).map Prod.snd)
      (extra ++ (((ids.map (Prod.mk c)).diff w.held).map Prod.snd ++ bare)) := by
  refine (B.release (((ids.map (Prod.mk c)).diff w.held).map Prod.snd) fun b => ?_).mono
    (fun _ => Nat.le_refl _) fun b => ?_
  · have hcount := count_exchange_add w.held c { returned := ids } b
    rw [List.count_nil, Nat.zero_add] at hcount
    exact Nat.le_of_eq hcount
  · simp only [List.count_append]
    omega

/-- What a call comes to, for a client who may do anything. -/
theorem backed_carry (B : w.allocator.Backed g w.blocks bare) (c : Client) (call : Call) :
    Ends (fun t a' => a'.Backed g ((exchange w.held c t).map Prod.snd)
          (call.stranded w.allocator ++
            (((t.returned.map (Prod.mk c)).diff w.held).map Prod.snd ++ bare)) ∧
        ∀ b ∈ t.fresh, w.blocks.count b ≤ bare.count b)
      (fun a' => a'.Backed g w.blocks (call.stranded w.allocator ++ bare))
      (carry call w.allocator) := by
  cases call with
  | malloc n =>
    refine Ends.bind (B.malloc n) fun ids a' h => ?_
    exact ⟨backed_received rfl c [] h.1, h.2⟩
  | mallocWithCache tokens reuse =>
    refine Ends.bind (B.mallocWithCache tokens reuse) fun grant a' h => ?_
    obtain ⟨B', hfresh⟩ := h
    refine ⟨backed_received rfl c [] B', fun b hb => hfresh b ?_⟩
    rw [← B'.sound.geometry]
    exact hb
  | free ids =>
    rw [Allocator.carry, bind_of_ok (free_eq_ok _ _)]
    exact ⟨backed_returned c ids [] B, fun b hb => absurd hb List.not_mem_nil⟩
  | insert tokens ids =>
    refine Ends.bind (B.insertIntoCache ⟨tokens, ids⟩) fun _ a' B' => ?_
    exact ⟨backed_received rfl c _ B', fun b hb => absurd hb List.not_mem_nil⟩
  | freeWithCache tokens ids =>
    -- what is stranded is stranded by the commit, before anything is given back
    have hcommit : Ends (fun _ a' => Backed a' g
          ((exchange w.held c { returned := ids }).map Prod.snd)
          (Call.stranded (.freeWithCache tokens ids) w.allocator ++
            (((ids.map (Prod.mk c)).diff w.held).map Prod.snd ++ bare)))
        (fun a' => a'.Backed g w.blocks
          (Call.stranded (.freeWithCache tokens ids) w.allocator ++ bare))
        (freeWithCache tokens ids w.allocator) := by
      refine Ends.bind (B.insertIntoCache ⟨tokens, ids⟩) fun _ a' B' => ?_
      exact backed_returned c ids _ B'
    refine Ends.bind hcommit fun _ a' B' => ?_
    exact ⟨B', fun b hb => absurd hb List.not_mem_nil⟩
  | clearCache order =>
    refine Ends.bind (B.clearCache order) fun _ a' B' => ?_
    exact ⟨backed_received rfl c [] B', fun b hb => absurd hb List.not_mem_nil⟩

theorem backed_serve (B : w.allocator.Backed g w.blocks bare) (c : Client) (call : Call) :
    (w.serve c call).allocator.Backed g (w.serve c call).blocks
      (call.stranded w.allocator ++ (w.overdraft c call ++ bare)) := by
  have hends := backed_carry B c call
  unfold World.serve World.overdraft
  rcases hcarry : Allocator.carry call w.allocator with ⟨t, a'⟩ | ⟨e, a'⟩
  · rw [hcarry] at hends
    exact hends.1
  · rw [hcarry] at hends
    exact hends

/-- After any calls the references cover what is held and cached, but for what has been
stranded or overdrawn. -/
theorem backed_serveAll (B : w.allocator.Backed g w.blocks bare) (calls : List (Client × Call)) :
    (w.serveAll calls).allocator.Backed g (w.serveAll calls).blocks
      (w.stranded calls ++ (w.overdrawn calls ++ bare)) := by
  induction calls generalizing w bare with
  | nil => exact B
  | cons call calls ih =>
    obtain ⟨c, call⟩ := call
    refine (ih (backed_serve B c call)).mono (fun _ => Nat.le_refl _) fun b => ?_
    simp only [World.stranded, World.overdrawn, List.count_append]
    omega

/-- A commit fails just if it strands blocks: then all that it was to commit is in the cache,
the blocks before the first unused one have their reference, and the check fails.  And whatever
clients do, a block is handed out as fresh that somebody holds only if a commit that failed has
stranded it, or a client gave it back without having it. -/
theorem failed_commits_strand {hash : ChainHash} {start : Allocator}
    (hnew : newWith hash g = .ok start) (calls : List (Client × Call)) :
    let w := serveAll ⟨start, []⟩ calls
    (∀ call m, call.commit? = some m →
      ((∃ e a', carry call w.allocator = .error e a') ↔ m.stranded w.allocator ≠ []) ∧
      ∀ e a', carry call w.allocator = .error e a' → ∃ front b back,
        m.stranded w.allocator = b :: back ∧ Strands w.allocator m front b back e a') ∧
    ∀ call t a', carry call w.allocator = .ok t a' → ∀ b ∈ t.fresh, ∀ c, (c, b) ∈ w.held →
      b ∈ stranded ⟨start, []⟩ calls ∨ b ∈ overdrawn ⟨start, []⟩ calls := by
  intro w
  have B : w.allocator.Backed g w.blocks _ :=
    backed_serveAll (w := ⟨start, []⟩) (backed_newWith hnew) calls
  refine ⟨fun call m hm => ?_, fun call t a' hok b hb c hheld => ?_⟩
  · rcases B.sound.carry_commit hm with
      ⟨hnil, t, a', hok⟩ | ⟨e, front, b, back, a', herr, hstranded, h⟩
    · refine ⟨iff_of_false ?_ (fun hne => hne hnil), ?_⟩
      · rintro ⟨e, a'', he⟩
        cases hok.symm.trans he
      · intro e a'' he
        cases hok.symm.trans he
    · refine ⟨iff_of_true ⟨e, a', herr⟩ (hstranded ▸ List.cons_ne_nil b back), ?_⟩
      intro e' a'' he
      cases herr.symm.trans he
      exact ⟨front, b, back, hstranded, h⟩
  · -- a block of which somebody has more than there are references is bare
    have hends := backed_carry B 0 call
    rw [hok] at hends
    have hle := hends.2 b hb
    have hpos : 0 < w.blocks.count b :=
      List.count_pos_iff.mpr (List.mem_map.mpr ⟨(c, b), hheld, rfl⟩)
    have hbare := List.count_pos_iff.mp (Nat.lt_of_lt_of_le hpos hle)
    simpa using hbare

/-- A client commits two blocks of which it has only the first one, and gets neither.  The other
one is handed out to a second client. -/
def stranding : List (Client × Call) :=
  [(0, .malloc 1), (0, .insert [1, 2, 3, 4] [1, 2]), (1, .malloc 1)]

/-- The commit strands the other block; it takes a reference on the first one that nobody will
drop.  Nobody gives back what it does not have, so the block that a third client is handed out
while the second one holds it is the one that was stranded. -/
theorem failed_commits_strand_second :
    ∃ start, newWith chainHash { blocks := 4, blockSize := 2 } = .ok start ∧
      let w := serveAll ⟨start, []⟩ (stranding.take 1)
      let v := serveAll ⟨start, []⟩ stranding
      (∃ e a', carry (.insert [1, 2, 3, 4] [1, 2]) w.allocator = .error e a' ∧
        Strands w.allocator ⟨[1, 2, 3, 4], [1, 2]⟩ [1] 2 [] e a') ∧
      v.held = [(1, 2), (0, 1)] ∧ overdrawn ⟨start, []⟩ stranding = [] ∧
      ∃ t a', carry (.malloc 2) v.allocator = .ok t a' ∧ t.fresh = [3, 2] ∧
        2 ∈ stranded ⟨start, []⟩ stranding := by
  have hrun : (newWith chainHash { blocks := 4, blockSize := 2 }).toOption.map
      (fun start =>
        let w := serveAll ⟨start, []⟩ (stranding.take 1)
        let v := serveAll ⟨start, []⟩ stranding
        ([(w.allocator.takenUp ⟨[1, 2, 3, 4], [1, 2]⟩).1,
            Commit.stranded ⟨[1, 2, 3, 4], [1, 2]⟩ w.allocator, overdrawn ⟨start, []⟩ stranding],
          v.held, (match carry (.malloc 2) v.allocator with
          | .ok t _ => some t.fresh
          | .error _ _ => none)))
      = some ([[1, 2], [2], []], [(1, 2), (0, 1)], some [3, 2]) := by decide +kernel
  obtain ⟨start, hnew, hfacts⟩ := exists_newWith hrun
  simp only [Prod.mk.injEq, List.cons.injEq, and_true] at hfacts
  obtain ⟨⟨htaken, hstranded, hoverdrawn⟩, hheld, hfresh⟩ := hfacts
  refine ⟨start, hnew, ?_, hheld, hoverdrawn, ?_⟩
  · obtain ⟨hcommits, -⟩ := failed_commits_strand hnew (stranding.take 1)
    obtain ⟨hfails, hstrands⟩ :=
      hcommits (.insert [1, 2, 3, 4] [1, 2]) ⟨[1, 2, 3, 4], [1, 2]⟩ rfl
    obtain ⟨e, a', herr⟩ := hfails.mpr (by rw [hstranded]; exact List.cons_ne_nil _ _)
    obtain ⟨front, b, back, hsplit, h⟩ := hstrands e a' herr
    rw [hstranded] at hsplit
    obtain ⟨rfl, rfl⟩ := List.cons.inj hsplit
    -- what is not stranded comes before
    have hfront : front = [1] := by
      have hadded := h.added
      rw [PrefixCache.insert] at hadded
      split at hadded
      · cases hadded
      · have htaken' := congrArg Prod.fst (Except.ok.inj hadded)
        exact List.append_cancel_right (htaken'.symm.trans htaken)
    exact ⟨e, a', herr, hfront ▸ h⟩
  · rcases hcarry : carry (.malloc 2) (serveAll ⟨start, []⟩ stranding).allocator
      with ⟨t, a'⟩ | ⟨e, a'⟩
    · rw [hcarry] at hfresh
      obtain ⟨-, hbare⟩ := failed_commits_strand hnew stranding
      have hfresh : t.fresh = [3, 2] := Option.some.inj hfresh
      refine ⟨t, a', rfl, hfresh, ?_⟩
      have htwo := hbare _ t a' hcarry 2 (by rw [hfresh]; decide) 1 (by rw [hheld]; decide)
      rw [hoverdrawn] at htwo
      exact htwo.resolve_right List.not_mem_nil
    · rw [hcarry] at hfresh
      cases hfresh

/-- One commit of a free block is enough.  It fails and leaves an entry; then the block is handed
out to one client and, though this one gives nothing back, to the next. -/
theorem failed_commit_hands_out_twice :
    ∃ start, newWith chainHash { blocks := 3, blockSize := 2 } = .ok start ∧
      start.cache.blocks = [] ∧
      (∃ e a', insertIntoCache [1, 2] [1] start = .error e a' ∧ a'.cache.blocks = [1]) ∧
      let calls : List (Client × Call) := [(0, .insert [1, 2] [1]), (0, .malloc 1)]
      let w := serveAll ⟨start, []⟩ calls
      overdrawn ⟨start, []⟩ calls = [] ∧ w.held = [(0, 1)] ∧
      ∃ ids a', malloc 2 w.allocator = .ok ids a' ∧ 1 ∈ ids := by
  have hrun : (newWith chainHash { blocks := 3, blockSize := 2 }).toOption.map
      (fun start =>
        let calls : List (Client × Call) := [(0, .insert [1, 2] [1]), (0, .malloc 1)]
        let w := serveAll ⟨start, []⟩ calls
        ([start.cache.blocks, overdrawn ⟨start, []⟩ calls], w.held,
          (match insertIntoCache [1, 2] [1] start with
          | .ok _ _ => none
          | .error _ a' => some a'.cache.blocks),
          match malloc 2 w.allocator with
          | .ok ids _ => some ids
          | .error _ _ => none))
      = some ([[], []], [(0, 1)], some [1], some [2, 1]) := by decide +kernel
  obtain ⟨start, hnew, hfacts⟩ := exists_newWith hrun
  simp only [Prod.mk.injEq, List.cons.injEq, and_true] at hfacts
  obtain ⟨⟨hempty, hoverdrawn⟩, hheld, hinsert, hmalloc⟩ := hfacts
  refine ⟨start, hnew, hempty, ?_, hoverdrawn, hheld, ?_⟩
  · rcases herr : insertIntoCache [1, 2] [1] start with ⟨u, a'⟩ | ⟨e, a'⟩
    · rw [herr] at hinsert
      cases hinsert
    · rw [herr] at hinsert
      exact ⟨e, a', rfl, Option.some.inj hinsert⟩
  · rcases hok : malloc 2 (serveAll ⟨start, []⟩ [(0, .insert [1, 2] [1]), (0, .malloc 1)]).allocator
      with ⟨ids, a'⟩ | ⟨e, a'⟩
    · rw [hok] at hmalloc
      obtain rfl : ids = [2, 1] := Option.some.inj hmalloc
      exact ⟨_, a', rfl, by decide⟩
    · rw [hok] at hmalloc
      cases hmalloc

end World

end Allocator

end PagedServe
