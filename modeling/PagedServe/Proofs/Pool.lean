/-
PagedServe/Proofs/Pool.lean

What the operations of the pool do to the counts, and that they keep the pool
consistent.

`refsOf` reads a pool as a function from blocks to references.  Through it each
operation is an equation:

* releasing a list takes as many references from a block as the list has of it
  (`refsOf_release`);
* sharing a block adds one to it (`share_eq_ok`);
* handing out a list adds what the list has of each block
  (`Consistent.refsOf_handOut`).

Main results: `Consistent.release`, `Consistent.retainAll` and `Consistent.handOut`.
Each rests on the same remark (`Consistent.of_refsOf`): a pool is consistent as
long as its free list has no repetitions and lists the blocks with count zero.
-/
import PagedServe.Pool
import Mathlib.Data.List.Nodup

namespace PagedServe

namespace Pool

/-- The references on a block; an unknown block has none. -/
def refsOf (p : Pool) (id : Nat) : Nat := (p.refCount? id).getD 0

theorem refCount?_eq_some_refsOf {p : Pool} {id : Nat} (h : id < p.total) :
    p.refCount? id = some (p.refsOf id) := by
  have hget : p.refCount? id = some p.refs[id] := Array.getElem?_eq_getElem h
  rw [refsOf, hget, Option.getD_some]

theorem refCount?_eq_none {p : Pool} {id : Nat} (h : p.total ≤ id) : p.refCount? id = none :=
  Array.getElem?_eq_none h

theorem refsOf_eq_zero_of_le {p : Pool} {id : Nat} (h : p.total ≤ id) : p.refsOf id = 0 := by
  rw [refsOf, refCount?_eq_none h, Option.getD_none]

/-- In pools of one size, equal numbers of references are equal counts. -/
theorem refCount?_congr {p p' : Pool} (ht : p'.total = p.total) {id : Nat}
    (h : p'.refsOf id = p.refsOf id) : p'.refCount? id = p.refCount? id := by
  rcases Nat.lt_or_ge id p.total with hlt | hge
  · rw [refCount?_eq_some_refsOf hlt, refCount?_eq_some_refsOf (ht ▸ hlt), h]
  · rw [refCount?_eq_none hge, refCount?_eq_none (ht ▸ hge)]

/-- A pool is its size, its references and its free list. -/
theorem ext_refsOf {p p' : Pool} (ht : p'.total = p.total) (hr : ∀ b, p'.refsOf b = p.refsOf b)
    (hf : p'.free = p.free) : p' = p := by
  have hrefs : p'.refs = p.refs := Array.ext_getElem? fun b => refCount?_congr ht (hr b)
  obtain ⟨refs, free⟩ := p
  obtain ⟨refs', free'⟩ := p'
  obtain rfl : refs' = refs := hrefs
  obtain rfl : free' = free := hf
  rfl

/-- Only blocks of the pool have references. -/
theorem lt_total_of_refsOf {p : Pool} {id : Nat} (h : 0 < p.refsOf id) : id < p.total := by
  by_contra hle
  rw [refsOf_eq_zero_of_le (Nat.le_of_not_lt hle)] at h
  exact Nat.lt_irrefl 0 h

theorem block?_eq_refsOf {p : Pool} {id : Nat} (h : id < p.total) :
    p.block? id = some ⟨id, p.refsOf id⟩ :=
  block?_eq_some.mpr ⟨rfl, refCount?_eq_some_refsOf h⟩

theorem block?_eq_none {p : Pool} {id : Nat} (h : p.total ≤ id) : p.block? id = none := by
  have hget : p.refs[id]? = none := Array.getElem?_eq_none h
  rw [block?, hget, Option.map_none]

theorem refsOf_store (p : Pool) (b : Block) (id : Nat) :
    (p.store b).refsOf id = if b.id = id ∧ id < p.total then b.refs else p.refsOf id := by
  rw [refsOf, refCount?_store]
  split
  · rfl
  · rfl

theorem refsOf_new (n id : Nat) : (new n).refsOf id = 0 := by
  by_cases h : id < n <;> simp [refsOf, refCount?, new, h]

theorem total_new (n : Nat) : (new n).total = n := Array.size_replicate

/-- There is room for the blocks of a pool, so they can be counted. -/
theorem create_eq_ok {n : Nat} {p : Pool} (h : create n = .ok p) : p = new n ∧ n < Word.limit := by
  unfold create at h
  rcases hroom : Word.room n recordBytes with e | ⟨⟩
  · rw [hroom] at h
    exact absurd h (by simp [bind, Except.bind])
  · rw [hroom] at h
    have hbytes : n * 16 ≤ Word.limit / 2 - 1 := Word.room_eq_ok.mp hroom
    have hlimit : 0 < Word.limit := by decide
    exact ⟨(Except.ok.inj h).symm, by omega⟩

theorem create_of_room {n : Nat} (h : n * recordBytes ≤ Word.maxBytes) :
    create n = .ok (new n) := by
  unfold create
  rw [Word.room_eq_ok.mpr h]
  rfl

/-- A pool is consistent if its free list has no repetitions and lists just the
blocks with count zero. -/
theorem Consistent.of_refsOf {p : Pool} (hd : p.free.Nodup)
    (hm : ∀ id, id ∈ p.free ↔ 0 < id ∧ id < p.total ∧ p.refsOf id = 0) : p.Consistent where
  nodup := hd
  inRange := fun id h => ⟨((hm id).mp h).1, ((hm id).mp h).2.1⟩
  free_iff := by
    intro id hpos hlt
    rw [hm, refCount?_eq_some_refsOf hlt, Option.some.injEq]
    exact ⟨fun h => h.2.2, fun h => ⟨hpos, hlt, h⟩⟩

theorem Consistent.mem_free {p : Pool} (h : p.Consistent) (id : Nat) :
    id ∈ p.free ↔ 0 < id ∧ id < p.total ∧ p.refsOf id = 0 := by
  constructor
  · intro hid
    obtain ⟨hpos, hlt⟩ := h.inRange id hid
    refine ⟨hpos, hlt, ?_⟩
    rw [refsOf, (h.free_iff id hpos hlt).mp hid, Option.getD_some]
  · rintro ⟨hpos, hlt, hzero⟩
    rw [h.free_iff id hpos hlt, refCount?_eq_some_refsOf hlt, hzero]

/-! ### Dropping references -/

/-- A block that is reserved, unknown or free is skipped. -/
theorem releaseOne_of_skipped {p : Pool} {id : Nat} (h : id = reserved ∨ p.refsOf id = 0) :
    p.releaseOne id = (false, p) := by
  unfold releaseOne
  rcases h with rfl | h
  · rw [if_pos rfl]
  · split
    · rfl
    · rcases Nat.lt_or_ge id p.total with hlt | hge
      · rw [block?_eq_refsOf hlt, h]
        rfl
      · rw [block?_eq_none hge]

/-- The pool after one reference was taken from a block in use. -/
def dropRef (p : Pool) (id : Nat) : Pool :=
  { p.store ⟨id, p.refsOf id - 1⟩ with
    free := if p.refsOf id = 1 then p.free ++ [id] else p.free }

/-- A block in use loses a reference, and the last reference frees it. -/
theorem releaseOne_of_used {p : Pool} {id : Nat} (hr : id ≠ reserved) (h : p.refsOf id ≠ 0) :
    p.releaseOne id = (decide (p.refsOf id = 1), p.dropRef id) := by
  have hlt : id < p.total := lt_total_of_refsOf (Nat.pos_of_ne_zero h)
  unfold releaseOne dropRef
  rw [if_neg hr, block?_eq_refsOf hlt]
  rcases hn : p.refsOf id with - | - | n
  · exact absurd hn h
  · rfl
  · rfl

theorem refsOf_dropRef {p : Pool} {id : Nat} (h : p.refsOf id ≠ 0) (b : Nat) :
    (p.dropRef id).refsOf b = if b = id then p.refsOf b - 1 else p.refsOf b := by
  show (p.store ⟨id, p.refsOf id - 1⟩).refsOf b = _
  rw [refsOf_store]
  by_cases hb : b = id
  · subst hb
    rw [if_pos ⟨rfl, lt_total_of_refsOf (Nat.pos_of_ne_zero h)⟩, if_pos rfl]
  · rw [if_neg (fun hc => hb hc.1.symm), if_neg hb]

@[simp] theorem total_dropRef (p : Pool) (id : Nat) : (p.dropRef id).total = p.total :=
  total_store p ⟨id, p.refsOf id - 1⟩

@[simp] theorem total_releaseOne (p : Pool) (id : Nat) : (p.releaseOne id).2.total = p.total := by
  by_cases hskip : id = reserved ∨ p.refsOf id = 0
  · rw [releaseOne_of_skipped hskip]
  · obtain ⟨hr, hz⟩ := not_or.mp hskip
    rw [releaseOne_of_used hr hz, total_dropRef]

theorem refsOf_releaseOne (p : Pool) (id b : Nat) :
    (p.releaseOne id).2.refsOf b =
      if b = id ∧ id ≠ reserved then p.refsOf b - 1 else p.refsOf b := by
  by_cases hskip : id = reserved ∨ p.refsOf id = 0
  · rw [releaseOne_of_skipped hskip]
    split
    case isTrue h =>
      -- the block is free, and taking one from nothing leaves nothing
      obtain ⟨rfl, hr⟩ := h
      have hz := hskip.resolve_left hr
      show p.refsOf b = p.refsOf b - 1
      omega
    case isFalse => rfl
  · obtain ⟨hr, hz⟩ := not_or.mp hskip
    rw [releaseOne_of_used hr hz, refsOf_dropRef hz]
    simp only [and_iff_left hr]

theorem Consistent.dropRef {p : Pool} (h : p.Consistent) {id : Nat} (hr : id ≠ reserved)
    (hz : p.refsOf id ≠ 0) : (p.dropRef id).Consistent := by
  have hpos : 0 < id := Nat.pos_of_ne_zero hr
  have hlt : id < p.total := lt_total_of_refsOf (Nat.pos_of_ne_zero hz)
  have hnot : id ∉ p.free := fun hid => hz ((h.mem_free id).mp hid).2.2
  have hfree : ∀ b, b ∈ (p.dropRef id).free ↔ b ∈ p.free ∨ b = id ∧ p.refsOf id = 1 := by
    intro b
    show b ∈ (if p.refsOf id = 1 then p.free ++ [id] else p.free) ↔ _
    split
    case isTrue hone => rw [List.mem_append, List.mem_singleton, and_iff_left hone]
    case isFalse hmore => rw [or_iff_left fun hc => hmore hc.2]
  refine .of_refsOf ?_ fun b => ?_
  · show (if p.refsOf id = 1 then p.free ++ [id] else p.free).Nodup
    split
    · exact List.Nodup.append h.nodup (List.nodup_singleton id) (List.disjoint_singleton.mpr hnot)
    · exact h.nodup
  · rw [hfree, refsOf_dropRef hz, total_dropRef]
    by_cases hb : b = id
    · -- the block itself is listed now just if this was its last reference
      subst hb
      rw [if_pos rfl, or_iff_right hnot]
      exact ⟨fun hc => ⟨hpos, hlt, by omega⟩, fun hc => ⟨rfl, by omega⟩⟩
    · rw [if_neg hb, or_iff_left fun hc => hb hc.1]
      exact h.mem_free b

theorem Consistent.releaseOne {p : Pool} (h : p.Consistent) (id : Nat) :
    (p.releaseOne id).2.Consistent := by
  by_cases hskip : id = reserved ∨ p.refsOf id = 0
  · rw [releaseOne_of_skipped hskip]
    exact h
  · obtain ⟨hr, hz⟩ := not_or.mp hskip
    rw [releaseOne_of_used hr hz]
    exact h.dropRef hr hz

theorem release_cons (p : Pool) (id : Nat) (ids : List Nat) :
    p.release (id :: ids) = ((p.releaseOne id).1.toNat + ((p.releaseOne id).2.release ids).1,
      ((p.releaseOne id).2.release ids).2) := rfl

@[simp] theorem total_release (p : Pool) (ids : List Nat) : (p.release ids).2.total = p.total := by
  induction ids generalizing p with
  | nil => rfl
  | cons id ids ih =>
    rw [release_cons, ih, total_releaseOne]

/-- Whatever is released, the reserved block keeps its count. -/
theorem refsOf_release_reserved (p : Pool) (ids : List Nat) :
    (p.release ids).2.refsOf reserved = p.refsOf reserved := by
  induction ids generalizing p with
  | nil => rfl
  | cons id ids ih =>
    rw [release_cons, ih, refsOf_releaseOne, if_neg fun hc => hc.2 hc.1.symm]

/-- Releasing a list takes as many references from a block as the list has of it, as far as
there are any. -/
theorem refsOf_release_of_ne {b : Nat} (hb : b ≠ reserved) (p : Pool) (ids : List Nat) :
    (p.release ids).2.refsOf b = p.refsOf b - ids.count b := by
  induction ids generalizing p with
  | nil => rfl
  | cons id ids ih =>
    rw [release_cons, ih, refsOf_releaseOne, List.count_cons]
    by_cases hid : b = id
    · subst hid
      rw [if_pos ⟨rfl, hb⟩, beq_self_eq_true, if_pos rfl, Nat.sub_sub, Nat.add_comm]
    · rw [if_neg (fun hc => hid hc.1), beq_false_of_ne (Ne.symm hid), if_neg Bool.false_ne_true,
        Nat.add_zero]

/-- If the reserved block has no references to lose, no block is an exception. -/
theorem refsOf_release {p : Pool} (h0 : p.refsOf reserved = 0) (ids : List Nat) (b : Nat) :
    (p.release ids).2.refsOf b = p.refsOf b - ids.count b := by
  by_cases hb : b = reserved
  · rw [hb, refsOf_release_reserved, h0, Nat.zero_sub]
  · exact refsOf_release_of_ne hb p ids

theorem Consistent.release {p : Pool} (h : p.Consistent) (ids : List Nat) :
    (p.release ids).2.Consistent := by
  induction ids generalizing p with
  | nil => exact h
  | cons id ids ih => exact ih (h.releaseOne id)

/-! ### Adding references -/

theorem refsOf_retain {p : Pool} {id : Nat} (h : id < p.total) (b : Nat) :
    (p.store (Block.retain ⟨id, p.refsOf id⟩)).refsOf b = p.refsOf b + [id].count b := by
  rw [refsOf_store, List.count_singleton]
  by_cases hb : b = id
  · subst hb
    rw [if_pos ⟨rfl, h⟩, beq_self_eq_true, if_pos rfl, Block.retain_refs]
  · rw [if_neg (fun hc => hb hc.1.symm), beq_false_of_ne (Ne.symm hb), if_neg Bool.false_ne_true,
      Nat.add_zero]

/-- A block in use can be shared; it gains one reference. -/
theorem share_eq_ok {p : Pool} {id : Nat} (h0 : p.refsOf reserved = 0) (h : 0 < p.refsOf id) :
    p.share id = .ok (p.refsOf id + 1, p.store (Block.retain ⟨id, p.refsOf id⟩)) := by
  have hr : id ≠ reserved := fun he => by rw [he, h0] at h; exact Nat.lt_irrefl 0 h
  have hused : Block.inUse ⟨id, p.refsOf id⟩ = true := bne_iff_ne.mpr (Nat.pos_iff_ne_zero.mp h)
  unfold share
  rw [block?_eq_refsOf (lt_total_of_refsOf h)]
  show (if id ≠ reserved ∧ Block.inUse ⟨id, p.refsOf id⟩ = true then _ else _) = _
  rw [if_pos ⟨hr, hused⟩]
  rfl

/-- A block without references cannot. -/
theorem share_eq_error {p : Pool} {id : Nat} (h : p.refsOf id = 0) :
    p.share id = .error (.error (.invariantViolation (.notAllocated id))) := by
  unfold share
  rcases hb : p.block? id with - | b
  · rfl
  · obtain ⟨-, hrefs⟩ := block?_eq_some.mp hb
    rw [refsOf, hrefs, Option.getD_some] at h
    have hunused : ¬ b.inUse = true := fun hc => bne_iff_ne.mp hc h
    show (if id ≠ reserved ∧ b.inUse = true then _ else _) = _
    rw [if_neg fun hc => hunused hc.2]

/-! ### Handing blocks out -/

/-- The pool after each listed block gained a reference; unknown ones are skipped. -/
def retainAll (p : Pool) (ids : List Nat) : Pool :=
  ids.foldl (fun p id => match p.block? id with
    | some b => p.store b.retain
    | none => p) p

theorem retainAll_cons_of_some {p : Pool} {id : Nat} {b : Block} (hb : p.block? id = some b)
    (ids : List Nat) : p.retainAll (id :: ids) = (p.store b.retain).retainAll ids := by
  simp only [retainAll, List.foldl_cons, hb]

theorem retainAll_cons_of_none {p : Pool} {id : Nat} (hb : p.block? id = none) (ids : List Nat) :
    p.retainAll (id :: ids) = p.retainAll ids := by
  simp only [retainAll, List.foldl_cons, hb]

@[simp] theorem total_retainAll (p : Pool) (ids : List Nat) :
    (p.retainAll ids).total = p.total := by
  induction ids generalizing p with
  | nil => rfl
  | cons id ids ih =>
    rcases hb : p.block? id with - | b
    · rw [retainAll_cons_of_none hb, ih]
    · rw [retainAll_cons_of_some hb, ih, total_store]

@[simp] theorem retainAll_free (p : Pool) (ids : List Nat) : (p.retainAll ids).free = p.free := by
  induction ids generalizing p with
  | nil => rfl
  | cons id ids ih =>
    rcases hb : p.block? id with - | b
    · rw [retainAll_cons_of_none hb, ih]
    · rw [retainAll_cons_of_some hb, ih, store_free]

/-- When the first of the listed blocks is written, the others are still blocks of the pool. -/
theorem lt_total_store_of_cons {p : Pool} {id : Nat} {ids : List Nat}
    (h : ∀ i ∈ id :: ids, i < p.total) (b : Block) : ∀ i ∈ ids, i < (p.store b).total := by
  intro i hi
  rw [total_store]
  exact h i (List.mem_cons_of_mem id hi)

theorem refsOf_retainAll {p : Pool} {ids : List Nat} (h : ∀ id ∈ ids, id < p.total) (b : Nat) :
    (p.retainAll ids).refsOf b = p.refsOf b + ids.count b := by
  induction ids generalizing p with
  | nil => rfl
  | cons id ids ih =>
    have hlt : id < p.total := h id List.mem_cons_self
    rw [retainAll_cons_of_some (block?_eq_refsOf hlt), ih (lt_total_store_of_cons h _),
      refsOf_retain hlt, Nat.add_assoc, ← List.count_append]
    rfl

/-- Blocks of the pool can be retained. -/
theorem retainEach_eq_ok {p : Pool} {ids : List Nat} (h : ∀ id ∈ ids, id < p.total) :
    p.retainEach ids = .ok (p.retainAll ids) := by
  induction ids generalizing p with
  | nil => rfl
  | cons id ids ih =>
    have hb := block?_eq_refsOf (h id List.mem_cons_self)
    rw [retainAll_cons_of_some hb, ← ih (lt_total_store_of_cons h _), retainEach, hb]

/-- Sharing blocks in use keeps a pool consistent, however often each is shared. -/
theorem Consistent.retainAll {p : Pool} (h : p.Consistent) {ids : List Nat}
    (hids : ∀ id ∈ ids, 0 < p.refsOf id) : (p.retainAll ids).Consistent := by
  have hlt : ∀ id ∈ ids, id < p.total := fun id hid => lt_total_of_refsOf (hids id hid)
  refine .of_refsOf ?_ ?_
  · rw [retainAll_free]
    exact h.nodup
  · intro b
    rw [retainAll_free, total_retainAll, refsOf_retainAll hlt, h.mem_free b]
    by_cases hb : b ∈ ids
    · have hpos := hids b hb
      exact ⟨fun hc => absurd hc.2.2 (by omega), fun hc => absurd hc.2.2 (by omega)⟩
    · rw [List.count_eq_zero_of_not_mem hb, Nat.add_zero]

/-- The pool after its first `n` free blocks were handed out. -/
def handOut (p : Pool) (n : Nat) : Pool :=
  retainAll { p with free := p.free.drop n } (p.free.take n)

theorem Consistent.malloc_eq_ok {p : Pool} (h : p.Consistent) {n : Nat} (hn : n ≤ p.freeCount) :
    p.malloc n = .ok (p.free.take n, p.handOut n) := by
  have hcan : p.canAllocate n = true := decide_eq_true hn
  have hids : retainEach { p with free := p.free.drop n } (p.free.take n) = .ok (p.handOut n) :=
    retainEach_eq_ok fun id hid => (h.inRange id (List.mem_of_mem_take hid)).2
  unfold malloc
  rw [if_pos hcan]
  simp only [hids]
  rfl

theorem malloc_eq_error {p : Pool} {n : Nat} (h : p.freeCount < n) :
    p.malloc n = .error (.error (.insufficientMemory n p.freeCount)) := by
  have hcan : ¬ p.canAllocate n = true := fun hc => Nat.not_le.mpr h (of_decide_eq_true hc)
  unfold malloc
  rw [if_neg hcan]
  rfl

@[simp] theorem total_handOut (p : Pool) (n : Nat) : (p.handOut n).total = p.total :=
  total_retainAll _ _

@[simp] theorem handOut_free (p : Pool) (n : Nat) : (p.handOut n).free = p.free.drop n :=
  retainAll_free _ _

theorem Consistent.refsOf_handOut {p : Pool} (h : p.Consistent) (n b : Nat) :
    (p.handOut n).refsOf b = p.refsOf b + (p.free.take n).count b :=
  refsOf_retainAll (p := { p with free := p.free.drop n })
    (fun id hid => (h.inRange id (List.mem_of_mem_take hid)).2) b

theorem Consistent.handOut {p : Pool} (h : p.Consistent) (n : Nat) : (p.handOut n).Consistent := by
  refine .of_refsOf ?_ ?_
  · rw [handOut_free]
    exact (List.drop_sublist n p.free).nodup h.nodup
  · intro b
    have hsplit : b ∈ p.free ↔ b ∈ p.free.take n ∨ b ∈ p.free.drop n := by
      rw [← List.mem_append, List.take_append_drop]
    have hapart : b ∈ p.free.take n → b ∉ p.free.drop n := by
      have hnodup := h.nodup
      rw [← List.take_append_drop n p.free] at hnodup
      exact fun ht hd => List.disjoint_of_nodup_append hnodup ht hd
    rw [handOut_free, total_handOut, h.refsOf_handOut]
    -- a block leaves the free list just if it gains a reference
    by_cases ht : b ∈ p.free.take n
    · have hcount : 0 < (p.free.take n).count b := List.count_pos_iff.mpr ht
      exact ⟨fun hd => absurd hd (hapart ht), fun hc => absurd hc.2.2 (by omega)⟩
    · rw [List.count_eq_zero_of_not_mem ht, Nat.add_zero, ← h.mem_free b, hsplit]
      exact ⟨Or.inr, fun hb => hb.resolve_left ht⟩

end Pool

end PagedServe
