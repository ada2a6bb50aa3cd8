/-
PagedServe/Proofs/Consistency.lean

What the check of the books decides.

The check of a pool goes through the free list and marks each block on it, and then compares
the marks with the counts.  It stops at the first thing that is wrong.  Nothing is assumed of
the pool here: the free list may hold strays and repetitions, and the counts may be any.

`Marks` says where the marks stand.  The two passes are taken one after the other.  Marking
ends with a mark for each block of a clean list, or at a block that does not belong there
(`marking`); comparing ends well, or at a count that the marks contradict (`comparing`).
Together they are `check_or_violates`: a pool is consistent and passes, or the check names
something that is wrong with it.  In particular no mark is looked up that is not there.

Main statement: pool and allocator pass their checks just if the books are in order, and a
check that fails tells the truth (`check_decides`).
-/
import PagedServe.Allocator
import PagedServe.Proofs.Pool

namespace PagedServe

namespace Pool

variable {p : Pool} {total : Nat} {marks : Array Bool} {ids seen : List Nat}

/-- What is wrong with a pool if the check says so. -/
def Violates (p : Pool) : LedgerError → Prop
  | .strayFree id => id ∈ p.free ∧ (id = reserved ∨ p.total ≤ id)
  | .freeTwice id => 1 < p.free.count id
  | .countMismatch id refs free =>
    id ≠ reserved ∧ p.refCount? id = some refs ∧ (free = true ↔ id ∈ p.free) ∧
      (free = true ↔ 0 < refs)
  | _ => False

/-- Nothing is wrong with a consistent pool. -/
theorem Consistent.not_violates (h : p.Consistent) (cause : LedgerError) : ¬ p.Violates cause := by
  intro hv
  cases cause with
  | strayFree id =>
    obtain ⟨hid, hstray⟩ := hv
    obtain ⟨hpos, hlt⟩ := h.inRange id hid
    rcases hstray with rfl | hle
    · exact Nat.lt_irrefl 0 hpos
    · exact Nat.not_lt.mpr hle hlt
  | freeTwice id => exact Nat.not_lt.mpr (List.nodup_iff_count_le_one.mp h.nodup id) hv
  | countMismatch id refs free =>
    obtain ⟨hne, hrefs, hfree, hused⟩ := hv
    have hlt : id < p.total := (Array.getElem?_eq_some_iff.mp hrefs).1
    have hzero : id ∈ p.free ↔ refs = 0 := by
      rw [h.free_iff id (Nat.pos_of_ne_zero hne) hlt, hrefs, Option.some.injEq]
    have hboth : refs = 0 ↔ 0 < refs := hzero.symm.trans (hfree.symm.trans hused)
    omega
  | releasedWhileFree | notAllocated | cachedNotAllocated | other => exact hv

/-! ### Marking the free list -/

/-- There is a mark for each block of a pool, and it says whether the block is listed. -/
def Marks (marks : Array Bool) (total : Nat) (ids : List Nat) : Prop :=
  ∀ i, marks[i]? = if i < total then some (decide (i ∈ ids)) else none

theorem marks_nil (total : Nat) : Marks (Array.replicate total false) total [] := by
  intro i
  simp [Array.getElem?_replicate]

theorem Marks.set {id : Nat} (hm : Marks marks total seen) (hlt : id < total) :
    Marks (marks.setIfInBounds id true) total (seen ++ [id]) := by
  have hsize : id < marks.size := by
    have hself := hm id
    rw [if_pos hlt] at hself
    exact (Array.getElem?_eq_some_iff.mp hself).1
  intro i
  rw [Array.getElem?_setIfInBounds, if_pos hsize, hm i]
  by_cases hi : id = i
  · subst hi
    simp [hlt]
  · simp [hi, Ne.symm hi]

/-- What marking the blocks of a list comes to. -/
inductive Marking (total : Nat) (ids : List Nat) : Except Failure (Array Bool) → Prop
  | clean {marks : Array Bool} (hm : Marks marks total ids) (hd : ids.Nodup)
      (hr : ∀ id ∈ ids, 0 < id ∧ id < total) : Marking total ids (.ok marks)
  | stray {id : Nat} (hid : id ∈ ids) (hs : id = reserved ∨ total ≤ id) :
      Marking total ids (.error (.error (.invariantViolation (.strayFree id))))
  | twice {id : Nat} (hc : 1 < ids.count id) :
      Marking total ids (.error (.error (.invariantViolation (.freeTwice id))))

/-- Marking goes on from the marks of a clean list to those of the longer one, until a block
does not belong there or is marked already. -/
theorem marking (hm : Marks marks total seen) (hd : seen.Nodup)
    (hr : ∀ id ∈ seen, 0 < id ∧ id < total) (ids : List Nat) :
    Marking total (seen ++ ids) (markFree total marks ids) := by
  induction ids generalizing marks seen with
  | nil =>
    rw [List.append_nil]
    exact .clean hm hd hr
  | cons id ids ih =>
    unfold markFree
    split
    case isTrue hstray => exact .stray (List.mem_append_right seen List.mem_cons_self) hstray
    case isFalse hin =>
      obtain ⟨hne, hlt⟩ : id ≠ reserved ∧ id < total :=
        ⟨fun h => hin (Or.inl h), Nat.lt_of_not_le fun h => hin (Or.inr h)⟩
      rw [hm id, if_pos hlt]
      by_cases hseen : id ∈ seen
      · rw [decide_eq_true hseen]
        refine .twice ?_
        have hbefore := List.count_pos_iff.mpr hseen
        rw [List.count_append, List.count_cons_self]
        omega
      · rw [decide_eq_false hseen]
        -- the block joins those that are marked, and the rest goes on from there
        have hgo := ih (hm.set hlt) (List.nodup_append.mpr ?_) ?_
        · rwa [List.append_assoc] at hgo
        · refine ⟨hd, List.nodup_singleton id, fun a ha b hb => ?_⟩
          rw [List.mem_singleton.mp hb]
          exact fun hab => hseen (hab ▸ ha)
        · intro a ha
          rcases List.mem_append.mp ha with ha | ha
          · exact hr a ha
          · rw [List.mem_singleton.mp ha]
            exact ⟨Nat.pos_of_ne_zero hne, hlt⟩

/-! ### Comparing marks with counts -/

theorem compareMarks_cons {id refs : Nat} {free : Bool} (h : marks[id]? = some free)
    (rest : List Nat) : compareMarks marks id (refs :: rest) =
      if free = (Block.mk id refs).inUse then
        .error (.error (.invariantViolation (.countMismatch id refs free)))
      else compareMarks marks (id + 1) rest := by
  rw [compareMarks, h]

/-- From a block on, counts and marks agree, or the first that do not are named. -/
theorem comparing (hm : Marks marks p.total p.free) {id : Nat} (hpos : 0 < id) :
    (compareMarks marks id (p.refs.toList.drop id) = .ok () ∧
      ∀ i, id ≤ i → i < p.total → (i ∈ p.free ↔ p.refCount? i = some 0)) ∨
    ∃ cause, compareMarks marks id (p.refs.toList.drop id)
      = .error (.error (.invariantViolation cause)) ∧ p.Violates cause := by
  -- on the counts that are left, with the block that they begin at
  generalize hl : p.refs.toList.drop id = l
  induction l generalizing id with
  | nil =>
    have hend : p.total ≤ id := by
      have hlen := congrArg List.length hl
      rw [List.length_drop, Array.length_toList, List.length_nil] at hlen
      exact Nat.le_of_sub_eq_zero hlen
    exact Or.inl ⟨rfl, fun i hi hlt => absurd hlt (by omega)⟩
  | cons refs rest ih =>
    have hself : p.refs[id]? = some refs := by
      have hget := congrArg (·[0]?) hl
      simpa [List.getElem?_drop] using hget
    have hrest : p.refs.toList.drop (id + 1) = rest := by
      rw [← List.drop_drop, hl, List.drop_one, List.tail_cons]
    have hlt : id < p.total := (Array.getElem?_eq_some_iff.mp hself).1
    have hmark : marks[id]? = some (decide (id ∈ p.free)) := by rw [hm id, if_pos hlt]
    rw [compareMarks_cons hmark]
    split
    case isTrue heq =>
      -- in use and marked free, or neither: this is the block that the check names
      refine Or.inr ⟨_, rfl, Nat.pos_iff_ne_zero.mp hpos, hself, decide_eq_true_iff, ?_⟩
      rw [heq, Block.inUse, bne_iff_ne, Nat.pos_iff_ne_zero]
    case isFalse hne =>
      have hagree : id ∈ p.free ↔ p.refCount? id = some 0 := by
        rw [refCount?, hself, Option.some.injEq]
        rw [Block.inUse] at hne
        by_cases hfree : id ∈ p.free <;> simp_all
      rcases ih (Nat.lt_succ_of_lt hpos) hrest with ⟨hok, hall⟩ | hbad
      · refine Or.inl ⟨hok, fun i hi hilt => ?_⟩
        rcases Nat.eq_or_lt_of_le hi with rfl | hi
        · exact hagree
        · exact hall i hi hilt
      · exact Or.inr hbad

/-! ### The check of a pool -/

/-- A pool is consistent and passes its check, or the check names what is wrong with it. -/
theorem check_or_violates (p : Pool) :
    p.check = .ok () ∧ p.Consistent ∨
    ∃ cause, p.check = .error (.error (.invariantViolation cause)) ∧ p.Violates cause := by
  have hmarking := marking (marks_nil p.total) List.nodup_nil (by simp) p.free
  rw [List.nil_append] at hmarking
  unfold check
  generalize markFree p.total (Array.replicate p.total false) p.free = marked at hmarking ⊢
  cases hmarking with
  | clean hm hd hr =>
    rcases comparing hm Nat.one_pos with ⟨hok, hall⟩ | hbad
    · exact Or.inl ⟨hok, hd, hr, fun id hpos hlt => hall id hpos hlt⟩
    · exact Or.inr hbad
  | stray hid hs => exact Or.inr ⟨_, rfl, hid, hs⟩
  | twice hc => exact Or.inr ⟨_, rfl, hc⟩

theorem check_eq_ok : p.check = .ok () ↔ p.Consistent := by
  rcases p.check_or_violates with ⟨hok, hcons⟩ | ⟨cause, herr, hv⟩
  · exact iff_of_true hok hcons
  · refine iff_of_false ?_ fun h => h.not_violates cause hv
    rw [herr]
    exact fun h => nomatch h

theorem Consistent.check (h : p.Consistent) : p.check = .ok () := check_eq_ok.mpr h

end Pool

namespace Allocator

variable {a : Allocator}

/-- What is wrong with the books of an allocator if the check says so: it is wrong with the
pool, or a cached block has no references. -/
def Violates (a : Allocator) (cause : LedgerError) : Prop :=
  a.pool.Violates cause ∨
    ∃ id ∈ a.cache.blocks, cause = .cachedNotAllocated id ∧ a.pool.refsOf id = 0

/-- The books of an allocator are in order and pass their check, or the check names what is
wrong with them. -/
theorem check_or_violates (a : Allocator) :
    (a.check = .ok () ∧ a.pool.Consistent ∧ ∀ id ∈ a.cache.blocks, 0 < a.pool.refsOf id) ∨
    ∃ cause, a.check = .error (.error (.invariantViolation cause)) ∧ a.Violates cause := by
  unfold Allocator.check
  rcases a.pool.check_or_violates with ⟨hok, hcons⟩ | ⟨cause, herr, hv⟩
  · rw [hok]
    rcases hfind : a.cache.blocks.find? (fun id => (a.pool.refCount? id).getD 0 == 0) with - | id
    · refine Or.inl ⟨rfl, hcons, fun id hid => Nat.pos_of_ne_zero fun hzero => ?_⟩
      exact List.find?_eq_none.mp hfind id hid (beq_iff_eq.mpr hzero)
    · have htest := List.find?_some hfind
      have hzero : a.pool.refsOf id = 0 := beq_iff_eq.mp htest
      exact Or.inr ⟨_, rfl, Or.inr ⟨id, List.mem_of_find?_eq_some hfind, rfl, hzero⟩⟩
  · rw [herr]
    exact Or.inr ⟨cause, rfl, Or.inl hv⟩

theorem check_eq_ok : a.check = .ok () ↔
    a.pool.Consistent ∧ ∀ id ∈ a.cache.blocks, 0 < a.pool.refsOf id := by
  rcases a.check_or_violates with ⟨hok, horder⟩ | ⟨cause, herr, hv⟩
  · exact iff_of_true hok horder
  · refine iff_of_false ?_ fun ⟨hcons, hused⟩ => ?_
    · rw [herr]
      exact fun h => nomatch h
    · rcases hv with hv | ⟨id, hid, -, hzero⟩
      · exact hcons.not_violates cause hv
      · exact Nat.lt_irrefl 0 (hzero ▸ hused id hid)

/-- Whatever the free list and the counts of a pool, it passes its check just if the free
list is without repetitions and strays and lists the blocks without references.  Whatever is
cached besides, an allocator passes just if its pool does and every cached block is one of
the pool and has references.  A check that does not pass names something that is wrong. -/
theorem check_decides (p : Pool) (a : Allocator) :
    (p.check = .ok () ↔
      p.free.Nodup ∧ (∀ id ∈ p.free, 1 ≤ id ∧ id < p.total) ∧
        ∀ id, 1 ≤ id → id < p.total → (id ∈ p.free ↔ p.refCount? id = some 0)) ∧
    (p.check = .ok () ∨
      ∃ cause, p.check = .error (.error (.invariantViolation cause)) ∧ p.Violates cause) ∧
    (a.check = .ok () ↔
      a.pool.Consistent ∧
        ∀ h e, (h, e) ∈ a.cache.entries → ∃ refs, a.pool.refCount? e.block = some refs ∧ 0 < refs) ∧
    (a.check = .ok () ∨
      ∃ cause, a.check = .error (.error (.invariantViolation cause)) ∧ a.Violates cause) := by
  refine ⟨?_, p.check_or_violates.imp_left And.left, ?_, a.check_or_violates.imp_left And.left⟩
  · -- a pool passes
    rw [Pool.check_eq_ok]
    exact ⟨fun h => ⟨h.nodup, h.inRange, h.free_iff⟩, fun ⟨hd, hr, hf⟩ => ⟨hd, hr, hf⟩⟩
  · -- an allocator passes; an unknown block has no references in the check
    have hblock : ∀ id, 0 < a.pool.refsOf id ↔
        ∃ refs, a.pool.refCount? id = some refs ∧ 0 < refs := by
      intro id
      rcases hrefs : a.pool.refCount? id with - | refs <;> simp [Pool.refsOf, hrefs]
    rw [check_eq_ok]
    refine and_congr_right fun _ => ⟨fun hused h e he => ?_, fun hused id hid => ?_⟩
    · exact (hblock e.block).mp (hused e.block (List.mem_map.mpr ⟨(h, e), he, rfl⟩))
    · obtain ⟨⟨h, e⟩, he, rfl⟩ := List.mem_map.mp hid
      exact (hblock e.block).mpr (hused h e he)

/-- Block 1 is in use and listed, but the check does not come to its count: block 7 is none of
the pool. -/
example : Pool.check ⟨#[0, 1, 0], [2, 7, 1]⟩
    = .error (.error (.invariantViolation (.strayFree 7))) := rfl

end Allocator

end PagedServe
