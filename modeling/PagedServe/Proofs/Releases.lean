/-
PagedServe/Proofs/Releases.lean

Releasing a list of blocks, in closed form.

A release takes one reference from a block, puts the block on the free list if that was the
last one, and is ignored if there is none or the block is the reserved one.  A list may name
a block several times, and blocks that are free, reserved or unknown.

What becomes of the counts is an equation (`refCount?_release`).  `freedBy` says which blocks
become free and in which order, without running through the releases: a block is freed at the
place of the list where it occurs for as many times as it has references.  The step is the
one that appends a release at the end (`freedBy_concat`, `release_freed`), since what was
released before decides what it does.  Each block is freed at one place at most, and the
blocks freed are those that lose all of their references (`nodup_freedBy`, `mem_freedBy`).

It follows that taking references on blocks in use and dropping them again restores the pool,
the free list included (`release_retainAll`).

Main statement: counts, free list and number of freed blocks after any list of releases, of
two lists one after the other, and of a list in another order (`release_closed_form`).
-/
import PagedServe.Proofs.Pool
import Mathlib.Data.List.Perm.Basic
import Mathlib.Data.List.Induction

namespace PagedServe

namespace Pool

variable {p : Pool} {ids : List Nat} {id b : Nat}

/-! ### Counts -/

/-- Each block has as many references less as the list names it, as far as there are any.  The
reserved block keeps its count, and unknown blocks stay unknown. -/
theorem refCount?_release (p : Pool) (ids : List Nat) (b : Nat) :
    (p.release ids).2.refCount? b =
      if b = reserved then p.refCount? b else (p.refCount? b).map (· - ids.count b) := by
  have ht : (p.release ids).2.total = p.total := total_release p ids
  split
  case isTrue hb =>
    subst hb
    exact refCount?_congr ht (refsOf_release_reserved p ids)
  case isFalse hb =>
    rcases Nat.lt_or_ge b p.total with hlt | hge
    · rw [refCount?_eq_some_refsOf (ht ▸ hlt), refCount?_eq_some_refsOf hlt,
        refsOf_release_of_ne hb, Option.map_some]
    · rw [refCount?_eq_none (ht ▸ hge), refCount?_eq_none hge, Option.map_none]

/-! ### The blocks that become free -/

/-- The blocks that a list of releases frees, in order: a block is freed where the list has
come to as many releases of it as there are references on it. -/
def freedBy (p : Pool) (ids : List Nat) : List Nat :=
  (ids.zipIdx.filter fun (id, i) =>
    id ≠ reserved ∧ (ids.take (i + 1)).count id = p.refsOf id).map Prod.fst

/-- Whether a release at the end frees its block depends on how often the list has it
before; the places before do not change. -/
theorem freedBy_concat (p : Pool) (ids : List Nat) (id : Nat) :
    p.freedBy (ids ++ [id]) =
      p.freedBy ids ++ if id ≠ reserved ∧ ids.count id + 1 = p.refsOf id then [id] else [] := by
  unfold freedBy
  rw [List.zipIdx_append, List.filter_append, List.map_append]
  congr 1
  · -- the places before the end count what they counted
    congr 1
    refine List.filter_congr fun ⟨a, i⟩ hmem => ?_
    have hi : i + 1 ≤ ids.length := by
      have := (List.mem_zipIdx hmem).2.1
      omega
    show decide (_ ∧ ((ids ++ [id]).take (i + 1)).count a = _) = _
    rw [List.take_append_of_le_length hi]
  · -- the last place counts the whole list
    have hall : (ids ++ [id]).take (ids.length + 1) = ids ++ [id] :=
      List.take_of_length_le (by simp)
    have hcount : (ids ++ [id]).count id = ids.count id + 1 := by simp
    simp only [List.zipIdx_cons, List.zipIdx_nil, Nat.zero_add, List.filter_cons, List.filter_nil,
      hall, hcount, decide_eq_true_eq]
    split
    · rfl
    · rfl

/-- The blocks freed are those that the list releases as often as they have references. -/
theorem mem_freedBy : b ∈ p.freedBy ids ↔
    b ≠ reserved ∧ 0 < p.refsOf b ∧ p.refsOf b ≤ ids.count b := by
  induction ids using List.reverseRecOn with
  | nil =>
    rw [List.count_nil]
    exact iff_of_false List.not_mem_nil fun h => by omega
  | append_singleton ids id ih =>
    rw [freedBy_concat, List.mem_append, ih, List.count_append, List.count_singleton]
    by_cases hb : b = id
    · -- the block of the last place, which may be the one that uses its references up
      subst hb
      rw [beq_self_eq_true, if_pos rfl]
      split
      case isTrue h =>
        rw [List.mem_singleton]
        exact iff_of_true (Or.inr rfl) ⟨h.1, by omega, by omega⟩
      case isFalse h =>
        rw [or_iff_left List.not_mem_nil]
        refine and_congr_right fun hne => and_congr_right fun hpos => ?_
        have hnot : ids.count b + 1 ≠ p.refsOf b := fun hc => h ⟨hne, hc⟩
        omega
    · -- another block: the last place neither frees nor counts it
      have hnot : b ∉ (if id ≠ reserved ∧ ids.count id + 1 = p.refsOf id then [id] else []) := by
        split
        · exact fun hc => hb (List.mem_singleton.mp hc)
        · exact List.not_mem_nil
      rw [or_iff_left hnot, beq_false_of_ne (Ne.symm hb), if_neg Bool.false_ne_true, Nat.add_zero]

/-- No block is freed twice. -/
theorem nodup_freedBy (p : Pool) (ids : List Nat) : (p.freedBy ids).Nodup := by
  induction ids using List.reverseRecOn with
  | nil => exact List.nodup_nil
  | append_singleton ids id ih =>
    rw [freedBy_concat]
    split
    case isTrue h =>
      -- before its last reference goes, the block is not among those freed
      have hnot : id ∉ p.freedBy ids := fun hmem => by
        have hle := (mem_freedBy.mp hmem).2.2
        omega
      exact List.Nodup.append ih (List.nodup_singleton id) (List.disjoint_singleton.mpr hnot)
    case isFalse =>
      rw [List.append_nil]
      exact ih

/-- What a list frees does not depend on its order, but for the order of what it frees. -/
theorem freedBy_perm {ids' : List Nat} (h : ids.Perm ids') :
    (p.freedBy ids).Perm (p.freedBy ids') := by
  refine (List.perm_ext_iff_of_nodup (nodup_freedBy p ids) (nodup_freedBy p ids')).mpr fun b => ?_
  rw [mem_freedBy, mem_freedBy, h.count_eq]

/-! ### The free list -/

theorem releaseOne_freed (p : Pool) (id : Nat) :
    (p.releaseOne id).1 = decide (id ≠ reserved ∧ p.refsOf id = 1) ∧
    (p.releaseOne id).2.free =
      p.free ++ if id ≠ reserved ∧ p.refsOf id = 1 then [id] else [] := by
  by_cases hskip : id = reserved ∨ p.refsOf id = 0
  · have hno : ¬ (id ≠ reserved ∧ p.refsOf id = 1) := fun ⟨hr, hone⟩ => by
      rcases hskip with hskip | hskip
      · exact hr hskip
      · omega
    rw [releaseOne_of_skipped hskip, if_neg hno, decide_eq_false hno, List.append_nil]
    exact ⟨rfl, rfl⟩
  · obtain ⟨hr, hz⟩ := not_or.mp hskip
    rw [releaseOne_of_used hr hz]
    simp only [ne_eq, hr, not_false_eq_true, true_and]
    show (if p.refsOf id = 1 then p.free ++ [id] else p.free) = _
    split
    · rfl
    · rw [List.append_nil]

/-- Releases one list after the other. -/
theorem release_append (p : Pool) (xs ys : List Nat) :
    p.release (xs ++ ys) =
      ((p.release xs).1 + ((p.release xs).2.release ys).1, ((p.release xs).2.release ys).2) := by
  induction xs generalizing p with
  | nil => exact Prod.ext (Nat.zero_add _).symm rfl
  | cons x xs ih =>
    rw [List.cons_append, release_cons, release_cons, ih, Nat.add_assoc]

/-- The free list gains the blocks freed, and they are counted. -/
theorem release_freed (p : Pool) (ids : List Nat) :
    (p.release ids).1 = (p.freedBy ids).length ∧
    (p.release ids).2.free = p.free ++ p.freedBy ids := by
  induction ids using List.reverseRecOn with
  | nil => exact ⟨rfl, (List.append_nil p.free).symm⟩
  | append_singleton ids id ih =>
    obtain ⟨hcount, hfree⟩ := ih
    obtain ⟨hone, honeFree⟩ := releaseOne_freed (p.release ids).2 id
    -- one reference is left just if the list has released all the others
    have hlast : (id ≠ reserved ∧ (p.release ids).2.refsOf id = 1) ↔
        id ≠ reserved ∧ ids.count id + 1 = p.refsOf id :=
      and_congr_right fun hr => by rw [refsOf_release_of_ne hr]; omega
    rw [release_append, freedBy_concat, release_cons]
    simp only [hlast] at hone honeFree
    refine ⟨?_, ?_⟩
    · show (p.release ids).1 + (((p.release ids).2.releaseOne id).1.toNat + 0) = _
      rw [hcount, hone, Nat.add_zero, List.length_append]
      split
      case isTrue h => rw [decide_eq_true h]; rfl
      case isFalse h => rw [decide_eq_false h]; rfl
    · show ((p.release ids).2.releaseOne id).2.free = _
      rw [honeFree, hfree, List.append_assoc]

/-- Blocks that keep a reference do not go to the free list. -/
theorem release_free (h : ∀ id ∈ ids, ids.count id < p.refsOf id) :
    (p.release ids).2.free = p.free := by
  have hnone : p.freedBy ids = [] := by
    refine List.eq_nil_iff_forall_not_mem.mpr fun b hb => ?_
    obtain ⟨-, hpos, hle⟩ := mem_freedBy.mp hb
    have := h b (List.count_pos_iff.mp (Nat.lt_of_lt_of_le hpos hle))
    omega
  rw [(release_freed p ids).2, hnone, List.append_nil]

/-- References on blocks in use can be taken and dropped again without a trace. -/
theorem release_retainAll (h0 : p.refsOf reserved = 0) (h : ∀ id ∈ ids, 0 < p.refsOf id) :
    ((p.retainAll ids).release ids).2 = p := by
  have hrefs : ∀ b, (p.retainAll ids).refsOf b = p.refsOf b + ids.count b :=
    refsOf_retainAll fun id hid => lt_total_of_refsOf (h id hid)
  have hzero : (p.retainAll ids).refsOf reserved = 0 := by
    rw [hrefs, h0, List.count_eq_zero_of_not_mem]
    exact fun hr => Nat.lt_irrefl 0 (h0 ▸ h _ hr)
  refine ext_refsOf ?_ ?_ ?_
  · rw [total_release, total_retainAll]
  · intro b
    rw [refsOf_release hzero, hrefs, Nat.add_sub_cancel]
  · rw [release_free, retainAll_free]
    intro id hid
    rw [hrefs]
    exact Nat.lt_add_of_pos_left (h id hid)

/-! ### The closed form -/

/-- The blocks freed are those that had references and have none now. -/
theorem mem_freedBy_iff_lost : b ∈ p.freedBy ids ↔
    0 < p.refsOf b ∧ (p.release ids).2.refsOf b = 0 := by
  rw [mem_freedBy]
  by_cases hb : b = reserved
  · rw [hb, refsOf_release_reserved]
    exact iff_of_false (fun h => h.1 rfl) (by omega)
  · rw [refsOf_release_of_ne hb]
    omega

theorem freedBy_perm_lost (p : Pool) (ids : List Nat) : (p.freedBy ids).Perm
    ((List.range p.total).filter fun b => 0 < p.refsOf b ∧ (p.release ids).2.refsOf b = 0) := by
  refine (List.perm_ext_iff_of_nodup (nodup_freedBy p ids)
    (List.nodup_range.filter _)).mpr fun b => ?_
  rw [mem_freedBy_iff_lost, List.mem_filter, List.mem_range, decide_eq_true_eq]
  exact ⟨fun h => ⟨lt_total_of_refsOf h.1, h⟩, And.right⟩

/-- Whatever the pool and whatever the list, with repetitions, the reserved block and unknown
ones: a list of releases takes from each block but the reserved one as many references as it
names it, as far as there are any.  Its answer is the number of blocks that lose all of their
references by it, and by so many the free list grows: the blocks are appended in the order in
which the list comes to their last references.  Two lists one after the other do the same as
both in one, and in any order a list leaves the same counts and has the same answer. -/
theorem release_closed_form (p : Pool) (ids : List Nat) :
    let (freed, p') := p.release ids
    (∀ b, p'.refCount? b =
      if b = reserved then p.refCount? b else (p.refCount? b).map (· - ids.count b)) ∧
    freed = ((List.range p.total).filter fun b => 0 < p.refsOf b ∧ p'.refsOf b = 0).length ∧
    p'.freeCount = p.freeCount + freed ∧
    p'.free = p.free ++ p.freedBy ids ∧
    (p.freedBy ids).Perm
      ((List.range p.total).filter fun b => 0 < p.refsOf b ∧ p'.refsOf b = 0) ∧
    (∀ more, p.release (ids ++ more) = (freed + (p'.release more).1, (p'.release more).2)) ∧
    ∀ ids', ids.Perm ids' →
      (p.release ids').1 = freed ∧ ∀ b, (p.release ids').2.refCount? b = p'.refCount? b := by
  obtain ⟨hfreed, hfree⟩ := release_freed p ids
  have hlost := freedBy_perm_lost p ids
  refine ⟨refCount?_release p ids, ?_, ?_, hfree, hlost, release_append p ids, fun ids' h => ?_⟩
  · rw [hfreed, hlost.length_eq]
  · rw [freeCount, hfree, List.length_append, hfreed]
    rfl
  · -- another order: only counts matter, for what is lost and for what is left
    refine ⟨?_, fun b => ?_⟩
    · rw [hfreed, (release_freed p ids').1, (freedBy_perm h).length_eq]
    · rw [refCount?_release, refCount?_release, h.count_eq]

/-- Block 2 is freed by its second release and block 1 by its only one, which comes before. -/
example : Pool.release ⟨#[0, 1, 2, 0], [3]⟩ [2, 0, 9, 1, 2, 1, 3]
    = (2, ⟨#[0, 0, 0, 0], [3, 1, 2]⟩) := rfl

end Pool

end PagedServe
