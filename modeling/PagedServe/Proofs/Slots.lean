/-
PagedServe/Proofs/Slots.lean

The slots that a table maps positions to.

`BlockTable.slotAt` is the slot of a position in exact arithmetic.  As far as the
blocks held reach, the slots are its values one after another, unless there is no
room for as many numbers or one of them does not fit into 64 bits
(`eq_of_slots`, `slots_eq_ok`).

A slot says which block it lies in and at which offset (`slotAt_div`,
`slotAt_mod`).  So positions share a slot just if they have the same offset in the
same block, and a table without repetitions gives each position a slot of its own
(`nodup_slots`).
-/
import PagedServe.BlockTable
import Mathlib.Data.List.Nodup

namespace PagedServe

/-! ### One result for each item -/

section MapM

variable {α β : Type} {f : α → Except Failure β} {g : α → β} {xs : List α} {ys : List β}

theorem mapM_eq_ok (h : ∀ x ∈ xs, f x = .ok (g x)) : xs.mapM f = .ok (xs.map g) := by
  induction xs with
  | nil => rfl
  | cons x xs ih =>
    rw [List.mapM_cons, h x List.mem_cons_self, ih fun y hy => h y (List.mem_cons_of_mem x hy)]
    rfl

theorem eq_of_mapM (h : ∀ x y, f x = .ok y → y = g x) (hok : xs.mapM f = .ok ys) :
    ys = xs.map g := by
  induction xs generalizing ys with
  | nil =>
    rw [List.mapM_nil] at hok
    exact (Except.ok.inj hok).symm
  | cons x xs ih =>
    rw [List.mapM_cons] at hok
    rcases hx : f x with e | y
    · rw [hx] at hok
      exact absurd hok (by simp [bind, Except.bind])
    · rcases hxs : xs.mapM f with e | ys'
      · rw [hx, hxs] at hok
        exact absurd hok (by simp [bind, Except.bind])
      · rw [hx, hxs] at hok
        rw [← Except.ok.inj hok, h x y hx, ih hxs]
        rfl

end MapM

namespace BlockTable

variable {t : BlockTable} {length p q : Nat}

/-! ### The slot of a position -/

/-- The slot of a position that the blocks held reach. -/
def slotAt (t : BlockTable) (p : Nat) : Nat :=
  t.ids.getD (p / t.blockSize) 0 * t.blockSize + p % t.blockSize

theorem slotAt_div (hs : 0 < t.blockSize) (p : Nat) :
    t.slotAt p / t.blockSize = t.ids.getD (p / t.blockSize) 0 := by
  rw [slotAt, Nat.mul_comm, Nat.mul_add_div hs, Nat.div_eq_of_lt (Nat.mod_lt p hs), Nat.add_zero]

theorem slotAt_mod (p : Nat) : t.slotAt p % t.blockSize = p % t.blockSize := by
  rw [slotAt, Nat.mul_comm, Nat.mul_add_mod, Nat.mod_mod]

/-- A position that the blocks reach lies in one of them. -/
theorem getElem?_block (hp : p < t.ids.length * t.blockSize) :
    t.ids[p / t.blockSize]? = some (t.ids.getD (p / t.blockSize) 0) := by
  have hlt : p / t.blockSize < t.ids.length :=
    Nat.div_lt_of_lt_mul (Nat.lt_of_lt_of_eq hp (Nat.mul_comm _ _))
  rw [List.getD_eq_getElem?_getD, List.getElem?_eq_getElem hlt, Option.getD_some]

theorem locate_eq_some (hp : p < t.ids.length * t.blockSize) :
    t.locate p = some (t.ids.getD (p / t.blockSize) 0, p % t.blockSize) := by
  rw [locate, getElem?_block hp]
  rfl

/-- The block and offset of each position before a bound that the blocks reach. -/
theorem filterMap_locate {n : Nat} (hn : n ≤ t.ids.length * t.blockSize) :
    (List.range n).filterMap t.locate =
      (List.range n).map fun p => (t.ids.getD (p / t.blockSize) 0, p % t.blockSize) := by
  rw [← List.filterMap_eq_map]
  apply List.filterMap_congr
  intro p hp
  exact locate_eq_some (Nat.lt_of_lt_of_le (List.mem_range.mp hp) hn)

/-! ### The slots in order -/

/-- The slots that are computed are those of the positions that the blocks reach. -/
theorem eq_of_slots {slots : List Nat} (h : t.slots length = .ok slots) :
    slots = (List.range (min length (t.ids.length * t.blockSize))).map t.slotAt ∧
      (t.blockSize ≠ 0 → Word.room length slotBytes = .ok ()) := by
  unfold BlockTable.slots at h
  split at h
  case isTrue hzero =>
    rw [hzero, Nat.mul_zero, Nat.min_zero]
    exact ⟨(Except.ok.inj h).symm, fun hne => absurd rfl hne⟩
  case isFalse hs =>
    rcases hroom : Word.room length slotBytes with e | ⟨⟩
    · rw [hroom] at h
      exact absurd h (by simp [bind, Except.bind])
    rw [hroom] at h
    refine ⟨?_, fun _ => rfl⟩
    have hmap := eq_of_mapM (g := fun x : Nat × Nat => x.1 * t.blockSize + x.2) ?_ h
    · rw [hmap, filterMap_locate (Nat.min_le_right _ _), List.map_map]
      rfl
    · -- a slot that was computed is the number it should be: nothing has wrapped around
      rintro ⟨id, offset⟩ slot hslot
      replace hslot : (Word.mul id t.blockSize >>= fun n => Word.add n offset) = .ok slot := hslot
      rcases hmul : Word.mul id t.blockSize with e | n
      · rw [hmul] at hslot
        exact absurd hslot (by simp [bind, Except.bind])
      · rw [hmul] at hslot
        rw [(Word.add_eq_ok.mp hslot).2, (Word.mul_eq_ok.mp hmul).2]

/-- With room for the list and words for its numbers, the slots are computed. -/
theorem slots_eq_ok (hs : 0 < t.blockSize) (hroom : Word.room length slotBytes = .ok ())
    (hfits : ∀ id ∈ t.ids, (id + 1) * t.blockSize ≤ Word.limit) :
    t.slots length
      = .ok ((List.range (min length (t.ids.length * t.blockSize))).map t.slotAt) := by
  unfold BlockTable.slots
  rw [if_neg (Nat.pos_iff_ne_zero.mp hs), hroom]
  show List.mapM _ ((List.range _).filterMap t.locate) = _
  rw [filterMap_locate (Nat.min_le_right _ _),
    mapM_eq_ok (g := fun x : Nat × Nat => x.1 * t.blockSize + x.2), List.map_map]
  · rfl
  · intro x hx
    obtain ⟨p, hp, rfl⟩ := List.mem_map.mp hx
    have hlt : p < t.ids.length * t.blockSize :=
      Nat.lt_of_lt_of_le (List.mem_range.mp hp) (Nat.min_le_right _ _)
    -- the block ends within 64 bits, and so does every slot in it
    have hend := hfits _ (List.mem_of_getElem? (getElem?_block hlt))
    have hmod := Nat.mod_lt p hs
    rw [Nat.add_mul, Nat.one_mul] at hend
    have hmul : Word.mul (t.ids.getD (p / t.blockSize) 0) t.blockSize
        = .ok (t.ids.getD (p / t.blockSize) 0 * t.blockSize) :=
      Word.mul_eq_ok.mpr ⟨by omega, rfl⟩
    show (Word.mul _ _ >>= fun n => Word.add n _) = _
    rw [hmul]
    exact Word.add_eq_ok.mpr ⟨by omega, rfl⟩

/-- A position in the list of slots is one that the blocks reach. -/
theorem slot_of_slots {slots : List Nat} (h : t.slots length = .ok slots) {slot : Nat}
    (hp : slots[p]? = some slot) :
    p < length ∧ p < t.ids.length * t.blockSize ∧ slot = t.slotAt p := by
  rw [(eq_of_slots h).1, List.getElem?_map, Option.map_eq_some_iff] at hp
  obtain ⟨q, hq, rfl⟩ := hp
  obtain ⟨hlt, rfl⟩ : p < min length (t.ids.length * t.blockSize) ∧ p = q := by
    obtain ⟨hlt, heq⟩ := List.getElem?_eq_some_iff.mp hq
    rw [List.length_range] at hlt
    rw [List.getElem_range] at heq
    exact ⟨hlt, heq⟩
  exact ⟨Nat.lt_of_lt_of_le hlt (Nat.min_le_left _ _),
    Nat.lt_of_lt_of_le hlt (Nat.min_le_right _ _), rfl⟩

/-- A table without repetitions gives every position a slot of its own. -/
theorem nodup_slots (hs : 0 < t.blockSize) (hd : t.ids.Nodup) {n : Nat}
    (hn : n ≤ t.ids.length * t.blockSize) : ((List.range n).map t.slotAt).Nodup := by
  refine (List.nodup_map_iff_inj_on List.nodup_range).mpr ?_
  intro p hp q hq hpq
  have hblock : t.ids[p / t.blockSize]? = t.ids[q / t.blockSize]? := by
    rw [getElem?_block (Nat.lt_of_lt_of_le (List.mem_range.mp hp) hn),
      getElem?_block (Nat.lt_of_lt_of_le (List.mem_range.mp hq) hn), ← slotAt_div hs, hpq,
      slotAt_div hs]
  have hlt : p / t.blockSize < t.ids.length :=
    Nat.div_lt_of_lt_mul (by rw [Nat.mul_comm]; exact Nat.lt_of_lt_of_le (List.mem_range.mp hp) hn)
  have hdiv : p / t.blockSize = q / t.blockSize := (List.getElem?_inj hlt hd).mp hblock
  have hmod : p % t.blockSize = q % t.blockSize := by rw [← slotAt_mod, hpq, slotAt_mod]
  rw [← Nat.div_add_mod p t.blockSize, hdiv, hmod, Nat.div_add_mod]

end BlockTable

end PagedServe
