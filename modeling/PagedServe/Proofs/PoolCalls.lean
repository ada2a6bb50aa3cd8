/-
PagedServe/Proofs/PoolCalls.lean

A pool in anybody's hands.

Nothing is asked of the callers here: they release what they do not have, share blocks that
are free, reserved or unknown, and ask for more blocks than there are.  Free list and counts
say the same thing twice, and every call keeps them in agreement (`Sound.call`, one case for
each call; `Sound.play`, any number of calls).  Beside the agreement an invariant says that
the reserved block has no references, so that it is never shared and never freed.

A call either answers or is refused, and `Call.refusal?` says when and with which error.  To
see that a refused call leaves the pool alone, `inPlace` carries a call out step by step on
the pool itself: `malloc` first takes the blocks off the free list and then retains them one
after the other, and whatever was done before a failure stays.  In a sound pool this comes to
the same as the operation on a copy (`Sound.inPlace`).

Main statement: after any calls the free list has each block without references once and
nothing else, the figures add up and the check passes, and whatever call comes next answers,
or it is refused and changes nothing (`sound_under_any_calls`).
-/
import PagedServe.Proofs.Consistency
import PagedServe.Proofs.Outcome
import Mathlib.Data.List.Perm.Basic

namespace PagedServe

namespace Pool

/-- A call to a pool. -/
inductive Call where
  | malloc (n : Nat)
  | release (ids : List Nat)
  | share (id : Nat)

/-- What a call answers: the blocks handed out, or a number. -/
inductive Answer where
  | blocks (ids : List Nat)
  | count (n : Nat)

/-- The blocks that an answer hands out. -/
def Answer.handedOut : Answer → List Nat
  | .blocks ids => ids
  | .count _ => []

/-- Carry out a call. -/
def call (p : Pool) : Call → Except Failure (Answer × Pool)
  | .malloc n => (p.malloc n).map fun (ids, p') => (.blocks ids, p')
  | .release ids => .ok (.count (p.release ids).1, (p.release ids).2)
  | .share id => (p.share id).map fun (refs, p') => (.count refs, p')

/-- The pool after a call, failed or not. -/
def after (p : Pool) (c : Call) : Pool :=
  match p.call c with
  | .ok (_, p') => p'
  | .error _ => p

/-- The pool after a list of calls. -/
def play (p : Pool) (calls : List Call) : Pool := calls.foldl after p

/-- Why a call is refused, if it is. -/
def Call.refusal? (p : Pool) : Call → Option Error
  | .malloc n => if p.freeCount < n then some (.insufficientMemory n p.freeCount) else none
  | .release _ => none
  | .share id => if p.refsOf id = 0 then some (.invariantViolation (.notAllocated id)) else none

/-- The free list agrees with the counts, and the reserved block has no references. -/
structure Sound (p : Pool) : Prop where
  consistent : p.Consistent
  idle : p.refsOf reserved = 0

variable {p p' : Pool} {total : Nat}

/-! ### Figures -/

/-- The usable blocks, first to last. -/
def usableBlocks (p : Pool) : List Nat := List.range' 1 p.usable

theorem mem_usableBlocks {id : Nat} : id ∈ p.usableBlocks ↔ 0 < id ∧ id < p.total := by
  rw [usableBlocks, List.mem_range'_1, usable, total]
  omega

theorem Consistent.free_perm (h : p.Consistent) :
    p.free.Perm (p.usableBlocks.filter fun id => p.refsOf id = 0) := by
  have hd : (p.usableBlocks.filter fun id => p.refsOf id = 0).Nodup :=
    (List.nodup_range' ..).filter _
  refine (List.perm_ext_iff_of_nodup h.nodup hd).mpr fun id => ?_
  rw [h.mem_free, List.mem_filter, mem_usableBlocks, decide_eq_true_eq, and_assoc]

/-- Every usable block is free or has references. -/
theorem Consistent.free_add_inUse (h : p.Consistent) :
    p.freeCount + (p.usableBlocks.filter fun id => 0 < p.refsOf id).length = p.usable := by
  have hsplit := List.length_eq_length_filter_add (l := p.usableBlocks) fun id => p.refsOf id = 0
  have hused : p.usableBlocks.filter (fun id => !decide (p.refsOf id = 0))
      = p.usableBlocks.filter fun id => 0 < p.refsOf id :=
    List.filter_congr fun id _ => by simp [Nat.pos_iff_ne_zero]
  rw [hused, ← h.free_perm.length_eq, usableBlocks, List.length_range'] at hsplit
  exact hsplit.symm

/-! ### One call -/

theorem sound_new (total : Nat) : (new total).Sound :=
  ⟨consistent_new total, refsOf_new total reserved⟩

theorem Sound.not_mem_free (S : p.Sound) : reserved ∉ p.free := fun h =>
  Nat.lt_irrefl 0 (S.consistent.inRange reserved h).1

/-- What a call does that is not refused: it keeps the pool sound and as large as it is, adds no
more than one reference to a block, and does not hand out the reserved block. -/
structure Kept (p : Pool) (answer : Answer) (p' : Pool) : Prop where
  sound : p'.Sound
  total_eq : p'.total = p.total
  refs_le : ∀ b, p'.refsOf b ≤ p.refsOf b + 1
  unreserved : reserved ∉ answer.handedOut

theorem Sound.handOut (S : p.Sound) (n : Nat) : p.Kept (.blocks (p.free.take n)) (p.handOut n) := by
  have hnot : reserved ∉ p.free.take n := fun h => S.not_mem_free (List.mem_of_mem_take h)
  refine ⟨⟨S.consistent.handOut n, ?_⟩, total_handOut p n, fun b => ?_, hnot⟩
  · rw [S.consistent.refsOf_handOut, S.idle, List.count_eq_zero_of_not_mem hnot]
  · have hd : (p.free.take n).Nodup := (List.take_sublist n p.free).nodup S.consistent.nodup
    rw [S.consistent.refsOf_handOut]
    exact Nat.add_le_add_left (List.nodup_iff_count_le_one.mp hd b) _

theorem Sound.release (S : p.Sound) (ids : List Nat) :
    p.Kept (.count (p.release ids).1) (p.release ids).2 := by
  refine ⟨⟨S.consistent.release ids, ?_⟩, total_release p ids, fun b => ?_, List.not_mem_nil⟩
  · rw [refsOf_release S.idle, S.idle, Nat.zero_sub]
  · rw [refsOf_release S.idle]
    omega

theorem Sound.share (S : p.Sound) {id : Nat} (h : 0 < p.refsOf id) :
    p.Kept (.count (p.refsOf id + 1)) (p.store (Block.retain ⟨id, p.refsOf id⟩)) := by
  have hlt : id < p.total := lt_total_of_refsOf h
  have hne : reserved ≠ id := fun he => by rw [← he, S.idle] at h; exact Nat.lt_irrefl 0 h
  have hall : p.retainAll [id] = p.store (Block.retain ⟨id, p.refsOf id⟩) :=
    retainAll_cons_of_some (block?_eq_refsOf hlt) []
  refine ⟨⟨?_, ?_⟩, total_store p _, fun b => ?_, List.not_mem_nil⟩
  · rw [← hall]
    exact S.consistent.retainAll fun a ha => List.mem_singleton.mp ha ▸ h
  · rw [refsOf_retain hlt, S.idle, List.count_singleton, beq_false_of_ne hne.symm,
      if_neg Bool.false_ne_true]
  · rw [refsOf_retain hlt]
    exact Nat.add_le_add_left (List.nodup_iff_count_le_one.mp (List.nodup_singleton id) b) _

/-- A call is refused, or it answers and keeps the pool sound. -/
theorem Sound.call (S : p.Sound) (c : Call) :
    (∃ e, c.refusal? p = some e ∧ p.call c = .error (.error e)) ∨
    c.refusal? p = none ∧ ∃ answer p', p.call c = .ok (answer, p') ∧ p.Kept answer p' := by
  cases c with
  | malloc n =>
    rcases Nat.lt_or_ge p.freeCount n with hshort | henough
    · refine Or.inl ⟨_, if_pos hshort, ?_⟩
      rw [Pool.call, malloc_eq_error hshort]
      rfl
    · refine Or.inr ⟨if_neg (Nat.not_lt.mpr henough), _, _, ?_, S.handOut n⟩
      rw [Pool.call, S.consistent.malloc_eq_ok henough]
      rfl
  | release ids => exact Or.inr ⟨rfl, _, _, rfl, S.release ids⟩
  | share id =>
    rcases Nat.eq_zero_or_pos (p.refsOf id) with hzero | hpos
    · refine Or.inl ⟨_, if_pos hzero, ?_⟩
      rw [Pool.call, share_eq_error hzero]
      rfl
    · refine Or.inr ⟨if_neg (Nat.pos_iff_ne_zero.mp hpos), _, _, ?_, S.share hpos⟩
      rw [Pool.call, share_eq_ok S.idle hpos]
      rfl

theorem Sound.after (S : p.Sound) (c : Call) : (p.after c).Sound ∧ (p.after c).total = p.total ∧
    ∀ b, (p.after c).refsOf b ≤ p.refsOf b + 1 := by
  unfold Pool.after
  rcases S.call c with ⟨e, -, herr⟩ | ⟨-, answer, p', hok, K⟩
  · rw [herr]
    exact ⟨S, rfl, fun b => Nat.le_succ _⟩
  · rw [hok]
    exact ⟨K.sound, K.total_eq, K.refs_le⟩

/-! ### The same in place -/

/-- Add a reference to a block. -/
def retainInPlace (id : Nat) : EStateM Failure Pool PUnit := fun p =>
  match p.block? id with
  | some b => .ok () (p.store b.retain)
  | none => .error (.fault .outOfRange) p

/-- The blocks leave the free list first and then gain their references. -/
def mallocInPlace (n : Nat) : EStateM Failure Pool (List Nat) := do
  let p ← get
  if p.canAllocate n then
    let ids := p.free.take n
    set { p with free := p.free.drop n }
    ids.forM retainInPlace
    return ids
  else throw (.error (.insufficientMemory n p.free.length))

/-- Carry out a call on the pool itself; what was done before a failure stays. -/
def inPlace : Call → EStateM Failure Pool Answer
  | .malloc n => do return .blocks (← mallocInPlace n)
  | .release ids => fun p => .ok (.count (p.release ids).1) (p.release ids).2
  | .share id => fun p =>
    match p.share id with
    | .ok (refs, p') => .ok (.count refs) p'
    | .error e => .error e p

/-- Blocks of the pool can be retained one after the other. -/
theorem forM_retainInPlace {ids : List Nat} (h : ∀ id ∈ ids, id < p.total) :
    ids.forM retainInPlace p = .ok () (p.retainAll ids) := by
  induction ids generalizing p with
  | nil => rfl
  | cons id ids ih =>
    have hb := block?_eq_refsOf (h id List.mem_cons_self)
    have hone : retainInPlace id p = .ok () (p.store (Block.retain ⟨id, p.refsOf id⟩)) := by
      rw [retainInPlace, hb]
    show (retainInPlace id >>= fun _ => ids.forM retainInPlace) p = _
    rw [bind_of_ok hone, ih (lt_total_store_of_cons h _), retainAll_cons_of_some hb]

/-- A call comes to the same in place and on a copy.  If it fails, the pool is what it was. -/
theorem Sound.inPlace (S : p.Sound) (c : Call) :
    Pool.inPlace c p = match p.call c with
      | .ok (answer, p') => .ok answer p'
      | .error e => .error e p := by
  cases c with
  | malloc n =>
    -- refused before the free list is touched, or no block of it can be refused
    rcases Nat.lt_or_ge p.freeCount n with hshort | henough
    · have hcan : ¬ p.canAllocate n = true := fun hc =>
        Nat.not_le.mpr hshort (of_decide_eq_true hc)
      have herr : mallocInPlace n p = .error (.error (.insufficientMemory n p.freeCount)) p := by
        rw [mallocInPlace, bind_get, if_neg hcan]
        rfl
      rw [Pool.call, malloc_eq_error hshort]
      exact bind_of_error herr
    · have hcan : p.canAllocate n = true := decide_eq_true henough
      have hloop : (p.free.take n).forM retainInPlace { p with free := p.free.drop n }
          = .ok () (p.handOut n) :=
        forM_retainInPlace fun id hid => (S.consistent.inRange id (List.mem_of_mem_take hid)).2
      have hok : mallocInPlace n p = .ok (p.free.take n) (p.handOut n) := by
        rw [mallocInPlace, bind_get, if_pos hcan]
        show ((p.free.take n).forM retainInPlace >>= fun _ => pure (p.free.take n))
          { p with free := p.free.drop n } = _
        rw [bind_of_ok hloop]
        rfl
      rw [Pool.call, S.consistent.malloc_eq_ok henough]
      exact bind_of_ok hok
  | release ids => rfl
  | share id =>
    show (match p.share id with | .ok (refs, p') => _ | .error e => _) = _
    rw [Pool.call]
    rcases p.share id with e | ⟨refs, p'⟩
    · rfl
    · rfl

/-! ### Any number of calls -/

theorem Sound.play (S : p.Sound) (calls : List Call) : (p.play calls).Sound ∧
    (p.play calls).total = p.total ∧
    ∀ b, (p.play calls).refsOf b ≤ p.refsOf b + calls.length := by
  induction calls generalizing p with
  | nil => exact ⟨S, rfl, fun b => Nat.le_refl _⟩
  | cons c calls ih =>
    obtain ⟨S', ht, hle⟩ := S.after c
    obtain ⟨S'', ht', hle'⟩ := ih S'
    refine ⟨S'', ht'.trans ht, fun b => ?_⟩
    have hfirst := hle b
    have hrest := hle' b
    rw [List.length_cons]
    show ((p.after c).play calls).refsOf b ≤ _
    omega

/-- After any calls to a new pool of any size the free list has no repetitions and has just the
usable blocks without references, the reserved block has no references, free and used blocks
add up to the usable ones, the used ones are those with references, and the check passes.  No
count exceeds the number of calls.  Whatever call comes next, in place as on a copy: it is
refused and leaves the pool as it is, or it answers and does not hand out the reserved
block. -/
theorem sound_under_any_calls (total : Nat) (calls : List Call) :
    let p := (new total).play calls
    p.free.Nodup ∧
    (∀ id, id ∈ p.free ↔ 1 ≤ id ∧ id < total ∧ p.refCount? id = some 0) ∧
    p.refsOf reserved = 0 ∧
    p.usable = total - 1 ∧ p.freeCount ≤ p.usable ∧ p.freeCount + p.usedCount = p.usable ∧
    p.usedCount = ((List.range' 1 (total - 1)).filter fun id => 0 < p.refsOf id).length ∧
    p.check = .ok () ∧
    (∀ id, p.refsOf id ≤ calls.length) ∧
    ∀ c, (∃ e, c.refusal? p = some e ∧ p.call c = .error (.error e) ∧
        inPlace c p = .error (.error e) p) ∨
      c.refusal? p = none ∧ ∃ answer p', p.call c = .ok (answer, p') ∧
        inPlace c p = .ok answer p' ∧ reserved ∉ answer.handedOut := by
  intro p
  obtain ⟨S, ht, hle⟩ : p.Sound ∧ p.total = (new total).total ∧ _ := (sound_new total).play calls
  rw [total_new] at ht
  have husable : p.usable = total - 1 := congrArg (· - 1) ht
  have hsum := S.consistent.free_add_inUse
  have hfit : p.freeCount ≤ p.usable := by omega
  refine ⟨S.consistent.nodup, fun id => ?_, S.idle, husable, hfit, ?_, ?_,
    S.consistent.check, fun id => ?_, fun c => ?_⟩
  · -- the free list
    constructor
    · intro hid
      obtain ⟨hpos, hlt⟩ := S.consistent.inRange id hid
      exact ⟨hpos, ht ▸ hlt, (S.consistent.free_iff id hpos hlt).mp hid⟩
    · rintro ⟨hpos, hlt, hzero⟩
      exact (S.consistent.free_iff id hpos (ht ▸ hlt)).mpr hzero
  · -- free and used
    exact Nat.add_sub_cancel' hfit
  · -- the used ones
    rw [← husable]
    exact Nat.sub_eq_of_eq_add' hsum.symm
  · -- counts
    have := hle id
    rwa [refsOf_new, Nat.zero_add] at this
  · -- the next call
    rw [S.inPlace c]
    rcases S.call c with ⟨e, hrefused, herr⟩ | ⟨hnone, answer, p', hok, K⟩
    · exact Or.inl ⟨e, hrefused, herr, by rw [herr]⟩
    · exact Or.inr ⟨hnone, answer, p', hok, by rw [hok], K.unreserved⟩

end Pool

end PagedServe
