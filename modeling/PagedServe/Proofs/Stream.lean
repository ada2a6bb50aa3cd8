/-
PagedServe/Proofs/Stream.lean

How a stream changes.

Callers, executors and the clock never touch a stream's blocks or take tokens
away, and they end a stream at most once (`Continues`).  The scheduler alone
starts, suspends and empties streams; the results have names here, so that the
proofs about passes need not open the definitions.
-/
import PagedServe.Stream
import PagedServe.Proofs.Outcome

namespace PagedServe

namespace Stream

variable {x y z : Stream}

/-- `y` is `x` later on: the same blocks, as many of them reused, the same tokens and
perhaps more, and the same phase unless the stream has ended meanwhile. -/
structure Continues (x y : Stream) : Prop where
  table : y.table = x.table
  reused : y.reuseLength = x.reuseLength
  tokens : ∃ more, y.tokens = x.tokens ++ more
  phase : y.phase = x.phase ∨ (x.isTerminal = false ∧ y.isTerminal = true)

theorem Continues.refl (x : Stream) : Continues x x :=
  ⟨rfl, rfl, ⟨[], (List.append_nil _).symm⟩, Or.inl rfl⟩

/-- The end is final. -/
theorem Continues.isTerminal (h : Continues x y) (hx : x.isTerminal = true) :
    y.isTerminal = true := by
  rcases h.phase with heq | ⟨hlive, -⟩
  · rw [Stream.isTerminal, heq]
    exact hx
  · rw [hx] at hlive
    exact absurd hlive (by decide)

/-- A stream that has not ended is where it was. -/
theorem Continues.phase_eq (h : Continues x y) (hy : y.isTerminal = false) : y.phase = x.phase := by
  rcases h.phase with heq | ⟨-, hend⟩
  · exact heq
  · rw [hy] at hend
    exact absurd hend (by decide)

theorem isTerminal_of_phase {p : Phase} (h : x.phase = p) : x.isTerminal = p.isTerminal := by
  rw [Stream.isTerminal, h]

/-- No call brings a stream into the queue or into the batch. -/
theorem Continues.phase_ne (h : Continues x y) {p : Phase} (hp : p.isTerminal = false)
    (hx : x.phase ≠ p) : y.phase ≠ p := by
  intro heq
  exact hx ((h.phase_eq (isTerminal_of_phase heq ▸ hp)).symm.trans heq)

/-- What has not ended either waits or runs. -/
theorem phase_of_live (h : x.isTerminal = false) (hw : x.phase ≠ .waiting) :
    x.phase = .running := by
  rw [Stream.isTerminal] at h
  rcases hp : x.phase with - | - | - | -
  · exact absurd hp hw
  · rfl
  · rw [hp] at h
    exact absurd h (by decide)
  · rw [hp] at h
    exact absurd h (by decide)

/-! ### Callers, executors and the clock -/

theorem continues_stop (reason : StopReason) (x : Stream) : Continues x (x.stop reason) := by
  unfold stop
  split
  · exact .refl x
  case isFalse h => exact ⟨rfl, rfl, ⟨[], (List.append_nil _).symm⟩, Or.inr ⟨by simpa using h, rfl⟩⟩

theorem continues_finish (x : Stream) : Continues x x.finish := by
  unfold finish
  split
  · exact .refl x
  case isFalse h => exact ⟨rfl, rfl, ⟨[], (List.append_nil _).symm⟩, Or.inr ⟨by simpa using h, rfl⟩⟩

theorem continues_checkTimeout (now : Nat) (x : Stream) : Continues x (x.checkTimeout now) := by
  unfold checkTimeout
  split
  · exact continues_stop _ x
  · exact .refl x

theorem continues_markQueued (now : Nat) (x : Stream) : Continues x (x.markQueued now) :=
  ⟨rfl, rfl, ⟨[], (List.append_nil _).symm⟩, Or.inl rfl⟩

theorem continues_setCommitted (n : Nat) (x : Stream) : Continues x (x.setCommitted n) :=
  ⟨rfl, rfl, ⟨[], (List.append_nil _).symm⟩, Or.inl rfl⟩

/-- Whatever is called on a stream, and whether it fails or not. -/
theorem continues_call (c : Call) (x : Stream) : Continues x (stateAfter (call c) x) := by
  cases c with
  | append token =>
    have hstate : ∃ n, stateAfter (call (.append token)) x
        = { x with output := x.output ++ [token], seqLength := n } := by
      unfold call append stateAfter
      rcases hadd : Word.add x.seqLength 1 with e | n
      · exact ⟨x.seqLength, by simp only [hadd]⟩
      · exact ⟨n, by simp only [hadd]⟩
    obtain ⟨n, hstate⟩ := hstate
    rw [hstate]
    exact ⟨rfl, rfl, ⟨[token], by simp [Stream.tokens]⟩, Or.inl rfl⟩
  | setSeqLength n => exact ⟨rfl, rfl, ⟨[], (List.append_nil _).symm⟩, Or.inl rfl⟩
  | setReuse on => exact ⟨rfl, rfl, ⟨[], (List.append_nil _).symm⟩, Or.inl rfl⟩
  | finish => exact continues_finish x
  | stop reason => exact continues_stop reason x

theorem stop_isTerminal (reason : StopReason) (x : Stream) : (x.stop reason).isTerminal = true := by
  unfold stop
  split
  · assumption
  · rfl

/-! ### The scheduler -/

/-- A stream of the batch after it was put back into the queue. -/
def suspended (x : Stream) : Stream :=
  { x with table := .empty, reuseLength := 0, committed := 0, status := .waiting }

theorem suspend_eq_ok (h : x.phase = .running) : x.suspend = .ok (x.table.ids, x.suspended) := by
  unfold suspend
  rcases hs : x.status with - | - | - | r
  · rw [Stream.phase, hs] at h
    exact absurd h (by decide)
  · rfl
  · rw [Stream.phase, hs] at h
    exact absurd h (by decide)
  · rw [Stream.phase, hs] at h
    exact absurd h (by simp [Status.phase])

/-- A stream of the queue once it runs on the blocks of a grant. -/
def started (x : Stream) (grant : Grant) (blockSize : Nat) : Stream :=
  { x with
    table := ⟨blockSize, grant.ids⟩
    reuseLength := grant.reused
    committed := grant.reused / blockSize
    status := .running }

theorem start_eq_ok {grant : Grant} {blockSize : Nat} (h : x.phase = .waiting)
    (hs : blockSize ≠ 0) : x.start grant blockSize = .ok (x.started grant blockSize) := by
  unfold start
  rcases hst : x.status with - | - | - | r
  · have hdiv : Word.div grant.reused blockSize = .ok (grant.reused / blockSize) := if_neg hs
    simp only [hdiv]
    rfl
  · rw [Stream.phase, hst] at h
    exact absurd h (by decide)
  · rw [Stream.phase, hst] at h
    exact absurd h (by decide)
  · rw [Stream.phase, hst] at h
    exact absurd h (by simp [Status.phase])

theorem start_eq_error {grant : Grant} {blockSize : Nat} (h : x.phase ≠ .waiting) :
    ∃ e, x.start grant blockSize = .error e := by
  unfold start
  rcases hst : x.status with - | - | - | r
  · rw [Stream.phase, hst] at h
    exact absurd rfl h
  · exact ⟨_, rfl⟩
  · exact ⟨_, rfl⟩
  · exact ⟨_, rfl⟩

/-- A stream without its blocks. -/
def emptied (x : Stream) : Stream := x.takeBlocks.2

theorem takeBlocks_eq (x : Stream) : x.takeBlocks = (x.table.ids, x.emptied) := rfl

@[simp] theorem suspended_phase (x : Stream) : x.suspended.phase = .waiting := rfl

@[simp] theorem started_phase (x : Stream) (grant : Grant) (n : Nat) :
    (x.started grant n).phase = .running := rfl

@[simp] theorem grow_ids (x : Stream) (ids : List Nat) :
    (x.grow ids).table.ids = x.table.ids ++ ids := rfl

/-- The tokens of the full blocks are known and counted. -/
theorem fullBlockCount_mul_le (x : Stream) :
    x.fullBlockCount * x.table.blockSize ≤ min x.seqLength x.tokens.length := by
  unfold fullBlockCount
  split
  · rw [Nat.zero_mul]
    exact Nat.zero_le _
  · have hq := Nat.div_mul_le_self (min x.seqLength x.tokens.length) x.table.blockSize
    have hm := Nat.mul_le_mul_right x.table.blockSize
      (Nat.min_le_left (min x.seqLength x.tokens.length / x.table.blockSize) x.table.ids.length)
    exact Nat.le_trans hm hq

/-- No more blocks are full of tokens than are held, or than tokens fill. -/
theorem fullBlockCount_le (x : Stream) :
    x.fullBlockCount ≤ x.table.ids.length ∧
      x.fullBlockCount * x.table.blockSize ≤ x.tokens.length := by
  refine ⟨?_, Nat.le_trans x.fullBlockCount_mul_le (Nat.min_le_right _ _)⟩
  unfold fullBlockCount
  split
  · exact Nat.zero_le _
  · exact Nat.min_le_right _ _

theorem fullPrefix_eq_ok (x : Stream) :
    x.fullPrefix = .ok (x.fullTokens, x.table.ids.take x.fullBlockCount) := by
  unfold fullPrefix
  rw [Word.slice_eq_ok x.fullBlockCount_le.1]
  rfl

theorem length_take_fullBlockCount (x : Stream) :
    (x.table.ids.take x.fullBlockCount).length = x.fullBlockCount :=
  List.length_take_of_le x.fullBlockCount_le.1

/-! ### What the scheduler never does -/

/-- The same request, and as many tokens generated and counted. -/
structure SameTokens (x y : Stream) : Prop where
  request : y.request = x.request
  output : y.output = x.output
  seqLength : y.seqLength = x.seqLength

theorem SameTokens.refl (x : Stream) : SameTokens x x := ⟨rfl, rfl, rfl⟩

theorem SameTokens.trans (h : SameTokens x y) (h' : SameTokens y z) : SameTokens x z :=
  ⟨h'.request.trans h.request, h'.output.trans h.output, h'.seqLength.trans h.seqLength⟩

theorem SameTokens.tokens (h : SameTokens x y) : y.tokens = x.tokens := by
  rw [Stream.tokens, Stream.tokens, h.request, h.output]

theorem sameTokens_stop (reason : StopReason) (x : Stream) : SameTokens x (x.stop reason) := by
  unfold stop
  split
  · exact .refl x
  · exact ⟨rfl, rfl, rfl⟩

theorem sameTokens_finish (x : Stream) : SameTokens x x.finish := by
  unfold finish
  split
  · exact .refl x
  · exact ⟨rfl, rfl, rfl⟩

theorem sameTokens_checkTimeout (now : Nat) (x : Stream) : SameTokens x (x.checkTimeout now) := by
  unfold checkTimeout
  split
  · exact sameTokens_stop _ x
  · exact .refl x

theorem sameTokens_suspended (x : Stream) : SameTokens x x.suspended := ⟨rfl, rfl, rfl⟩

theorem sameTokens_started (x : Stream) (grant : Grant) (n : Nat) :
    SameTokens x (x.started grant n) := ⟨rfl, rfl, rfl⟩

theorem sameTokens_emptied (x : Stream) : SameTokens x x.emptied := ⟨rfl, rfl, rfl⟩

theorem sameTokens_grow (x : Stream) (ids : List Nat) : SameTokens x (x.grow ids) := ⟨rfl, rfl, rfl⟩

theorem sameTokens_setCommitted (n : Nat) (x : Stream) : SameTokens x (x.setCommitted n) :=
  ⟨rfl, rfl, rfl⟩

end Stream

end PagedServe
