/-
PagedServe/Proofs/Totality.lean

A tick always passes.

While the books add up no pass fails (`schedule_tick`), and no event upsets the
books, whatever lengths are set and however often a stream is queued.  The faults
of the passes, a position outside a list, a sum over 64 bits, a loop without end,
are outcomes of the definitions, so they are ruled out together with the errors.

Two products are taken unchecked: the tokens in the blocks of a match, and those in
the full blocks of a stream.  Both count first tokens of a list (`Stream.Reused`,
`Stream.fullBlockCount_le`), so they fit wherever the list does.
-/
import PagedServe.Proofs.Runs

namespace PagedServe

/-- What was reused are first tokens of the stream. -/
def Stream.Reused (x : Stream) : Prop := x.reuseLength ≤ x.tokens.length

theorem Stream.Continues.keepsReused {x y : Stream} (hxy : Stream.Continues x y)
    (hx : x.Reused) : y.Reused := by
  obtain ⟨more, htokens⟩ := hxy.tokens
  rw [Stream.Reused, hxy.reused, htokens, List.length_append]
  exact Nat.le_trans hx (Nat.le_add_right _ _)

namespace Scheduler

open Allocator (Granted)

variable {s s' : Scheduler} {h k : Handle}

/-! ### Reused tokens -/

/-- The blocks of a match are full blocks of the tokens, so they hold no more than
these. -/
theorem reused_le_of_granted {a a' : Allocator} {held : List Nat} {tokens : List UInt32}
    {grant : Grant} (hpos : 0 < a.geometry.blockSize) (G : Granted a held tokens grant a') :
    grant.reused ≤ tokens.length := by
  obtain ⟨matched, fresh, -, hreused, -, hhit⟩ := G.parts
  have hlength : matched.length ≤ tokens.length / a.geometry.blockSize := by
    rw [← length_fullBlocks hpos]
    by_contra hlt
    -- the last of more matched blocks than full ones would stand for no block
    obtain ⟨k, t, -, ht, -⟩ := hhit _ _ (List.getElem?_eq_getElem (Nat.lt_of_not_le hlt))
    rw [List.getElem?_eq_none (Nat.le_refl _)] at ht
    simp at ht
  rw [hreused]
  exact Nat.le_trans (Nat.mul_le_mul_right _ hlength) (Nat.div_mul_le_self _ _)

theorem Step.reused {p : Stage} (hstep : Step p s s') (B : s.Books)
    (hs : ∀ k, (s.stream k).Reused) : ∀ k, (s'.stream k).Reused := by
  -- a stream that merely goes on keeps what it reuses and loses no tokens
  have hlater : ∀ {h x}, Stream.Continues (s.stream h) x →
      ∀ k, ((s.setStream h x).stream k).Reused := fun hx =>
    forall_setStream hs (hx.keepsReused (hs _))
  cases hstep with
  | register => exact forall_push hs (Nat.zero_le _)
  | clear | sleep | drop | skip | wait => exact hs
  | enqueue => exact hlater (Stream.continues_markQueued _ _)
  | call _ h c => exact hlater (Stream.continues_call c _)
  | lapse | expire => exact hlater (Stream.continues_checkTimeout _ _)
  | refuse => exact hlater (Stream.continues_stop _ _)
  | commit => exact hlater (Stream.continues_setCommitted _ _)
  | grow => exact forall_setStream hs (hs _)
  | release => exact forall_setStream hs (hs _)
  | abandon =>
    exact forall_setStream hs ((Stream.continues_stop _ _).keepsReused (hs _))
  | preempt => exact forall_setStream hs (Nat.zero_le _)
  | enter _ _ _ ha => exact forall_setStream hs (reused_le_of_granted B.ledger.sizePos ha)

/-! ### Ticks -/

/-- After any run whatever a tick passes: it returns the batch, and the books add up.
Lengths may have been set to any value, streams queued again and again, the cache
cleared.  The products taken on the way count tokens that are there. -/
theorem schedule_passes {hash : ChainHash} {g : Geometry} {a : Allocator}
    (hnew : Allocator.newWith hash g = .ok a) (admission : Admission) (events : List Event) :
    ∃ s', schedule (play (start admission a) events) = .ok s'.running s' ∧
      s'.allocator.check = .ok () ∧
      ∀ h, (s'.stream h).reuseLength ≤ (s'.stream h).tokens.length ∧
        (s'.stream h).fullBlockCount * (s'.stream h).table.blockSize
          ≤ (s'.stream h).tokens.length := by
  -- at first every handle is a blank stream
  have hfirst : ∀ k, ((start admission a).stream k).Reused := by
    intro k
    rw [stream_of_le (Nat.zero_le k)]
    exact Nat.zero_le _
  obtain ⟨B, hreused⟩ := play_keeps (P := fun t => ∀ k, (t.stream k).Reused)
    (fun hstep B ht => hstep.reused B ht) (books_start hnew admission) hfirst events
  generalize play (start admission a) events = s at B hreused
  obtain ⟨s₁, s₂, s₃, s', hok, T⟩ := schedule_tick B
  obtain ⟨B', hreused'⟩ := T.moves.keeps (P := fun t => ∀ k, (t.stream k).Reused)
    (fun hstep B ht => hstep.reused B ht) B hreused
  exact ⟨s', hok, B'.ledger.check, fun h => ⟨hreused' h, (s'.stream h).fullBlockCount_le.2⟩⟩

/-- A stream is queued twice and then counts as many tokens as there are numbers. -/
def overlongRun : List Event :=
  [.register 1 { input := [1, 2, 3] }, .call 0 (.setReuse true), .enqueue 0, .enqueue 0,
    .schedule, .call 0 (.setSeqLength (Word.limit - 1)), .clearCache []]

/-- The next tick passes, and the stream has left the batch. -/
theorem schedule_passes_overlong :
    ∃ a s', Allocator.newWith chainHash { blocks := 4, blockSize := 2 } = .ok a ∧
      ((play (start {} a) overlongRun).stream 0).seqLength = Word.limit - 1 ∧
      schedule (play (start {} a) overlongRun) = .ok [] s' ∧ s'.allocator.check = .ok () := by
  have hrun : (Allocator.newWith chainHash { blocks := 4, blockSize := 2 }).toOption.map
      (fun a => let s := play (start {} a) overlongRun
        ((s.stream 0).seqLength, (stateAfter schedule s).running))
      = some (Word.limit - 1, []) := by decide +kernel
  obtain ⟨a, hnew, hfacts⟩ := Allocator.exists_newWith hrun
  simp only [Prod.mk.injEq] at hfacts
  obtain ⟨hlength, hrunning⟩ := hfacts
  obtain ⟨s', hok, hcheck, -⟩ := schedule_passes hnew {} overlongRun
  rw [stateAfter_of_ok hok] at hrunning
  rw [hrunning] at hok
  exact ⟨a, s', hnew, hlength, hok, hcheck⟩

end Scheduler

end PagedServe
