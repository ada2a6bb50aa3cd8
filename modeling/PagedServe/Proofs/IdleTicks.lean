/-
PagedServe/Proofs/IdleTicks.lean

Ticks between which nothing happens.

A stream is `Plain` if it neither reuses prefixes nor can time out and counts no tokens that
it does not have.  Where all streams are, a pass that has nothing to do leaves the scheduler
exactly as it was, the free list included (`Rested`).  The admission pass is such a pass right
after itself: what it did last was to try the head of the queue in vain, or it had come to the
end of the queue, and either happens again (`admitFrom_again`).

So a second tick changes nothing, unless the first one leaves an ended stream where the passes
of the second find it.  The sweep and the release see to it that there is none, but for a
stream that stands twice: growth may stop its first copy after the sweep has passed the second.

Main statement: the second tick is idle just if the first leaves no such stream, and whichever
it leaves was queued again while it was queued (`idle_unless_ended`).  There are such streams
(`stopped_copy_dropped_later`).
-/
import PagedServe.Proofs.Coverage
import PagedServe.Proofs.Places
import PagedServe.Proofs.Timeouts

namespace PagedServe

/-! ### Plain streams -/

namespace Stream

variable {x y : Stream}

/-- No prefix is reused, no timeout can pass, and no token is counted that is not there. -/
structure Plain (x : Stream) : Prop where
  unshared : x.reuse = false
  timeless : x.request.timeoutMs = 0
  counted : x.seqLength ≤ x.tokens.length

theorem Plain.of_same (hx : x.Plain) (hsame : SameTokens x y) (hreuse : y.reuse = x.reuse) :
    y.Plain where
  unshared := hreuse.trans hx.unshared
  timeless := by rw [hsame.request, hx.timeless]
  counted := by
    rw [hsame.seqLength, hsame.tokens]
    exact hx.counted

theorem plain_new {request : Request} (htime : request.timeoutMs = 0) (id : UInt64) (now : Nat) :
    (Stream.new id request now).Plain :=
  ⟨rfl, htime, Nat.le_of_eq (congrArg List.length (List.append_nil request.input).symm)⟩

/-- A plain stream is never overdue. -/
theorem Plain.checkTimeout_eq (hx : x.Plain) (now : Nat) : x.checkTimeout now = x := by
  have hnever : x.timesOut now = false := by
    rw [timesOut, isOverdue, hx.timeless]
    exact Bool.and_false _
  rw [checkTimeout, hnever, if_neg Bool.false_ne_true]

theorem Plain.stop (hx : x.Plain) (reason : StopReason) : (x.stop reason).Plain := by
  refine hx.of_same (sameTokens_stop reason x) ?_
  unfold Stream.stop
  split
  · rfl
  · rfl

theorem Plain.finish (hx : x.Plain) : x.finish.Plain := by
  refine hx.of_same (sameTokens_finish x) ?_
  unfold Stream.finish
  split
  · rfl
  · rfl

/-- A token that cannot be counted any more is there all the same. -/
theorem Plain.append (hx : x.Plain) (token : UInt32) :
    (stateAfter (Stream.append token) x).Plain := by
  have hcounted := hx.counted
  have hmore : (x.request.input ++ (x.output ++ [token])).length = x.tokens.length + 1 := by
    rw [← List.append_assoc, List.length_append]
    rfl
  unfold Stream.append stateAfter
  rcases hadd : Word.add x.seqLength 1 with e | n
  · -- the count is at its end and stays there; there is a token more all the same
    simp only [hadd]
    refine ⟨hx.unshared, hx.timeless, ?_⟩
    show x.seqLength ≤ (x.request.input ++ (x.output ++ [token])).length
    omega
  · obtain ⟨-, rfl⟩ := Word.add_eq_ok.mp hadd
    simp only [hadd]
    refine ⟨hx.unshared, hx.timeless, ?_⟩
    show x.seqLength + 1 ≤ (x.request.input ++ (x.output ++ [token])).length
    omega

/-- The call keeps a stream plain. -/
def Call.plain : Call → Bool
  | .setSeqLength _ => false
  | .setReuse on => !on
  | _ => true

theorem Plain.call (hx : x.Plain) {c : Call} (hc : c.plain = true) :
    (stateAfter (Stream.call c) x).Plain := by
  cases c with
  | append token => exact hx.append token
  | setSeqLength n => exact absurd hc Bool.false_ne_true
  | setReuse on =>
    refine ⟨?_, hx.timeless, hx.counted⟩
    show on = false
    simpa [Call.plain] using hc
  | finish => exact hx.finish
  | stop reason => exact hx.stop reason

end Stream

namespace Scheduler

variable {s s' t : Scheduler} {h k : Handle}

theorem Step.plain {p : Stage} (hp : p ≠ .outside) (hstep : Step p s s')
    (hs : ∀ k, (s.stream k).Plain) : ∀ k, (s'.stream k).Plain := by
  cases hstep with
  | register | enqueue | call | clear | sleep => exact absurd rfl hp
  | drop | skip | wait => exact hs
  | lapse | expire =>
    refine forall_setStream hs ?_
    rw [(hs _).checkTimeout_eq]
    exact hs _
  | grow => exact forall_setStream hs ((hs _).of_same (Stream.sameTokens_grow _ _) rfl)
  | commit => exact forall_setStream hs ((hs _).of_same (Stream.sameTokens_setCommitted _ _) rfl)
  | preempt => exact forall_setStream hs ((hs _).of_same (Stream.sameTokens_suspended _) rfl)
  | abandon =>
    exact forall_setStream hs (((hs _).stop .noMemory).of_same (Stream.sameTokens_emptied _) rfl)
  | release => exact forall_setStream hs ((hs _).of_same (Stream.sameTokens_emptied _) rfl)
  | enter => exact forall_setStream hs ((hs _).of_same (Stream.sameTokens_started _ _ _) rfl)
  | refuse => exact forall_setStream hs ((hs _).stop .noMemory)

/-- The event keeps streams plain. -/
def Event.plain : Event → Bool
  | .register _ request => request.timeoutMs == 0
  | .call _ c => c.plain
  | _ => true

theorem plain_perform {e : Event} (he : e ≠ .schedule) (hplain : e.plain = true) (B : s.Books)
    (hs : ∀ k, (s.stream k).Plain) : ∀ k, ((perform e s).stream k).Plain := by
  refine forall_perform he B hs ?_ (fun h _ => (hs h).of_same ⟨rfl, rfl, rfl⟩ rfl) ?_
  · rintro id request rfl
    exact Stream.plain_new (by simpa [Event.plain] using hplain) id s.now
  · rintro h c rfl
    exact (hs h).call hplain

theorem plain_play {hash : ChainHash} {g : Geometry} {a : Allocator}
    (hnew : Allocator.newWith hash g = .ok a) (admission : Admission) {events : List Event}
    (hplain : ∀ e ∈ events, e.plain = true) :
    ∀ k, ((play (start admission a) events).stream k).Plain := by
  refine play_keeps_of (P := fun t => ∀ k, (t.stream k).Plain)
    (fun hp hstep _ => hstep.plain hp) (fun e he hc B => plain_perform he hc B)
    (books_start hnew admission) (fun k => ?_) events hplain
  rw [stream_of_le (Nat.zero_le k)]
  exact Stream.plain_new rfl 0 0

/-! ### Passes with nothing to do -/

/-- No stream in the lists asks for a change before admission. -/
structure Rested (s : Scheduler) : Prop where
  plain : ∀ k, (s.stream k).Plain
  live : ∀ k, k ∈ s.running ∨ k ∈ s.waiting → s.isLive k = true
  settled : ∀ k ∈ s.running, s.Settled k

namespace Rested

variable (R : s.Rested)

include R

theorem checkTimeout (h : Handle) : Scheduler.checkTimeout h s = .ok () s := by
  rw [checkTimeout_eq, (R.plain h).checkTimeout_eq, setStream_stream]

theorem sweepWaiting : Scheduler.sweepWaiting s = .ok () s := by
  obtain ⟨s₁, hloop, -, rfl⟩ := forM_ok (R := fun _ _ => True) (fun _ => trivial)
    (fun _ _ => trivial) (I := (· = s)) (l := s.waiting) (g := Scheduler.checkTimeout)
    (fun h _ t ht => ⟨s, ht ▸ R.checkTimeout h, trivial, rfl⟩) rfl
  have hkept : s₁.waiting.filter s₁.isLive = s₁.waiting :=
    List.filter_eq_self.mpr fun k hk => R.live k (Or.inr hk)
  unfold Scheduler.sweepWaiting
  rw [bind_get, bind_of_ok hloop]
  show EStateM.Result.ok () { s₁ with waiting := s₁.waiting.filter s₁.isLive } = _
  rw [hkept]

theorem tryGrow (hrun : h ∈ s.running) : Scheduler.tryGrow h s = .ok true s := by
  unfold Scheduler.tryGrow
  rw [bind_get, bind_of_ok (ofResult_of_ok (R.settled h hrun)), if_pos rfl]
  rfl

theorem growAt {older newer : List Handle} (hsplit : s.running = older ++ h :: newer) :
    Scheduler.growAt older.length s = .ok (older.length + 1) s := by
  have hrun : h ∈ s.running := hsplit ▸ List.mem_append_right _ List.mem_cons_self
  have hitem : Word.item s.running older.length = .ok h := by rw [hsplit, Word.item_append]
  obtain ⟨rounds, hrounds⟩ : ∃ rounds, s.running.length = rounds + 1 :=
    Nat.exists_eq_succ_of_ne_zero (Nat.ne_of_gt (List.length_pos_of_mem hrun))
  -- a settled stream lacks nothing, so the first try is the last
  have hgrow : growOver h older.length s.running.length s = .ok true s := by
    rw [hrounds]
    unfold growOver
    rw [bind_of_ok (R.tryGrow hrun), if_pos rfl]
    rfl
  unfold Scheduler.growAt
  simp only [bind_get, bind_of_ok (ofResult_of_ok hitem), bind_of_ok (R.checkTimeout h),
    R.live h (Or.inl hrun), bind_of_ok hgrow, (R.plain h).unshared, if_true, Bool.false_eq_true,
    if_false]
  rfl

theorem growFrom {older rest : List Handle} (hsplit : s.running = older ++ rest) :
    Scheduler.growFrom older.length rest.length s = .ok () s := by
  induction rest generalizing older with
  | nil =>
    have hend : ¬ older.length < s.running.length := by
      rw [hsplit, List.append_nil]
      exact Nat.lt_irrefl _
    show Scheduler.growFrom older.length 0 s = _
    unfold Scheduler.growFrom
    rw [bind_get, if_neg hend]
    rfl
  | cons h newer ih =>
    -- a round that changes nothing, then the rest with one more behind
    have hin : older.length < s.running.length := by
      rw [hsplit, List.length_append, List.length_cons]
      omega
    have hnext : s.running = (older ++ [h]) ++ newer := by
      rw [hsplit, List.append_assoc, List.singleton_append]
    have hrest := ih hnext
    rw [List.length_append, List.length_singleton] at hrest
    show Scheduler.growFrom older.length (newer.length + 1) s = _
    unfold Scheduler.growFrom
    rw [bind_get, if_pos hin, bind_of_ok (R.growAt hsplit)]
    exact hrest

theorem growRunning : Scheduler.growRunning s = .ok () s := by
  unfold Scheduler.growRunning
  rw [bind_get]
  exact R.growFrom (List.nil_append s.running).symm

theorem releaseEnded : Scheduler.releaseEnded s = .ok () s := by
  have hkept : s.running.filter s.isLive = s.running :=
    List.filter_eq_self.mpr fun k hk => R.live k (Or.inl hk)
  have hnone : s.running.filter (not ∘ s.isLive) = [] :=
    List.filter_eq_nil_iff.mpr fun k hk => by simp [R.live k (Or.inl hk)]
  unfold Scheduler.releaseEnded
  rw [bind_get, List.partition_eq_filter_filter, hkept, hnone]
  rfl

/-- Where admission has nothing to do either, the tick has not. -/
theorem schedule (B : s.Books) (hfrom : admitFrom s.waiting s = .ok () s) :
    Scheduler.schedule s = .ok s.running s := by
  have hpass : admitWaiting s = .ok () s := hfrom
  unfold Scheduler.schedule
  rw [bind_of_ok R.sweepWaiting, bind_of_ok R.growRunning, bind_of_ok R.releaseEnded,
    bind_of_ok hpass, bind_get, bind_of_ok (ofResult_of_ok B.ledger.check)]
  rfl

end Rested

/-! ### Admission once more -/

/-- The blocks of a plain stream are granted at one go, or nothing happens. -/
theorem grantFor_plain (B : s.Books) (hplain : (s.stream h).Plain) :
    (∃ grant a, grantFor h s = .ok grant { s with allocator := a }) ∨
      ∃ e, grantFor h s = .error e s := by
  have hneeded := blocksFor_eq_ok (s.stream h).seqLength B.blockSize_pos
  unfold grantFor
  simp only [bind_get, hplain.unshared]
  rcases B.ledger.mallocWithCache (s.stream h).tokens false with
    ⟨grant, a, hok, -, hcount⟩ | ⟨e, a, -, herr, -⟩
  · -- there are blocks for all its tokens, and it counts no others
    rw [blocksFor_eq_ok _ B.ledger.sizePos] at hcount
    have hall := Except.ok.inj hcount
    have hfew : ((s.stream h).seqLength + s.blockSize - 1) / s.blockSize - grant.ids.length = 0 := by
      refine Nat.sub_eq_zero_of_le (Nat.le_trans (Nat.div_le_div_right ?_) (Nat.le_of_eq hall))
      exact Nat.sub_le_sub_right (Nat.add_le_add_right hplain.counted _) 1
    refine Or.inl ⟨grant, a, ?_⟩
    rw [bind_of_ok (onAllocator_of_ok hok), bind_of_ok (ofResult_of_ok hneeded), if_pos hfew]
    rfl
  · refine Or.inr ⟨e, ?_⟩
    rw [bind_of_error (onAllocator_of_error herr),
      Allocator.eq_of_mallocWithCache_error B.ledger herr]

/-- Trying in vain to start a plain stream changes nothing. -/
theorem eq_of_tryGrant_short (B : s.Books) (hplain : (s.stream h).Plain)
    (hshort : tryGrant h s = .ok .short t) : t = s := by
  rcases grantFor_plain B hplain with ⟨grant, a, hok⟩ | ⟨e, herr⟩
  · rw [tryGrant_of_ok hok] at hshort
    cases hshort
  · rw [tryGrant_of_error herr] at hshort
    split at hshort
    · cases hshort
      rfl
    · cases hshort

/-- Admission once more finds the queue empty or its head where it left it. -/
theorem admitFrom_again (B : s.Books) (hplain : ∀ k, (s.stream k).Plain)
    (hok : admitFrom s.waiting s = .ok () s') : admitFrom s'.waiting s' = .ok () s' := by
  generalize hl : s.waiting = l at hok
  induction l generalizing s with
  | nil =>
    cases hok
    rw [hl]
    rfl
  | cons h rest ih =>
    rcases admitFrom_cons B hl with ⟨s₁, hround, hstep, hwait⟩ | ⟨a, hshort, hend, -, -⟩
    · rw [hround] at hok
      exact ih (hstep.books B) (hstep.plain (by decide) hplain) hwait hok
    · -- the pass ended in the state in which this round began
      have hsame : { s with allocator := a } = s := eq_of_tryGrant_short B (hplain h) hshort
      obtain rfl : s' = s := by
        rw [hok] at hend
        cases hend
        exact hsame
      rw [hl]
      exact hok

/-! ### Two ticks in a row -/

/-- Whoever stands in a list after a tick had not ended before it. -/
theorem Tick.live_before {s₁ s₂ s₃ : Scheduler} (T : Tick s s₁ s₂ s₃ s') (B : s.Books)
    (hk : k ∈ s'.running ∨ k ∈ s'.waiting) : s.isLive k = true := by
  have B₁ := T.sweep.keeps Step.books B
  have hlive₁ : s₁.isLive k = true := by
    rcases T.admission.listed (by decide) hk with hrun | hwait
    · -- the release leaves a live batch
      exact T.growth.isLive_of (by decide) (T.release.isLive_of (by decide) (T.live k hrun))
    · -- in the queue stands what the sweep has left there, and what growth has preempted
      rw [T.release.of_release.2] at hwait
      rcases T.growth.preempted B₁ hwait with hwait | ⟨-, hlive, -⟩
      · exact T.queued k hwait
      · exact hlive
  exact T.sweep.isLive_of (by decide) hlive₁

/-- If all streams are plain, a tick is followed by one that changes nothing just if it leaves
no ended stream in the lists. -/
theorem Tick.idle_iff {s₁ s₂ s₃ : Scheduler} (T : Tick s s₁ s₂ s₃ s') (B : s.Books)
    (hplain : ∀ k, (s.stream k).Plain) :
    schedule s' = .ok s'.running s' ↔
      ∀ k, k ∈ s'.running ∨ k ∈ s'.waiting → s'.isLive k = true := by
  obtain ⟨B₃, hplain₃⟩ := T.keepsBefore (P := fun t => ∀ k, (t.stream k).Plain)
    (fun hp hstep _ => hstep.plain hp) B hplain
  obtain ⟨B', hplain'⟩ := T.keeps (P := fun t => ∀ k, (t.stream k).Plain)
    (fun hp hstep _ => hstep.plain hp) B hplain
  refine ⟨fun hidle k hk => ?_, fun hlive => ?_⟩
  · -- a tick never leaves one in the lists that had ended before it
    obtain ⟨u₁, u₂, u₃, u, hok, T'⟩ := schedule_tick B'
    obtain rfl : s' = u := by
      have hboth := hidle.symm.trans hok
      injection hboth
    exact T'.live_before B' hk
  · -- all passes find nothing to do, admission because its last round was like this one
    have R : s'.Rested := ⟨hplain', hlive, T.covered B⟩
    exact R.schedule B' (admitFrom_again B₃ hplain₃ T.passes.2.2.2)

/-- A run of nothing but events has them for its history. -/
theorem undergone_events (s : Scheduler) (events : List Event) :
    s.undergone (events.map .event) = play s events := List.foldl_map

/-- Where no stream reuses prefixes, has a timeout or counts tokens that it has not, a tick
returns the batch, and a tick right after it returns the same batch and changes nothing at
all, just if the first leaves no ended stream in the batch or the queue.  Each one that it
leaves there was accepted, at some point before, while it was queued. -/
theorem idle_unless_ended {hash : ChainHash} {g : Geometry} {a : Allocator}
    (hnew : Allocator.newWith hash g = .ok a) (admission : Admission) {events : List Event}
    (hplain : ∀ e ∈ events, e.plain = true) :
    ∃ s', schedule (play (start admission a) events) = .ok s'.running s' ∧
      (schedule s' = .ok s'.running s' ↔
        ∀ k, k ∈ s'.running ∨ k ∈ s'.waiting → s'.isLive k = true) ∧
      ∀ k, k ∈ s'.running ∨ k ∈ s'.waiting → s'.isLive k = false →
        (start admission a).Requeued (events.map .event) k := by
  have B := books_play hnew admission events
  obtain ⟨s₁, s₂, s₃, s', hok, T⟩ := schedule_tick B
  refine ⟨s', hok, T.idle_iff B (plain_play hnew admission hplain), fun k hk hended => ?_⟩
  -- one that stands only once is live after the tick
  by_contra hnever
  have A := alone_of_not_requeued admission a hnever (List.prefix_refl _)
  rw [undergone_events] at A
  have hone := A.standing
  rw [standing, ← List.count_append] at hone
  rw [T.live_once B hone (List.mem_append.mpr hk)] at hended
  cases hended

/-- The tick that preempts the second of two streams that crowd the pool is followed by one
that changes nothing. -/
theorem idle_unless_ended_crowded :
    ∃ a s', Allocator.newWith chainHash { blocks := 5, blockSize := 2 } = .ok a ∧
      (∀ e ∈ crowdedRun, e.plain = true) ∧
      schedule (play (start {} a) crowdedRun) = .ok [0] s' ∧ s'.waiting = [1] ∧
      schedule s' = .ok [0] s' := by
  have hplain : ∀ e ∈ crowdedRun, e.plain = true := by decide
  have hrun : (Allocator.newWith chainHash { blocks := 5, blockSize := 2 }).toOption.map
      (fun a => let s' := stateAfter schedule (play (start {} a) crowdedRun)
        (s'.running, s'.waiting, s'.isLive 0, s'.isLive 1))
      = some ([0], [1], true, true) := by decide +kernel
  obtain ⟨a, hnew, hfacts⟩ := Allocator.exists_newWith hrun
  obtain ⟨s', hok, hidle, -⟩ := idle_unless_ended hnew {} hplain
  rw [stateAfter_of_ok hok] at hfacts
  simp only [Prod.mk.injEq] at hfacts
  obtain ⟨hbatch, hwaiting, hlive₀, hlive₁⟩ := hfacts
  have hagain := hidle.mpr fun k hk => by
    rw [hbatch, hwaiting, List.mem_singleton, List.mem_singleton] at hk
    rcases hk with rfl | rfl
    · exact hlive₀
    · exact hlive₁
  rw [hbatch] at hok hagain
  exact ⟨a, s', hnew, hplain, hok, hwaiting, hagain⟩

/-! ### A stream that is stopped while it is queued -/

/-- A stream is queued twice and fills the pool of two usable blocks, and then has a token
more. -/
def doubledRun : List Event :=
  [.register 1 { input := [1, 2, 3, 4] }, .enqueue 0, .enqueue 0, .schedule, .call 0 (.append 5)]

/-- The next tick stops it and leaves its other copy in the queue.  The tick after that, with
nothing in between, drops the copy. -/
theorem stopped_copy_dropped_later :
    ∃ a s' s'', Allocator.newWith chainHash { blocks := 3, blockSize := 2 } = .ok a ∧
      (∀ e ∈ doubledRun, e.plain = true) ∧
      schedule (play (start {} a) doubledRun) = .ok [] s' ∧ s'.waiting = [0] ∧
      s'.isLive 0 = false ∧ schedule s' = .ok [] s'' ∧ s''.waiting = [] ∧ s'' ≠ s' := by
  have hrun : (Allocator.newWith chainHash { blocks := 3, blockSize := 2 }).toOption.map
      (fun a =>
        let s' := stateAfter schedule (play (start {} a) doubledRun)
        let s'' := stateAfter schedule s'
        (s'.running, s'.waiting, s'.isLive 0, s''.running, s''.waiting))
      = some ([], [0], false, [], []) := by decide +kernel
  obtain ⟨a, hnew, hfacts⟩ := Allocator.exists_newWith hrun
  have B := books_play hnew {} doubledRun
  obtain ⟨s₁, s₂, s₃, s', hok, T⟩ := schedule_tick B
  have B' := T.moves.books B
  obtain ⟨t₁, t₂, t₃, s'', hok', -⟩ := schedule_tick B'
  simp only [stateAfter_of_ok hok, stateAfter_of_ok hok', Prod.mk.injEq] at hfacts
  obtain ⟨hbatch, hwaiting, hended, hbatch', hwaiting'⟩ := hfacts
  rw [hbatch] at hok
  rw [hbatch'] at hok'
  refine ⟨a, s', s'', hnew, by decide, hok, hwaiting, hended, hok', hwaiting', ?_⟩
  rintro rfl
  rw [hwaiting] at hwaiting'
  cases hwaiting'

end Scheduler

end PagedServe
