/-
PagedServe/Proofs/Timeouts.lean

Which streams a tick leaves in its lists past their timeout.

The sweep checks every stream of the queue, and a round of the growth pass checks the
stream at its position before it grows it.  What was checked either has ended or is in
time, and stays so for the rest of the tick, because no pass moves the clock or queues a
stream anew (`Step.timely`).

One kind of stream escapes: a round may preempt the newest stream of the batch before the
pass has come to it.  The stream goes to the head of the queue, which was swept already.

Main statement: there are no others (`overdue_only_if_preempted`), and such streams exist
(`preempted_past_timeout`).
-/
import PagedServe.Proofs.Fifo
import PagedServe.Proofs.Shortage

namespace PagedServe

namespace Stream

variable {x y : Stream}

/-- Only the request and the time of queueing count. -/
theorem isOverdue_congr (hr : y.request = x.request) (hq : y.queuedAt = x.queuedAt) (now : Nat) :
    y.isOverdue now = x.isOverdue now := by
  rw [isOverdue, isOverdue, hr, hq]

theorem isOverdue_stop (reason : StopReason) (x : Stream) (now : Nat) :
    (x.stop reason).isOverdue now = x.isOverdue now := by
  unfold stop
  split
  · rfl
  · rfl

theorem isOverdue_checkTimeout (x : Stream) (now' now : Nat) :
    (x.checkTimeout now').isOverdue now = x.isOverdue now := by
  unfold checkTimeout
  split
  · exact isOverdue_stop _ x now
  · rfl

/-- A stream that was checked has ended or is in time. -/
theorem isOverdue_of_checked {now : Nat} (hlive : (x.checkTimeout now).isTerminal = false) :
    x.isOverdue now = false := by
  rcases htime : x.timesOut now with - | -
  · have hsame : x.checkTimeout now = x := by
      rw [checkTimeout, htime, if_neg Bool.false_ne_true]
    rw [hsame] at hlive
    rw [timesOut, hlive] at htime
    exact htime
  · rw [checkTimeout, if_pos htime, stop_isTerminal] at hlive
    cases hlive

theorem checkTimeout_checkTimeout (x : Stream) (now : Nat) :
    (x.checkTimeout now).checkTimeout now = x.checkTimeout now := by
  rcases htime : x.timesOut now with - | -
  · have hsame : x.checkTimeout now = x := by
      rw [checkTimeout, htime, if_neg Bool.false_ne_true]
    rw [hsame, hsame]
  · refine Scheduler.checkTimeout_of_terminal ?_ now
    rw [checkTimeout, if_pos htime]
    exact stop_isTerminal _ x

end Stream

namespace Scheduler

variable {s s' s₁ : Scheduler} {h k : Handle}

/-- The stream has been queued for longer than its request allows. -/
def isOverdue (s : Scheduler) (h : Handle) : Bool := (s.stream h).isOverdue s.now

/-- The stream has ended or is in time. -/
def Timely (s : Scheduler) (h : Handle) : Prop := s.isLive h = true → s.isOverdue h = false

/-! ### No pass moves the clock -/

theorem isOverdue_setStream {x : Stream}
    (hx : ∀ now, x.isOverdue now = (s.stream h).isOverdue now) (k : Handle) :
    (s.setStream h x).isOverdue k = s.isOverdue k := by
  show ((s.setStream h x).stream k).isOverdue s.now = _
  rw [stream_setStream]
  split
  case isTrue hk =>
    rw [hk.1]
    exact hx s.now
  case isFalse => rfl

theorem isOverdue_put {x : Stream} {a : Allocator} {running waiting : List Handle}
    (hx : ∀ now, x.isOverdue now = (s.stream h).isOverdue now) (k : Handle) :
    isOverdue { s.setStream h x with allocator := a, running := running, waiting := waiting } k
      = s.isOverdue k :=
  isOverdue_setStream hx k

/-- The passes leave it as it is who is past the timeout. -/
theorem Step.isOverdue_eq {p : Stage} (hstep : Step p s s') (hp : p ≠ .outside) (k : Handle) :
    s'.isOverdue k = s.isOverdue k := by
  cases hstep with
  | register | enqueue | call | clear | sleep => exact absurd rfl hp
  | drop | skip | wait => rfl
  | lapse | expire => exact isOverdue_setStream (Stream.isOverdue_checkTimeout _ _) k
  | refuse => exact isOverdue_put (Stream.isOverdue_stop _ _) k
  | @abandon _ h =>
    have hsame : ∀ now, ((s.stream h).stop .noMemory).emptied.isOverdue now
        = (s.stream h).isOverdue now := Stream.isOverdue_stop .noMemory (s.stream h)
    exact isOverdue_put hsame k
  | grow | commit | release | preempt | enter =>
    refine isOverdue_put (fun now => ?_) k
    exact Stream.isOverdue_congr rfl rfl now

theorem Step.timely {p : Stage} (hstep : Step p s s') (hp : p ≠ .outside) (hk : s.Timely k) :
    s'.Timely k := fun hlive =>
  (hstep.isOverdue_eq hp k).trans (hk (hstep.isLive_of hp hlive))

/-- What a check of one stream does for any stream. -/
theorem Timely.check (hk : s.Timely k) (h : Handle) :
    (s.setStream h ((s.stream h).checkTimeout s.now)).Timely k := by
  intro hlive
  rw [isOverdue_setStream (Stream.isOverdue_checkTimeout _ _)]
  exact hk (isLive_of_ends
    (ends_setStream (ends_of_continues (Stream.continues_checkTimeout _ _)) k) hlive)

/-- A stream that was checked is timely. -/
theorem timely_checked (s : Scheduler) (h : Handle) :
    (s.setStream h ((s.stream h).checkTimeout s.now)).Timely h := by
  intro hlive
  rw [isOverdue_setStream (Stream.isOverdue_checkTimeout _ _)]
  rcases Nat.lt_or_ge h s.streams.size with hh | hout
  · refine Stream.isOverdue_of_checked ?_
    have hterminal := isLive_iff.mp hlive
    rwa [stream_setStream_self hh] at hterminal
  · -- the blank stream outside the table has no timeout
    rw [isOverdue, stream_of_le hout]
    rfl

/-! ### The sweep -/

/-- Nothing in a queue that was swept is past its timeout. -/
theorem sweepWaiting_timely (hok : sweepWaiting s = .ok () s₁) (hsweep : Steps .sweep s s₁) :
    ∀ h ∈ s₁.waiting, s₁.isOverdue h = false := by
  have hsub : ∀ h ∈ s₁.waiting, h ∈ s.waiting := by
    refine hsweep.keeps (P := fun t => ∀ h ∈ t.waiting, h ∈ s.waiting) ?_ fun _ hh => hh
    intro t t' hstep ht
    cases hstep with
    | lapse => exact ht
    | drop => exact fun h hh => ht h (List.mem_filter.mp hh).1
  unfold sweepWaiting at hok
  rw [bind_get] at hok
  obtain ⟨_, t, hloop, hdrop⟩ := bind_eq_ok.mp hok
  cases hdrop
  have hall := forM_each (Q := Timely)
    (fun h t t' hone => by cases hone; exact timely_checked t h)
    (fun k h t t' hone hk => by cases hone; exact hk.check h) hloop
  intro h hh
  exact hall h (hsub h hh) (List.mem_filter.mp hh).2

/-! ### The growth pass -/

/-- A round begins with a check, so it makes no difference if the stream was checked
before. -/
theorem growAt_checked (B : s.Books) {older newer : List Handle}
    (hsplit : s.running = older ++ h :: newer) :
    growAt older.length (s.setStream h ((s.stream h).checkTimeout s.now))
      = growAt older.length s := by
  have hh : h < s.streams.size := B.known h (hsplit ▸ List.mem_append_right _ List.mem_cons_self)
  have hitem : Word.item s.running older.length = .ok h := by rw [hsplit, Word.item_append]
  have hcheck := checkTimeout_eq (s.setStream h ((s.stream h).checkTimeout s.now)) h
  rw [stream_setStream_self hh, setStream_setStream] at hcheck
  replace hcheck := hcheck.trans (congrArg (fun x => EStateM.Result.ok () (s.setStream h x))
    (Stream.checkTimeout_checkTimeout (s.stream h) s.now))
  unfold growAt
  simp only [bind_get, setStream_running, bind_of_ok (ofResult_of_ok hitem), bind_of_ok hcheck,
    bind_of_ok (checkTimeout_eq s h)]

/-- The pass leaves no live stream in the batch that is past its timeout. -/
theorem growRunning_timely (B : s.Books) (hok : growRunning s = .ok () s') :
    ∀ h ∈ s'.running, s'.Timely h := by
  have hround : ∀ ⦃s s' : Scheduler⦄ ⦃h : Handle⦄ ⦃older newer : List Handle⦄, s.Books →
      s.running = older ++ h :: newer →
      growAt older.length s = .ok (older.length + 1) s' → s'.Timely h := by
    intro s s' h older newer B hsplit hok
    have hrun : h ∈ s.running := hsplit ▸ List.mem_append_right _ List.mem_cons_self
    have B₁ := (Step.expire hrun).books B
    obtain ⟨next, t, newer', hok', hsteps, -⟩ := growAt_steps B₁ hsplit
    rw [growAt_checked B hsplit] at hok'
    cases hok.symm.trans hok'
    exact hsteps.keeps (P := fun t => t.Timely h) (fun hstep => hstep.timely (by decide))
      (timely_checked s h)
  obtain ⟨t, hok', -, hall⟩ := growRunning_rounds (Q := Timely)
    (fun _ _ _ hstep _ => hstep.timely (by decide)) hround B
  cases hok.symm.trans hok'
  exact hall

/-- Whoever joins the queue in the growth pass was a live stream of the batch and has left
it. -/
theorem Steps.preempted (hsteps : Steps .growth s₁ s') (B₁ : s₁.Books) (hwait : h ∈ s'.waiting) :
    h ∈ s₁.waiting ∨ h ∈ s₁.running ∧ s₁.isLive h = true ∧ h ∉ s'.running := by
  -- the invariant says also who is live and in the batch, or it could not follow a preemption
  let P : Scheduler → Prop := fun t =>
    (∀ k ∈ t.running, k ∈ s₁.running) ∧ (∀ k, t.isLive k = true → s₁.isLive k = true) ∧
      ∀ k ∈ t.waiting, k ∈ s₁.waiting ∨ k ∈ s₁.running ∧ s₁.isLive k = true ∧ k ∉ t.running
  have hkeep : ∀ {t t'}, Step .growth t t' → t.Books → P t → P t' := by
    rintro t t' hstep B ⟨hrun, hlive, hqueue⟩
    refine ⟨?_, fun k hk => hlive k (hstep.isLive_of (by decide) hk), ?_⟩
    · exact fun k hk => hrun k (Steps.running_subset (.single hstep) k hk)
    · cases hstep with
      | expire | grow | commit => exact hqueue
      | @preempt _ v older a hnewest holder ha =>
        obtain ⟨hmem, halive⟩ := live_of_newest hnewest
        intro k hk
        rcases List.mem_cons.mp hk with rfl | hk
        · exact Or.inr ⟨hrun k hmem, hlive k halive, not_mem_erase B.nodup⟩
        · refine (hqueue k hk).imp_right fun hout => ⟨hout.1, hout.2.1, fun hin => ?_⟩
          exact hout.2.2 (List.mem_of_mem_erase hin)
      | abandon =>
        intro k hk
        refine (hqueue k hk).imp_right fun hout => ⟨hout.1, hout.2.1, fun hin => ?_⟩
        exact hout.2.2 (List.mem_of_mem_erase hin)
  exact (hsteps.keepsBooks (P := P) hkeep B₁
    ⟨fun _ hk => hk, fun _ hk => hk, fun _ hk => Or.inl hk⟩).2.2.2 h hwait

/-! ### The whole tick -/

/-- The passes bring no stream into the lists that was in neither. -/
theorem Steps.listed {p : Stage} (hsteps : Steps p s s') (hp : p ≠ .outside)
    (hk : k ∈ s'.running ∨ k ∈ s'.waiting) : k ∈ s.running ∨ k ∈ s.waiting := by
  have hsub : (s'.running ++ s'.waiting).Subperm (s.running ++ s.waiting) :=
    hsteps.keeps (P := fun t => (t.running ++ t.waiting).Subperm (s.running ++ s.waiting))
      (fun hstep ht => (hstep.subperm hp).trans ht) (.refl _)
  exact List.mem_append.mp (hsub.subset (List.mem_append.mpr hk))

theorem Steps.isOverdue_eq {p : Stage} (hsteps : Steps p s s') (hp : p ≠ .outside) (k : Handle) :
    s'.isOverdue k = s.isOverdue k :=
  hsteps.keeps (P := fun t => t.isOverdue k = s.isOverdue k)
    (fun hstep ht => (hstep.isOverdue_eq hp k).trans ht) rfl

/-- Whoever stands in a list after a tick and is past the timeout was running before it, live
and past the timeout already, and the growth pass has preempted it. -/
theorem Tick.overdue {s₂ s₃ : Scheduler} (T : Tick s s₁ s₂ s₃ s') (B : s.Books)
    (hlisted : h ∈ s'.running ∨ h ∈ s'.waiting) (hlate : s'.isOverdue h = true) :
    h ∈ s.running ∧ s.isOverdue h = true ∧ s.isLive h = true ∧ h ∉ s₂.running ∧ h ∈ s₂.waiting := by
  have B₁ := T.sweep.keeps Step.books B
  have hlate₁ : s₁.isOverdue h = true := by
    rw [← T.growth.isOverdue_eq (by decide), ← T.release.isOverdue_eq (by decide),
      ← T.admission.isOverdue_eq (by decide)]
    exact hlate
  have hlate₂ : s₂.isOverdue h = true := (T.growth.isOverdue_eq (by decide) h).trans hlate₁
  have hlisted₃ : h ∈ s₃.running ∨ h ∈ s₃.waiting := T.admission.listed (by decide) hlisted
  rcases hlisted₃ with hrun₃ | hwait₃
  · -- what release leaves in the batch is live, and was checked in the growth pass
    have hrun₂ : h ∈ s₂.running := T.release.of_release.1.subset hrun₃
    have hlive₂ : s₂.isLive h = true := T.release.isLive_of (by decide) (T.live h hrun₃)
    rw [growRunning_timely B₁ T.passes.2.1 h hrun₂ hlive₂] at hlate₂
    cases hlate₂
  · rw [T.release.of_release.2] at hwait₃
    rcases T.growth.preempted B₁ hwait₃ with hwait₁ | ⟨hrun₁, hlive₁, hout⟩
    · rw [sweepWaiting_timely T.passes.1 T.sweep h hwait₁] at hlate₁
      cases hlate₁
    · refine ⟨T.sweep.running_eq ▸ hrun₁, ?_, ?_, hout, hwait₃⟩
      · rw [← T.sweep.isOverdue_eq (by decide)]
        exact hlate₁
      · exact T.sweep.isLive_of (by decide) hlive₁

/-- When a tick of any run has passed, the only streams in the batch or the queue that are
past their timeout are those that ran before the tick, live and past the timeout already,
and were preempted in its growth pass. -/
theorem overdue_only_if_preempted {hash : ChainHash} {g : Geometry} {a : Allocator}
    (hnew : Allocator.newWith hash g = .ok a) (admission : Admission) (events : List Event) :
    let s := play (start admission a) events
    ∃ s₁ s₂ s', sweepWaiting s = .ok () s₁ ∧ growRunning s₁ = .ok () s₂ ∧
      schedule s = .ok s'.running s' ∧
      ∀ h, h ∈ s'.running ∨ h ∈ s'.waiting → s'.isOverdue h = true →
        h ∈ s.running ∧ s.isOverdue h = true ∧ s.isLive h = true ∧
          h ∉ s₂.running ∧ h ∈ s₂.waiting := by
  intro s
  have B : s.Books := books_play hnew admission events
  obtain ⟨s₁, s₂, s₃, s', hok, T⟩ := schedule_tick B
  refine ⟨s₁, s₂, s', T.passes.1, T.passes.2.1, hok, fun h hlisted hlate => ?_⟩
  exact T.overdue B hlisted hlate

/-! ### A stream that escapes the checks -/

/-- Two streams fill the pool of four usable blocks.  The first comes to need a block more,
and the second, which may take fifty milliseconds, gets two hundred. -/
def lateRun : List Event :=
  [.register 1 { input := [1, 2, 3, 4] }, .register 2 { input := [5, 6, 7, 8], timeoutMs := 50 },
    .enqueue 0, .enqueue 1, .schedule, .call 0 (.append 9), .sleep 200]

theorem lateRun_tick :
    ∃ a s', Allocator.newWith chainHash { blocks := 5, blockSize := 2 } = .ok a ∧
      schedule (play (start {} a) lateRun) = .ok [0] s' ∧ s'.waiting = [1] ∧
      s'.isLive 1 = true ∧ s'.isOverdue 1 = true := by
  have hrun : (Allocator.newWith chainHash { blocks := 5, blockSize := 2 }).toOption.map
      (fun a =>
        let s' := stateAfter schedule (play (start {} a) lateRun)
        (s'.running, s'.waiting, s'.isLive 1, s'.isOverdue 1))
      = some ([0], [1], true, true) := by decide +kernel
  obtain ⟨a, hnew, hfacts⟩ := Allocator.exists_newWith hrun
  obtain ⟨s₁, s₂, s₃, s', hok, -⟩ := schedule_tick (books_play hnew {} lateRun)
  rw [stateAfter_of_ok hok] at hfacts
  simp only [Prod.mk.injEq] at hfacts
  obtain ⟨hbatch, hwaiting, hlive, hlate⟩ := hfacts
  exact ⟨a, s', hnew, hbatch ▸ hok, hwaiting, hlive, hlate⟩

/-- The next tick preempts the second stream for the first and leaves it in the queue, live
and past its timeout. -/
theorem preempted_past_timeout :
    ∃ a s', Allocator.newWith chainHash { blocks := 5, blockSize := 2 } = .ok a ∧
      schedule (play (start {} a) lateRun) = .ok [0] s' ∧
      ∃ h ∈ s'.waiting, s'.isLive h = true ∧ s'.isOverdue h = true := by
  obtain ⟨a, s', hnew, hok, hwaiting, hlive, hlate⟩ := lateRun_tick
  exact ⟨a, s', hnew, hok, 1, hwaiting ▸ List.mem_singleton_self 1, hlive, hlate⟩

/-- It ran when the tick began and was past its timeout then; the growth pass, which would
have checked it second, took it off the batch at the first stream's turn. -/
theorem overdue_only_if_preempted_late :
    ∃ a s₁ s₂ s', Allocator.newWith chainHash { blocks := 5, blockSize := 2 } = .ok a ∧
      sweepWaiting (play (start {} a) lateRun) = .ok () s₁ ∧ growRunning s₁ = .ok () s₂ ∧
      schedule (play (start {} a) lateRun) = .ok s'.running s' ∧ s'.waiting = [1] ∧
      s'.isOverdue 1 = true ∧ 1 ∈ (play (start {} a) lateRun).running ∧ 1 ∉ s₂.running ∧
      1 ∈ s₂.waiting := by
  obtain ⟨a, t, hnew, hok, hwaiting, -, hlate⟩ := lateRun_tick
  obtain ⟨s₁, s₂, s', hsweep, hgrow, hok', hall⟩ := overdue_only_if_preempted hnew {} lateRun
  obtain rfl : t = s' := by
    have hsame := hok.symm.trans hok'
    injection hsame
  have hlisted : 1 ∈ t.running ∨ 1 ∈ t.waiting := Or.inr (hwaiting ▸ List.mem_singleton_self 1)
  obtain ⟨hran, -, -, hout, hwait⟩ := hall 1 hlisted hlate
  exact ⟨a, s₁, s₂, t, hnew, hsweep, hgrow, hok', hwaiting, hlate, hran, hout, hwait⟩

end Scheduler

end PagedServe
