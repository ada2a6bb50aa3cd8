/-
PagedServe/Proofs/Preemption.lean

What the growth pass makes of a batch.

Victims are taken from the end of the batch and put at the front of the queue, so those
preempted in one pass are the last of the live streams, and stand in the queue in the order
in which they ran.  `Parted` says this of any state that the pass can come to: the live
streams of the batch it began with are those that run on, then one that was stopped if none
runs on, then those that were preempted.  A stream that is preempted may have been grown
before, but nothing of that is left: what was changed is what `suspended` resets.

A step of the pass takes the last of those that run on and puts it first of those preempted,
or stops it if it is the only one, or leaves everybody where it is (`Parted.step`).  The
exception is a stream that is overdue, which may end anywhere in the batch.

Main statement: if nobody in the batch is overdue, the pass comes to its end with its batch
parted, those that run on have all their blocks, and one stream at most has been stopped for
lack of memory (`growth_preempts_suffix`).  The fallback of admission may stop others in the
same tick, even one that the growth pass has just preempted (`fallback_stops_another`).
-/
import PagedServe.Proofs.Timeouts
import PagedServe.Proofs.Fallback

namespace PagedServe

/-- What preemption resets are not the tokens. -/
theorem Stream.sameTokens_of_suspended {x y : Stream} (h : y.suspended = x.suspended) :
    SameTokens x y := by
  have hrequest : y.suspended.request = x.suspended.request := congrArg Stream.request h
  have houtput : y.suspended.output = x.suspended.output := congrArg Stream.output h
  have hlength : y.suspended.seqLength = x.suspended.seqLength := congrArg Stream.seqLength h
  exact ⟨hrequest, houtput, hlength⟩

/-- A check of the timeout stops no stream for lack of memory. -/
theorem Stream.status_of_checkTimeout {x : Stream} {now : Nat}
    (h : (x.checkTimeout now).status = .stopped .noMemory) : x.status = .stopped .noMemory := by
  unfold checkTimeout stop at h
  split at h
  · split at h
    · exact h
    · simp at h
  · exact h

namespace Scheduler

variable {s s' s₁ s₂ : Scheduler} {h k : Handle} {kept stopped given : List Handle}

/-! ### The bound on the rounds -/

/-- A pass that ends within a number of rounds makes no use of another one. -/
theorem growFrom_succ {idx rounds : Nat} (hok : growFrom idx rounds s = .ok () s') :
    growFrom idx (rounds + 1) s = .ok () s' := by
  induction rounds generalizing s idx with
  | zero =>
    unfold growFrom at hok ⊢
    rw [bind_get] at hok ⊢
    split at hok
    · -- out of rounds with streams left: a fault, and no pass that ended
      cases hok
    case isFalse hend =>
      rw [if_neg hend]
      exact hok
  | succ rounds ih =>
    unfold growFrom at hok ⊢
    rw [bind_get] at hok ⊢
    split at hok
    case isTrue hin =>
      obtain ⟨next, t, hround, hrest⟩ := bind_eq_ok.mp hok
      rw [if_pos hin, bind_of_ok hround]
      exact ih hrest
    case isFalse hend =>
      rw [if_neg hend]
      exact hok

theorem growFrom_of_le {rounds more : Nat} (hle : rounds ≤ more)
    (hok : growFrom 0 rounds s = .ok () s') : growFrom 0 more s = .ok () s' := by
  induction hle with
  | refl => exact hok
  | step _ ih => exact growFrom_succ ih

/-! ### A batch that is parted -/

/-- Checking a stream that is not overdue changes nothing. -/
theorem Timely.checkTimeout_eq (hk : s.Timely h) :
    (s.stream h).checkTimeout s.now = s.stream h := by
  rcases hlive : s.isLive h with - | -
  · exact checkTimeout_of_terminal (not_isLive_iff.mp hlive) _
  · have hdue : (s.stream h).isOverdue s.now = false := hk hlive
    rw [Stream.checkTimeout, Stream.timesOut, hdue, Bool.and_false, if_neg Bool.false_ne_true]

/-- The live streams of the batch of `s₁` are those that run on in `s`, then one that was
stopped for lack of memory if none runs on, then those that wait again, at the head of the
queue.  All other streams are as they were, and those of the batch that had ended are still
in it. -/
structure Parted (s₁ s : Scheduler) (kept stopped given : List Handle) : Prop where
  split : s₁.running.filter s₁.isLive = kept ++ (stopped ++ given)
  first : stopped = [] ∧ (kept = [] → given = []) ∨ kept = [] ∧ ∃ h, stopped = [h]
  live : s.running.filter s.isLive = kept
  batch : s.running = s₁.running.filter (· ∉ stopped ++ given)
  queue : s.waiting = given ++ s₁.waiting
  same : ∀ h ∈ kept, (s.stream h).suspended = (s₁.stream h).suspended
  reset : ∀ h ∈ given, s.stream h = (s₁.stream h).suspended
  ended : ∀ h ∈ stopped, (s.stream h).status = .stopped .noMemory ∧ s.blocksOf h = [] ∧
    Stream.SameTokens (s₁.stream h) (s.stream h)
  idle : ∀ h, h ∉ s₁.running ∨ s₁.isLive h = false → s.stream h = s₁.stream h

/-- Where the pass begins everybody runs on. -/
theorem Parted.refl (s : Scheduler) : Parted s s (s.running.filter s.isLive) [] [] where
  split := (List.append_nil _).symm
  first := Or.inl ⟨rfl, fun _ => rfl⟩
  live := rfl
  batch := (List.filter_eq_self.mpr fun _ _ => decide_eq_true List.not_mem_nil).symm
  queue := rfl
  same := fun _ _ => rfl
  reset := fun _ hh => absurd hh List.not_mem_nil
  ended := fun _ hh => absurd hh List.not_mem_nil
  idle := fun _ _ => rfl

/-- Those before the newest live stream are still live when it has left. -/
theorem live_erase (B : s.Books) {older : List Handle}
    (hnewest : s.running.filter s.isLive = older ++ [h]) (x : Stream) (a : Allocator)
    (waiting : List Handle) :
    (s.running.erase h).filter (isLive { s.setStream h x with
      allocator := a, running := s.running.erase h, waiting := waiting }) = older := by
  rw [← erase_newest B.nodup hnewest, ← filter_erase B.nodup]
  refine List.filter_congr fun k hk => isLive_of_ne ?_
  exact (B.nodup.mem_erase_iff.mp hk).1

namespace Parted

variable (P : Parted s₁ s kept stopped given)

include P

theorem mem_kept : h ∈ kept ↔ h ∈ s.running ∧ s.isLive h = true := by
  rw [← P.live]
  exact List.mem_filter

/-- Who runs on was live in the batch before. -/
theorem mem_live (hh : h ∈ kept ++ (stopped ++ given)) : h ∈ s₁.running ∧ s₁.isLive h = true :=
  List.mem_filter.mp (P.split ▸ hh)

theorem not_mem_gone (hh : h ∈ s.running) : h ∉ stopped ++ given := by
  rw [P.batch] at hh
  exact of_decide_eq_true (List.mem_filter.mp hh).2

/-- While somebody runs on, nobody has been stopped. -/
theorem stopped_nil (hkept : kept ≠ []) : stopped = [] :=
  P.first.elim And.left fun hnone => absurd hnone.1 hkept

/-- The last of those that run on leaves the batch. -/
theorem batch_erase (B : s.Books) (hstopped : stopped = []) (h : Handle) :
    s.running.erase h = s₁.running.filter (· ∉ h :: given) := by
  rw [B.nodup.erase_eq_filter, P.batch, hstopped, List.filter_filter]
  refine List.filter_congr fun k _ => ?_
  rw [Bool.eq_iff_iff]
  simp

/-- Who was not live in the batch is left alone. -/
theorem idle_erase (hrun : h ∈ s.running) (hlive : s.isLive h = true) (x : Stream)
    (hk : k ∉ s₁.running ∨ s₁.isLive k = false) : (s.setStream h x).stream k = s₁.stream k := by
  refine (stream_setStream_of_ne ?_).trans (P.idle k hk)
  rintro rfl
  obtain ⟨hrun₁, hlive₁⟩ := P.mem_live (List.mem_append_left _ (P.mem_kept.mpr ⟨hrun, hlive⟩))
  rcases hk with hout | hended
  · exact hout hrun₁
  · rw [hlive₁] at hended
    cases hended

/-- A stream that runs on changes in what preemption resets. -/
theorem update (B : s.Books) (hrun : h ∈ s.running) (hlive : s.isLive h = true) {x : Stream}
    {a : Allocator} (hx : x.suspended = (s.stream h).suspended)
    (hphase : x.phase = (s.stream h).phase) :
    Parted s₁ { s.setStream h x with allocator := a } kept stopped given := by
  have hh := B.known h hrun
  -- those that gave way or were stopped are not in the batch, so they are not this one
  have hne : ∀ {k}, k ∈ stopped ++ given → k ≠ h := fun hk he => P.not_mem_gone hrun (he ▸ hk)
  have hterminal : (!x.isTerminal) = s.isLive h := by
    rw [isLive, Stream.isTerminal_of_phase hphase]
    rfl
  refine ⟨P.split, P.first, ?_, P.batch, P.queue, fun k hk => ?_, fun k hk => ?_, fun k hk => ?_,
    fun k hk => P.idle_erase hrun hlive x hk⟩
  · -- the live ones are the same
    rw [← P.live]
    exact List.filter_congr fun k _ => isLive_setStream hterminal hh k
  · -- kept ones change in what preemption resets only, `h` by `hx`
    show ((s.setStream h x).stream k).suspended = _
    by_cases hkh : k = h
    · subst hkh
      rw [stream_setStream_self hh, hx]
      exact P.same k hk
    · rw [stream_setStream_of_ne hkh]
      exact P.same k hk
  · -- given ones
    exact (stream_setStream_of_ne (hne (List.mem_append_right _ hk))).trans (P.reset k hk)
  · -- stopped ones
    have hkh := hne (List.mem_append_left given hk)
    have hsame : (s.setStream h x).stream k = s.stream k := stream_setStream_of_ne hkh
    rw [blocksOf_of_ne hkh]
    show ((s.setStream h x).stream k).status = _ ∧ _ ∧
      Stream.SameTokens _ ((s.setStream h x).stream k)
    rw [hsame]
    exact P.ended k hk

section Newest

variable (B : s.Books) {older : List Handle} (hnewest : s.running.filter s.isLive = older ++ [h])
  {a : Allocator}

include B hnewest

theorem ne_newest (hk : k ∈ older ∨ k ∈ given) : k ≠ h := by
  rintro rfl
  rcases hk with hk | hk
  · exact newest_not_mem B.nodup hnewest hk
  · exact P.not_mem_gone (live_of_newest hnewest).1 (List.mem_append_right _ hk)

/-- The newest live stream of several is preempted. -/
theorem preempt (holder : older ≠ []) :
    Parted s₁ { s.setStream h (s.stream h).suspended with
      allocator := a, running := s.running.erase h, waiting := h :: s.waiting }
      older stopped (h :: given) := by
  obtain ⟨hrun, hlive⟩ := live_of_newest hnewest
  have hne := fun k => P.ne_newest B hnewest (k := k)
  -- nobody was stopped yet: whoever is stopped leaves no live one behind
  obtain rfl : kept = older ++ [h] := P.live.symm.trans hnewest
  obtain rfl : stopped = [] := P.stopped_nil (List.append_ne_nil_of_right_ne_nil _ (by simp))
  refine ⟨?_, Or.inl ⟨rfl, fun hnil => absurd hnil holder⟩, live_erase B hnewest _ _ _,
    P.batch_erase B rfl h, congrArg (List.cons h) P.queue, fun k hk => ?_, fun k hk => ?_,
    fun _ hk => absurd hk List.not_mem_nil, fun k hk => P.idle_erase hrun hlive _ hk⟩
  · -- the newest moves from the end of `kept` to the front of `given`
    rw [P.split, List.append_assoc]
    rfl
  · -- kept ones
    show ((s.setStream h _).stream k).suspended = _
    rw [stream_setStream_of_ne (hne k (Or.inl hk))]
    exact P.same k (List.mem_append_left _ hk)
  · -- given ones, the new one first
    show (s.setStream h _).stream k = _
    rcases List.mem_cons.mp hk with rfl | hk
    · rw [stream_setStream_self (B.known k hrun)]
      exact P.same k (List.mem_append_right _ (List.mem_singleton_self k))
    · rw [stream_setStream_of_ne (hne k (Or.inr hk))]
      exact P.reset k hk

end Newest

/-- The only live stream is stopped. -/
theorem abandon (B : s.Books) {a : Allocator} (honly : s.running.filter s.isLive = [h]) :
    Parted s₁ { s.setStream h ((s.stream h).stop .noMemory).emptied with
      allocator := a, running := s.running.erase h } [] [h] given := by
  obtain ⟨hrun, hlive⟩ := live_of_only honly
  have hnewest : s.running.filter s.isLive = [] ++ [h] := honly
  obtain rfl : kept = [h] := P.live.symm.trans honly
  obtain rfl : stopped = [] := P.stopped_nil (List.cons_ne_nil h [])
  refine ⟨P.split, Or.inr ⟨rfl, h, rfl⟩, live_erase B hnewest _ _ _, P.batch_erase B rfl h, P.queue,
    fun _ hk => absurd hk List.not_mem_nil, fun k hk => ?_, fun k hk => ?_,
    fun k hk => P.idle_erase hrun hlive _ hk⟩
  · -- given ones
    exact (stream_setStream_of_ne (P.ne_newest B hnewest (Or.inr hk))).trans (P.reset k hk)
  · -- the one that is stopped
    obtain rfl := List.mem_singleton.mp hk
    have hself : (s.setStream k ((s.stream k).stop .noMemory).emptied).stream k
        = ((s.stream k).stop .noMemory).emptied := stream_setStream_self (B.known k hrun)
    have htokens := Stream.sameTokens_of_suspended (P.same k (List.mem_singleton_self k))
    show ((s.setStream k _).stream k).status = _ ∧ ((s.setStream k _).stream k).table.ids = _ ∧
      Stream.SameTokens _ ((s.setStream k _).stream k)
    rw [hself]
    refine ⟨?_, rfl,
      htokens.trans ((Stream.sameTokens_stop _ _).trans (Stream.sameTokens_emptied _))⟩
    show ((s.stream k).stop .noMemory).status = _
    rw [Stream.stop, if_neg (Bool.eq_false_iff.mp (isLive_iff.mp hlive))]

/-- A step of the pass leaves the batch parted, if nobody in it is overdue. -/
theorem step (B : s.Books) (htimely : ∀ h ∈ s.running, s.Timely h) (hstep : Step .growth s s') :
    ∃ kept stopped given, Parted s₁ s' kept stopped given := by
  cases hstep with
  | expire hrun =>
    rw [(htimely _ hrun).checkTimeout_eq, setStream_stream]
    exact ⟨_, _, _, P⟩
  | grow hrun hlive => exact ⟨_, _, _, P.update B hrun hlive rfl rfl⟩
  | commit hrun hlive => exact ⟨_, _, _, P.update B hrun hlive rfl rfl⟩
  | preempt hnewest holder => exact ⟨_, _, _, P.preempt B hnewest holder⟩
  | abandon honly => exact ⟨_, _, _, P.abandon B honly⟩

end Parted

/-! ### The pass -/

/-- The pass leaves the batch parted. -/
theorem Steps.parted (hsteps : Steps .growth s s') (B : s.Books)
    (htimely : ∀ h ∈ s.running, s.Timely h) :
    ∃ kept stopped given, Parted s s' kept stopped given := by
  have hall := hsteps.keepsBooks
    (P := fun t => (∀ h ∈ t.running, t.Timely h) ∧ ∃ kept stopped given, Parted s t kept stopped given)
    (fun hstep B ⟨htimely, _, _, _, P⟩ => ⟨fun h hh => hstep.timely (by decide)
      (htimely h (Steps.running_subset (.single hstep) h hh)), P.step B htimely hstep⟩)
    B ⟨htimely, _, _, _, .refl s⟩
  exact hall.2.2

/-- Whoever runs on after the pass has all its blocks. -/
theorem Parted.runs_on (P : Parted s₁ s₂ kept stopped given) (B₂ : s₂.Books)
    (hsettled : ∀ h ∈ s₂.running, s₂.isLive h = true → s₂.Settled h) (hh : h ∈ kept) :
    (s₂.stream h).phase = .running ∧ s₂.Settled h ∧
      Stream.SameTokens (s₁.stream h) (s₂.stream h) := by
  obtain ⟨hrun, hlive⟩ := P.mem_kept.mp hh
  exact ⟨B₂.running_of_live hrun hlive, hsettled h hrun hlive,
    Stream.sameTokens_of_suspended (P.same h hh)⟩

/-- Whoever was preempted waits without blocks. -/
theorem Parted.waits (P : Parted s₁ s₂ kept stopped given) (hh : h ∈ given) :
    (s₂.stream h).phase = .waiting ∧ s₂.blocksOf h = [] ∧
      Stream.SameTokens (s₁.stream h) (s₂.stream h) := by
  rw [blocksOf, P.reset h hh]
  exact ⟨rfl, rfl, Stream.sameTokens_suspended _⟩

/-- A stream that was stopped for lack of memory needs more than could be had. -/
theorem Fate.short (F : Fate s₁ s h) (hstatus : (s.stream h).status = .stopped .noMemory) :
    ∃ need, blocksFor (s₁.stream h).seqLength s₁.blockSize = .ok need ∧
      s₁.allocator.pool.usable
        < need + (s.heldBlocks.filter (· ∉ s₁.blocksOf h)).dedup.length := by
  cases F with
  | runs _ hlive =>
    rw [isLive_of_stopped hstatus] at hlive
    cases hlive
  | waits _ hphase =>
    rw [Stream.phase, hstatus] at hphase
    cases hphase
  | timedOut _ _ hlate =>
    rw [hstatus] at hlate
    cases hlate
  | abandoned need _ _ hneed hshort => exact ⟨need, hneed, hshort⟩

/-! ### Who is stopped in a tick -/

/-- Besides growth only a fallback stops streams for lack of memory. -/
theorem Step.noMemory_of {p : Stage} (hstep : Step p s s') (hp : p ≠ .outside)
    (hgrowth : p ≠ .growth) (hquiet : p = .admission → s.admission.fallback = false)
    (hstatus : (s'.stream h).status = .stopped .noMemory) :
    (s.stream h).status = .stopped .noMemory := by
  have hput : ∀ {k x}, ((s.setStream k x).stream h).status = .stopped .noMemory →
      (x.status = .stopped .noMemory → (s.stream k).status = .stopped .noMemory) →
      (s.stream h).status = .stopped .noMemory := by
    intro k x hx himp
    rw [stream_setStream] at hx
    split at hx
    case isTrue hk => exact hk.1 ▸ himp hx
    case isFalse => exact hx
  cases hstep with
  | register | enqueue | call | clear | sleep =>
    -- a caller may give any reason
    exact absurd rfl hp
  | expire | grow | commit | preempt | abandon => exact absurd rfl hgrowth
  | drop | skip | wait => exact hstatus
  | lapse => exact hput hstatus Stream.status_of_checkTimeout
  | release => exact hput hstatus id
  | enter => exact hput hstatus fun hx => by cases hx
  | refuse _ hfallback =>
    rw [hquiet rfl] at hfallback
    cases hfallback

theorem Steps.noMemory_of {p : Stage} (hsteps : Steps p s s') (hp : p ≠ .outside)
    (hgrowth : p ≠ .growth) (hquiet : p = .admission → s.admission.fallback = false)
    (hstatus : (s'.stream h).status = .stopped .noMemory) :
    (s.stream h).status = .stopped .noMemory :=
  (hsteps.keeps (P := fun t => t.admission = s.admission ∧
      ((t.stream h).status = .stopped .noMemory → (s.stream h).status = .stopped .noMemory))
    (fun hstep ⟨hadmission, ht⟩ => ⟨hstep.admission_eq.trans hadmission, fun hstatus =>
      ht (hstep.noMemory_of hp hgrowth (fun he => hadmission ▸ hquiet he) hstatus)⟩)
    ⟨rfl, id⟩).2 hstatus

/-- Without a fallback nobody is stopped for lack of memory once growth has passed. -/
theorem Tick.noMemory_of {s₃ : Scheduler} (T : Tick s s₁ s₂ s₃ s') (B : s.Books)
    (hfallback : s.admission.fallback = false)
    (hstatus : (s'.stream h).status = .stopped .noMemory) :
    (s₂.stream h).status = .stopped .noMemory := by
  have hadmission : s₃.admission = s.admission :=
    (T.keepsBefore (P := fun t => t.admission = s.admission)
      (fun _ hstep _ ht => hstep.admission_eq.trans ht) B rfl).2
  have hstatus₃ := T.admission.noMemory_of (by decide) (by decide)
    (fun _ => hadmission ▸ hfallback) hstatus
  exact T.release.noMemory_of (by decide) (by decide) (fun he => by cases he) hstatus₃

/-- At most one of the streams that were live in `s` is stopped for lack of memory in `s'`. -/
def StopsAtMostOne (s s' : Scheduler) : Prop :=
  ∀ h k, s.isLive h = true → s.isLive k = true → (s'.stream h).status = .stopped .noMemory →
    (s'.stream k).status = .stopped .noMemory → h = k

/-- The growth pass stops no stream for lack of memory but the one that it names. -/
theorem Parted.mem_stopped (P : Parted s₁ s₂ kept stopped given)
    (hstatus : (s₂.stream h).status = .stopped .noMemory) :
    h ∈ stopped ∨ (s₁.stream h).status = .stopped .noMemory := by
  by_cases hbatch : h ∈ s₁.running ∧ s₁.isLive h = true
  · have hmem : h ∈ kept ++ (stopped ++ given) := P.split ▸ List.mem_filter.mpr hbatch
    rcases List.mem_append.mp hmem with hkept | hgone
    · -- those that run on are live
      have hlive := (P.mem_kept.mp hkept).2
      rw [isLive_of_stopped hstatus] at hlive
      cases hlive
    · -- those preempted wait
      refine Or.inl ((List.mem_append.mp hgone).resolve_right fun hgiven => ?_)
      rw [P.reset h hgiven] at hstatus
      cases hstatus
  · refine Or.inr ?_
    rw [← P.idle h (by rw [← Bool.not_eq_true]; exact not_and_or.mp hbatch)]
    exact hstatus

/-- If nobody is stopped for lack of memory before the growth pass or after it, then one
stream is at most. -/
theorem Parted.stopsAtMostOne (P : Parted s₁ s₂ kept stopped given)
    (hbefore : ∀ h, (s₁.stream h).status = .stopped .noMemory →
      (s.stream h).status = .stopped .noMemory)
    (hafter : ∀ h, (s'.stream h).status = .stopped .noMemory →
      (s₂.stream h).status = .stopped .noMemory) : StopsAtMostOne s s' := by
  -- whoever is stopped in the tick is stopped in the pass
  have hmem : ∀ h, s.isLive h = true → (s'.stream h).status = .stopped .noMemory →
      h ∈ stopped := by
    intro h hlive hstatus
    refine (P.mem_stopped (hafter h hstatus)).resolve_right fun hstatus₁ => ?_
    rw [isLive_of_stopped (hbefore h hstatus₁)] at hlive
    cases hlive
  intro h k hh hk hstopped hstopped'
  have hin := hmem h hh hstopped
  have hin' := hmem k hk hstopped'
  rcases P.first with ⟨hnone, -⟩ | ⟨-, _, hone⟩
  · rw [hnone] at hin
    cases hin
  · rw [hone] at hin hin'
    exact (List.mem_singleton.mp hin).trans (List.mem_singleton.mp hin').symm

/-! ### Runs -/

/-- In every tick of every run that finds no running stream past its timeout, the growth pass
comes to its end, however many rounds it is allowed beyond one for each running stream, with
its batch parted: the first live streams run on with all their blocks, and the others wait at
the head of the queue, in the same order, without blocks.  If not even the first can run on,
it has been stopped.  Streams of the batch that had ended are left alone.

So the pass stops one stream at most for lack of memory, and so does the tick unless there is
a fallback. -/
theorem growth_preempts_suffix {hash : ChainHash} {g : Geometry} {a : Allocator}
    (hnew : Allocator.newWith hash g = .ok a) (admission : Admission) (events : List Event)
    (htimely : ∀ h ∈ (play (start admission a) events).running,
      (play (start admission a) events).Timely h) :
    let s := play (start admission a) events
    ∃ s₁ s₂ s', sweepWaiting s = .ok () s₁ ∧ growRunning s₁ = .ok () s₂ ∧
      schedule s = .ok s'.running s' ∧
      (∀ rounds, s₁.running.length ≤ rounds → growFrom 0 rounds s₁ = .ok () s₂) ∧
      (∃ kept stopped given, Parted s₁ s₂ kept stopped given ∧
        (∀ h ∈ kept, (s₂.stream h).phase = .running ∧ s₂.Settled h ∧
          Stream.SameTokens (s₁.stream h) (s₂.stream h)) ∧
        (∀ h ∈ given, (s₂.stream h).phase = .waiting ∧ s₂.blocksOf h = [] ∧
          Stream.SameTokens (s₁.stream h) (s₂.stream h)) ∧
        ∀ h ∈ stopped, ∃ need, blocksFor (s₁.stream h).seqLength s₁.blockSize = .ok need ∧
          s₁.allocator.pool.usable
            < need + (s₂.heldBlocks.filter (· ∉ s₁.blocksOf h)).dedup.length) ∧
      (∀ h ∈ s₁.running, s₁.isLive h = false → h ∈ s₂.running ∧ s₂.stream h = s₁.stream h) ∧
      StopsAtMostOne s s₂ ∧ (admission.fallback = false → StopsAtMostOne s s') := by
  intro s
  have B : s.Books := books_play hnew admission events
  have N : s.Named := named_play hnew admission events
  have hadmission : s.admission = admission :=
    (play_keeps (P := fun t => t.admission = admission)
      (fun hstep _ ht => hstep.admission_eq.trans ht) (books_start hnew admission) rfl events).2
  obtain ⟨s₁, s₂, s₃, s', hok, T⟩ := schedule_tick B
  obtain ⟨hok₁, hok₂, -, -⟩ := T.passes
  have B₁ := T.sweep.keeps Step.books B
  have B₂ := T.growth.keeps Step.books B₁
  have htimely₁ : ∀ h ∈ s₁.running, s₁.Timely h := fun h hh =>
    T.sweep.keeps (P := fun t => t.Timely h) (fun hstep => hstep.timely (by decide))
      (htimely h (T.sweep.running_eq ▸ hh))
  -- the sweep leaves the batch alone, so nobody in it is overdue when the pass begins
  obtain ⟨kept, stopped, given, P⟩ := T.growth.parted B₁ htimely₁
  have hbefore : ∀ h, (s₁.stream h).status = .stopped .noMemory →
      (s.stream h).status = .stopped .noMemory := fun h =>
    T.sweep.noMemory_of (by decide) (by decide) (fun he => by cases he)
  refine ⟨s₁, s₂, s', hok₁, hok₂, hok, fun rounds hle => growFrom_of_le hle hok₂,
    ⟨kept, stopped, given, P, fun h hh => P.runs_on B₂ T.settled hh, fun h hh => P.waits hh,
      fun h hh => ?_⟩,
    fun h hrun hended => ⟨?_, P.idle h (Or.inr hended)⟩,
    P.stopsAtMostOne hbefore fun _ => id, fun hfallback => P.stopsAtMostOne hbefore fun h => ?_⟩
  · -- what the stopped stream needs
    obtain ⟨hrun, hlive⟩ := P.mem_live (List.mem_append_right _ (List.mem_append_left _ hh))
    have F := T.growth.fate B₁ (T.sweep.named B N) hrun hlive
    exact F.short (P.ended h hh).1
  · -- those that had ended stay where they are
    rw [P.batch]
    refine List.mem_filter.mpr ⟨hrun, decide_eq_true fun hgone => ?_⟩
    rw [(P.mem_live (List.mem_append_right _ hgone)).2] at hended
    cases hended
  · -- without the fallback, the other passes stop nobody for memory
    exact T.noMemory_of B (hadmission ▸ hfallback)

/-! ### A contended pool -/

/-- Three of the seven usable blocks are the first stream's and the second's, and four the
others'.  The second ends, and the first and the third come to need a block more. -/
def contendedRun : List Event :=
  [.register 1 { input := [1, 2, 3, 4] }, .register 2 { input := [5, 6] },
    .register 3 { input := [7, 8, 9, 10] }, .register 4 { input := [11, 12, 13, 14] },
    .enqueue 0, .enqueue 1, .enqueue 2, .enqueue 3, .schedule, .call 1 .finish,
    .call 0 (.append 15), .call 2 (.append 16)]

/-- The fourth stream gives way to the first, and what it leaves is enough for the third too. -/
theorem growth_preempts_suffix_contended :
    ∃ a s₁ s₂, Allocator.newWith chainHash { blocks := 8, blockSize := 2 } = .ok a ∧
      (∀ h ∈ (play (start {} a) contendedRun).running,
        (play (start {} a) contendedRun).Timely h) ∧
      sweepWaiting (play (start {} a) contendedRun) = .ok () s₁ ∧ growRunning s₁ = .ok () s₂ ∧
      Parted s₁ s₂ [0, 2] [] [3] ∧ s₂.Settled 0 ∧ s₂.Settled 2 ∧ s₂.blocksOf 3 = [] ∧
      s₂.stream 1 = s₁.stream 1 := by
  have hrun : (Allocator.newWith chainHash { blocks := 8, blockSize := 2 }).toOption.map
      (fun a =>
        let s := play (start {} a) contendedRun
        let s₁ := stateAfter sweepWaiting s
        let s₂ := stateAfter growRunning s₁
        (s.running.all fun h => !s.isOverdue h, s₁.running, s₁.isLive 1,
          s₁.running.filter s₁.isLive, s₂.running.filter s₂.isLive))
      = some (true, [0, 1, 2, 3], false, [0, 2, 3], [0, 2]) := by decide +kernel
  obtain ⟨a, hnew, hfacts⟩ := Allocator.exists_newWith hrun
  simp only [Prod.mk.injEq] at hfacts
  obtain ⟨hdue, hbatch, hended, hlive₁, hlive₂⟩ := hfacts
  have htimely : ∀ h ∈ (play (start {} a) contendedRun).running,
      (play (start {} a) contendedRun).Timely h := fun h hh _ => by
    simpa using List.all_eq_true.mp hdue h hh
  obtain ⟨s₁, s₂, s', hok₁, hok₂, -, -, ⟨kept, stopped, given, P, hkept, hgiven, -⟩, hidle, -⟩ :=
    growth_preempts_suffix hnew {} contendedRun htimely
  rw [stateAfter_of_ok hok₁] at hbatch hended hlive₁ hlive₂
  rw [stateAfter_of_ok hok₂] at hlive₂
  obtain rfl : kept = [0, 2] := P.live.symm.trans hlive₂
  obtain rfl : stopped = [] := P.stopped_nil (by simp)
  obtain rfl : given = [3] := by simpa using P.split.symm.trans hlive₁
  refine ⟨a, s₁, s₂, hnew, htimely, hok₁, hok₂, P, (hkept 0 (by simp)).2.1, (hkept 2 (by simp)).2.1,
    (hgiven 3 (by simp)).2.1, ?_⟩
  exact (hidle 1 (by rw [hbatch]; simp) hended).2

/-! ### Stops with a fallback -/

/-- Two streams fill the pool of two usable blocks, and both come to need three. -/
def outgrownRun : List Event :=
  [.register 1 { input := [1] }, .register 2 { input := [2] }, .enqueue 0, .enqueue 1, .schedule,
    .call 0 (.append 3), .call 0 (.append 4), .call 1 (.append 5), .call 1 (.append 6)]

/-- The growth pass preempts the second stream and stops the first, and the fallback then stops
the second in the same tick. -/
theorem fallback_stops_another :
    ∃ a s', Allocator.newWith chainHash { blocks := 3, blockSize := 1 } = .ok a ∧
      let s := play (start { fallback := true } a) outgrownRun
      (∀ h ∈ s.running, s.Timely h) ∧ s.running.filter s.isLive = [0, 1] ∧
        schedule s = .ok [] s' ∧ (s'.stream 0).status = .stopped .noMemory ∧
        (s'.stream 1).status = .stopped .noMemory ∧ ¬ StopsAtMostOne s s' := by
  have hrun : (Allocator.newWith chainHash { blocks := 3, blockSize := 1 }).toOption.map
      (fun a =>
        let s := play (start { fallback := true } a) outgrownRun
        let s' := stateAfter schedule s
        (s.running.all fun h => !s.isOverdue h, s.running.filter s.isLive, s'.running,
          outOfMemory (s'.stream 0).status, outOfMemory (s'.stream 1).status))
      = some (true, [0, 1], [], true, true) := by decide +kernel
  obtain ⟨a, hnew, hfacts⟩ := Allocator.exists_newWith hrun
  obtain ⟨s₁, s₂, s₃, s', hok, -⟩ :=
    schedule_tick (books_play hnew { fallback := true } outgrownRun)
  simp only [Prod.mk.injEq, stateAfter_of_ok hok] at hfacts
  obtain ⟨hdue, hlive, hbatch, hfirst, hsecond⟩ := hfacts
  have hstopped := outOfMemory_eq_true hfirst
  have hstopped' := outOfMemory_eq_true hsecond
  have hboth : ∀ h ∈ [0, 1], (play (start { fallback := true } a) outgrownRun).isLive h = true :=
    fun h hh => (List.mem_filter.mp (hlive ▸ hh)).2
  refine ⟨a, s', hnew, fun h hh _ => ?_, hlive, hbatch ▸ hok, hstopped, hstopped', fun O => ?_⟩
  · simpa using List.all_eq_true.mp hdue h hh
  · exact absurd (O 0 1 (hboth 0 (by simp)) (hboth 1 (by simp)) hstopped hstopped') (by decide)

end Scheduler

end PagedServe
