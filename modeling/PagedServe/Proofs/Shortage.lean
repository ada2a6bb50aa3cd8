/-
PagedServe/Proofs/Shortage.lean

Which streams the growth pass stops for lack of memory.

What may become of a stream that runs when the pass begins is its `Fate`: it goes
on with all the blocks it needs, it waits again, it timed out, or it was stopped
for lack of memory.  A stream is stopped so only when it is the last live one of
the batch.  All other references are then those of the cache, which can be evicted
since no block is cached twice, and those of streams that ended and are not yet
released.  So its need exceeds what the pool has beside the blocks of the latter
(`usable_lt_of_short`).

Those blocks do count.  A stream whose need fits the pool is stopped if a stream
that ended in the same batch still holds the blocks it would need.
-/
import PagedServe.Proofs.Naming
import Mathlib.Data.List.Dedup

namespace PagedServe

namespace Scheduler

variable {s s' s₁ : Scheduler} {h k : Handle}

/-! ### Streams that growth leaves alone -/

theorem stop_of_terminal {x : Stream} (hx : x.isTerminal = true) (reason : StopReason) :
    x.stop reason = x := if_pos hx

theorem checkTimeout_of_terminal {x : Stream} (hx : x.isTerminal = true) (now : Nat) :
    x.checkTimeout now = x := by
  unfold Stream.checkTimeout
  split
  · exact stop_of_terminal hx _
  · rfl

/-- Growth touches live streams of the batch only. -/
theorem Step.stream_of_idle (hstep : Step .growth s s')
    (hidle : h ∉ s.running ∨ s.isLive h = false) : s'.stream h = s.stream h := by
  -- all other steps are on live streams of the batch
  have hne : ∀ {k}, k ∈ s.running → s.isLive k = true → h ≠ k := by
    rintro k hrun hlive rfl
    rcases hidle with hout | hended
    · exact hout hrun
    · rw [hlive] at hended
      simp at hended
  cases hstep with
  | @expire _ k hrun =>
    -- a timeout check is not, but leaves those that have ended alone
    by_cases hk : h = k
    · subst hk
      have hended : (s.stream h).isTerminal = true := by
        rcases hidle with hout | hended
        · exact absurd hrun hout
        · exact not_isLive_iff.mp hended
      rw [checkTimeout_of_terminal hended, setStream_stream]
    · exact stream_setStream_of_ne hk
  | grow hrun hlive => exact stream_setStream_of_ne (hne hrun hlive)
  | commit hrun hlive => exact stream_setStream_of_ne (hne hrun hlive)
  | preempt hnewest =>
    obtain ⟨hrun, hlive⟩ := live_of_newest hnewest
    exact stream_setStream_of_ne (hne hrun hlive)
  | abandon honly =>
    obtain ⟨hrun, hlive⟩ := live_of_only honly
    exact stream_setStream_of_ne (hne hrun hlive)

/-! ### Fates -/

/-- What has become of a stream that was live in the batch of `s₁`. -/
inductive Fate (s₁ s : Scheduler) (h : Handle) : Prop
  /-- It runs with the blocks it had or with all it needs. -/
  | runs (hrun : h ∈ s.running) (hlive : s.isLive h = true)
      (hlength : (s.stream h).seqLength = (s₁.stream h).seqLength)
      (hblocks : s.blocksOf h = s₁.blocksOf h ∨ s.Settled h)
  /-- It was preempted. -/
  | waits (hwait : h ∈ s.waiting) (hphase : (s.stream h).phase = .waiting)
  | timedOut (elapsed limit : Nat)
      (hstatus : (s.stream h).status = .stopped (.timedOut elapsed limit))
  /-- It was stopped as the last live stream, and its need exceeds the blocks that
  it holds or nobody does. -/
  | abandoned (need : Nat) (hstatus : (s.stream h).status = .stopped .noMemory)
      (hended : ∀ k ∈ s.running, s.isLive k = false)
      (hneed : blocksFor (s₁.stream h).seqLength s₁.blockSize = .ok need)
      (hshort : s₁.allocator.pool.usable
        < need + (s.heldBlocks.filter (· ∉ s₁.blocksOf h)).dedup.length)

/-- A stream that is abandoned needs more than the pool has beside the blocks of
other streams. -/
theorem usable_lt_of_short (B : s.Books) (N : s.Named) (hrun : h ∈ s.running) {n : Nat}
    (hmissing : (s.stream h).missingBlocks s.blockSize = .ok n)
    (hshort : s.allocator.availableCount < n) :
    ∃ need, blocksFor (s.stream h).seqLength s.blockSize = .ok need ∧
      s.allocator.pool.usable
        < need + ((s.heldWithout h).filter (· ∉ s.blocksOf h)).dedup.length := by
  have hneed := blocksFor_eq_ok (s.stream h).seqLength B.blockSize_pos
  rw [missingBlocks_eq_ok _ B.blockSize_pos] at hmissing
  generalize ((s.stream h).seqLength + s.blockSize - 1) / s.blockSize = need at hneed hmissing
  -- what the batch holds is the stream's own or held by the others
  have hcover : ∀ b ∈ s.heldBlocks,
      b ∈ s.blocksOf h ++ ((s.heldWithout h).filter (· ∉ s.blocksOf h)).dedup := by
    intro b hb
    by_cases hmine : b ∈ s.blocksOf h
    · exact List.mem_append_left _ hmine
    · refine List.mem_append_right _ (List.mem_dedup.mpr (List.mem_filter.mpr ⟨?_, ?_⟩))
      · exact (List.mem_append.mp ((heldBlocks_perm hrun).mem_iff.mp hb)).resolve_left hmine
      · simpa using hmine
  have hle := B.ledger.usable_le (N.nodup_blocks B) hcover
  rw [List.length_append] at hle
  have hcount : need - (s.blocksOf h).length = n := Except.ok.inj hmissing
  exact ⟨need, hneed, by omega⟩

/-- Once no live stream is left in the batch, growth changes nothing. -/
theorem Step.stuck (hstep : Step .growth s s') (hended : ∀ k ∈ s.running, s.isLive k = false) :
    s'.running = s.running ∧ ∀ k, s'.stream k = s.stream k := by
  have hnone : ∀ {k}, k ∈ s.running ∧ s.isLive k = true → False := by
    rintro k ⟨hrun, hlive⟩
    rw [hended k hrun] at hlive
    simp at hlive
  cases hstep with
  | @expire _ k hrun =>
    refine ⟨rfl, fun j => ?_⟩
    rw [checkTimeout_of_terminal (not_isLive_iff.mp (hended k hrun)), setStream_stream]
  | grow hrun hlive => exact (hnone ⟨hrun, hlive⟩).elim
  | commit hrun hlive => exact (hnone ⟨hrun, hlive⟩).elim
  | preempt hnewest => exact (hnone (live_of_newest hnewest)).elim
  | abandon honly => exact (hnone (live_of_only honly)).elim

/-- What a step of the growth pass can do to a stream that runs. -/
theorem Step.fate_of_runs (hstep : Step .growth s s') (B₁ : s₁.Books) (B : s.Books) (N : s.Named)
    (hshape : Allocator.SameShape s₁.allocator s.allocator) (hrun : h ∈ s.running)
    (hlive : s.isLive h = true) (hlength : (s.stream h).seqLength = (s₁.stream h).seqLength)
    (hblocks : s.blocksOf h = s₁.blocksOf h ∨ s.Settled h) : Fate s₁ s' h := by
  have hh : h < s.streams.size := B.known h hrun
  have hsize : s'.blockSize = s.blockSize :=
    congrArg Geometry.blockSize hstep.sameShape.geometry
  -- a step that is about another stream
  have hstay : h ∈ s'.running → s'.stream h = s.stream h → Fate s₁ s' h := by
    intro hrun' hsame
    refine .runs hrun' (by rw [isLive, hsame]; exact hlive) (by rw [hsame]; exact hlength) ?_
    refine hblocks.imp (fun hb => ?_) (fun hb => ?_)
    · rw [blocksOf, hsame]
      exact hb
    · rw [Settled, hsame, hsize]
      exact hb
  cases hstep with
  | @expire _ k hrun' =>
    by_cases hk : h = k
    · subst hk
      rcases htime : (s.stream h).timesOut s.now with - | -
      · have hsame : (s.stream h).checkTimeout s.now = s.stream h := by
          rw [Stream.checkTimeout, htime]
          rfl
        exact hstay hrun (by rw [hsame, setStream_stream])
      · refine .timedOut (s.now - (s.stream h).queuedAt) (s.stream h).request.timeoutMs ?_
        rw [stream_setStream_self hh, Stream.checkTimeout, htime, if_pos rfl, Stream.stop,
          if_neg (Bool.eq_false_iff.mp (isLive_iff.mp hlive))]
    · exact hstay hrun (stream_setStream_of_ne hk)
  | @grow _ k ids a hrun' hlive' hmissing ha =>
    by_cases hk : h = k
    · subst hk
      have hself := stream_setStream_self (x := (s.stream h).grow ids) hh
      refine .runs hrun ((isLive_self hh).trans hlive) ?_
        (Or.inr (settled_grow hh B.blockSize_pos ha.shape.geometry hmissing))
      exact (congrArg Stream.seqLength hself).trans hlength
    · exact hstay hrun (stream_setStream_of_ne hk)
  | @commit _ k a hrun' hlive' hreuse hmissing ha =>
    by_cases hk : h = k
    · subst hk
      have hself := stream_setStream_self
        (x := (s.stream h).setCommitted (s.stream h).fullBlockCount) hh
      refine .runs hrun ((isLive_self hh).trans hlive)
        ((congrArg Stream.seqLength hself).trans hlength)
        (hblocks.imp (fun hb => ?_) (fun _ => ?_))
      · exact (congrArg (fun x : Stream => x.table.ids) hself).trans hb
      · show ((s.setStream h _).stream h).missingBlocks _ = _
        rw [hself, hsize]
        exact hmissing
    · exact hstay hrun (stream_setStream_of_ne hk)
  | @preempt _ k older a hnewest holder ha =>
    by_cases hk : h = k
    · subst hk
      refine .waits List.mem_cons_self ?_
      show ((s.setStream h _).stream h).phase = _
      rw [stream_setStream_self hh]
      rfl
    · exact hstay (B.nodup.mem_erase_iff.mpr ⟨hk, hrun⟩) (stream_setStream_of_ne hk)
  | @abandon _ k n a honly hmissing hshort ha =>
    have honly' : ∀ j ∈ s.running, s.isLive j = true → j = k := by
      intro j hj hlive
      exact List.mem_singleton.mp (honly ▸ List.mem_filter.mpr ⟨hj, hlive⟩)
    obtain rfl := honly' h hrun hlive
    obtain ⟨need, hneed, hlt⟩ := usable_lt_of_short B N hrun hmissing hshort
    obtain ⟨hsize₁, husable⟩ := B₁.sameRoom B hshape
    -- a settled stream is missing nothing, so this one still has the blocks it began with
    have hmine : s.blocksOf h = s₁.blocksOf h := by
      rcases hblocks with hmine | hsettled
      · exact hmine
      · rw [Settled, hmissing] at hsettled
        rw [Except.ok.inj hsettled] at hshort
        exact absurd hshort (Nat.not_lt_zero _)
    refine .abandoned need ?_ (fun j hj => ?_) (by rw [← hlength, ← hsize₁]; exact hneed) ?_
    · show ((s.setStream h _).stream h).status = _
      rw [stream_setStream_self hh]
      show ((s.stream h).stop .noMemory).status = _
      rw [Stream.stop, if_neg (Bool.eq_false_iff.mp (isLive_iff.mp hlive))]
    · obtain ⟨hjh, hjrun⟩ := B.nodup.mem_erase_iff.mp hj
      rw [isLive_of_ne hjh]
      rcases hl : s.isLive j with - | -
      · rfl
      · exact absurd (honly' j hjrun hl) hjh
    · rw [heldBlocks_of_erase B.nodup rfl fun j hj => blocksOf_of_ne hj, ← hmine, ← husable]
      exact hlt

/-- Every step of the growth pass leaves a stream to one of these fates. -/
theorem Step.fate (hstep : Step .growth s s') (B₁ : s₁.Books) (B : s.Books) (N : s.Named)
    (hshape : Allocator.SameShape s₁.allocator s.allocator) (F : Fate s₁ s h) : Fate s₁ s' h := by
  cases F with
  | runs hrun hlive hlength hblocks =>
    exact hstep.fate_of_runs B₁ B N hshape hrun hlive hlength hblocks
  | waits hwait hphase =>
    -- the pass takes nobody out of the queue
    have hout : h ∉ s.running := fun hrun => B.started h hrun hphase
    refine .waits ?_ (by rw [hstep.stream_of_idle (Or.inl hout)]; exact hphase)
    cases hstep with
    | expire | grow | commit | abandon => exact hwait
    | preempt => exact List.mem_cons_of_mem _ hwait
  | timedOut elapsed limit hstatus =>
    have hself := isLive_of_stopped hstatus
    exact .timedOut elapsed limit (by rw [hstep.stream_of_idle (Or.inr hself)]; exact hstatus)
  | abandoned need hstatus hended hneed hshort =>
    -- nobody is live any more, so the pass does nothing
    obtain ⟨hrunning, hstream⟩ := hstep.stuck hended
    have hheld : s'.heldBlocks = s.heldBlocks :=
      heldBlocks_congr hrunning fun k _ => congrArg (fun x : Stream => x.table.ids) (hstream k)
    refine .abandoned need (by rw [hstream]; exact hstatus) (fun k hk => ?_) hneed ?_
    · rw [isLive, hstream]
      exact hended k (hrunning ▸ hk)
    · rw [hheld]
      exact hshort

/-! ### The pass -/

theorem Steps.stream_of_idle (hsteps : Steps .growth s s') (hout : h ∉ s.running) :
    s'.stream h = s.stream h := by
  have hboth := hsteps.keeps (P := fun t => h ∉ t.running ∧ t.stream h = s.stream h)
    (fun hstep ⟨hout, hsame⟩ => ⟨fun hrun => hout (Steps.running_subset (.single hstep) h hrun),
      (hstep.stream_of_idle (Or.inl hout)).trans hsame⟩) ⟨hout, rfl⟩
  exact hboth.2

theorem Steps.fate (hsteps : Steps .growth s s') (B : s.Books) (N : s.Named) (hrun : h ∈ s.running)
    (hlive : s.isLive h = true) : Fate s s' h := by
  have hall := hsteps.keepsBooks
    (P := fun t => t.Named ∧ Allocator.SameShape s.allocator t.allocator ∧ Fate s t h)
    (fun hstep Bt ⟨Nt, hshape, F⟩ => ⟨hstep.named Bt Nt, hshape.trans hstep.sameShape,
      hstep.fate B Bt Nt hshape F⟩)
    B ⟨N, .refl _, .runs hrun hlive rfl (Or.inl rfl)⟩
  exact hall.2.2.2

/-- When the growth pass of a tick stops a stream for lack of memory, no live
stream is left in the batch, and the need of the stream exceeds the usable blocks
less those that ended streams hold and it does not.  Every other live stream of
the batch ends up with all the blocks it needs, preempted, or timed out. -/
theorem growth_stops_short {hash : ChainHash} {g : Geometry} {a : Allocator}
    (hnew : Allocator.newWith hash g = .ok a) (admission : Admission) (events : List Event) :
    ∃ s₁ s₂, sweepWaiting (play (start admission a) events) = .ok () s₁ ∧
      growRunning s₁ = .ok () s₂ ∧
      (∀ h, s₁.isLive h = true → (s₂.stream h).status = .stopped .noMemory →
        (∀ k ∈ s₂.running, s₂.isLive k = false) ∧
        ∃ need, blocksFor (s₁.stream h).seqLength s₁.blockSize = .ok need ∧
          s₁.allocator.pool.usable
            < need + (s₂.heldBlocks.filter (· ∉ s₁.blocksOf h)).dedup.length) ∧
      ∀ h ∈ s₁.running, s₁.isLive h = true →
        (h ∈ s₂.running ∧ (s₂.stream h).phase = .running ∧ s₂.Settled h) ∨
        (h ∈ s₂.waiting ∧ (s₂.stream h).phase = .waiting ∧ s₂.blocksOf h = []) ∨
        (∃ elapsed limit, (s₂.stream h).status = .stopped (.timedOut elapsed limit)) ∨
        (s₂.stream h).status = .stopped .noMemory := by
  obtain ⟨s₁, hok₁, hsweep, -⟩ := sweepWaiting_steps (play (start admission a) events)
  have B₁ := hsweep.keeps Step.books (books_play hnew admission events)
  have N₁ := hsweep.named (books_play hnew admission events) (named_play hnew admission events)
  obtain ⟨s₂, hok₂, hgrowth, hsettled⟩ := growRunning_steps B₁
  have B₂ := hgrowth.keeps Step.books B₁
  refine ⟨s₁, s₂, hok₁, hok₂, fun h hlive hstatus => ?_, fun h hrun hlive => ?_⟩
  · by_cases hrun : h ∈ s₁.running
    · cases hgrowth.fate B₁ N₁ hrun hlive with
      | runs hrun₂ hlive₂ =>
        rw [isLive_of_stopped hstatus] at hlive₂
        simp at hlive₂
      | waits hwait hphase =>
        rw [Stream.phase, hstatus] at hphase
        exact absurd hphase (by simp [Status.phase])
      | timedOut elapsed limit hlate =>
        rw [hstatus] at hlate
        simp at hlate
      | abandoned need _ hended hneed hshort => exact ⟨hended, need, hneed, hshort⟩
    · -- the pass does not touch streams outside the batch
      rw [hgrowth.stream_of_idle hrun] at hstatus
      rw [isLive_of_stopped hstatus] at hlive
      simp at hlive
  · cases hgrowth.fate B₁ N₁ hrun hlive with
    | runs hrun₂ hlive₂ =>
      exact Or.inl ⟨hrun₂, B₂.running_of_live hrun₂ hlive₂, hsettled h hrun₂ hlive₂⟩
    | waits hwait hphase =>
      refine Or.inr (Or.inl ⟨hwait, hphase, B₂.idle h fun hrun₂ => ?_⟩)
      exact B₂.started h hrun₂ hphase
    | timedOut elapsed limit hlate => exact Or.inr (Or.inr (Or.inl ⟨elapsed, limit, hlate⟩))
    | abandoned need hstatus => exact Or.inr (Or.inr (Or.inr hstatus))

/-! ### Blocks of ended streams -/

/-- Of two streams that fill the pool of four usable blocks the first ends, while
the second comes to need all four. -/
def starvedRun : List Event :=
  [.register 1 { input := [1, 2] }, .register 2 { input := [3, 4, 5, 6, 7] }, .enqueue 0,
    .enqueue 1, .schedule, .call 0 .finish, .call 1 (.append 8), .call 1 (.append 9)]

/-- The status of a stream that was stopped for lack of memory. -/
def outOfMemory : Status → Bool
  | .stopped .noMemory => true
  | _ => false

theorem outOfMemory_eq_true {x : Status} (hx : outOfMemory x = true) : x = .stopped .noMemory := by
  unfold outOfMemory at hx
  split at hx
  · rfl
  · simp at hx

/-- How the growth pass after that run begins and ends. -/
theorem starvedRun_passes :
    ∃ a, Allocator.newWith chainHash { blocks := 5, blockSize := 2 } = .ok a ∧
      let s₁ := stateAfter sweepWaiting (play (start {} a) starvedRun)
      let s₂ := stateAfter growRunning s₁
      s₁.running = [0, 1] ∧ s₁.isLive 1 = true ∧ (s₂.stream 1).status = .stopped .noMemory ∧
      s₁.allocator.pool.usable = 4 ∧ (s₁.stream 1).seqLength = 7 ∧ s₁.blockSize = 2 := by
  have hrun : (Allocator.newWith chainHash { blocks := 5, blockSize := 2 }).toOption.map
      (fun a => let s₁ := stateAfter sweepWaiting (play (start {} a) starvedRun)
        let s₂ := stateAfter growRunning s₁
        (s₁.running, s₁.isLive 1, outOfMemory (s₂.stream 1).status, s₁.allocator.pool.usable,
          (s₁.stream 1).seqLength, s₁.blockSize))
      = some ([0, 1], true, true, 4, 7, 2) := by decide +kernel
  obtain ⟨a, hnew, hfacts⟩ := Allocator.exists_newWith hrun
  simp only [Prod.mk.injEq] at hfacts
  obtain ⟨hrunning, hlive, hstatus, hrest⟩ := hfacts
  exact ⟨a, hnew, hrunning, hlive, outOfMemory_eq_true hstatus, hrest⟩

/-- The second stream is stopped although all it needs would fit the pool. -/
theorem ended_stream_starves :
    ∃ a s₁ s₂, Allocator.newWith chainHash { blocks := 5, blockSize := 2 } = .ok a ∧
      sweepWaiting (play (start {} a) starvedRun) = .ok () s₁ ∧ growRunning s₁ = .ok () s₂ ∧
      s₁.running = [0, 1] ∧ s₁.isLive 1 = true ∧ (s₂.stream 1).status = .stopped .noMemory ∧
      blocksFor (s₁.stream 1).seqLength s₁.blockSize = .ok s₁.allocator.pool.usable := by
  obtain ⟨a, hnew, hrunning, hlive, hstatus, husable, hlength, hsize⟩ := starvedRun_passes
  obtain ⟨s₁, hok₁, hsweep, -⟩ := sweepWaiting_steps (play (start {} a) starvedRun)
  obtain ⟨s₂, hok₂, -, -⟩ :=
    growRunning_steps (hsweep.keeps Step.books (books_play hnew {} starvedRun))
  rw [stateAfter_of_ok hok₁] at hrunning hlive hstatus husable hlength hsize
  rw [stateAfter_of_ok hok₂] at hstatus
  refine ⟨a, s₁, s₂, hnew, hok₁, hok₂, hrunning, hlive, hstatus, ?_⟩
  rw [hlength, hsize, husable]
  rfl

/-- The four blocks that the second stream needs are not more than the pool has,
but more than it has beside the block that the first one holds. -/
theorem growth_stops_short_starved :
    ∃ a s₁ s₂, Allocator.newWith chainHash { blocks := 5, blockSize := 2 } = .ok a ∧
      sweepWaiting (play (start {} a) starvedRun) = .ok () s₁ ∧ growRunning s₁ = .ok () s₂ ∧
      (s₂.stream 1).status = .stopped .noMemory ∧
      (∀ k ∈ s₂.running, s₂.isLive k = false) ∧
      ∃ need, need = 4 ∧ s₁.allocator.pool.usable = 4 ∧
        s₁.allocator.pool.usable
          < need + (s₂.heldBlocks.filter (· ∉ s₁.blocksOf 1)).dedup.length := by
  obtain ⟨a, hnew, -, hlive, hstatus, husable, hlength, hsize⟩ := starvedRun_passes
  obtain ⟨s₁, s₂, hok₁, hok₂, hstopped, -⟩ := growth_stops_short hnew {} starvedRun
  rw [stateAfter_of_ok hok₁] at hlive hstatus husable hlength hsize
  rw [stateAfter_of_ok hok₂] at hstatus
  obtain ⟨hended, need, hneed, hshort⟩ := hstopped 1 hlive hstatus
  have hfour : blocksFor (s₁.stream 1).seqLength s₁.blockSize = .ok 4 := by
    rw [hlength, hsize]
    rfl
  rw [hfour] at hneed
  exact ⟨a, s₁, s₂, hnew, hok₁, hok₂, hstatus, hended, need, (Except.ok.inj hneed).symm, husable,
    hshort⟩

end Scheduler

end PagedServe
