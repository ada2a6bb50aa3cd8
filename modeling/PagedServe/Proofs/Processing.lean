/-
PagedServe/Proofs/Processing.lean

Which tokens an executor had seen when their block is published.

A call of the executor computes the tokens that a stream counts when it begins, and the
token that it adds is computed by the next call.  `callLengths` lists how long a stream was
at the calls of its current stay in the batch.  As long as ticks and tokens are left to the
engine (`Driven`), a stream of the batch is as long as at the last of these calls, or longer
by one token (`running_lastCalled`).

A full block is published as soon as its tokens are known, the one that the last call gave
among them.  So whatever a stream publishes was computed, but for its last token, which may
stand at the end of its last full block: the growth pass publishes that block one call
before the token is computed, and a stream that has finished does so when no call follows.

Main statement: every published token but this one was computed
(`published_computed_but_last`), and this one need not be: a stream that finishes with a full
block publishes it (`last_token_published_uncomputed`).
-/
import PagedServe.Proofs.EngineRuns
import PagedServe.Proofs.Publication

namespace PagedServe

namespace Scheduler

variable {s s₁ s₂ s₃ s' : Scheduler} {h : Handle}
variable {vocabulary : UInt32} {endToken : Option UInt32}

/-- In its next tick the scheduler does not take the stream off the batch. -/
def stays (s : Scheduler) (h : Handle) : Bool :=
  (stateAfter (do sweepWaiting; growRunning; releaseEnded) s).running.contains h

theorem Tick.stays_iff (T : Tick s s₁ s₂ s₃ s') : s.stays h = true ↔ h ∈ s₃.running := by
  obtain ⟨hsweep, hgrow, hrelease, -⟩ := T.passes
  rw [stays, stateAfter_bind_of_ok hsweep, stateAfter_bind_of_ok hgrow,
    stateAfter_of_ok hrelease, List.contains_iff_mem]

/-- Only streams of the batch stay in it. -/
theorem Tick.running_of_stays (T : Tick s s₁ s₂ s₃ s') (hstays : s.stays h = true) :
    h ∈ s.running := by
  have hrun₂ : h ∈ s₂.running := T.release.of_release.1.subset (T.stays_iff.mp hstays)
  exact T.sweep.running_eq ▸ T.growth.running_subset h hrun₂

/-! ### How long the streams of the batch are -/

/-- The batch is the same, and its streams are as long as they were, or longer by so many
tokens at most. -/
structure KeepsBatch (most : Nat) (s s' : Scheduler) : Prop where
  running : s'.running = s.running
  length : ∀ k ∈ s.running, (s.stream k).seqLength ≤ (s'.stream k).seqLength ∧
    (s'.stream k).seqLength ≤ (s.stream k).seqLength + most

theorem KeepsBatch.refl (s : Scheduler) : KeepsBatch 0 s s :=
  ⟨rfl, fun _ _ => ⟨Nat.le_refl _, Nat.le_refl _⟩⟩

theorem KeepsBatch.trans {m n : Nat} (hm : KeepsBatch m s s₁) (hn : KeepsBatch n s₁ s') :
    KeepsBatch (m + n) s s' where
  running := hn.running.trans hm.running
  length := fun k hk => by
    have hfirst := hm.length k hk
    have hsecond := hn.length k (hm.running ▸ hk)
    omega

theorem KeepsBatch.length_eq (hkeeps : KeepsBatch 0 s s') {k : Handle} (hk : k ∈ s.running) :
    (s'.stream k).seqLength = (s.stream k).seqLength :=
  Nat.le_antisymm (hkeeps.length k hk).2 (hkeeps.length k hk).1

theorem keepsBatch_setStream {x : Stream} (hx : Stream.SameTokens (s.stream h) x) :
    KeepsBatch 0 s (s.setStream h x) :=
  ⟨rfl, fun k _ => by
    rw [(sameTokens_setStream hx k).seqLength]
    exact ⟨Nat.le_refl _, Nat.le_refl _⟩⟩

/-- Any event that is no tick and neither adds tokens nor sets their count. -/
theorem keepsBatch_perform (B : s.Books) {event : Event} (htick : event ≠ .schedule)
    (hspares : ∀ k c, event = .call k c →
      ∀ x : Stream, x.SameTokens (stateAfter (Stream.call c) x)) :
    KeepsBatch 0 s (perform event s) := by
  cases event with
  | register id request =>
    refine ⟨rfl, fun k hk => ?_⟩
    have hsame : (perform (.register id request) s).stream k = s.stream k :=
      stream_push (Nat.ne_of_lt (B.known k hk))
    rw [hsame]
    exact ⟨Nat.le_refl _, Nat.le_refl _⟩
  | enqueue k =>
    rcases perform_enqueue s k with ⟨heq, -⟩ | heq
    · rw [heq]
      have hmarked := keepsBatch_setStream (s := s) (h := k) (x := (s.stream k).markQueued s.now)
        ⟨rfl, rfl, rfl⟩
      exact ⟨hmarked.running, hmarked.length⟩
    · rw [heq]
      exact .refl s
  | schedule => exact absurd rfl htick
  | clearCache order =>
    obtain ⟨a, hstate, -⟩ := perform_clearCache B order
    rw [hstate]
    exact ⟨rfl, (KeepsBatch.refl s).length⟩
  | call k c =>
    rw [perform_call]
    exact keepsBatch_setStream (hspares k c rfl _)
  | sleep ms => exact ⟨rfl, (KeepsBatch.refl s).length⟩

/-- A round of the synthetic executor over a part of the batch. -/
theorem keepsBatch_round (B : s.Books) {part : List (Handle × Stream)}
    (hpart : part.Sublist (s.running.map fun k => (k, s.stream k))) :
    KeepsBatch 1 s (stateAfter (carryOut (roundOf vocabulary endToken part)) s) where
  running := by
    refine Preserves.forM (I := fun t : Scheduler => t.running = s.running)
      (fun c _ t ht => ?_) s rfl
    show (stateAfter (onStream c.1 (Stream.call c.2)) t).running = _
    rw [stateAfter_onStream]
    exact ht
  length := fun k hk => by
    have hhandles : (part.map Prod.fst).Sublist s.running := by
      simpa [Function.comp_def] using hpart.map Prod.fst
    -- a stream stands once in the batch, so it is shown once and as it is
    have honce := Nat.le_trans (hhandles.count_le k) (List.nodup_iff_count_le_one.mp B.nodup k)
    have hshown : ∀ y, (k, y) ∈ part → y = s.stream k := by
      intro y hy
      obtain ⟨j, -, heq⟩ := List.mem_map.mp (hpart.subset hy)
      cases heq
      rfl
    have hgains : Stream.Gains vocabulary endToken (s.stream k) _ :=
      gains_round (B.known k hk) honce hshown
    generalize (stateAfter (carryOut (roundOf vocabulary endToken part)) s).stream k = y
      at hgains ⊢
    cases hgains with
    | nothing => exact ⟨Nat.le_refl _, Nat.le_succ _⟩
    | token =>
      have hlength := (Stream.sameTokens_generated vocabulary endToken (s.stream k)).seqLength
      rw [hlength]
      exact ⟨Nat.le_succ _, Nat.le_refl _⟩
    | uncounted => exact ⟨Nat.le_refl _, Nat.le_succ _⟩

end Scheduler

namespace Engine

open Scheduler (KeepsBatch Publishes)

variable {e : Engine} {history : List Happening} {h k : Handle}
variable {vocabulary : UInt32} {endToken : Option UInt32}

/-! ### The calls of a stay in the batch -/

/-- The lengths in the list, if the stream stays in the batch, and its length at the call of
the executor that this happening makes. -/
def callsAfter (h : Handle) (e : Engine) (x : Happening) (lengths : List Nat) : List Nat :=
  match x with
  | .step =>
    (if e.scheduler.stays h then lengths else []) ++
      match Scheduler.schedule e.scheduler with
      | .ok batch s => if h ∈ batch then [(s.stream h).seqLength] else []
      | .error _ _ => []
  | _ => lengths

/-- The lengths of the stream at the beginnings of all calls of the executor with it in its
current stay in the batch. -/
def callLengths (h : Handle) (e : Engine) (history : List Happening) : List Nat :=
  (history.foldl (fun p x => (happen x p.1, callsAfter h p.1 x p.2)) (e, [])).2

theorem callLengths_concat (h : Handle) (e : Engine) (history : List Happening) (x : Happening) :
    callLengths h e (history ++ [x])
      = callsAfter h (e.after history) x (callLengths h e history) := by
  have hengine : ∀ (history : List Happening) (p : Engine × List Nat),
      (history.foldl (fun p x => (happen x p.1, callsAfter h p.1 x p.2)) p).1
        = p.1.after history := by
    intro history
    induction history with
    | nil => exact fun _ => rfl
    | cons y rest ih => exact fun p => ih (happen y p.1, callsAfter h p.1 y p.2)
  rw [callLengths, List.foldl_append, ← hengine history (e, [])]
  rfl

/-- Ticks, tokens and the memory are left to the engine. -/
def Happening.Driven : Happening → Prop
  | .submit _ | .step => True
  | .beside (.memory _) | .beside (.event .schedule) => False
  | .beside (.event (.call _ (.append _))) | .beside (.event (.call _ (.setSeqLength _))) => False
  | .beside (.event _) => True

/-- The engine is driven by its steps alone. -/
def Driven (history : List Happening) : Prop := ∀ x ∈ history, x.Driven

theorem Driven.sole (hdriven : Driven history) : Sole history := fun _ hmem => hdriven _ hmem

/-! ### Between two steps -/

theorem Happening.Driven.keepsBatch {event : Scheduler.Event} {s : Scheduler}
    (hdriven : (Happening.beside (.event event)).Driven) (B : s.Books) :
    KeepsBatch 0 s (Scheduler.perform event s) := by
  refine Scheduler.keepsBatch_perform B ?_ ?_
  · rintro rfl
    exact hdriven
  · rintro k c rfl x
    cases c with
    | append | setSeqLength => exact hdriven.elim
    | setReuse on => exact ⟨rfl, rfl, rfl⟩
    | finish => exact Stream.sameTokens_finish x
    | stop reason => exact Stream.sameTokens_stop reason x

/-- Whatever happens besides steps. -/
theorem keepsBatch_happen (B : e.scheduler.Books) {x : Happening} (hdriven : x.Driven)
    (hx : x ≠ .step) : KeepsBatch 0 e.scheduler (happen x e).scheduler := by
  cases x with
  | submit request =>
    show KeepsBatch 0 _ (stateAfter (submit request) e).scheduler
    rcases stateAfter_submit (e := e) request with heq | heq
    · rw [heq]
      exact .refl _
    · rw [heq]
      -- the request is registered and then enqueued
      have hregister : (Happening.beside (.event (.register e.nextId request))).Driven := trivial
      have henqueue : (Happening.beside (.event (.enqueue e.scheduler.streams.size))).Driven :=
        trivial
      have B₁ := (Scheduler.perform_moves B (.register e.nextId request)).books B
      exact (hregister.keepsBatch B).trans (henqueue.keepsBatch B₁)
  | step => exact absurd rfl hx
  | beside i =>
    cases i with
    | memory a => exact hdriven.elim
    | event event => exact hdriven.keepsBatch B

/-! ### A step -/

theorem executor_process (batch : List Handle) (X : Executor) :
    Preserves (fun e : Engine => e.executor = X) (process batch) := by
  have hscheduler : ∀ {α : Type} (x : SchedM α),
      Preserves (fun e : Engine => e.executor = X) (onScheduler x) := by
    intro α x e he
    rw [stateAfter_onScheduler]
    exact he
  intro e he
  unfold process
  rw [stateAfter_bind_get, stateAfter_bind_set]
  refine stateAfter_bind (I := fun e : Engine => e.executor = X) (hscheduler _ _ he)
    fun answer => ?_
  cases answer with
  | none => exact Preserves.pure ()
  | some cause => exact Preserves.forM fun k _ => hscheduler _

/-- The executor gives a stream of the batch one token at most, and a failure of it stops
streams and no more. -/
theorem keepsBatch_process (B : e.scheduler.Books)
    (hx : e.executor.Synthesizes vocabulary endToken) :
    KeepsBatch 1 e.scheduler (stateAfter (process e.scheduler.running) e).scheduler := by
  unfold process
  rw [stateAfter_bind_get, stateAfter_bind_set]
  refine stateAfter_bind (I := fun t : Engine => KeepsBatch 1 e.scheduler t.scheduler) ?_
    fun answer => ?_
  · -- its calls
    obtain ⟨part, hpart, hcalls⟩ :=
      hx e.calls (e.scheduler.running.map fun k => (k, e.scheduler.stream k))
    rw [stateAfter_onScheduler]
    show KeepsBatch 1 e.scheduler (stateAfter (Scheduler.process _ _ _) e.scheduler)
    rw [Scheduler.stateAfter_process, hcalls]
    exact Scheduler.keepsBatch_round B hpart
  · -- the stops, if it failed
    cases answer with
    | none => exact Preserves.pure ()
    | some cause =>
      refine Preserves.forM fun k _ t ht => ?_
      rw [stateAfter_onScheduler]
      exact ht.trans (Scheduler.keepsBatch_setStream (Stream.sameTokens_stop (.failed cause) _))

/-- Nothing changes the executor. -/
theorem executor_happen (B : e.scheduler.Books) (x : Happening) :
    (happen x e).executor = e.executor := by
  cases x with
  | submit request =>
    show (stateAfter (submit request) e).executor = _
    rcases stateAfter_submit (e := e) request with heq | heq
    · rw [heq]
    · rw [heq]
  | step =>
    obtain ⟨s₁, s₂, s₃, s', -, -, -, hstep⟩ := step_tick B
    show (stateAfter step e).executor = _
    rw [hstep]
    split
    · rfl
    · exact executor_process s'.running e.executor { e with scheduler := s' } rfl
  | beside i => rfl

/-- A stream of this length was called last when it had `n` tokens, and has been given one
more since or none. -/
structure LastCalled (lengths : List Nat) (length n : Nat) : Prop where
  called : n ∈ lengths
  last : ∀ m ∈ lengths, m ≤ n
  counted : n ≤ length ∧ length ≤ n + 1

/-- A step calls the executor with all the streams that run after it. -/
theorem LastCalled.step (B : e.scheduler.Books)
    (hx : e.executor.Synthesizes vocabulary endToken) {lengths : List Nat}
    (hbefore : h ∈ e.scheduler.running →
      ∃ n, LastCalled lengths (e.scheduler.stream h).seqLength n)
    (hrun : h ∈ (happen .step e).scheduler.running) :
    ∃ n, LastCalled (callsAfter h e .step lengths)
      ((happen .step e).scheduler.stream h).seqLength n := by
  obtain ⟨s₁, s₂, s₃, s', hok, T, hstep, -⟩ := step_tick B
  have hhappen : (happen .step e).scheduler = _ := hstep
  by_cases hempty : s'.running = []
  · rw [hhappen, if_pos hempty, hempty] at hrun
    exact absurd hrun List.not_mem_nil
  rw [hhappen, if_neg hempty] at hrun ⊢
  have B' := T.moves.books B
  have hkeeps : KeepsBatch 1 s' _ := keepsBatch_process (e := { e with scheduler := s' }) B' hx
  rw [hkeeps.running] at hrun
  have hcalls : callsAfter h e .step lengths
      = (if e.scheduler.stays h then lengths else []) ++ [(s'.stream h).seqLength] := by
    simp only [callsAfter, hok, if_pos hrun]
  refine ⟨(s'.stream h).seqLength, ?_, fun m hm => ?_, hkeeps.length h hrun⟩
  · rw [hcalls]
    exact List.mem_append_right _ (List.mem_singleton_self _)
  · rw [hcalls] at hm
    rcases List.mem_append.mp hm with hm | hm
    · -- a call before this tick, so the stream was no longer then
      split at hm
      case isFalse => exact absurd hm List.not_mem_nil
      case isTrue hstays =>
        obtain ⟨n, L⟩ := hbefore (T.running_of_stays hstays)
        have hlength := ((T.frame B).1 h).seqLength
        have hle := L.last m hm
        have hcounted := L.counted
        omega
    · exact Nat.le_of_eq (List.mem_singleton.mp hm)

/-- At any point of a run that is left to the engine, the streams of the batch have been
shown to the executor, and have one token more at most since. -/
theorem running_lastCalled (B : e.scheduler.Books) (hempty : e.scheduler.running = [])
    (hx : e.executor.Synthesizes vocabulary endToken) (hdriven : Driven history) :
    (e.after history).scheduler.Books ∧
      (e.after history).executor.Synthesizes vocabulary endToken ∧
      ∀ h ∈ (e.after history).scheduler.running,
        ∃ n, LastCalled (callLengths h e history)
          ((e.after history).scheduler.stream h).seqLength n := by
  induction history using List.reverseRecOn with
  | nil =>
    refine ⟨B, hx, fun h hh => ?_⟩
    have hnone : h ∈ e.scheduler.running := hh
    rw [hempty] at hnone
    exact absurd hnone List.not_mem_nil
  | append_singleton past x ih =>
    -- on the history, the last happening apart: a tick shows the batch to the executor, and
    -- anything else leaves lengths as they are
    obtain ⟨B₁, hx₁, hlast⟩ := ih fun y hy => hdriven y (List.mem_append_left _ hy)
    have hdrives : x.Driven := hdriven x (List.mem_append_right _ (List.mem_singleton_self x))
    have hmoves := moves_happen B₁ (x := x) (by rintro a rfl; exact hdrives)
    rw [after_concat]
    refine ⟨hmoves.books B₁, ?_, ?_⟩
    · rw [executor_happen B₁]
      exact hx₁
    · intro h hh
      rw [callLengths_concat]
      by_cases hstep : x = .step
      · subst hstep
        exact LastCalled.step B₁ hx₁ (hlast h) hh
      · have hkeeps := keepsBatch_happen B₁ hdrives hstep
        rw [hkeeps.running] at hh
        have hsame : callsAfter h (e.after past) x (callLengths h e past)
            = callLengths h e past := by
          cases x with
          | step => exact absurd rfl hstep
          | submit | beside => rfl
        rw [hsame, hkeeps.length_eq hh]
        exact hlast h hh

/-! ### What is published -/

/-- In any run of an engine whose ticks and tokens are left to it, all entries that a tick
adds to the prefix cache are published by streams.  When a stream publishes an entry for its
block `i`, let `n` be the length it had at the last call of the executor in its current stay
in the batch.  Then either the tokens of its first `i + 1` blocks were all counted at that
call, or the last of them is the one token that the stream was given by this call, which no
call has computed. -/
theorem published_computed_but_last {hash : ChainHash} {g : Geometry} {a : Allocator}
    (hnew : Allocator.newWith hash g = .ok a) (admission : Admission) {executor : Executor}
    (hx : executor.Synthesizes vocabulary endToken) (hdriven : Driven history) :
    let e := ofScheduler (Scheduler.start admission a) executor
    let s := (e.after history).scheduler
    (∃ s', Scheduler.schedule s = .ok s'.running s' ∧
      ∀ x ∈ s'.allocator.cache.content, x ∉ s.allocator.cache.content →
        ∃ h u u', Publishes s h u u' ∧ x ∈ u'.allocator.cache.content ∧
          x ∉ u.allocator.cache.content) ∧
    ∀ h u u', Publishes s h u u' →
      ∀ x ∈ u'.allocator.cache.content, x ∉ u.allocator.cache.content →
        ∃ i n, u.EntryFor h i x ∧ n ∈ callLengths h e history ∧
          (∀ m ∈ callLengths h e history, m ≤ n) ∧
          ((i + 1) * g.blockSize ≤ n ∨
            (i + 1) * g.blockSize = n + 1 ∧ (u.stream h).seqLength = n + 1) := by
  intro e s
  obtain ⟨B, -, hlast⟩ :=
    running_lastCalled (e := e) (Scheduler.books_start hnew admission) rfl hx hdriven
  have hgeometry : s.allocator.geometry = g := by
    have hshape := (after_keeps (e := e)
      (P := fun t => Allocator.SameShape e.scheduler.allocator t.allocator)
      (fun hstep _ ht => ht.trans hstep.sameShape) (Scheduler.books_start hnew admission)
      (.refl _) hdriven.sole).2
    exact hshape.geometry.trans (Allocator.newWith_eq_ok hnew).2.1
  refine ⟨?_, fun h u u' hpub x hx hold => ?_⟩
  · -- all new entries are published
    obtain ⟨s₁, s₂, s₃, s', hok, T⟩ := Scheduler.schedule_tick B
    exact ⟨s', hok, fun x hx hold => T.published B hold hx⟩
  · -- what a stream publishes is counted, and it counts one token more than `n` at most
    obtain ⟨hrun, hframe, added, hcontent, hadded⟩ := hpub.entries B
    rw [hcontent] at hx
    obtain ⟨i, hentry, hle⟩ := hadded x ((List.mem_append.mp hx).resolve_left hold)
    obtain ⟨n, L⟩ := hlast h hrun
    have hsize : u.blockSize = g.blockSize := by
      rw [Scheduler.blockSize, hframe.shape.geometry, hgeometry]
    rw [hsize] at hle
    have hcounted : n ≤ (u.stream h).seqLength ∧ (u.stream h).seqLength ≤ n + 1 := by
      rw [(hframe.tokens h).seqLength]
      exact L.counted
    refine ⟨i, n, hentry, L.called, L.last, ?_⟩
    omega

/-! ### A token that no call has computed -/

/-- A stream of three tokens is given the one that it asked for, and fills two blocks. -/
def fullBlockRun : List Happening :=
  [.submit { input := [1, 2, 3], maxNewTokens := 1 },
    .beside (.event (.call 0 (.setReuse true))), .step]

theorem driven_fullBlockRun : Driven fullBlockRun := by
  intro x hx
  simp only [fullBlockRun, List.mem_cons, List.not_mem_nil, or_false] at hx
  rcases hx with rfl | rfl | rfl
  · trivial
  · trivial
  · trivial

/-- In the next tick it publishes both, and has been called once, with three tokens. -/
theorem fullBlockRun_publishes :
    ∃ a u u' x, Allocator.newWith chainHash { blocks := 5, blockSize := 2 } = .ok a ∧
      let e := ofScheduler (Scheduler.start {} a) (Executor.synthetic 100 none)
      Publishes (e.after fullBlockRun).scheduler 0 u u' ∧ x ∈ u'.allocator.cache.content ∧
        x ∉ u.allocator.cache.content ∧ u.EntryFor 0 1 x ∧ callLengths 0 e fullBlockRun = [3] := by
  have hrun : (Allocator.newWith chainHash { blocks := 5, blockSize := 2 }).toOption.map (fun a =>
      let e := ofScheduler (Scheduler.start {} a) (Executor.synthetic 100 none)
      let s₂ := stateAfter (do Scheduler.sweepWaiting; Scheduler.growRunning)
        (e.after fullBlockRun).scheduler
      let s₃ := stateAfter Scheduler.releaseEnded s₂
      ((s₂.running.partition s₂.isLive).2,
        s₃.allocator.cache.content.map fun x =>
          decide (x ∉ s₂.allocator.cache.content ∧ s₂.EntryFor 0 1 x),
        callLengths 0 e fullBlockRun))
      = some ([0], [false, true], [3]) := by decide +kernel
  obtain ⟨a, hnew, hfacts⟩ := Allocator.exists_newWith hrun
  have B := books_after hnew {} (Executor.synthetic 100 none) driven_fullBlockRun.sole
  obtain ⟨s₁, s₂, s₃, s', -, T⟩ := Scheduler.schedule_tick B
  obtain ⟨hsweep, hgrow, hrelease, -⟩ := T.passes
  simp only [stateAfter_bind_of_ok hsweep, stateAfter_of_ok hgrow, stateAfter_of_ok hrelease,
    Prod.mk.injEq] at hfacts
  obtain ⟨hturn, hentries, hcalls⟩ := hfacts
  -- the second entry is the one for block 1
  have hmem : true ∈ s₃.allocator.cache.content.map fun x =>
      decide (x ∉ s₂.allocator.cache.content ∧ s₂.EntryFor 0 1 x) := by
    rw [hentries]
    decide
  obtain ⟨x, hx, htrue⟩ := List.mem_map.mp hmem
  obtain ⟨hold, hentry⟩ := of_decide_eq_true htrue
  have hloop : [0].forM Scheduler.releaseStream
      { s₂ with running := (s₂.running.partition s₂.isLive).1 } = .ok () s₃ := hturn ▸ hrelease
  obtain ⟨_, t, hone, hend⟩ := bind_eq_ok.mp hloop
  obtain rfl : t = s₃ := by
    cases hend
    rfl
  have hfirst : [].forM Scheduler.releaseStream
      { s₂ with running := (s₂.running.partition s₂.isLive).1 }
      = .ok () { s₂ with running := (s₂.running.partition s₂.isLive).1 } := rfl
  exact ⟨a, _, t, x, hnew, .release hsweep hgrow hturn hfirst hone, hx, hold,
    ⟨hentry.name, hentry.block, hentry.tokens⟩, hcalls⟩

/-- So the tokens of its first two blocks were never all counted when the executor was
called. -/
theorem last_token_published_uncomputed :
    ∃ a u u' x, Allocator.newWith chainHash { blocks := 5, blockSize := 2 } = .ok a ∧
      let e := ofScheduler (Scheduler.start {} a) (Executor.synthetic 100 none)
      Driven fullBlockRun ∧ Publishes (e.after fullBlockRun).scheduler 0 u u' ∧
        x ∈ u'.allocator.cache.content ∧ x ∉ u.allocator.cache.content ∧ u.EntryFor 0 1 x ∧
        ∀ m ∈ callLengths 0 e fullBlockRun, m < (1 + 1) * 2 := by
  obtain ⟨a, u, u', x, hnew, hpub, hx, hold, hentry, hcalls⟩ := fullBlockRun_publishes
  refine ⟨a, u, u', x, hnew, driven_fullBlockRun, hpub, hx, hold, hentry, ?_⟩
  rw [hcalls]
  decide

/-- They are those of the last call, three, and the token that it gave. -/
theorem published_computed_but_last_full :
    ∃ a u u' x, Allocator.newWith chainHash { blocks := 5, blockSize := 2 } = .ok a ∧
      let e := ofScheduler (Scheduler.start {} a) (Executor.synthetic 100 none)
      Publishes (e.after fullBlockRun).scheduler 0 u u' ∧ x ∈ u'.allocator.cache.content ∧
        x ∉ u.allocator.cache.content ∧ callLengths 0 e fullBlockRun = [3] ∧
        ∃ i n, u.EntryFor 0 i x ∧ n ∈ callLengths 0 e fullBlockRun ∧
          ((i + 1) * 2 ≤ n ∨ (i + 1) * 2 = n + 1 ∧ (u.stream 0).seqLength = n + 1) := by
  obtain ⟨a, u, u', x, hnew, hpub, hx, hold, -, hcalls⟩ := fullBlockRun_publishes
  obtain ⟨-, hall⟩ := published_computed_but_last hnew {}
    (Executor.synthesizes_synthetic 100 none) driven_fullBlockRun
  obtain ⟨i, n, hentry, hcalled, -, hcomputed⟩ := hall 0 u u' hpub x hx hold
  exact ⟨a, u, u', x, hnew, hpub, hx, hold, hcalls, i, n, hentry, hcalled, hcomputed⟩

end Engine

end PagedServe
