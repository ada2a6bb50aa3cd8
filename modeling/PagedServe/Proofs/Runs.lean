/-
PagedServe/Proofs/Runs.lean

Whole runs of a scheduler, and its block ledger.

A run starts with a new allocator that nobody else uses.  It is any sequence of
events: streams are registered, enqueued (also again), called and timed out, the
cache is cleared, ticks pass (`play`).  Events that fail keep what they had done.

A tick never fails while the books add up (`schedule_tick`), and every event is
made of steps (`perform_moves`).  Hence what every step keeps holds at any point
of any run (`play_keeps`), and the books do (`books_play`).

Main statement: at any point each usable block has as many references as places
in the tables of the running streams and entries of the cache (`references`), and
is on the free list, once, just if there are none.
-/
import PagedServe.Proofs.Admission

namespace PagedServe

namespace Scheduler

open Allocator (exists_newWith)

variable {s s' : Scheduler} {h k : Handle}

/-! ### Ticks -/

/-- The sweep leaves live streams in the queue. -/
theorem sweepWaiting_steps (s : Scheduler) :
    ∃ s', sweepWaiting s = .ok () s' ∧ Steps .sweep s s' ∧
      ∀ h ∈ s'.waiting, s'.isLive h = true := by
  obtain ⟨s₁, hok, hsteps, -⟩ := forM_ok (R := Steps .sweep) (fun _ => .refl)
    (fun hr hr' => hr.trans hr') (I := fun t => t.waiting = s.waiting) (l := s.waiting)
    (g := checkTimeout) (fun h hh t ht => ⟨_, checkTimeout_eq t h, .single (.lapse (ht ▸ hh)), ht⟩)
    rfl
  refine ⟨_, ?_, hsteps.tail (.drop s₁), fun h hh => (List.mem_filter.mp hh).2⟩
  unfold sweepWaiting
  simp only [bind_get]
  rw [bind_of_ok hok]
  rfl

/-- A tick, cut between its passes. -/
structure Tick (s s₁ s₂ s₃ s' : Scheduler) : Prop where
  sweep : Steps .sweep s s₁
  queued : ∀ h ∈ s₁.waiting, s₁.isLive h = true
  growth : Steps .growth s₁ s₂
  settled : ∀ h ∈ s₂.running, s₂.isLive h = true → s₂.Settled h
  release : Steps .release s₂ s₃
  live : ∀ h ∈ s₃.running, s₃.isLive h = true
  admission : Steps .admission s₃ s'
  ended : s'.waiting = [] ∨ ∃ t h a, Steps .admission s₃ t ∧ HeldUp t h ∧
    Allocator.Neutral t.allocator t.heldBlocks a ∧ s' = { t with allocator := a }
  passes : sweepWaiting s = .ok () s₁ ∧ growRunning s₁ = .ok () s₂ ∧
    releaseEnded s₂ = .ok () s₃ ∧ admitWaiting s₃ = .ok () s'

/-- A tick passes and returns the batch. -/
theorem schedule_tick (B : s.Books) :
    ∃ s₁ s₂ s₃ s', schedule s = .ok s'.running s' ∧ Tick s s₁ s₂ s₃ s' := by
  obtain ⟨s₁, hok₁, hsweep, hqueued⟩ := sweepWaiting_steps s
  have B₁ := hsweep.keeps Step.books B
  obtain ⟨s₂, hok₂, hgrowth, hsettled⟩ := growRunning_steps B₁
  have B₂ := hgrowth.keeps Step.books B₁
  obtain ⟨s₃, hok₃, hrelease, hlive⟩ := releaseEnded_steps B₂
  have B₃ := hrelease.keeps Step.books B₂
  obtain ⟨s', hok', hadmission, hended⟩ := admitWaiting_steps B₃
  have B' := hadmission.keeps Step.books B₃
  refine ⟨s₁, s₂, s₃, s', ?_, hsweep, hqueued, hgrowth, hsettled, hrelease, hlive, hadmission,
    hended, hok₁, hok₂, hok₃, hok'⟩
  unfold schedule
  simp only [bind_of_ok hok₁, bind_of_ok hok₂, bind_of_ok hok₃, bind_of_ok hok', bind_get]
  rw [bind_of_ok (ofResult_of_ok B'.ledger.check)]
  rfl

/-- No step changes the shape of the memory or the naming of chains. -/
theorem Step.sameShape {p : Stage} (hstep : Step p s s') :
    Allocator.SameShape s.allocator s'.allocator := by
  cases hstep with
  | register | enqueue | call | sleep | lapse | drop | expire => exact .refl _
  | clear ha | preempt _ _ ha | abandon _ _ _ ha | skip _ _ ha | wait ha => exact ha.shape
  | refuse _ _ _ _ _ ha => exact ha.shape
  | grow _ _ _ ha => exact ha.shape
  | commit _ _ _ _ ha => exact ha.shape
  | release _ _ ha => exact ha.shape
  | enter _ _ _ ha => exact ha.shape

section Keeps

variable {P : Scheduler → Prop} {s₁ s₂ s₃ : Scheduler} (T : Tick s s₁ s₂ s₃ s')
    (hpass : ∀ {p s s'}, p ≠ .outside → Step p s s' → s.Books → P s → P s') (B : s.Books)
    (hs : P s)

include T hpass B hs

/-- What the steps of the passes keep holds before admission. -/
theorem Tick.keepsBefore : s₃.Books ∧ P s₃ := by
  obtain ⟨B₁, h₁⟩ := T.sweep.keepsBooks (hpass (by decide)) B hs
  obtain ⟨B₂, h₂⟩ := T.growth.keepsBooks (hpass (by decide)) B₁ h₁
  exact T.release.keepsBooks (hpass (by decide)) B₂ h₂

/-- What the steps of the passes keep, a tick keeps. -/
theorem Tick.keeps : s'.Books ∧ P s' := by
  obtain ⟨B₃, h₃⟩ := T.keepsBefore hpass B hs
  exact T.admission.keepsBooks (hpass (by decide)) B₃ h₃

end Keeps

/-- A tick changes neither tokens nor the number of streams nor the shape of the memory. -/
theorem Tick.frame {s₁ s₂ s₃ : Scheduler} (T : Tick s s₁ s₂ s₃ s') (B : s.Books) :
    (∀ k, Stream.SameTokens (s.stream k) (s'.stream k)) ∧ s'.streams.size = s.streams.size ∧
      Allocator.SameShape s.allocator s'.allocator :=
  (T.keeps (P := fun t => (∀ k, Stream.SameTokens (s.stream k) (t.stream k)) ∧
      t.streams.size = s.streams.size ∧ Allocator.SameShape s.allocator t.allocator)
    (fun hp hstep _ ⟨hsame, hsize, hshape⟩ => ⟨fun k => (hsame k).trans (hstep.sameTokens hp k),
      (hstep.size_eq hp).trans hsize, hshape.trans hstep.sameShape⟩)
    B ⟨fun _ => .refl _, rfl, .refl _⟩).2

/-! ### Runs -/

/-- What can be done to a scheduler from outside. -/
inductive Event where
  | register (id : UInt64) (request : Request)
  | enqueue (h : Handle)
  | schedule
  /-- The blocks of the cache come in the order named. -/
  | clearCache (order : List Nat)
  | call (h : Handle) (c : Stream.Call)
  | sleep (ms : Nat)

/-- The scheduler after an event, failed or not. -/
def perform : Event → Scheduler → Scheduler
  | .register id request => stateAfter (register id request)
  | .enqueue h => stateAfter (enqueue h)
  | .schedule => stateAfter schedule
  | .clearCache order => stateAfter (onAllocator (Allocator.clearCache order))
  | .call h c => stateAfter (onStream h (Stream.call c))
  | .sleep ms => stateAfter (sleep ms)

/-- The scheduler after a list of events. -/
def play (s : Scheduler) (events : List Event) : Scheduler :=
  events.foldl (fun s e => perform e s) s

/-- A scheduler that has an allocator for itself. -/
def start (admission : Admission) (a : Allocator) : Scheduler := { admission, allocator := a }

theorem books_start {hash : ChainHash} {g : Geometry} {a : Allocator}
    (hnew : Allocator.newWith hash g = .ok a) (admission : Admission) :
    (start admission a).Books where
  ledger := Allocator.ledger_newWith hnew
  nodup := List.nodup_nil
  started := fun _ hh => absurd hh List.not_mem_nil
  tables := fun _ hh => absurd hh List.not_mem_nil
  idle := fun h _ => congrArg (fun x : Stream => x.table.ids) (stream_of_le (Nat.zero_le h))
  known := fun _ hh => absurd hh List.not_mem_nil
  queued := fun _ hh => absurd hh List.not_mem_nil

/-- A stream is appended to the queue, or it is refused and nothing happens. -/
theorem enqueue_spec (s : Scheduler) (h : Handle) :
    (enqueue h s = .ok ()
        { s.setStream h ((s.stream h).markQueued s.now) with waiting := s.waiting ++ [h] } ∧
      h < s.streams.size ∧ (s.stream h).phase = .waiting) ∨ ∃ e, enqueue h s = .error e s := by
  unfold enqueue
  simp only [bind_get]
  by_cases hempty : (s.stream h).request.input.length = 0
  · exact Or.inr ⟨_, by rw [if_pos hempty]; rfl⟩
  rw [if_neg hempty]
  by_cases hlong : s.admission.maxInput < (s.stream h).request.input.length
  · exact Or.inr ⟨_, by rw [if_pos hlong]; rfl⟩
  rw [if_neg hlong]
  by_cases hphase : (s.stream h).phase = .waiting
  · refine Or.inl ⟨?_, ?_, hphase⟩
    · rw [if_neg (not_not.mpr hphase), bind_of_ok (update_eq _ _ _)]
      rfl
    · -- the blank stream outside the table has no input
      by_contra hout
      rw [stream_of_le (Nat.le_of_not_lt hout)] at hempty
      exact hempty rfl
  · exact Or.inr ⟨_, by rw [if_pos hphase]; rfl⟩

/-- A stream is put into the queue, or it is refused and nothing changes. -/
theorem perform_enqueue (s : Scheduler) (h : Handle) :
    (perform (.enqueue h) s
        = { s.setStream h ((s.stream h).markQueued s.now) with waiting := s.waiting ++ [h] } ∧
      h < s.streams.size ∧ (s.stream h).phase = .waiting) ∨ perform (.enqueue h) s = s := by
  show (stateAfter (enqueue h) s = _ ∧ _ ∧ _) ∨ stateAfter (enqueue h) s = _
  rcases enqueue_spec s h with ⟨hok, hrest⟩ | ⟨e, herr⟩
  · exact Or.inl ⟨stateAfter_of_ok hok, hrest⟩
  · exact Or.inr (stateAfter_of_error herr)

theorem perform_call (s : Scheduler) (h : Handle) (c : Stream.Call) :
    perform (.call h c) s = s.setStream h (stateAfter (Stream.call c) (s.stream h)) := by
  show stateAfter (onStream h (Stream.call c)) s = _
  unfold stateAfter onStream
  rcases Stream.call c (s.stream h) with ⟨r, x⟩ | ⟨e, x⟩
  · rfl
  · rfl

theorem perform_clearCache (B : s.Books) (order : List Nat) :
    ∃ a, perform (.clearCache order) s = { s with allocator := a } ∧
      Allocator.Neutral s.allocator s.heldBlocks a := by
  obtain ⟨n, a, hok, ha, -⟩ := B.ledger.clearCache order
  exact ⟨a, stateAfter_of_ok (onAllocator_of_ok hok), ha⟩

/-- Steps of any stage. -/
abbrev Moves : Scheduler → Scheduler → Prop := Relation.ReflTransGen fun s s' => ∃ p, Step p s s'

theorem Steps.moves {p : Stage} (hsteps : Steps p s s') : Moves s s' :=
  Relation.ReflTransGen.mono (fun _ _ hstep => ⟨p, hstep⟩) _ _ hsteps

theorem Tick.moves {s₁ s₂ s₃ : Scheduler} (T : Tick s s₁ s₂ s₃ s') : Moves s s' :=
  ((T.sweep.moves.trans T.growth.moves).trans T.release.moves).trans T.admission.moves

/-- Every event is made of steps. -/
theorem perform_moves (B : s.Books) (e : Event) : Moves s (perform e s) := by
  -- a refused `enqueue` is no step at all, a tick is many
  cases e with
  | register id request => exact .single ⟨.outside, .register s id request⟩
  | enqueue h =>
    rcases perform_enqueue s h with ⟨heq, hsize, hphase⟩ | heq
    · rw [heq]
      exact .single ⟨.outside, .enqueue hsize hphase⟩
    · rw [heq]
  | schedule =>
    obtain ⟨s₁, s₂, s₃, s', hok, T⟩ := schedule_tick B
    show Moves s (stateAfter schedule s)
    rw [stateAfter_of_ok hok]
    exact T.moves
  | clearCache order =>
    obtain ⟨a, hstate, ha⟩ := perform_clearCache B order
    rw [hstate]
    exact .single ⟨.outside, .clear ha⟩
  | call h c =>
    rw [perform_call]
    exact .single ⟨.outside, .call s h c⟩
  | sleep ms => exact .single ⟨.outside, .sleep s ms⟩

/-- What every step keeps holds all along. -/
theorem Moves.keeps {P : Scheduler → Prop}
    (hstep : ∀ {p s s'}, Step p s s' → s.Books → P s → P s') (hmoves : Moves s s') (B : s.Books)
    (hs : P s) : s'.Books ∧ P s' := by
  induction hmoves with
  | refl => exact ⟨B, hs⟩
  | tail _ hlast ih =>
    obtain ⟨p, hlast⟩ := hlast
    exact ⟨hlast.books ih.1, hstep hlast ih.1 ih.2⟩

theorem Moves.books (hmoves : Moves s s') (B : s.Books) : s'.Books :=
  (hmoves.keeps (P := fun _ => True) (fun _ _ _ => trivial) B trivial).1

theorem play_keeps {P : Scheduler → Prop} (hstep : ∀ {p s s'}, Step p s s' → s.Books → P s → P s')
    (B : s.Books) (hs : P s) (events : List Event) : (play s events).Books ∧ P (play s events) := by
  induction events generalizing s with
  | nil => exact ⟨B, hs⟩
  | cons e events ih =>
    obtain ⟨B', hs'⟩ := (perform_moves B e).keeps hstep B hs
    exact ih B' hs'

/-- What the passes keep, and some kind of events between ticks, holds along runs of
such events. -/
theorem play_keeps_of {P : Scheduler → Prop} {Q : Event → Prop}
    (hpass : ∀ {p s s'}, p ≠ .outside → Step p s s' → s.Books → P s → P s')
    (hevent : ∀ {s} (e : Event), e ≠ .schedule → Q e → s.Books → P s → P (perform e s))
    (B : s.Books) (hs : P s) (events : List Event) (hall : ∀ e ∈ events, Q e) :
    P (play s events) := by
  induction events generalizing s with
  | nil => exact hs
  | cons e events ih =>
    have B' := (perform_moves B e).books B
    refine ih B' ?_ fun e' he' => hall e' (List.mem_cons_of_mem e he')
    -- ticks keep it by their passes, other events by what they are
    by_cases he : e = .schedule
    · subst he
      obtain ⟨s₁, s₂, s₃, s', hok, T⟩ := schedule_tick B
      show P (stateAfter schedule s)
      rw [stateAfter_of_ok hok]
      exact (T.keeps hpass B hs).2
    · exact hevent e he (hall e List.mem_cons_self) B hs

/-- What holds of every stream holds after an event between ticks, if the event leaves it so
with the stream that it registers, queues or calls. -/
theorem forall_perform {P : Stream → Prop} {e : Event} (he : e ≠ .schedule) (B : s.Books)
    (hs : ∀ k, P (s.stream k))
    (hnew : ∀ id request, e = .register id request → P (Stream.new id request s.now))
    (hqueued : ∀ h, e = .enqueue h → P ((s.stream h).markQueued s.now))
    (hcall : ∀ h c, e = .call h c → P (stateAfter (Stream.call c) (s.stream h))) :
    ∀ k, P ((perform e s).stream k) := by
  cases e with
  | schedule => exact absurd rfl he
  | register id request => exact forall_push hs (hnew id request rfl)
  | enqueue h =>
    rcases perform_enqueue s h with ⟨heq, -, -⟩ | heq
    · rw [heq]
      exact forall_setStream hs (hqueued h rfl)
    · rw [heq]
      exact hs
  | clearCache order =>
    obtain ⟨a, hstate, -⟩ := perform_clearCache B order
    rw [hstate]
    exact hs
  | call h c =>
    rw [perform_call]
    exact forall_setStream hs (hcall h c rfl)
  | sleep ms => exact hs

theorem books_play {hash : ChainHash} {g : Geometry} {a : Allocator}
    (hnew : Allocator.newWith hash g = .ok a) (admission : Admission) (events : List Event) :
    (play (start admission a) events).Books :=
  (play_keeps (P := fun _ => True) (fun _ _ _ => trivial) (books_start hnew admission) trivial
    events).1

theorem sameShape_play (B : s.Books) (events : List Event) :
    Allocator.SameShape s.allocator (play s events).allocator :=
  (play_keeps (P := fun t => Allocator.SameShape s.allocator t.allocator)
    (fun hstep _ ht => ht.trans hstep.sameShape) B (.refl _) events).2

/-! ### The block ledger -/

/-- The references on a block: places in tables of running streams, and entries
of the cache. -/
def references (s : Scheduler) (b : Nat) : Nat :=
  s.heldBlocks.count b + s.allocator.cache.blocks.count b

/-- At any point of any run the references on a usable block are those of running
streams and of the cache, the free list has it once if there are none and not at
all otherwise, no other block is in use anywhere, and streams outside the batch
hold nothing. -/
theorem references_accounted {hash : ChainHash} {g : Geometry} {a : Allocator}
    (hnew : Allocator.newWith hash g = .ok a) (admission : Admission) (events : List Event) :
    let s := play (start admission a) events
    s.running.Nodup ∧
    (∀ b, 0 < b → b < g.blocks → s.allocator.pool.refCount? b = some (s.references b) ∧
      s.allocator.pool.free.count b = if s.references b = 0 then 1 else 0) ∧
    (∀ b, (∃ h, b ∈ s.blocksOf h) ∨ b ∈ s.allocator.cache.blocks ∨ b ∈ s.allocator.pool.free →
      0 < b ∧ b < g.blocks) ∧
    ∀ h, h ∉ s.running → s.blocksOf h = [] := by
  intro s
  have B : s.Books := books_play hnew admission events
  have hgeometry : s.allocator.geometry = g :=
    (sameShape_play (books_start hnew admission) events).geometry.trans
      (Allocator.newWith_eq_ok hnew).2.1
  have htotal : s.allocator.pool.total = g.blocks := by rw [B.ledger.total, hgeometry]
  refine ⟨B.nodup, ?_, ?_, B.idle⟩
  · intro b hpos hlt
    have hrefs : s.allocator.pool.refsOf b = s.references b := B.ledger.balance b
    refine ⟨?_, ?_⟩
    · rw [← hrefs]
      exact Pool.refCount?_eq_some_refsOf (htotal ▸ hlt)
    · have hfree := B.ledger.pool.mem_free b
      rw [htotal, hrefs] at hfree
      split
      case isTrue hzero =>
        exact List.count_eq_one_of_mem B.ledger.pool.nodup (hfree.mpr ⟨hpos, hlt, hzero⟩)
      case isFalse hsome =>
        exact List.count_eq_zero_of_not_mem fun hmem => hsome (hfree.mp hmem).2.2
  · rintro b (⟨h, hb⟩ | hb | hb)
    · -- only streams of the batch have blocks
      have hrun : h ∈ s.running := by
        by_contra hout
        rw [B.idle h hout] at hb
        exact absurd hb List.not_mem_nil
      exact hgeometry ▸ B.usable (Or.inl (mem_heldBlocks.mpr ⟨h, hrun, hb⟩))
    · exact hgeometry ▸ B.usable (Or.inr hb)
    · have hin := B.ledger.pool.inRange b hb
      rw [htotal] at hin
      exact hin

/-- Two streams fill the pool of four usable blocks, and then each has a token more. -/
def crowdedRun : List Event :=
  [.register 1 { input := [1, 2, 3, 4] }, .register 2 { input := [5, 6, 7, 8] }, .enqueue 0,
    .enqueue 1, .schedule, .call 0 (.append 9), .call 1 (.append 9)]

/-- The next tick preempts the second stream and accounts for the blocks of the first. -/
theorem references_accounted_crowded :
    ∃ a, Allocator.newWith chainHash { blocks := 5, blockSize := 2 } = .ok a ∧
      let s := play (start {} a) (crowdedRun ++ [.schedule])
      s.running = [0] ∧ s.waiting = [1] ∧ s.blocksOf 0 = [1, 2, 3] ∧ s.blocksOf 1 = [] ∧
      ∀ b, 0 < b → b < 5 → s.allocator.pool.refCount? b = some (s.references b) := by
  have hrun : (Allocator.newWith chainHash { blocks := 5, blockSize := 2 }).toOption.map
      (fun a => let s := play (start {} a) (crowdedRun ++ [.schedule])
        (s.running, s.waiting, s.blocksOf 0)) = some ([0], [1], [1, 2, 3]) := by decide +kernel
  obtain ⟨a, hnew, hlists⟩ := exists_newWith hrun
  simp only [Prod.mk.injEq] at hlists
  obtain ⟨hrunning, hwaiting, hblocks⟩ := hlists
  obtain ⟨-, hrefs, -, hidle⟩ := references_accounted hnew {} (crowdedRun ++ [.schedule])
  refine ⟨a, hnew, hrunning, hwaiting, hblocks, hidle 1 (by rw [hrunning]; decide), ?_⟩
  exact fun b hpos hlt => (hrefs b hpos hlt).1

end Scheduler

end PagedServe
