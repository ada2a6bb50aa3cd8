/-
PagedServe/Proofs/Steps.lean

Everything that can happen to a scheduler, one change at a time.

`Step stage s s'` lists the changes: those from outside between ticks, and those
of the four passes of a tick.  Each constructor says when the change may happen
and what the state is afterwards; of the allocator it says what became of the
holders and of what is cached, and leaves open which blocks were chosen.

The passes are shown elsewhere to be runs of steps.  So a property of all runs
needs one case for each constructor here and nothing about the code of a pass.
The first such property is that the books are kept (`Step.books`).
-/
import PagedServe.Scheduler.Tick
import PagedServe.Proofs.Books
import Mathlib.Logic.Relation

namespace PagedServe

namespace Scheduler

open Allocator (Neutral Handed Committed Granted Short)

/-- Who changes the scheduler: its users between ticks, or one of the passes. -/
inductive Stage where
  | outside
  | sweep
  | growth
  | release
  | admission
deriving DecidableEq

/-- All that a scheduler does to its state, one change at a time, each with what is known when
it is made. -/
inductive Step : Stage → Scheduler → Scheduler → Prop
  /-- A stream enters the table. -/
  | register (s : Scheduler) (id : UInt64) (request : Request) :
    Step .outside s { s with streams := s.streams.push (Stream.new id request s.now) }
  /-- A waiting stream is appended to the queue. -/
  | enqueue {s : Scheduler} {h : Handle} (hsize : h < s.streams.size)
      (hphase : (s.stream h).phase = .waiting) :
    Step .outside s
      { s.setStream h ((s.stream h).markQueued s.now) with waiting := s.waiting ++ [h] }
  /-- A caller or an executor calls a stream. -/
  | call (s : Scheduler) (h : Handle) (c : Stream.Call) :
    Step .outside s (s.setStream h (stateAfter (Stream.call c) (s.stream h)))
  /-- The prefix cache is cleared. -/
  | clear {s : Scheduler} {a : Allocator} (ha : Neutral s.allocator s.heldBlocks a) :
    Step .outside s { s with allocator := a }
  | sleep (s : Scheduler) (ms : Nat) : Step .outside s { s with now := s.now + ms }
  /-- The timeout of a waiting stream is checked. -/
  | lapse {s : Scheduler} {h : Handle} (hwait : h ∈ s.waiting) :
    Step .sweep s (s.setStream h ((s.stream h).checkTimeout s.now))
  /-- Streams that ended leave the queue. -/
  | drop (s : Scheduler) : Step .sweep s { s with waiting := s.waiting.filter s.isLive }
  /-- The timeout of a running stream is checked. -/
  | expire {s : Scheduler} {h : Handle} (hrun : h ∈ s.running) :
    Step .growth s (s.setStream h ((s.stream h).checkTimeout s.now))
  /-- A running stream is given the blocks it is missing. -/
  | grow {s : Scheduler} {h : Handle} {ids : List Nat} {a : Allocator} (hrun : h ∈ s.running)
      (hlive : s.isLive h = true)
      (hmissing : (s.stream h).missingBlocks s.blockSize = .ok ids.length)
      (ha : Handed s.allocator s.heldBlocks ids a) :
    Step .growth s { s.setStream h ((s.stream h).grow ids) with allocator := a }
  /-- A running stream that has all its blocks publishes the full ones. -/
  | commit {s : Scheduler} {h : Handle} {a : Allocator} (hrun : h ∈ s.running)
      (hlive : s.isLive h = true) (hreuse : (s.stream h).reuse = true)
      (hmissing : (s.stream h).missingBlocks s.blockSize = .ok 0)
      (ha : Committed s.allocator s.heldBlocks (s.stream h).fullTokens
        ((s.blocksOf h).take (s.stream h).fullBlockCount) a) :
    Step .growth s
      { s.setStream h ((s.stream h).setCommitted (s.stream h).fullBlockCount) with allocator := a }
  /-- The newest of several live streams goes back to the head of the queue. -/
  | preempt {s : Scheduler} {h : Handle} {older : List Handle} {a : Allocator}
      (hnewest : s.running.filter s.isLive = older ++ [h]) (holder : older ≠ [])
      (ha : Neutral s.allocator (s.heldWithout h) a) :
    Step .growth s { s.setStream h (s.stream h).suspended with
      allocator := a, running := s.running.erase h, waiting := h :: s.waiting }
  /-- The only live stream cannot have the blocks it is missing and is stopped. -/
  | abandon {s : Scheduler} {h : Handle} {n : Nat} {a : Allocator}
      (honly : s.running.filter s.isLive = [h])
      (hmissing : (s.stream h).missingBlocks s.blockSize = .ok n)
      (hshort : s.allocator.availableCount < n) (ha : Neutral s.allocator (s.heldWithout h) a) :
    Step .growth s { s.setStream h ((s.stream h).stop .noMemory).emptied with
      allocator := a, running := s.running.erase h }
  /-- A stream that ended leaves the batch and gives its blocks up. -/
  | release {s : Scheduler} {h : Handle} {a : Allocator} (hrun : h ∈ s.running)
      (hended : s.isLive h = false)
      (ha : Committed s.allocator (s.heldWithout h) (s.stream h).fullTokens (s.blocksOf h) a) :
    Step .release s { s.setStream h (s.stream h).emptied with
      allocator := a, running := s.running.erase h }
  /-- The head of the queue is started with blocks for all of it. -/
  | enter {s : Scheduler} {h : Handle} {rest : List Handle} {grant : Grant} {a : Allocator}
      (hwait : s.waiting = h :: rest) (hphase : (s.stream h).phase = .waiting)
      (hcovers : blocksFor (max (s.stream h).tokens.length (s.stream h).seqLength) s.blockSize
        = .ok grant.ids.length)
      (ha : Granted s.allocator s.heldBlocks (s.stream h).tokens grant a) :
    Step .admission s { s.setStream h ((s.stream h).started grant s.blockSize) with
      allocator := a, running := s.running ++ [h], waiting := rest }
  /-- The head of the queue no longer waits and is passed over. -/
  | skip {s : Scheduler} {h : Handle} {rest : List Handle} {a : Allocator}
      (hwait : s.waiting = h :: rest) (hphase : (s.stream h).phase ≠ .waiting)
      (ha : Neutral s.allocator s.heldBlocks a) :
    Step .admission s { s with allocator := a, waiting := rest }
  /-- The head of the queue is given up, since its blocks cannot be waited for. -/
  | refuse {s : Scheduler} {h : Handle} {rest : List Handle} {n : Nat} {a : Allocator}
      (hwait : s.waiting = h :: rest) (hfallback : s.admission.fallback = true)
      (hneed : blocksFor (max (s.stream h).tokens.length (s.stream h).seqLength) s.blockSize
        = .ok n)
      (hshort : Short s.allocator s.heldBlocks n)
      (hhopeless : s.running = [] ∨ s.allocator.pool.usable < n)
      (ha : Neutral s.allocator s.heldBlocks a) :
    Step .admission s { s.setStream h ((s.stream h).stop .noMemory) with
      allocator := a, waiting := rest }
  /-- The head of the queue is left waiting. -/
  | wait {s : Scheduler} {a : Allocator} (ha : Neutral s.allocator s.heldBlocks a) :
    Step .admission s { s with allocator := a }

/-- Any number of steps of one stage. -/
abbrev Steps (p : Stage) : Scheduler → Scheduler → Prop := Relation.ReflTransGen (Step p)

/-- What every step keeps, every run of steps keeps. -/
theorem Steps.keeps {p : Stage} {s s' : Scheduler} {P : Scheduler → Prop}
    (hstep : ∀ {s s'}, Step p s s' → P s → P s') (h : Steps p s s') (hs : P s) : P s' := by
  induction h with
  | refl => exact hs
  | tail _ hlast ih => exact hstep hlast ih

/-- No stream joins the batch while it grows. -/
theorem Steps.running_subset {s s' : Scheduler} (hsteps : Steps .growth s s') :
    ∀ h ∈ s'.running, h ∈ s.running := by
  refine hsteps.keeps (P := fun t => ∀ h ∈ t.running, h ∈ s.running) ?_ fun _ hh => hh
  intro t t' hstep ht
  cases hstep with
  | expire => exact ht
  | grow => exact ht
  | commit => exact ht
  | preempt => exact fun h hh => ht h (List.mem_of_mem_erase hh)
  | abandon => exact fun h hh => ht h (List.mem_of_mem_erase hh)

/-- The sweep leaves the batch alone. -/
theorem Steps.running_eq {s s' : Scheduler} (hsteps : Steps .sweep s s') :
    s'.running = s.running := by
  refine hsteps.keeps (P := fun t => t.running = s.running) ?_ rfl
  intro t t' hstep ht
  cases hstep with
  | lapse | drop => exact ht

/-- Release takes streams off the batch and leaves the queue alone. -/
theorem Steps.of_release {s s' : Scheduler} (hsteps : Steps .release s s') :
    s'.running.Sublist s.running ∧ s'.waiting = s.waiting := by
  refine hsteps.keeps (P := fun t => t.running.Sublist s.running ∧ t.waiting = s.waiting) ?_
    ⟨.refl _, rfl⟩
  rintro t t' hstep ⟨hrun, hwait⟩
  cases hstep with
  | release => exact ⟨List.erase_sublist.trans hrun, hwait⟩

/-! ### Tokens -/

section Tokens

variable {s s' : Scheduler} {h : Handle}

theorem sameTokens_setStream {x : Stream} (hx : Stream.SameTokens (s.stream h) x) (k : Handle) :
    Stream.SameTokens (s.stream k) ((s.setStream h x).stream k) := by
  rw [stream_setStream]
  split
  case isTrue hk =>
    rw [hk.1]
    exact hx
  case isFalse => exact .refl _

/-- The passes neither generate tokens nor count them. -/
theorem Step.sameTokens {p : Stage} (hstep : Step p s s') (hp : p ≠ .outside) (k : Handle) :
    Stream.SameTokens (s.stream k) (s'.stream k) := by
  cases hstep with
  | register | enqueue | call | clear | sleep => exact absurd rfl hp
  | drop | skip | wait => exact .refl _
  | lapse | expire => exact sameTokens_setStream (Stream.sameTokens_checkTimeout _ _) k
  | refuse => exact sameTokens_setStream (Stream.sameTokens_stop _ _) k
  | grow => exact sameTokens_setStream (Stream.sameTokens_grow _ _) k
  | commit => exact sameTokens_setStream (Stream.sameTokens_setCommitted _ _) k
  | preempt => exact sameTokens_setStream (Stream.sameTokens_suspended _) k
  | abandon =>
    exact sameTokens_setStream
      ((Stream.sameTokens_stop _ _).trans (Stream.sameTokens_emptied _)) k
  | release => exact sameTokens_setStream (Stream.sameTokens_emptied _) k
  | enter => exact sameTokens_setStream (Stream.sameTokens_started _ _ _) k

/-- The passes do not enter streams into the table. -/
theorem Step.size_eq {p : Stage} (hstep : Step p s s') (hp : p ≠ .outside) :
    s'.streams.size = s.streams.size := by
  cases hstep with
  | register | enqueue | call | clear | sleep => exact absurd rfl hp
  | drop | skip | wait => rfl
  | lapse | expire | grow | commit | preempt | abandon | release | enter | refuse =>
    exact size_setStream s _ _

end Tokens

/-! ### The books are kept -/

section Books

variable {s : Scheduler} {h : Handle} {a : Allocator} {x : Stream}

theorem blocksOf_of_ne {running waiting : List Handle} {k : Handle} (hk : k ≠ h) :
    blocksOf { s.setStream h x with allocator := a, running := running, waiting := waiting } k
      = s.blocksOf k :=
  congrArg (fun x : Stream => x.table.ids) (stream_setStream_of_ne hk)

theorem isLive_of_ne {running waiting : List Handle} {k : Handle} (hk : k ≠ h) :
    isLive { s.setStream h x with allocator := a, running := running, waiting := waiting } k
      = s.isLive k :=
  congrArg (fun x : Stream => !x.isTerminal) (stream_setStream_of_ne hk)

theorem isLive_self {running waiting : List Handle} (hh : h < s.streams.size) :
    isLive { s.setStream h x with allocator := a, running := running, waiting := waiting } h
      = !x.isTerminal :=
  congrArg (fun x : Stream => !x.isTerminal) (stream_setStream_self hh)

theorem isLive_of_stopped {r : StopReason} (hstatus : (s.stream h).status = .stopped r) :
    s.isLive h = false := by
  rw [isLive, Stream.isTerminal, Stream.phase, hstatus]
  rfl

/-- The newest live stream is a live stream of the batch. -/
theorem live_of_newest {older : List Handle} (hnewest : s.running.filter s.isLive = older ++ [h]) :
    h ∈ s.running ∧ s.isLive h = true :=
  List.mem_filter.mp (hnewest ▸ List.mem_append_right _ (List.mem_singleton_self h))

theorem live_of_only (honly : s.running.filter s.isLive = [h]) :
    h ∈ s.running ∧ s.isLive h = true :=
  List.mem_filter.mp (honly ▸ List.mem_singleton_self h)

/-- A stream leaves the batch without blocks, and perhaps for the queue. -/
theorem Books.leave (B : s.Books) (hrun : h ∈ s.running) (hx : x.table.ids = [])
    (ha : a.Ledger (s.heldWithout h)) (hg : a.geometry = s.allocator.geometry)
    {waiting : List Handle} (hw : ∀ k ∈ waiting, k ∈ h :: s.waiting) :
    Books { s.setStream h x with
      allocator := a, running := s.running.erase h, waiting := waiting } := by
  have hh : h < s.streams.size := B.known h hrun
  have hsub : ∀ k ∈ s.running.erase h, k ≠ h ∧ k ∈ s.running := fun k hk =>
    B.nodup.mem_erase_iff.mp hk
  refine ⟨?_, B.nodup.erase h, ?_, ?_, ?_, ?_, ?_⟩
  · rw [heldBlocks_of_erase B.nodup rfl fun k hk => blocksOf_of_ne hk]
    exact ha
  · intro k hk
    show ((s.setStream h x).stream k).phase ≠ _
    rw [stream_setStream_of_ne (hsub k hk).1]
    exact B.started k (hsub k hk).2
  · intro k hk
    show ((s.setStream h x).stream k).table.blockSize = a.geometry.blockSize
    rw [stream_setStream_of_ne (hsub k hk).1, hg]
    exact B.tables k (hsub k hk).2
  · -- outside the batch stand the stream that left and those that were there before
    intro k hk
    by_cases hkh : k = h
    · subst hkh
      show ((s.setStream k x).stream k).table.ids = []
      rw [stream_setStream_self hh]
      exact hx
    · rw [blocksOf_of_ne hkh]
      exact B.idle k fun hmem => hk (B.nodup.mem_erase_iff.mpr ⟨hkh, hmem⟩)
  · intro k hk
    show k < (s.setStream h x).streams.size
    rw [size_setStream]
    exact B.known k (hsub k hk).2
  · intro k hk
    show k < (s.setStream h x).streams.size
    rw [size_setStream]
    rcases List.mem_cons.mp (hw k hk) with rfl | hk
    · exact hh
    · exact B.queued k hk

/-- A waiting stream joins the batch with its blocks. -/
theorem Books.join (B : s.Books) {rest : List Handle} (hwait : s.waiting = h :: rest)
    (hphase : (s.stream h).phase = .waiting) (hx : x.phase ≠ .waiting)
    (htable : x.table.blockSize = s.blockSize) (ha : a.Ledger (x.table.ids ++ s.heldBlocks))
    (hg : a.geometry = s.allocator.geometry) :
    Books { s.setStream h x with
      allocator := a, running := s.running ++ [h], waiting := rest } := by
  have hh : h < s.streams.size := B.queued h (hwait ▸ List.mem_cons_self)
  have hnot : h ∉ s.running := fun hrun => B.started h hrun hphase
  have hself : (s.setStream h x).stream h = x := stream_setStream_self hh
  have hne : ∀ k ∈ s.running, k ≠ h := fun k hk he => hnot (he ▸ hk)
  -- `h` is new to the batch, so the ledger gains its blocks and the others keep theirs
  refine ⟨?_, ?_, ?_, ?_, ?_, ?_, ?_⟩
  · rw [heldBlocks_of_append hnot rfl fun k hk => blocksOf_of_ne hk]
    apply ha.congr
    intro b
    show (s.heldBlocks ++ ((s.setStream h x).stream h).table.ids).count b = _
    rw [hself, List.count_append, List.count_append, Nat.add_comm]
  · exact List.nodup_append.mpr ⟨B.nodup, List.nodup_singleton h, fun k hk l hl =>
      List.mem_singleton.mp hl ▸ hne k hk⟩
  · intro k hk
    show ((s.setStream h x).stream k).phase ≠ _
    rcases List.mem_append.mp hk with hk | hk
    · rw [stream_setStream_of_ne (hne k hk)]
      exact B.started k hk
    · rw [List.mem_singleton.mp hk, hself]
      exact hx
  · intro k hk
    show ((s.setStream h x).stream k).table.blockSize = a.geometry.blockSize
    rw [hg]
    rcases List.mem_append.mp hk with hk | hk
    · rw [stream_setStream_of_ne (hne k hk)]
      exact B.tables k hk
    · rw [List.mem_singleton.mp hk, hself]
      exact htable
  · intro k hk
    have hkr : k ∉ s.running := fun hmem => hk (List.mem_append_left _ hmem)
    have hkh : k ≠ h := fun he => hk (List.mem_append_right _ (List.mem_singleton.mpr he))
    rw [blocksOf_of_ne hkh]
    exact B.idle k hkr
  · intro k hk
    show k < (s.setStream h x).streams.size
    rw [size_setStream]
    rcases List.mem_append.mp hk with hk | hk
    · exact B.known k hk
    · rw [List.mem_singleton.mp hk]
      exact hh
  · intro k hk
    show k < (s.setStream h x).streams.size
    rw [size_setStream]
    exact B.queued k (hwait ▸ List.mem_cons_of_mem h hk)

/-- A stream of the batch takes further blocks. -/
theorem Books.grow (B : s.Books) (hrun : h ∈ s.running) {ids : List Nat}
    (ha : a.Ledger (ids ++ s.heldBlocks)) (hg : a.geometry = s.allocator.geometry) :
    Books { s.setStream h ((s.stream h).grow ids) with allocator := a } := by
  have hself : (s.setStream h ((s.stream h).grow ids)).stream h = (s.stream h).grow ids :=
    stream_setStream_self (B.known h hrun)
  have hperm : (heldBlocks { s.setStream h ((s.stream h).grow ids) with allocator := a }).Perm
      (((s.setStream h ((s.stream h).grow ids)).stream h).table.ids ++ s.heldWithout h) :=
    heldBlocks_of_update B.nodup hrun rfl fun k hk => blocksOf_of_ne hk
  rw [hself, Stream.grow_ids] at hperm
  -- the ledger gains `ids` at the place of `h`; for the rest it counts only that `h` is there
  refine ⟨?_, B.nodup, ?_, ?_, ?_, ?_, ?_⟩
  · apply ha.congr
    intro b
    rw [hperm.count_eq, List.count_append, List.count_append, List.count_append,
      (heldBlocks_perm hrun).count_eq, List.count_append]
    show (s.blocksOf h).count b + _ + _ = _
    omega
  · intro k hk
    show ((s.setStream h _).stream k).phase ≠ _
    by_cases hkh : k = h
    · subst hkh
      rw [hself]
      exact B.started k hk
    · rw [stream_setStream_of_ne hkh]
      exact B.started k hk
  · intro k hk
    show ((s.setStream h _).stream k).table.blockSize = a.geometry.blockSize
    rw [hg]
    by_cases hkh : k = h
    · subst hkh
      rw [hself]
      exact B.tables k hk
    · rw [stream_setStream_of_ne hkh]
      exact B.tables k hk
  · intro k hk
    have hkh : k ≠ h := fun he => hk (he ▸ hrun)
    rw [blocksOf_of_ne hkh]
    exact B.idle k hk
  · intro k hk
    show k < (s.setStream h _).streams.size
    rw [size_setStream]
    exact B.known k hk
  · intro k hk
    show k < (s.setStream h _).streams.size
    rw [size_setStream]
    exact B.queued k hk

/-- Every step keeps the books. -/
theorem Step.books {p : Stage} {s s' : Scheduler} (hstep : Step p s s') (B : s.Books) :
    s'.Books := by
  cases hstep with
  | register _ id request =>
    -- the new stream has an empty table, like the blank one that its handle named before
    have htable : ∀ k, (stream { s with streams := s.streams.push (Stream.new id request s.now) }
        k).table = (s.stream k).table := by
      intro k
      by_cases hk : k = s.streams.size
      · rw [hk, stream_push_size, stream_of_le (Nat.le_refl _)]
        rfl
      · rw [stream_push hk]
    have hsize : s.streams.size ≤ (s.streams.push (Stream.new id request s.now)).size := by
      rw [Array.size_push]
      exact Nat.le_succ _
    refine B.frame rfl B.ledger rfl htable ?_ hsize fun k hk => ?_
    · intro k hk
      rw [stream_push (Nat.ne_of_lt (B.known k hk))]
      exact B.started k hk
    · exact Nat.lt_of_lt_of_le (B.queued k hk) hsize
  | enqueue hsize hphase =>
    refine B.touch (Stream.continues_markQueued _ _) B.ledger rfl fun k hk => ?_
    rcases List.mem_append.mp hk with hk | hk
    · exact B.queued k hk
    · rw [List.mem_singleton.mp hk]
      exact hsize
  | call _ h c => exact B.setStream (Stream.continues_call c _)
  | clear ha => exact B.setQueue ha.ledger ha.shape.geometry B.queued
  | sleep _ ms => exact B.frame rfl B.ledger rfl (fun _ => rfl) B.started (Nat.le_refl _) B.queued
  | lapse hwait => exact B.setStream (Stream.continues_checkTimeout _ _)
  | drop => exact B.setQueue B.ledger rfl fun k hk => B.queued k (List.mem_filter.mp hk).1
  | expire hrun => exact B.setStream (Stream.continues_checkTimeout _ _)
  | grow hrun hlive hmissing ha => exact B.grow hrun ha.ledger ha.shape.geometry
  | commit hrun hlive hreuse hmissing ha =>
    exact B.touch (Stream.continues_setCommitted _ _) ha.ledger ha.shape.geometry B.queued
  | preempt hnewest holder ha =>
    exact B.leave (live_of_newest hnewest).1 rfl ha.ledger ha.shape.geometry fun k hk => hk
  | abandon honly hmissing hshort ha =>
    exact B.leave (live_of_only honly).1 rfl ha.ledger ha.shape.geometry fun k hk =>
      List.mem_cons_of_mem _ hk
  | release hrun hended ha =>
    exact B.leave hrun rfl ha.ledger ha.shape.geometry fun k hk => List.mem_cons_of_mem _ hk
  | enter hwait hphase hcovers ha =>
    exact B.join hwait hphase (by simp) rfl ha.ledger ha.shape.geometry
  | skip hwait hphase ha =>
    exact B.setQueue ha.ledger ha.shape.geometry fun k hk =>
      B.queued k (hwait ▸ List.mem_cons_of_mem _ hk)
  | refuse hwait hfallback hneed hshort hhopeless ha =>
    exact B.touch (Stream.continues_stop _ _) ha.ledger ha.shape.geometry fun k hk =>
      B.queued k (hwait ▸ List.mem_cons_of_mem _ hk)
  | wait ha => exact B.setQueue ha.ledger ha.shape.geometry B.queued

/-- What steps of one stage keep while the books add up, a run of them keeps. -/
theorem Steps.keepsBooks {P : Scheduler → Prop} {p : Stage} {s' : Scheduler}
    (hsteps : Steps p s s') (hpass : ∀ {s s'}, Step p s s' → s.Books → P s → P s') (B : s.Books)
    (hs : P s) : s'.Books ∧ P s' :=
  hsteps.keeps (P := fun t => t.Books ∧ P t)
    (fun hstep ht => ⟨hstep.books ht.1, hpass hstep ht.1 ht.2⟩) ⟨B, hs⟩

end Books

end Scheduler

end PagedServe
