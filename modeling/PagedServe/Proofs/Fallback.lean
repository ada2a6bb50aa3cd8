/-
PagedServe/Proofs/Fallback.lean

Whom admission gives up, and when the queue cannot move.

Admission gives the head of the queue up if its blocks cannot be had and nobody
runs, without a look at the size of the pool.  But if nobody runs, nobody holds a
block beside the part of a grant that was got so far, and the cache has no block
twice.  So every usable block is in hand, free or evictable, and if they do not
suffice the pool is too small (`Short.usable_lt`).

Hence only streams that the pool is too small for are given up (`Steps.oversized`),
and a queue that no batch runs beside waits for such a stream.
-/
import PagedServe.Proofs.Shortage

namespace PagedServe

namespace Allocator

variable {a : Allocator} {held : List Nat}

/-- If nobody holds a block, only a pool that is too small is short of them. -/
theorem Short.usable_lt {n : Nat} (S : Short a [] n) (L : a.Ledger held)
    (hd : a.cache.blocks.Nodup) : a.pool.usable < n := by
  obtain ⟨ids, a', hn, hlt⟩ := S
  have hd' : a'.cache.blocks.Nodup := by
    rw [PrefixCache.blocks_eq_content] at hd ⊢
    exact (hn.content.map _).nodup hd
  have hinHand : ∀ b ∈ ids ++ [], b ∈ ids := fun b hb => by rwa [List.append_nil] at hb
  have hle := hn.ledger.usable_le hd' hinHand
  rw [hn.ledger.usable_eq, hn.shape.geometry, ← L.usable_eq] at hle
  omega

end Allocator

namespace Scheduler

variable {s s' : Scheduler} {h k : Handle}

/-- The pool is too small for all of a stream. -/
def Oversized (s : Scheduler) (h : Handle) : Prop :=
  ∃ need, blocksFor (max (s.stream h).tokens.length (s.stream h).seqLength) s.blockSize = .ok need ∧
    s.allocator.pool.usable < need

/-- The tokens and the shape of the memory decide. -/
theorem oversized_congr (B : s.Books) (B' : s'.Books)
    (hshape : Allocator.SameShape s.allocator s'.allocator)
    (hsame : Stream.SameTokens (s.stream h) (s'.stream h)) : s'.Oversized h ↔ s.Oversized h := by
  obtain ⟨hsize, husable⟩ := B.sameRoom B' hshape
  rw [Oversized, Oversized, hsame.tokens, hsame.seqLength, hsize, husable]

/-! ### Giving up -/

/-- Admission ends a stream only if the pool is too small for it. -/
theorem Step.oversized (hstep : Step .admission s s') (B : s.Books) (N : s.Named)
    (hlive : s.isLive h = true) (hended : s'.isLive h = false) : s.Oversized h := by
  have hother : s'.stream h = s.stream h → s.Oversized h := by
    intro hsame
    rw [isLive, hsame] at hended
    rw [isLive, hended] at hlive
    simp at hlive
  cases hstep with
  | @enter _ k rest grant a hwait hphase hcovers ha =>
    by_cases hk : h = k
    · -- the stream runs
      subst hk
      rw [isLive_self (B.queued h (hwait ▸ List.mem_cons_self))] at hended
      simp [Stream.isTerminal, Phase.isTerminal] at hended
    · exact hother (stream_setStream_of_ne hk)
  | skip => exact hother rfl
  | @refuse _ k rest n a hwait hfallback hneed hshort hhopeless ha =>
    by_cases hk : h = k
    · subst hk
      refine ⟨n, hneed, ?_⟩
      rcases hhopeless with hnone | hsmall
      · rw [heldBlocks, hnone] at hshort
        exact hshort.usable_lt B.ledger (N.nodup_blocks B)
      · exact hsmall
    · exact hother (stream_setStream_of_ne hk)
  | wait => exact hother rfl

theorem Steps.oversized (hsteps : Steps .admission s s') (B : s.Books) (N : s.Named)
    (hlive : s.isLive h = true) (hended : s'.isLive h = false) : s.Oversized h := by
  have hall := hsteps.keepsBooks
    (P := fun t => t.Named ∧ Allocator.SameShape s.allocator t.allocator ∧
      Stream.SameTokens (s.stream h) (t.stream h) ∧ (t.isLive h = false → s.Oversized h))
    (fun {t t'} hstep Bt ⟨Nt, hshape, hsame, ht⟩ => by
      refine ⟨hstep.named Bt Nt, hshape.trans hstep.sameShape,
        hsame.trans (hstep.sameTokens (by decide) h), fun hended' => ?_⟩
      rcases hl : t.isLive h with - | -
      · exact ht hl
      · exact (oversized_congr B Bt hshape hsame).mp (hstep.oversized Bt Nt hl hended'))
    B ⟨N, .refl _, .refl _, fun hdead => by rw [hlive] at hdead; simp at hdead⟩
  exact hall.2.2.2.2 hended

/-! ### A queue that does not move -/

/-- If nobody runs, the head of the queue is held up for good, and nothing is given up. -/
theorem HeldUp.oversized (H : HeldUp s h) (B : s.Books) (N : s.Named) (hnone : s.running = []) :
    s.Oversized h ∧ s.admission.fallback = false := by
  obtain ⟨n, hneed, hshort, hhope⟩ := H.short
  rw [heldBlocks, hnone] at hshort
  refine ⟨⟨n, hneed, hshort.usable_lt B.ledger (N.nodup_blocks B)⟩, ?_⟩
  rcases hfallback : s.admission.fallback with - | -
  · rfl
  · exact absurd hnone (hhope hfallback).1

/-- A tick that leaves nobody running leaves the queue empty or a head that the pool
is too small for, and gives nothing up. -/
theorem Tick.stuck {s₁ s₂ s₃ : Scheduler} (T : Tick s s₁ s₂ s₃ s') (B : s.Books) (N : s.Named)
    (hnone : s'.running = []) {rest : List Handle} (hwait : s'.waiting = h :: rest) :
    s'.Oversized h ∧ s'.admission.fallback = false := by
  rcases T.ended with hnil | ⟨t, k, a, hsteps, H, ha, rfl⟩
  · rw [hnil] at hwait
    simp at hwait
  · obtain ⟨B₃, N₃⟩ := T.keepsBefore (fun _ hstep B N => hstep.named B N) B N
    have Bt := hsteps.keeps Step.books B₃
    obtain ⟨hover, hfallback⟩ := H.oversized Bt (hsteps.named B₃ N₃) hnone
    obtain ⟨rest', hwait'⟩ := H.head
    obtain ⟨rfl, -⟩ := List.cons.inj (hwait'.symm.trans hwait)
    refine ⟨?_, hfallback⟩
    exact (oversized_congr Bt ((Step.wait ha).books Bt) ha.shape (.refl _)).mpr hover

/-! ### Runs -/

/-- No step changes the rules of admission. -/
theorem Step.admission_eq {p : Stage} (hstep : Step p s s') : s'.admission = s.admission := by
  cases hstep <;> rfl

/-- In every tick of every run, admission stops a stream for lack of memory only if it
needs more blocks than the pool has.  A tick that leaves nobody running and somebody
waiting has the fallback off, and the head of the queue needs more blocks than the
pool has. -/
theorem admission_stops_oversized {hash : ChainHash} {g : Geometry} {a : Allocator}
    (hnew : Allocator.newWith hash g = .ok a) (admission : Admission) (events : List Event) :
    ∃ s₁ s₂ s₃ s', sweepWaiting (play (start admission a) events) = .ok () s₁ ∧
      growRunning s₁ = .ok () s₂ ∧ releaseEnded s₂ = .ok () s₃ ∧ admitWaiting s₃ = .ok () s' ∧
      schedule (play (start admission a) events) = .ok s'.running s' ∧
      (∀ h, s₃.isLive h = true → (s'.stream h).status = .stopped .noMemory → s₃.Oversized h) ∧
      ∀ h rest, s'.running = [] → s'.waiting = h :: rest →
        admission.fallback = false ∧ s'.Oversized h := by
  obtain ⟨B, hadmission⟩ := play_keeps (P := fun t => t.admission = admission)
    (fun hstep _ ht => hstep.admission_eq.trans ht) (books_start hnew admission) rfl events
  have N := named_play hnew admission events
  generalize play (start admission a) events = s at B hadmission N
  obtain ⟨s₁, s₂, s₃, s', hok, T⟩ := schedule_tick B
  obtain ⟨hok₁, hok₂, hok₃, hok'⟩ := T.passes
  refine ⟨s₁, s₂, s₃, s', hok₁, hok₂, hok₃, hok', hok, fun h hlive hstatus => ?_,
    fun h rest hnone hwait => ?_⟩
  · -- admission alone stops for memory here: the stream was live before it
    obtain ⟨B₃, N₃⟩ := T.keepsBefore (fun _ hstep B N => hstep.named B N) B N
    exact T.admission.oversized B₃ N₃ hlive (isLive_of_stopped hstatus)
  · -- a tick after which nobody runs and somebody waits
    obtain ⟨hover, hfallback⟩ := T.stuck B N hnone hwait
    have hadmission' := (T.moves.keeps (P := fun t => t.admission = admission)
      (fun hstep _ ht => hstep.admission_eq.trans ht) B hadmission).2
    rw [hadmission'] at hfallback
    exact ⟨hfallback, hover⟩

/-- A stream needs three blocks. -/
def oversizedRun : List Event := [.register 1 { input := [1, 2, 3, 4, 5] }, .enqueue 0]

/-- With two usable blocks the fallback stops the stream, and without it the queue is stuck. -/
theorem admission_stops_oversized_alone :
    ∃ a, Allocator.newWith chainHash { blocks := 3, blockSize := 2 } = .ok a ∧
      (∃ s₃ s', admitWaiting s₃ = .ok () s' ∧
        schedule (play (start { fallback := true } a) oversizedRun) = .ok s'.running s' ∧
        (s'.stream 0).status = .stopped .noMemory ∧ s₃.Oversized 0) ∧
      ∃ s', schedule (play (start {} a) oversizedRun) = .ok [] s' ∧ s'.waiting = [0] ∧
        s'.Oversized 0 := by
  have hrun : (Allocator.newWith chainHash { blocks := 3, blockSize := 2 }).toOption.map
      (fun a =>
        let s := play (start { fallback := true } a) oversizedRun
        let s₃ := stateAfter releaseEnded (stateAfter growRunning (stateAfter sweepWaiting s))
        let s' := stateAfter schedule (play (start {} a) oversizedRun)
        (s₃.isLive 0, outOfMemory ((stateAfter schedule s).stream 0).status, s'.running,
          s'.waiting))
      = some (true, true, [], [0]) := by decide +kernel
  obtain ⟨a, hnew, hfacts⟩ := Allocator.exists_newWith hrun
  simp only [Prod.mk.injEq] at hfacts
  obtain ⟨hlive, hstatus, hrunning, hwaiting⟩ := hfacts
  refine ⟨a, hnew, ?_, ?_⟩
  · obtain ⟨s₁, s₂, s₃, s', hok₁, hok₂, hok₃, hok', hok, hstopped, -⟩ :=
      admission_stops_oversized hnew { fallback := true } oversizedRun
    rw [stateAfter_of_ok hok₁, stateAfter_of_ok hok₂, stateAfter_of_ok hok₃] at hlive
    rw [stateAfter_of_ok hok] at hstatus
    have hnoMemory := outOfMemory_eq_true hstatus
    exact ⟨s₃, s', hok', hok, hnoMemory, hstopped 0 hlive hnoMemory⟩
  · obtain ⟨s₁, s₂, s₃, s', -, -, -, -, hok, -, hstuck⟩ :=
      admission_stops_oversized hnew {} oversizedRun
    rw [stateAfter_of_ok hok] at hrunning hwaiting
    refine ⟨s', ?_, hwaiting, (hstuck 0 [] hrunning hwaiting).2⟩
    rw [hok, hrunning]

end Scheduler

end PagedServe
