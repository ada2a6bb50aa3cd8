/-
PagedServe/Proofs/Fifo.lean

First in, first out.

`Fifo accepted s` says that the live streams among the batch and the queue, the
batch first, are the live streams among those that were accepted, in the order in
which they were accepted.  Streams that ended may still stand anywhere in the
two lists; they are told apart by their phase alone.

Most changes only end streams or take ended ones away (`Fifo.shrink`).  The two
others move a live stream across the border between batch and queue, where it
stands already: the newest live stream of the batch becomes the head of the
queue, and the head of the queue the last of the batch.

After a tick both lists are live throughout (`Tick.live_all`), but for streams that stood
twice before it (`Tick.live_once`).

Main statement: so, if nobody is accepted twice, together they are the accepted streams that
have not ended, in their order (`schedule_fifo`).
-/
import PagedServe.Proofs.Runs

namespace PagedServe

namespace Scheduler

variable {s s' : Scheduler} {h k : Handle} {accepted : List Handle}

/-! ### Phases -/

/-- The stream is where it was, or it has ended. -/
def Ends (x y : Stream) : Prop := y.phase = x.phase ∨ y.isTerminal = true

theorem ends_of_continues {x y : Stream} (hxy : Stream.Continues x y) : Ends x y :=
  hxy.phase.imp_right And.right

theorem ends_setStream {x : Stream} (hx : Ends (s.stream h) x) (k : Handle) :
    Ends (s.stream k) ((s.setStream h x).stream k) := by
  rw [stream_setStream]
  split
  case isTrue hk =>
    rw [hk.1]
    exact hx
  case isFalse => exact Or.inl rfl

theorem isLive_of_ends (hends : Ends (s.stream k) (s'.stream k)) (hlive : s'.isLive k = true) :
    s.isLive k = true := by
  have hlive' := isLive_iff.mp hlive
  rcases hends with heq | hend
  · rw [isLive, Stream.isTerminal, ← heq]
    exact hlive
  · rw [hlive'] at hend
    simp at hend

theorem phase_of_ends (hends : Ends (s.stream k) (s'.stream k)) {p : Phase}
    (hp : p.isTerminal = false) (hk : (s.stream k).phase ≠ p) : (s'.stream k).phase ≠ p := by
  intro heq
  rcases hends with hsame | hend
  · exact hk (hsame.symm.trans heq)
  · rw [Stream.isTerminal_of_phase heq, hp] at hend
    simp at hend

/-- A handle outside the table reads as a new stream already. -/
theorem phase_registered (s : Scheduler) (id : UInt64) (request : Request) (k : Handle) :
    (stream { s with streams := s.streams.push (Stream.new id request s.now) } k).phase
      = (s.stream k).phase := by
  by_cases hk : k = s.streams.size
  · rw [hk, stream_push_size, stream_of_le (Nat.le_refl _)]
    rfl
  · rw [stream_push hk]

/-- The passes bring no stream back that ended. -/
theorem Step.isLive_of {p : Stage} (hstep : Step p s s') (hp : p ≠ .outside)
    (hlive : s'.isLive k = true) : s.isLive k = true := by
  cases hstep with
  | register | enqueue | call | clear | sleep => exact absurd rfl hp
  | drop | skip | wait => exact hlive
  | lapse | expire =>
    exact isLive_of_ends (ends_setStream (ends_of_continues (Stream.continues_checkTimeout _ _)) k)
      hlive
  | refuse =>
    exact isLive_of_ends (ends_setStream (ends_of_continues (Stream.continues_stop _ _)) k) hlive
  | @grow _ h ids =>
    have hends : Ends (s.stream h) ((s.stream h).grow ids) := Or.inl rfl
    exact isLive_of_ends (ends_setStream hends k) hlive
  | @commit _ h =>
    have hends : Ends (s.stream h) ((s.stream h).setCommitted (s.stream h).fullBlockCount) :=
      Or.inl rfl
    exact isLive_of_ends (ends_setStream hends k) hlive
  | @release _ h =>
    have hends : Ends (s.stream h) (s.stream h).emptied := Or.inl rfl
    exact isLive_of_ends (ends_setStream hends k) hlive
  | @abandon _ h =>
    -- it has ended after the step
    have hends : Ends (s.stream h) ((s.stream h).stop .noMemory).emptied :=
      Or.inr (Stream.stop_isTerminal _ _)
    exact isLive_of_ends (ends_setStream hends k) hlive
  | @preempt _ h older a hnewest holder ha =>
    by_cases hk : k = h
    · exact hk ▸ (live_of_newest hnewest).2
    · exact (isLive_of_ne hk).symm.trans hlive
  | @enter _ h rest grant a hwait hphase hcovers ha =>
    -- it waited, so it was live
    by_cases hk : k = h
    · rw [hk, isLive, Stream.isTerminal_of_phase hphase]
      rfl
    · exact (isLive_of_ne hk).symm.trans hlive

theorem Steps.isLive_of {p : Stage} (hsteps : Steps p s s') (hp : p ≠ .outside)
    (hlive : s'.isLive k = true) : s.isLive k = true :=
  hsteps.keeps (P := fun t => t.isLive k = true → s.isLive k = true)
    (fun hstep ht hlive => ht (hstep.isLive_of hp hlive)) id hlive

theorem Tick.isLive_of {s₁ s₂ s₃ : Scheduler} (T : Tick s s₁ s₂ s₃ s') (B : s.Books)
    (hlive : s'.isLive k = true) : s.isLive k = true :=
  (T.keeps (P := fun t => t.isLive k = true → s.isLive k = true)
    (fun hp hstep _ ht hlive => ht (hstep.isLive_of hp hlive)) B fun hlive => hlive).2 hlive

/-! ### The order of the live streams -/

theorem filter_erase {l : List Handle} (hd : l.Nodup) (p : Handle → Bool) (h : Handle) :
    (l.erase h).filter p = (l.filter p).erase h := by
  rw [(hd.filter p).erase_eq_filter, hd.erase_eq_filter, List.filter_filter, List.filter_filter]
  exact List.filter_congr fun k _ => Bool.and_comm _ _

theorem newest_not_mem {older : List Handle} (hd : s.running.Nodup)
    (hnewest : s.running.filter s.isLive = older ++ [h]) : h ∉ older := by
  have hd' := hd.filter s.isLive
  rw [hnewest] at hd'
  exact fun hmem => (List.nodup_append.mp hd').2.2 h hmem h (List.mem_singleton_self h) rfl

/-- The newest live stream is the last one. -/
theorem erase_newest {older : List Handle} (hd : s.running.Nodup)
    (hnewest : s.running.filter s.isLive = older ++ [h]) :
    (s.running.filter s.isLive).erase h = older := by
  rw [hnewest, List.erase_append_right _ (newest_not_mem hd hnewest), List.erase_cons_head,
    List.append_nil]

/-- First in, first out: batch and queue together hold the live streams that were accepted, in
the order of acceptance.  Each stands there once, and none of the queue is running. -/
structure Fifo (accepted : List Handle) (s : Scheduler) : Prop where
  order : (s.running ++ s.waiting).filter s.isLive = accepted.filter s.isLive
  nodup : (s.running ++ s.waiting).Nodup
  known : ∀ h ∈ s.running ++ s.waiting, h ∈ accepted
  queued : ∀ h ∈ s.waiting, (s.stream h).phase ≠ .running

/-- A stream that stands once among batch and queue stands in one of them only. -/
theorem ne_of_once (hone : (s.running ++ s.waiting).count k ≤ 1) (hh : h ∈ s.running)
    (hk : k ∈ s.waiting) : k ≠ h := by
  rintro rfl
  rw [List.count_append] at hone
  have hbatch := List.count_pos_iff.mpr hh
  have hqueue := List.count_pos_iff.mpr hk
  omega

/-- At the head of the queue it does not stand behind the head. -/
theorem ne_head_of_once (hone : (s.running ++ s.waiting).count k ≤ 1) {rest : List Handle}
    (hhead : s.waiting = h :: rest) (hk : k ∈ rest) : k ≠ h := by
  rintro rfl
  rw [List.count_append, hhead, List.count_cons_self] at hone
  have hrest := List.count_pos_iff.mpr hk
  omega

theorem Fifo.once (F : Fifo accepted s) (k : Handle) : (s.running ++ s.waiting).count k ≤ 1 :=
  List.nodup_iff_count_le_one.mp F.nodup k

/-- What is live later on was so before. -/
theorem filter_live_later (hends : ∀ k, Ends (s.stream k) (s'.stream k)) (l : List Handle) :
    (l.filter s.isLive).filter s'.isLive = l.filter s'.isLive := by
  rw [List.filter_filter]
  apply List.filter_congr
  intro k _
  rcases hl : s'.isLive k with - | -
  · rfl
  · rw [isLive_of_ends (hends k) hl]
    rfl

/-- Streams end, and ended ones leave the lists. -/
theorem Fifo.shrink (F : Fifo accepted s) (hends : ∀ k, Ends (s.stream k) (s'.stream k))
    (hsub : (s'.running ++ s'.waiting).Sublist (s.running ++ s.waiting))
    (hwait : ∀ k ∈ s'.waiting, k ∈ s.waiting)
    (hlost : (s'.running ++ s'.waiting).filter s'.isLive
      = (s.running ++ s.waiting).filter s'.isLive) : Fifo accepted s' where
  order := by
    rw [hlost, ← filter_live_later hends, F.order, filter_live_later hends]
  nodup := hsub.nodup F.nodup
  known := fun k hk => F.known k (hsub.subset hk)
  queued := fun k hk => phase_of_ends (hends k) rfl (F.queued k (hwait k hk))

/-- Nothing but streams that end. -/
theorem Fifo.stay (F : Fifo accepted s) (hends : ∀ k, Ends (s.stream k) (s'.stream k))
    (hrun : s'.running = s.running) (hwait : s'.waiting = s.waiting) : Fifo accepted s' := by
  refine F.shrink hends ?_ (fun k hk => hwait ▸ hk) ?_
  · rw [hrun, hwait]
  · rw [hrun, hwait]

/-- A stream that ended leaves the batch. -/
theorem Fifo.leave (F : Fifo accepted s) (hends : ∀ k, Ends (s.stream k) (s'.stream k))
    (hrun : s'.running = s.running.erase h) (hwait : s'.waiting = s.waiting)
    (hh : s'.isLive h = false) : Fifo accepted s' := by
  have hd : s.running.Nodup := (List.nodup_append.mp F.nodup).1
  refine F.shrink hends ?_ (fun k hk => hwait ▸ hk) ?_
  · rw [hrun, hwait]
    exact List.Sublist.append List.erase_sublist (List.Sublist.refl _)
  · have hnot : h ∉ s.running.filter s'.isLive := by
      intro hmem
      rw [(List.mem_filter.mp hmem).2] at hh
      simp at hh
    rw [hrun, hwait, List.filter_append, List.filter_append, filter_erase hd,
      List.erase_of_not_mem hnot]

/-- A stream that ended, or never waited, leaves the head of the queue. -/
theorem Fifo.pass (F : Fifo accepted s) (hends : ∀ k, Ends (s.stream k) (s'.stream k))
    {rest : List Handle} (hhead : s.waiting = h :: rest) (hrun : s'.running = s.running)
    (hwait : s'.waiting = rest) (hh : s'.isLive h = false) : Fifo accepted s' := by
  refine F.shrink hends ?_ (fun k hk => hhead ▸ List.mem_cons_of_mem h (hwait ▸ hk)) ?_
  · rw [hrun, hwait, hhead]
    exact List.Sublist.append (List.Sublist.refl _) (List.sublist_cons_self h rest)
  · rw [hrun, hwait, hhead, List.filter_append, List.filter_append, List.filter_cons_of_neg]
    rw [hh]
    decide

/-- A live stream crosses the border between batch and queue. -/
theorem Fifo.cross (F : Fifo accepted s) (hlive : ∀ k, s'.isLive k = s.isLive k)
    (hperm : (s'.running ++ s'.waiting).Perm (s.running ++ s.waiting))
    (horder : (s'.running ++ s'.waiting).filter s.isLive
      = (s.running ++ s.waiting).filter s.isLive)
    (hqueued : ∀ k ∈ s'.waiting, (s'.stream k).phase ≠ .running) : Fifo accepted s' where
  order := by
    rw [show s'.isLive = s.isLive from funext hlive, horder, F.order]
  nodup := hperm.nodup_iff.mpr F.nodup
  known := fun k hk => F.known k (hperm.mem_iff.mp hk)
  queued := hqueued

/-- A stream that is live and put back live. -/
theorem isLive_setStream {x : Stream} {a : Allocator} {running waiting : List Handle}
    (hx : (!x.isTerminal) = s.isLive h) (hh : h < s.streams.size) (k : Handle) :
    isLive { s.setStream h x with allocator := a, running := running, waiting := waiting } k
      = s.isLive k := by
  by_cases hk : k = h
  · subst hk
    exact (isLive_self hh).trans hx
  · exact isLive_of_ne hk

/-- The passes keep the order. -/
theorem Step.fifo {p : Stage} (hstep : Step p s s') (hp : p ≠ .outside) (B : s.Books)
    (F : Fifo accepted s) : Fifo accepted s' := by
  cases hstep with
  | register | enqueue | call | clear | sleep => exact absurd rfl hp
  | lapse hwait =>
    exact F.stay (ends_setStream (ends_of_continues (Stream.continues_checkTimeout _ _))) rfl rfl
  | drop =>
    refine F.shrink (fun _ => Or.inl rfl) ?_ (fun k hk => (List.mem_filter.mp hk).1) ?_
    · exact List.Sublist.append (List.Sublist.refl _) List.filter_sublist
    · show (s.running ++ s.waiting.filter s.isLive).filter s.isLive
        = (s.running ++ s.waiting).filter s.isLive
      rw [List.filter_append, List.filter_append, List.filter_filter]
      simp only [Bool.and_self]
  | expire hrun =>
    exact F.stay (ends_setStream (ends_of_continues (Stream.continues_checkTimeout _ _))) rfl rfl
  | grow => exact F.stay (ends_setStream (Or.inl rfl)) rfl rfl
  | commit => exact F.stay (ends_setStream (Or.inl rfl)) rfl rfl
  | @preempt _ h older a hnewest holder ha =>
    -- behind the newest live stream of the batch the queue begins
    obtain ⟨hrun, hlive⟩ := live_of_newest hnewest
    refine F.cross (isLive_setStream hlive.symm (B.known h hrun)) ?_ ?_ ?_
    · show (s.running.erase h ++ h :: s.waiting).Perm (s.running ++ s.waiting)
      refine List.perm_middle.trans ?_
      exact (List.perm_cons_erase hrun).symm.append_right s.waiting
    · show (s.running.erase h ++ h :: s.waiting).filter s.isLive = _
      rw [List.filter_append, filter_erase B.nodup, erase_newest B.nodup hnewest,
        List.filter_cons_of_pos hlive, List.filter_append, hnewest, List.append_assoc,
        List.singleton_append]
    · intro k hk
      show ((s.setStream h (s.stream h).suspended).stream k).phase ≠ _
      by_cases hkh : k = h
      · subst hkh
        rw [stream_setStream_self (B.known k hrun)]
        simp
      · rw [stream_setStream_of_ne hkh]
        exact F.queued k ((List.mem_cons.mp hk).resolve_left hkh)
  | @abandon _ h n a honly hmissing hshort ha =>
    have hends : Ends (s.stream h) ((s.stream h).stop .noMemory).emptied :=
      Or.inr (Stream.stop_isTerminal _ _)
    refine F.leave (ends_setStream hends) rfl rfl ?_
    rw [isLive_self (B.known h (live_of_only honly).1)]
    exact congrArg not (Stream.stop_isTerminal _ _)
  | @release _ h a hrun hended ha =>
    exact F.leave (ends_setStream (Or.inl rfl)) rfl rfl
      ((isLive_self (B.known h hrun)).trans hended)
  | @enter _ h rest grant a hwait hphase hcovers ha =>
    have hh : h < s.streams.size := B.queued h (hwait ▸ List.mem_cons_self)
    have hlive : s.isLive h = true := by rw [isLive, Stream.isTerminal_of_phase hphase]; rfl
    -- the head of the queue stands where the batch ends
    have hsame : (s.running ++ [h]) ++ rest = s.running ++ s.waiting := by
      rw [hwait, List.append_assoc, List.singleton_append]
    refine F.cross (isLive_setStream hlive.symm hh) (List.Perm.of_eq hsame)
      (congrArg (List.filter s.isLive) hsame) fun k hk => ?_
    show ((s.setStream h _).stream k).phase ≠ _
    rw [stream_setStream_of_ne (ne_head_of_once (F.once k) hwait hk)]
    exact F.queued k (hwait ▸ List.mem_cons_of_mem h hk)
  | @skip _ h rest a hwait hphase ha =>
    refine F.pass (fun _ => Or.inl rfl) hwait rfl rfl ?_
    -- what neither waits nor runs has ended
    rcases hl : s.isLive h with - | -
    · exact hl
    · have hrun := Stream.phase_of_live (isLive_iff.mp hl) hphase
      exact absurd hrun (F.queued h (hwait ▸ List.mem_cons_self))
  | @refuse _ h rest n a hwait hfallback hneed hshort hhopeless ha =>
    have hends : Ends (s.stream h) ((s.stream h).stop .noMemory) :=
      Or.inr (Stream.stop_isTerminal _ _)
    refine F.pass (ends_setStream hends) hwait rfl rfl ?_
    rw [isLive_self (B.queued h (hwait ▸ List.mem_cons_self))]
    exact congrArg not (Stream.stop_isTerminal _ _)
  | wait => exact F.stay (fun _ => Or.inl rfl) rfl rfl

/-! ### Runs -/

theorem Tick.fifo {s₁ s₂ s₃ : Scheduler} (T : Tick s s₁ s₂ s₃ s') (B : s.Books)
    (F : Fifo accepted s) : Fifo accepted s' :=
  (T.keeps (fun hp hstep B F => hstep.fifo hp B F) B F).2

/-- The handle that an event puts into the queue, if it does. -/
def acceptedBy (s : Scheduler) : Event → List Handle
  | .enqueue h => match enqueue h s with
    | .ok _ _ => [h]
    | .error _ _ => []
  | _ => []

/-- The handles that were put into the queue, in order. -/
def acceptedIn (s : Scheduler) : List Event → List Handle
  | [] => []
  | e :: events => s.acceptedBy e ++ acceptedIn (perform e s) events

theorem fifo_start (admission : Admission) (a : Allocator) : Fifo [] (start admission a) where
  order := rfl
  nodup := List.nodup_nil
  known := fun _ hh => hh
  queued := fun _ hh => absurd hh List.not_mem_nil

/-- An accepted stream is the last of the queue. -/
theorem Fifo.enqueue (F : Fifo accepted s) (hsize : h < s.streams.size)
    (hphase : (s.stream h).phase = .waiting) (hnew : h ∉ accepted) :
    Fifo (accepted ++ [h])
      { s.setStream h ((s.stream h).markQueued s.now) with waiting := s.waiting ++ [h] } := by
  have hlive : ∀ k, isLive { s.setStream h ((s.stream h).markQueued s.now) with
      waiting := s.waiting ++ [h] } k = s.isLive k := isLive_setStream rfl hsize
  have hlist : ∀ k, k ∈ s.running ++ (s.waiting ++ [h]) ↔ k ∈ s.running ++ s.waiting ∨ k = h := by
    intro k
    rw [← List.append_assoc, List.mem_append, List.mem_singleton]
  -- it stands last in the queue, and last among the accepted ones
  refine ⟨?_, ?_, ?_, ?_⟩
  · rw [show isLive _ = s.isLive from funext hlive]
    show (s.running ++ (s.waiting ++ [h])).filter s.isLive = _
    rw [← List.append_assoc, List.filter_append, F.order, ← List.filter_append]
  · show (s.running ++ (s.waiting ++ [h])).Nodup
    rw [← List.append_assoc]
    refine List.nodup_append.mpr ⟨F.nodup, List.nodup_singleton h, ?_⟩
    rintro k hk l hl rfl
    exact hnew (List.mem_singleton.mp hl ▸ F.known k hk)
  · intro k hk
    rcases (hlist k).mp hk with hk | rfl
    · exact List.mem_append_left _ (F.known k hk)
    · exact List.mem_append_right _ (List.mem_singleton_self k)
  · intro k hk
    have hends := ends_setStream (s := s) (h := h)
      (x := (s.stream h).markQueued s.now) (Or.inl rfl) k
    show ((s.setStream h _).stream k).phase ≠ .running
    refine phase_of_ends hends rfl ?_
    rcases List.mem_append.mp hk with hk | hk
    · exact F.queued k hk
    · rw [List.mem_singleton.mp hk, hphase]
      decide

/-- An event keeps the order, and what it accepts comes last. -/
theorem fifo_perform (B : s.Books) (F : Fifo accepted s) (e : Event)
    (hd : (accepted ++ s.acceptedBy e).Nodup) :
    Fifo (accepted ++ s.acceptedBy e) (perform e s) := by
  cases e with
  | enqueue h =>
    rcases enqueue_spec s h with ⟨hok, hsize, hphase⟩ | ⟨e, herr⟩
    · -- accepted
      have haccept : s.acceptedBy (.enqueue h) = [h] := by rw [acceptedBy, hok]
      rw [haccept] at hd ⊢
      show Fifo _ (stateAfter (Scheduler.enqueue h) s)
      rw [stateAfter_of_ok hok]
      apply F.enqueue hsize hphase
      intro hmem
      exact (List.nodup_append.mp hd).2.2 h hmem h (List.mem_singleton_self h) rfl
    · -- refused: nothing has happened
      have haccept : s.acceptedBy (.enqueue h) = [] := by rw [acceptedBy, herr]
      rw [haccept, List.append_nil]
      show Fifo _ (stateAfter (Scheduler.enqueue h) s)
      rw [stateAfter_of_error herr]
      exact F
  | schedule =>
    obtain ⟨s₁, s₂, s₃, s', hok, T⟩ := schedule_tick B
    rw [show s.acceptedBy .schedule = [] from rfl, List.append_nil]
    show Fifo _ (stateAfter schedule s)
    rw [stateAfter_of_ok hok]
    exact T.fifo B F
  | register id request =>
    rw [show s.acceptedBy (.register id request) = [] from rfl, List.append_nil]
    exact F.stay (fun k => Or.inl (phase_registered s id request k)) rfl rfl
  | clearCache order =>
    obtain ⟨a, hstate, -⟩ := perform_clearCache B order
    rw [show s.acceptedBy (.clearCache order) = [] from rfl, List.append_nil, hstate]
    exact F.stay (fun _ => Or.inl rfl) rfl rfl
  | call h c =>
    rw [show s.acceptedBy (.call h c) = [] from rfl, List.append_nil, perform_call]
    exact F.stay (ends_setStream (ends_of_continues (Stream.continues_call c _))) rfl rfl
  | sleep ms =>
    rw [show s.acceptedBy (.sleep ms) = [] from rfl, List.append_nil]
    exact F.stay (fun _ => Or.inl rfl) rfl rfl

theorem fifo_play (B : s.Books) (F : Fifo accepted s) (events : List Event)
    (hd : (accepted ++ s.acceptedIn events).Nodup) :
    Fifo (accepted ++ s.acceptedIn events) (play s events) := by
  induction events generalizing s accepted with
  | nil =>
    rw [acceptedIn, List.append_nil]
    exact F
  | cons e events ih =>
    rw [acceptedIn, ← List.append_assoc] at hd ⊢
    have hd' : (accepted ++ s.acceptedBy e).Nodup := (List.nodup_append.mp hd).1
    have B' := (perform_moves B e).books B
    exact ih B' (fifo_perform B F e hd') hd

/-! ### Whole ticks -/

/-- The passes take streams out of the lists and move them between the two. -/
theorem Step.subperm {p : Stage} (hstep : Step p s s') (hp : p ≠ .outside) :
    (s'.running ++ s'.waiting).Subperm (s.running ++ s.waiting) := by
  cases hstep with
  | register | enqueue | call | clear | sleep => exact absurd rfl hp
  | lapse | expire | grow | commit | wait => exact .refl _
  | drop => exact (List.filter_sublist.append_left s.running).subperm
  | @preempt _ h older a hnewest =>
    -- from the batch to the head of the queue
    refine List.Perm.subperm ?_
    show (s.running.erase h ++ h :: s.waiting).Perm (s.running ++ s.waiting)
    refine List.perm_middle.trans ?_
    exact (List.perm_cons_erase (live_of_newest hnewest).1).symm.append_right s.waiting
  | abandon | release => exact (List.erase_sublist.append_right s.waiting).subperm
  | @enter _ h rest grant a hwait =>
    -- from the head of the queue to the end of the batch
    refine List.Perm.subperm (List.Perm.of_eq ?_)
    show (s.running ++ [h]) ++ rest = s.running ++ s.waiting
    rw [hwait, List.append_assoc, List.singleton_append]
  | @skip _ h rest a hwait | @refuse _ h rest n a hwait =>
    rw [hwait]
    exact ((List.sublist_cons_self h rest).append_left s.running).subperm

/-- After the sweep nothing ends in the queue unless it leaves it, or stands twice. -/
theorem Step.waiting_live {p : Stage} (hstep : Step p s s') (hp : p ≠ .outside) (hq : p ≠ .sweep)
    (B : s.Books) (hone : (s.running ++ s.waiting).count k ≤ 1)
    (hw : k ∈ s.waiting → s.isLive k = true) : k ∈ s'.waiting → s'.isLive k = true := by
  -- steps on a stream of the batch do not touch one that waits, as it stands once
  intro hk
  cases hstep with
  | register | enqueue | call | clear | sleep => exact absurd rfl hp
  | lapse | drop => exact absurd rfl hq
  | expire hrun => exact (isLive_of_ne (ne_of_once hone hrun hk)).trans (hw hk)
  | grow hrun => exact (isLive_of_ne (ne_of_once hone hrun hk)).trans (hw hk)
  | commit hrun => exact (isLive_of_ne (ne_of_once hone hrun hk)).trans (hw hk)
  | @preempt _ h older a hnewest holder ha =>
    -- the one that joins the queue is live
    obtain ⟨hrun, hlive⟩ := live_of_newest hnewest
    refine (isLive_setStream (x := (s.stream h).suspended) hlive.symm (B.known h hrun) k).trans ?_
    rcases List.mem_cons.mp hk with rfl | hk
    · exact hlive
    · exact hw hk
  | abandon honly hmissing hshort ha =>
    exact (isLive_of_ne (ne_of_once hone (live_of_only honly).1 hk)).trans (hw hk)
  | release hrun => exact (isLive_of_ne (ne_of_once hone hrun hk)).trans (hw hk)
  | enter hwait =>
    exact (isLive_of_ne (ne_head_of_once hone hwait hk)).trans
      (hw (hwait ▸ List.mem_cons_of_mem _ hk))
  | skip hwait => exact hw (hwait ▸ List.mem_cons_of_mem _ hk)
  | refuse hwait =>
    exact (isLive_of_ne (ne_head_of_once hone hwait hk)).trans
      (hw (hwait ▸ List.mem_cons_of_mem _ hk))
  | wait => exact hw hk

/-- Admission ends nothing in the batch that stands once. -/
theorem Step.running_live (hstep : Step .admission s s') (B : s.Books)
    (hone : (s.running ++ s.waiting).count k ≤ 1) (hr : k ∈ s.running → s.isLive k = true) :
    k ∈ s'.running → s'.isLive k = true := by
  intro hk
  cases hstep with
  | @enter _ h rest grant a hwait hphase hcovers ha =>
    -- the one that joins the batch waited
    have hlive : s.isLive h = true := by rw [isLive, Stream.isTerminal_of_phase hphase]; rfl
    refine (isLive_setStream (x := (s.stream h).started grant s.blockSize) hlive.symm
      (B.queued h (hwait ▸ List.mem_cons_self)) k).trans ?_
    rcases List.mem_append.mp hk with hk | hk
    · exact hr hk
    · rw [List.mem_singleton.mp hk]
      exact hlive
  | skip => exact hr hk
  | @refuse _ h rest n a hwait =>
    -- the one that is stopped is the head of the queue, and not of the batch as well
    have hne : k ≠ h := by
      rintro rfl
      exact ne_of_once hone hk (hwait ▸ List.mem_cons_self) rfl
    exact (isLive_of_ne hne).trans (hr hk)
  | wait => exact hr hk

/-- A stream that stands once before a tick has not ended where it stands after it. -/
theorem Tick.live_once {s₁ s₂ s₃ : Scheduler} (T : Tick s s₁ s₂ s₃ s') (B : s.Books)
    (hone : (s.running ++ s.waiting).count k ≤ 1) (hk : k ∈ s'.running ++ s'.waiting) :
    s'.isLive k = true := by
  let Once : Scheduler → Prop := fun t => (t.running ++ t.waiting).count k ≤ 1
  have honce : ∀ {p : Stage} {t t' : Scheduler}, p ≠ .outside → Step p t t' → Once t → Once t' :=
    fun hp hstep ht => Nat.le_trans ((hstep.subperm hp).count_le k) ht
  have hkeep : ∀ {p : Stage} {t t' : Scheduler}, Steps p t t' → p ≠ .outside → p ≠ .sweep →
      t.Books → Once t ∧ (k ∈ t.waiting → t.isLive k = true) →
      t'.Books ∧ Once t' ∧ (k ∈ t'.waiting → t'.isLive k = true) :=
    fun hsteps hp hq => hsteps.keepsBooks
      (P := fun t => Once t ∧ (k ∈ t.waiting → t.isLive k = true))
      fun hstep B ⟨ht, hw⟩ => ⟨honce hp hstep ht, hstep.waiting_live hp hq B ht hw⟩
  -- the sweep leaves a live queue and the release a live batch, and both stay so
  obtain ⟨B₁, h₁⟩ := T.sweep.keepsBooks (fun hstep _ => honce (by decide) hstep) B hone
  obtain ⟨B₂, h₂⟩ := hkeep T.growth (by decide) (by decide) B₁ ⟨h₁, T.queued k⟩
  obtain ⟨B₃, h₃⟩ := hkeep T.release (by decide) (by decide) B₂ h₂
  obtain ⟨-, -, hwait⟩ := hkeep T.admission (by decide) (by decide) B₃ h₃
  obtain ⟨-, -, hrun⟩ := T.admission.keepsBooks
    (P := fun t => Once t ∧ (k ∈ t.running → t.isLive k = true))
    (fun hstep B ⟨ht, hr⟩ => ⟨honce (by decide) hstep ht, hstep.running_live B ht hr⟩) B₃
    ⟨h₃.1, T.live k⟩
  exact (List.mem_append.mp hk).elim hrun hwait

/-- After a tick nothing in the batch or the queue has ended. -/
theorem Tick.live_all {s₁ s₂ s₃ : Scheduler} (T : Tick s s₁ s₂ s₃ s') (B : s.Books)
    (F : Fifo accepted s) : ∀ k ∈ s'.running ++ s'.waiting, s'.isLive k = true :=
  fun k => T.live_once B (F.once k)

/-- After a tick the batch and the queue are, one after the other, the accepted
streams that have not ended, in the order in which they were accepted: those of
the batch run, and those of the queue wait.  So no stream runs while one that was
accepted before it waits. -/
theorem schedule_fifo {hash : ChainHash} {g : Geometry} {a : Allocator}
    (hnew : Allocator.newWith hash g = .ok a) (admission : Admission) (events : List Event)
    (hd : ((start admission a).acceptedIn events).Nodup) :
    ∃ s', schedule (play (start admission a) events) = .ok s'.running s' ∧
      s'.running ++ s'.waiting = ((start admission a).acceptedIn events).filter s'.isLive ∧
      (∀ h ∈ s'.running, (s'.stream h).phase = .running) ∧
      (∀ h ∈ s'.waiting, (s'.stream h).phase = .waiting) ∧
      ∀ h ∈ s'.running, ∀ k ∈ s'.waiting,
        List.Sublist [h, k] ((start admission a).acceptedIn events) := by
  have B := books_play hnew admission events
  have F := fifo_play (books_start hnew admission) (fifo_start admission a) events hd
  rw [List.nil_append] at F
  generalize (start admission a).acceptedIn events = accepted at F
  generalize play (start admission a) events = s at B F
  obtain ⟨s₁, s₂, s₃, s', hok, T⟩ := schedule_tick B
  have B' := T.moves.books B
  have F' := T.fifo B F
  -- after a tick both lists are live, so the invariant's filter may be dropped
  have hlive := T.live_all B F
  have horder : s'.running ++ s'.waiting = accepted.filter s'.isLive := by
    rw [← F'.order, List.filter_eq_self.mpr hlive]
  refine ⟨s', hok, horder, ?_, ?_, ?_⟩
  · intro h hh
    exact B'.running_of_live hh (hlive h (List.mem_append_left _ hh))
  · intro h hh
    have hphase := F'.queued h hh
    by_contra hout
    exact hphase (Stream.phase_of_live
      (isLive_iff.mp (hlive h (List.mem_append_right _ hh))) hout)
  · -- one of the batch and one of the queue stand in this order in both lists together
    intro h hh k hk
    have hsub : List.Sublist [h, k] (s'.running ++ s'.waiting) :=
      List.Sublist.append (List.singleton_sublist.mpr hh) (List.singleton_sublist.mpr hk)
    rw [horder] at hsub
    exact hsub.trans List.filter_sublist

/-- The first of two streams that crowd the pool runs on and the second waits. -/
theorem schedule_fifo_crowded :
    ∃ a s', Allocator.newWith chainHash { blocks := 5, blockSize := 2 } = .ok a ∧
      schedule (play (start {} a) crowdedRun) = .ok [0] s' ∧ s'.running = [0] ∧ s'.waiting = [1] ∧
      s'.running ++ s'.waiting = [0, 1].filter s'.isLive := by
  have hrun : (Allocator.newWith chainHash { blocks := 5, blockSize := 2 }).toOption.map
      (fun a => let s' := stateAfter schedule (play (start {} a) crowdedRun)
        ((start {} a).acceptedIn crowdedRun, s'.running, s'.waiting))
      = some ([0, 1], [0], [1]) := by decide +kernel
  obtain ⟨a, hnew, hlists⟩ := Allocator.exists_newWith hrun
  simp only [Prod.mk.injEq] at hlists
  obtain ⟨haccepted, hrunning, hwaiting⟩ := hlists
  obtain ⟨s', hok, horder, -, -, -⟩ :=
    schedule_fifo hnew {} crowdedRun (by rw [haccepted]; decide)
  rw [stateAfter_of_ok hok] at hrunning hwaiting
  rw [hrunning] at hok
  rw [haccepted] at horder
  exact ⟨a, s', hnew, hok, hrunning, hwaiting, horder⟩

end Scheduler

end PagedServe
