/-
PagedServe/Proofs/Places.lean

Where a stream stands: in the queue, in the batch, or in neither.

`Shift` lists the ways in which a tick changes that, one change at a time, and says
nothing about blocks.  Every pass is a run of shifts, also one that fails halfway
(`shifts_schedule`).  No books are needed for it: the allocator may be short when
it should not be, or may be in any state at all.

So what shifts keep holds whatever else is done to the allocator.  Two such facts
about one handle are here.  A stream stands in the batch once at most and does not
wait there (`Housed`); that needs no care of anyone.  A stream stands once at most
in the two lists together, and does not run while it is queued (`Alone`); that is
kept by everything but the queueing of a stream that is queued already.

Main statement: `Alone` holds all along a run just if nobody did that
(`alone_iff_not_requeued`).  `enqueue` itself does not refuse it, since such a
stream is waiting (`requeued_runs_and_waits`).
-/
import PagedServe.Proofs.Fifo
import Mathlib.Data.List.Induction

namespace PagedServe

namespace Stream

variable {x y z : Stream}

/-- Nobody has touched the tokens of the stream, or finished it. -/
structure Undisturbed (x y : Stream) : Prop extends SameTokens x y where
  id : y.id = x.id
  finished : y.isFinished = x.isFinished

theorem Undisturbed.refl (x : Stream) : Undisturbed x x := ⟨.refl x, rfl, rfl⟩

theorem Undisturbed.trans (h : Undisturbed x y) (h' : Undisturbed y z) : Undisturbed x z :=
  ⟨h.toSameTokens.trans h'.toSameTokens, h'.id.trans h.id, h'.finished.trans h.finished⟩

/-- A change of phase that does not touch `finished`. -/
theorem Undisturbed.of_phase (hsame : SameTokens x y) (hid : y.id = x.id)
    (hx : x.phase ≠ .finished) (hy : y.phase ≠ .finished) : Undisturbed x y := by
  refine ⟨hsame, hid, ?_⟩
  rw [isFinished, isFinished, beq_false_of_ne hx, beq_false_of_ne hy]

theorem undisturbed_stop (reason : StopReason) (x : Stream) : Undisturbed x (x.stop reason) := by
  unfold stop
  split
  · exact .refl x
  case isFalse h =>
    refine .of_phase ⟨rfl, rfl, rfl⟩ rfl (fun heq => h ?_) (by simp [phase, Status.phase])
    rw [isTerminal_of_phase heq]
    rfl

theorem undisturbed_checkTimeout (now : Nat) (x : Stream) :
    Undisturbed x (x.checkTimeout now) := by
  unfold checkTimeout
  split
  · exact undisturbed_stop _ x
  · exact .refl x

theorem undisturbed_emptied (x : Stream) : Undisturbed x x.emptied := ⟨sameTokens_emptied x, rfl, rfl⟩

/-- Only a running stream is suspended; it waits then. -/
theorem suspend_cases (x : Stream) :
    (x.suspend = .ok (x.table.ids, x.suspended) ∧ x.phase = .running ∧
      Undisturbed x x.suspended) ∨ ∃ e, x.suspend = .error e := by
  by_cases hphase : x.phase = .running
  · refine Or.inl ⟨suspend_eq_ok hphase, hphase, .of_phase (sameTokens_suspended x) rfl ?_ ?_⟩
    · rw [hphase]
      decide
    · rw [suspended_phase]
      decide
  · refine Or.inr ?_
    unfold suspend
    split
    case h_1 hs => exact absurd (by rw [phase, hs]; rfl) hphase
    case h_2 => exact ⟨_, rfl⟩

/-- Only a waiting stream is started; it runs then. -/
theorem start_cases (x : Stream) (grant : Grant) (blockSize : Nat) :
    (∃ y, x.start grant blockSize = .ok y ∧ x.phase = .waiting ∧ y.phase = .running ∧
      Undisturbed x y) ∨ ∃ e, x.start grant blockSize = .error e := by
  unfold start
  split
  case h_1 hs =>
    have hphase : x.phase = .waiting := by rw [phase, hs]; rfl
    rcases Word.div grant.reused blockSize with e | n
    · exact Or.inr ⟨e, rfl⟩
    · refine Or.inl ⟨_, rfl, hphase, rfl, .of_phase ⟨rfl, rfl, rfl⟩ rfl ?_ ?_⟩
      · rw [hphase]
        decide
      · simp [phase, Status.phase]
  case h_2 => exact Or.inr ⟨_, rfl⟩

end Stream

namespace Scheduler

variable {s s' t : Scheduler} {h k : Handle}

/-! ### Shifts -/

/-- One change that a tick makes to places and streams, or to the allocator. -/
inductive Shift : Scheduler → Scheduler → Prop
  /-- A stream stays where it stands, or ends. -/
  | touch {s : Scheduler} {h : Handle} {x : Stream} (hx : Stream.Undisturbed (s.stream h) x)
      (hends : Ends (s.stream h) x) : Shift s (s.setStream h x)
  /-- The allocator is used. -/
  | memory (s : Scheduler) (a : Allocator) : Shift s { s with allocator := a }
  /-- Streams leave the lists. -/
  | leave {s : Scheduler} {running waiting : List Handle} (hrun : running.Sublist s.running)
      (hwait : waiting.Sublist s.waiting) : Shift s { s with running, waiting }
  /-- A running stream goes from the batch to the head of the queue. -/
  | suspend {s : Scheduler} {h : Handle} {older newer : List Handle} {x : Stream}
      (hsplit : s.running = older ++ h :: newer) (hphase : (s.stream h).phase = .running)
      (hx : Stream.Undisturbed (s.stream h) x) (hwaits : x.phase = .waiting) :
    Shift s { s.setStream h x with running := older ++ newer, waiting := h :: s.waiting }
  /-- The head of the queue waits and joins the batch. -/
  | enter {s : Scheduler} {h : Handle} {rest : List Handle} {x : Stream}
      (hsplit : s.waiting = h :: rest) (hphase : (s.stream h).phase = .waiting)
      (hx : Stream.Undisturbed (s.stream h) x) (hruns : x.phase = .running) :
    Shift s { s.setStream h x with running := s.running ++ [h], waiting := rest }

/-- Any number of shifts. -/
abbrev Shifts : Scheduler → Scheduler → Prop := Relation.ReflTransGen Shift

/-- An operation that only uses the allocator keeps what does not depend on it. -/
theorem preserves_onAllocator {I : Scheduler → Prop} {α : Type}
    (hI : ∀ {t} (a : Allocator), I t → I { t with allocator := a }) (x : AllocM α) :
    Preserves I (onAllocator x) := by
  intro t ht
  unfold stateAfter onAllocator
  rcases x t.allocator with ⟨r, a⟩ | ⟨e, a⟩
  · exact hI a ht
  · exact hI a ht

theorem preserves_ofResult {I : Scheduler → Prop} {α : Type} (r : Except Failure α) :
    Preserves I (ofResult r) := by
  rcases r with e | v
  · exact fun _ ht => ht
  · exact fun _ ht => ht

theorem Shifts.memory (hshifts : Shifts s t) (a : Allocator) :
    Shifts s { t with allocator := a } := hshifts.tail (.memory t a)

theorem shifts_onAllocator {α : Type} (x : AllocM α) : Preserves (Shifts s) (onAllocator x) :=
  preserves_onAllocator (fun a ht => ht.memory a) x

theorem shifts_update {f : Stream → Stream} (hf : ∀ x, Stream.Undisturbed x (f x) ∧ Ends x (f x))
    (h : Handle) : Preserves (Shifts s) (update h f) := fun t ht =>
  ht.tail (.touch (hf (t.stream h)).1 (hf (t.stream h)).2)

theorem shifts_checkTimeout (h : Handle) : Preserves (Shifts s) (checkTimeout h) := by
  refine Preserves.bind Preserves.get fun t => shifts_update (fun x => ⟨?_, ?_⟩) h
  · exact Stream.undisturbed_checkTimeout _ x
  · exact ends_of_continues (Stream.continues_checkTimeout _ x)

theorem shifts_sweepWaiting : Preserves (Shifts s) sweepWaiting := by
  refine Preserves.bind Preserves.get fun t => Preserves.bind ?_ fun _ => ?_
  · exact Preserves.forM fun h _ => shifts_checkTimeout h
  · exact Preserves.modify fun t ht =>
      ht.tail (.leave (List.Sublist.refl _) List.filter_sublist)

/-! ### Giving up blocks -/

theorem split_of_item {xs : List Handle} {idx : Nat} (hitem : Word.item xs idx = .ok h) :
    ∃ older newer, xs = older ++ h :: newer ∧ older.length = idx ∧
      xs.eraseIdx idx = older ++ newer := by
  unfold Word.item at hitem
  split at hitem
  case h_2 => simp at hitem
  case h_1 x hx =>
    obtain ⟨hlt, rfl⟩ := List.getElem?_eq_some_iff.mp hx
    cases hitem
    refine ⟨xs.take idx, xs.drop (idx + 1), ?_, ?_, List.eraseIdx_eq_take_drop_succ _ _⟩
    · rw [← List.drop_eq_getElem_cons hlt, List.take_append_drop]
    · exact List.length_take_of_le (Nat.le_of_lt hlt)

theorem shifts_removeAt (idx : Nat) : Preserves (Shifts s) (removeAt idx) := by
  intro t ht
  unfold removeAt
  rw [stateAfter_bind_get]
  rcases hitem : Word.item t.running idx with e | h
  · exact ht
  · rw [stateAfter_bind_of_ok (ofResult_of_ok rfl)]
    exact ht.tail (.leave (List.eraseIdx_sublist _ _) (List.Sublist.refl _))

theorem shifts_releaseStream (h : Handle) : Preserves (Shifts s) (releaseStream h) := by
  intro t ht
  unfold releaseStream
  rw [stateAfter_bind_get, stateAfter_bind_of_ok (ofResult_of_ok (t.stream h).fullPrefix_eq_ok)]
  simp only [Stream.takeBlocks_eq]
  rw [stateAfter_bind_of_ok (update_eq _ _ _)]
  have hemptied : Shifts s (t.setStream h (t.stream h).emptied) :=
    ht.tail (.touch (Stream.undisturbed_emptied _) (Or.inl rfl))
  split
  · exact Preserves.bind (shifts_onAllocator _) (fun _ => Preserves.pure ()) _ hemptied
  · exact Preserves.bind (shifts_onAllocator _) (fun _ => Preserves.pure ()) _ hemptied

/-- A stream is taken off the batch and put into the queue; one that does not run is
only taken off. -/
theorem shifts_giveWay (idx : Nat) : Preserves (Shifts s) (removeAt idx >>= preempt) := by
  intro t ht
  unfold removeAt
  simp only [bind_assoc]
  rw [stateAfter_bind_get]
  rcases hitem : Word.item t.running idx with e | h
  · exact ht
  obtain ⟨older, newer, hsplit, -, herase⟩ := split_of_item hitem
  rw [stateAfter_bind_of_ok (ofResult_of_ok rfl), stateAfter_bind_modify, pure_bind]
  unfold preempt
  rw [stateAfter_bind_get]
  -- the stream itself tells whether it runs
  rcases (t.stream h).suspend_cases with ⟨hsuspend, hphase, hx⟩ | ⟨e, herr⟩
  · have hok : Stream.suspend (stream { t with running := t.running.eraseIdx idx } h) = _ := hsuspend
    have hshift := Shift.suspend hsplit hphase hx rfl
    simp only [hok]
    rw [stateAfter_bind_of_ok (update_eq _ _ _),
      stateAfter_bind_of_ok (onAllocator_of_ok (Allocator.free_eq_ok _ _)), herase]
    exact Shifts.memory (ht.tail hshift) _
  · have hfail : Stream.suspend (stream { t with running := t.running.eraseIdx idx } h) = _ := herr
    simp only [hfail]
    refine shifts_releaseStream h _ (ht.tail (.leave ?_ (List.Sublist.refl _)))
    exact List.eraseIdx_sublist _ _

theorem shifts_abandon (h : Handle) (idx : Nat) : Preserves (Shifts s) (abandon h idx) := by
  intro t ht
  unfold abandon
  rw [stateAfter_bind_get]
  simp only [Stream.takeBlocks_eq]
  rw [stateAfter_bind_of_ok (update_eq _ _ _)]
  have hstopped : Shifts s (t.setStream h ((t.stream h).stop .noMemory).emptied) := by
    refine ht.tail (.touch ?_ (Or.inr (Stream.stop_isTerminal _ _)))
    exact (Stream.undisturbed_stop _ _).trans (Stream.undisturbed_emptied _)
  refine Preserves.bind (shifts_onAllocator _) (fun _ => ?_) _ hstopped
  exact Preserves.bind (shifts_removeAt idx) fun _ => Preserves.pure ()

theorem shifts_releaseEnded : Preserves (Shifts s) releaseEnded := by
  intro t ht
  unfold releaseEnded
  rw [stateAfter_bind_get, List.partition_eq_filter_filter]
  simp only
  rw [stateAfter_bind_set]
  refine Preserves.forM (fun h _ => shifts_releaseStream h) _ (ht.tail (.leave ?_ ?_))
  · exact List.filter_sublist
  · exact List.Sublist.refl _

/-! ### Growth -/

theorem shifts_tryGrow (h : Handle) : Preserves (Shifts s) (tryGrow h) := by
  refine Preserves.bind Preserves.get fun t => Preserves.bind (preserves_ofResult _) fun n => ?_
  split
  · exact Preserves.pure true
  refine Preserves.tryCatch (Preserves.bind (shifts_onAllocator _) fun ids => ?_) fun e => ?_
  · refine Preserves.bind (shifts_update (fun x => ?_) h) fun _ => Preserves.pure true
    exact ⟨⟨Stream.sameTokens_grow x ids, rfl, rfl⟩, Or.inl rfl⟩
  · split
    · exact Preserves.pure false
    · exact Preserves.throw e

theorem shifts_growOver (h : Handle) (idx rounds : Nat) :
    Preserves (Shifts s) (growOver h idx rounds) := by
  induction rounds with
  | zero => exact Preserves.throw _
  | succ rounds ih =>
    refine Preserves.bind (shifts_tryGrow h) fun grown => ?_
    split
    · exact Preserves.pure true
    refine Preserves.bind Preserves.get fun t => ?_
    split
    · -- the newest live stream gives way
      rw [← bind_assoc]
      refine Preserves.bind (shifts_giveWay _) fun _ => ?_
      split
      · exact Preserves.pure false
      · exact ih
    · exact Preserves.bind (shifts_abandon h idx) fun _ => Preserves.pure false

theorem shifts_commitFullBlocks (h : Handle) : Preserves (Shifts s) (commitFullBlocks h) := by
  refine Preserves.bind Preserves.get fun t => Preserves.bind (preserves_ofResult _) fun full => ?_
  obtain ⟨tokens, ids⟩ := full
  dsimp only
  split
  · exact Preserves.pure ()
  · refine Preserves.bind (shifts_onAllocator _) fun _ => shifts_update (fun x => ?_) h
    exact ⟨⟨Stream.sameTokens_setCommitted _ x, rfl, rfl⟩, Or.inl rfl⟩

theorem shifts_growAt (idx : Nat) : Preserves (Shifts s) (growAt idx) := by
  refine Preserves.bind Preserves.get fun t => Preserves.bind (preserves_ofResult _) fun h => ?_
  refine Preserves.bind (shifts_checkTimeout h) fun _ => Preserves.bind Preserves.get fun u => ?_
  split
  · refine Preserves.bind (shifts_growOver h idx _) fun grown => ?_
    split
    · refine Preserves.bind Preserves.get fun v => ?_
      split
      · exact Preserves.bind (shifts_commitFullBlocks h) fun _ => Preserves.pure _
      · exact Preserves.pure _
    · exact Preserves.pure _
  · exact Preserves.pure _

theorem shifts_growFrom (idx rounds : Nat) : Preserves (Shifts s) (growFrom idx rounds) := by
  induction rounds generalizing idx with
  | zero =>
    refine Preserves.bind Preserves.get fun t => ?_
    split
    · exact Preserves.throw _
    · exact Preserves.pure ()
  | succ rounds ih =>
    refine Preserves.bind Preserves.get fun t => ?_
    split
    · exact Preserves.bind (shifts_growAt idx) fun next => ih next
    · exact Preserves.pure ()

/-! ### Admission -/

/-- Whether a stream is granted its blocks or not, only the allocator changes. -/
theorem preserves_tryGrant {I : Scheduler → Prop}
    (hI : ∀ {t} (a : Allocator), I t → I { t with allocator := a }) (h : Handle) :
    Preserves I (tryGrant h) := by
  -- every operation of a grant is one of the allocator, the one that undoes it too
  have hgrant : Preserves I (grantFor h) := by
    refine Preserves.bind Preserves.get fun t =>
      Preserves.bind (preserves_onAllocator hI _) fun grant =>
        Preserves.bind (preserves_ofResult _) fun n => ?_
    dsimp only
    split
    · exact Preserves.pure grant
    refine Preserves.bind (Preserves.tryCatch (preserves_onAllocator hI _) fun e => ?_)
      fun rest => Preserves.pure _
    exact Preserves.bind (preserves_onAllocator hI _) fun _ => Preserves.throw e
  refine Preserves.tryCatch (Preserves.bind hgrant fun grant => Preserves.pure _) fun e => ?_
  split
  · exact Preserves.pure _
  · exact Preserves.throw e

/-- The head of the queue joins the batch or is dropped. -/
theorem begin_shifts {rest : List Handle} (hwait : t.waiting = h :: rest) (grant : Grant) :
    ∃ t', begin h grant { t with waiting := rest } = .ok () t' ∧ Shifts t t' ∧
      t'.waiting = rest := by
  unfold begin
  simp only [bind_get]
  rcases (t.stream h).start_cases grant t.blockSize with ⟨x, hstart, hphase, hruns, hx⟩ | ⟨e, herr⟩
  · -- it waits and is started
    have hok : Stream.start (stream { t with waiting := rest } h) grant
      (blockSize { t with waiting := rest }) = _ := hstart
    have hshift := Shift.enter hwait hphase hx hruns
    simp only [hok]
    exact ⟨_, bind_of_ok (update_eq _ _ _), .single hshift, rfl⟩
  · -- it does not wait any more: its blocks go back, and it is in neither list
    have hfail : Stream.start (stream { t with waiting := rest } h) grant
      (blockSize { t with waiting := rest }) = _ := herr
    simp only [hfail]
    have hdrop : Shift t { t with waiting := rest } :=
      .leave (List.Sublist.refl _) (hwait ▸ List.sublist_cons_self h rest)
    exact ⟨_, bind_of_ok (onAllocator_of_ok (Allocator.free_eq_ok _ _)),
      Shifts.memory (.single hdrop) _, rfl⟩

theorem shifts_admitFrom {queue : List Handle} (hwait : t.waiting = queue) (ht : Shifts s t) :
    Shifts s (stateAfter (admitFrom queue) t) := by
  induction queue generalizing t with
  | nil => exact ht
  | cons h rest ih =>
    have hgrant := preserves_tryGrant (I := fun u => Shifts s u ∧ u.waiting = h :: rest)
      (fun a hu => ⟨hu.1.memory a, hu.2⟩) h t ⟨ht, hwait⟩
    have hdrop : ∀ {u}, Shifts s u ∧ u.waiting = h :: rest → Shifts s { u with waiting := rest } :=
      fun hu => hu.1.tail (.leave (List.Sublist.refl _) (hu.2 ▸ List.sublist_cons_self h rest))
    -- the queue is still whole after the attempt, also if that fails
    unfold admitFrom
    rcases hanswer : tryGrant h t with ⟨answer, u⟩ | ⟨e, u⟩
    · rw [stateAfter_of_ok hanswer] at hgrant
      rw [stateAfter_bind_of_ok hanswer]
      cases answer with
      | granted grant =>
        obtain ⟨u', hok, hu, hwait'⟩ := begin_shifts hgrant.2 grant
        simp only [stateAfter_bind_modify, stateAfter_bind_of_ok hok]
        exact ih hwait' (hgrant.1.trans hu)
      | short =>
        simp only [stateAfter_bind_get]
        rcases hhope : u.isHopeless h with e | hopeless
        · exact hgrant.1
        rw [stateAfter_bind_of_ok (ofResult_of_ok rfl)]
        split
        · rw [stateAfter_bind_modify, stateAfter_bind_of_ok (update_eq _ _ _)]
          refine ih rfl ((hdrop hgrant).tail (.touch ?_ (Or.inr (Stream.stop_isTerminal _ _))))
          exact Stream.undisturbed_stop _ _
        · exact hgrant.1
    · rw [stateAfter_of_error hanswer] at hgrant
      rw [stateAfter_of_error (bind_of_error hanswer)]
      exact hgrant.1

/-- A tick is made of shifts, and so is what it has done when it fails. -/
theorem shifts_schedule : Preserves (Shifts s) schedule := by
  refine Preserves.bind shifts_sweepWaiting fun _ => ?_
  refine Preserves.bind (Preserves.bind Preserves.get fun t => shifts_growFrom _ _) fun _ => ?_
  refine Preserves.bind shifts_releaseEnded fun _ => ?_
  refine Preserves.bind (fun t ht => shifts_admitFrom rfl ht) fun _ => ?_
  refine Preserves.bind Preserves.get fun t => ?_
  refine Preserves.bind (preserves_ofResult _) fun _ => ?_
  exact Preserves.bind Preserves.get fun _ => Preserves.pure _

/-- The batch of a tick is the list of running streams after it. -/
theorem schedule_batch {batch : List Handle} (hok : schedule s = .ok batch s') :
    batch = s'.running := by
  unfold schedule at hok
  obtain ⟨_, _, _, hok₁⟩ := bind_eq_ok.mp hok
  obtain ⟨_, _, _, hok₂⟩ := bind_eq_ok.mp hok₁
  obtain ⟨_, _, _, hok₃⟩ := bind_eq_ok.mp hok₂
  obtain ⟨_, _, _, hok₄⟩ := bind_eq_ok.mp hok₃
  rw [bind_get] at hok₄
  obtain ⟨_, _, _, hok₅⟩ := bind_eq_ok.mp hok₄
  cases hok₅
  rfl

/-! ### What shifts keep -/

/-- The stream is in the batch once at most and does not wait there. -/
structure Housed (s : Scheduler) (h : Handle) : Prop where
  once : s.running.count h ≤ 1
  started : h ∈ s.running → (s.stream h).phase ≠ .waiting
  known : h ∈ s.waiting → h < s.streams.size

/-- How often a stream stands in the batch and in the queue. -/
def standing (s : Scheduler) (h : Handle) : Nat := s.running.count h + s.waiting.count h

/-- The stream stands in one place at most, and does not run while it is queued. -/
structure Alone (s : Scheduler) (h : Handle) : Prop where
  standing : s.standing h ≤ 1
  queued : h ∈ s.waiting → (s.stream h).phase ≠ .running

/-- A change that leaves the lists alone. -/
theorem Housed.stay (H : s.Housed h) (hends : Ends (s.stream h) (s'.stream h))
    (hrun : s'.running = s.running) (hwait : s'.waiting = s.waiting)
    (hsize : s.streams.size ≤ s'.streams.size) : s'.Housed h where
  once := hrun ▸ H.once
  started := fun hh => phase_of_ends hends rfl (H.started (hrun ▸ hh))
  known := fun hh => Nat.lt_of_lt_of_le (H.known (hwait ▸ hh)) hsize

theorem Alone.stay (A : s.Alone h) (hends : Ends (s.stream h) (s'.stream h))
    (hrun : s'.running = s.running) (hwait : s'.waiting = s.waiting) : s'.Alone h where
  standing := by
    rw [Scheduler.standing, hrun, hwait]
    exact A.standing
  queued := fun hh => phase_of_ends hends rfl (A.queued (hwait ▸ hh))

/-- A stream that runs is in the table. -/
theorem lt_size_of_running (hphase : (s.stream h).phase = .running) : h < s.streams.size := by
  by_contra hout
  rw [stream_of_le (Nat.le_of_not_lt hout)] at hphase
  exact absurd hphase (by decide)

theorem not_mem_split {older newer : List Handle} (H : s.Housed h)
    (hsplit : s.running = older ++ h :: newer) : h ∉ older ++ newer := by
  have honce := H.once
  rw [hsplit, List.count_append, List.count_cons_self] at honce
  rw [← List.count_pos_iff, List.count_append]
  omega

theorem Shift.housed (hshift : Shift s s') (H : s.Housed h) : s'.Housed h := by
  cases hshift with
  | touch hx hends =>
    exact H.stay (ends_setStream hends h) rfl rfl (Nat.le_of_eq (size_setStream _ _ _).symm)
  | memory a => exact ⟨H.once, H.started, H.known⟩
  | leave hrun hwait =>
    exact ⟨Nat.le_trans (hrun.count_le h) H.once, fun hh => H.started (hrun.subset hh),
      fun hh => H.known (hwait.subset hh)⟩
  | @suspend k older newer x hsplit hphase hx hwaits =>
    have hsub : (older ++ newer).Sublist s.running :=
      hsplit ▸ (List.sublist_cons_self k newer).append_left older
    by_cases hk : h = k
    · subst hk
      -- it was in the batch once, and is not in the rest of it
      refine ⟨Nat.le_trans (hsub.count_le h) H.once, fun hh => absurd hh (not_mem_split H hsplit), ?_⟩
      exact fun _ => Nat.lt_of_lt_of_eq (lt_size_of_running hphase) (size_setStream _ _ _).symm
    · refine ⟨Nat.le_trans (hsub.count_le h) H.once, fun hh => ?_, fun hh => ?_⟩
      · show ((s.setStream k x).stream h).phase ≠ _
        rw [stream_setStream_of_ne hk]
        exact H.started (hsub.subset hh)
      · exact Nat.lt_of_lt_of_eq (H.known ((List.mem_cons.mp hh).resolve_left hk))
          (size_setStream _ _ _).symm
  | @enter k rest x hsplit hphase hx hruns =>
    have hrest : ∀ hh : h ∈ rest, h < (s.setStream k x).streams.size := fun hh =>
      Nat.lt_of_lt_of_eq (H.known (hsplit ▸ List.mem_cons_of_mem k hh)) (size_setStream _ _ _).symm
    by_cases hk : h = k
    · subst hk
      -- one that waits is not in the batch
      have hout : h ∉ s.running := fun hh => H.started hh hphase
      refine ⟨?_, fun _ => ?_, hrest⟩
      · have hone : (s.running ++ [h]).count h = 1 := by
          rw [List.count_append, List.count_eq_zero_of_not_mem hout, List.count_singleton_self]
        exact Nat.le_of_eq hone
      · show ((s.setStream h x).stream h).phase ≠ _
        rw [stream_setStream_self (H.known (hsplit ▸ List.mem_cons_self)), hruns]
        decide
    · refine ⟨?_, fun hh => ?_, hrest⟩
      · show (s.running ++ [k]).count h ≤ 1
        rw [List.count_append, List.count_singleton, if_neg (by simpa using Ne.symm hk)]
        exact H.once
      · show ((s.setStream k x).stream h).phase ≠ _
        rw [stream_setStream_of_ne hk]
        refine H.started ((List.mem_append.mp hh).resolve_right fun hlast => hk ?_)
        exact List.mem_singleton.mp hlast

theorem Shift.alone (hshift : Shift s s') (A : s.Alone h) : s'.Alone h := by
  cases hshift with
  | touch hx hends => exact A.stay (ends_setStream hends h) rfl rfl
  | memory a => exact ⟨A.standing, A.queued⟩
  | leave hrun hwait =>
    exact ⟨Nat.le_trans (Nat.add_le_add (hrun.count_le h) (hwait.count_le h)) A.standing,
      fun hh => A.queued (hwait.subset hh)⟩
  | @suspend k older newer x hsplit hphase hx hwaits =>
    -- the two lists together are permuted
    refine ⟨?_, fun hh => ?_⟩
    · have hperm : (older ++ newer ++ k :: s.waiting).Perm (s.running ++ s.waiting) := by
        rw [hsplit]
        exact List.perm_middle.trans (List.perm_middle.symm.append_right s.waiting)
      show (older ++ newer).count h + (k :: s.waiting).count h ≤ 1
      rw [← List.count_append, hperm.count_eq, List.count_append]
      exact A.standing
    · show ((s.setStream k x).stream h).phase ≠ _
      by_cases hk : h = k
      · rw [hk, stream_setStream_self (lt_size_of_running hphase), hwaits]
        decide
      · rw [stream_setStream_of_ne hk]
        exact A.queued ((List.mem_cons.mp hh).resolve_left hk)
  | @enter k rest x hsplit hphase hx hruns =>
    have hlists : s.standing h = (s.running ++ [k]).count h + rest.count h := by
      rw [standing, hsplit, ← List.count_append, ← List.count_append, List.append_assoc,
        List.singleton_append]
    have hstanding := A.standing
    rw [hlists] at hstanding
    refine ⟨hstanding, fun hh => ?_⟩
    have hk : h ≠ k := by
      rintro rfl
      -- the head of the queue stands nowhere else
      rw [List.count_append, List.count_singleton_self] at hstanding
      have hpos : 0 < rest.count h := List.count_pos_iff.mpr hh
      omega
    show ((s.setStream k x).stream h).phase ≠ _
    rw [stream_setStream_of_ne hk]
    exact A.queued (hsplit ▸ List.mem_cons_of_mem k hh)

theorem undisturbed_setStream {x : Stream} (hx : Stream.Undisturbed (s.stream k) x) (h : Handle) :
    Stream.Undisturbed (s.stream h) ((s.setStream k x).stream h) := by
  rw [stream_setStream]
  split
  case isTrue hk => exact hk.1 ▸ hx
  case isFalse => exact .refl _

/-- Shifts do nothing to the tokens of a stream. -/
theorem Shift.undisturbed (hshift : Shift s s') (h : Handle) :
    Stream.Undisturbed (s.stream h) (s'.stream h) := by
  cases hshift with
  | touch hx => exact undisturbed_setStream hx h
  | memory | leave => exact .refl _
  | suspend _ _ hx => exact undisturbed_setStream hx h
  | enter _ _ hx => exact undisturbed_setStream hx h

/-- What shifts keep, a run of shifts keeps. -/
theorem Shifts.keeps {P : Scheduler → Prop} (hshift : ∀ {s s'}, Shift s s' → P s → P s')
    (hshifts : Shifts s s') (hs : P s) : P s' := by
  induction hshifts with
  | refl => exact hs
  | tail _ hlast ih => exact hshift hlast ih

/-! ### Queueing -/

/-- A stream is put into the queue. -/
def enqueued (s : Scheduler) (k : Handle) : Scheduler :=
  { s.setStream k ((s.stream k).markQueued s.now) with waiting := s.waiting ++ [k] }

theorem enqueue_eq_ok (hok : enqueue h s = .ok () t) :
    h < s.streams.size ∧ (s.stream h).phase = .waiting ∧ t = s.enqueued h := by
  rcases enqueue_spec s h with ⟨hspec, hsize, hphase⟩ | ⟨e, herr⟩
  · rw [hspec] at hok
    cases hok
    exact ⟨hsize, hphase, rfl⟩
  · rw [hok] at herr
    simp at herr

theorem ends_enqueued (s : Scheduler) (h k : Handle) :
    Ends (s.stream h) ((s.enqueued k).stream h) :=
  ends_setStream (s := s) (x := (s.stream k).markQueued s.now) (Or.inl rfl) h

theorem standing_enqueued (s : Scheduler) (h k : Handle) :
    (s.enqueued k).standing h = s.standing h + if k = h then 1 else 0 := by
  show s.running.count h + (s.waiting ++ [k]).count h = _
  rw [List.count_append, List.count_singleton, standing, Nat.add_assoc]
  simp only [beq_iff_eq]

theorem Housed.enqueued (H : s.Housed h) (hk : k < s.streams.size) : (s.enqueued k).Housed h where
  once := H.once
  started := fun hh => phase_of_ends (ends_enqueued s h k) rfl (H.started hh)
  known := fun hh => by
    refine Nat.lt_of_lt_of_eq ?_ (size_setStream _ _ _).symm
    rcases List.mem_append.mp hh with hh | hh
    · exact H.known hh
    · exact List.mem_singleton.mp hh ▸ hk

/-- A waiting stream that is not in the queue is nowhere, so it may be put there. -/
theorem Alone.enqueued (H : s.Housed h) (A : s.Alone h) (hphase : (s.stream k).phase = .waiting)
    (hnew : k = h → h ∉ s.waiting) : (s.enqueued k).Alone h where
  standing := by
    rw [standing_enqueued]
    split
    case isTrue hk =>
      -- it stood nowhere before: not in the batch, as it waits, and not in the queue
      subst hk
      have hnone : s.standing k = 0 := by
        rw [Scheduler.standing, List.count_eq_zero_of_not_mem fun hh => H.started hh hphase,
          List.count_eq_zero_of_not_mem (hnew rfl)]
      exact Nat.le_of_eq (congrArg Nat.succ hnone)
    case isFalse => exact A.standing
  queued := fun hh => by
    refine phase_of_ends (ends_enqueued s h k) rfl ?_
    rcases List.mem_append.mp hh with hh | hh
    · exact A.queued hh
    · rw [List.mem_singleton.mp hh, hphase]
      decide

/-! ### Runs -/

/-- What happens to a scheduler whose allocator has other users as well. -/
inductive Incident where
  | event (e : Event)
  /-- Others have used the allocator and leave it in some state. -/
  | memory (a : Allocator)

/-- The scheduler after an incident. -/
def undergo : Incident → Scheduler → Scheduler
  | .event e, s => perform e s
  | .memory a, s => { s with allocator := a }

/-- The scheduler after a history of incidents. -/
def undergone (s : Scheduler) (history : List Incident) : Scheduler :=
  history.foldl (fun s i => undergo i s) s

theorem undergone_concat (s : Scheduler) (history : List Incident) (i : Incident) :
    s.undergone (history ++ [i]) = undergo i (s.undergone history) := by
  rw [undergone, List.foldl_append]
  rfl

/-- An incident puts a stream into the queue, or is made of shifts, or leaves the lists
alone. -/
theorem undergo_cases (s : Scheduler) (i : Incident) :
    (∃ k, i = .event (.enqueue k) ∧ enqueue k s = .ok () (s.enqueued k) ∧
      undergo i s = s.enqueued k) ∨
    Shifts s (undergo i s) ∨
    ((undergo i s).running = s.running ∧ (undergo i s).waiting = s.waiting ∧
      s.streams.size ≤ (undergo i s).streams.size ∧
      ∀ h, Ends (s.stream h) ((undergo i s).stream h)) := by
  -- only an accepted `enqueue` adds a stream to a list
  cases i with
  | memory a => exact Or.inr (Or.inl (.single (.memory s a)))
  | event e =>
    cases e with
    | register id request =>
      refine Or.inr (Or.inr ⟨rfl, rfl, ?_, fun h => Or.inl (phase_registered s id request h)⟩)
      show _ ≤ (s.streams.push _).size
      rw [Array.size_push]
      exact Nat.le_succ _
    | enqueue k =>
      rcases enqueue_spec s k with ⟨hok, -⟩ | ⟨e, herr⟩
      · exact Or.inl ⟨k, rfl, hok, stateAfter_of_ok hok⟩
      · refine Or.inr (Or.inl ?_)
        show Shifts s (stateAfter (enqueue k) s)
        rw [stateAfter_of_error herr]
    | schedule => exact Or.inr (Or.inl (shifts_schedule s .refl))
    | clearCache order =>
      exact Or.inr (Or.inl (shifts_onAllocator (Allocator.clearCache order) s .refl))
    | call k c =>
      refine Or.inr (Or.inr ?_)
      show (perform (.call k c) s).running = _ ∧ (perform (.call k c) s).waiting = _ ∧
        _ ≤ (perform (.call k c) s).streams.size ∧
        ∀ h, Ends _ ((perform (.call k c) s).stream h)
      rw [perform_call]
      exact ⟨rfl, rfl, Nat.le_of_eq (size_setStream _ _ _).symm,
        ends_setStream (ends_of_continues (Stream.continues_call c _))⟩
    | sleep ms => exact Or.inr (Or.inr ⟨rfl, rfl, Nat.le_refl _, fun _ => Or.inl rfl⟩)

theorem Housed.undergo (H : s.Housed h) (i : Incident) : (undergo i s).Housed h := by
  rcases undergo_cases s i with ⟨k, -, hok, heq⟩ | hshifts | ⟨hrun, hwait, hsize, hends⟩
  · rw [heq]
    exact H.enqueued (enqueue_eq_ok hok).1
  · exact hshifts.keeps Shift.housed H
  · exact H.stay (hends h) hrun hwait hsize

/-- A stream stands alone until it is queued once more while it is queued. -/
theorem Alone.undergo (H : s.Housed h) (A : s.Alone h) (i : Incident)
    (hnew : i = .event (.enqueue h) → (∃ t, enqueue h s = .ok () t) → h ∉ s.waiting) :
    (undergo i s).Alone h := by
  rcases undergo_cases s i with ⟨k, hi, hok, heq⟩ | hshifts | ⟨hrun, hwait, -, hends⟩
  · rw [heq]
    refine A.enqueued H (enqueue_eq_ok hok).2.1 ?_
    rintro rfl
    exact hnew hi ⟨_, hok⟩
  · exact hshifts.keeps Shift.alone A
  · exact A.stay (hends h) hrun hwait

/-- Nobody stands anywhere in the beginning. -/
theorem housed_start (admission : Admission) (a : Allocator) (h : Handle) :
    (start admission a).Housed h :=
  ⟨Nat.zero_le _, fun hh => absurd hh List.not_mem_nil, fun hh => absurd hh List.not_mem_nil⟩

theorem alone_start (admission : Admission) (a : Allocator) (h : Handle) :
    (start admission a).Alone h :=
  ⟨Nat.zero_le _, fun hh => absurd hh List.not_mem_nil⟩

theorem housed_undergone (admission : Admission) (a : Allocator) (history : List Incident)
    (h : Handle) : ((start admission a).undergone history).Housed h := by
  induction history using List.reverseRecOn with
  | nil => exact housed_start admission a h
  | append_singleton past i ih =>
    rw [undergone_concat]
    exact ih.undergo i

/-- At some point of the run the stream was queued, with success, while it was queued. -/
def Requeued (s : Scheduler) (history : List Incident) (h : Handle) : Prop :=
  ∃ past, past ++ [.event (.enqueue h)] <+: history ∧ h ∈ (s.undergone past).waiting ∧
    ∃ t, enqueue h (s.undergone past) = .ok () t

theorem alone_of_not_requeued (admission : Admission) (a : Allocator) {history : List Incident}
    (hnever : ¬ (start admission a).Requeued history h) {past : List Incident}
    (hpast : past <+: history) : ((start admission a).undergone past).Alone h := by
  -- by induction on how far the run has come; `hnever` is about the whole of it
  induction past using List.reverseRecOn with
  | nil => exact alone_start admission a h
  | append_singleton past i ih =>
    rw [undergone_concat]
    refine (ih ((List.prefix_append past [i]).trans hpast)).undergo
      (housed_undergone admission a past h) i ?_
    rintro rfl haccepted hqueued
    exact hnever ⟨past, hpast, hqueued, haccepted⟩

/-- A stream that was queued twice stands twice. -/
theorem two_le_standing (hqueued : h ∈ s.waiting) (hok : enqueue h s = .ok () t) :
    2 ≤ (undergo (.event (.enqueue h)) s).standing h := by
  have hpos : 0 < s.waiting.count h := List.count_pos_iff.mpr hqueued
  show 2 ≤ (stateAfter (enqueue h) s).standing h
  rw [stateAfter_of_ok hok, (enqueue_eq_ok hok).2.2, standing_enqueued, if_pos rfl, standing]
  omega

/-- Whatever becomes of a scheduler and of its allocator, a stream is in the batch at
most once and does not wait there.  It stands at most once in the batch and the queue
together, and is not running while it is queued, at all points of a run just if nobody
queued it again while it was queued. -/
theorem alone_iff_not_requeued (admission : Admission) (a : Allocator) (history : List Incident)
    (h : Handle) :
    (∀ past, past <+: history →
      let s := (start admission a).undergone past
      s.running.count h ≤ 1 ∧ (h ∈ s.running → (s.stream h).phase ≠ .waiting)) ∧
    ((∀ past, past <+: history →
      let s := (start admission a).undergone past
      s.standing h ≤ 1 ∧ (h ∈ s.waiting → (s.stream h).phase ≠ .running)) ↔
      ¬ (start admission a).Requeued history h) := by
  refine ⟨fun past _ => ?_, fun halone => ?_, fun hnever past hpast => ?_⟩
  · -- the batch, whoever was queued again
    have H := housed_undergone admission a past h
    exact ⟨H.once, H.started⟩
  · -- queued again: it then stands twice
    rintro ⟨past, hpast, hqueued, t, hok⟩
    have hone := (halone _ hpast).1
    have htwo := two_le_standing hqueued hok
    rw [undergone_concat] at hone
    omega
  · -- never queued again
    have A := alone_of_not_requeued admission a hnever hpast
    exact ⟨A.standing, A.queued⟩

/-- A stream that waits in the queue is queued again, and then a tick passes. -/
def requeuedRun : List Incident :=
  [.event (.register 1 { input := [1, 2, 3, 4, 5] }), .event (.enqueue 0), .event (.enqueue 0),
    .event .schedule]

/-- It is accepted both times, and runs after the tick while it stands in the queue. -/
theorem requeued_runs_and_waits :
    ∃ a, Allocator.newWith chainHash { blocks := 5, blockSize := 2 } = .ok a ∧
      (start {} a).Requeued requeuedRun 0 ∧
      let s := (start {} a).undergone requeuedRun
      s.running = [0] ∧ s.waiting = [0] ∧ s.standing 0 = 2 ∧ (s.stream 0).phase = .running := by
  have hrun : (Allocator.newWith chainHash { blocks := 5, blockSize := 2 }).toOption.map
      (fun a =>
        let s₁ := (start {} a).undergone (requeuedRun.take 2)
        let s := (start {} a).undergone requeuedRun
        (s₁.waiting, s₁.acceptedBy (.enqueue 0), s.running, s.waiting, (s.stream 0).phase))
      = some ([0], [0], [0], [0], .running) := by decide +kernel
  obtain ⟨a, hnew, hlists⟩ := Allocator.exists_newWith hrun
  simp only [Prod.mk.injEq] at hlists
  obtain ⟨hqueued, haccepted, hrunning, hwaiting, hphase⟩ := hlists
  refine ⟨a, hnew, ⟨requeuedRun.take 2, ⟨[.event .schedule], rfl⟩, ?_, ?_⟩, hrunning, hwaiting, ?_,
    hphase⟩
  · rw [hqueued]
    exact List.mem_singleton_self 0
  · rcases enqueue_spec ((start {} a).undergone (requeuedRun.take 2)) 0 with ⟨hok, -⟩ | ⟨e, herr⟩
    · exact ⟨_, hok⟩
    · rw [acceptedBy, herr] at haccepted
      simp at haccepted
  · rw [standing, hrunning, hwaiting]
    decide

end Scheduler

end PagedServe
