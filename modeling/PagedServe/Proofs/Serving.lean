/-
PagedServe/Proofs/Serving.lean

What keeps a scheduler going until all its requests are served.

`Serving` says that every stream of the table was accepted once, for one of the
requests given, counts its tokens, lacks some of those asked for unless it has ended,
and can be served: its request fits the pool, or the fallback is on.  Accepted
requests, ticks and rounds of the synthetic executor keep it.

What goes down is the number of tokens that the streams still lack (`owed`), since a
tick does not change it and a round takes one off for each stream of the batch
(`Serving.tick`, `Serving.process`).  The queue is no measure: a stream that is
preempted waits again.

A tick without a batch leaves nobody waiting, for the head of the queue could only be
too large for the pool (`Serving.drained`).
-/
import PagedServe.Proofs.Generation
import PagedServe.Proofs.Fifo
import PagedServe.Proofs.Fallback
import Mathlib.Algebra.Order.BigOperators.Group.Finset

namespace PagedServe

namespace Scheduler

variable {P : Request → Prop} {s s' : Scheduler} {h : Handle}

/-! ### Requests that fit -/

/-- The pool can hold all that a request may come to. -/
def Fits (s : Scheduler) (request : Request) : Prop :=
  ∃ need, blocksFor (request.input.length + request.maxNewTokens) s.blockSize = .ok need ∧
    need ≤ s.allocator.pool.usable

theorem fits_congr (B : s.Books) (B' : s'.Books)
    (hshape : Allocator.SameShape s.allocator s'.allocator) (request : Request) :
    s'.Fits request ↔ s.Fits request := by
  obtain ⟨hsize, husable⟩ := B.sameRoom B' hshape
  rw [Fits, Fits, hsize, husable]

/-- A live stream of such a request is not too large. -/
theorem Fits.not_oversized (hfits : s.Fits (s.stream h).request) (B : s.Books)
    (hp : (s.stream h).Pending) (hlive : s.isLive h = true) : ¬ s.Oversized h := by
  rintro ⟨n, hn, hlt⟩
  obtain ⟨need, hneed, hle⟩ := hfits
  have hlength := hp.seqLength_lt (isLive_iff.mp hlive)
  rw [← hp.counted, Nat.max_self, blocksFor_eq_ok _ B.blockSize_pos] at hn
  rw [blocksFor_eq_ok _ B.blockSize_pos] at hneed
  have hmono : n ≤ need := by
    rw [← Except.ok.inj hn, ← Except.ok.inj hneed]
    exact Nat.div_le_div_right (by omega)
  omega

/-- A stream of such a request does not wait for good. -/
def Servable (s : Scheduler) (request : Request) : Prop :=
  s.admission.fallback = true ∨ s.Fits request

theorem Servable.not_stuck (hservable : s.Servable (s.stream h).request) (B : s.Books)
    (hp : (s.stream h).Pending) (hlive : s.isLive h = true) :
    ¬ (s.Oversized h ∧ s.admission.fallback = false) := by
  rintro ⟨hover, hoff⟩
  rcases hservable with hon | hfits
  · rw [hon] at hoff
    simp at hoff
  · exact hfits.not_oversized B hp hlive hover

/-! ### What is kept -/

/-- Every stream of the table was accepted once, for one of the requests given, and
lacks tokens unless it has ended. -/
structure Serving (P : Request → Prop) (s : Scheduler) : Prop where
  books : s.Books
  named : s.Named
  fifo : Fifo (List.range s.streams.size) s
  pending : ∀ h < s.streams.size, (s.stream h).Pending
  servable : ∀ h < s.streams.size, s.Servable (s.stream h).request
  asked : ∀ h < s.streams.size, P (s.stream h).request

/-- Tokens asked for and not generated. -/
def owed (s : Scheduler) : Nat := ∑ h ∈ Finset.range s.streams.size, (s.stream h).owed

theorem owed_congr (hsize : s'.streams.size = s.streams.size)
    (hsame : ∀ h, Stream.SameTokens (s.stream h) (s'.stream h)) : s'.owed = s.owed := by
  rw [owed, owed, hsize]
  exact Finset.sum_congr rfl fun h _ => Stream.owed_congr (hsame h)

/-- A stream that is owed less lowers the sum. -/
theorem owed_setStream {x : Stream} (hh : h < s.streams.size) (hx : x.owed < (s.stream h).owed) :
    (s.setStream h x).owed < s.owed := by
  rw [owed, owed, size_setStream]
  refine Finset.sum_lt_sum (fun k _ => ?_) ⟨h, Finset.mem_range.mpr hh, ?_⟩
  · by_cases hk : k = h
    · rw [hk, stream_setStream_self hh]
      exact Nat.le_of_lt hx
    · rw [stream_setStream_of_ne hk]
  · rw [stream_setStream_self hh]
    exact hx

/-- What holds of every stream of the table and of the one put back. -/
theorem forall_lt_setStream {Q : Stream → Prop} {x : Stream}
    (hs : ∀ k < s.streams.size, Q (s.stream k)) (hx : Q x) :
    ∀ k < (s.setStream h x).streams.size, Q ((s.setStream h x).stream k) := by
  intro k hk
  rw [size_setStream] at hk
  rw [stream_setStream]
  split
  · exact hx
  · exact hs k hk

namespace Serving

variable (S : s.Serving P)

include S

/-- A stream is put back later on, for the same request. -/
theorem setStream {x : Stream} (hh : h < s.streams.size) (hx : Stream.Continues (s.stream h) x)
    (hrequest : x.request = (s.stream h).request) (hp : x.Pending) :
    (s.setStream h x).Serving P where
  books := S.books.setStream hx
  named := S.named.touch S.books hx (S.books.setStream hx) (.refl _) (.refl _)
  fifo := by
    rw [size_setStream]
    exact S.fifo.stay (ends_setStream (ends_of_continues hx)) rfl rfl
  pending := forall_lt_setStream S.pending hp
  servable := forall_lt_setStream (Q := fun y => s.Servable y.request) S.servable
    (hrequest ▸ S.servable h hh)
  asked := forall_lt_setStream (Q := fun y => P y.request) S.asked (hrequest ▸ S.asked h hh)

theorem sleep (ms : Nat) : Serving P { s with now := s.now + ms } where
  books := (Step.sleep s ms).books S.books
  named := (Step.sleep s ms).named S.books S.named
  fifo := S.fifo.stay (fun _ => Or.inl rfl) rfl rfl
  pending := S.pending
  servable := S.servable
  asked := S.asked

/-- A tick generates nothing. -/
theorem tick {s₁ s₂ s₃ : Scheduler} (T : Tick s s₁ s₂ s₃ s') : s'.Serving P ∧ s'.owed = s.owed := by
  obtain ⟨hsame, hsize, hshape⟩ := T.frame S.books
  obtain ⟨B', N'⟩ := T.keeps (fun _ hstep B N => hstep.named B N) S.books S.named
  have hadmission := (T.keeps (P := fun t => t.admission = s.admission)
    (fun _ hstep _ ht => hstep.admission_eq.trans ht) S.books rfl).2
  refine ⟨⟨B', N', ?_, fun h hh => ?_, fun h hh => ?_, fun h hh => ?_⟩, owed_congr hsize hsame⟩
  · rw [hsize]
    exact T.fifo S.books S.fifo
  · -- what is live after the tick was so before, and has as many tokens
    apply (S.pending h (hsize ▸ hh)).congr (hsame h)
    intro hgoes
    exact isLive_iff.mp (T.isLive_of S.books (isLive_iff.mpr hgoes))
  · rw [Servable, hadmission, (hsame h).request, fits_congr S.books B' hshape]
    exact S.servable h (hsize ▸ hh)
  · rw [(hsame h).request]
    exact S.asked h (hsize ▸ hh)

/-- A tick without a batch leaves nobody waiting. -/
theorem drained {s₁ s₂ s₃ : Scheduler} (T : Tick s s₁ s₂ s₃ s') (hnone : s'.running = []) :
    s'.waiting = [] := by
  rcases hwait : s'.waiting with - | ⟨h, rest⟩
  · rfl
  · -- the head of the queue is live and can be served, so it is not held up for good
    have S' := (S.tick T).1
    have hmem : h ∈ s'.waiting := hwait ▸ List.mem_cons_self
    have hh := S'.books.queued h hmem
    have hlive := T.live_all S.books S.fifo h (List.mem_append_right _ hmem)
    exact absurd (T.stuck S.books S.named hnone hwait)
      ((S'.servable h hh).not_stuck S'.books (S'.pending h hh) hlive)

/-- If nobody waits or runs, everybody has ended. -/
theorem ended (hfinished : s.hasUnfinished = false) :
    ∀ h < s.streams.size, (s.stream h).isTerminal = true := by
  intro h hh
  have hlists : s.waiting = [] ∧ s.running = [] := by simpa [hasUnfinished] using hfinished
  have horder := S.fifo.order
  rw [hlists.1, hlists.2] at horder
  have hdead := List.filter_eq_nil_iff.mp horder.symm h (List.mem_range.mpr hh)
  exact not_isLive_iff.mp (by simpa using hdead)

/-- The calls for a batch, made up from the streams of `s₀`.  Everybody is given a
token, unless the count of one overflows. -/
theorem generate {s₀ : Scheduler} {vocabulary : UInt32} {endToken : Option UInt32}
    {batch : List Handle} (hd : batch.Nodup)
    (hseen : ∀ h ∈ batch, s₀.stream h = s.stream h ∧ s.isLive h = true ∧ h < s.streams.size) :
    (∃ s', carryOut (batch.flatMap fun h =>
        Executor.advance vocabulary endToken h (s₀.stream h)) s = .ok () s' ∧ s'.Serving P ∧
        s'.streams.size = s.streams.size ∧ s'.owed + batch.length ≤ s.owed) ∨
      ∃ s', carryOut (batch.flatMap fun h =>
        Executor.advance vocabulary endToken h (s₀.stream h)) s = .error (.fault .overflow) s' ∧
        s'.Overlong P := by
  induction batch generalizing s with
  | nil => exact Or.inl ⟨s, rfl, S, rfl, Nat.le_refl _⟩
  | cons h batch ih =>
    obtain ⟨hsame, hlive, hh⟩ := hseen h List.mem_cons_self
    obtain ⟨hnot, hd⟩ := List.nodup_cons.mp hd
    have hp := S.pending h hh
    rw [List.flatMap_cons, hsame]
    rcases Nat.lt_or_ge ((s.stream h).seqLength + 1) Word.limit with hroom | hfull
    · rw [carryOut_append, bind_of_ok (carryOut_advance hh hlive hroom)]
      obtain ⟨hp', hless⟩ := hp.generated (isLive_iff.mp hlive) vocabulary endToken
      have S' := S.setStream hh (Stream.continues_generated vocabulary endToken _)
        (Stream.sameTokens_generated vocabulary endToken _).request hp'
      have howed := owed_setStream hh hless
      -- the later streams of the batch are still as the executor saw them
      have hlater : ∀ k ∈ batch, k ≠ h := fun k hk he => hnot (he ▸ hk)
      have hseen' := fun k hk => hseen k (List.mem_cons_of_mem h hk)
      rcases ih S' hd (fun k hk => by
        rw [isLive, stream_setStream_of_ne (hlater k hk), size_setStream]
        exact hseen' k hk) with ⟨s', hok, hs', hsize, hle⟩ | herr
      · refine Or.inl ⟨s', hok, hs', hsize.trans (size_setStream _ _ _), ?_⟩
        rw [List.length_cons]
        omega
      · exact Or.inr herr
    · -- the round breaks off at this stream
      exact Or.inr (carryOut_advance_overlong hh hlive hp (S.asked h hh) hfull _)

/-- A round of the executor. -/
theorem process (vocabulary : UInt32) (endToken : Option UInt32) (call : Nat)
    (hlive : ∀ h ∈ s.running, s.isLive h = true) :
    (∃ s', Scheduler.process (Executor.synthetic vocabulary endToken) call s.running s
        = .ok none s' ∧ s'.Serving P ∧ s'.streams.size = s.streams.size ∧
        s'.owed + s.running.length ≤ s.owed) ∨
      ∃ s', Scheduler.process (Executor.synthetic vocabulary endToken) call s.running s
        = .error (.fault .overflow) s' ∧ s'.Overlong P := by
  have hcalls : ((Executor.synthetic vocabulary endToken).process call
      (s.running.map fun h => (h, s.stream h))).calls
      = s.running.flatMap fun h => Executor.advance vocabulary endToken h (s.stream h) :=
    List.flatMap_map _ _ _
  have hseen : ∀ h ∈ s.running, s.stream h = s.stream h ∧ s.isLive h = true ∧
      h < s.streams.size := fun h hh => ⟨rfl, hlive h hh, S.books.known h hh⟩
  -- each stream of the batch gains a token, unless a count overflows
  rcases S.generate S.books.nodup hseen with ⟨s', hok, hs'⟩ | ⟨s', herr, hs'⟩
  · refine Or.inl ⟨s', ?_, hs'⟩
    rw [← hcalls] at hok
    unfold Scheduler.process
    rw [bind_get, bind_of_ok hok]
    rfl
  · refine Or.inr ⟨s', ?_, hs'⟩
    rw [← hcalls] at herr
    unfold Scheduler.process
    rw [bind_get, bind_of_error herr]

end Serving

/-! ### Requests that are accepted -/

/-- The scheduler with a stream for a request at the end of the queue. -/
def withRequest (id : UInt64) (request : Request) (s : Scheduler) : Scheduler :=
  let s₁ := { s with streams := s.streams.push (Stream.new id request s.now) }
  { s₁.setStream s.streams.size ((s₁.stream s.streams.size).markQueued s.now) with
    waiting := s.waiting ++ [s.streams.size] }

theorem withRequest_size (id : UInt64) (request : Request) (s : Scheduler) :
    (s.withRequest id request).streams.size = s.streams.size + 1 :=
  (size_setStream _ _ _).trans (Array.size_push _)

theorem withRequest_stream_self (id : UInt64) (request : Request) (s : Scheduler) :
    (s.withRequest id request).stream s.streams.size = Stream.new id request s.now := by
  refine (stream_setStream_self ?_).trans ?_
  · rw [Array.size_push]
    exact Nat.lt_succ_self _
  · rw [stream_push_size]
    rfl

theorem withRequest_stream {id : UInt64} {request : Request} {k : Handle}
    (hk : k < s.streams.size) : (s.withRequest id request).stream k = s.stream k :=
  (stream_setStream_of_ne (Nat.ne_of_lt hk)).trans (stream_push (Nat.ne_of_lt hk))

/-- What holds of every stream of the table and of the new one. -/
theorem forall_lt_withRequest {Q : Stream → Prop} {id : UInt64} {request : Request}
    (hs : ∀ k < s.streams.size, Q (s.stream k)) (hnew : Q (Stream.new id request s.now)) :
    ∀ k < (s.withRequest id request).streams.size, Q ((s.withRequest id request).stream k) := by
  intro k hk
  rw [withRequest_size] at hk
  rcases Nat.lt_succ_iff_lt_or_eq.mp hk with hlt | rfl
  · rw [withRequest_stream hlt]
    exact hs k hlt
  · rw [withRequest_stream_self]
    exact hnew

theorem withRequest_owed (id : UInt64) (request : Request) (s : Scheduler) :
    (s.withRequest id request).owed = s.owed + request.maxNewTokens := by
  rw [owed, withRequest_size, Finset.sum_range_succ, withRequest_stream_self]
  refine congrArg (· + _) (Finset.sum_congr rfl fun k hk => ?_)
  rw [withRequest_stream (Finset.mem_range.mp hk)]

theorem Serving.withRequest (S : s.Serving P) (id : UInt64) {request : Request}
    (hlacking : 0 < request.maxNewTokens) (hservable : s.Servable request)
    (hasked : P request) : (s.withRequest id request).Serving P := by
  -- the stream enters the table, and then the queue
  have hregister := Step.register s id request
  have B₁ := hregister.books S.books
  have F₁ := fifo_perform S.books S.fifo (.register id request)
    (by rw [show s.acceptedBy _ = [] from rfl, List.append_nil]; exact List.nodup_range)
  have hsize : s.streams.size < (s.streams.push (Stream.new id request s.now)).size := by
    rw [Array.size_push]
    exact Nat.lt_succ_self _
  have hphase : (stream { s with streams := s.streams.push (Stream.new id request s.now) }
      s.streams.size).phase = .waiting := by
    rw [stream_push_size]
    rfl
  have henqueue := Step.enqueue hsize hphase
  refine ⟨henqueue.books B₁, henqueue.named B₁ (hregister.named S.books S.named), ?_,
    forall_lt_withRequest S.pending (Stream.pending_new hlacking),
    forall_lt_withRequest (Q := fun y => s.Servable y.request) S.servable hservable,
    forall_lt_withRequest (Q := fun y => P y.request) S.asked hasked⟩
  rw [show s.acceptedBy _ = [] from rfl, List.append_nil] at F₁
  rw [withRequest_size, List.range_succ]
  apply F₁.enqueue hsize hphase
  rw [List.mem_range]
  exact Nat.lt_irrefl _

theorem serving_start {hash : ChainHash} {g : Geometry} {a : Allocator}
    (hnew : Allocator.newWith hash g = .ok a) (admission : Admission) :
    (start admission a).Serving P where
  books := books_start hnew admission
  named := named_start admission hnew
  fifo := fifo_start admission a
  pending := fun h hh => absurd hh (Nat.not_lt_zero h)
  servable := fun h hh => absurd hh (Nat.not_lt_zero h)
  asked := fun h hh => absurd hh (Nat.not_lt_zero h)

end Scheduler

end PagedServe
