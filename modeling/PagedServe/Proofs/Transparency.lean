/-
PagedServe/Proofs/Transparency.lean

Scheduling does not show in what is generated.

The synthetic executor computes a token from the id of a stream and a position, so the
tokens of a stream are the terms of a sequence (`Stream.term`), up to its `extent`.
`Stream.Follows` says that a stream has the beginning of that sequence as output, counts
it, and has finished just if there is no more to come.

A tick touches no tokens (`Shift.undisturbed`) and shows a stream to the executor once at
most (`Housed`).  So a batch gives a stream one token at most (`gains_round`), and the
token is the next one of its sequence (`Follows.generated`).  Nothing else matters: who
else is served, how often the stream is preempted, which calls of the executor fail, or
what becomes of the allocator.

Main statement: in two runs two streams with the same sequence agree as far as both have
come (`Run.outputs_agree`).
-/
import PagedServe.Proofs.Places
import PagedServe.Proofs.Generation
import PagedServe.Proofs.Drain
import Mathlib.Data.ENat.Lattice

namespace PagedServe

namespace Stream

variable (vocabulary : UInt32) (endToken : Option UInt32)

/-! ### The sequence of a stream -/

/-- The token that the synthetic executor generates as number `i` of a stream. -/
def term (x : Stream) (i : Nat) : UInt32 :=
  Executor.nextToken vocabulary x.id (x.request.input.length + i)

/-- How many tokens are generated if nothing comes in between: as many as were asked for, or
up to the first end token, whichever is less. -/
noncomputable def extent (x : Stream) : ℕ∞ :=
  min (if x.request.maxNewTokens = 0 then ⊤ else (x.request.maxNewTokens : ℕ∞))
    (⨅ (i : Nat) (_ : endToken = some (x.term vocabulary i)), (i : ℕ∞) + 1)

/-- The stream has the beginning of its sequence as output, counts it, and has finished
just if there is no more to come. -/
structure Follows (x : Stream) : Prop where
  output : x.output = (List.range x.output.length).map (x.term vocabulary)
  counted : x.seqLength = x.request.input.length + x.output.length
  within : (x.output.length : ℕ∞) ≤ x.extent vocabulary endToken
  finished : x.isFinished = true ↔ (x.output.length : ℕ∞) = x.extent vocabulary endToken

variable {vocabulary endToken} {x y : Stream}

theorem le_extent_iff {n : Nat} : (n : ℕ∞) ≤ x.extent vocabulary endToken ↔
    (x.request.maxNewTokens = 0 ∨ n ≤ x.request.maxNewTokens) ∧
      ∀ i, endToken = some (x.term vocabulary i) → n ≤ i + 1 := by
  rw [extent, le_min_iff]
  refine and_congr ?_ ?_
  · split
    case isTrue h => simp [h]
    case isFalse h => simp [h]
  · simp only [le_iInf_iff]
    exact forall₂_congr fun i _ => by exact_mod_cast Iff.rfl

theorem eq_extent_iff {n : Nat} (hn : (n : ℕ∞) ≤ x.extent vocabulary endToken) :
    (n : ℕ∞) = x.extent vocabulary endToken ↔
      ¬ ((n + 1 : Nat) : ℕ∞) ≤ x.extent vocabulary endToken := by
  rw [Nat.cast_add, Nat.cast_one, ENat.add_one_le_iff (ENat.natCast_ne_top n), not_lt]
  exact ⟨fun heq => heq.ge, fun hle => le_antisymm hn hle⟩

/-- The request asks for as much, of a stream with as long an input and the same id. -/
structure Alike (x y : Stream) : Prop where
  id : y.id = x.id
  input : y.request.input.length = x.request.input.length
  asked : y.request.maxNewTokens = x.request.maxNewTokens

theorem Alike.symm (h : Alike x y) : Alike y x := ⟨h.id.symm, h.input.symm, h.asked.symm⟩

theorem Alike.term_eq (h : Alike x y) : y.term vocabulary = x.term vocabulary := by
  funext i
  rw [term, term, h.id, h.input]

theorem Alike.extent_eq (h : Alike x y) :
    y.extent vocabulary endToken = x.extent vocabulary endToken := by
  rw [extent, extent, h.term_eq, h.asked]

theorem Undisturbed.alike (h : Undisturbed x y) : Alike x y :=
  ⟨h.id, by rw [h.request], by rw [h.request]⟩

theorem follows_new (id : UInt64) (request : Request) (now : Nat) :
    (Stream.new id request now).Follows vocabulary endToken where
  output := rfl
  counted := rfl
  within := zero_le
  finished := by
    have hmore : ((0 + 1 : Nat) : ℕ∞) ≤ (Stream.new id request now).extent vocabulary endToken := by
      refine le_extent_iff.mpr ⟨?_, fun i _ => Nat.le_add_left 1 i⟩
      exact Nat.eq_zero_or_pos _
    have hlive : (Stream.new id request now).isFinished = false := rfl
    refine ⟨fun hfinished => ?_, fun heq => absurd hmore ((eq_extent_iff zero_le).mp heq)⟩
    rw [hlive] at hfinished
    exact absurd hfinished (by decide)

theorem Follows.of_undisturbed (F : x.Follows vocabulary endToken) (h : Undisturbed x y) :
    y.Follows vocabulary endToken := by
  refine ⟨?_, ?_, ?_, ?_⟩
  · rw [h.output, h.alike.term_eq]
    exact F.output
  · rw [h.seqLength, h.request, h.output]
    exact F.counted
  · rw [h.output, h.alike.extent_eq]
    exact F.within
  · rw [h.finished, h.output, h.alike.extent_eq]
    exact F.finished

/-! ### One token more -/

theorem isFinished_of_live (hlive : x.isTerminal = false) : x.isFinished = false := by
  by_contra hfinished
  rw [Bool.not_eq_false] at hfinished
  rw [isTerminal_of_phase (eq_of_beq hfinished)] at hlive
  exact absurd hlive (by decide)

theorem isFinished_finish (hlive : x.isTerminal = false) : x.finish.isFinished = true := by
  rw [finish, if_neg (by simp [hlive])]
  rfl

/-- The last token of the sequence is the one that ends the stream. -/
theorem finishes_iff (hmore : ((x.output.length + 1 : Nat) : ℕ∞) ≤ x.extent vocabulary endToken) :
    Executor.finishes endToken x (x.term vocabulary x.output.length) = true ↔
      ((x.output.length + 1 : Nat) : ℕ∞) = x.extent vocabulary endToken := by
  obtain ⟨hasked, hends⟩ := le_extent_iff.mp hmore
  rw [eq_extent_iff hmore, le_extent_iff, not_and_or, not_or, not_forall, Executor.finishes]
  simp only [Bool.or_eq_true, Bool.and_eq_true, bne_iff_ne, decide_eq_true_eq, beq_iff_eq,
    not_le, Classical.not_imp]
  refine or_congr (and_congr_right fun _ => Nat.lt_succ_iff.symm) ⟨fun hend => ?_, ?_⟩
  · exact ⟨_, hend, Nat.lt_succ_self _⟩
  · rintro ⟨i, hend, hi⟩
    -- an earlier end token would have ended the stream before
    have hle := hends i hend
    rwa [show x.output.length = i by omega]

theorem generated_id (vocabulary : UInt32) (endToken : Option UInt32) (x : Stream) :
    (x.generated vocabulary endToken).id = x.id := by
  unfold generated finish
  split
  · split
    · rfl
    · rfl
  · rfl

theorem generated_isFinished (hlive : x.isTerminal = false) :
    (x.generated vocabulary endToken).isFinished
      = Executor.finishes endToken x (x.next vocabulary) := by
  unfold generated
  split
  case isTrue hends => exact (isFinished_finish (x := x.extended _) hlive).trans hends.symm
  case isFalse hends =>
    rw [Bool.not_eq_true] at hends
    exact (isFinished_of_live hlive).trans hends.symm

/-- A live stream that is given a token goes on in its sequence. -/
theorem Follows.generated (F : x.Follows vocabulary endToken) (hlive : x.isTerminal = false) :
    (x.generated vocabulary endToken).Follows vocabulary endToken := by
  have hsame := sameTokens_generated vocabulary endToken x
  have halike : Alike x (x.generated vocabulary endToken) :=
    ⟨generated_id vocabulary endToken x, by rw [hsame.request]; rfl, by rw [hsame.request]; rfl⟩
  have hnext : x.next vocabulary = x.term vocabulary x.output.length := by
    rw [next, term, F.counted]
  have houtput : (x.generated vocabulary endToken).output
      = x.output ++ [x.term vocabulary x.output.length] := by
    rw [hsame.output, hnext]
    rfl
  have hlength : (x.generated vocabulary endToken).output.length = x.output.length + 1 := by
    rw [houtput, List.length_append, List.length_singleton]
  -- a live stream has not finished, so there is more to come
  have hmore : ((x.output.length + 1 : Nat) : ℕ∞) ≤ x.extent vocabulary endToken := by
    by_contra hnone
    have hfinished := F.finished.mpr ((eq_extent_iff F.within).mpr hnone)
    rw [isFinished_of_live hlive] at hfinished
    exact absurd hfinished (by decide)
  refine ⟨?_, ?_, ?_, ?_⟩
  · rw [hlength, houtput, halike.term_eq, List.range_succ, List.map_append, ← F.output]
    rfl
  · rw [hsame.seqLength, hsame.request, hlength]
    exact congrArg (· + 1) F.counted
  · rw [hlength, halike.extent_eq]
    exact hmore
  · rw [generated_isFinished hlive, hnext, hlength, halike.extent_eq]
    exact finishes_iff hmore

/-- Of two streams that follow the same sequence the one with fewer tokens is behind. -/
theorem Follows.prefix_of_le (F : x.Follows vocabulary endToken) (F' : y.Follows vocabulary endToken)
    (h : Alike x y) (hle : x.output.length ≤ y.output.length) : x.output <+: y.output := by
  rw [F.output, F'.output, h.term_eq]
  refine List.IsPrefix.map _ ?_
  rw [← Nat.min_eq_left hle, ← List.take_range]
  exact List.take_prefix _ _

/-- And if both have finished, they are equally far. -/
theorem Follows.output_eq (F : x.Follows vocabulary endToken) (F' : y.Follows vocabulary endToken)
    (h : Alike x y) (hx : x.isFinished = true) (hy : y.isFinished = true) :
    x.output = y.output := by
  have hlength : (x.output.length : ℕ∞) = (y.output.length : ℕ∞) := by
    rw [F.finished.mp hx, F'.finished.mp hy, h.extent_eq]
  refine (F.prefix_of_le F' h (Nat.le_of_eq ?_)).eq_of_length ?_
  · exact_mod_cast hlength
  · exact_mod_cast hlength

/-! ### What callers may do -/

/-- The call leaves tokens, their count and the end of generation to the executor. -/
def Call.Spares : Call → Prop
  | .setReuse _ | .stop _ => True
  | .append _ | .setSeqLength _ | .finish => False

theorem Call.Spares.undisturbed {c : Call} (hc : c.Spares) (x : Stream) :
    Undisturbed x (stateAfter (call c) x) := by
  cases c with
  | setReuse on => exact ⟨⟨rfl, rfl, rfl⟩, rfl, rfl⟩
  | stop reason => exact undisturbed_stop reason x
  | append | setSeqLength | finish => exact hc.elim

/-! ### On track -/

/-- What the stream has so far follows its sequence, unless it has more tokens than a
number can count. -/
def OnTrack (vocabulary : UInt32) (endToken : Option UInt32) (x : Stream) : Prop :=
  x.tokens.length < Word.limit → x.Follows vocabulary endToken

theorem OnTrack.of_undisturbed (T : x.OnTrack vocabulary endToken) (h : Undisturbed x y) :
    y.OnTrack vocabulary endToken := fun hroom =>
  (T (h.tokens ▸ hroom)).of_undisturbed h

/-- What one batch does to a stream. -/
inductive Gains (vocabulary : UInt32) (endToken : Option UInt32) (x : Stream) : Stream → Prop
  | nothing : Gains vocabulary endToken x x
  | token (hlive : x.isTerminal = false) :
    Gains vocabulary endToken x (x.generated vocabulary endToken)
  /-- The token is added, and the count of tokens overflows. -/
  | uncounted (hfull : Word.limit ≤ x.seqLength + 1) :
    Gains vocabulary endToken x (x.overrun (x.next vocabulary))

theorem OnTrack.gains (T : x.OnTrack vocabulary endToken) (h : Gains vocabulary endToken x y) :
    y.OnTrack vocabulary endToken := by
  have hone : (x.extended (x.next vocabulary)).tokens.length = x.tokens.length + 1 := by
    rw [extended_tokens, List.length_append, List.length_singleton]
  intro hroom
  cases h with
  | nothing => exact T hroom
  | token hlive =>
    rw [(sameTokens_generated vocabulary endToken x).tokens, hone] at hroom
    exact (T (Nat.lt_of_succ_lt hroom)).generated hlive
  | uncounted hfull =>
    replace hroom : x.tokens.length + 1 < Word.limit := hone ▸ hroom
    have hcounted := (T (Nat.lt_of_succ_lt hroom)).counted
    rw [tokens, List.length_append] at hroom
    omega

end Stream

namespace Executor

variable {vocabulary : UInt32} {endToken : Option UInt32}

/-- The executor does with some of the streams of a batch what the synthetic one does,
each in its turn, and leaves the others alone.  It may report a failure or none. -/
def Synthesizes (vocabulary : UInt32) (endToken : Option UInt32) (x : Executor) : Prop :=
  ∀ n batch, ∃ part : List (Handle × Stream), part.Sublist batch ∧
    (x.process n batch).calls = part.flatMap fun (h, stream) => advance vocabulary endToken h stream

theorem synthesizes_synthetic (vocabulary : UInt32) (endToken : Option UInt32) :
    (synthetic vocabulary endToken).Synthesizes vocabulary endToken :=
  fun _ batch => ⟨batch, List.Sublist.refl _, rfl⟩

/-- Calls of it may be made to fail. -/
theorem Synthesizes.failingAt {x : Executor} (hx : x.Synthesizes vocabulary endToken)
    (calls : List Nat) (text : String) :
    (failingAt calls text x).Synthesizes vocabulary endToken := by
  intro n batch
  unfold Executor.failingAt
  dsimp only
  split
  · exact ⟨[], List.nil_sublist _, rfl⟩
  · exact hx n batch

end Executor

namespace Scheduler

variable {s t : Scheduler} {h k : Handle} {vocabulary : UInt32} {endToken : Option UInt32}

/-! ### A round of the executor -/

theorem stateAfter_onStream {α : Type} (op : EStateM Failure Stream α) :
    stateAfter (onStream k op) s = s.setStream k (stateAfter op (s.stream k)) := by
  rcases hop : op (s.stream k) with ⟨r, x⟩ | ⟨e, x⟩
  · rw [stateAfter_of_ok hop, stateAfter_of_ok (onStream_of_ok hop)]
  · rw [stateAfter_of_error hop, stateAfter_of_error (onStream_of_error hop)]

theorem size_carryOut (s : Scheduler) (calls : List (Handle × Stream.Call)) :
    (stateAfter (carryOut calls) s).streams.size = s.streams.size := by
  refine Preserves.forM (I := fun t => t.streams.size = s.streams.size) (fun c hc t ht => ?_) s rfl
  show (stateAfter (onStream c.1 (Stream.call c.2)) t).streams.size = _
  rw [stateAfter_onStream, size_setStream]
  exact ht

/-- Calls for other streams leave this one alone. -/
theorem stream_carryOut_of_ne {calls : List (Handle × Stream.Call)} (hne : ∀ c ∈ calls, c.1 ≠ h) :
    (stateAfter (carryOut calls) s).stream h = s.stream h := by
  refine Preserves.forM (I := fun t => t.stream h = s.stream h) (fun c hc t ht => ?_) s rfl
  show (stateAfter (onStream c.1 (Stream.call c.2)) t).stream h = _
  rw [stateAfter_onStream, stream_setStream_of_ne (hne c hc).symm]
  exact ht

theorem fst_of_mem_advance {x : Stream} {c : Handle × Stream.Call}
    (hc : c ∈ Executor.advance vocabulary endToken k x) : c.1 = k := by
  unfold Executor.advance at hc
  simp only at hc
  split at hc
  · cases hc
  · split at hc
    · simp only [List.mem_cons, List.not_mem_nil, or_false] at hc
      rcases hc with rfl | rfl
      · rfl
      · rfl
    · rw [List.mem_singleton.mp hc]

/-- The calls for the streams of a part of a batch. -/
abbrev roundOf (vocabulary : UInt32) (endToken : Option UInt32) (part : List (Handle × Stream)) :
    List (Handle × Stream.Call) :=
  part.flatMap fun (h, stream) => Executor.advance vocabulary endToken h stream

theorem roundOf_cons (x : Stream) (rest : List (Handle × Stream)) :
    roundOf vocabulary endToken ((k, x) :: rest)
      = Executor.advance vocabulary endToken k x ++ roundOf vocabulary endToken rest := rfl

theorem ne_of_mem_roundOf {part : List (Handle × Stream)} (hnot : h ∉ part.map Prod.fst)
    {c : Handle × Stream.Call} (hc : c ∈ roundOf vocabulary endToken part) : c.1 ≠ h := by
  obtain ⟨⟨k, x⟩, hmem, hc⟩ := List.mem_flatMap.mp hc
  rintro rfl
  rw [fst_of_mem_advance hc] at hnot
  exact hnot (List.mem_map_of_mem hmem)

/-- A stream that is in the batch once is given one token at most. -/
theorem gains_round {part : List (Handle × Stream)} (hsize : h < s.streams.size)
    (honce : (part.map Prod.fst).count h ≤ 1) (hshown : ∀ x, (h, x) ∈ part → x = s.stream h) :
    Stream.Gains vocabulary endToken (s.stream h)
      ((stateAfter (carryOut (roundOf vocabulary endToken part)) s).stream h) := by
  induction part generalizing s with
  | nil => exact .nothing
  | cons entry rest ih =>
    obtain ⟨k, x⟩ := entry
    have hlater : ∀ y, (h, y) ∈ rest → y = s.stream h :=
      fun y hy => hshown y (List.mem_cons_of_mem _ hy)
    rw [List.map_cons, List.count_cons] at honce
    rw [roundOf_cons]
    by_cases hk : k = h
    · subst hk
      obtain rfl := hshown x List.mem_cons_self
      -- the stream does not come up again
      have hnot : k ∉ rest.map Prod.fst := by
        rw [beq_self_eq_true, if_pos rfl] at honce
        exact List.count_eq_zero.mp (Nat.le_zero.mp (Nat.le_of_succ_le_succ honce))
      have hrest : ∀ t : Scheduler,
          (stateAfter (carryOut (roundOf vocabulary endToken rest)) t).stream k = t.stream k :=
        fun t => stream_carryOut_of_ne fun c hc => ne_of_mem_roundOf hnot hc
      rcases hlive : s.isLive k with - | -
      · rw [Executor.advance, if_pos (not_isLive_iff.mp hlive), List.nil_append, hrest]
        exact .nothing
      rcases Nat.lt_or_ge ((s.stream k).seqLength + 1) Word.limit with hroom | hfull
      · rw [carryOut_append, stateAfter_bind_of_ok (carryOut_advance hsize hlive hroom), hrest,
          stream_setStream_self hsize]
        exact .token (isLive_iff.mp hlive)
      · rw [stateAfter_of_error (carryOut_advance_of_full hlive hfull _),
          stream_setStream_self hsize]
        exact .uncounted hfull
    · have hsame := stream_carryOut_of_ne (s := s) (h := h)
        fun c (hc : c ∈ Executor.advance vocabulary endToken k x) => fst_of_mem_advance hc ▸ hk
      have hcount : (rest.map Prod.fst).count h ≤ 1 := Nat.le_of_add_right_le honce
      rw [carryOut_append]
      -- another stream's count may overflow, and the round ends before this one's turn
      rcases hadv : carryOut (Executor.advance vocabulary endToken k x) s with ⟨_, t⟩ | ⟨e, t⟩
      · rw [stateAfter_of_ok hadv] at hsame
        rw [stateAfter_bind_of_ok hadv, ← hsame]
        refine ih ?_ hcount fun y hy => (hlater y hy).trans hsame.symm
        exact Nat.lt_of_lt_of_eq hsize (by rw [← size_carryOut, stateAfter_of_ok hadv])
      · rw [stateAfter_of_error hadv] at hsame
        rw [stateAfter_of_error (bind_of_error hadv), hsame]
        exact .nothing

/-- The calls of an executor move no stream. -/
theorem housed_carryOut (H : s.Housed h) (calls : List (Handle × Stream.Call)) :
    (stateAfter (carryOut calls) s).Housed h := by
  refine Preserves.forM (I := fun t : Scheduler => t.Housed h) (fun c hc t ht => ?_) s H
  show (stateAfter (onStream c.1 (Stream.call c.2)) t).Housed h
  rw [stateAfter_onStream]
  exact ht.stay (ends_setStream (ends_of_continues (Stream.continues_call _ _)) h) rfl rfl
    (Nat.le_of_eq (size_setStream _ _ _).symm)

/-! ### Streams on their track -/

/-- The stream is on its track, and will be shown to the executor once at most in a tick. -/
structure Tracked (vocabulary : UInt32) (endToken : Option UInt32) (s : Scheduler) (h : Handle) :
    Prop where
  housed : s.Housed h
  onTrack : (s.stream h).OnTrack vocabulary endToken

theorem Tracked.shift (T : s.Tracked vocabulary endToken h) (hshift : Shift s t) :
    t.Tracked vocabulary endToken h :=
  ⟨hshift.housed T.housed, T.onTrack.of_undisturbed (hshift.undisturbed h)⟩

/-- The state after a part of the batch was given tokens. -/
theorem stateAfter_process (x : Executor) (n : Nat) (batch : List Handle) :
    stateAfter (process x n batch) s
      = stateAfter (carryOut (x.process n (batch.map fun h => (h, s.stream h))).calls) s := by
  unfold process
  rw [stateAfter_bind_get]
  rcases hcarry : carryOut (x.process n (batch.map fun h => (h, s.stream h))).calls s with
    ⟨_, t⟩ | ⟨e, t⟩
  · rw [stateAfter_bind_of_ok hcarry, stateAfter_of_ok hcarry]
    rfl
  · rw [stateAfter_of_error (bind_of_error hcarry), stateAfter_of_error hcarry]

theorem Tracked.process {x : Executor} (T : s.Tracked vocabulary endToken h)
    (hx : x.Synthesizes vocabulary endToken) (n : Nat) :
    (stateAfter (process x n s.running) s).Tracked vocabulary endToken h := by
  obtain ⟨part, hpart, hcalls⟩ := hx n (s.running.map fun h => (h, s.stream h))
  rw [stateAfter_process, hcalls]
  refine ⟨housed_carryOut T.housed _, ?_⟩
  have hhandles : (part.map Prod.fst).Sublist s.running := by
    simpa [Function.comp_def] using hpart.map Prod.fst
  by_cases hrun : h ∈ s.running
  · refine T.onTrack.gains (gains_round ?_ ?_ fun y hy => ?_)
    · -- a stream outside the table waits, and one in the batch does not
      by_contra hout
      have hphase := T.housed.started hrun
      rw [stream_of_le (Nat.le_of_not_lt hout)] at hphase
      exact hphase rfl
    · exact Nat.le_trans (hhandles.count_le h) T.housed.once
    · obtain ⟨k, -, heq⟩ := List.mem_map.mp (hpart.subset hy)
      cases heq
      rfl
  · rw [stream_carryOut_of_ne fun c hc =>
      ne_of_mem_roundOf (fun hmem => hrun (hhandles.subset hmem)) hc]
    exact T.onTrack

theorem Tracked.shifts (T : s.Tracked vocabulary endToken h) (hshifts : Shifts s t) :
    t.Tracked vocabulary endToken h :=
  hshifts.keeps (P := fun t => t.Tracked vocabulary endToken h) (fun hshift T => T.shift hshift) T

theorem Tracked.undergo (T : s.Tracked vocabulary endToken h) (i : Incident)
    (hspares : ∀ c, i = .event (.call h c) → c.Spares) :
    (undergo i s).Tracked vocabulary endToken h := by
  refine ⟨T.housed.undergo i, ?_⟩
  cases i with
  | memory a => exact T.onTrack
  | event e =>
    cases e with
    | register id request =>
      show (stream { s with streams := s.streams.push (Stream.new id request s.now) } h).OnTrack _ _
      by_cases hh : h = s.streams.size
      · -- the handle is the new stream's
        rw [hh, stream_push_size]
        exact fun _ => Stream.follows_new id request s.now
      · rw [stream_push hh]
        exact T.onTrack
    | enqueue k =>
      show ((perform (.enqueue k) s).stream h).OnTrack _ _
      rcases perform_enqueue s k with ⟨heq, -⟩ | heq
      · rw [heq]
        have hmarked : Stream.Undisturbed (s.stream k) ((s.stream k).markQueued s.now) :=
          ⟨⟨rfl, rfl, rfl⟩, rfl, rfl⟩
        exact T.onTrack.of_undisturbed (undisturbed_setStream hmarked h)
      · rw [heq]
        exact T.onTrack
    | schedule => exact (T.shifts (shifts_schedule s .refl)).onTrack
    | clearCache order =>
      exact (T.shifts (shifts_onAllocator (Allocator.clearCache order) s .refl)).onTrack
    | call k c =>
      show ((perform (.call k c) s).stream h).OnTrack _ _
      rw [perform_call, stream_setStream]
      split
      case isTrue hk =>
        obtain ⟨rfl, -⟩ := hk
        exact T.onTrack.of_undisturbed ((hspares c rfl).undisturbed _)
      case isFalse => exact T.onTrack
    | sleep ms => exact T.onTrack

theorem tracked_start (admission : Admission) (a : Allocator) (h : Handle) :
    (start admission a).Tracked vocabulary endToken h := by
  refine ⟨housed_start admission a h, fun _ => ?_⟩
  rw [stream_of_le (Nat.zero_le h)]
  exact Stream.follows_new _ _ _

end Scheduler

namespace Engine

variable {vocabulary : UInt32} {endToken : Option UInt32} {e : Engine} {h : Handle}

/-! ### Runs of an engine -/

/-- What happens to an engine: requests, ticks, and whatever is done to its scheduler. -/
inductive Happening where
  | submit (request : Request)
  | step
  | beside (i : Scheduler.Incident)

/-- The engine after a happening. -/
def happen : Happening → Engine → Engine
  | .submit request, e => stateAfter (submit request) e
  | .step, e => stateAfter step e
  | .beside i, e => { e with scheduler := Scheduler.undergo i e.scheduler }

/-- A run of an engine whose executor is the synthetic one, in part or in whole. -/
structure Run (vocabulary : UInt32) (endToken : Option UInt32) where
  admission : Admission
  allocator : Allocator
  executor : Executor
  synthesizes : executor.Synthesizes vocabulary endToken
  history : List Happening

namespace Run

/-- The engine at the end of the run. -/
def engine (r : Run vocabulary endToken) : Engine :=
  r.history.foldl (fun e x => happen x e)
    (ofScheduler (Scheduler.start r.admission r.allocator) r.executor)

/-- A stream at the end of the run. -/
def stream (r : Run vocabulary endToken) (h : Handle) : Stream := r.engine.scheduler.stream h

/-- All calls of the stream by others than the executor leave tokens, their count and the
end of generation alone. -/
def Spares (r : Run vocabulary endToken) (h : Handle) : Prop :=
  ∀ c, .beside (.event (.call h c)) ∈ r.history → c.Spares

end Run

/-- The stream is on its track, and stays there as far as the executor goes. -/
def Tracked (vocabulary : UInt32) (endToken : Option UInt32) (e : Engine) (h : Handle) : Prop :=
  e.scheduler.Tracked vocabulary endToken h ∧ e.executor.Synthesizes vocabulary endToken

theorem stateAfter_onScheduler {α : Type} (x : SchedM α) :
    stateAfter (onScheduler x) e = { e with scheduler := stateAfter x e.scheduler } := by
  rcases hx : x e.scheduler with ⟨r, s⟩ | ⟨f, s⟩
  · rw [stateAfter_of_ok hx, stateAfter_of_ok (onScheduler_of_ok hx)]
  · rw [stateAfter_of_error hx, stateAfter_of_error (onScheduler_of_error hx)]

/-- A failure of the executor stops the streams of the batch. -/
theorem tracked_stop (reason : StopReason) (k : Handle) :
    Preserves (fun e : Engine => e.Tracked vocabulary endToken h)
      (onScheduler (Scheduler.update k (Stream.stop reason))) := by
  intro e T
  rw [stateAfter_onScheduler]
  exact ⟨T.1.shift (.touch (Stream.undisturbed_stop _ _) (Or.inr (Stream.stop_isTerminal _ _))), T.2⟩

theorem Tracked.process (T : e.Tracked vocabulary endToken h) :
    (stateAfter (process e.scheduler.running) e).Tracked vocabulary endToken h := by
  unfold Engine.process
  rw [stateAfter_bind_get, stateAfter_bind_set]
  refine stateAfter_bind (I := fun e : Engine => e.Tracked vocabulary endToken h) ?_ fun answer => ?_
  · rw [stateAfter_onScheduler]
    exact ⟨T.1.process T.2 e.calls, T.2⟩
  · cases answer with
    | none => exact Preserves.pure ()
    | some cause => exact Preserves.forM fun k _ => tracked_stop _ k

theorem Tracked.step (T : e.Tracked vocabulary endToken h) :
    (stateAfter step e).Tracked vocabulary endToken h := by
  have hshifts := Scheduler.shifts_schedule (s := e.scheduler) e.scheduler .refl
  rcases hok : Scheduler.schedule e.scheduler with ⟨batch, s⟩ | ⟨f, s⟩
  · rw [stateAfter_of_ok hok] at hshifts
    have T₁ : Tracked vocabulary endToken { e with scheduler := s } h := ⟨T.1.shifts hshifts, T.2⟩
    by_cases hempty : batch = []
    · -- nothing to compute
      subst hempty
      obtain ⟨stats, hstep⟩ := step_of_empty hok
      rw [stateAfter_of_ok hstep]
      exact T₁
    · -- the executor has its turn, and what it has done stays if it fails
      have hbatch : batch = s.running := Scheduler.schedule_batch hok
      have T₂ := T₁.process
      rw [← hbatch] at T₂
      rcases hround : Engine.process batch { e with scheduler := s } with ⟨_, e₂⟩ | ⟨f, e₂⟩
      · obtain ⟨stats, hstep⟩ := step_of_process hok hempty hround
        rw [stateAfter_of_ok hround] at T₂
        rw [stateAfter_of_ok hstep]
        exact T₂
      · rw [stateAfter_of_error hround] at T₂
        rw [stateAfter_of_error (step_of_process_error hok hempty hround)]
        exact T₂
  · -- the tick itself failed, and the shifts up to there stay
    rw [stateAfter_of_error hok] at hshifts
    unfold Engine.step
    rw [stateAfter_of_error (bind_of_error (onScheduler_of_error hok))]
    exact ⟨T.1.shifts hshifts, T.2⟩

/-- A request that is accepted becomes a stream of the queue; one that is refused leaves
nothing behind. -/
theorem stateAfter_submit (request : Request) :
    stateAfter (submit request) e = { e with nextId := e.nextId + 1 } ∨
      stateAfter (submit request) e = { e with
        nextId := e.nextId + 1
        scheduler := Scheduler.undergo (.event (.enqueue e.scheduler.streams.size))
          (Scheduler.undergo (.event (.register e.nextId request)) e.scheduler) } := by
  have hregister : onScheduler (Scheduler.register e.nextId request)
      { e with nextId := e.nextId + 1 } = .ok e.scheduler.streams.size { e with
        nextId := e.nextId + 1
        scheduler := Scheduler.undergo (.event (.register e.nextId request)) e.scheduler } := rfl
  unfold submit
  rw [stateAfter_bind_get, stateAfter_bind_set, stateAfter_bind_of_ok hregister]
  rcases Scheduler.enqueue_spec (Scheduler.undergo (.event (.register e.nextId request)) e.scheduler)
    e.scheduler.streams.size with ⟨hok, -⟩ | ⟨f, herr⟩
  · -- accepted
    refine Or.inr ?_
    rw [stateAfter_bind_of_ok (tryCatch_of_ok (onScheduler_of_ok hok))]
    show { e with nextId := _, scheduler := _ } = { e with
      nextId := e.nextId + 1
      scheduler := stateAfter (Scheduler.enqueue e.scheduler.streams.size)
        (Scheduler.undergo (.event (.register e.nextId request)) e.scheduler) }
    rw [stateAfter_of_ok hok]
  · -- refused: the table is put back, but the id is gone
    have hfail := onScheduler_of_error (e := { e with
      nextId := e.nextId + 1
      scheduler := Scheduler.undergo (.event (.register e.nextId request)) e.scheduler }) herr
    refine Or.inl (stateAfter_of_error (e := f) (bind_of_error ?_))
    exact (tryCatch_of_error hfail).trans rfl

theorem Tracked.happen (T : e.Tracked vocabulary endToken h) (x : Happening)
    (hspares : ∀ c, x = .beside (.event (.call h c)) → c.Spares) :
    (happen x e).Tracked vocabulary endToken h := by
  cases x with
  | submit request =>
    show (stateAfter (submit request) e).Tracked vocabulary endToken h
    rcases stateAfter_submit (e := e) request with heq | heq
    · rw [heq]
      exact T
    · rw [heq]
      have T₁ := T.1.undergo (.event (.register e.nextId request)) (by simp)
      exact ⟨T₁.undergo (.event (.enqueue e.scheduler.streams.size)) (by simp), T.2⟩
  | step => exact T.step
  | beside i => exact ⟨T.1.undergo i fun c hc => hspares c (hc ▸ rfl), T.2⟩

namespace Run

theorem tracked (r : Run vocabulary endToken) (hspared : r.Spares h) :
    r.engine.Tracked vocabulary endToken h := by
  -- the executor stays the same, so it is part of what the induction carries
  have hkeep : ∀ history : List Happening,
      (∀ c, .beside (.event (.call h c)) ∈ history → c.Spares) → ∀ e : Engine,
        e.Tracked vocabulary endToken h →
          (history.foldl (fun e x => happen x e) e).Tracked vocabulary endToken h := by
    intro history hhistory
    induction history with
    | nil => exact fun e T => T
    | cons x rest ih =>
      intro e T
      exact ih (fun c hc => hhistory c (List.mem_cons_of_mem x hc)) _
        (T.happen x fun c hc => hhistory c (hc ▸ List.mem_cons_self))
  exact hkeep r.history hspared _
    ⟨Scheduler.tracked_start r.admission r.allocator h, r.synthesizes⟩

/-- Whatever happens around it, a stream whose tokens, count and end of generation are left
to the executor has at any moment the beginning of its sequence as output, counts it, never
goes past its extent, and has finished just if it has all of it.  So two such streams with the
same id, as long an input and the same number of tokens asked for, in two runs that share
nothing but the vocabulary and the end token, agree as far as both have come; and if both
have finished, their outputs are the same.

A stream with 2 ^ 64 tokens cannot be counted. -/
theorem outputs_agree (r r' : Run vocabulary endToken) {h h' : Handle} (hspared : r.Spares h)
    (hspared' : r'.Spares h') (hroom : (r.stream h).tokens.length < Word.limit)
    (hroom' : (r'.stream h').tokens.length < Word.limit) :
    (r.stream h).Follows vocabulary endToken ∧
    (Stream.Alike (r.stream h) (r'.stream h') →
      ((r.stream h).output <+: (r'.stream h').output ∨
        (r'.stream h').output <+: (r.stream h).output) ∧
      ((r.stream h).isFinished = true → (r'.stream h').isFinished = true →
        (r.stream h).output = (r'.stream h').output)) := by
  -- each stream follows its own sequence, and the two sequences are one
  have F : (r.stream h).Follows vocabulary endToken := (r.tracked hspared).1.onTrack hroom
  have F' : (r'.stream h').Follows vocabulary endToken := (r'.tracked hspared').1.onTrack hroom'
  refine ⟨F, fun halike => ⟨?_, F.output_eq F' halike⟩⟩
  rcases Nat.le_total (r.stream h).output.length (r'.stream h').output.length with hle | hle
  · exact Or.inl (F.prefix_of_le F' halike hle)
  · exact Or.inr (F'.prefix_of_le F halike.symm hle)

/-- Two requests that have room for five of their ten tokens at first, so the second stream is
preempted. -/
def preempted (a : Allocator) : Run 100 none where
  admission := {}
  allocator := a
  executor := Executor.synthetic 100 none
  synthesizes := Executor.synthesizes_synthetic 100 none
  history := [.submit { input := [1, 2, 3], maxNewTokens := 3 },
    .submit { input := [4, 5, 6], maxNewTokens := 4 }, .step, .step, .step, .step, .step]

/-- Its second stream has a double, with other tokens and with other company, that is stopped
when the executor fails. -/
def cutShort (a : Allocator) : Run 100 none where
  admission := {}
  allocator := a
  executor := Executor.failingAt [2] "lost" (Executor.synthetic 100 none)
  synthesizes := (Executor.synthesizes_synthetic 100 none).failingAt [2] "lost"
  history := [.submit { input := [7] }, .submit { input := [9, 9, 9], maxNewTokens := 4 },
    .step, .step, .beside (.event (.call 1 (.setReuse true))), .step]

theorem outputs_agree_preempted :
    ∃ a a', Allocator.newWith chainHash { blocks := 5, blockSize := 2 } = .ok a ∧
      Allocator.newWith chainHash { blocks := 20, blockSize := 4 } = .ok a' ∧
      let x := (preempted a).stream 1
      let y := (cutShort a').stream 1
      x.output = [47, 78, 9, 40] ∧ y.output = [47, 78] ∧ x.Follows 100 none ∧
      (x.output <+: y.output ∨ y.output <+: x.output) := by
  have hrun : (Allocator.newWith chainHash { blocks := 5, blockSize := 2 }).toOption.map
      (fun a =>
        let x := (preempted a).stream 1
        (x.output, x.id, x.request.input.length, x.request.maxNewTokens))
      = some ([47, 78, 9, 40], 2, 3, 4) := by decide +kernel
  have hrun' : (Allocator.newWith chainHash { blocks := 20, blockSize := 4 }).toOption.map
      (fun a =>
        let y := (cutShort a).stream 1
        (y.output, y.id, y.request.input.length, y.request.maxNewTokens))
      = some ([47, 78], 2, 3, 4) := by decide +kernel
  obtain ⟨a, hnew, hx⟩ := Allocator.exists_newWith hrun
  obtain ⟨a', hnew', hy⟩ := Allocator.exists_newWith hrun'
  simp only [Prod.mk.injEq] at hx hy
  obtain ⟨houtput, hid, hinput, hasked⟩ := hx
  obtain ⟨houtput', hid', hinput', hasked'⟩ := hy
  have hspared : (preempted a).Spares 1 := fun c hc => by simp [preempted] at hc
  have hspared' : (cutShort a').Spares 1 := fun c hc => by
    simp only [cutShort, List.mem_cons, reduceCtorEq, Happening.beside.injEq,
      Scheduler.Incident.event.injEq, Scheduler.Event.call.injEq, true_and, List.not_mem_nil,
      or_false, false_or] at hc
    rw [hc]
    trivial
  have hroom : ((preempted a).stream 1).tokens.length < Word.limit := by
    rw [Stream.tokens, List.length_append, houtput, hinput]
    decide
  have hroom' : ((cutShort a').stream 1).tokens.length < Word.limit := by
    rw [Stream.tokens, List.length_append, houtput', hinput']
    decide
  obtain ⟨hfollows, hagree⟩ :=
    outputs_agree (preempted a) (cutShort a') hspared hspared' hroom hroom'
  refine ⟨a, a', hnew, hnew', houtput, houtput', hfollows, (hagree ⟨?_, ?_, ?_⟩).1⟩
  · rw [hid, hid']
  · rw [hinput, hinput']
  · rw [hasked, hasked']

end Run

end Engine

end PagedServe
