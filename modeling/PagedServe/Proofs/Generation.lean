/-
PagedServe/Proofs/Generation.lean

What a round of the synthetic executor does to a batch.

Each live stream is given one token and counts it, and it finishes with the last
token that it asked for or at the end token (`Stream.generated`).  A stream that
lacks tokens unless it has ended (`Stream.Pending`) is such a stream again
afterwards, and is owed one token less.

The one thing that can go wrong is that the count of tokens overflows.  The stream
then has 2 ^ 64 tokens, which no memory holds, and its request asked for them
(`Scheduler.Overlong`).
-/
import PagedServe.Executor
import PagedServe.Proofs.Books

namespace PagedServe

namespace Stream

variable {x : Stream}

/-! ### One token -/

/-- The stream counts the tokens it has, and has ended unless it lacks some of those
asked for. -/
structure Pending (x : Stream) : Prop where
  counted : x.seqLength = x.tokens.length
  lacking : x.isTerminal = false → x.output.length < x.request.maxNewTokens

/-- Tokens asked for and not generated. -/
def owed (x : Stream) : Nat := x.request.maxNewTokens - x.output.length

theorem pending_new {id : UInt64} {request : Request} {now : Nat}
    (hasked : 0 < request.maxNewTokens) : (Stream.new id request now).Pending where
  counted := by
    show request.input.length = (request.input ++ []).length
    rw [List.append_nil]
  lacking := fun _ => hasked

theorem Pending.congr {y : Stream} (hx : x.Pending) (hsame : SameTokens x y)
    (hlive : y.isTerminal = false → x.isTerminal = false) : y.Pending where
  counted := by rw [hsame.seqLength, hsame.tokens, hx.counted]
  lacking := fun hy => by
    rw [hsame.output, hsame.request]
    exact hx.lacking (hlive hy)

theorem owed_congr {y : Stream} (hsame : SameTokens x y) : y.owed = x.owed := by
  rw [owed, owed, hsame.request, hsame.output]

/-- A live stream has fewer tokens than it may come to have. -/
theorem Pending.seqLength_lt (hx : x.Pending) (hlive : x.isTerminal = false) :
    x.seqLength < x.request.input.length + x.request.maxNewTokens := by
  have hlacking := hx.lacking hlive
  rw [hx.counted, Stream.tokens, List.length_append]
  omega

/-- A stream with a token more, counted. -/
def extended (token : UInt32) (x : Stream) : Stream :=
  { x with output := x.output ++ [token], seqLength := x.seqLength + 1 }

/-- A stream with a token more that it could not count. -/
def overrun (token : UInt32) (x : Stream) : Stream := { x with output := x.output ++ [token] }

theorem append_of_lt {token : UInt32} (hroom : x.seqLength + 1 < Word.limit) :
    append token x = .ok () (x.extended token) := by
  rw [append, Word.add_eq_ok.mpr ⟨hroom, rfl⟩]
  rfl

theorem append_of_le {token : UInt32} (hfull : Word.limit ≤ x.seqLength + 1) :
    append token x = .error (.fault .overflow) (x.overrun token) := by
  have hadd : Word.add x.seqLength 1 = .error (.fault .overflow) := Word.fit_of_le hfull
  rw [append, hadd]
  rfl

/-- The token that the synthetic executor gives a stream. -/
def next (vocabulary : UInt32) (x : Stream) : UInt32 :=
  Executor.nextToken vocabulary x.id x.seqLength

/-- A stream with the next token of the synthetic executor. -/
def generated (vocabulary : UInt32) (endToken : Option UInt32) (x : Stream) : Stream :=
  if Executor.finishes endToken x (x.next vocabulary) then (x.extended (x.next vocabulary)).finish
  else x.extended (x.next vocabulary)

theorem sameTokens_generated (vocabulary : UInt32) (endToken : Option UInt32) (x : Stream) :
    SameTokens (x.extended (x.next vocabulary)) (x.generated vocabulary endToken) := by
  unfold generated
  split
  · exact sameTokens_finish _
  · exact .refl _

theorem extended_tokens (token : UInt32) (x : Stream) :
    (x.extended token).tokens = x.tokens ++ [token] := (List.append_assoc _ _ _).symm

theorem continues_generated (vocabulary : UInt32) (endToken : Option UInt32) (x : Stream) :
    Continues x (x.generated vocabulary endToken) := by
  have htokens := (sameTokens_generated vocabulary endToken x).tokens.trans (extended_tokens _ x)
  have hfinish := continues_finish (x.extended (x.next vocabulary))
  unfold generated at htokens ⊢
  split at htokens
  case isTrue h =>
    rw [if_pos h]
    exact ⟨hfinish.table, hfinish.reused, ⟨_, htokens⟩, hfinish.phase⟩
  case isFalse h =>
    rw [if_neg h]
    exact ⟨rfl, rfl, ⟨_, htokens⟩, Or.inl rfl⟩

theorem finish_isTerminal (x : Stream) : x.finish.isTerminal = true := by
  unfold finish
  split
  · assumption
  · rfl

/-- The last token asked for ends the stream. -/
theorem output_lt_of_live {vocabulary : UInt32} {endToken : Option UInt32}
    (hlacking : x.output.length < x.request.maxNewTokens)
    (hgoes : (x.generated vocabulary endToken).isTerminal = false) :
    x.output.length + 1 < x.request.maxNewTokens := by
  rcases hfinishes : Executor.finishes endToken x (x.next vocabulary) with - | -
  · rw [Executor.finishes] at hfinishes
    simp only [Bool.or_eq_false_iff, Bool.and_eq_false_iff, bne_eq_false_iff_eq,
      decide_eq_false_iff_not] at hfinishes
    omega
  · rw [generated, if_pos hfinishes, finish_isTerminal] at hgoes
    simp at hgoes

/-- The stream that was given a token lacks one less, or it has ended. -/
theorem Pending.generated (hx : x.Pending) (hlive : x.isTerminal = false) (vocabulary : UInt32)
    (endToken : Option UInt32) :
    (x.generated vocabulary endToken).Pending ∧
      (x.generated vocabulary endToken).owed < x.owed := by
  have hsame := sameTokens_generated vocabulary endToken x
  have hlength : (x.generated vocabulary endToken).output.length = x.output.length + 1 := by
    rw [hsame.output]
    exact List.length_append
  -- a live stream lacks tokens still, and this is one of them
  have hlacking := hx.lacking hlive
  refine ⟨⟨?_, fun hgoes => ?_⟩, ?_⟩
  · rw [hsame.seqLength, hsame.tokens, extended_tokens, List.length_append, ← hx.counted]
    rfl
  · rw [hlength, hsame.request]
    exact output_lt_of_live hlacking hgoes
  · rw [owed, hlength, hsame.request, owed]
    show x.request.maxNewTokens - (x.output.length + 1) < _
    omega

/-- The calls that give a live stream its token. -/
theorem advance_of_live {vocabulary : UInt32} {endToken : Option UInt32} {h : Handle}
    (hlive : x.isTerminal = false) : Executor.advance vocabulary endToken h x
      = if Executor.finishes endToken x (x.next vocabulary)
        then [(h, .append (x.next vocabulary)), (h, .finish)]
        else [(h, .append (x.next vocabulary))] := by
  rw [Executor.advance, if_neg (by simp [hlive])]
  rfl

end Stream

namespace Scheduler

variable {s : Scheduler} {h : Handle} {vocabulary : UInt32} {endToken : Option UInt32}

/-! ### The calls for one stream -/

/-- Some stream has more tokens than a number can count, and its request, one of those
given, asked for so many. -/
def Overlong (P : Request → Prop) (s : Scheduler) : Prop :=
  ∃ h, P (s.stream h).request ∧ Word.limit ≤ (s.stream h).tokens.length ∧
    (s.stream h).tokens.length ≤
      (s.stream h).request.input.length + (s.stream h).request.maxNewTokens

theorem onStream_of_ok {α : Type} {op : EStateM Failure Stream α} {r : α} {y : Stream}
    (hok : op (s.stream h) = .ok r y) : onStream h op s = .ok r (s.setStream h y) := by
  rw [onStream, hok]

theorem onStream_of_error {α : Type} {op : EStateM Failure Stream α} {e : Failure} {y : Stream}
    (herr : op (s.stream h) = .error e y) :
    onStream h op s = .error e (s.setStream h y) := by
  rw [onStream, herr]

/-- Carry out the calls of a reply. -/
abbrev carryOut (calls : List (Handle × Stream.Call)) : SchedM Unit :=
  calls.forM fun (h, c) => onStream h (Stream.call c)

theorem carryOut_cons_of_ok {c : Stream.Call} {calls : List (Handle × Stream.Call)} {y : Stream}
    (hok : Stream.call c (s.stream h) = .ok () y) :
    carryOut ((h, c) :: calls) s = carryOut calls (s.setStream h y) := by
  show (onStream h (Stream.call c) >>= fun _ => carryOut calls) s = _
  rw [bind_of_ok (onStream_of_ok hok)]

/-- The stream is given its token. -/
theorem carryOut_advance (hh : h < s.streams.size) (hlive : s.isLive h = true)
    (hroom : (s.stream h).seqLength + 1 < Word.limit) :
    carryOut (Executor.advance vocabulary endToken h (s.stream h)) s
      = .ok () (s.setStream h ((s.stream h).generated vocabulary endToken)) := by
  have happend : Stream.call (.append ((s.stream h).next vocabulary)) (s.stream h)
      = .ok () ((s.stream h).extended ((s.stream h).next vocabulary)) := Stream.append_of_lt hroom
  rw [Stream.advance_of_live (isLive_iff.mp hlive), Stream.generated]
  split
  · -- the token is the last one, so a second call ends the stream
    rw [carryOut_cons_of_ok happend, carryOut_cons_of_ok rfl, stream_setStream_self hh,
      setStream_setStream]
    rfl
  · rw [carryOut_cons_of_ok happend]
    rfl

/-- The count of tokens overflows, and whatever calls come later are not reached. -/
theorem carryOut_advance_of_full (hlive : s.isLive h = true)
    (hfull : Word.limit ≤ (s.stream h).seqLength + 1) (calls : List (Handle × Stream.Call)) :
    carryOut (Executor.advance vocabulary endToken h (s.stream h) ++ calls) s
      = .error (.fault .overflow)
          (s.setStream h ((s.stream h).overrun ((s.stream h).next vocabulary))) := by
  have hfull' : Stream.call (.append ((s.stream h).next vocabulary)) (s.stream h)
      = .error (.fault .overflow) ((s.stream h).overrun ((s.stream h).next vocabulary)) :=
    Stream.append_of_le hfull
  have happend := onStream_of_error (s := s) hfull'
  rw [Stream.advance_of_live (isLive_iff.mp hlive)]
  split
  · exact bind_of_error happend
  · exact bind_of_error happend

/-- The stream whose count overflows has more tokens than a number can count. -/
theorem carryOut_advance_overlong {P : Request → Prop} (hh : h < s.streams.size)
    (hlive : s.isLive h = true) (hp : (s.stream h).Pending) (hrequest : P (s.stream h).request)
    (hfull : Word.limit ≤ (s.stream h).seqLength + 1) (calls : List (Handle × Stream.Call)) :
    ∃ s', carryOut (Executor.advance vocabulary endToken h (s.stream h) ++ calls) s
      = .error (.fault .overflow) s' ∧ s'.Overlong P := by
  have hlength : ((s.stream h).overrun ((s.stream h).next vocabulary)).tokens.length
      = (s.stream h).seqLength + 1 := by
    show ((s.stream h).extended _).tokens.length = _
    rw [Stream.extended_tokens, List.length_append, ← hp.counted]
    rfl
  refine ⟨_, carryOut_advance_of_full hlive hfull calls, h, ?_⟩
  rw [stream_setStream_self hh, hlength]
  exact ⟨hrequest, hfull, hp.seqLength_lt (isLive_iff.mp hlive)⟩

theorem carryOut_append (calls more : List (Handle × Stream.Call)) :
    carryOut (calls ++ more) = carryOut calls >>= fun _ => carryOut more := by
  unfold carryOut
  simp only [List.forM_eq_forM, List.forM_append]

end Scheduler

end PagedServe
