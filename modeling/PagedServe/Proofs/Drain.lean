/-
PagedServe/Proofs/Drain.lean

An engine that is drained comes to its end.

Requests are submitted to a new engine (`Serves.submitEach`), which then ticks while
streams are unfinished.  Each tick but the last lowers the number of tokens that the
streams lack, and a tick that does not is followed by none (`Serves.step`).  So there
are no more ticks than tokens asked for, and one.  Time may pass as it likes.
-/
import PagedServe.Engine
import PagedServe.Proofs.Serving

namespace PagedServe

namespace Engine

variable {P : Request → Prop} {e e' : Engine} {vocabulary : UInt32} {endToken : Option UInt32}
  {n m : Nat}

/-! ### One tick of the engine -/

theorem onScheduler_of_ok {α : Type} {x : SchedM α} {r : α} {s : Scheduler}
    (hok : x e.scheduler = .ok r s) : onScheduler x e = .ok r { e with scheduler := s } := by
  rw [onScheduler, hok]

theorem onScheduler_of_error {α : Type} {x : SchedM α} {f : Failure} {s : Scheduler}
    (herr : x e.scheduler = .error f s) : onScheduler x e = .error f { e with scheduler := s } := by
  rw [onScheduler, herr]

theorem process_of_ok {batch : List Handle} {s : Scheduler}
    (hok : Scheduler.process e.executor e.calls batch e.scheduler = .ok none s) :
    process batch e = .ok () { e with calls := e.calls + 1, scheduler := s } := by
  unfold process
  rw [bind_get, bind_set, bind_of_ok (onScheduler_of_ok (e := { e with calls := e.calls + 1 }) hok)]
  rfl

theorem process_of_error {batch : List Handle} {f : Failure} {s : Scheduler}
    (herr : Scheduler.process e.executor e.calls batch e.scheduler = .error f s) :
    process batch e = .error f { e with calls := e.calls + 1, scheduler := s } := by
  unfold process
  rw [bind_get, bind_set,
    bind_of_error (onScheduler_of_error (e := { e with calls := e.calls + 1 }) herr)]

theorem step_of_empty {s : Scheduler} (hschedule : Scheduler.schedule e.scheduler = .ok [] s) :
    ∃ stats, step e = .ok stats { e with scheduler := s, lastStats := stats } := by
  refine ⟨⟨0, s.waiting.length, s.allocator.usedRatio⟩, ?_⟩
  unfold step
  rw [bind_of_ok (onScheduler_of_ok hschedule)]
  rfl

theorem step_of_process {batch : List Handle} {s : Scheduler} {e₁ : Engine}
    (hschedule : Scheduler.schedule e.scheduler = .ok batch s) (hbatch : batch ≠ [])
    (hround : process batch { e with scheduler := s } = .ok () e₁) :
    ∃ stats, step e = .ok stats { e₁ with lastStats := stats } := by
  refine ⟨⟨batch.length, s.waiting.length, e₁.scheduler.allocator.usedRatio⟩, ?_⟩
  unfold step
  rw [bind_of_ok (onScheduler_of_ok hschedule), bind_get,
    if_neg (fun hempty => hbatch (List.isEmpty_iff.mp hempty)), bind_of_ok hround]
  rfl

theorem step_of_process_error {batch : List Handle} {s : Scheduler} {e₁ : Engine} {f : Failure}
    (hschedule : Scheduler.schedule e.scheduler = .ok batch s) (hbatch : batch ≠ [])
    (hround : process batch { e with scheduler := s } = .error f e₁) : step e = .error f e₁ := by
  unfold step
  rw [bind_of_ok (onScheduler_of_ok hschedule), bind_get,
    if_neg (fun hempty => hbatch (List.isEmpty_iff.mp hempty)), bind_of_error hround]

/-- The engine serves `n` streams that lack `m` tokens, with the synthetic executor. -/
structure Serves (P : Request → Prop) (vocabulary : UInt32) (endToken : Option UInt32)
    (n m : Nat) (e : Engine) : Prop where
  executor : e.executor = Executor.synthetic vocabulary endToken
  scheduler : e.scheduler.Serving P
  size : e.scheduler.streams.size = n
  owed : e.scheduler.owed = m

theorem Serves.sleep {ms : Nat} (E : e.Serves P vocabulary endToken n m)
    (hok : onScheduler (Scheduler.sleep ms) e = .ok () e') :
    e'.Serves P vocabulary endToken n m ∧
      ∀ r, e.scheduler.Servable r → e'.scheduler.Servable r := by
  cases hok
  exact ⟨⟨E.executor, E.scheduler.sleep ms, E.size, E.owed⟩, fun _ hr => hr⟩

/-- After a tick the streams lack fewer tokens than before, or nobody is left. -/
theorem Serves.step (E : e.Serves P vocabulary endToken n m) :
    (∃ stats e' m', Engine.step e = .ok stats e' ∧ e'.Serves P vocabulary endToken n m' ∧
        (e'.hasUnfinished = false ∨ m' < m)) ∨
      ∃ e', Engine.step e = .error (.fault .overflow) e' ∧ e'.scheduler.Overlong P := by
  obtain ⟨s₁, s₂, s₃, s', hok, T⟩ := Scheduler.schedule_tick E.scheduler.books
  obtain ⟨S', howed⟩ := E.scheduler.tick T
  have hsize := (T.frame E.scheduler.books).2.1.trans E.size
  by_cases hrun : s'.running = []
  · -- without a batch nobody waits
    have hwait := E.scheduler.drained T hrun
    rw [hrun] at hok
    obtain ⟨stats, hstep⟩ := step_of_empty hok
    refine Or.inl ⟨stats, _, _, hstep, ⟨E.executor, S', hsize, rfl⟩, Or.inl ?_⟩
    simp [hasUnfinished, Scheduler.hasUnfinished, hrun, hwait]
  · -- each stream of the batch is given a token
    have hlive : ∀ k ∈ s'.running, s'.isLive k = true := fun k hk =>
      T.live_all E.scheduler.books E.scheduler.fifo k (List.mem_append_left _ hk)
    have hbatch : 0 < s'.running.length := List.length_pos_iff.mpr hrun
    rcases S'.process vocabulary endToken e.calls hlive with
      ⟨s'', hround, S'', hsize'', hless⟩ | ⟨s'', herr, hover⟩
    · rw [← E.executor] at hround
      obtain ⟨stats, hstep⟩ := step_of_process hok hrun
        (process_of_ok (e := { e with scheduler := s' }) hround)
      rw [howed, E.owed] at hless
      exact Or.inl ⟨stats, _, _, hstep, ⟨E.executor, S'', hsize''.trans hsize, rfl⟩,
        Or.inr (show s''.owed < m by omega)⟩
    · rw [← E.executor] at herr
      exact Or.inr ⟨_, step_of_process_error hok hrun
        (process_of_error (e := { e with scheduler := s' }) herr), hover⟩

/-! ### The drain loop -/

/-- Tick while streams are unfinished.  Before each tick so many milliseconds pass. -/
def drainOver : List Nat → EngineM (List TickStats)
  | [] => return []
  | ms :: delays => do
    if (← get).hasUnfinished then
      onScheduler (Scheduler.sleep ms)
      let stats ← step
      return stats :: (← drainOver delays)
    else return []

/-- `drain` is the case that no time passes. -/
theorem drain_eq_drainOver (limit : Nat) : drain limit = drainOver (List.replicate limit 0) := by
  induction limit with
  | zero => rfl
  | succ limit ih =>
    rw [List.replicate_succ, drain, drainOver, ih]
    rfl

theorem drainOver_of_finished (hfinished : e.hasUnfinished = false) (delays : List Nat) :
    drainOver delays e = .ok [] e := by
  cases delays with
  | nil => rfl
  | cons ms delays =>
    rw [drainOver, bind_get, hfinished]
    rfl

/-- Each tick but the last takes a token off what the streams lack. -/
theorem Serves.drainOver (E : e.Serves P vocabulary endToken n m) {delays : List Nat}
    (hlong : m < delays.length) :
    (∃ stats e' m', Engine.drainOver delays e = .ok stats e' ∧ stats.length ≤ m + 1 ∧
        e'.hasUnfinished = false ∧ e'.Serves P vocabulary endToken n m') ∨
      ∃ e', Engine.drainOver delays e = .error (.fault .overflow) e' ∧ e'.scheduler.Overlong P := by
  induction delays generalizing e m with
  | nil => exact absurd hlong (Nat.not_lt_zero _)
  | cons ms delays ih =>
    rcases hgoes : e.hasUnfinished with - | -
    · exact Or.inl ⟨[], e, m, drainOver_of_finished hgoes _, Nat.zero_le _, hgoes, E⟩
    obtain ⟨e₁, hsleep⟩ : ∃ e₁, onScheduler (Scheduler.sleep ms) e = .ok () e₁ := ⟨_, rfl⟩
    have hopen : Engine.drainOver (ms :: delays) e = (do
        let stats ← Engine.step
        return stats :: (← Engine.drainOver delays) : EngineM (List TickStats)) e₁ := by
      rw [Engine.drainOver, bind_get, hgoes, if_pos rfl, bind_of_ok hsleep]
    rw [hopen]
    rcases (E.sleep hsleep).1.step with ⟨stats, e₂, m₂, hok, E₂, hend⟩ | ⟨e₂, herr, hover⟩
    · rw [bind_of_ok hok]
      rcases hend with hfinished | hless
      · -- that was the last tick
        rw [bind_of_ok (drainOver_of_finished hfinished delays)]
        exact Or.inl ⟨[stats], e₂, m₂, rfl, Nat.succ_le_succ (Nat.zero_le _), hfinished, E₂⟩
      · -- a token less is left for a tick less
        have hlater : m₂ < delays.length := by
          rw [List.length_cons] at hlong
          omega
        rcases ih E₂ hlater with ⟨rest, e', m', hok', hlength, hrest⟩ | ⟨e', herr, hover⟩
        · rw [bind_of_ok hok']
          refine Or.inl ⟨stats :: rest, e', m', rfl, ?_, hrest⟩
          rw [List.length_cons]
          omega
        · rw [bind_of_error herr]
          exact Or.inr ⟨e', rfl, hover⟩
    · rw [bind_of_error herr]
      exact Or.inr ⟨e₂, rfl, hover⟩

/-! ### Submission -/

/-- What a caller submits: a request, whether to reuse prefixes for it, and the
milliseconds since the submission before. -/
structure Submission where
  request : Request
  reuse : Bool := false
  delay : Nat := 0

/-- Wait, submit a request, and set what the caller sets on its stream. -/
def submitOne (x : Submission) : EngineM Unit := do
  onScheduler (Scheduler.sleep x.delay)
  let h ← submit x.request
  onScheduler (Scheduler.onStream h (Stream.call (.setReuse x.reuse)))

/-- Submit requests one after another, up to one that is refused. -/
def submitEach (xs : List Submission) : EngineM Unit := xs.forM submitOne

/-- The tokens asked for in all. -/
def tokensAsked : List Submission → Nat
  | [] => 0
  | x :: rest => x.request.maxNewTokens + tokensAsked rest

/-- An accepted request is a stream at the end of the queue. -/
theorem submit_eq_ok {request : Request} {h : Handle} (hok : submit request e = .ok h e') :
    h = e.scheduler.streams.size ∧ e' = { e with
      nextId := e.nextId + 1
      scheduler := e.scheduler.withRequest e.nextId request } := by
  have hregister : onScheduler (Scheduler.register e.nextId request)
      { e with nextId := e.nextId + 1 } = .ok e.scheduler.streams.size { e with
        nextId := e.nextId + 1
        scheduler := { e.scheduler with
          streams := e.scheduler.streams.push (Stream.new e.nextId request e.scheduler.now) } } :=
    rfl
  rcases Scheduler.enqueue_spec { e.scheduler with
      streams := e.scheduler.streams.push (Stream.new e.nextId request e.scheduler.now) }
      e.scheduler.streams.size with ⟨hq, -, -⟩ | ⟨f, hq⟩
  · have hsubmit : submit request e = .ok e.scheduler.streams.size { e with
        nextId := e.nextId + 1
        scheduler := e.scheduler.withRequest e.nextId request } := by
      unfold submit
      rw [bind_get, bind_set, bind_of_ok hregister,
        bind_of_ok (tryCatch_of_ok (onScheduler_of_ok hq))]
      rfl
    rw [hsubmit] at hok
    cases hok
    exact ⟨rfl, rfl⟩
  · -- a refused request is no answer
    unfold submit at hok
    rw [bind_get, bind_set, bind_of_ok hregister] at hok
    obtain ⟨_, _, hcatch, -⟩ := bind_eq_ok.mp hok
    rw [tryCatch_of_error (onScheduler_of_error hq), bind_modify] at hcatch
    cases hcatch

/-- An accepted request adds its tokens to what the streams lack. -/
theorem Serves.submit {request : Request} {h : Handle} (E : e.Serves P vocabulary endToken n m)
    (hok : Engine.submit request e = .ok h e') (hlacking : 0 < request.maxNewTokens)
    (hservable : e.scheduler.Servable request) (hasked : P request) :
    h = n ∧ e'.Serves P vocabulary endToken (n + 1) (m + request.maxNewTokens) ∧
      ∀ r, e.scheduler.Servable r → e'.scheduler.Servable r := by
  obtain ⟨rfl, rfl⟩ := submit_eq_ok hok
  refine ⟨E.size, ⟨E.executor, E.scheduler.withRequest e.nextId hlacking hservable hasked, ?_, ?_⟩,
    fun _ hr => hr⟩
  · rw [← E.size]
    exact Scheduler.withRequest_size _ _ _
  · rw [← E.owed]
    exact Scheduler.withRequest_owed _ _ _

theorem Serves.setReuse {h : Handle} {on : Bool} (E : e.Serves P vocabulary endToken n m)
    (hh : h < n) (hok : onScheduler (Scheduler.onStream h (Stream.call (.setReuse on))) e
      = .ok () e') :
    e'.Serves P vocabulary endToken n m ∧
      ∀ r, e.scheduler.Servable r → e'.scheduler.Servable r := by
  have hsame : Stream.SameTokens (e.scheduler.stream h) ((e.scheduler.stream h).setReuse on) :=
    ⟨rfl, rfl, rfl⟩
  have hh' : h < e.scheduler.streams.size := E.size ▸ hh
  have hsize := Scheduler.size_setStream e.scheduler h ((e.scheduler.stream h).setReuse on)
  have howed := Scheduler.owed_congr hsize (Scheduler.sameTokens_setStream hsame)
  have S' := E.scheduler.setStream hh' (Stream.continues_call (.setReuse on) _) rfl
    ((E.scheduler.pending h hh').congr hsame fun hgoes => hgoes)
  cases hok
  exact ⟨⟨E.executor, S', hsize.trans E.size, howed.trans E.owed⟩, fun _ hr => hr⟩

theorem Serves.submitOne {x : Submission} (E : e.Serves P vocabulary endToken n m)
    (hok : Engine.submitOne x e = .ok () e') (hlacking : 0 < x.request.maxNewTokens)
    (hservable : e.scheduler.Servable x.request) (hasked : P x.request) :
    e'.Serves P vocabulary endToken (n + 1) (m + x.request.maxNewTokens) ∧
      ∀ r, e.scheduler.Servable r → e'.scheduler.Servable r := by
  obtain ⟨_, e₁, hsleep, hok⟩ := bind_eq_ok.mp hok
  obtain ⟨h, e₂, hsubmit, hreuse⟩ := bind_eq_ok.mp hok
  obtain ⟨E₁, hkeep₁⟩ := E.sleep hsleep
  obtain ⟨rfl, E₂, hkeep₂⟩ := E₁.submit hsubmit hlacking (hkeep₁ _ hservable) hasked
  obtain ⟨E₃, hkeep₃⟩ := E₂.setReuse (Nat.lt_succ_self _) hreuse
  exact ⟨E₃, fun r hr => hkeep₃ r (hkeep₂ r (hkeep₁ r hr))⟩

theorem Serves.submitEach {xs : List Submission} (E : e.Serves P vocabulary endToken n m)
    (hok : Engine.submitEach xs e = .ok () e')
    (hall : ∀ x ∈ xs,
      0 < x.request.maxNewTokens ∧ e.scheduler.Servable x.request ∧ P x.request) :
    e'.Serves P vocabulary endToken (n + xs.length) (m + tokensAsked xs) := by
  induction xs generalizing e n m with
  | nil =>
    cases hok
    exact E
  | cons x rest ih =>
    obtain ⟨_, e₁, hone, hok⟩ := bind_eq_ok.mp hok
    obtain ⟨hlacking, hservable, hasked⟩ := hall x List.mem_cons_self
    obtain ⟨E₁, hkeep⟩ := E.submitOne hone hlacking hservable hasked
    -- a submission changes nothing about what the later requests need
    have E' := ih E₁ hok fun y hy =>
      (hall y (List.mem_cons_of_mem x hy)).imp_right (And.imp_left (hkeep y.request))
    rw [tokensAsked, List.length_cons, Nat.add_comm rest.length, ← Nat.add_assoc,
      ← Nat.add_assoc]
    exact E'

/-! ### Whole runs -/

/-- Submit requests to a new engine with the synthetic executor, whatever its vocabulary
and its end token, and let it tick until no stream is left, with any time passing
before each tick.  If each request asks for a token at least, and it fits the pool or
the fallback is on, then there are at most as many ticks as tokens asked for and one,
and all streams have ended.  What could come in between is an overflow of a count of
tokens.  A request must have asked for so many, and its stream then has 2 ^ 64 tokens,
which no memory holds. -/
theorem drain_ends {hash : ChainHash} {g : Geometry} {a : Allocator}
    (hnew : Allocator.newWith hash g = .ok a) (admission : Admission) {xs : List Submission}
    (haccepted : submitEach xs (ofScheduler (Scheduler.start admission a)
      (Executor.synthetic vocabulary endToken)) = .ok () e)
    (hasked : ∀ x ∈ xs, 1 ≤ x.request.maxNewTokens)
    (hfits : admission.fallback = true ∨ ∀ x ∈ xs, (Scheduler.start admission a).Fits x.request)
    {delays : List Nat} (hlong : tokensAsked xs + 1 ≤ delays.length) :
    (∃ stats e', drainOver delays e = .ok stats e' ∧ stats.length ≤ tokensAsked xs + 1 ∧
        e'.hasUnfinished = false ∧ e'.scheduler.streams.size = xs.length ∧
        ∀ h < xs.length, (e'.scheduler.stream h).isTerminal = true) ∨
      ∃ e', drainOver delays e = .error (.fault .overflow) e' ∧
        e'.scheduler.Overlong (fun r => ∃ x ∈ xs, x.request = r) := by
  -- a new engine serves nobody and owes nothing; each submission adds what it asks for
  have E₀ : (ofScheduler (Scheduler.start admission a)
      (Executor.synthetic vocabulary endToken)).Serves (fun r => ∃ x ∈ xs, x.request = r)
      vocabulary endToken 0 0 :=
    ⟨rfl, Scheduler.serving_start hnew admission, rfl, rfl⟩
  have E := E₀.submitEach haccepted fun x hx =>
    ⟨hasked x hx, hfits.imp_right fun hall => hall x hx, x, hx, rfl⟩
  rw [Nat.zero_add, Nat.zero_add] at E
  rcases E.drainOver hlong with ⟨stats, e', m', hok, hticks, hfinished, E'⟩ | hover
  · refine Or.inl ⟨stats, e', hok, hticks, hfinished, E'.size, fun h hh => ?_⟩
    exact E'.scheduler.ended hfinished h (E'.size ▸ hh)
  · exact Or.inr hover

/-- Two requests that have room in four blocks of two tokens each, but not together. -/
def crowd : List Submission :=
  [{ request := { input := [1, 2, 3], maxNewTokens := 3 } },
    { request := { input := [4, 5, 6, 7], maxNewTokens := 2, timeoutMs := 50 }, reuse := true,
      delay := 1 }]

/-- They are served one after the other, within six ticks. -/
theorem drain_ends_crowd :
    ∃ a e stats e', Allocator.newWith chainHash { blocks := 5, blockSize := 2 } = .ok a ∧
      submitEach crowd (ofScheduler (Scheduler.start {} a) (Executor.synthetic 100 none))
        = .ok () e ∧
      drain 6 e = .ok stats e' ∧ stats.length ≤ 6 ∧ e'.hasUnfinished = false ∧
      ∀ h < 2, (e'.scheduler.stream h).isTerminal = true := by
  have hrun : (Allocator.newWith chainHash { blocks := 5, blockSize := 2 }).toOption.map
      (fun a =>
        let result := (submitEach crowd >>= fun _ => drain 6)
          (ofScheduler (Scheduler.start {} a) (Executor.synthetic 100 none))
        (a.geometry.blockSize, a.pool.usable, match result with
          | .ok _ _ => true
          | .error _ _ => false))
      = some (2, 4, true) := by decide +kernel
  obtain ⟨a, hnew, hfacts⟩ := Allocator.exists_newWith hrun
  simp only [Prod.mk.injEq] at hfacts
  obtain ⟨hsize, husable, hpasses⟩ := hfacts
  split at hpasses
  case h_2 => simp at hpasses
  case h_1 stats e' hok =>
    obtain ⟨_, e, hsubmit, hdrain⟩ := bind_eq_ok.mp hok
    have hfits : ∀ x ∈ crowd, (Scheduler.start {} a).Fits x.request := by
      have hblocks : blocksFor 6 a.geometry.blockSize = .ok 3 := by rw [hsize]; rfl
      have hle : 3 ≤ a.pool.usable := by rw [husable]; decide
      intro x hx
      rcases List.mem_cons.mp hx with rfl | hx
      · exact ⟨3, hblocks, hle⟩
      · rw [List.mem_singleton.mp hx]
        exact ⟨3, hblocks, hle⟩
    have hlong : tokensAsked crowd + 1 ≤ (List.replicate 6 0).length := by decide
    rcases drain_ends hnew {} hsubmit (by decide) (Or.inr hfits) hlong with
      ⟨stats', e'', hok', hticks, hfinished, -, hended⟩ | ⟨e'', herr, -⟩
    · rw [← drain_eq_drainOver] at hok'
      exact ⟨a, e, stats', e'', hnew, hsubmit, hok', hticks, hfinished, hended⟩
    · rw [← drain_eq_drainOver, hdrain] at herr
      simp at herr

end Engine

end PagedServe
