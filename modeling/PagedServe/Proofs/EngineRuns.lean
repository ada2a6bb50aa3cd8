/-
PagedServe/Proofs/EngineRuns.lean

An engine moves its scheduler by steps, whatever its executor does.

Everything that happens to an engine reaches the scheduler as an event: a request is
registered and enqueued, a tick is scheduled, and what an executor does to the streams of
a batch, or what its failure does to them, are calls of streams (`moves_process`).

As long as nobody else uses the memory (`Sole`), the books are therefore kept, and with
them whatever every step keeps (`after_keeps`).
-/
import PagedServe.Proofs.Transparency
import PagedServe.Proofs.Naming

namespace PagedServe

namespace Engine

open Scheduler (Moves Tick)

variable {e : Engine} {history : List Happening}

/-- The engine after a history. -/
def after (e : Engine) (history : List Happening) : Engine :=
  history.foldl (fun e x => happen x e) e

theorem after_concat (e : Engine) (history : List Happening) (x : Happening) :
    e.after (history ++ [x]) = happen x (e.after history) := by
  rw [after, List.foldl_append]
  rfl

/-- Nobody but the engine's scheduler uses the memory. -/
def Sole (history : List Happening) : Prop := ∀ a, .beside (.memory a) ∉ history

/-! ### One happening -/

/-- An executor, and its failure, do no more than call streams. -/
theorem moves_process (s : Scheduler) (batch : List Handle) :
    Preserves (fun e : Engine => Moves s e.scheduler) (process batch) := by
  intro e he
  unfold process
  rw [stateAfter_bind_get, stateAfter_bind_set]
  refine stateAfter_bind (I := fun e : Engine => Moves s e.scheduler) ?_ fun answer => ?_
  · -- the executor's own calls
    rw [stateAfter_onScheduler]
    show Moves s (stateAfter (Scheduler.process _ _ _) e.scheduler)
    rw [Scheduler.stateAfter_process]
    refine Preserves.forM (I := Moves s) (fun c _ t ht => ?_) _ he
    show Moves s (stateAfter (Scheduler.onStream c.1 (Stream.call c.2)) t)
    rw [Scheduler.stateAfter_onStream]
    exact ht.tail ⟨.outside, .call t c.1 c.2⟩
  · -- and the stops of its batch, if it reports an error
    cases answer with
    | none => exact Preserves.pure ()
    | some cause =>
      refine Preserves.forM fun k _ e he => ?_
      rw [stateAfter_onScheduler]
      exact he.tail ⟨.outside, .call e.scheduler k (.stop (.failed cause))⟩

/-- A tick of the engine is a tick of its scheduler, after which the executor has its turn
with the batch, unless that is empty; then there are the figures to report. -/
theorem step_tick (B : e.scheduler.Books) :
    ∃ s₁ s₂ s₃ s', Scheduler.schedule e.scheduler = .ok s'.running s' ∧
      Tick e.scheduler s₁ s₂ s₃ s' ∧
      let e' := if s'.running = [] then { e with scheduler := s' }
        else stateAfter (process s'.running) { e with scheduler := s' }
      (stateAfter step e).scheduler = e'.scheduler ∧
        (stateAfter step e).executor = e'.executor := by
  obtain ⟨s₁, s₂, s₃, s', hok, T⟩ := Scheduler.schedule_tick B
  refine ⟨s₁, s₂, s₃, s', hok, T, ?_⟩
  by_cases hempty : s'.running = []
  · -- an empty batch: no call
    rw [if_pos hempty]
    rw [hempty] at hok
    obtain ⟨stats, hstep⟩ := step_of_empty hok
    rw [stateAfter_of_ok hstep]
    exact ⟨rfl, rfl⟩
  · rw [if_neg hempty]
    rcases hround : process s'.running { e with scheduler := s' } with ⟨_, e₁⟩ | ⟨f, e₁⟩
    · -- the call ends well
      obtain ⟨stats, hstep⟩ := step_of_process hok hempty hround
      rw [stateAfter_of_ok hstep, stateAfter_of_ok hround]
      exact ⟨rfl, rfl⟩
    · -- it fails, and the tick with it
      rw [stateAfter_of_error (step_of_process_error hok hempty hround),
        stateAfter_of_error hround]
      exact ⟨rfl, rfl⟩

theorem moves_step (B : e.scheduler.Books) : Moves e.scheduler (stateAfter step e).scheduler := by
  obtain ⟨s₁, s₂, s₃, s', -, T, hstep, -⟩ := step_tick B
  rw [hstep]
  split
  · exact T.moves
  · exact moves_process e.scheduler _ { e with scheduler := s' } T.moves

/-- Every happening is made of steps, but for what others do to the memory. -/
theorem moves_happen (B : e.scheduler.Books) {x : Happening} (hx : ∀ a, x ≠ .beside (.memory a)) :
    Moves e.scheduler (happen x e).scheduler := by
  cases x with
  | submit request =>
    show Moves e.scheduler (stateAfter (submit request) e).scheduler
    rcases stateAfter_submit (e := e) request with heq | heq
    · rw [heq]
    · rw [heq]
      -- a request that is accepted is a stream registered and then queued
      have hregister := Scheduler.perform_moves B (.register e.nextId request)
      have B₁ := hregister.books B
      exact hregister.trans (Scheduler.perform_moves B₁ (.enqueue e.scheduler.streams.size))
  | step => exact moves_step B
  | beside i =>
    cases i with
    | event event => exact Scheduler.perform_moves B event
    | memory a => exact absurd rfl (hx a)

/-! ### Whole runs -/

/-- What every step keeps holds all along the run of an engine. -/
theorem after_keeps {P : Scheduler → Prop}
    (hstep : ∀ {p s s'}, Scheduler.Step p s s' → s.Books → P s → P s') (B : e.scheduler.Books)
    (hs : P e.scheduler) (hsole : Sole history) :
    (e.after history).scheduler.Books ∧ P (e.after history).scheduler := by
  induction history generalizing e with
  | nil => exact ⟨B, hs⟩
  | cons x history ih =>
    have hx : ∀ a, x ≠ .beside (.memory a) := fun a hxa => hsole a (hxa ▸ List.mem_cons_self)
    obtain ⟨B', hs'⟩ := (moves_happen B hx).keeps hstep B hs
    exact ih B' hs' fun a ha => hsole a (List.mem_cons_of_mem x ha)

theorem books_after {hash : ChainHash} {g : Geometry} {a : Allocator}
    (hnew : Allocator.newWith hash g = .ok a) (admission : Admission) (executor : Executor)
    (hsole : Sole history) :
    ((ofScheduler (Scheduler.start admission a) executor).after history).scheduler.Books :=
  (after_keeps (P := fun _ => True) (fun _ _ _ => trivial) (Scheduler.books_start hnew admission)
    trivial hsole).1

end Engine

end PagedServe
