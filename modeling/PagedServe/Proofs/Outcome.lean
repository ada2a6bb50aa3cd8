/-
PagedServe/Proofs/Outcome.lean

Operations whose state survives an error, one after another.

An operation is a function from states to outcomes.  The lemmas here say what a
sequence does once the outcome of its first part is known, so that a proof
about a `do` block goes through it line by line and never unfolds it.

`Ends` bounds results and failures apart, where the outcome is not known, and
`Preserves` is about what holds after either.
-/
import PagedServe.Failure

namespace PagedServe

theorem eq_ok_of_toOption {ε α : Type} {x : Except ε α} {r : α} (h : x.toOption = some r) :
    x = .ok r := by
  rcases x with e | v
  · simp [Except.toOption] at h
  · exact congrArg Except.ok (Option.some.inj h)

theorem except_bind_eq_ok {ε α β : Type} {x : Except ε α} {f : α → Except ε β} {r : β} :
    (x >>= f) = .ok r ↔ ∃ a, x = .ok a ∧ f a = .ok r := by
  rcases x with e | a
  · constructor
    · intro h
      cases h
    · rintro ⟨_, h, -⟩
      cases h
  · constructor
    · exact fun h => ⟨a, rfl, h⟩
    · rintro ⟨_, h, hf⟩
      cases h
      exact hf

section Outcome

variable {ε σ α β : Type} {x : EStateM ε σ α} {f : α → EStateM ε σ β} {s s' s'' : σ}

theorem bind_of_ok {r : α} (h : x s = .ok r s') : (x >>= f) s = f r s' := by
  show EStateM.bind x f s = _
  rw [EStateM.bind, h]

theorem bind_of_error {e : ε} (h : x s = .error e s') : (x >>= f) s = .error e s' := by
  show EStateM.bind x f s = _
  rw [EStateM.bind, h]

theorem bind_eq_ok {r : β} :
    (x >>= f) s = .ok r s'' ↔ ∃ a s', x s = .ok a s' ∧ f a s' = .ok r s'' := by
  rcases h : x s with ⟨a, s'⟩ | ⟨e, s'⟩
  · rw [bind_of_ok h]
    constructor
    · exact fun hf => ⟨a, s', rfl, hf⟩
    · rintro ⟨a', t, heq, hf⟩
      cases heq
      exact hf
  · rw [bind_of_error h]
    constructor
    · intro hf
      cases hf
    · rintro ⟨a', t, heq, -⟩
      cases heq

theorem bind_get {f : σ → EStateM ε σ β} : (get >>= f) s = f s s := rfl

theorem bind_set {f : PUnit → EStateM ε σ β} : (set s' >>= f) s = f () s' := rfl

theorem bind_modify {g : σ → σ} {f : PUnit → EStateM ε σ β} :
    (modify g >>= f) s = f () (g s) := rfl

theorem ofExcept_of_ok {r : Except ε α} {a : α} (h : r = .ok a) :
    (ofExcept r : EStateM ε σ α) s = .ok a s := by
  rw [h]
  rfl

theorem ofExcept_of_error {r : Except ε α} {e : ε} (h : r = .error e) :
    (ofExcept r : EStateM ε σ α) s = .error e s := by
  rw [h]
  rfl

theorem tryCatch_of_ok {handle : ε → EStateM ε σ α} {r : α} (h : x s = .ok r s') :
    tryCatch x handle s = .ok r s' := by
  show EStateM.tryCatch x handle s = _
  delta EStateM.tryCatch
  rw [h]

theorem tryCatch_of_error {handle : ε → EStateM ε σ α} {e : ε} (h : x s = .error e s') :
    tryCatch x handle s = handle e s' := by
  show EStateM.tryCatch x handle s = _
  delta EStateM.tryCatch
  rw [h]
  rfl

/-- The state an operation leaves behind, whether it succeeded or not. -/
def stateAfter (x : EStateM ε σ α) (s : σ) : σ :=
  match x s with
  | .ok _ s' => s'
  | .error _ s' => s'

theorem stateAfter_of_ok {r : α} (h : x s = .ok r s') : stateAfter x s = s' := by
  rw [stateAfter, h]

theorem stateAfter_of_error {e : ε} (h : x s = .error e s') : stateAfter x s = s' := by
  rw [stateAfter, h]

/-- What comes first decides the state that the rest starts from. -/
theorem stateAfter_bind_of_ok {r : α} (h : x s = .ok r s') :
    stateAfter (x >>= f) s = stateAfter (f r) s' := by
  rw [stateAfter, bind_of_ok h, stateAfter]

theorem stateAfter_bind_get {f : σ → EStateM ε σ β} :
    stateAfter (get >>= f) s = stateAfter (f s) s := rfl

theorem stateAfter_bind_set {f : PUnit → EStateM ε σ β} :
    stateAfter (set s' >>= f) s = stateAfter (f ()) s' := rfl

theorem stateAfter_bind_modify {g : σ → σ} {f : PUnit → EStateM ε σ β} :
    stateAfter (modify g >>= f) s = stateAfter (f ()) (g s) := rfl

/-- If each round succeeds from a state of a class and stays in it, so does the
whole loop, and the states before and after it are related as far as each round
relates its own. -/
theorem forM_ok {γ : Type} {g : γ → EStateM ε σ PUnit} {R : σ → σ → Prop} (hrefl : ∀ s, R s s)
    (htrans : ∀ {s s' s''}, R s s' → R s' s'' → R s s'')
    {l : List γ} {I : σ → Prop} (hg : ∀ a ∈ l, ∀ s, I s → ∃ s', g a s = .ok () s' ∧ R s s' ∧ I s')
    (hs : I s) : ∃ s', l.forM g s = .ok () s' ∧ R s s' ∧ I s' := by
  induction l generalizing s with
  | nil => exact ⟨s, rfl, hrefl s, hs⟩
  | cons a l ih =>
    obtain ⟨s₁, hok, hr, hs₁⟩ := hg a List.mem_cons_self s hs
    obtain ⟨s₂, hok₂, hr₂, hs₂⟩ := ih (fun b hb => hg b (List.mem_cons_of_mem a hb)) hs₁
    refine ⟨s₂, ?_, htrans hr hr₂, hs₂⟩
    show (g a >>= fun _ => l.forM g) s = _
    rw [bind_of_ok hok]
    exact hok₂

/-- What each round of a loop establishes for its own item, and the later ones keep, holds
of all of them at the end. -/
theorem forM_each {γ : Type} {g : γ → EStateM ε σ PUnit} {Q : σ → γ → Prop}
    (hround : ∀ a s s', g a s = .ok () s' → Q s' a)
    (hkeep : ∀ a b s s', g b s = .ok () s' → Q s a → Q s' a) {l : List γ}
    (hok : l.forM g s = .ok () s') : ∀ a ∈ l, Q s' a := by
  -- later rounds keep what is established, by induction on those that are left
  have hkeepAll : ∀ (l : List γ) (a : γ) (s : σ), l.forM g s = .ok () s' → Q s a → Q s' a := by
    intro l a
    induction l with
    | nil =>
      intro s hok hs
      cases hok
      exact hs
    | cons b l ih =>
      intro s hok hs
      obtain ⟨_, t, hone, hrest⟩ := bind_eq_ok.mp hok
      exact ih t hrest (hkeep a b s t hone hs)
  induction l generalizing s with
  | nil => exact fun a ha => absurd ha List.not_mem_nil
  | cons b l ih =>
    obtain ⟨_, t, hone, hrest⟩ := bind_eq_ok.mp hok
    intro a ha
    rcases List.mem_cons.mp ha with rfl | ha
    · exact hkeepAll l a t hrest (hround a s t hone)
    · exact ih hrest a ha

/-- Where a loop first gets into a class of states, one of its rounds leads there. -/
theorem forM_turn {γ : Type} {g : γ → EStateM ε σ PUnit} {P : σ → Prop} {l : List γ}
    (hok : l.forM g s = .ok () s') (hs : ¬ P s) (hs' : P s') :
    ∃ front a back t t', l = front ++ a :: back ∧ front.forM g s = .ok () t ∧
      g a t = .ok () t' ∧ ¬ P t ∧ P t' := by
  induction l generalizing s with
  | nil =>
    cases hok
    exact absurd hs' hs
  | cons b l ih =>
    obtain ⟨_, t, hone, hrest⟩ := bind_eq_ok.mp hok
    by_cases ht : P t
    · -- the first round leads there
      exact ⟨[], b, l, s, t, rfl, rfl, hone, hs, ht⟩
    · -- a later one does
      obtain ⟨front, a, back, u, u', rfl, hfront, hturn⟩ := ih hrest ht
      refine ⟨b :: front, a, back, u, u', rfl, ?_, hturn⟩
      show (g b >>= fun _ => front.forM g) s = _
      rw [bind_of_ok hone]
      exact hfront

/-! ### What an operation comes to -/

/-- The outcome is as `Q` says of results and states, or else a failure in a state as `E` says. -/
def Ends (Q : α → σ → Prop) (E : σ → Prop) : EStateM.Result ε σ α → Prop
  | .ok r s => Q r s
  | .error _ s => E s

section Ends

variable {P : α → σ → Prop} {Q : β → σ → Prop} {E E' : σ → Prop}

/-- What the first part comes to is what the rest starts from. -/
theorem Ends.bind (hx : Ends P E (x s)) (hf : ∀ r s', P r s' → Ends Q E (f r s')) :
    Ends Q E ((x >>= f) s) := by
  rcases h : x s with ⟨r, s'⟩ | ⟨e, s'⟩
  · rw [h] at hx
    rw [bind_of_ok h]
    exact hf r s' hx
  · rw [h] at hx
    rw [bind_of_error h]
    exact hx

theorem Ends.tryCatch {handle : ε → EStateM ε σ α} (hx : Ends P E' (x s))
    (hh : ∀ e s', E' s' → Ends P E (handle e s')) : Ends P E (tryCatch x handle s) := by
  rcases h : x s with ⟨r, s'⟩ | ⟨e, s'⟩
  · rw [h] at hx
    rw [tryCatch_of_ok h]
    exact hx
  · rw [h] at hx
    rw [tryCatch_of_error h]
    exact hh e s' hx

end Ends

/-! ### What an operation keeps, whatever its outcome -/

/-- The operation stays within a class of states, also when it fails. -/
def Preserves (I : σ → Prop) (x : EStateM ε σ α) : Prop := ∀ s, I s → I (stateAfter x s)

variable {I : σ → Prop}

theorem Preserves.pure (r : α) : Preserves I (pure r : EStateM ε σ α) := fun _ hs => hs

theorem Preserves.throw (e : ε) : Preserves I (throw e : EStateM ε σ α) := fun _ hs => hs

theorem Preserves.get : Preserves I (get : EStateM ε σ σ) := fun _ hs => hs

/-- What the first part establishes and the rest keeps. -/
theorem stateAfter_bind (hx : I (stateAfter x s)) (hf : ∀ r, Preserves I (f r)) :
    I (stateAfter (x >>= f) s) := by
  rcases h : x s with ⟨r, s'⟩ | ⟨e, s'⟩
  · rw [stateAfter_of_ok h] at hx
    rw [stateAfter_bind_of_ok h]
    exact hf r s' hx
  · rw [stateAfter_of_error h] at hx
    rw [stateAfter_of_error (bind_of_error h)]
    exact hx

theorem Preserves.bind (hx : Preserves I x) (hf : ∀ r, Preserves I (f r)) :
    Preserves I (x >>= f) := fun s hs => stateAfter_bind (hx s hs) hf

theorem Preserves.modify {g : σ → σ} (hg : ∀ s, I s → I (g s)) :
    Preserves I (modify g : EStateM ε σ PUnit) := hg

theorem Preserves.forM {γ : Type} {g : γ → EStateM ε σ PUnit} {l : List γ}
    (hg : ∀ a ∈ l, Preserves I (g a)) : Preserves I (l.forM g) := by
  induction l with
  | nil => exact Preserves.pure ()
  | cons a l ih =>
    exact Preserves.bind (hg a List.mem_cons_self) fun _ =>
      ih fun b hb => hg b (List.mem_cons_of_mem a hb)

theorem Preserves.tryCatch {handle : ε → EStateM ε σ α} (hx : Preserves I x)
    (hh : ∀ e, Preserves I (handle e)) : Preserves I (tryCatch x handle) := by
  intro s hs
  have hxs := hx s hs
  rcases h : x s with ⟨r, s'⟩ | ⟨e, s'⟩
  · rw [stateAfter_of_ok h] at hxs
    rw [stateAfter_of_ok (tryCatch_of_ok h)]
    exact hxs
  · rw [stateAfter_of_error h] at hxs
    have hrest : stateAfter (MonadExcept.tryCatch x handle) s = stateAfter (handle e) s' := by
      rw [stateAfter, tryCatch_of_error h, stateAfter]
    rw [hrest]
    exact hh e s' hxs

end Outcome

end PagedServe
