/-
PagedServe/Proofs/Publication.lean

Who adds what to the prefix cache in a tick.

There are two occasions.  In the growth pass a stream that has grown and goes on commits
its full blocks, and in the release pass a stream that has finished commits them on its way
out.  `Publishes s h u u'` says that in the tick of `s` the stream `h` has such an
occasion; the operation takes `u` to `u'`.

What it adds are entries for blocks of the stream that its count of tokens fills
(`Publishes.entries`).  Nothing else adds any: a stream that gives way for lack of memory
publishes nothing, and admission only evicts (`Tick.published`).
-/
import PagedServe.Proofs.Naming
import PagedServe.Proofs.Places

namespace PagedServe

namespace Scheduler

open Allocator (Committed SameShape)
open Relation (ReflTransGen)

variable {s s' s₁ s₂ s₃ t u u' : Scheduler} {h k : Handle} {idx : Nat}

/-! ### The growth pass, round by round -/

/-- A round of the growth pass: from a position and a state to the next ones. -/
def Round (p q : Nat × Scheduler) : Prop :=
  p.1 < p.2.running.length ∧ growAt p.1 p.2 = .ok q.1 q.2

/-- Any number of rounds. -/
abbrev Rounds : Nat × Scheduler → Nat × Scheduler → Prop := ReflTransGen Round

/-- The pass is made of rounds. -/
theorem growFrom_rounds {rounds : Nat} (hok : growFrom idx rounds s = .ok () s') :
    ∃ last, Rounds (idx, s) (last, s') := by
  induction rounds generalizing idx s with
  | zero =>
    unfold growFrom at hok
    rw [bind_get] at hok
    split at hok
    · -- a stream is left and no round: a fault
      cases hok
    · cases hok
      exact ⟨idx, .refl⟩
  | succ rounds ih =>
    unfold growFrom at hok
    rw [bind_get] at hok
    split at hok
    case isTrue hin =>
      obtain ⟨next, t, hround, hrest⟩ := bind_eq_ok.mp hok
      obtain ⟨last, hrounds⟩ := ih hrest
      exact ⟨last, .head ⟨hin, hround⟩ hrounds⟩
    case isFalse =>
      cases hok
      exact ⟨idx, .refl⟩

theorem of_ofResult_eq_ok {α : Type} {r : Except Failure α} {v : α}
    (hok : ofResult r s = .ok v t) : r = .ok v ∧ t = s := by
  rcases r with e | w
  · cases hok
  · cases hok
    exact ⟨rfl, rfl⟩

/-- What a round has done: it has checked the stream at its position, tried to grow it if
that is live, and committed its full blocks if it has grown and reuses prefixes. -/
theorem growAt_eq_ok {next : Nat} (hok : growAt idx s = .ok next s') :
    ∃ h t, Word.item s.running idx = .ok h ∧ checkTimeout h s = .ok () t ∧
      (s' = t ∨ t.isLive h = true ∧ ∃ grown u, growOver h idx s.running.length t = .ok grown u ∧
        (s' = u ∨
          grown = true ∧ (u.stream h).reuse = true ∧ commitFullBlocks h u = .ok () s')) := by
  unfold growAt at hok
  rw [bind_get] at hok
  obtain ⟨h, v, hresult, hok⟩ := bind_eq_ok.mp hok
  obtain ⟨hitem, rfl⟩ := of_ofResult_eq_ok hresult
  obtain ⟨_, t, hcheck, hok⟩ := bind_eq_ok.mp hok
  -- the three exits of a round: ended, not to be committed, committed
  refine ⟨h, t, hitem, hcheck, ?_⟩
  rw [bind_get] at hok
  split at hok
  case isFalse =>
    cases hok
    exact Or.inl rfl
  case isTrue hlive =>
    obtain ⟨grown, u, hgrow, hok⟩ := bind_eq_ok.mp hok
    refine Or.inr ⟨hlive, grown, u, hgrow, ?_⟩
    split at hok
    case isFalse =>
      cases hok
      exact Or.inl rfl
    case isTrue hgrown =>
      rw [bind_get] at hok
      split at hok
      case isFalse =>
        cases hok
        exact Or.inl rfl
      case isTrue hreuse =>
        obtain ⟨_, w, hcommit, hend⟩ := bind_eq_ok.mp hok
        cases hend
        exact Or.inr ⟨hgrown, hreuse, hcommit⟩

theorem Round.steps {p q : Nat × Scheduler} (hround : Round p q) (B : p.2.Books) :
    Steps .growth p.2 q.2 := by
  obtain ⟨h, t, hitem, -⟩ := growAt_eq_ok hround.2
  obtain ⟨older, newer, hsplit, hlength, -⟩ := split_of_item hitem
  obtain ⟨next, s', newer', hok, hsteps, -⟩ := growAt_steps B hsplit
  rw [hlength, hround.2] at hok
  cases hok
  exact hsteps

theorem Rounds.steps {p q : Nat × Scheduler} (hrounds : Rounds p q) (B : p.2.Books) :
    Steps .growth p.2 q.2 := by
  induction hrounds with
  | refl => exact .refl
  | tail _ hlast ih => exact ih.trans (hlast.steps (ih.keeps Step.books B))

/-- The growth pass up to the moment when a stream has been given its blocks. -/
theorem growOver_of_item (B : s.Books) (hitem : Word.item s.running idx = .ok h)
    (hcheck : checkTimeout h s = .ok () t) (hlive : t.isLive h = true) {grown : Bool}
    (hgrow : growOver h idx s.running.length t = .ok grown u) :
    Steps .growth s u ∧ u.CachesOnly s ∧ (grown = true → h ∈ u.running) := by
  obtain ⟨older, newer, hsplit, rfl, -⟩ := split_of_item hitem
  have hexpire : Step .growth s (s.setStream h ((s.stream h).checkTimeout s.now)) :=
    .expire (hsplit ▸ List.mem_append_right _ List.mem_cons_self)
  obtain rfl : s.setStream h ((s.stream h).checkTimeout s.now) = t := by
    rw [checkTimeout_eq] at hcheck
    cases hcheck
    rfl
  have hrounds : newer.length < s.running.length := by
    rw [hsplit, List.length_append, List.length_cons]
    omega
  -- the rounds that the pass grants are enough, so its outcome is the one that is known
  obtain ⟨grown', u', newer', hok, hsteps, honly, -, hend⟩ :=
    growOver_steps (hexpire.books B) hsplit hlive hrounds
  rw [hgrow] at hok
  cases hok
  refine ⟨hsteps.head hexpire, honly, fun hgrown => ?_⟩
  rw [if_pos hgrown] at hend
  exact hend.1 ▸ List.mem_append_right _ List.mem_cons_self

/-! ### Publishing -/

/-- In the tick of `s` it is the turn of the stream `h` to publish its full blocks, which
takes `u` to `u'`. -/
inductive Publishes (s : Scheduler) (h : Handle) (u u' : Scheduler) : Prop
  /-- The stream has its round in the growth pass, has grown and reuses prefixes. -/
  | commit {s₁ t t₁ : Scheduler} {idx : Nat} (hsweep : sweepWaiting s = .ok () s₁)
      (hrounds : Rounds (0, s₁) (idx, t)) (hitem : Word.item t.running idx = .ok h)
      (hcheck : checkTimeout h t = .ok () t₁) (hlive : t₁.isLive h = true)
      (hgrow : growOver h idx t.running.length t₁ = .ok true u)
      (hreuse : (u.stream h).reuse = true) (hok : commitFullBlocks h u = .ok () u')
  /-- The stream has ended and has its turn in the release pass. -/
  | release {s₁ s₂ : Scheduler} {front back : List Handle} (hsweep : sweepWaiting s = .ok () s₁)
      (hgrow : growRunning s₁ = .ok () s₂)
      (hturn : (s₂.running.partition s₂.isLive).2 = front ++ h :: back)
      (hfront : front.forM releaseStream
        { s₂ with running := (s₂.running.partition s₂.isLive).1 } = .ok () u)
      (hok : releaseStream h u = .ok () u')

/-- The cache entry is for block `i` of the stream: it has the name, the tokens and the
place of the block. -/
structure EntryFor (s : Scheduler) (h : Handle) (i : Nat) (x : UInt64 × Nat × List UInt32) :
    Prop where
  name : s.nameAt h i = some x.1
  block : (s.blocksOf h)[i]? = some x.2.1
  tokens : (fullBlocks s.blockSize (s.stream h).tokens)[i]? = some x.2.2

instance (s : Scheduler) (h : Handle) (i : Nat) (x : UInt64 × Nat × List UInt32) :
    Decidable (s.EntryFor h i x) :=
  decidable_of_iff (s.nameAt h i = some x.1 ∧ (s.blocksOf h)[i]? = some x.2.1 ∧
      (fullBlocks s.blockSize (s.stream h).tokens)[i]? = some x.2.2)
    ⟨fun ⟨hname, hblock, htokens⟩ => ⟨hname, hblock, htokens⟩,
      fun hx => ⟨hx.name, hx.block, hx.tokens⟩⟩

/-- What a commit of the full blocks of a stream adds. -/
theorem entries_of_committed (B : s.Books) (hrun : h ∈ s.running) {held ids : List Nat}
    {a : Allocator} (C : Committed s.allocator held (s.stream h).fullTokens ids a)
    (hids : ids <+: s.blocksOf h) :
    ∃ added, a.cache.content = s.allocator.cache.content ++ added ∧ ∀ x ∈ added,
      ∃ i, s.EntryFor h i x ∧ (i + 1) * s.blockSize ≤ (s.stream h).seqLength := by
  obtain ⟨added, hcontent, hplace⟩ := C.content
  refine ⟨added, hcontent, ?_⟩
  rintro ⟨n, b, ts⟩ hx
  obtain ⟨i, hi, htokens, hname⟩ := hplace n b ts hx
  have hsize : s.allocator.geometry.blockSize = (s.stream h).table.blockSize :=
    (B.tables h hrun).symm
  rw [Stream.fullTokens, hsize, fullBlocks_take (B.tables h hrun ▸ B.blockSize_pos),
    List.getElem?_take] at htokens
  split at htokens
  case isFalse => cases htokens
  case isTrue hlt =>
    refine ⟨i, ⟨nameAt_of_commit B hrun hname, ?_, ?_⟩, ?_⟩
    · -- the block
      obtain ⟨rest, hrest⟩ := hids
      rw [← hrest, List.getElem?_append_left (List.getElem?_eq_some_iff.mp hi).1]
      exact hi
    · -- its tokens
      exact B.tables h hrun ▸ htokens
    · -- they are counted, as a full block is
      have hcounted := Nat.le_trans (s.stream h).fullBlockCount_mul_le (Nat.min_le_left _ _)
      rw [B.tables h hrun] at hcounted
      exact Nat.le_trans (Nat.mul_le_mul_right _ hlt) hcounted

/-! ### What is published -/

/-- Neither tokens nor the shape of the memory have changed. -/
structure Frame (s s' : Scheduler) : Prop where
  tokens : ∀ k, Stream.SameTokens (s.stream k) (s'.stream k)
  shape : SameShape s.allocator s'.allocator

theorem Frame.trans (hfirst : Frame s s₁) (hsecond : Frame s₁ s') : Frame s s' :=
  ⟨fun k => (hfirst.tokens k).trans (hsecond.tokens k), hfirst.shape.trans hsecond.shape⟩

theorem Steps.frame {p : Stage} (hsteps : Steps p s s') (hp : p ≠ .outside) : Frame s s' :=
  hsteps.keeps (P := Frame s)
    (fun hstep hs => hs.trans ⟨fun k => hstep.sameTokens hp k, hstep.sameShape⟩)
    ⟨fun _ => .refl _, .refl _⟩

theorem sweep_of_ok (hok : sweepWaiting s = .ok () s₁) : Steps .sweep s s₁ := by
  obtain ⟨t, hok', hsteps, -⟩ := sweepWaiting_steps s
  cases hok.symm.trans hok'
  exact hsteps

theorem growth_of_ok (B : s.Books) (hok : growRunning s = .ok () s') : Steps .growth s s' := by
  obtain ⟨t, hok', hsteps, -⟩ := growRunning_steps B
  cases hok.symm.trans hok'
  exact hsteps

/-- The release pass up to the turn of a stream.  The pass has set the batch already; for the
steps the stream is still in it. -/
theorem release_of_turn (B : s.Books) {front back : List Handle}
    (hturn : (s.running.partition s.isLive).2 = front ++ h :: back)
    (hfront : front.forM releaseStream
      { s with running := (s.running.partition s.isLive).1 } = .ok () u) :
    ∃ t, u = { t with running := (s.running.partition s.isLive).1 } ∧ Steps .release s t ∧
      h ∈ t.running := by
  rw [List.partition_eq_filter_filter] at hturn hfront ⊢
  have hended : ∀ k ∈ front ++ h :: back, k ∈ s.running ∧ s.isLive k = false := by
    intro k hk
    rw [← hturn] at hk
    obtain ⟨hrun, hend⟩ := List.mem_filter.mp hk
    exact ⟨hrun, by simpa using hend⟩
  have hnodup : (front ++ h :: back).Nodup := hturn ▸ B.nodup.filter _
  obtain ⟨hnodupFront, -, hapart⟩ := List.nodup_append.mp hnodup
  obtain ⟨t, hok, hsteps, hrest⟩ := forM_releaseStream_steps B hnodupFront
    (fun k hk => hended k (List.mem_append_left _ hk)) (s.running.filter s.isLive)
  cases hfront.symm.trans hok
  refine ⟨t, rfl, hsteps, ?_⟩
  rw [hrest]
  -- its turn has not come yet, as it is listed once
  refine List.mem_filter.mpr ⟨(hended h (List.mem_append_right _ List.mem_cons_self)).1, ?_⟩
  exact decide_eq_true fun hmem => hapart h hmem h List.mem_cons_self rfl

/-- A stream that publishes was in the batch before the tick, and what it adds to the cache
are entries for blocks of it, full of tokens that were counted before the tick. -/
theorem Publishes.entries (hpub : Publishes s h u u') (B : s.Books) :
    h ∈ s.running ∧ Frame s u ∧
      ∃ added, u'.allocator.cache.content = u.allocator.cache.content ++ added ∧ ∀ x ∈ added,
        ∃ i, u.EntryFor h i x ∧ (i + 1) * u.blockSize ≤ (u.stream h).seqLength := by
  cases hpub with
  | @commit s₁ t t₁ idx hsweep hrounds hitem hcheck hlive hgrow hreuse hok =>
    have hswept := sweep_of_ok hsweep
    have B₁ := hswept.keeps Step.books B
    have hbefore := hrounds.steps B₁
    obtain ⟨hround, -, hstays⟩ :=
      growOver_of_item (hbefore.keeps Step.books B₁) hitem hcheck hlive hgrow
    have hgrowth : Steps .growth s₁ u := hbefore.trans hround
    have Bu := hgrowth.keeps Step.books B₁
    have hrun : h ∈ u.running := hstays rfl
    refine ⟨hswept.running_eq ▸ hgrowth.running_subset h hrun,
      (hswept.frame (by decide)).trans (hgrowth.frame (by decide)), ?_⟩
    rcases commitFullBlocks_spec Bu hrun with hok' | ⟨a, hok', C⟩
    · -- no more full blocks than before: nothing is added
      cases hok.symm.trans hok'
      exact ⟨[], (List.append_nil _).symm, fun _ hx => absurd hx List.not_mem_nil⟩
    · cases hok.symm.trans hok'
      exact entries_of_committed Bu hrun C (List.take_prefix _ _)
  | @release s₁ s₂ front back hsweep hgrow hturn hfront hok =>
    have hswept := sweep_of_ok hsweep
    have B₁ := hswept.keeps Step.books B
    have hgrowth := growth_of_ok B₁ hgrow
    have B₂ := hgrowth.keeps Step.books B₁
    obtain ⟨t, rfl, hrelease, hrun⟩ := release_of_turn B₂ hturn hfront
    have Bt := hrelease.keeps Step.books B₂
    have hframe := ((hswept.frame (by decide)).trans (hgrowth.frame (by decide))).trans
      (hrelease.frame (by decide))
    refine ⟨hswept.running_eq ▸ hgrowth.running_subset h (hrelease.of_release.1.subset hrun),
      ⟨hframe.tokens, hframe.shape⟩, ?_⟩
    obtain ⟨a, hok', C⟩ := releaseStream_spec
      (s := { t with running := (s₂.running.partition s₂.isLive).1 }) (Bt.ledger_of_mem hrun)
    cases hok.symm.trans hok'
    obtain ⟨added, hcontent, hadded⟩ := entries_of_committed Bt hrun C (List.prefix_refl _)
    refine ⟨added, hcontent, fun x hx => ?_⟩
    obtain ⟨i, hentry, hle⟩ := hadded x hx
    exact ⟨i, ⟨hentry.name, hentry.block, hentry.tokens⟩, hle⟩

/-! ### Nothing else is -/

/-- A run that gets into a class of states does so at some step. -/
theorem exists_turn {α : Type} {r : α → α → Prop} {P : α → Prop} {a b : α}
    (hrun : ReflTransGen r a b) (ha : ¬ P a) (hb : P b) :
    ∃ c d, ReflTransGen r a c ∧ r c d ∧ ¬ P c ∧ P d := by
  induction hrun with
  | refl => exact absurd hb ha
  | @tail c d hrun hlast ih =>
    by_cases hc : P c
    · exact ih hc
    · exact ⟨c, d, hrun, hlast, hc, hb⟩

/-- The sweep leaves the memory alone. -/
theorem Steps.allocator_eq (hsteps : Steps .sweep s s') : s'.allocator = s.allocator := by
  refine hsteps.keeps (P := fun t => t.allocator = s.allocator) ?_ rfl
  intro t t' hstep ht
  cases hstep with
  | lapse | drop => exact ht

/-- Admission adds no entries. -/
theorem Steps.cachesOnly (hsteps : Steps .admission s s') : s'.CachesOnly s := by
  refine hsteps.keeps (P := fun t => t.CachesOnly s) ?_ (.refl _)
  intro t t' hstep ht
  cases hstep with
  | enter _ _ _ ha => exact ha.content.trans ht
  | skip _ _ ha | wait ha => exact ha.content.trans ht
  | refuse _ _ _ _ _ ha => exact ha.content.trans ht

variable {x : UInt64 × Nat × List UInt32}

/-- An entry that the growth pass leaves in the cache was there, or a stream has published
it in its round. -/
theorem published_in_growth (hsweep : sweepWaiting s = .ok () s₁) (B₁ : s₁.Books)
    (hok : growRunning s₁ = .ok () s₂) (hnew : x ∉ s₁.allocator.cache.content)
    (hx : x ∈ s₂.allocator.cache.content) :
    ∃ h u u', Publishes s h u u' ∧ x ∈ u'.allocator.cache.content ∧
      x ∉ u.allocator.cache.content := by
  unfold growRunning at hok
  rw [bind_get] at hok
  obtain ⟨last, hrounds⟩ := growFrom_rounds hok
  obtain ⟨⟨idx, t⟩, ⟨next, t'⟩, hbefore, hround, hold, hnow⟩ :=
    exists_turn (P := fun q : Nat × Scheduler => x ∈ q.2.allocator.cache.content) hrounds hnew hx
  have hsteps := Rounds.steps hbefore B₁
  have B := hsteps.keeps Step.books B₁
  obtain ⟨h, t₁, hitem, hcheck, hcases⟩ := growAt_eq_ok hround.2
  rcases hcases with rfl | ⟨hlive, grown, u, hgrow, hcases⟩
  · -- a check changes no cache
    cases hcheck
    exact absurd hnow hold
  · have hless := (growOver_of_item B hitem hcheck hlive hgrow).2.1
    have hold' : x ∉ u.allocator.cache.content := fun hmem => hold (hless.subset hmem)
    rcases hcases with rfl | ⟨rfl, hreuse, hcommit⟩
    · exact absurd hnow hold'
    · exact ⟨h, u, t', .commit hsweep hbefore hitem hcheck hlive hgrow hreuse hcommit, hnow, hold'⟩

/-- The same for the release pass. -/
theorem published_in_release (hsweep : sweepWaiting s = .ok () s₁)
    (hgrow : growRunning s₁ = .ok () s₂) (hok : releaseEnded s₂ = .ok () s₃)
    (hnew : x ∉ s₂.allocator.cache.content) (hx : x ∈ s₃.allocator.cache.content) :
    ∃ h u u', Publishes s h u u' ∧ x ∈ u'.allocator.cache.content ∧
      x ∉ u.allocator.cache.content := by
  unfold releaseEnded at hok
  rw [bind_get] at hok
  have hloop : (s₂.running.partition s₂.isLive).2.forM releaseStream
      { s₂ with running := (s₂.running.partition s₂.isLive).1 } = .ok () s₃ := hok
  obtain ⟨front, h, back, u, u', hturn, hfront, hone, hold, hnow⟩ :=
    forM_turn (P := fun v : Scheduler => x ∈ v.allocator.cache.content) hloop hnew hx
  exact ⟨h, u, u', .release hsweep hgrow hturn hfront hone, hnow, hold⟩

/-- Whatever is in the cache after a tick and was not before, a stream has published. -/
theorem Tick.published (T : Tick s s₁ s₂ s₃ s') (B : s.Books)
    (hnew : x ∉ s.allocator.cache.content) (hx : x ∈ s'.allocator.cache.content) :
    ∃ h u u', Publishes s h u u' ∧ x ∈ u'.allocator.cache.content ∧
      x ∉ u.allocator.cache.content := by
  obtain ⟨hsweep, hgrow, hrelease, -⟩ := T.passes
  rw [← T.sweep.allocator_eq] at hnew
  have hx₃ : x ∈ s₃.allocator.cache.content := T.admission.cachesOnly.subset hx
  by_cases hx₂ : x ∈ s₂.allocator.cache.content
  · exact published_in_growth hsweep (T.sweep.keeps Step.books B) hgrow hnew hx₂
  · exact published_in_release hsweep hgrow hrelease hx₂ hx₃

end Scheduler

end PagedServe
