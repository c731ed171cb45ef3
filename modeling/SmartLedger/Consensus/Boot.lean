import SmartLedger.Consensus.Redelivery

/-! # One boot of an engine

A node starts its engine once, hands it messages, timers and submissions, and
after a batch of blocks from a peer resumes it, if at least one of them was
applied. `BootRun` are the runs this makes up, handler by handler; `Passes` are
the states in between as well.

Everything an engine does once per round leaves a mark in its log: entering
the round (with a proposal or a propose timeout), the two votes and the two
other timeouts. `Marked` ties the marks of the current height to where the
engine stands in it, so that no mark is ever made twice (`Marked.nodup`).
-/

namespace SmartLedger

open Engine

variable {C : Crypto} {ord : IterOrder} {e e' : Engine C} {log : List (Output C)}

/-! ## Runs -/

/-- Events that are handled on their own. -/
def Event.plain : Event C → Bool
  | .start | .resume | .synced _ => false
  | .message _ | .timeout _ _ _ | .attestation _ | .governance _ | .setTime _ => true

/-- Blocks of a peer applied one after the other. -/
inductive Applies : Engine C → List (Block C) → Engine C → Prop where
  | nil (e : Engine C) : Applies e [] e
  | cons {e e₁ e' : Engine C} {b : Block C} {bs : List (Block C)}
      (h : e.applySyncedBlock b = .ok (.ok e₁)) (rest : Applies e₁ bs e') : Applies e (b :: bs) e'

/-- What a node lets its engine do in one go, with what the engine did before:
an event that meets the guard, or a catch-up. -/
inductive BootStep (guard : List (Output C) → Engine C → Event C → Prop)
    (log : List (Output C)) (e : Engine C) : List (Output C) → Engine C → Prop where
  | event {ord : IterOrder} {ev : Event C} {out : List (Output C)} {e' : Engine C}
      (hplain : ev.plain = true) (hguard : guard log e ev)
      (h : e.handle ord ev = .ok (e', out)) : BootStep guard log e out e'
  | catchUp {ord : IterOrder} {bs : List (Block C)} {out : List (Output C)} {e₁ e' : Engine C}
      (hbs : bs ≠ []) (happlies : Applies e bs e₁)
      (h : e₁.handle ord .resume = .ok (e', out)) :
      BootStep guard log e (bs.map .applied ++ out) e'

/-- The runs of an engine `e₀` under a node. -/
inductive BootRun (guard : List (Output C) → Engine C → Event C → Prop) (e₀ : Engine C) :
    List (Output C) → Engine C → Prop where
  | start {ord : IterOrder} {now : UInt64} {out : List (Output C)} {e : Engine C}
      (h : (e₀.setTime now).handle ord .start = .ok (e, out)) : BootRun guard e₀ out e
  | step {log out : List (Output C)} {e e' : Engine C} (h : BootRun guard e₀ log e)
      (hstep : BootStep guard log e out e') : BootRun guard e₀ (log ++ out) e'

/-- Further handler calls of a boot, with what they add to the log. -/
inductive BootSteps (guard : List (Output C) → Engine C → Event C → Prop)
    (log : List (Output C)) (e : Engine C) : List (Output C) → Engine C → Prop where
  | refl : BootSteps guard log e [] e
  | step {news out : List (Output C)} {e₁ e₂ : Engine C} (h : BootSteps guard log e news e₁)
      (hstep : BootStep guard (log ++ news) e₁ out e₂) : BootSteps guard log e (news ++ out) e₂

/-- The same in small steps. -/
inductive Passage (guard : List (Output C) → Engine C → Event C → Prop) :
    List (Output C) × Engine C → List (Output C) × Engine C → Prop where
  | enter {log out : List (Output C)} {e e' : Engine C} {ev : Event C}
      (hplain : ev.plain = true) (hguard : guard log e ev) (hent : Enter ev e out e') :
      Passage guard (log, e) (log ++ out, e')
  | internal {ord : IterOrder} {log : List (Output C)} {out : List (Effect C)} {e e' : Engine C}
      (hi : Internal ord e out e') : Passage guard (log, e) (log ++ effects out, e')
  | catchUp {log : List (Output C)} {bs : List (Block C)} {out : List (Effect C)}
      {e e₁ e' : Engine C} (hbs : bs ≠ []) (happlies : Applies e bs e₁)
      (h : e₁.startRound 0 = .ok (e', out)) :
      Passage guard (log, e) (log ++ (bs.map .applied ++ effects out), e')

/-- The states an engine passes through under a node, also in the middle of a
handler. -/
inductive Passes (guard : List (Output C) → Engine C → Event C → Prop) (e₀ : Engine C) :
    List (Output C) × Engine C → Prop where
  | start {now : UInt64} {out : List (Effect C)} {e : Engine C}
      (h : (e₀.setTime now).startRound 0 = .ok (e, out)) : Passes guard e₀ (effects out, e)
  | step {s s' : List (Output C) × Engine C} (h : Passes guard e₀ s)
      (hstep : Passage guard s s') : Passes guard e₀ s'

section Passes

variable {guard : List (Output C) → Engine C → Event C → Prop} {e₀ : Engine C}

theorem Passes.internals {out : List (Effect C)} (h : Passes guard e₀ (log, e))
    (hi : Internals ord e out e') : Passes guard e₀ (log ++ effects out, e') := by
  induction hi generalizing log with
  | refl e => simpa using h
  | step hi rest ih =>
      rw [effects_append, ← List.append_assoc]
      exact ih (h.step (Passage.internal hi))

theorem Engine.Queues.enter {ev : Event C} {pool : List (Attestation C)}
    {gov : List (SignedValidatorChange C)} (h : e.Queues ev pool gov) :
    Enter ev e [] { e with mempool := pool, govMempool := gov } := by
  cases h with
  | attestation att => exact Enter.attestation
  | governance hacc => exact Enter.governance hacc

/-- What happens before the rules run is a change of the inputs and internal
steps. -/
theorem Engine.Opens.steps {ev : Event C} {out : List (Output C)} {go : Bool}
    (h : e.Opens ev e' out go) :
    ∃ e₁ o₁ o₂, Enter ev e o₁ e₁ ∧ Internals ord e₁ o₂ e' ∧ out = o₁ ++ effects o₂ := by
  cases h with
  | round hev hstart =>
      refine ⟨e', _, [], ?_, Internals.refl _, (List.append_nil _).symm⟩
      rcases hev with rfl | rfl
      · exact Enter.start hstart
      · exact Enter.resume hstart
  | message hingest hwake => exact ⟨_, [], _, Enter.message hingest, wakeFor_internals hwake, rfl⟩
  | timer hfire => exact ⟨_, [], _, Enter.timeout, fireTimeout_internals hfire, rfl⟩
  | lateTimer => exact ⟨_, [], [], Enter.timeout, Internals.refl _, rfl⟩
  | woken hqueues _ hunpark => exact ⟨_, [], _, hqueues.enter, unpark_internals hunpark, rfl⟩
  | queued hqueues => exact ⟨_, [], [], hqueues.enter, Internals.refl _, rfl⟩
  | refused hev =>
      refine ⟨_, [], [], ?_, Internals.refl _, rfl⟩
      rcases hev with ⟨c, rfl, hrefused⟩ | ⟨b, err, rfl, hrejected⟩
      · exact Enter.refused hrefused
      · exact Enter.rejected hrejected
  | synced hsync => exact ⟨_, _, [], Enter.synced hsync, Internals.refl _, rfl⟩
  | setTime now => exact ⟨_, [], [], Enter.setTime, Internals.refl _, rfl⟩

theorem Passes.bootStep {out : List (Output C)} (h : Passes guard e₀ (log, e))
    (hstep : BootStep guard log e out e') : Passes guard e₀ (log ++ out, e') := by
  cases hstep with
  | event hplain hguard hhandle =>
      rcases handle_steps hhandle with ⟨e₁, o₁, o₂, hent, hints, rfl⟩
      rw [← List.append_assoc]
      exact (h.step (Passage.enter hplain hguard hent)).internals hints
  | catchUp hbs happlies hresume =>
      rcases handle_steps hresume with ⟨e₁, o₁, o₂, hent, hints, rfl⟩
      cases hent with
      | resume hround =>
          rw [← List.append_assoc, ← List.append_assoc]
          have hpass := h.step (Passage.catchUp hbs happlies hround)
          rw [← List.append_assoc] at hpass
          exact hpass.internals hints

/-- Handlers are made of small steps. -/
theorem BootRun.passes (h : BootRun guard e₀ log e) : Passes guard e₀ (log, e) := by
  induction h with
  | start h =>
      rcases handle_steps h with ⟨e₁, o₁, o₂, hent, hints, rfl⟩
      cases hent with
      | start hround => exact (Passes.start hround).internals hints
  | step _ hstep ih => exact ih.bootStep hstep

end Passes

/-- Where a batch of blocks leads: a later height at which nothing happened
yet. -/
structure FreshAt (e : Engine C) : Prop where
  round : e.round = 0
  step : e.step = .propose
  parked : e.parked = false
  validValue : e.validValue = none
  proposals : e.proposals = ∅
  prevotes : e.prevotes = ∅
  precommits : e.precommits = ∅
  prevoteTimers : e.prevoteTimeoutStarted = ∅
  precommitTimers : e.precommitTimeoutStarted = ∅

theorem FreshAt.of_new {registry : ValidatorRegistry C} {meSk : C.SigningKey}
    {mePk : C.VerifyingKey} {tip : Hash} {startHeight : UInt64}
    (h : withRegistry registry meSk mePk tip startHeight = .ok e) : FreshAt e := by
  rcases withRegistry_eq_ok h with ⟨set, _, rfl⟩
  exact ⟨rfl, rfl, rfl, rfl, rfl, rfl, rfl, rfl, rfl⟩

theorem FreshAt.setTime (h : FreshAt e) (now : UInt64) : FreshAt (e.setTime now) :=
  ⟨h.round, h.step, h.parked, h.validValue, h.proposals, h.prevotes, h.precommits,
    h.prevoteTimers, h.precommitTimers⟩

theorem Applies.fresh {bs : List (Block C)} (h : Applies e bs e') (hbs : bs ≠ []) :
    FreshAt e' ∧ e.height < e'.height ∧ e'.mePk = e.mePk := by
  induction h with
  | nil => exact absurd rfl hbs
  | @cons e e₁ e' b bs hsync rest ih =>
      have hfirst : FreshAt e₁ ∧ e.height < e₁.height ∧ e₁.mePk = e.mePk := by
        rcases applySyncedBlock_cases hsync with ⟨_, _, height, set, hheight, _, rfl⟩
        exact ⟨⟨rfl, rfl, rfl, rfl, rfl, rfl, rfl, rfl, rfl⟩, lt_of_checkedAdd_one hheight, rfl⟩
      by_cases hnil : bs = []
      · subst hnil
        cases rest
        exact hfirst
      · rcases ih hnil with ⟨hfresh, hlt, hkey⟩
        exact ⟨hfresh, UInt64.lt_trans hfirst.2.1 hlt, hkey.trans hfirst.2.2⟩

/-! ## Marks -/

/-- What an engine does once per round. -/
inductive Mark where
  | entered
  | prevoted
  | precommitted
  | prevoteTimer
  | precommitTimer
deriving DecidableEq

def VoteType.mark : VoteType → Mark
  | .prevote => .prevoted
  | .precommit => .precommitted

/-- A propose timeout means that the round was entered without a proposal. -/
def TimeoutKind.mark : TimeoutKind → Mark
  | .propose => .entered
  | .prevote => .prevoteTimer
  | .precommit => .precommitTimer

/-- The mark an output leaves, with its height and round. -/
def Output.mark? : Output C → Option (UInt64 × UInt64 × Mark)
  | .effect (.broadcast (.proposal pm)) => some (pm.height, pm.round, .entered)
  | .effect (.broadcast (.vote vm)) => some (vm.height, vm.round, vm.voteType.mark)
  | .effect (.scheduleTimeout h r kind) => some (h, r, kind.mark)
  | .effect (.committed _) => none
  | .applied _ => none

def marks (log : List (Output C)) : List (UInt64 × UInt64 × Mark) := log.filterMap Output.mark?

@[simp] theorem marks_append (a b : List (Output C)) : marks (a ++ b) = marks a ++ marks b :=
  List.filterMap_append

@[simp] theorem marks_nil : marks ([] : List (Output C)) = [] := rfl

theorem marks_applied (bs : List (Block C)) : marks (bs.map Output.applied) = [] := by
  induction bs with
  | nil => rfl
  | cons b bs ih => exact ih

/-- Where the engine stands says that the mark was made in round `r`. -/
def Done (e : Engine C) (r : UInt64) : Mark → Prop
  | .entered => r < e.round ∨ r = e.round ∧ e.parked = false
  | .prevoted => r < e.round ∨ r = e.round ∧ e.step ≠ .propose
  | .precommitted => r < e.round ∨ r = e.round ∧ e.step = .precommit
  | .prevoteTimer => r ∈ e.prevoteTimeoutStarted
  | .precommitTimer => r ∈ e.precommitTimeoutStarted

/-- What the marks have in common with where the engine stands. -/
structure Marked (log : List (Output C)) (e : Engine C) : Prop where
  nodup : (marks log).Nodup
  height_le : ∀ {h r m}, (h, r, m) ∈ marks log → h ≤ e.height
  done : ∀ {r m}, (e.height, r, m) ∈ marks log → Done e r m

/-- Entering a round parks without a mark, or marks the round as entered. -/
theorem startRound_marks {r : UInt64} {out : List (Effect C)}
    (h : e.startRound r = .ok (e', out)) :
    (r = 0 ∧ e'.parked = true ∧ out = []) ∨
    (e'.parked = false ∧ marks (effects out) = [(e.height, r, .entered)]) := by
  rcases startRound_cases h with ⟨hr, _, _, _, rfl, hout⟩ | henter
  · exact Or.inl ⟨hr, rfl, hout⟩
  · right
    rcases enterPropose_cases henter with ⟨_, _, rfl, rfl⟩ | ⟨rfl, rfl⟩
    · exact ⟨rfl, rfl⟩
    · exact ⟨rfl, rfl⟩

theorem wake_marks {out : List (Effect C)}
    (h : enterPropose { e with parked := false } e.round = .ok (e', out)) :
    marks (effects out) = [(e.height, e.round, .entered)] := by
  rcases enterPropose_cases h with ⟨_, _, _, rfl⟩ | ⟨_, rfl⟩
  · rfl
  · rfl

/-- From the prevote step to the precommit step of the same round. -/
theorem done_precommit (hstep : e.step = .prevote) (hround : e'.round = e.round)
    (hafter : e'.step = .precommit) (hparked : e'.parked = e.parked)
    (hprevote : e'.prevoteTimeoutStarted = e.prevoteTimeoutStarted)
    (hprecommit : e'.precommitTimeoutStarted = e.precommitTimeoutStarted) (r : UInt64) (m : Mark)
    (h : Done e r m) : Done e' r m := by
  cases m with
  | entered =>
      unfold Done at h ⊢
      rwa [hround, hparked]
  | prevoted =>
      unfold Done at h ⊢
      rw [hround]
      exact h.imp_right fun hr => ⟨hr.1, by simp [hafter]⟩
  | precommitted =>
      -- the mark is of an earlier round, for in this one it was not made yet
      rcases h with hlt | ⟨_, hpre⟩
      · exact Or.inl (hround ▸ hlt)
      · rw [hstep] at hpre
        cases hpre
  | prevoteTimer =>
      unfold Done at h ⊢
      rwa [hprevote]
  | precommitTimer =>
      unfold Done at h ⊢
      rwa [hprecommit]

theorem not_done_precommitted (hstep : e.step = .prevote) : ¬ Done e e.round .precommitted := by
  rintro (hlt | ⟨_, hpre⟩)
  · exact UInt64.lt_irrefl _ hlt
  · rw [hstep] at hpre
    cases hpre

namespace Marked

/-- Within a height, marks are made where the engine was not yet. -/
theorem forward {out : List (Output C)} (h : Marked log e) (hheight : e'.height = e.height)
    (hkeeps : ∀ r m, Done e r m → Done e' r m)
    (hout : marks out = [] ∨ ∃ r m, marks out = [(e.height, r, m)] ∧ ¬ Done e r m ∧ Done e' r m) :
    Marked (log ++ out) e' := by
  rcases hout with hnone | ⟨r₀, m₀, hone, hnew, hdone⟩
  · refine ⟨?_, ?_, ?_⟩
    · rw [marks_append, hnone, List.append_nil]
      exact h.nodup
    · intro height r m hmem
      rw [marks_append, hnone, List.append_nil] at hmem
      rw [hheight]
      exact h.height_le hmem
    · intro r m hmem
      rw [marks_append, hnone, List.append_nil, hheight] at hmem
      exact hkeeps r m (h.done hmem)
  · refine ⟨?_, ?_, ?_⟩
    -- the new mark was not done, those of the log are
    · rw [marks_append, hone, List.nodup_append]
      refine ⟨h.nodup, List.nodup_singleton _, ?_⟩
      rintro a ha b hb rfl
      rw [List.mem_singleton.mp hb] at ha
      exact hnew (h.done ha)
    · intro height r m hmem
      rw [marks_append, hone] at hmem
      rw [hheight]
      rcases List.mem_append.mp hmem with hold | hlast
      · exact h.height_le hold
      · rw [List.mem_singleton, Prod.mk.injEq] at hlast
        rw [hlast.1]
        exact UInt64.le_refl _
    · intro r m hmem
      rw [marks_append, hone, hheight] at hmem
      rcases List.mem_append.mp hmem with hold | hlast
      · exact hkeeps r m (h.done hold)
      · rw [List.mem_singleton, Prod.mk.injEq, Prod.mk.injEq] at hlast
        rw [hlast.2.1, hlast.2.2]
        exact hdone

/-- Entering round 0 of a height without marks. -/
theorem fresh {out : List (Effect C)} (hnodup : (marks log).Nodup)
    (hbefore : ∀ {h r m}, (h, r, m) ∈ marks log → h < e.height)
    (h : e.startRound 0 = .ok (e', out)) : Marked (log ++ effects out) e' := by
  have hheight := (startRound_sameHeight h).1.height
  have hround : e'.round = 0 := by
    rcases startRound_frame h with ⟨_, _, rfl, _⟩
    rfl
  rcases startRound_marks h with ⟨_, _, rfl⟩ | ⟨hawake, hone⟩
  · refine ⟨by simpa using hnodup, ?_, ?_⟩
    · intro height r m hmem
      rw [hheight]
      exact UInt64.le_of_lt (hbefore (by simpa using hmem))
    · intro r m hmem
      rw [hheight] at hmem
      exact absurd (hbefore (by simpa using hmem)) (UInt64.lt_irrefl _)
  · refine ⟨?_, ?_, ?_⟩
    -- the one new mark is of a height that has none
    · rw [marks_append, hone, List.nodup_append]
      refine ⟨hnodup, List.nodup_singleton _, ?_⟩
      rintro a ha b hb rfl
      rw [List.mem_singleton.mp hb] at ha
      exact UInt64.lt_irrefl _ (hbefore ha)
    · intro height r m hmem
      rw [marks_append, hone] at hmem
      rw [hheight]
      rcases List.mem_append.mp hmem with hold | hlast
      · exact UInt64.le_of_lt (hbefore hold)
      · rw [List.mem_singleton, Prod.mk.injEq] at hlast
        rw [hlast.1]
        exact UInt64.le_refl _
    · intro r m hmem
      rw [marks_append, hone, hheight] at hmem
      rcases List.mem_append.mp hmem with hold | hlast
      · exact absurd (hbefore hold) (UInt64.lt_irrefl _)
      · rw [List.mem_singleton, Prod.mk.injEq, Prod.mk.injEq] at hlast
        rw [hlast.2.1, hlast.2.2]
        exact Or.inr ⟨hround.symm, hawake⟩

theorem internal {out : List (Effect C)} (h : Marked log e) (hi : Internal ord e out e') :
    Marked (log ++ effects out) e' := by
  cases hi with
  | prevote hstep hguard =>
      refine h.forward rfl ?_ (Or.inr ⟨e.round, .prevoted, rfl, ?_, ?_⟩)
      · intro r m hdone
        cases m with
        | entered => exact hdone
        | prevoted => exact hdone.imp_right fun hr => ⟨hr.1, by simp [castPrevote]⟩
        | precommitted =>
            rcases hdone with hlt | ⟨_, hpre⟩
            · exact Or.inl hlt
            · rw [hstep] at hpre
              cases hpre
        | prevoteTimer => exact hdone
        | precommitTimer => exact hdone
      · rintro (hlt | ⟨_, hne⟩)
        · exact UInt64.lt_irrefl _ hlt
        · exact hne hstep
      · exact Or.inr ⟨rfl, by simp [castPrevote]⟩
  | schedulePrevote hstep hnew hquorum =>
      refine h.forward rfl ?_ (Or.inr ⟨e.round, .prevoteTimer, rfl, hnew, ?_⟩)
      · intro r m hdone
        cases m with
        | prevoteTimer => exact Finset.mem_insert_of_mem hdone
        | entered => exact hdone
        | prevoted => exact hdone
        | precommitted => exact hdone
        | precommitTimer => exact hdone
      · exact Finset.mem_insert_self _ _
  | polka hstep hnew hpm hpolka hvalid =>
      exact h.forward rfl (done_precommit hstep rfl rfl rfl rfl rfl)
        (Or.inr ⟨e.round, .precommitted, rfl, not_done_precommitted hstep, Or.inr ⟨rfl, rfl⟩⟩)
  | latePolka => exact h.forward rfl (fun r m hdone => by cases m <;> exact hdone) (Or.inl rfl)
  | precommitNil hstep =>
      exact h.forward rfl (done_precommit hstep rfl rfl rfl rfl rfl)
        (Or.inr ⟨e.round, .precommitted, rfl, not_done_precommitted hstep, Or.inr ⟨rfl, rfl⟩⟩)
  | schedulePrecommit hnew hquorum =>
      refine h.forward rfl ?_ (Or.inr ⟨e.round, .precommitTimer, rfl, hnew, ?_⟩)
      · intro r m hdone
        cases m with
        | precommitTimer => exact Finset.mem_insert_of_mem hdone
        | entered => exact hdone
        | prevoted => exact hdone
        | precommitted => exact hdone
        | prevoteTimer => exact hdone
      · exact Finset.mem_insert_self _ _
  | @jump _ r _ hlt hstart =>
      have hmarks := startRound_marks hstart
      rcases startRound_frame hstart with ⟨parked, proposals, rfl, _⟩
      refine h.forward rfl ?_ ?_
      · intro r' m hdone
        -- whatever was done up to the old round is behind us
        have hbehind : ∀ {P : Prop}, r' < e.round ∨ r' = e.round ∧ P → r' < r := by
          rintro P (hlt' | ⟨rfl, _⟩)
          · exact UInt64.lt_trans hlt' hlt
          · exact hlt
        cases m with
        | entered => exact Or.inl (hbehind hdone)
        | prevoted => exact Or.inl (hbehind hdone)
        | precommitted => exact Or.inl (hbehind hdone)
        | prevoteTimer => exact hdone
        | precommitTimer => exact hdone
      · rcases hmarks with ⟨_, _, rfl⟩ | ⟨hawake, hone⟩
        · exact Or.inl rfl
        · refine Or.inr ⟨r, .entered, hone, ?_, Or.inr ⟨rfl, hawake⟩⟩
          rintro (hlt' | ⟨rfl, _⟩)
          · exact UInt64.lt_irrefl _ (UInt64.lt_trans hlt hlt')
          · exact UInt64.lt_irrefl _ hlt
  | wake hparked hwake =>
      have hone := wake_marks hwake
      rcases wake_frame hwake with ⟨proposals, rfl, _⟩
      refine h.forward rfl ?_ (Or.inr ⟨e.round, .entered, hone, ?_, Or.inr ⟨rfl, rfl⟩⟩)
      · intro r m hdone
        cases m with
        | entered => exact hdone.imp_right fun hr => ⟨hr.1, rfl⟩
        | prevoted => exact hdone
        | precommitted => exact hdone
        | prevoteTimer => exact hdone
        | precommitTimer => exact hdone
      · rintro (hlt | ⟨_, hawake⟩)
        · exact UInt64.lt_irrefl _ hlt
        · rw [hparked] at hawake
          cases hawake
  | commit _ _ _ hcommit =>
      rcases commit_cases hcommit with ⟨height, set, out', hheight, _, hstart, rfl⟩
      have hlater : e.height < height := lt_of_checkedAdd_one hheight
      have hlog : ∀ b : Block C,
          log ++ effects (.committed b :: out') = (log ++ [.effect (.committed b)]) ++ effects out' := by
        intro b
        simp [effects]
      rw [hlog]
      have hsame : ∀ b : Block C, marks (log ++ [.effect (.committed b)]) = marks log := by
        intro b
        rw [marks_append]
        exact List.append_nil _
      refine fresh (by rw [hsame]; exact h.nodup) ?_ hstart
      intro h' r m hmem
      rw [hsame] at hmem
      exact UInt64.lt_of_le_of_lt (h.height_le hmem) hlater

theorem enter {ev : Event C} {out : List (Output C)} (h : Marked log e) (hplain : ev.plain = true)
    (hent : Enter ev e out e') : Marked (log ++ out) e' := by
  have hstays : ∀ {e₁ : Engine C}, e₁.height = e.height → e₁.round = e.round →
      e₁.step = e.step → e₁.parked = e.parked →
      e₁.prevoteTimeoutStarted = e.prevoteTimeoutStarted →
      e₁.precommitTimeoutStarted = e.precommitTimeoutStarted → Marked (log ++ []) e₁ := by
    intro e₁ hheight hround hstep hparked hprevote hprecommit
    refine h.forward hheight ?_ (Or.inl rfl)
    intro r m hdone
    cases m <;> simpa [Done, hround, hstep, hparked, hprevote, hprecommit] using hdone
  cases hent with
  | start => cases hplain
  | message hi =>
      rcases ingest_frame hi with ⟨_, _, _, rfl⟩
      exact hstays rfl rfl rfl rfl rfl rfl
  | timeout => exact hstays rfl rfl rfl rfl rfl rfl
  | attestation => exact hstays rfl rfl rfl rfl rfl rfl
  | governance => exact hstays rfl rfl rfl rfl rfl rfl
  | refused => exact hstays rfl rfl rfl rfl rfl rfl
  | synced => cases hplain
  | rejected => cases hplain
  | resume => cases hplain
  | setTime => exact hstays rfl rfl rfl rfl rfl rfl

theorem passes {guard : List (Output C) → Engine C → Event C → Prop} {e₀ : Engine C}
    {s : List (Output C) × Engine C} (h : Passes guard e₀ s) : Marked s.1 s.2 := by
  induction h with
  | start h =>
      have hempty : (marks ([] : List (Output C))).Nodup := List.nodup_nil
      refine fresh hempty ?_ h
      intro h r m hmem
      cases hmem
  | step _ hstep ih =>
      cases hstep with
      | enter hplain _ hent => exact ih.enter hplain hent
      | internal hi => exact ih.internal hi
      | catchUp hbs happlies hstart =>
          rw [← List.append_assoc]
          have hmarks := marks_applied (C := C)
          refine fresh ?_ ?_ hstart
          · rw [marks_append, hmarks, List.append_nil]
            exact ih.nodup
          · intro h r m hmem
            rw [marks_append, hmarks, List.append_nil] at hmem
            exact UInt64.lt_of_le_of_lt (ih.height_le hmem) (happlies.fresh hbs).2.1

end Marked

/-- What leaves distinct marks is distinct. -/
theorem nodup_map_of_marks {β : Type} {f : β → UInt64 × UInt64 × Mark}
    {g : Output C → Option β} (hg : ∀ x b, g x = some b → x.mark? = some (f b))
    (h : (marks log).Nodup) : ((log.filterMap g).map f).Nodup := by
  have hsub : ((log.filterMap g).map f).Sublist (marks log) := by
    unfold marks
    clear h
    induction log with
    | nil => exact List.Sublist.refl _
    | cons x log ih =>
        cases hx : g x with
        | none =>
            rw [List.filterMap_cons_none hx]
            refine ih.trans ?_
            rw [List.filterMap_cons]
            split
            · exact List.Sublist.refl _
            · exact List.sublist_cons_self _ _
        | some b =>
            rw [List.filterMap_cons_some hx, List.filterMap_cons_some (hg x b hx), List.map_cons]
            exact ih.cons_cons _
  exact List.Nodup.sublist hsub h

/-! ## No equivocation -/

/-- The proposals an engine made. -/
def proposalsMade (log : List (Output C)) : List (ProposalMsg C) :=
  log.filterMap fun
    | .effect (.broadcast (.proposal pm)) => some pm
    | _ => none

/-- The votes an engine cast. -/
def votesCast (log : List (Output C)) : List (VoteMsg C) :=
  log.filterMap fun
    | .effect (.broadcast (.vote vm)) => some vm
    | _ => none

/-- No restriction on what the node hands over. -/
def anyDrive : List (Output C) → Engine C → Event C → Prop := fun _ _ _ => True

theorem Marked.proposals_nodup (h : Marked log e) :
    ((proposalsMade log).map fun pm => (pm.height, pm.round)).Nodup := by
  have hmap : ((proposalsMade log).map fun pm => (pm.height, pm.round, Mark.entered)).Nodup := by
    apply nodup_map_of_marks _ h.nodup
    intro x pm hx
    split at hx
    · obtain rfl := Option.some.inj hx
      rfl
    · cases hx
  have hcomp : ((proposalsMade log).map fun pm => (pm.height, pm.round, Mark.entered)) =
      ((proposalsMade log).map fun pm => (pm.height, pm.round)).map fun p => (p.1, p.2, .entered) := by
    rw [List.map_map]
    rfl
  rw [hcomp] at hmap
  exact hmap.of_map _

theorem Marked.votes_nodup (h : Marked log e) :
    ((votesCast log).map fun vm => (vm.height, vm.round, vm.voteType)).Nodup := by
  have hmap : ((votesCast log).map fun vm => (vm.height, vm.round, vm.voteType.mark)).Nodup := by
    apply nodup_map_of_marks _ h.nodup
    intro x vm hx
    split at hx
    · obtain rfl := Option.some.inj hx
      rfl
    · cases hx
  have hcomp : ((votesCast log).map fun vm => (vm.height, vm.round, vm.voteType.mark)) =
      ((votesCast log).map fun vm => (vm.height, vm.round, vm.voteType)).map
        fun p => (p.1, p.2.1, p.2.2.mark) := by
    rw [List.map_map]
    rfl
  rw [hcomp] at hmap
  exact hmap.of_map _

/-- Every small step is at a later height, or at the same height and not at an
earlier round. -/
theorem Passage.forward {guard : List (Output C) → Engine C → Event C → Prop}
    {s s' : List (Output C) × Engine C} (h : Passage guard s s') :
    s.2.height < s'.2.height ∨ (s'.2.height = s.2.height ∧ s.2.round ≤ s'.2.round) := by
  -- most steps stay in the round
  have hstays : ∀ {e e' : Engine C}, e'.height = e.height → e'.round = e.round →
      e.height < e'.height ∨ (e'.height = e.height ∧ e.round ≤ e'.round) := by
    intro e e' hheight hround
    exact Or.inr ⟨hheight, hround ▸ UInt64.le_refl _⟩
  cases h with
  | enter hplain _ hent =>
      cases hent with
      | start => cases hplain
      | message hi =>
          rcases ingest_frame hi with ⟨_, _, _, rfl⟩
          exact hstays rfl rfl
      | timeout => exact hstays rfl rfl
      | attestation => exact hstays rfl rfl
      | governance => exact hstays rfl rfl
      | refused => exact hstays rfl rfl
      | synced => cases hplain
      | rejected => cases hplain
      | resume => cases hplain
      | setTime => exact hstays rfl rfl
  | internal hi =>
      cases hi with
      | prevote => exact hstays rfl rfl
      | schedulePrevote => exact hstays rfl rfl
      | polka => exact hstays rfl rfl
      | latePolka => exact hstays rfl rfl
      | precommitNil => exact hstays rfl rfl
      | schedulePrecommit => exact hstays rfl rfl
      | jump hlt hstart =>
          rcases startRound_frame hstart with ⟨_, _, rfl, _⟩
          exact Or.inr ⟨rfl, UInt64.le_of_lt hlt⟩
      | wake _ hwake =>
          rcases wake_frame hwake with ⟨_, rfl, _⟩
          exact hstays rfl rfl
      | commit _ _ _ hcommit =>
          rcases commit_cases hcommit with ⟨height, set, out', hheight, _, hstart, _⟩
          left
          show _ < _
          rw [(startRound_sameHeight hstart).1.height]
          exact lt_of_checkedAdd_one hheight
  | catchUp hbs happlies hstart =>
      left
      show _ < _
      rw [(startRound_sameHeight hstart).1.height]
      exact (happlies.fresh hbs).2.1

theorem Passage.forward_trans {guard : List (Output C) → Engine C → Event C → Prop}
    {s s' : List (Output C) × Engine C} (h : Relation.ReflTransGen (Passage guard) s s') :
    s.2.height < s'.2.height ∨ (s'.2.height = s.2.height ∧ s.2.round ≤ s'.2.round) := by
  induction h with
  | refl => exact Or.inr ⟨rfl, UInt64.le_refl _⟩
  | tail _ hstep ih =>
      rcases hstep.forward with hlt | ⟨heq, hle⟩
      · left
        rcases ih with hlt' | ⟨heq', _⟩
        · exact UInt64.lt_trans hlt' hlt
        · rwa [heq'] at hlt
      · rcases ih with hlt' | ⟨heq', hle'⟩
        · exact Or.inl (heq ▸ hlt')
        · exact Or.inr ⟨heq.trans heq', UInt64.le_trans hle' hle⟩

/-- A vote is cast in an internal step. -/
theorem Passage.vote_mem {guard : List (Output C) → Engine C → Event C → Prop}
    {out : List (Output C)} {vm : VoteMsg C} (h : Passage guard (log, e) (log ++ out, e'))
    (hvm : Cast out vm) : ∃ ord o, Internal ord e o e' ∧ .broadcast (.vote vm) ∈ o := by
  -- no change of the inputs, and no catch-up, casts a vote
  generalize hs : (log, e) = s at h
  generalize hs' : (log ++ out, e') = s' at h
  cases h with
  | enter hplain _ hent =>
      simp only [Prod.mk.injEq] at hs hs'
      rcases hs with ⟨rfl, rfl⟩
      rcases hs' with ⟨hout, rfl⟩
      rw [List.append_cancel_left hout] at hvm
      exact absurd hvm (hent.noVote vm)
  | internal hi =>
      simp only [Prod.mk.injEq] at hs hs'
      rcases hs with ⟨rfl, rfl⟩
      rcases hs' with ⟨hout, rfl⟩
      rw [List.append_cancel_left hout] at hvm
      exact ⟨_, _, hi, cast_effects.mp hvm⟩
  | catchUp hbs happlies hstart =>
      simp only [Prod.mk.injEq] at hs hs'
      rcases hs with ⟨rfl, rfl⟩
      rcases hs' with ⟨hout, rfl⟩
      rw [List.append_cancel_left hout] at hvm
      rcases cast_append.mp hvm with happlied | hround
      · simp [Cast] at happlied
      · exact absurd hround (noVote_startRound hstart vm)

/-- No equivocation within a boot. In every state that an engine passes
through after a node started it, it has made at most one proposal and cast at most one
prevote and one precommit per height and round, and later it is never at an
earlier round of the same height. Whenever it casts a precommit for a block,
it holds a quorum of prevotes of that round for it and, as the proposal of the
round, a valid value with that id. -/
theorem no_equivocation_in_boot (e₀ : Engine C) (log : List (Output C)) (e : Engine C)
    (h : Passes anyDrive e₀ (log, e)) :
    ((proposalsMade log).map fun pm => (pm.height, pm.round)).Nodup ∧
    ((votesCast log).map fun vm => (vm.height, vm.round, vm.voteType)).Nodup ∧
    (∀ log' e', Relation.ReflTransGen (Passage anyDrive) (log, e) (log', e') →
      e'.height = e.height → e.round ≤ e'.round) ∧
    ∀ out e' vm id, Passage anyDrive (log, e) (log ++ out, e') → Cast out vm →
      vm.voteType = .precommit → vm.blockId = some id →
      vm.height = e.height ∧ e.quorum ≤ e.countPrevotes vm.round (.id id) ∧
      ∃ pm, e.proposals.lookup vm.round = some pm ∧ pm.value.id = id ∧
        pm.value.isValid e.tip e.height e.currentSet = true := by
  have hmarked : Marked log e := Marked.passes h
  refine ⟨hmarked.proposals_nodup, hmarked.votes_nodup, ?_, ?_⟩
  · intro log' e' hlater hheight
    rcases Passage.forward_trans hlater with hlt | ⟨_, hle⟩
    · rw [show (log', e').2.height = e.height from hheight] at hlt
      exact absurd hlt (UInt64.lt_irrefl _)
    · exact hle
  · intro out e' vm id hpass hcast htype hid
    rcases hpass.vote_mem hcast with ⟨ord, o, hi, hvm⟩
    rcases hi.vote_cases hvm hid with ⟨_, _, rfl⟩ | ⟨pm, hpm, hpmid, hpolka, hvalid, rfl⟩
    · cases htype
    · exact ⟨rfl, hpolka, pm, hpm, hpmid, hvalid⟩

/-- A list of plain events that meet the guard wherever they are handled. -/
theorem BootSteps.handleAll {guard : List (Output C) → Engine C → Event C → Prop} {e₁ : Engine C}
    {evs : List (Event C)} {news out : List (Output C)} (h : BootSteps guard log e news e₁)
    (hevs : ∀ ev ∈ evs, ev.plain = true ∧ ∀ log e, guard log e ev)
    (hall : e₁.handleAll ord evs = .ok (e', out)) : BootSteps guard log e (news ++ out) e' := by
  induction evs generalizing e₁ news out with
  | nil =>
      rcases Exec.ok_pair hall with ⟨rfl, rfl⟩
      simpa using h
  | cons ev evs ih =>
      simp only [Engine.handleAll, Exec.bind_eq_ok] at hall
      rcases hall with ⟨⟨e₂, o₂⟩, hhandle, ⟨e₃, o₃⟩, hrest, hret⟩
      rcases Exec.ok_pair hret with ⟨rfl, rfl⟩
      rcases hevs ev List.mem_cons_self with ⟨hplain, hguard⟩
      rw [← List.append_assoc]
      exact ih (h.step (BootStep.event hplain (hguard _ e₁) hhandle))
        (fun ev hev => hevs ev (List.mem_cons_of_mem _ hev)) hrest

theorem BootRun.steps {guard : List (Output C) → Engine C → Event C → Prop} {e₀ : Engine C}
    {news : List (Output C)} (h : BootRun guard e₀ log e) (hsteps : BootSteps guard log e news e') :
    BootRun guard e₀ (log ++ news) e' := by
  induction hsteps with
  | refl => simpa using h
  | step _ hstep ih =>
      rw [← List.append_assoc]
      exact ih.step hstep

theorem BootRun.of_sampleRun {guard : List (Output sample) → Engine sample → Event sample → Prop}
    {genesis : List UInt8} {me : UInt8} {now : UInt64} {evs : List (Event sample)}
    {p : Engine sample × List (Output sample) → Bool}
    (hevs : ∀ ev ∈ evs, ev.plain = true ∧ ∀ log e, guard log e ev)
    (h : (sampleRun genesis me (.setTime now :: .start :: evs)).holds p = true) :
    ∃ e₀ e log, sampleEngine genesis me = .ok e₀ ∧ BootRun guard e₀ log e ∧ p (e, log) = true := by
  rcases Exec.holds_iff.mp h with ⟨⟨e, log⟩, hrun, hp⟩
  simp only [sampleRun, Exec.bind_eq_ok, Engine.handleAll] at hrun
  rcases hrun with ⟨e₀, hnew, ⟨e₁, o₁⟩, htime, ⟨e₂, o₂⟩, ⟨⟨e₃, o₃⟩, hstart, ⟨e₄, o₄⟩, hall, hret⟩,
    hret'⟩
  rcases Exec.ok_pair htime with ⟨rfl, rfl⟩
  rcases Exec.ok_pair hret with ⟨rfl, rfl⟩
  rcases Exec.ok_pair hret' with ⟨rfl, rfl⟩
  have hfirst : BootRun guard e₀ o₃ e₃ := BootRun.start hstart
  exact ⟨e₀, _, _, hnew, hfirst.steps (BootSteps.refl.handleAll hevs hall), hp⟩

/-- A lone validator seals an attestation: one proposal, two votes. -/
theorem no_equivocation_in_boot_lone :
    ∃ e₀ e log, sampleEngine [1] 1 = .ok e₀ ∧ BootRun anyDrive e₀ log e ∧
      (proposalsMade log).length = 1 ∧ (votesCast log).length = 2 ∧
      ((votesCast log).map fun vm => (vm.height, vm.round, vm.voteType)).Nodup := by
  have hholds : (sampleRun [1] 1
      (.setTime 5 :: .start :: [.attestation (sampleAttestation 1 7)])).holds (fun r =>
        decide ((proposalsMade r.2).length = 1 ∧ (votesCast r.2).length = 2)) = true := by
    decide +kernel
  have hevs : ∀ ev ∈ [Event.attestation (sampleAttestation 1 7)], ev.plain = true ∧
      ∀ log e, anyDrive log e ev := by
    intro ev hev
    rw [List.mem_singleton.mp hev]
    exact ⟨rfl, fun _ _ => trivial⟩
  rcases BootRun.of_sampleRun hevs hholds with ⟨e₀, e, log, hnew, hrun, hp⟩
  rw [decide_eq_true_eq] at hp
  exact ⟨e₀, e, log, hnew, hrun, hp.1, hp.2, (no_equivocation_in_boot e₀ log e hrun.passes).2.1⟩

end SmartLedger
