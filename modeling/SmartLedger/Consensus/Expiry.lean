import SmartLedger.Consensus.Timers

/-! # Where a timeout finds the engine

Height, round and step only go forward (`BootStep.after`). A timeout is asked
for when the engine has come to the place it is about (`Passes.scheduled_after`),
and once the engine has handled it, it is beyond that place
(`timeout_closes`): the same timeout has no further use.
-/

namespace SmartLedger

open Engine

variable {C : Crypto} {ord : IterOrder} {e e' : Engine C} {log : List (Output C)}

def Step.stage : Step → Nat
  | .propose => 0
  | .prevote => 1
  | .precommit => 2

/-- The engine has come to this stage of the round of the height, or farther. -/
def Engine.After (e : Engine C) (h r : UInt64) (stage : Nat) : Prop :=
  h < e.height ∨ h = e.height ∧ (r < e.round ∨ r = e.round ∧ stage ≤ e.step.stage)

/-- The stage at which a timeout is asked for. -/
def TimeoutKind.opens : TimeoutKind → Nat
  | .propose => 0
  | .prevote => 1
  | .precommit => 0

/-- The stage at which it has no further use; a round is over after its
precommit timeout. -/
def TimeoutKind.closes : TimeoutKind → Nat
  | .propose => 1
  | .prevote => 2
  | .precommit => 3

namespace Engine.After

variable {h r : UInt64} {stage : Nat}

/-- Forward within a height. -/
theorem forward (hafter : e.After h r stage) (hheight : e'.height = e.height)
    (hround : e.round < e'.round ∨ e'.round = e.round ∧ e.step.stage ≤ e'.step.stage) :
    e'.After h r stage := by
  unfold After at hafter ⊢
  rw [hheight]
  rcases hafter with hlt | ⟨heq, hr⟩
  · exact Or.inl hlt
  · refine Or.inr ⟨heq, ?_⟩
    rcases hround with hlt' | ⟨hsame, hstage⟩
    · left
      rcases hr with hlt | ⟨rfl, _⟩
      · exact UInt64.lt_trans hlt hlt'
      · exact hlt'
    · rw [hsame]
      exact hr.imp_right fun ⟨hreq, hle⟩ => ⟨hreq, hle.trans hstage⟩

/-- To a later height. -/
theorem roll (hafter : e.After h r stage) (hlt : e.height < e'.height) :
    e'.After h r stage := by
  left
  rcases hafter with hlt' | ⟨rfl, _⟩
  · exact UInt64.lt_trans hlt' hlt
  · exact hlt

theorem internal {out : List (Effect C)} (hafter : e.After h r stage)
    (hi : Internal ord e out e') : e'.After h r stage := by
  cases hi with
  | prevote hstep =>
      refine hafter.forward rfl (Or.inr ⟨rfl, ?_⟩)
      rw [hstep]
      exact Nat.zero_le _
  | schedulePrevote => exact hafter.forward rfl (Or.inr ⟨rfl, Nat.le_refl _⟩)
  | polka hstep =>
      refine hafter.forward rfl (Or.inr ⟨rfl, ?_⟩)
      rw [hstep]
      exact Nat.le_succ 1
  | latePolka => exact hafter.forward rfl (Or.inr ⟨rfl, Nat.le_refl _⟩)
  | precommitNil hstep =>
      refine hafter.forward rfl (Or.inr ⟨rfl, ?_⟩)
      rw [hstep]
      exact Nat.le_succ 1
  | schedulePrecommit => exact hafter.forward rfl (Or.inr ⟨rfl, Nat.le_refl _⟩)
  | jump hlt hstart =>
      rcases startRound_frame hstart with ⟨_, _, rfl, _⟩
      exact hafter.forward rfl (Or.inl hlt)
  | wake _ hwake =>
      rcases wake_frame hwake with ⟨_, rfl, _⟩
      exact hafter.forward rfl (Or.inr ⟨rfl, Nat.le_refl _⟩)
  | commit _ _ _ hcommit =>
      rcases commit_cases hcommit with ⟨height, set, out', hheight, _, hstart, _⟩
      -- a new height is after everything
      apply hafter.roll
      rw [(startRound_sameHeight hstart).1.height]
      exact lt_of_checkedAdd_one hheight

theorem internals {out : List (Effect C)} (hafter : e.After h r stage)
    (hi : Internals ord e out e') : e'.After h r stage := by
  induction hi with
  | refl => exact hafter
  | step hi _ ih => exact ih (hafter.internal hi)

theorem enter {ev : Event C} {out : List (Output C)} (hafter : e.After h r stage)
    (hplain : ev.plain = true) (hent : Enter ev e out e') : e'.After h r stage := by
  have hsame : ∀ {f : Engine C}, f.height = e.height → f.round = e.round → f.step = e.step →
      f.After h r stage := fun hheight hround hstep =>
    hafter.forward hheight (Or.inr ⟨hround, hstep ▸ Nat.le_refl _⟩)
  cases hent with
  | start => cases hplain
  | message hi =>
      rcases ingest_frame hi with ⟨_, _, _, rfl⟩
      exact hsame rfl rfl rfl
  | timeout => exact hafter
  | attestation => exact hsame rfl rfl rfl
  | governance => exact hsame rfl rfl rfl
  | refused => exact hafter
  | synced => cases hplain
  | rejected => cases hplain
  | resume => cases hplain
  | setTime => exact hsame rfl rfl rfl

/-- What a catch-up resumes is at a later height. -/
theorem catchUp {bs : List (Block C)} {e₁ : Engine C} {out : List (Effect C)}
    (hafter : e.After h r stage) (hbs : bs ≠ []) (happlies : Applies e bs e₁)
    (hstart : e₁.startRound 0 = .ok (e', out)) : e'.After h r stage := by
  apply hafter.roll
  rw [(startRound_sameHeight hstart).1.height]
  exact (happlies.fresh hbs).2.1

end Engine.After

/-- Nothing an engine does in a step of its boot takes it back. -/
theorem BootStep.after {guard : List (Output C) → Engine C → Event C → Prop}
    {out : List (Output C)} {h r : UInt64} {stage : Nat} (hstep : BootStep guard log e out e')
    (hafter : e.After h r stage) : e'.After h r stage := by
  cases hstep with
  | event hplain _ hhandle =>
      rcases handle_steps hhandle with ⟨e₁, o₁, o₂, hent, hints, _⟩
      exact (hafter.enter hplain hent).internals hints
  | catchUp hbs happlies hresume =>
      rcases handle_steps hresume with ⟨e₁, o₁, o₂, hent, hints, _⟩
      cases hent with
      | resume hround => exact (hafter.catchUp hbs happlies hround).internals hints

theorem BootSteps.after {guard : List (Output C) → Engine C → Event C → Prop}
    {news : List (Output C)} {h r : UInt64} {stage : Nat}
    (hsteps : BootSteps guard log e news e') (hafter : e.After h r stage) :
    e'.After h r stage := by
  induction hsteps with
  | refl => exact hafter
  | step _ hstep ih => exact hstep.after ih

/-! ## Asked for -/

/-- Entering a round asks for the propose timeout of that round, if for any. -/
theorem startRound_scheduled {r h r' : UInt64} {kind : TimeoutKind} {out : List (Effect C)}
    (hstart : e.startRound r = .ok (e', out)) (hmem : .scheduleTimeout h r' kind ∈ out) :
    e'.After h r' kind.opens := by
  have hmark : (h, r', kind.mark) ∈ marks (effects out) :=
    List.mem_filterMap.mpr ⟨_, mem_effects.mpr hmem, rfl⟩
  rcases startRound_frame hstart with ⟨parked, proposals, rfl, _⟩
  rcases startRound_marks hstart with ⟨_, _, rfl⟩ | ⟨_, hone⟩
  · cases hmem
  · rw [hone, List.mem_singleton, Prod.mk.injEq, Prod.mk.injEq] at hmark
    rcases hmark with ⟨rfl, rfl, hkind⟩
    refine Or.inr ⟨rfl, Or.inr ⟨rfl, ?_⟩⟩
    cases kind with
    | propose => exact Nat.le_refl _
    | prevote => cases hkind
    | precommit => cases hkind

theorem Engine.Internal.scheduled {h r : UInt64} {kind : TimeoutKind} {out : List (Effect C)}
    (hi : Internal ord e out e') (hmem : .scheduleTimeout h r kind ∈ out) :
    e'.After h r kind.opens := by
  cases hi with
  | prevote => simp at hmem
  | schedulePrevote hstep =>
      simp only [List.mem_singleton, Effect.scheduleTimeout.injEq] at hmem
      rcases hmem with ⟨rfl, rfl, rfl⟩
      refine Or.inr ⟨rfl, Or.inr ⟨rfl, ?_⟩⟩
      show 1 ≤ e.step.stage
      rw [hstep]
      exact Nat.le_refl _
  | polka => simp at hmem
  | latePolka => simp at hmem
  | precommitNil => simp at hmem
  | schedulePrecommit =>
      simp only [List.mem_singleton, Effect.scheduleTimeout.injEq] at hmem
      rcases hmem with ⟨rfl, rfl, rfl⟩
      exact Or.inr ⟨rfl, Or.inr ⟨rfl, Nat.zero_le _⟩⟩
  | jump _ hstart => exact startRound_scheduled hstart hmem
  | wake _ hwake =>
      -- on waking up the one timer is that of the propose step
      have hmark : (h, r, kind.mark) ∈ marks (effects out) :=
        List.mem_filterMap.mpr ⟨_, mem_effects.mpr hmem, rfl⟩
      rw [wake_marks hwake, List.mem_singleton, Prod.mk.injEq, Prod.mk.injEq] at hmark
      rcases hmark with ⟨rfl, rfl, hkind⟩
      rcases wake_frame hwake with ⟨_, rfl, _⟩
      refine Or.inr ⟨rfl, Or.inr ⟨rfl, ?_⟩⟩
      cases kind with
      | propose => exact Nat.zero_le _
      | prevote => cases hkind
      | precommit => cases hkind
  | commit _ _ _ hcommit =>
      rcases commit_cases hcommit with ⟨height, set, out', _, _, hstart, rfl⟩
      rcases List.mem_cons.mp hmem with hbad | hmem
      · cases hbad
      · exact startRound_scheduled hstart hmem

/-- A plain event puts nothing out before the rules run. -/
theorem Engine.Enter.plain_out {ev : Event C} {out : List (Output C)} (hplain : ev.plain = true)
    (hent : Enter ev e out e') : out = [] := by
  cases hent with
  | start => cases hplain
  | message => rfl
  | timeout => rfl
  | attestation => rfl
  | governance => rfl
  | refused => rfl
  | synced => cases hplain
  | rejected => rfl
  | resume => cases hplain
  | setTime => rfl

theorem Passes.scheduled_after {guard : List (Output C) → Engine C → Event C → Prop}
    {e₀ : Engine C} {s : List (Output C) × Engine C} (hpasses : Passes guard e₀ s)
    {h r : UInt64} {kind : TimeoutKind} (hs : Scheduled s.1 h r kind) :
    s.2.After h r kind.opens := by
  induction hpasses with
  | start hstart => exact startRound_scheduled hstart (mem_effects.mp hs)
  | step hprev hstep ih =>
      cases hstep with
      | enter hplain _ hent =>
          have hnone := Enter.plain_out hplain hent
          subst hnone
          rw [List.append_nil] at hs
          exact (ih hs).enter hplain hent
      | internal hi =>
          rcases List.mem_append.mp hs with hold | hnew
          · exact (ih hold).internal hi
          · exact hi.scheduled (mem_effects.mp hnew)
      | catchUp hbs happlies hstart =>
          rcases List.mem_append.mp hs with hold | hnew
          · exact (ih hold).catchUp hbs happlies hstart
          · rcases List.mem_append.mp hnew with happlied | hout
            · simp at happlied
            · exact startRound_scheduled hstart (mem_effects.mp hout)

/-! ## Handled -/

/-- A timeout that was due takes the engine beyond its place. -/
theorem fireTimeout_closes {kind : TimeoutKind} {out : List (Effect C)}
    (hstage : kind.opens ≤ e.step.stage) (h : e.fireTimeout kind = .ok (e', out)) :
    e'.After e.height e.round kind.closes := by
  cases kind with
  | propose =>
      simp only [fireTimeout] at h
      split at h
      · rcases Exec.ok_pair h with ⟨rfl, _⟩
        exact Or.inr ⟨rfl, Or.inr ⟨rfl, Nat.le_refl _⟩⟩
      · next hne =>
        rcases Exec.ok_pair h with ⟨rfl, _⟩
        refine Or.inr ⟨rfl, Or.inr ⟨rfl, ?_⟩⟩
        cases hstep : e'.step with
        | propose => exact absurd hstep hne
        | prevote => exact Nat.le_refl _
        | precommit => exact Nat.le_succ 1
  | prevote =>
      simp only [fireTimeout] at h
      split at h
      · rcases Exec.ok_pair h with ⟨rfl, _⟩
        exact Or.inr ⟨rfl, Or.inr ⟨rfl, Nat.le_refl _⟩⟩
      · next hne =>
        rcases Exec.ok_pair h with ⟨rfl, _⟩
        refine Or.inr ⟨rfl, Or.inr ⟨rfl, ?_⟩⟩
        cases hstep : e'.step with
        | propose =>
            -- the prevote timer is only asked for from the prevote step on
            rw [hstep] at hstage
            exact absurd hstage (by decide)
        | prevote => exact absurd hstep hne
        | precommit => exact Nat.le_refl _
  | precommit =>
      unfold fireTimeout at h
      rw [Exec.bind_eq_ok] at h
      rcases h with ⟨next, hnext, hstart⟩
      rcases startRound_frame hstart with ⟨_, _, rfl, _⟩
      exact Or.inr ⟨rfl, Or.inl (lt_of_checkedAdd_one hnext)⟩

/-- Once it is handled, the engine is beyond its place, whatever it found. -/
theorem timeout_closes {h r : UInt64} {kind : TimeoutKind} {out : List (Output C)}
    (hafter : e.After h r kind.opens) (hhandle : e.handle ord (.timeout h r kind) = .ok (e', out)) :
    e'.After h r kind.closes := by
  simp only [Engine.handle, Exec.bind_eq_ok] at hhandle
  rcases hhandle with ⟨⟨e₁, o⟩, htimeout, hhandle⟩
  obtain rfl := (Exec.ok_pair hhandle).1
  unfold Engine.onTimeout at htimeout
  split at htimeout
  · next hhere =>
    rcases hhere with ⟨rfl, rfl⟩
    rw [Exec.bind_eq_ok] at htimeout
    rcases htimeout with ⟨⟨e₁, o₁⟩, hfire, hadvance⟩
    rcases thenAdvance_internals hadvance with ⟨o₂, hints, _⟩
    -- at its very place, where the engine has come far enough
    have hstage : kind.opens ≤ e.step.stage := by
      rcases hafter with hlt | ⟨_, hlt | ⟨_, hle⟩⟩
      · exact absurd hlt (UInt64.lt_irrefl _)
      · exact absurd hlt (UInt64.lt_irrefl _)
      · exact hle
    exact (fireTimeout_closes hstage hfire).internals hints
  · next hgone =>
    rcases thenAdvance_internals htimeout with ⟨o₂, hints, _⟩
    refine Engine.After.internals ?_ hints
    rcases hafter with hlt | ⟨rfl, hlt | ⟨rfl, _⟩⟩
    · exact Or.inl hlt
    · exact Or.inr ⟨rfl, Or.inl hlt⟩
    · exact absurd ⟨rfl, rfl⟩ hgone

end SmartLedger
