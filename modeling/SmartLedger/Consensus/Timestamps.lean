import SmartLedger.Consensus.Pool
import SmartLedger.Consensus.Rest
import SmartLedger.Consensus.Sealing
import SmartLedger.Consensus.Skipping
import SmartLedger.Consensus.World

/-! # Who vouches for the time of a block

The header of a block says that its timestamp is one the quorum vouches for.
A proposer stamps a fresh value with its own clock, and nobody compares: the
validation of a proposal does not look at the timestamp. `Vouched` is when an
honest validator prevoted for the block at the very time it names. If the
fresh proposals that honest engines may still prevote come in time (`dated`),
everything they vote for and finalize is vouched for (`Stamped`), whatever was
proposed again later.
-/

namespace SmartLedger

open Engine

variable {C : Crypto} {ord : IterOrder} {e e' : Engine C} {honest : Finset C.VerifyingKey}
  {genesis : List C.VerifyingKey} {w w' w₀ : World C}

/-- A prevote for `id` at height `h`. -/
def Output.Prevotes (h : UInt64) (id : Hash) : Output C → Prop
  | .effect (.broadcast (.vote vm)) =>
      vm.voteType = .prevote ∧ vm.blockId = some id ∧ vm.height = h
  | _ => False

instance (h : UInt64) (id : Hash) : (o : Output C) → Decidable (o.Prevotes h id)
  | .effect (.broadcast (.vote vm)) => inferInstanceAs (Decidable
      (vm.voteType = .prevote ∧ vm.blockId = some id ∧ vm.height = h))
  | .effect (.broadcast (.proposal _)) | .effect (.scheduleTimeout _ _ _)
  | .effect (.committed _) | .applied _ => inferInstanceAs (Decidable False)

/-- `k` has reached height `h` and is a validator of it. -/
def World.Validator (w : World C) (k : C.VerifyingKey) (h : UInt64) : Prop :=
  h ≤ (w k).engine.height ∧
    ((w k).engine.registry.activeSet h).holds (fun set => decide (k ∈ set.members)) = true

instance (w : World C) (k : C.VerifyingKey) (h : UInt64) : Decidable (w.Validator k h) :=
  inferInstanceAs (Decidable (_ ∧ _))

/-- The clocks at which honest validators of height `h` prevoted for `id`. -/
def prevoteClocks (honest : Finset C.VerifyingKey) (w : World C) (h : UInt64) (id : Hash) :
    Finset UInt64 :=
  (honest.filter fun j => w.Validator j h).biUnion fun j =>
    (((w j).trail.filter fun p => p.2.Prevotes h id).map Prod.fst).toFinset

/-- `x` is not below all of `s`, nor above all of it. -/
def Between (s : Finset UInt64) (x : UInt64) : Prop := (∃ a ∈ s, a ≤ x) ∧ ∃ b ∈ s, x ≤ b

instance (s : Finset UInt64) (x : UInt64) : Decidable (Between s x) :=
  inferInstanceAs (Decidable (_ ∧ _))

/-- `id` is that of a value whose timestamp lies between the clocks of honest
prevotes for it. -/
def Vouched (honest : Finset C.VerifyingKey) (w : World C) (id : Hash) : Prop :=
  ∃ j ∈ honest, ∃ v ∈ (w j).values, v.id = id ∧
    Between (prevoteClocks honest w v.header.height id) v.header.timestamp

instance (w : World C) (id : Hash) : Decidable (Vouched honest w id) :=
  inferInstanceAs (Decidable (∃ j ∈ honest, _))

theorem Between.mono {s s' : Finset UInt64} {x : UInt64} (h : Between s x) (hsub : s ⊆ s') :
    Between s' x := by
  rcases h with ⟨⟨a, ha, hle⟩, b, hb, hge⟩
  exact ⟨⟨a, hsub ha, hle⟩, b, hsub hb, hge⟩

theorem mem_prevoteClocks {h t : UInt64} {id : Hash} : t ∈ prevoteClocks honest w h id ↔
    ∃ j ∈ honest, w.Validator j h ∧ ∃ o, (t, o) ∈ (w j).trail ∧ o.Prevotes h id := by
  simp [prevoteClocks, and_assoc]

/-- The set of a height that was reached stays the set of that height. -/
theorem World.Validator.mono {k : C.VerifyingKey} {h : UInt64} (hv : w.Validator k h)
    (hlater : (w k).Later (w' k)) : w'.Validator k h := by
  refine ⟨UInt64.le_trans hv.1 hlater.height_le, ?_⟩
  rw [hlater.activeSet_eq hv.1]
  exact hv.2

/-- Clock readings under a prevote only become more along a run. -/
theorem prevoteClocks_mono (hlater : ∀ j, (w j).Later (w' j)) (h : UInt64) (id : Hash) :
    prevoteClocks honest w h id ⊆ prevoteClocks honest w' h id := by
  intro t ht
  rcases mem_prevoteClocks.mp ht with ⟨j, hj, hvalidator, o, ho, hprevotes⟩
  exact mem_prevoteClocks.mpr
    ⟨j, hj, hvalidator.mono (hlater j), o, (hlater j).trail.subset ho, hprevotes⟩

/-- So what is vouched for stays so. -/
theorem Vouched.mono {id : Hash} (h : Vouched honest w id) (hlater : ∀ j, (w j).Later (w' j)) :
    Vouched honest w' id := by
  rcases h with ⟨j, hj, v, hv, hid, hbetween⟩
  exact ⟨j, hj, v, (hlater j).values_subset hv, hid,
    hbetween.mono (prevoteClocks_mono hlater _ _)⟩

/-! ## Fresh proposals -/

/-- The timestamp of `v` lies between those clocks once the one at `t` is
among them. -/
def Near (honest : Finset C.VerifyingKey) (w : World C) (t : UInt64) (v : Proposed C) : Prop :=
  Between (insert t (prevoteClocks honest w v.header.height v.id)) v.header.timestamp

instance (w : World C) (t : UInt64) (v : Proposed C) : Decidable (Near honest w t v) :=
  inferInstanceAs (Decidable (Between _ _))

theorem Near.mono {t : UInt64} {v : Proposed C} (h : Near honest w t v)
    (hlater : ∀ j, (w j).Later (w' j)) : Near honest w' t v :=
  Between.mono h (Finset.insert_subset_insert t (prevoteClocks_mono hlater _ _))

/-- It does when the clock is at that timestamp. -/
theorem Near.self (v : Proposed C) : Near honest w v.header.timestamp v :=
  ⟨⟨_, Finset.mem_insert_self _ _, UInt64.le_refl _⟩,
    _, Finset.mem_insert_self _ _, UInt64.le_refl _⟩

/-- A fresh proposal that passes validation here. -/
def Engine.Fit (e : Engine C) (pm : ProposalMsg C) : Prop :=
  pm.validRound = none ∧ pm.value.isValid e.tip e.height e.currentSet = true

/-- The timestamp of a fresh proposal that an engine takes in and may still
prevote is vouched for already, or is when a validator prevotes it now. -/
def dated (honest : Finset C.VerifyingKey) (w : World C) (k : C.VerifyingKey) (t : UInt64) :
    Event C → Prop
  | .message (.proposal pm) => pm.verifySig = true → (w k).engine.Fit pm →
      (w k).engine.proposals.lookup pm.round = none →
      (w k).engine.round < pm.round ∨
        (w k).engine.round = pm.round ∧ (w k).engine.step = .propose →
      Vouched honest w pm.value.id ∨
        (w k).engine.round = pm.round ∧ Near honest w t pm.value ∧
          k ∈ (w k).engine.currentSet.members
  | _ => True

instance (e : Engine C) (pm : ProposalMsg C) : Decidable (e.Fit pm) :=
  inferInstanceAs (Decidable (_ ∧ _))

instance (w : World C) (k : C.VerifyingKey) (t : UInt64) :
    (ev : Event C) → Decidable (dated honest w k t ev)
  | .message (.proposal pm) => inferInstanceAs (Decidable (pm.verifySig = true →
      (w k).engine.Fit pm → (w k).engine.proposals.lookup pm.round = none →
      (w k).engine.round < pm.round ∨
        (w k).engine.round = pm.round ∧ (w k).engine.step = .propose →
      Vouched honest w pm.value.id ∨
        (w k).engine.round = pm.round ∧ Near honest w t pm.value ∧
          k ∈ (w k).engine.currentSet.members))
  | .message (.vote _) | .start | .timeout _ _ _ | .attestation _ | .governance _
  | .synced _ | .resume | .setTime _ => inferInstanceAs (Decidable True)

/-! ## What engines vote for -/

/-- We are a validator, and our clock is near what `v` says. -/
def Engine.InTime (near : UInt64 → Proposed C → Prop) (e : Engine C) (v : Proposed C) : Prop :=
  near e.now v ∧ e.mePk ∈ e.currentSet.members

/-- The id of every fresh proposal that an engine may still prevote is `ok`,
unless it does so right away and in time. -/
structure Punctual (near : UInt64 → Proposed C → Prop) (ok : Hash → Prop) (e : Engine C) :
    Prop where
  ahead : ∀ r pm, e.proposals.lookup r = some pm → e.round < r → e.Fit pm → ok pm.value.id
  here : ∀ pm, e.proposals.lookup e.round = some pm → e.step = .propose → e.Fit pm →
    e.InTime near pm.value ∨ ok pm.value.id

/-- Every id that an engine votes for, holds valid or finalizes is `ok`. -/
structure Stamped (near : UInt64 → Proposed C → Prop) (ok : Hash → Prop)
    (known : List (Proposed C)) (log : List (Output C)) (e : Engine C) :
    Prop extends Punctual near ok e where
  prevotes : ∀ vm id, Cast log vm → vm.voteType = .prevote → vm.blockId = some id → ok id
  precommits : ∀ vm id, Cast log vm → vm.voteType = .precommit → vm.blockId = some id → ok id
  blocks : ∀ b ∈ finalized log, ok (b.header.id C)
  valid : ∀ v, e.validValue = some v → ok v.id
  stored : ∀ r pm, e.proposals.lookup r = some pm → pm.value ∈ known

namespace Stamped

variable {near near' : UInt64 → Proposed C → Prop} {ok ok' : Hash → Prop} {known known' : List (Proposed C)} {log : List (Output C)}

/-- With nothing stored. -/
theorem of_empty (hproposals : e.proposals = ∅) : Punctual near ok e := by
  constructor
  · intro r pm hpm
    rw [hproposals] at hpm
    simp at hpm
  · intro pm hpm
    rw [hproposals] at hpm
    simp at hpm

/-- Stronger facts about the values on the way carry the invariant over. -/
theorem mono (h : Stamped near ok known log e) (hnear : ∀ t v, near t v → near' t v)
    (hok : ∀ id, ok id → ok' id) (hknown : known ⊆ known') : Stamped near' ok' known' log e where
  prevotes vm id hcast htype hid := hok _ (h.prevotes vm id hcast htype hid)
  precommits vm id hcast htype hid := hok _ (h.precommits vm id hcast htype hid)
  blocks b hb := hok _ (h.blocks b hb)
  valid v hv := hok _ (h.valid v hv)
  stored r pm hpm := hknown (h.stored r pm hpm)
  ahead r pm hpm hlt hfit := hok _ (h.ahead r pm hpm hlt hfit)
  here pm hpm hstep hfit :=
    (h.here pm hpm hstep hfit).imp (fun htime => ⟨hnear _ _ htime.1, htime.2⟩) (hok _)

/-- Our own proposal is in time, or for the valid value. -/
theorem own {r : UInt64} (hnow : ∀ v : Proposed C, near v.header.timestamp v)
    (hvalid : ∀ v, e.validValue = some v → ok v.id)
    (hroster : e.validatorsSorted = sortById e.currentSet.validators)
    (hprop : e.proposer r = .ok e.mePk) :
    e.InTime near (e.ownProposal r).value ∨ ok (e.ownProposal r).value.id := by
  cases hv : e.validValue with
  | none =>
      have hvalue : (e.ownProposal r).value = e.getValue := by
        show e.proposalValue.1 = e.getValue
        unfold proposalValue
        rw [hv]
      -- a fresh value is stamped now, and we are a member
      left
      rw [hvalue]
      refine ⟨hnow e.getValue, (ValidatorSet.mem_members _ _).mpr ?_⟩
      have hmem := proposer_mem hprop
      rwa [hroster, mem_sortById] at hmem
  | some v =>
      have hvalue : (e.ownProposal r).value = v := by
        show e.proposalValue.1 = v
        unfold proposalValue
        rw [hv]
      right
      rw [hvalue]
      exact hvalid v hv

/-- Entering a round adds at most our own proposal to what may be prevoted. -/
theorem startRound {r : UInt64} {out : List (Effect C)}
    (hnow : ∀ v : Proposed C, near v.header.timestamp v)
    (hvalid : ∀ v, e.validValue = some v → ok v.id)
    (hroster : e.validatorsSorted = sortById e.currentSet.validators)
    (hahead : ∀ r' pm, e.proposals.lookup r' = some pm → r < r' → e.Fit pm → ok pm.value.id)
    (hhere : ∀ pm, e.proposals.lookup r = some pm → e.Fit pm →
      e.InTime near pm.value ∨ ok pm.value.id)
    (h : e.startRound r = .ok (e', out)) : Punctual near ok e' := by
  rcases startRound_frame h with ⟨_, _, rfl, ⟨rfl, _⟩ | ⟨hprop, _, rfl, rfl⟩⟩
  · exact ⟨hahead, fun pm hpm _ hfit => hhere pm hpm hfit⟩
  · constructor
    · intro r' pm hpm hlt hfit
      rcases KeyMap.lookup_orInsert_cases hpm with hold | ⟨rfl, _, _⟩
      · exact hahead r' pm hold hlt hfit
      · exact absurd hlt (UInt64.lt_irrefl _)
    · intro pm hpm _ hfit
      rcases KeyMap.lookup_orInsert_cases hpm with hold | ⟨_, rfl, _⟩
      · exact hhere pm hold hfit
      · exact own hnow hvalid hroster hprop

/-- New outputs: every vote for a block and every block must be `ok`. -/
theorem outputs (h : Stamped near ok known log e) {out : List (Output C)}
    (hvotes : ∀ vm id, Cast out vm → vm.blockId = some id → ok id)
    (hblocks : ∀ b ∈ finalized out, ok (b.header.id C)) :
    (∀ vm id, Cast (log ++ out) vm → vm.voteType = .prevote → vm.blockId = some id → ok id) ∧
      (∀ vm id, Cast (log ++ out) vm → vm.voteType = .precommit → vm.blockId = some id → ok id) ∧
      ∀ b ∈ finalized (log ++ out), ok (b.header.id C) := by
  refine ⟨?_, ?_, ?_⟩
  · intro vm id hcast htype hid
    rcases cast_append.mp hcast with hold | hnew
    · exact h.prevotes vm id hold htype hid
    · exact hvotes vm id hnew hid
  · intro vm id hcast htype hid
    rcases cast_append.mp hcast with hold | hnew
    · exact h.precommits vm id hold htype hid
    · exact hvotes vm id hnew hid
  · intro b hb
    rw [finalized_append, List.mem_append] at hb
    rcases hb with hold | hnew
    · exact h.blocks b hold
    · exact hblocks b hnew

/-- What may be prevoted after an internal step. -/
theorem internal_punctual {out : List (Effect C)} (h : Stamped near ok known log e)
    (hnow : ∀ v : Proposed C, near v.header.timestamp v) (hi : Internal ord e out e')
    (hroster : e.validatorsSorted = sortById e.currentSet.validators) : Punctual near ok e' := by
  cases hi with
  | prevote => exact ⟨h.ahead, nofun⟩
  | schedulePrevote => exact ⟨h.ahead, h.here⟩
  | polka => exact ⟨h.ahead, nofun⟩
  | latePolka => exact ⟨h.ahead, h.here⟩
  | precommitNil => exact ⟨h.ahead, nofun⟩
  | schedulePrecommit => exact ⟨h.ahead, h.here⟩
  | jump hlt hstart =>
      -- what waited for this round is prevoted now
      refine startRound hnow h.valid hroster ?_ ?_ hstart
      · intro r' pm hpm hlt' hfit
        exact h.ahead r' pm hpm (UInt64.lt_trans hlt hlt') hfit
      · intro pm hpm hfit
        exact Or.inr (h.ahead _ pm hpm hlt hfit)
  | wake hparked hwake =>
      rcases wake_frame hwake with ⟨_, rfl, ⟨rfl, _⟩ | ⟨hprop, _, rfl, _⟩⟩
      · exact ⟨h.ahead, h.here⟩
      · constructor
        · intro r' pm hpm hlt hfit
          rcases KeyMap.lookup_orInsert_cases hpm with hold | ⟨rfl, _, _⟩
          · exact h.ahead r' pm hold hlt hfit
          · exact absurd hlt (UInt64.lt_irrefl _)
        · intro pm hpm hstep hfit
          rcases KeyMap.lookup_orInsert_cases hpm with hold | ⟨_, rfl, _⟩
          · exact h.here pm hold hstep hfit
          · exact own hnow h.valid hroster hprop
  | @commit _ _ pm _ _ _ _ hcommit =>
      rcases commit_cases hcommit with ⟨height, set, out', _, _, hstart, _⟩
      have hempty : Punctual near ok (e.rolled pm.value
          (dropEnacted pm.value.governance e.govMempool) height set) := of_empty rfl
      refine startRound hnow ?_ rfl hempty.ahead ?_ hstart
      · intro v hv
        cases hv
      · intro pm' hpm' hfit
        exact hempty.here pm' hpm' rfl hfit

/-- Along an internal step. A prevote in time must be `ok`, and so must what a
quorum voted for. -/
theorem internal {out : List (Effect C)} (h : Stamped near ok known log e)
    (hnow : ∀ v : Proposed C, near v.header.timestamp v) (hi : Internal ord e out e')
    (hroster : e.validatorsSorted = sortById e.currentSet.validators)
    (hsent : ∀ pm, .broadcast (.proposal pm) ∈ out → pm.value ∈ known)
    (hintime : ∀ v ∈ known, v.header.height = e.height → e.InTime near v →
      .broadcast (.vote (e.ownVote .prevote (some v.id))) ∈ out → ok v.id)
    (hpolka : ∀ r id, e.quorum ≤ e.countPrevotes r (.id id) → ok id)
    (hquorum : ∀ r id, e.quorum ≤ e.countPrecommits r (.id id) → ok id) :
    Stamped near ok known (log ++ effects out) e' := by
  -- a vote is for what is in time, or what a quorum voted for already
  have hvotes : ∀ vm id, Cast (effects out) vm → vm.blockId = some id → ok id := by
    intro vm id hcast hid
    have hvm := cast_effects.mp hcast
    rcases hi.vote_cases hvm hid with ⟨hstep, hguard, rfl⟩ | ⟨pm, _, _, hcount, _, _⟩
    · cases hguard with
      | fresh pm hpm hvr hvalid _ =>
          rcases h.here pm hpm hstep ⟨hvr, hvalid⟩ with htime | hok
          · have hwf := (Proposed.isValid_iff _ _ _ _).mp hvalid
            exact hintime pm.value (h.stored _ pm hpm) hwf.height_eq htime hvm
          · exact hok
      | reproposal pm vr _ _ _ hcount => exact hpolka vr _ hcount
    · exact hpolka _ _ hcount
  -- and a commit follows a quorum of precommits
  have hblocks : ∀ b ∈ finalized (effects out), ok (b.header.id C) := by
    intro b hb
    rcases hi.height_cases with ⟨_, hnone⟩ | ⟨r, pm, _, _, hpm, hcount, _, _, _, _, hone⟩
    · rw [hnone] at hb
      cases hb
    · rw [hone] at hb
      rw [List.mem_singleton.mp hb]
      exact hquorum r _ hcount
  rcases h.outputs hvotes hblocks with ⟨hprevotes, hprecommits, hfinal⟩
  have hpunctual := h.internal_punctual hnow hi hroster
  refine ⟨hpunctual, hprevotes, hprecommits, hfinal, ?_, ?_⟩
  · intro v hv
    rcases hi.validValue_cases hv with ⟨_, hold⟩ | ⟨pm, _, rfl, hcount, _⟩
    · exact h.valid v hold
    · exact hpolka _ _ hcount
  · intro r pm hpm
    rcases hi.stored hpm with ⟨_, hold⟩ | ⟨_, hnew⟩
    · exact h.stored r pm hold
    · exact hsent pm hnew

/-- Along a change of the inputs, other than of the clock. -/
theorem enter {ev : Event C} {out : List (Output C)} (h : Stamped near ok known log e)
    (hnow : ∀ v : Proposed C, near v.header.timestamp v) (hent : Enter ev e out e') (hdriven : driven e ev) (hclock : ∀ t, ev ≠ .setTime t)
    (hroster : e.validatorsSorted = sortById e.currentSet.validators)
    (hsent : ∀ pm, .effect (.broadcast (.proposal pm)) ∈ out → pm.value ∈ known)
    (hhanded : ∀ pm, ev = .message (.proposal pm) → pm.value ∈ known ∧
      (pm.verifySig = true → e.Fit pm → e.proposals.lookup pm.round = none →
        e.round < pm.round ∨ e.round = pm.round ∧ e.step = .propose →
        ok pm.value.id ∨ e.round = pm.round ∧ e.InTime near pm.value))
    (hsynced : ∀ b, ev = .synced b → b.qc.verify b.header e.currentSet = .ok () →
      ok (b.header.id C)) : Stamped near ok known (log ++ out) e' := by
  have hblocks : ∀ b ∈ finalized out, ok (b.header.id C) := by
    intro b hb
    rcases hent.height_cases with ⟨_, hnone⟩ | ⟨b', _, _, hev, _, hqc, _, _, _, rfl⟩
    · rw [hnone] at hb
      cases hb
    · obtain rfl : b = b' := List.mem_singleton.mp hb
      exact hsynced b hev hqc
  rcases h.outputs (fun vm _ hcast _ => absurd hcast (hent.noVote vm)) hblocks with
    ⟨hprevotes, hprecommits, hfinal⟩
  have hpunctual : Punctual near ok e' := by
    -- entering round 0 again opens no later proposal
    have hzero : ∀ {o : List (Effect C)}, e.round = 0 ∧ e.step = .propose →
        e.startRound 0 = .ok (e', o) → Punctual near ok e' := by
      intro o hat hstart
      refine startRound hnow h.valid hroster ?_ ?_ hstart
      · intro r' pm hpm hlt hfit
        rw [← hat.1] at hlt
        exact h.ahead r' pm hpm hlt hfit
      · intro pm hpm hfit
        rw [← hat.1] at hpm
        exact h.here pm hpm hat.2 hfit
    cases hent with
    | start hstart => exact hzero (hdriven (Or.inl rfl)) hstart
    | resume hstart => exact hzero (hdriven (Or.inr rfl)) hstart
    | message hingest =>
        cases ingest_cases hingest with
        | ignored => exact ⟨h.ahead, h.here⟩
        | prevote => exact ⟨h.ahead, h.here⟩
        | precommit => exact ⟨h.ahead, h.here⟩
        | @proposal pm hacc =>
            -- the only entry that is new is the one handed in
            have hnew := (hhanded pm rfl).2 hacc.2.2
            constructor
            · intro r' pm' hpm' hlt hfit
              rcases KeyMap.lookup_orInsert_cases hpm' with hold | ⟨rfl, rfl, hnone⟩
              · exact h.ahead r' pm' hold hlt hfit
              · rcases hnew hfit hnone (Or.inl hlt) with hok | ⟨heq, _⟩
                · exact hok
                · exact absurd (heq ▸ hlt) (UInt64.lt_irrefl _)
            · intro pm' hpm' hstep hfit
              rcases KeyMap.lookup_orInsert_cases hpm' with hold | ⟨hr, rfl, hnone⟩
              · exact h.here pm' hold hstep hfit
              · rcases hnew hfit hnone (Or.inr ⟨hr, hstep⟩) with hok | ⟨_, htime⟩
                · exact Or.inr hok
                · exact Or.inl htime
    | synced hsync =>
        rcases applySyncedBlock_cases hsync with ⟨_, _, _, _, _, _, rfl⟩
        exact of_empty rfl
    | setTime => exact absurd rfl (hclock _)
    | timeout => exact ⟨h.ahead, h.here⟩
    | attestation => exact ⟨h.ahead, h.here⟩
    | governance => exact ⟨h.ahead, h.here⟩
    | refused => exact ⟨h.ahead, h.here⟩
    | rejected => exact ⟨h.ahead, h.here⟩
  refine ⟨hpunctual, hprevotes, hprecommits, hfinal, ?_, ?_⟩
  · intro v hv
    exact h.valid v (hent.validValue_cases hv)
  · intro r pm hpm
    rcases hent.stored hpm with ⟨_, hold⟩ | ⟨_, hnew⟩ | ⟨_, rfl, _, _⟩
    · exact h.stored r pm hold
    · exact hsent pm hnew
    · exact (hhanded pm rfl).1

/-- At rest nothing fresh is left to be prevoted in the round, so the clock
may go on. -/
theorem setTime (h : Stamped near ok known log e) (hrest : e.AtRest) (t : UInt64) :
    Stamped near ok known log (e.setTime t) := by
  refine ⟨⟨h.ahead, ?_⟩, h.prevotes, h.precommits, h.blocks, h.valid, h.stored⟩
  intro pm hpm hstep hfit
  rcases hrest.noPrevote hstep pm hpm with ⟨vr, hvr, _⟩
  have hnone : pm.validRound = none := hfit.1
  rw [hvr] at hnone
  cases hnone

end Stamped

/-! ## In the world -/

/-- Further along its chain an engine is not lower, and still knows the set. -/
theorem OnChain.reached {s : ChainState C} {bs bs' : List (Block C)} (h : OnChain s bs e)
    (h' : OnChain s bs' e') (hle : bs <+: bs') :
    e.height ≤ e'.height ∧ e'.registry.activeSet e.height = .ok e.currentSet := by
  rcases hle with ⟨rest, rfl⟩
  have hstate := h'.state
  rw [ChainState.pushAll_append, h.state] at hstate
  have hchain := (Chain.append_iff.mp h'.chain).2
  rw [h.state] at hchain
  constructor
  · have hheight := ChainState.pushAll_height e.chainState rest
    rw [hstate] at hheight
    have hheight' : e'.height.toNat = e.height.toNat + rest.length := hheight
    rw [UInt64.le_iff_toNat_le]
    omega
  · have hstable := Chain.activeSet_stable hchain (h := e.height) le_rfl
    rw [hstate] at hstable
    exact hstable.trans h.set

namespace Engine

/-- No internal step reads the clock. -/
theorem Internal.now {out : List (Effect C)} (h : Internal ord e out e') : e'.now = e.now := by
  cases h with
  | prevote => rfl
  | schedulePrevote => rfl
  | polka => rfl
  | latePolka => rfl
  | precommitNil => rfl
  | schedulePrecommit => rfl
  | jump _ hstart =>
      rcases startRound_frame hstart with ⟨_, _, rfl, _⟩
      rfl
  | wake _ hwake =>
      rcases wake_frame hwake with ⟨_, rfl, _⟩
      rfl
  | commit _ _ _ hcommit =>
      rcases commit_cases hcommit with ⟨_, _, _, _, _, hstart, _⟩
      rcases startRound_frame hstart with ⟨_, _, rfl, _⟩
      rfl

/-- The clock only moves when it is set. -/
theorem Enter.now {ev : Event C} {out : List (Output C)} (h : Enter ev e out e')
    (hclock : ∀ t, ev ≠ .setTime t) : e'.now = e.now := by
  cases h with
  | start hstart =>
      rcases startRound_frame hstart with ⟨_, _, rfl, _⟩
      rfl
  | message hi =>
      rcases ingest_frame hi with ⟨_, _, _, rfl⟩
      rfl
  | timeout => rfl
  | attestation => rfl
  | governance => rfl
  | refused => rfl
  | synced hsync =>
      rcases applySyncedBlock_cases hsync with ⟨_, _, _, _, _, _, rfl⟩
      rfl
  | rejected => rfl
  | resume hstart =>
      rcases startRound_frame hstart with ⟨_, _, rfl, _⟩
      rfl
  | setTime => exact absurd rfl (hclock _)

end Engine

/-- In every world reached with dated proposals only. -/
structure StampInv (honest : Finset C.VerifyingKey) (genesis : List C.VerifyingKey)
    (w : World C) : Prop extends WorldInv honest genesis w where
  stamped : ∀ {k}, k ∈ honest → Stamped (Near honest w) (Vouched honest w) (w k).values
    (w k).log (w k).engine

namespace StampInv

/-- Before anything happens no value is stamped. -/
theorem init (h₀ : Launched honest genesis w) : StampInv honest genesis w := by
  refine ⟨WorldInv.init h₀, ?_⟩
  intro k hk
  rcases h₀ k hk with ⟨_, htrail, sk, hnew⟩
  rcases withRegistry_eq_ok hnew with ⟨set, _, hengine⟩
  rw [hengine, Peer.log, htrail]
  refine ⟨Stamped.of_empty rfl, ?_, ?_, ?_, ?_, ?_⟩
  · intro vm id hcast
    cases hcast
  · intro vm id hcast
    cases hcast
  · intro b hb
    cases hb
  · intro v hv
    cases hv
  · intro r pm hpm
    simp at hpm

/-- What a quorum of the votes that an engine goes by is for, an honest peer
voted for. -/
theorem of_tally (h : StampInv honest genesis w) {k : C.VerifyingKey} (hk : k ∈ honest)
    {voteType : VoteType} {evs : List (Event C)} {log : List (Output C)} {r : UInt64} {id : Hash} {ok : Hash → Prop}
    (htraced : Traced genesis k evs log e)
    (hset : (e.currentSet.members \ honest).card ≤ e.currentSet.f)
    (hgenuine : ∀ ev ∈ evs, Genuine honest w ev) (hok : ∀ id, Vouched honest w id → ok id)
    (hown : ∀ vm id, Cast log vm → vm.blockId = some id → ok id)
    (ht : Tally voteType (Known evs log e.currentSet) e.currentSet e.height r id) : ok id := by
  rcases ht.exists_honest htraced.onChain.set hset hk (fun hcast => htraced.voter_eq hcast) with
    ⟨vm, hknown, hhonest, _, _, hid⟩
  rcases hknown with ⟨hmem, _, hver⟩ | hcast
  · -- it was delivered, so its voter cast one for the block
    rcases mem_signedPayloads (hgenuine _ hmem hhonest hver) with ⟨msg, hmsg, hpayload⟩
    apply hok
    have hpayload' : msg.payload = votePayload vm.height vm.round vm.voteType vm.blockId := hpayload
    unfold votePayload at hpayload'
    split at hpayload'
    · next id' _ hid' =>
        obtain rfl : id' = id := Option.some.inj (hid'.symm.trans hid)
        rcases payload_eq_block hpayload' with ⟨vm', rfl, htype, hblock⟩
        exact (h.stamped hhonest).precommits vm' _ hmsg htype hblock
    · rcases payload_eq_vote hpayload' with ⟨vm', rfl, _, _, _, hblock⟩
      rw [hid] at hblock
      cases htype : vm'.voteType with
      | prevote => exact (h.stamped hhonest).prevotes vm' _ hmsg htype hblock
      | precommit => exact (h.stamped hhonest).precommits vm' _ hmsg htype hblock
  · exact hown vm id hcast hid

/-- The new world of a call by `k`, seen from a state inside the call. -/
theorem step (h : StampInv honest genesis w) (hfew : FewByzantine honest w')
    (hstep : WorldStep honest (dated honest) w w') : StampInv honest genesis w' := by
  have hlater := hstep.later
  have hnext := h.toWorldInv.step hstep
  refine ⟨hnext, ?_⟩
  intro k hk
  have hold : Stamped (Near honest w') (Vouched honest w') (w' k).values (w k).log
      (w k).engine :=
    (h.stamped hk).mono (fun _ _ hnear => hnear.mono hlater) (fun _ hok => hok.mono hlater)
      (hlater k).values_subset
  rcases hstep.peer_cases k with
    hsame | ⟨t, ev, ord, e', out, _, hdriven, hgenuine, hdated, hhandle, hcalled⟩
  · rw [hsame] at hold ⊢
    exact hold
  have hlog : (w' k).log = (w k).log ++ out := by
    rw [hcalled, Peer.handled_log]
  have hevs : ∀ ev' ∈ (w k).evs ++ [.setTime t, ev], Genuine honest w ev' := by
    intro ev' hmem
    rcases List.mem_append.mp hmem with hmem | hmem
    · exact h.genuine hk hmem
    · rcases List.mem_cons.mp hmem with rfl | hmem
      · trivial
      · rwa [List.mem_singleton.mp hmem]
  -- what the final state knows of a state inside the call
  have hreached : ∀ {o e₁},
      Traced genesis k ((w k).evs ++ [.setTime t, ev]) ((w k).log ++ o) e₁ → o <+: out →
      e₁.height ≤ (w' k).engine.height ∧
        (w' k).engine.registry.activeSet e₁.height = .ok e₁.currentSet := by
    intro o e₁ htraced hle
    apply htraced.onChain.reached (hnext.sound hk).traced.onChain
    rw [hlog]
    exact ((List.prefix_append_right_inj _).mpr hle).filterMap _
  have hsent : ∀ {o pm}, o <+: out → .effect (.broadcast (.proposal pm)) ∈ o →
      pm.value ∈ (w' k).values := by
    intro o pm hle hmem
    apply Peer.value_of_sent
    rw [hlog]
    exact List.mem_append_right _ (hle.subset hmem)
  have hengine : (w' k).engine = e' := by
    rw [hcalled]
    rfl
  rw [hlog, hengine]
  have hrest : (w k).engine.AtRest := by
    rcases h.sound hk with ⟨e₀, sk, hnew, hrun⟩
    exact (AtRest.of_new hnew).run hrun
  by_cases hclock : ∃ t', ev = .setTime t'
  · -- another change of the clock does nothing else
    rcases hclock with ⟨t', rfl⟩
    rcases Exec.ok_pair hhandle with ⟨rfl, rfl⟩
    rw [List.append_nil]
    exact (hold.setTime hrest t).setTime (hrest.congr rfl) t'
  rw [not_exists] at hclock
  have hboth : e'.now = t ∧ Stamped (Near honest w') (Vouched honest w') (w' k).values
      ((w k).log ++ out) e' := by
    apply (h.sound hk).call_induction hdriven hhandle (P := fun o e₁ => e₁.now = t ∧
      Stamped (Near honest w') (Vouched honest w') (w' k).values ((w k).log ++ o) e₁)
    · intro o e₁ htraced hent hle
      refine ⟨hent.now hclock, ?_⟩
      apply (hold.setTime hrest t).enter Near.self hent hdriven hclock
      · exact (h.sound hk).traced.onChain.roster
      · exact fun pm hmem => hsent hle hmem
      · rintro pm rfl
        constructor
        · apply Peer.value_of_handed
          rw [hcalled]
          simp [Peer.handled]
        · intro hver hfit hnone hopen
          rcases hdated hver hfit hnone hopen with hvouched | ⟨hround, hnear, hmember⟩
          · exact Or.inl (hvouched.mono hlater)
          · right
            refine ⟨hround, hnear.mono hlater, ?_⟩
            show (w k).engine.mePk ∈ (w k).engine.currentSet.members
            rw [(h.sound hk).traced.mePk]
            exact hmember
      · rintro b rfl hqc
        have hset := (h.sound hk).traced.onChain.set
        have hbefore := InForce.antitone hfew hlater k hk _ (UInt64.le_refl _) _ hset
        rcases QuorumCertificate.exists_honest hqc hset hbefore hgenuine with
          ⟨j, hj, vm, hcast, htype, hid⟩
        exact ((h.stamped hj).precommits vm _ hcast htype hid).mono hlater
    · rintro o e₁ o' e₂ htraced hnextTraced ⟨hnow, hstamped⟩ hi hle
      have hle' : o <+: out := (List.prefix_append _ _).trans hle
      have hmembers := hfew k hk _ (hreached htraced hle').1 _ (hreached htraced hle').2
      rw [← List.append_assoc]
      refine ⟨hi.now.trans hnow, ?_⟩
      have hown : ∀ vm id, Cast ((w k).log ++ o) vm → vm.blockId = some id →
          Vouched honest w' id := by
        intro vm id hcast hid
        cases htype : vm.voteType with
        | prevote => exact hstamped.prevotes vm id hcast htype hid
        | precommit => exact hstamped.precommits vm id hcast htype hid
      have hstores := htraced.disciplined.stores
      have hkeep : ∀ id, Vouched honest w id → Vouched honest w' id := fun _ hok => hok.mono hlater
      apply hstamped.internal Near.self hi htraced.onChain.roster
      · intro pm hmem
        exact hsent hle (List.mem_append_right _ (mem_effects.mpr hmem))
      · intro v hv hheight htime hmem
        -- our prevote puts our clock among the others
        have hvalidator : World.Validator w' k v.header.height := by
          rw [hheight]
          refine ⟨(hreached htraced hle').1, ?_⟩
          rw [(hreached htraced hle').2]
          have hkey := htime.2
          rw [htraced.mePk] at hkey
          exact decide_eq_true hkey
        have hclocks : t ∈ prevoteClocks honest w' v.header.height v.id := by
          have hprevotes : Output.Prevotes v.header.height v.id
              (.effect (.broadcast (.vote (e₁.ownVote .prevote (some v.id))))) :=
            ⟨rfl, rfl, hheight.symm⟩
          refine mem_prevoteClocks.mpr ⟨k, hk, hvalidator, _, ?_, hprevotes⟩
          rw [hcalled]
          apply List.mem_append_right
          apply List.mem_map_of_mem
          exact hle.subset (List.mem_append_right _ (mem_effects.mpr hmem))
        have hnear : Near honest w' e₁.now v := htime.1
        rw [hnow, Near, Finset.insert_eq_of_mem hclocks] at hnear
        exact ⟨k, hk, v, hv, rfl, hnear⟩
      · intro r id hcount
        exact h.of_tally hk htraced hmembers hevs hkeep hown (polka_of_count hstores hcount)
      · intro r id hcount
        exact h.of_tally hk htraced hmembers hevs hkeep hown (hstores.2.tally hcount)
  exact hboth.2

/-- The invariant along a run of the world. -/
theorem run (h₀ : Launched honest genesis w₀) (hrun : WorldRun honest (dated honest) w₀ w)
    (hfew : FewByzantine honest w) : StampInv honest genesis w := by
  induction hrun with
  | refl => exact init h₀
  | tail _ hstep ih => exact (ih (InForce.antitone hfew hstep.later)).step hfew hstep

end StampInv

/-! ## Clocks that agree -/

/-- No honest clock is ahead of the time of the step. -/
def steady (honest : Finset C.VerifyingKey) (w : World C) (_ : C.VerifyingKey) (t : UInt64)
    (ev : Event C) : Prop :=
  (∀ j ∈ honest, (w j).engine.now ≤ t) ∧ ∀ t', ev = .setTime t' → t ≤ t'

/-- Dated proposals, and clocks that agree. -/
def timely (honest : Finset C.VerifyingKey) (w : World C) (k : C.VerifyingKey) (t : UInt64)
    (ev : Event C) : Prop := dated honest w k t ev ∧ steady honest w k t ev

/-- A value that was prevoted at time `a` is the first, or goes on a block of
the peer whose timestamp had passed. -/
def Follows (p : Peer C) (a : UInt64) (id : Hash) : Prop :=
  ∃ v ∈ p.values, v.id = id ∧ (v.header.height = 1 ∨
    ∃ b ∈ finalized p.log, b.header.id C = v.header.prevHash ∧ b.header.timestamp ≤ a)

theorem Follows.mono {p p' : Peer C} {a : UInt64} {id : Hash} (h : Follows p a id)
    (hlater : p.Later p') : Follows p' a id := by
  rcases h with ⟨v, hv, hid, hbase⟩
  refine ⟨v, hlater.values_subset hv, hid, ?_⟩
  rcases hbase with hone | ⟨b, hb, hprev, hle⟩
  · exact Or.inl hone
  · exact Or.inr ⟨b, hlater.finalized_le.subset hb, hprev, hle⟩

/-- An engine is at height 1 or on top of a block of its own. -/
theorem OnChain.tip_cases {bs : List (Block C)} (h : OnChain (genesisState genesis) bs e) :
    e.height = 1 ∨ ∃ b ∈ bs, b.header.id C = e.tip := by
  have hstate := h.state
  rcases List.eq_nil_or_concat bs with rfl | ⟨as, b, rfl⟩
  · left
    have hheight : e.height.toNat = 1 := congrArg ChainState.height hstate.symm
    exact UInt64.toNat_inj.mp hheight
  · right
    refine ⟨b, by simp, ?_⟩
    have htip := ChainState.pushAll_tip (genesisState genesis) (as.concat b)
    rw [hstate, List.concat_eq_append, List.getLast?_concat] at htip
    exact htip.symm

/-- The honest clocks bound everything that happened, and every prevote comes
after the block it goes on. -/
structure SteadyInv (honest : Finset C.VerifyingKey) (w : World C) : Prop where
  trail : ∀ {k}, k ∈ honest → ∀ p ∈ (w k).trail, p.1 ≤ (w k).engine.now
  blocks : ∀ {k}, k ∈ honest → ∀ b ∈ finalized (w k).log, b.header.timestamp ≤ (w k).engine.now
  follows : ∀ {k}, k ∈ honest → ∀ p ∈ (w k).trail, ∀ h id, p.2.Prevotes h id →
    Follows (w k) p.1 id

/-- The clock after a call. -/
theorem now_of_handle {t : UInt64} {ev : Event C} {out : List (Output C)}
    (h : (e.setTime t).handle ord ev = .ok (e', out)) (hclock : ∀ t', ev ≠ .setTime t') :
    e'.now = t := by
  apply handle_induction h (P := fun _ e₁ => e₁.now = t)
  · intro o e₁ hent _
    exact hent.now hclock
  · intro o e₁ o' e₂ hnow hi _
    exact hi.now.trans hnow

/-- After a steady call the clock of the peer is the latest, and at or past
the time of the call. -/
theorem steady_now {k : C.VerifyingKey} {t : UInt64} {ev : Event C} {out : List (Output C)}
    (hsteady : steady honest w k t ev)
    (h : ((w k).engine.setTime t).handle ord ev = .ok (e', out)) :
    t ≤ e'.now ∧ ∀ j ∈ honest, (w j).engine.now ≤ e'.now := by
  have hle : t ≤ e'.now := by
    by_cases hclock : ∃ t', ev = .setTime t'
    · rcases hclock with ⟨t', rfl⟩
      rcases Exec.ok_pair h with ⟨rfl, _⟩
      exact hsteady.2 t' rfl
    · rw [not_exists] at hclock
      rw [now_of_handle h hclock]
      exact UInt64.le_refl _
  exact ⟨hle, fun j hj => UInt64.le_trans (hsteady.1 j hj) hle⟩

namespace SteadyInv

/-- At the start nothing has happened that the clocks would have to bound. -/
theorem init (h₀ : Launched honest genesis w) : SteadyInv honest w := by
  constructor
  · intro k hk p hp
    rw [(h₀ k hk).2.1] at hp
    cases hp
  · intro k hk b hb
    rw [Peer.log, (h₀ k hk).2.1] at hb
    cases hb
  · intro k hk p hp
    rw [(h₀ k hk).2.1] at hp
    cases hp

/-- A vouched block is not from the future. -/
theorem timestamp_le {now : UInt64} (hfree : CollisionFree honest w)
    (htrail : ∀ {k}, k ∈ honest → ∀ p ∈ (w k).trail, p.1 ≤ now) {k : C.VerifyingKey}
    (hk : k ∈ honest) {b : Block C} (hb : b ∈ finalized (w k).log)
    (hvouched : Vouched honest w (b.header.id C)) : b.header.timestamp ≤ now := by
  rcases hvouched with ⟨j, hj, v, hv, hid, _, c, hc, hle⟩
  have hheader : v.header = b.header :=
    hfree.header_eq hj hk hv (Peer.value_of_finalized hb) hid
  rcases mem_prevoteClocks.mp hc with ⟨i, hi, _, o, ho, _⟩
  rw [hheader] at hle
  exact UInt64.le_trans hle (htrail hi _ ho)

/-- An output that prevotes for a block is a vote. -/
theorem cast_of_prevotes {x : Output C} {h : UInt64} {id : Hash} {out : List (Output C)}
    (hx : x.Prevotes h id) (hmem : x ∈ out) :
    ∃ vm, Cast out vm ∧ vm.voteType = .prevote ∧ vm.blockId = some id := by
  cases x with
  | effect eff =>
      cases eff with
      | broadcast msg =>
          cases msg with
          | proposal => exact hx.elim
          | vote vm => exact ⟨vm, hmem, hx.1, hx.2.1⟩
      | scheduleTimeout => exact hx.elim
      | committed => exact hx.elim
  | applied => exact hx.elim

/-- The prevotes of a call at time `t` go on blocks whose timestamps have
passed. -/
theorem call_follows {k : C.VerifyingKey} {t : UInt64} {ev : Event C} {out : List (Output C)}
    (hsound : (w k).Sound genesis k) (hdriven : driven (w k).engine ev)
    (hhandle : ((w k).engine.setTime t).handle ord ev = .ok (e', out))
    (hlog : (w' k).log = (w k).log ++ out)
    (hstored : ∀ r pm, (w k).engine.proposals.lookup r = some pm → pm.value ∈ (w' k).values)
    (hhanded : ∀ pm, ev = .message (.proposal pm) → pm.value ∈ (w' k).values)
    (hblocks : ∀ b ∈ finalized (w' k).log, b.header.timestamp ≤ t) :
    ∀ x ∈ out, ∀ h id, x.Prevotes h id → Follows (w' k) t id := by
  have hsent : ∀ {o pm}, o <+: out → .effect (.broadcast (.proposal pm)) ∈ o →
      pm.value ∈ (w' k).values := by
    intro o pm hle hmem
    apply Peer.value_of_sent
    rw [hlog]
    exact List.mem_append_right _ (hle.subset hmem)
  have hboth : (∀ r pm, e'.proposals.lookup r = some pm → pm.value ∈ (w' k).values) ∧
      ∀ x ∈ out, ∀ h id, x.Prevotes h id → Follows (w' k) t id := by
    apply hsound.call_induction hdriven hhandle (P := fun o e₁ =>
      (∀ r pm, e₁.proposals.lookup r = some pm → pm.value ∈ (w' k).values) ∧
        ∀ x ∈ o, ∀ h id, x.Prevotes h id → Follows (w' k) t id)
    · intro o e₁ _ hent hle
      constructor
      · intro r pm hpm
        rcases hent.stored hpm with ⟨_, hold⟩ | ⟨_, hnew⟩ | ⟨_, hev, _, _⟩
        · exact hstored r pm hold
        · exact hsent hle hnew
        · exact hhanded pm hev
      · intro x hx h id hprevotes
        rcases cast_of_prevotes hprevotes hx with ⟨vm, hcast, _⟩
        exact absurd hcast (hent.noVote vm)
    · rintro o e₁ o' e₂ htraced _ ⟨hknown, hfollows⟩ hi hle
      constructor
      · intro r pm hpm
        rcases hi.stored hpm with ⟨_, hold⟩ | ⟨_, hnew⟩
        · exact hknown r pm hold
        · exact hsent hle (List.mem_append_right _ (mem_effects.mpr hnew))
      · intro x hx h id hprevotes
        rcases List.mem_append.mp hx with hold | hnew
        · exact hfollows x hold h id hprevotes
        rcases cast_of_prevotes hprevotes hnew with ⟨vm, hcast, htype, hid⟩
        -- it is for a stored value that goes on our tip
        have hvalue : ∃ pm r, e₁.proposals.lookup r = some pm ∧ pm.value.id = id ∧
            pm.value.isValid e₁.tip e₁.height e₁.currentSet = true := by
          rcases hi.vote_cases (cast_effects.mp hcast) hid with ⟨_, hguard, _⟩ | ⟨_, _, _, _, _, rfl⟩
          · cases hguard with
            | fresh pm hpm _ hvalid => exact ⟨pm, _, hpm, rfl, hvalid⟩
            | reproposal pm _ hpm _ _ _ hvalid => exact ⟨pm, _, hpm, rfl, hvalid⟩
          · cases htype
        rcases hvalue with ⟨pm, r, hpm, rfl, hvalid⟩
        have hwf := (Proposed.isValid_iff _ _ _ _).mp hvalid
        refine ⟨pm.value, hknown r pm hpm, rfl, ?_⟩
        rcases htraced.onChain.tip_cases with hone | ⟨b, hb, htip⟩
        · exact Or.inl (hwf.height_eq.trans hone)
        · right
          have hmem : b ∈ finalized (w' k).log := by
            rw [hlog]
            have hbegin : (w k).log ++ o <+: (w k).log ++ out :=
              (List.prefix_append_right_inj _).mpr ((List.prefix_append _ _).trans hle)
            exact (hbegin.filterMap _).subset hb
          exact ⟨b, hmem, htip.trans hwf.prevHash_eq.symm, hblocks b hmem⟩
  exact hboth.2

theorem step (h : SteadyInv honest w) (hs : StampInv honest genesis w)
    (hs' : StampInv honest genesis w') (hfree : CollisionFree honest w')
    (hstep : WorldStep honest (timely honest) w w') : SteadyInv honest w' := by
  have hlater := hstep.later
  cases hstep with
  | @handle k t ev ord e' out hk hdriven hgenuine hguard hhandle =>
      have hself : Function.update w k ((w k).handled t ev out e') k =
          (w k).handled t ev out e' := Function.update_self ..
      have hother : ∀ {j}, j ≠ k → Function.update w k ((w k).handled t ev out e') j = w j :=
        fun hne => Function.update_of_ne hne ..
      generalize Function.update w k ((w k).handled t ev out e') = w' at *
      have hengine : (w' k).engine = e' := by
        rw [hself]
        rfl
      have hlog : (w' k).log = (w k).log ++ out := by
        rw [hself, Peer.handled_log]
      rcases steady_now hguard.2 hhandle with ⟨ht, hnow⟩
      have htrail : ∀ {i}, i ∈ honest → ∀ p ∈ (w' i).trail, p.1 ≤ e'.now := by
        intro i hi p hp
        by_cases hik : i = k
        · subst hik
          rw [hself] at hp
          rcases List.mem_append.mp hp with hold | hnew
          · exact UInt64.le_trans (h.trail hi p hold) (hnow i hi)
          · rcases List.mem_map.mp hnew with ⟨o, _, rfl⟩
            exact ht
        · rw [hother hik] at hp
          exact UInt64.le_trans (h.trail hi p hp) (hnow i hi)
      have hblocks : ∀ b ∈ finalized (w' k).log, b.header.timestamp ≤ e'.now :=
        fun b hb => timestamp_le hfree htrail hk hb ((hs'.stamped hk).blocks b hb)
      constructor
      · intro i hi p hp
        by_cases hik : i = k
        · subst hik
          rw [hengine]
          exact htrail hi p hp
        · rw [hother hik] at hp ⊢
          exact h.trail hi p hp
      · intro i hi b hb
        by_cases hik : i = k
        · subst hik
          rw [hengine]
          exact hblocks b hb
        · rw [hother hik] at hb ⊢
          exact h.blocks hi b hb
      · intro i hi p hp x id hprevotes
        by_cases hik : i = k
        swap
        · rw [hother hik] at hp ⊢
          exact h.follows hi p hp x id hprevotes
        subst hik
        have hp' := hp
        rw [hself] at hp'
        rcases List.mem_append.mp hp' with hold | hnew
        · exact (h.follows hi p hold x id hprevotes).mono (hlater i)
        rcases List.mem_map.mp hnew with ⟨o, ho, rfl⟩
        -- a change of the clock has no outputs
        have hclock : ∀ t', ev ≠ .setTime t' := by
          rintro t' rfl
          rcases Exec.ok_pair hhandle with ⟨_, rfl⟩
          cases ho
        have hat := now_of_handle hhandle hclock
        rw [hat] at hblocks
        apply call_follows (hs.sound hi) hdriven hhandle hlog ?_ ?_ hblocks o ho x id hprevotes
        · intro r pm hpm
          exact (hlater i).values_subset ((hs.stamped hi).stored r pm hpm)
        · rintro pm rfl
          apply Peer.value_of_handed
          rw [hself]
          simp [Peer.handled]

/-- And along a run. -/
theorem run (h₀ : Launched honest genesis w₀) (hrun : WorldRun honest (timely honest) w₀ w)
    (hfew : FewByzantine honest w) (hfree : CollisionFree honest w) : SteadyInv honest w := by
  induction hrun with
  | refl => exact init h₀
  | @tail w₁ w₂ hrun₁ hstep ih =>
      have hstamped : ∀ {v}, WorldRun honest (timely honest) w₀ v → FewByzantine honest v →
          StampInv honest genesis v := by
        intro v hv hfew
        exact StampInv.run h₀ (hv.imp fun _ _ _ _ hguard => hguard.1) hfew
      have hbefore := InForce.antitone hfew hstep.later
      have hstart := ih hbefore (hfree.antitone hstep.later)
      exact hstart.step (hstamped hrun₁ hbefore) (hstamped (hrun₁.tail hstep) hfew) hfree hstep

end SteadyInv

/-- Two blocks of an honest chain, one after the other. -/
theorem StampInv.timestamp_le_next (hs : StampInv honest genesis w) (h : SteadyInv honest w)
    (hfree : CollisionFree honest w) {k : C.VerifyingKey} (hk : k ∈ honest)
    {as bs : List (Block C)} {b c : Block C} (hsplit : finalized (w k).log = as ++ b :: c :: bs)
    (hbetween : Between (prevoteClocks honest w c.header.height (c.header.id C))
      c.header.timestamp) : b.header.timestamp ≤ c.header.timestamp := by
  have hb : b.value ∈ (w k).values := Peer.value_of_finalized (by rw [hsplit]; simp)
  have hc : c.value ∈ (w k).values := Peer.value_of_finalized (by rw [hsplit]; simp)
  have hchain := (hs.sound hk).traced.onChain.chain
  rw [hsplit, show as ++ b :: c :: bs = (as ++ [b]) ++ c :: bs by simp] at hchain
  rcases (Chain.append_iff.mp hchain).2.1 with ⟨hheight, set, _, hvalid⟩
  have hprev := ((Proposed.isValid_iff _ _ _ _).mp hvalid).prevHash_eq
  rw [ChainState.pushAll_tip, List.getLast?_concat] at hprev
  rw [ChainState.pushAll_height] at hheight
  -- an honest validator that prevoted for `c` had `b` below it
  rcases hbetween with ⟨⟨a, ha, hle⟩, _⟩
  rcases mem_prevoteClocks.mp ha with ⟨j, hj, _, o, ho, hprevotes⟩
  rcases h.follows hj _ ho _ _ hprevotes with ⟨v, hv, hid, hbase⟩
  have hheader : v.header = c.header := hfree.header_eq hj hk hv hc hid
  rcases hbase with hone | ⟨b', hb', hprev', hle'⟩
  · rw [hheader] at hone
    rw [hone] at hheight
    have hstart : (genesisState (C := C) genesis).height = 1 := rfl
    have htoNat : (1 : UInt64).toNat = 1 := rfl
    rw [hstart, htoNat, List.length_append, List.length_singleton] at hheight
    omega
  · have hsame : b'.value.id = b.value.id := by
      show b'.header.id C = b.header.id C
      rw [hprev', hheader]
      exact hprev
    have hbelow : b'.header = b.header :=
      hfree.header_eq hj hk (Peer.value_of_finalized hb') hb hsame
    rw [← hbelow]
    exact UInt64.le_trans hle' hle

/-- In every run with few Byzantine validators in which every fresh proposal
that an honest engine takes in and may still prevote is dated: the timestamp of
every block that an honest peer finalized lies between clocks at which honest
validators of its height prevoted for it. And if, besides, the honest clocks
agree and never go back, timestamps never decrease along the chain. -/
theorem committed_time_vouched (h₀ : Launched honest genesis w₀)
    (hrun : WorldRun honest (dated honest) w₀ w) (hfew : FewByzantine honest w)
    (hfree : CollisionFree honest w) {k : C.VerifyingKey} (hk : k ∈ honest) :
    (∀ b ∈ finalized (w k).log,
      Between (prevoteClocks honest w b.header.height (b.header.id C)) b.header.timestamp) ∧
    (WorldRun honest (timely honest) w₀ w →
      ((finalized (w k).log).map (·.header.timestamp)).Pairwise (· ≤ ·)) := by
  have hs := StampInv.run h₀ hrun hfew
  have hbetween : ∀ b ∈ finalized (w k).log,
      Between (prevoteClocks honest w b.header.height (b.header.id C)) b.header.timestamp := by
    intro b hb
    rcases (hs.stamped hk).blocks b hb with ⟨j, hj, v, hv, hid, hv'⟩
    -- prevotes name an id, and without collisions that is the header
    have hheader : v.header = b.header :=
      hfree.header_eq hj hk hv (Peer.value_of_finalized hb) hid
    rwa [hheader] at hv'
  refine ⟨hbetween, ?_⟩
  intro htimely
  have hsteady := SteadyInv.run h₀ htimely hfew hfree
  let Before (b c : Block C) : Prop := b.header.timestamp ≤ c.header.timestamp
  have : Trans Before Before Before := ⟨fun h h' => UInt64.le_trans h h'⟩
  -- neighbours are in order, and so all are
  have hchain : List.IsChain Before (finalized (w k).log) := by
    rw [List.isChain_iff_forall_rel_of_append_cons_cons]
    intro b c as bs hsplit
    exact hs.timestamp_le_next hsteady hfree hk hsplit (hbetween c (by rw [hsplit]; simp))
  rw [List.pairwise_map]
  exact hchain.pairwise

instance (w : World C) (k : C.VerifyingKey) (t : UInt64) :
    (ev : Event C) → Decidable (steady honest w k t ev)
  | .setTime t' => decidable_of_iff ((∀ j ∈ honest, (w j).engine.now ≤ t) ∧ t ≤ t') (by
      constructor
      · rintro ⟨hnow, hle⟩
        exact ⟨hnow, fun _ heq => Event.setTime.inj heq ▸ hle⟩
      · exact fun h => ⟨h.1, h.2 t' rfl⟩)
  | .message _ | .start | .timeout _ _ _ | .attestation _ | .governance _
  | .synced _ | .resume => decidable_of_iff (∀ j ∈ honest, (w j).engine.now ≤ t)
      ⟨fun h => ⟨h, nofun⟩, And.left⟩

instance (w : World C) (k : C.VerifyingKey) (t : UInt64) (ev : Event C) :
    Decidable (timely honest w k t ev) := inferInstanceAs (Decidable (_ ∧ _))

/-- Few members of a genesis set are Byzantine, as long as no change is
recorded. -/
theorem FewByzantine.of_genesis {honest : Finset sample.VerifyingKey}
    {genesis : List sample.VerifyingKey} {w : World sample}
    (hchanges : ∀ k ∈ honest, (w k).engine.registry.genesis = genesis ∧
      (w k).engine.registry.changes = [])
    (h : (ValidatorSet.bft genesis).holds (fun set =>
      decide ((set.members \ honest).card ≤ set.f)) = true) : FewByzantine honest w := by
  refine InForce.of_genesis (Q := fun set => (set.members \ honest).card ≤ set.f) hchanges ?_
  intro set hset
  rw [hset] at h
  exact of_decide_eq_true h

/-- All of four but member 2. -/
def butMember2 : Finset sample.VerifyingKey := {1, 3, 4}

/-- The value that the Byzantine member 2 stamps with the time of the others,
and the one that member 3 proposes at time 7. -/
def stampedAt5 : Proposed sample := sampleValueAt 1 Hash.zero 5 [sampleAttestation 9 7]

def stampedAt7 : Proposed sample := sampleValueAt 2 stampedAt5.id 7 [sampleAttestation 9 8]

/-- The honest members take both proposals in, and commit both. -/
def twoStamped : List (sample.VerifyingKey × UInt64 × Event sample) :=
  [1, 3, 4].map (fun k => (k, 5, .start)) ++
  goodRound 1 5 2 stampedAt5 [1, 3, 4] ++
  [(3, 7, .attestation (sampleAttestation 9 8))] ++
  goodRound 2 7 3 stampedAt7 [1, 3, 4]

/-- The blocks are stamped 5 and 7, between the clocks of the honest members. -/
theorem committed_time_vouched_four :
    ∃ w : World sample,
      (finalized (w 1).log).map (fun b => (b.header.height, b.header.timestamp)) =
        [(1, 5), (2, 7)] ∧
      (∀ b ∈ finalized (w 1).log, Between (prevoteClocks butMember2 w
        b.header.height (b.header.id sample)) b.header.timestamp) ∧
      ((finalized (w 1).log).map (·.header.timestamp)).Pairwise (· ≤ ·) := by
  have hplays : (World.play butMember2 (timely butMember2) sampleOrder fourWorld twoStamped).any
      (fun w => decide ((∀ k ∈ butMember2, (w k).engine.registry.genesis = [1, 2, 3, 4] ∧
          (w k).engine.registry.changes = []) ∧
        (finalized (w 1).log).map (fun b => (b.header.height, b.header.timestamp)) =
          [(1, 5), (2, 7)] ∧
        Collision.find sample.digest ([(1 : sample.VerifyingKey), 3, 4].flatMap fun k =>
          (w k).hashed) = none)) = true := by decide +kernel
  rcases (Option.any_eq_true _ _).mp hplays with ⟨w, hplay, hw⟩
  rcases of_decide_eq_true hw with ⟨hchanges, htwo, hfind⟩
  have htimely := WorldRun.of_play hplay
  have hdated := htimely.imp fun _ _ _ _ hguard => hguard.1
  have htime := committed_time_vouched (sampleWorld_launched _ _ _) hdated
    (FewByzantine.of_genesis hchanges (by decide +kernel))
    (CollisionFree.of_find (by simp [butMember2]) hfind) (k := 1) (by decide)
  exact ⟨w, htwo, htime.1, htime.2 htimely⟩

/-- Member 2 proposes a value stamped 0, and the honest members, whose clocks
are at 5, vote for it. -/
def stampedBy2 : List (sample.VerifyingKey × UInt64 × Event sample) :=
  let share (k : UInt8) (t : VoteType) : Event sample :=
    .message (sampleVote k 0 t (some valueA.id))
  [(1, 5, .start), (3, 5, .start), (4, 5, .start)] ++
    [1, 3, 4].map (fun k => (k, 5, .message (sampleProposal 2 0 none valueA))) ++
  [(1, 5, share 3 .prevote), (1, 5, share 4 .prevote),
    (3, 5, share 1 .prevote), (3, 5, share 4 .prevote),
    (4, 5, share 1 .prevote), (4, 5, share 3 .prevote),
    (1, 5, share 3 .precommit), (1, 5, share 4 .precommit)]

/-- They commit it. -/
theorem committed_time_not_vouched :
    ¬ ∀ (honest : Finset sample.VerifyingKey) (genesis : List sample.VerifyingKey)
      (w₀ w : World sample), Launched honest genesis w₀ → WorldRun honest anyStep w₀ w →
      FewByzantine honest w → CollisionFree honest w → ∀ k ∈ honest, ∀ b ∈ finalized (w k).log,
        Between (prevoteClocks honest w b.header.height (b.header.id sample))
          b.header.timestamp := by
  intro hall
  have hplays : (World.play butMember2 anyStep sampleOrder fourWorld stampedBy2).any
      (fun w : World sample => decide ((∀ k ∈ butMember2,
          (w k).engine.registry.genesis = [1, 2, 3, 4] ∧
            (w k).engine.registry.changes = []) ∧
        Collision.find sample.digest (([1, 3, 4] : List sample.VerifyingKey).flatMap fun k =>
          (w k).hashed) = none ∧
        ∃ b ∈ finalized (w 1).log, ¬ Between (prevoteClocks butMember2 w b.header.height
          (b.header.id sample)) b.header.timestamp)) = true := by
    decide +kernel
  rcases (Option.any_eq_true _ _).mp hplays with ⟨w, hplay, hw⟩
  rcases of_decide_eq_true hw with ⟨hchanges, hfind, b, hb, hnot⟩
  apply hnot
  exact hall butMember2 [1, 2, 3, 4] fourWorld w (sampleWorld_launched _ _ _)
    (WorldRun.of_play hplay) (FewByzantine.of_genesis hchanges (by decide +kernel))
    (CollisionFree.of_find (by simp [butMember2]) hfind) 1 (by decide) b hb

end SmartLedger
