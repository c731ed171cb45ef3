import SmartLedger.Consensus.Locking
import SmartLedger.Consensus.Pool
import SmartLedger.Consensus.Timers

/-! # What the lock and the valid value rest on

The engine locks and remembers values only on a polka, and nothing it does
later takes the polka away: members' first votes stay, and its own vote is
overwritten in the current round only, which it leaves before it votes again.
`Backed` is the invariant (`Backed.passes`).

A proposer that enters a round with a valid value re-proposes it. Between that
and its prevote for it the engine is `Waiting`; as the rules run until none is
enabled, the handler returns only once it is not (`Repeats.run`). What is left
is the case in which the round already had another proposal of ours, one this
boot did not make: the first proposal for a round wins.
-/

namespace SmartLedger

open Engine

variable {C : Crypto} {ord : IterOrder} {e e' : Engine C} {log : List (Output C)}

namespace Engine

/-! ## Polkas that stay -/

/-- A stored polka for `v` of a round in which the engine votes no more. -/
structure Polled (e : Engine C) (r : UInt64) (v : Proposed C) : Prop where
  place : r < e.round ∨ r = e.round ∧ e.step ≠ .propose
  quorum : e.quorum ≤ e.countPrevotes r (.id v.id)

namespace Polled

variable {r : UInt64} {v : Proposed C}

theorem le (h : e.Polled r v) : r ≤ e.round := by
  rcases h.place with hlt | ⟨rfl, _⟩
  · exact UInt64.le_of_lt hlt
  · exact UInt64.le_refl _

/-- In the propose step the polka is of an earlier round. -/
theorem lt (h : e.Polled r v) (hstep : e.step = .propose) : r < e.round :=
  h.place.resolve_right fun hr => hr.2 hstep

/-- Entering a later round. -/
theorem startRound {r' : UInt64} {out : List (Effect C)} (h : e.Polled r v) (hlt : e.round < r')
    (hstart : e.startRound r' = .ok (e', out)) : e'.Polled r v := by
  rcases startRound_frame hstart with ⟨_, _, rfl, _⟩
  constructor
  · left
    rcases h.place with hlt' | ⟨rfl, _⟩
    · exact UInt64.lt_trans hlt' hlt
    · exact hlt
  · exact h.quorum

/-- Within a height a polka stays where it is. -/
theorem internal {out : List (Effect C)} (h : e.Polled r v) (hi : Internal ord e out e')
    (hsame : e'.height = e.height) : e'.Polled r v := by
  cases hi with
  | @prevote id hstep hguard =>
      have hlt := h.lt hstep
      have hne : r ≠ e.round := by
        rintro rfl
        exact UInt64.lt_irrefl _ hlt
      constructor
      · exact Or.inl hlt
      · -- our new vote goes to another round
        show e.quorum ≤ (e.prevotes.put e.round e.mePk.id _).count r _
        rw [VoteStore.count_eq, VoteStore.ofRound_put, if_neg hne, ← VoteStore.count_eq]
        exact h.quorum
  | schedulePrevote => exact ⟨h.place, h.quorum⟩
  | polka hstep =>
      constructor
      · exact h.place.imp_right fun hr => ⟨hr.1, Step.noConfusion⟩
      · exact h.quorum
  | latePolka hstep => exact ⟨h.place, h.quorum⟩
  | precommitNil hstep =>
      constructor
      · exact h.place.imp_right fun hr => ⟨hr.1, Step.noConfusion⟩
      · exact h.quorum
  | schedulePrecommit => exact ⟨h.place, h.quorum⟩
  | jump hlt hstart => exact h.startRound hlt hstart
  | wake hparked hwake =>
      rcases wake_frame hwake with ⟨_, rfl, _⟩
      exact ⟨h.place, h.quorum⟩
  | commit _ _ _ hcommit =>
      rcases commit_cases hcommit with ⟨height, set, out', hheight, _, hstart, _⟩
      have hnext : e'.height = height := (startRound_sameHeight hstart).1.height
      -- a commit would have left the height
      have hlater : e.height < height := lt_of_checkedAdd_one hheight
      rw [← hnext, hsame] at hlater
      exact absurd hlater (UInt64.lt_irrefl _)

theorem enter {ev : Event C} {out : List (Output C)} (h : e.Polled r v)
    (hplain : ev.plain = true) (hent : Enter ev e out e') : e'.Polled r v := by
  cases hent with
  | start => cases hplain
  | message hi =>
      cases ingest_cases hi with
      | ignored => exact h
      | proposal => exact ⟨h.place, h.quorum⟩
      | prevote => exact ⟨h.place, h.quorum.trans (VoteStore.count_offer_le _ _ _ _ _ _)⟩
      | precommit => exact ⟨h.place, h.quorum⟩
  | timeout => exact h
  | attestation => exact ⟨h.place, h.quorum⟩
  | governance => exact ⟨h.place, h.quorum⟩
  | refused => exact h
  | synced => cases hplain
  | rejected => cases hplain
  | resume => cases hplain
  | setTime => exact ⟨h.place, h.quorum⟩

end Polled

/-! ## Locked and valid values -/

/-- No value is locked or valid. -/
structure Unset (e : Engine C) : Prop where
  validValue : e.validValue = none
  validRound : e.validRound = none
  lockedValue : e.lockedValue = none
  lockedRound : e.lockedRound = none

/-- The locked and the valid value each have a round with a polka for them,
and the valid value is the later one. -/
structure Backed (e : Engine C) : Prop where
  validSet : e.validValue = none ↔ e.validRound = none
  lockedSet : e.lockedValue = none ↔ e.lockedRound = none
  valid : ∀ {v r}, e.validValue = some v → e.validRound = some r →
    e.Polled r v ∧ v.isValid e.tip e.height e.currentSet = true
  locked : ∀ {v l}, e.lockedValue = some v → e.lockedRound = some l →
    e.Polled l v ∧ ∃ r, e.validRound = some r ∧ l ≤ r

theorem Unset.of_new {registry : ValidatorRegistry C} {meSk : C.SigningKey}
    {mePk : C.VerifyingKey} {tip : Hash} {startHeight : UInt64}
    (h : withRegistry registry meSk mePk tip startHeight = .ok e) : e.Unset := by
  rcases withRegistry_eq_ok h with ⟨set, _, rfl⟩
  exact ⟨rfl, rfl, rfl, rfl⟩

theorem Unset.of_applies {bs : List (Block C)} (h : Applies e bs e') (hbs : bs ≠ []) :
    e'.Unset := by
  induction h with
  | nil => exact absurd rfl hbs
  | @cons e e₁ e' b bs hsync rest ih =>
      by_cases hnil : bs = []
      · subst hnil
        cases rest
        rcases applySyncedBlock_cases hsync with ⟨_, _, _, _, _, _, rfl⟩
        exact ⟨rfl, rfl, rfl, rfl⟩
      · exact ih hnil

theorem Unset.startRound {r : UInt64} {out : List (Effect C)} (h : e.Unset)
    (hstart : e.startRound r = .ok (e', out)) : e'.Unset := by
  rcases startRound_frame hstart with ⟨_, _, rfl, _⟩
  exact ⟨h.validValue, h.validRound, h.lockedValue, h.lockedRound⟩

theorem Unset.commit {r : UInt64} {v : Proposed C} {out : List (Effect C)}
    (h : e.commit ord r v.id v = .ok (e', out)) : e'.Unset := by
  rcases commit_cases h with ⟨height, set, out', _, _, hstart, _⟩
  have hrolled : ∀ pool, (e.rolled v pool height set).Unset := fun _ => ⟨rfl, rfl, rfl, rfl⟩
  exact (hrolled _).startRound hstart

theorem Unset.backed (h : e.Unset) : e.Backed := by
  constructor
  · simp [h.validValue, h.validRound]
  · simp [h.lockedValue, h.lockedRound]
  · intro v r hv
    rw [h.validValue] at hv
    cases hv
  · intro v l hv
    rw [h.lockedValue] at hv
    cases hv

namespace Backed

/-- Within a height, as long as the values stay. -/
theorem keep (h : e.Backed) (hsame : SameHeight e e') (hvalue : e'.validValue = e.validValue)
    (hround : e'.validRound = e.validRound) (hlocked : e'.lockedValue = e.lockedValue)
    (hlock : e'.lockedRound = e.lockedRound)
    (hpolled : ∀ {r v}, e.Polled r v → e'.Polled r v) : e'.Backed := by
  constructor
  · rw [hvalue, hround]
    exact h.validSet
  · rw [hlocked, hlock]
    exact h.lockedSet
  · intro v r hv hr
    rw [hvalue] at hv
    rw [hround] at hr
    rcases h.valid hv hr with ⟨hpolka, hvalid⟩
    rw [hsame.tip, hsame.height, hsame.currentSet]
    exact ⟨hpolled hpolka, hvalid⟩
  · intro v l hv hl
    rw [hlocked] at hv
    rw [hlock] at hl
    rw [hround]
    exact (h.locked hv hl).imp_left hpolled

/-- A polka of the current round makes its value valid, and locked if it is
precommitted. -/
theorem recordPolka {v : Proposed C} (hvalue : e.validValue = some v)
    (hround : e.validRound = some e.round) (hpolka : e.Polled e.round v)
    (hvalid : v.isValid e.tip e.height e.currentSet = true)
    (hset : e.lockedValue = none ↔ e.lockedRound = none)
    (hlocked : ∀ {u l}, e.lockedValue = some u → e.lockedRound = some l → e.Polled l u) :
    e.Backed := by
  constructor
  · simp [hvalue, hround]
  · exact hset
  · intro u r hu hr
    obtain rfl : v = u := Option.some.inj (hvalue.symm.trans hu)
    obtain rfl : e.round = r := Option.some.inj (hround.symm.trans hr)
    exact ⟨hpolka, hvalid⟩
  · intro u l hu hl
    have hu' := hlocked hu hl
    exact ⟨hu', e.round, hround, hu'.le⟩

theorem internal {out : List (Effect C)} (h : e.Backed) (hi : Internal ord e out e') :
    e'.Backed := by
  have hpolled := fun {r v} (hp : e.Polled r v) => hp.internal hi
  cases hi with
  | prevote => exact h.keep rfl rfl rfl rfl rfl fun hp => hpolled hp rfl
  | schedulePrevote => exact h.keep rfl rfl rfl rfl rfl fun hp => hpolled hp rfl
  | @polka pm hstep _ _ hpolka hvalid =>
      have hnow : Polled (((e.lock pm.value).castPrecommit (some pm.value.id)).recordValid pm.value)
          e.round pm.value := ⟨Or.inr ⟨rfl, Step.noConfusion⟩, hpolka⟩
      refine recordPolka rfl rfl hnow hvalid (by simp [recordValid, castPrecommit, lock]) ?_
      intro u l hu hl
      obtain rfl : pm.value = u := Option.some.inj hu
      obtain rfl : e.round = l := Option.some.inj hl
      exact hnow
  | @latePolka pm hstep _ _ hpolka hvalid =>
      refine recordPolka rfl rfl ⟨Or.inr ⟨rfl, ?_⟩, hpolka⟩ hvalid h.lockedSet ?_
      · show e.step ≠ .propose
        rw [hstep]
        exact Step.noConfusion
      · -- the lock stays, and now has a later valid round
        intro u l hu hl
        exact hpolled (h.locked hu hl).1 rfl
  | precommitNil => exact h.keep rfl rfl rfl rfl rfl fun hp => hpolled hp rfl
  | schedulePrecommit => exact h.keep rfl rfl rfl rfl rfl fun hp => hpolled hp rfl
  | jump hlt hstart =>
      rcases startRound_frame hstart with ⟨_, _, rfl, _⟩
      exact h.keep rfl rfl rfl rfl rfl fun hp => hpolled hp rfl
  | wake hparked hwake =>
      rcases wake_frame hwake with ⟨_, rfl, _⟩
      exact h.keep rfl rfl rfl rfl rfl fun hp => hpolled hp rfl
  | commit _ _ _ hcommit => exact (Unset.commit hcommit).backed

theorem enter {ev : Event C} {out : List (Output C)} (h : e.Backed) (hplain : ev.plain = true)
    (hent : Enter ev e out e') : e'.Backed := by
  have hpolled := fun {r v} (hp : e.Polled r v) => hp.enter hplain hent
  cases hent with
  | start => cases hplain
  | message hi =>
      rcases ingest_frame hi with ⟨_, _, _, rfl⟩
      exact h.keep rfl rfl rfl rfl rfl hpolled
  | timeout => exact h
  | attestation => exact h.keep rfl rfl rfl rfl rfl hpolled
  | governance => exact h.keep rfl rfl rfl rfl rfl hpolled
  | refused => exact h
  | synced => cases hplain
  | rejected => cases hplain
  | resume => cases hplain
  | setTime => exact h.keep rfl rfl rfl rfl rfl hpolled

/-- The invariant of every boot, also in the middle of a handler. -/
theorem passes {guard : List (Output C) → Engine C → Event C → Prop} {e₀ : Engine C}
    {s : List (Output C) × Engine C} (h₀ : e₀.Unset) (h : Passes guard e₀ s) : s.2.Backed := by
  induction h with
  | @start now _ _ hstart =>
      have hset : (e₀.setTime now).Unset :=
        ⟨h₀.validValue, h₀.validRound, h₀.lockedValue, h₀.lockedRound⟩
      exact (hset.startRound hstart).backed
  | step _ hstep ih =>
      cases hstep with
      | enter hplain _ hent => exact ih.enter hplain hent
      | internal hi => exact ih.internal hi
      | catchUp hbs happlies hstart =>
          exact ((Unset.of_applies happlies hbs).startRound hstart).backed

end Backed

/-! ## Where a re-proposal leads -/

/-- Heights and rounds only go up, and while the height stays so does every
stored proposal. -/
def Onward (e e' : Engine C) : Prop :=
  e.height < e'.height ∨ e'.height = e.height ∧ e.round ≤ e'.round ∧
    ∀ r pm, e.proposals.lookup r = some pm → e'.proposals.lookup r = some pm

namespace Onward

theorem stays (hheight : e'.height = e.height) (hround : e'.round = e.round)
    (hproposals : e'.proposals = e.proposals) : Onward e e' := by
  refine Or.inr ⟨hheight, ?_, ?_⟩
  · rw [hround]
    exact UInt64.le_refl _
  · rw [hproposals]
    exact fun _ _ h => h

theorem startRound {r : UInt64} {out : List (Effect C)} (hlt : e.round < r)
    (h : e.startRound r = .ok (e', out)) : Onward e e' := by
  rcases startRound_frame h with ⟨_, proposals, rfl, ⟨rfl, _⟩ | ⟨_, _, rfl, _⟩⟩
  · exact Or.inr ⟨rfl, UInt64.le_of_lt hlt, fun _ _ hpm => hpm⟩
  · exact Or.inr ⟨rfl, UInt64.le_of_lt hlt, fun _ _ hpm => KeyMap.lookup_orInsert_of_some hpm⟩

theorem internal {out : List (Effect C)} (h : Internal ord e out e') : Onward e e' := by
  cases h with
  | prevote => exact stays rfl rfl rfl
  | schedulePrevote => exact stays rfl rfl rfl
  | polka => exact stays rfl rfl rfl
  | latePolka => exact stays rfl rfl rfl
  | precommitNil => exact stays rfl rfl rfl
  | schedulePrecommit => exact stays rfl rfl rfl
  | jump hlt hstart => exact startRound hlt hstart
  | wake hparked hwake =>
      rcases wake_frame hwake with ⟨_, rfl, ⟨rfl, _⟩ | ⟨_, _, rfl, _⟩⟩
      · exact stays rfl rfl rfl
      · exact Or.inr ⟨rfl, UInt64.le_refl _, fun _ _ hpm => KeyMap.lookup_orInsert_of_some hpm⟩
  | commit _ _ _ hcommit =>
      rcases commit_cases hcommit with ⟨height, set, _, hheight, _, hstart, _⟩
      left
      rw [(startRound_sameHeight hstart).1.height]
      exact lt_of_checkedAdd_one hheight

theorem enter {ev : Event C} {out : List (Output C)} (hplain : ev.plain = true)
    (hent : Enter ev e out e') : Onward e e' := by
  cases hent with
  | start => cases hplain
  | message hi =>
      cases ingest_cases hi with
      | ignored => exact stays rfl rfl rfl
      | proposal =>
          exact Or.inr ⟨rfl, UInt64.le_refl _, fun _ _ hpm => KeyMap.lookup_orInsert_of_some hpm⟩
      | prevote => exact stays rfl rfl rfl
      | precommit => exact stays rfl rfl rfl
  | timeout => exact stays rfl rfl rfl
  | attestation => exact stays rfl rfl rfl
  | governance => exact stays rfl rfl rfl
  | refused => exact stays rfl rfl rfl
  | synced => cases hplain
  | rejected => cases hplain
  | resume => cases hplain
  | setTime => exact stays rfl rfl rfl

end Onward

/-- The engine is past the round of `pm`. -/
def Left (e : Engine C) (pm : ProposalMsg C) : Prop :=
  pm.height < e.height ∨ pm.height = e.height ∧ pm.round < e.round

/-- The engine holds another proposal of the same proposer for the round of
`pm`. -/
def Displaced (e : Engine C) (pm : ProposalMsg C) : Prop :=
  pm.height = e.height ∧ ∃ other, e.proposals.lookup pm.round = some other ∧ other ≠ pm ∧
    other.proposer = pm.proposer

/-- The proposer has prevoted its own value. -/
def Prevoted (log : List (Output C)) (pm : ProposalMsg C) : Prop :=
  ∃ vm, Cast log vm ∧ vm.voter = pm.proposer ∧ vm.voteType = .prevote ∧ vm.height = pm.height ∧
    vm.round = pm.round ∧ vm.blockId = some pm.value.id

/-- The engine has stored its re-proposal and not yet voted on it. -/
structure Waiting (e : Engine C) (pm : ProposalMsg C) : Prop where
  height : pm.height = e.height
  round : pm.round = e.round
  key : pm.proposer = e.mePk
  step : e.step = .propose
  stored : e.proposals.lookup e.round = some pm
  value : e.validValue = some pm.value
  validRound : e.validRound = pm.validRound

/-- What has become of a re-proposal. -/
def Answered (log : List (Output C)) (e : Engine C) (pm : ProposalMsg C) : Prop :=
  Prevoted log pm ∨ e.Left pm ∨ e.Displaced pm

theorem Answered.onward {pm : ProposalMsg C} (h : Answered log e pm) (honward : Onward e e')
    (out : List (Output C)) : Answered (log ++ out) e' pm := by
  rcases h with ⟨vm, hcast, hvm⟩ | hleft | ⟨hheight, other, hother, hne⟩
  · exact Or.inl ⟨vm, cast_append.mpr (Or.inl hcast), hvm⟩
  · right; left
    rcases honward with hlt | ⟨hheight, hround, _⟩
    · rcases hleft with hlt' | ⟨heq, _⟩
      · exact Or.inl (UInt64.lt_trans hlt' hlt)
      · exact Or.inl (heq ▸ hlt)
    · rcases hleft with hlt' | ⟨heq, hlt'⟩
      · exact Or.inl (hheight ▸ hlt')
      · exact Or.inr ⟨heq.trans hheight.symm, UInt64.lt_of_lt_of_le hlt' hround⟩
  · right
    rcases honward with hlt | ⟨hheight', _, hkept⟩
    · exact Or.inl (Or.inl (hheight ▸ hlt))
    · exact Or.inr ⟨hheight.trans hheight'.symm, other, hkept _ _ hother, hne⟩

/-- A re-proposal is put into its round, or finds another one there. -/
theorem startRound_answers {r : UInt64} {out : List (Effect C)} {pm : ProposalMsg C}
    (hkeys : ∀ {r pm}, e.proposals.lookup r = some pm → e.proposer r = .ok pm.proposer)
    (hstart : e.startRound r = .ok (e', out)) (hmem : .broadcast (.proposal pm) ∈ out)
    (hvr : pm.validRound ≠ none) : e'.Displaced pm ∨ e'.Waiting pm := by
  rcases startRound_frame hstart with ⟨_, proposals, rfl, ⟨_, rfl | rfl⟩ | ⟨hmine, _, rfl, rfl⟩⟩
  · cases hmem
  · cases List.mem_singleton.mp hmem
  have hpm : pm = e.ownProposal r := by simpa using hmem
  subst hpm
  have hstored : (KeyMap.orInsert e.proposals r (e.ownProposal r)).lookup r =
      some ((e.proposals.lookup r).getD (e.ownProposal r)) := KeyMap.lookup_orInsert_self _ _ _
  by_cases hown : (e.proposals.lookup r).getD (e.ownProposal r) = e.ownProposal r
  · right
    rw [hown] at hstored
    -- a valid round comes with the valid value
    cases hv : e.validValue with
    | none =>
        have hnone : (e.ownProposal r).validRound = none := by
          show e.proposalValue.2 = none
          unfold proposalValue
          rw [hv]
        exact absurd hnone hvr
    | some v =>
        have hvalue : e.proposalValue = (v, e.validRound) := by
          unfold proposalValue
          rw [hv]
        refine ⟨rfl, rfl, rfl, rfl, hstored, ?_, ?_⟩
        · show some v = some e.proposalValue.1
          rw [hvalue]
        · show e.validRound = e.proposalValue.2
          rw [hvalue]
  · left
    refine ⟨rfl, _, hstored, hown, ?_⟩
    -- whatever is there came from the designated proposer
    cases hlook : e.proposals.lookup r with
    | none =>
        rw [hlook] at hown
        exact absurd rfl hown
    | some other =>
        have hkey := hkeys hlook
        rw [hmine] at hkey
        exact (Except.ok.inj hkey).symm

/-- The prevote of a waiting engine for its own re-proposal. -/
theorem Waiting.reproposal {pm : ProposalMsg C} (hb : e.Backed) (hw : e.Waiting pm)
    (hvr : pm.validRound ≠ none) :
    e.tryPrevoteOnReproposal = some (e.castPrevote (some pm.value.id),
      [.broadcast (.vote (e.ownVote .prevote (some pm.value.id)))]) := by
  rcases Option.ne_none_iff_exists'.mp hvr with ⟨vr, hvr⟩
  rcases hb.valid hw.value (hw.validRound.trans hvr) with ⟨hpolka, hvalid⟩
  have hlt := hpolka.lt hw.step
  -- the lock is not later than the valid round
  have hlock : e.lockedRound.all (fun lr => decide (lr ≤ vr)) = true := by
    cases hl : e.lockedRound with
    | none => rfl
    | some l =>
        cases hlv : e.lockedValue with
        | none =>
            rw [hb.lockedSet.mp hlv] at hl
            cases hl
        | some u =>
            rcases (hb.locked hlv hl).2 with ⟨r, hr, hle⟩
            obtain rfl : vr = r := Option.some.inj ((hw.validRound.trans hvr).symm.trans hr)
            exact decide_eq_true hle
  unfold tryPrevoteOnReproposal
  rw [if_neg (not_not.mpr hw.step), hw.stored]
  dsimp only
  rw [hvr]
  dsimp only
  rw [if_neg (not_not.mpr hlt), if_neg (not_lt.mpr hpolka.quorum), hvalid, hlock]
  rfl

/-- A rule answers the re-proposal, or leaves the engine waiting. -/
theorem Waiting.rule {pm : ProposalMsg C} {out : List (Effect C)} (hb : e.Backed)
    (hw : e.Waiting pm) (hvr : pm.validRound ≠ none)
    (h : e.applyRule ord = .ok (some (e', out))) :
    Answered (log ++ effects out) e' pm ∨ e'.Waiting pm := by
  rcases applyRule_cases h with h | h | h | h | h | h | h | h
  · -- a commit leaves the height
    rcases tryCommit_cases h with ⟨r, pm', _, _, _, hcommit⟩
    rcases commit_cases hcommit with ⟨height, set, _, hheight, _, hstart, _⟩
    left; right; left; left
    rw [hw.height, (startRound_sameHeight hstart).1.height]
    exact lt_of_checkedAdd_one hheight
  · -- a skip leaves the round
    rcases trySkip_cases h with ⟨r, hr, _, hstart⟩
    rcases startRound_frame hstart with ⟨_, _, rfl, _⟩
    left; right; left; right
    refine ⟨hw.height, ?_⟩
    rw [hw.round]
    exact (Finset.mem_filter.mp hr).2
  · -- the rule for fresh proposals does not apply
    unfold tryPrevoteOnProposal at h
    rw [if_neg (not_not.mpr hw.step), hw.stored] at h
    dsimp only at h
    rw [if_pos (Option.isSome_iff_ne_none.mpr hvr)] at h
    cases h
  · -- the prevote
    rw [hw.reproposal hb hvr] at h
    obtain ⟨rfl, rfl⟩ := Prod.mk.inj (Option.some.inj h)
    left; left
    refine ⟨e.ownVote .prevote (some pm.value.id), ?_, hw.key.symm, rfl, hw.height.symm,
      hw.round.symm, rfl⟩
    exact List.mem_append_right _ List.mem_cons_self
  · -- past the propose step
    unfold trySchedulePrevoteTimeout at h
    rw [if_neg] at h
    · cases h
    · rw [hw.step]
      exact fun hbad => Step.noConfusion hbad.1
  · unfold tryPrecommitOnPolka at h
    rw [if_pos (Or.inl hw.step)] at h
    cases h
  · unfold tryPrecommitNil at h
    rw [if_neg] at h
    · cases h
    · rw [hw.step]
      exact fun hbad => Step.noConfusion hbad.1
  · -- a timer may be set meanwhile
    unfold trySchedulePrecommitTimeout at h
    split at h
    · obtain ⟨rfl, rfl⟩ := Prod.mk.inj (Option.some.inj h)
      exact Or.inr ⟨hw.height, hw.round, hw.key, hw.step, hw.stored, hw.value, hw.validRound⟩
    · cases h

/-- No engine waits when no rule is enabled. -/
theorem Waiting.not_atRest {pm : ProposalMsg C} (hb : e.Backed) (hw : e.Waiting pm)
    (hvr : pm.validRound ≠ none) : ¬ e.AtRest := by
  intro hrest
  rcases Option.ne_none_iff_exists'.mp hvr with ⟨vr, hvr⟩
  rcases hb.valid hw.value (hw.validRound.trans hvr) with ⟨hpolka, _⟩
  apply not_ready_of_atRest hrest hw.step
  exact ⟨pm, hw.stored, Or.inr ⟨vr, hvr, hpolka.lt hw.step, hpolka.quorum⟩⟩

/-! ## Handlers -/

/-- Proposals are stored under their rounds, for the current height and by the
designated proposers. -/
def Filed (e : Engine C) : Prop :=
  ∀ r pm, e.proposals.lookup r = some pm →
    pm.height = e.height ∧ pm.round = r ∧ e.proposer r = .ok pm.proposer

theorem Filed.internal {out : List (Effect C)} (h : e.Filed) (hi : Internal ord e out e') :
    e'.Filed := by
  intro r pm hpm
  rcases hi.stored hpm with ⟨hsame, hold⟩ | ⟨rfl, hmem⟩
  · rw [hsame.proposer, hsame.height]
    exact h r pm hold
  · rcases hi.own hmem with ⟨rfl, hmine⟩
    exact ⟨rfl, rfl, hmine⟩

theorem Filed.enter {ev : Event C} {out : List (Output C)} (h : e.Filed)
    (hent : Enter ev e out e') : e'.Filed := by
  intro r pm hpm
  rcases hent.stored hpm with ⟨hsame, hold⟩ | ⟨rfl, hmem⟩ | ⟨hsame, _, rfl, hacc⟩
  · rw [hsame.proposer, hsame.height]
    exact h r pm hold
  · rcases hent.own hmem with ⟨rfl, hmine⟩
    exact ⟨rfl, rfl, hmine⟩
  · rw [hsame.proposer, hsame.height]
    exact ⟨hacc.1, rfl, hacc.2.1⟩

/-- A parked engine has no valid value. -/
def Asleep (e : Engine C) : Prop := e.parked = true → e.validValue = none

theorem Asleep.startRound {r : UInt64} {out : List (Effect C)}
    (h : e.startRound r = .ok (e', out)) : e'.Asleep := by
  rcases startRound_cases h with ⟨_, hnone, _, _, rfl, _⟩ | henter
  · exact fun _ => hnone
  · rcases enterPropose_cases henter with ⟨_, _, rfl, _⟩ | ⟨rfl, _⟩
    · exact fun hparked => Bool.noConfusion hparked
    · exact fun hparked => Bool.noConfusion hparked

/-- A value becomes valid only as the proposal of the current round, which a
parked engine does not have. -/
theorem Asleep.fires {out : List (Effect C)} (h : e.Asleep) (hunseen : e.Unseen)
    (hf : Fires ord e out e') : e'.Asleep := by
  cases hf with
  | prevote => exact h
  | schedulePrevote => exact h
  | polka _ _ hpm =>
      intro hparked
      rw [hunseen hparked] at hpm
      cases hpm
  | latePolka _ _ hpm =>
      intro hparked
      rw [hunseen hparked] at hpm
      cases hpm
  | precommitNil => exact h
  | schedulePrecommit => exact h
  | skip _ _ hstart => exact Asleep.startRound hstart
  | commit _ _ _ hcommit =>
      rcases commit_cases hcommit with ⟨_, _, _, _, _, hstart, _⟩
      exact Asleep.startRound hstart

/-- What holds of the engine while a handler runs, apart from its
re-proposals. -/
structure Sound (e : Engine C) : Prop where
  backed : e.Backed
  unseen : e.Unseen
  asleep : e.Asleep
  filed : e.Filed

theorem Sound.fires {out : List (Effect C)} (h : e.Sound) (hf : Fires ord e out e') :
    e'.Sound where
  backed := h.backed.internal hf.internal
  unseen := h.unseen.fires hf
  asleep := h.asleep.fires h.unseen hf
  filed := h.filed.internal hf.internal

/-- Waking up makes no re-proposal. -/
theorem Asleep.wake {out : List (Effect C)} {pm : ProposalMsg C} (h : e.Asleep)
    (hparked : e.parked = true) (hunpark : e.unpark = .ok (e', out))
    (hmem : .broadcast (.proposal pm) ∈ out) : pm.validRound = none := by
  unfold Engine.unpark at hunpark
  rw [if_pos hparked] at hunpark
  rcases wake_frame hunpark with ⟨_, _, ⟨_, rfl⟩ | ⟨_, _, _, rfl⟩⟩
  · cases List.mem_singleton.mp hmem
  · have hpm : pm = e.ownProposal e.round := by simpa using hmem
    subst hpm
    show e.proposalValue.2 = none
    unfold proposalValue
    rw [h hparked]

theorem Asleep.unparked {out : List (Effect C)} (hunpark : e.unpark = .ok (e', out))
    (hparked : e.parked = true) : e'.Asleep := by
  unfold Engine.unpark at hunpark
  rw [if_pos hparked] at hunpark
  rcases wake_frame hunpark with ⟨_, rfl, _⟩
  exact fun hparked => Bool.noConfusion hparked

/-- What a timer of the current round does: a vote for nil, the next round, or
nothing. -/
theorem fireTimeout_cases {kind : TimeoutKind} {out : List (Effect C)}
    (h : e.fireTimeout kind = .ok (e', out)) :
    (e' = e ∧ out = []) ∨
    (e' = e.castPrevote none ∧ out = [.broadcast (.vote (e.ownVote .prevote none))]) ∨
    (e' = e.castPrecommit none ∧ out = [.broadcast (.vote (e.ownVote .precommit none))]) ∨
    ∃ next, e.round < next ∧ e.startRound next = .ok (e', out) := by
  cases kind with
  | propose =>
      dsimp only [Engine.fireTimeout, emitPrevote] at h
      split at h
      · rcases Exec.ok_pair h with ⟨rfl, rfl⟩
        exact Or.inr (Or.inl ⟨rfl, rfl⟩)
      · rcases Exec.ok_pair h with ⟨rfl, rfl⟩
        exact Or.inl ⟨rfl, rfl⟩
  | prevote =>
      dsimp only [Engine.fireTimeout, emitPrecommit] at h
      split at h
      · rcases Exec.ok_pair h with ⟨rfl, rfl⟩
        exact Or.inr (Or.inr (Or.inl ⟨rfl, rfl⟩))
      · rcases Exec.ok_pair h with ⟨rfl, rfl⟩
        exact Or.inl ⟨rfl, rfl⟩
  | precommit =>
      unfold Engine.fireTimeout at h
      rw [Exec.bind_eq_ok] at h
      rcases h with ⟨next, hnext, hstart⟩
      exact Or.inr (Or.inr (Or.inr ⟨next, lt_of_checkedAdd_one hnext, hstart⟩))

theorem Asleep.opens {ev : Event C} {out : List (Output C)} {go : Bool} (h : e.Asleep)
    (hplain : ev.plain = true) (ho : e.Opens ev e' out go) : e'.Asleep := by
  cases ho with
  | round _ hstart => exact Asleep.startRound hstart
  | message hingest hwake =>
      rcases ingest_frame hingest with ⟨_, _, _, rfl⟩
      unfold wakeFor at hwake
      split at hwake
      · next hcond =>
          rw [Bool.and_eq_true, Bool.and_eq_true] at hcond
          exact Asleep.unparked hwake hcond.1.1
      · rcases Exec.ok_pair hwake with ⟨rfl, _⟩
        exact h
  | timer hfire =>
      rcases fireTimeout_cases hfire with ⟨rfl, _⟩ | ⟨rfl, _⟩ | ⟨rfl, _⟩ | ⟨_, _, hstart⟩
      · exact h
      · exact h
      · exact h
      · exact Asleep.startRound hstart
  | lateTimer => exact h
  | woken _ hparked hunpark => exact Asleep.unparked hunpark hparked
  | queued => exact h
  | refused => exact h
  | synced => cases hplain
  | setTime => exact h

theorem Sound.opens {ev : Event C} {out : List (Output C)} {go : Bool} (h : e.Sound)
    (hplain : ev.plain = true) (ho : e.Opens ev e' out go) : e'.Sound := by
  have hsteps : ∃ e₁ o₁ o₂, Enter ev e o₁ e₁ ∧ Internals sampleOrder e₁ o₂ e' ∧
      out = o₁ ++ effects o₂ := ho.steps
  rcases hsteps with ⟨e₁, o₁, o₂, hent, hints, -⟩
  have hfirst : e₁.Backed ∧ e₁.Filed := ⟨h.backed.enter hplain hent, h.filed.enter hent⟩
  have hlast : e'.Backed ∧ e'.Filed := by
    clear ho hent
    induction hints with
    | refl => exact hfirst
    | step hi _ ih => exact ih ⟨hfirst.1.internal hi, hfirst.2.internal hi⟩
  refine ⟨hlast.1, h.unseen.opens ?_ ho, h.asleep.opens hplain ho, hlast.2⟩
  rintro (rfl | rfl) <;> cases hplain

/-- Before the rules run, only the precommit timer makes a re-proposal. -/
theorem Sound.opens_answers {ev : Event C} {out : List (Output C)} {go : Bool}
    {pm : ProposalMsg C} (h : e.Sound) (hplain : ev.plain = true) (ho : e.Opens ev e' out go)
    (hmem : .effect (.broadcast (.proposal pm)) ∈ out) (hvr : pm.validRound ≠ none) :
    e'.Displaced pm ∨ e'.Waiting pm := by
  cases ho with
  | round hev => rcases hev with rfl | rfl <;> cases hplain
  | message hingest hwake =>
      rcases ingest_frame hingest with ⟨proposals, prevotes, precommits, rfl⟩
      -- an engine that wakes up proposes afresh, if at all
      have hasleep : Asleep { e with proposals, prevotes, precommits } := h.asleep
      unfold wakeFor at hwake
      split at hwake
      · next hcond =>
          rw [Bool.and_eq_true, Bool.and_eq_true] at hcond
          exact absurd (hasleep.wake hcond.1.1 hwake (mem_effects.mp hmem)) hvr
      · rcases Exec.ok_pair hwake with ⟨_, rfl⟩
        cases hmem
  | timer hfire =>
      have hmem' := mem_effects.mp hmem
      rcases fireTimeout_cases hfire with ⟨_, rfl⟩ | ⟨_, rfl⟩ | ⟨_, rfl⟩ | ⟨_, _, hstart⟩
      · cases hmem'
      · cases List.mem_singleton.mp hmem'
      · cases List.mem_singleton.mp hmem'
      · exact startRound_answers (fun hpm => (h.filed _ _ hpm).2.2) hstart hmem' hvr
  | lateTimer => cases hmem
  | @woken _ pool gov _ _ hqueues hparked hunpark =>
      have hasleep : Asleep { e with mempool := pool, govMempool := gov } := h.asleep
      exact absurd (hasleep.wake hparked hunpark (mem_effects.mp hmem)) hvr
  | queued => cases hmem
  | refused => cases hmem
  | synced => cases hplain
  | setTime => cases hmem

theorem Onward.trans {e₁ e₂ e₃ : Engine C} (h₁ : Onward e₁ e₂) (h₂ : Onward e₂ e₃) :
    Onward e₁ e₃ := by
  rcases h₁ with hlt | ⟨hheight, hround, hkept⟩
  · rcases h₂ with hlt' | ⟨hheight', _⟩
    · exact Or.inl (UInt64.lt_trans hlt hlt')
    · exact Or.inl (hheight' ▸ hlt)
  · rcases h₂ with hlt' | ⟨hheight', hround', hkept'⟩
    · exact Or.inl (hheight ▸ hlt')
    · exact Or.inr ⟨hheight'.trans hheight, UInt64.le_trans hround hround',
        fun r pm hpm => hkept' r pm (hkept r pm hpm)⟩

theorem Onward.opens {ev : Event C} {out : List (Output C)} {go : Bool}
    (hplain : ev.plain = true) (ho : e.Opens ev e' out go) : Onward e e' := by
  have hsteps : ∃ e₁ o₁ o₂, Enter ev e o₁ e₁ ∧ Internals sampleOrder e₁ o₂ e' ∧
      out = o₁ ++ effects o₂ := ho.steps
  rcases hsteps with ⟨e₁, o₁, o₂, hent, hints, -⟩
  have hrest : Onward e₁ e' := by
    clear ho hent
    induction hints with
    | refl => exact Onward.stays rfl rfl rfl
    | step hi _ ih => exact (Onward.internal hi).trans ih
  exact (Onward.enter hplain hent).trans hrest

/-- The state of a handler: every re-proposal of the run is answered, or the
engine is waiting to answer it. -/
structure Repeats (log : List (Output C)) (e : Engine C) : Prop where
  sound : e.Sound
  answered : ∀ pm, .effect (.broadcast (.proposal pm)) ∈ log → pm.validRound ≠ none →
    Answered log e pm ∨ e.Waiting pm

/-- Only a skip makes a re-proposal while the rules run. -/
theorem Sound.fires_answers {out : List (Effect C)} {pm : ProposalMsg C} (h : e.Sound)
    (hf : Fires ord e out e') (hmem : .broadcast (.proposal pm) ∈ out)
    (hvr : pm.validRound ≠ none) : e'.Displaced pm ∨ e'.Waiting pm := by
  cases hf with
  | prevote => cases List.mem_singleton.mp hmem
  | schedulePrevote => cases List.mem_singleton.mp hmem
  | polka => cases List.mem_singleton.mp hmem
  | latePolka => cases hmem
  | precommitNil => cases List.mem_singleton.mp hmem
  | schedulePrecommit => cases List.mem_singleton.mp hmem
  | skip _ _ hstart => exact startRound_answers (fun hpm => (h.filed _ _ hpm).2.2) hstart hmem hvr
  | commit _ _ _ hcommit =>
      rcases commit_cases hcommit with ⟨_, _, out', _, _, hstart, rfl⟩
      rcases List.mem_cons.mp hmem with hbad | hmem
      · cases hbad
      · -- nothing is stored at the new height
        refine startRound_answers ?_ hstart hmem hvr
        intro r pm hpm
        simp [rolled, clearHeight] at hpm

theorem Repeats.rule {out : List (Effect C)} (h : Repeats log e)
    (hrule : e.applyRule ord = .ok (some (e', out))) : Repeats (log ++ effects out) e' := by
  have hf := applyRule_fires hrule
  refine ⟨h.sound.fires hf, ?_⟩
  intro pm hmem hvr
  rcases List.mem_append.mp hmem with hold | hnew
  · rcases h.answered pm hold hvr with hans | hwait
    · exact Or.inl (hans.onward (Onward.internal hf.internal) _)
    · exact hwait.rule h.sound.backed hvr hrule
  · exact (h.sound.fires_answers hf (mem_effects.mp hnew) hvr).imp_left fun hd => Or.inr (Or.inr hd)

/-- A handler returns with every re-proposal answered. -/
theorem Repeats.handle {ev : Event C} {out : List (Output C)} (h : Repeats log e)
    (hrest : e.AtRest) (hplain : ev.plain = true) (hstep : e.handle ord ev = .ok (e', out)) :
    Repeats (log ++ out) e' := by
  refine handle_rule_induction (P := fun o e => Repeats (log ++ o) e) hstep ?_ ?_
  · intro o e₁ go ho
    refine ⟨h.sound.opens hplain ho, ?_⟩
    intro pm hmem hvr
    rcases List.mem_append.mp hmem with hold | hnew
    · left
      have hans := (h.answered pm hold hvr).resolve_right fun hw =>
        hw.not_atRest h.sound.backed hvr hrest
      exact hans.onward (Onward.opens hplain ho) _
    · exact (h.sound.opens_answers hplain ho hnew hvr).imp_left fun hd => Or.inr (Or.inr hd)
  · intro o e₁ o' e₂ hP hnext
    rw [← List.append_assoc]
    exact hP.rule hnext

/-- The same where round 0 of a fresh height is entered. -/
theorem Repeats.fresh {ev : Event C} {out : List (Output C)} (hev : ev = .start ∨ ev = .resume)
    (hfresh : FreshAt e) (hunset : e.Unset)
    (hold : ∀ pm, .effect (.broadcast (.proposal pm)) ∈ log → pm.validRound ≠ none →
      Answered log e pm) (h : e.handle ord ev = .ok (e', out)) : Repeats (log ++ out) e' := by
  refine handle_rule_induction (P := fun o e => Repeats (log ++ o) e) h ?_ ?_
  · intro o e₁ go ho
    -- the one thing that start and resume do is to enter round 0
    have hround : ∃ out, e.startRound 0 = .ok (e₁, out) ∧ o = effects out := by
      cases ho with
      | round _ hstart => exact ⟨_, hstart, rfl⟩
      | message => rcases hev with hev | hev <;> cases hev
      | timer => rcases hev with hev | hev <;> cases hev
      | lateTimer => rcases hev with hev | hev <;> cases hev
      | woken hqueues => rcases hev with rfl | rfl <;> cases hqueues
      | queued hqueues => rcases hev with rfl | rfl <;> cases hqueues
      | refused hev' => rcases hev with rfl | rfl <;> simp at hev'
      | synced => rcases hev with hev | hev <;> cases hev
      | setTime => rcases hev with hev | hev <;> cases hev
    rcases hround with ⟨out, hstart, rfl⟩
    -- no proposal is left over from the height before
    have hempty : ∀ r pm, e.proposals.lookup r ≠ some pm := by
      intro r pm hpm
      rw [hfresh.proposals] at hpm
      simp at hpm
    have hfiled : e.Filed := fun r pm hpm => absurd hpm (hempty r pm)
    have hentered : e₁.Filed := by
      have hent : Enter .start e (effects out) e₁ := Enter.start hstart
      exact hfiled.enter hent
    have hunseen : e₁.Unseen := Unseen.startRound hstart fun _ => by simp [hfresh.proposals]
    refine ⟨⟨(hunset.startRound hstart).backed, hunseen, Asleep.startRound hstart, hentered⟩, ?_⟩
    intro pm hmem hvr
    rcases List.mem_append.mp hmem with hlog | hnew
    · left
      refine (hold pm hlog hvr).onward ?_ _
      rcases startRound_frame hstart with ⟨_, _, rfl, _⟩
      refine Or.inr ⟨rfl, ?_, fun r pm hpm => absurd hpm (hempty r pm)⟩
      rw [hfresh.round]
      exact UInt64.le_refl _
    · exact (startRound_answers (fun hpm => absurd hpm (hempty _ _)) hstart (mem_effects.mp hnew) hvr).imp_left
        fun hd => Or.inr (Or.inr hd)
  · intro o e₁ o' e₂ hP hnext
    rw [← List.append_assoc]
    exact hP.rule hnext

end Engine

theorem BootRun.repeats {guard : List (Output C) → Engine C → Event C → Prop} {e₀ : Engine C}
    (hfresh : FreshAt e₀) (hunset : e₀.Unset) (h : BootRun guard e₀ log e) :
    Repeats log e ∧ e.AtRest := by
  induction h with
  | @start _ now out e₁ h =>
      have hset : (e₀.setTime now).Unset :=
        ⟨hunset.validValue, hunset.validRound, hunset.lockedValue, hunset.lockedRound⟩
      have hfirst : Repeats ([] ++ out) e₁ := by
        refine Repeats.fresh (Or.inl rfl) (hfresh.setTime now) hset ?_ h
        intro pm hmem
        cases hmem
      exact ⟨hfirst, (hfresh.setTime now).atRest.handle h⟩
  | step _ hstep ih =>
      rcases ih with ⟨hrep, hrest⟩
      cases hstep with
      | event hplain _ h => exact ⟨hrep.handle hrest hplain h, hrest.handle h⟩
      | catchUp hbs happlies h =>
          have hat := happlies.fresh hbs
          refine ⟨?_, hat.1.atRest.handle h⟩
          rw [← List.append_assoc]
          refine Repeats.fresh (Or.inr rfl) hat.1 (Unset.of_applies happlies hbs) ?_ h
          intro pm hmem hvr
          rcases List.mem_append.mp hmem with hold | hbad
          -- at rest nothing waits for its answer any more
          · have hans := (hrep.answered pm hold hvr).resolve_right fun hw =>
              hw.not_atRest hrep.sound.backed hvr hrest
            exact hans.onward (Or.inl hat.2.1) _
          · simp at hbad

/-- A re-proposal is answered when the handler returns. -/
theorem BootRun.answered {guard : List (Output C) → Engine C → Event C → Prop} {e₀ : Engine C}
    (hfresh : FreshAt e₀) (hunset : e₀.Unset) (h : BootRun guard e₀ log e) {pm : ProposalMsg C}
    (hmem : .effect (.broadcast (.proposal pm)) ∈ log) (hvr : pm.validRound ≠ none) :
    Answered log e pm := by
  rcases h.repeats hfresh hunset with ⟨hrep, hrest⟩
  exact (hrep.answered pm hmem hvr).resolve_right fun hw =>
    hw.not_atRest hrep.sound.backed hvr hrest

/-! ## Nobody else uses the key -/

/-- An entered round holds the proposal that was made for it. -/
theorem Engine.startRound_sent {r : UInt64} {out : List (Effect C)} {pm : ProposalMsg C}
    (h : e.startRound r = .ok (e', out)) (hmem : .broadcast (.proposal pm) ∈ out) :
    (e'.proposals.lookup pm.round).isSome := by
  rcases startRound_frame h with ⟨_, proposals, rfl, ⟨_, rfl | rfl⟩ | ⟨_, _, rfl, rfl⟩⟩
  · cases hmem
  · cases List.mem_singleton.mp hmem
  · have hpm : pm = e.ownProposal r := by simpa using hmem
    subst hpm
    show ((KeyMap.orInsert e.proposals r (e.ownProposal r)).lookup r).isSome
    rw [KeyMap.lookup_orInsert_self]
    rfl

theorem Engine.Internal.sent {out : List (Effect C)} {pm : ProposalMsg C}
    (h : Internal ord e out e') (hmem : .broadcast (.proposal pm) ∈ out) :
    (e'.proposals.lookup pm.round).isSome := by
  cases h with
  | prevote => cases List.mem_singleton.mp hmem
  | schedulePrevote => cases List.mem_singleton.mp hmem
  | polka => cases List.mem_singleton.mp hmem
  | latePolka => cases hmem
  | precommitNil => cases List.mem_singleton.mp hmem
  | schedulePrecommit => cases List.mem_singleton.mp hmem
  | jump _ hstart => exact startRound_sent hstart hmem
  | wake hparked hwake =>
      rcases wake_frame hwake with ⟨_, rfl, ⟨_, rfl⟩ | ⟨_, _, rfl, rfl⟩⟩
      · cases List.mem_singleton.mp hmem
      -- what it proposes on waking up, it files first
      · have hpm : pm = e.ownProposal e.round := by simpa using hmem
        subst hpm
        show ((KeyMap.orInsert e.proposals e.round _).lookup e.round).isSome
        rw [KeyMap.lookup_orInsert_self]
        rfl
  | commit _ _ _ hcommit =>
      rcases commit_cases hcommit with ⟨_, _, out', _, _, hstart, rfl⟩
      rcases List.mem_cons.mp hmem with hbad | hmem
      · cases hbad
      · exact startRound_sent hstart hmem

/-- The proposals of the current height under the engine's key are those it
made, and each of them took its round. -/
structure OwnProposals (log : List (Output C)) (e : Engine C) : Prop where
  key : ∀ pm, .effect (.broadcast (.proposal pm)) ∈ log → pm.proposer = e.mePk
  stored : ∀ r pm, e.proposals.lookup r = some pm → pm.proposer = e.mePk →
    .effect (.broadcast (.proposal pm)) ∈ log
  sent : ∀ pm, .effect (.broadcast (.proposal pm)) ∈ log → pm.height = e.height →
    (e.proposals.lookup pm.round).isSome

namespace OwnProposals

theorem fresh {out : List (Effect C)} (hproposals : e.proposals = ∅)
    (hkey : ∀ pm, .effect (.broadcast (.proposal pm)) ∈ log → pm.proposer = e.mePk)
    (hbefore : ∀ {h r m}, (h, r, m) ∈ marks log → h < e.height)
    (h : e.startRound 0 = .ok (e', out)) : OwnProposals (log ++ effects out) e' := by
  constructor
  · intro pm hmem
    rcases List.mem_append.mp hmem with hold | hnew
    · rw [(startRound_sameHeight h).1.mePk]
      exact hkey pm hold
    · rw [(startRound_own h (mem_effects.mp hnew)).1]
      rfl
  · intro r pm hpm _
    rcases startRound_stored h hpm with hold | ⟨_, hmem⟩
    · rw [hproposals] at hold
      simp at hold
    · exact List.mem_append_right _ (mem_effects.mpr hmem)
  · intro pm hmem hheight
    rcases List.mem_append.mp hmem with hold | hnew
    · rw [(startRound_sameHeight h).1.height] at hheight
      have hlt := hbefore (mark_of_proposal hold)
      rw [hheight] at hlt
      exact absurd hlt (UInt64.lt_irrefl _)
    · exact startRound_sent h (mem_effects.mp hnew)

theorem internal {out : List (Effect C)} (h : OwnProposals log e) (hmarked : Marked log e)
    (hi : Internal ord e out e') : OwnProposals (log ++ effects out) e' := by
  constructor
  · intro pm hmem
    rcases List.mem_append.mp hmem with hold | hnew
    · rw [hi.keys.2]
      exact h.key pm hold
    · rw [(hi.own (mem_effects.mp hnew)).1]
      rfl
  · intro r pm hpm hkey
    rcases hi.stored hpm with ⟨hsame, hold⟩ | ⟨_, hmem⟩
    · rw [hsame.mePk] at hkey
      exact List.mem_append_left _ (h.stored r pm hold hkey)
    · exact List.mem_append_right _ (mem_effects.mpr hmem)
  · intro pm hmem hheight
    rcases List.mem_append.mp hmem with hold | hnew
    · rcases Onward.internal hi with hlt | ⟨hsame, _, hkept⟩
      · have hle := hmarked.height_le (mark_of_proposal hold)
        rw [hheight] at hle
        exact absurd hle (UInt64.not_le.mpr hlt)
      · rcases Option.isSome_iff_exists.mp (h.sent pm hold (hheight.trans hsame)) with ⟨pm', hpm'⟩
        exact Option.isSome_iff_exists.mpr ⟨pm', hkept _ _ hpm'⟩
    · exact hi.sent (mem_effects.mp hnew)

theorem enter {ev : Event C} {out : List (Output C)} (h : OwnProposals log e)
    (hplain : ev.plain = true) (hguard : ownKey log e ev) (hent : Enter ev e out e') :
    OwnProposals (log ++ out) e' := by
  have hstays : ∀ {e₁ : Engine C}, e₁.proposals = e.proposals → e₁.mePk = e.mePk →
      e₁.height = e.height → OwnProposals (log ++ []) e₁ := by
    intro e₁ hproposals hkey hheight
    rw [List.append_nil]
    constructor
    · rw [hkey]
      exact h.key
    · rw [hproposals, hkey]
      exact h.stored
    · rw [hproposals, hheight]
      exact h.sent
  cases hent with
  | start => cases hplain
  | @message _ _ msg hi =>
      cases ingest_cases hi with
      | ignored => exact hstays rfl rfl rfl
      | @proposal pm hacc =>
          rw [List.append_nil]
          constructor
          · exact h.key
          · intro r pm' hpm' hkey
            rcases KeyMap.lookup_orInsert_cases hpm' with hold | ⟨rfl, rfl, hnone⟩
            · exact h.stored r pm' hold hkey
            · -- we proposed for this round, so it was not free
              rcases hguard pm' rfl hkey hacc.2.2 with ⟨pm₀, hsent, hheight, hround⟩
              have hsome := h.sent pm₀ hsent (hheight.trans hacc.1)
              rw [hround, hnone] at hsome
              cases hsome
          · intro pm' hmem hheight
            exact isSome_orInsert (h.sent pm' hmem hheight)
      | prevote => exact hstays rfl rfl rfl
      | precommit => exact hstays rfl rfl rfl
  | timeout => exact hstays rfl rfl rfl
  | attestation => exact hstays rfl rfl rfl
  | governance => exact hstays rfl rfl rfl
  | refused => exact hstays rfl rfl rfl
  | synced => cases hplain
  | rejected => cases hplain
  | resume => cases hplain
  | setTime => exact hstays rfl rfl rfl

theorem passes {e₀ : Engine C} {s : List (Output C) × Engine C} (hfresh : FreshAt e₀)
    (h : Passes ownKey e₀ s) : OwnProposals s.1 s.2 := by
  induction h with
  | @start now out e₁ hstart =>
      have hfirst : OwnProposals ([] ++ effects out) e₁ := by
        refine fresh (hfresh.setTime now).proposals ?_ ?_ hstart
        · intro pm hmem
          cases hmem
        · intro h r m hmem
          cases hmem
      exact hfirst
  | @step s s' hpass hstep ih =>
      -- the marks of the log say that the new height was not reached before
      have hmarked : Marked s.1 s.2 := (TimerInv.passes hfresh hpass).toMarked
      cases hstep with
      | enter hplain hguard hent => exact ih.enter hplain hguard hent
      | internal hi => exact ih.internal hmarked hi
      | catchUp hbs happlies hstart =>
          rw [← List.append_assoc]
          refine fresh (happlies.fresh hbs).1.proposals ?_ ?_ hstart
          · intro pm hmem
            rw [(happlies.fresh hbs).2.2]
            rcases List.mem_append.mp hmem with hold | hbad
            · exact ih.key pm hold
            · simp at hbad
          · intro h r m hmem
            rw [marks_append, marks_applied, List.append_nil] at hmem
            exact UInt64.lt_of_le_of_lt (hmarked.height_le hmem) (happlies.fresh hbs).2.1

/-- Then nothing takes the place of a proposal: two of one round are one. -/
theorem not_displaced (h : OwnProposals log e) (hmarked : Marked log e) (hfiled : e.Filed)
    {pm : ProposalMsg C} (hmem : .effect (.broadcast (.proposal pm)) ∈ log) :
    ¬ e.Displaced pm := by
  rintro ⟨hheight, other, hother, hne, hsame⟩
  have hsent := h.stored _ other hother (hsame.trans (h.key pm hmem))
  rcases hfiled _ other hother with ⟨hheight', hround, _⟩
  apply hne
  apply List.inj_on_of_nodup_map hmarked.proposals_nodup
  · exact List.mem_filterMap.mpr ⟨_, hsent, rfl⟩
  · exact List.mem_filterMap.mpr ⟨_, hmem, rfl⟩
  · rw [hheight', hround, hheight]

end OwnProposals

/-- What a lock and a valid value rest on. In every state of a boot, also in
the middle of a handler: value and round are set together; the valid round has
come, with a polka for the valid value, which is acceptable; and the locked
round is not later, with a polka for the locked value. And in every run of
handler calls, each proposal with a valid round was prevoted, or its round was
left, or the engine held another proposal under its key for it; which it does
not when nobody else proposes under that key. -/
theorem lock_backed_by_polka {registry : ValidatorRegistry C} {meSk : C.SigningKey}
    {mePk : C.VerifyingKey} {tip : Hash} {startHeight : UInt64} {e₀ : Engine C}
    (hnew : withRegistry registry meSk mePk tip startHeight = .ok e₀) :
    (∀ log e, Passes anyDrive e₀ (log, e) →
      (e.lockedValue = none ↔ e.lockedRound = none) ∧
      (e.validValue = none ↔ e.validRound = none) ∧
      (∀ r, e.validRound = some r → ∃ v, e.validValue = some v ∧ r ≤ e.round ∧
        e.quorum ≤ e.countPrevotes r (.id v.id) ∧
        v.isValid e.tip e.height e.currentSet = true) ∧
      (∀ l, e.lockedRound = some l → ∃ v r, e.lockedValue = some v ∧ e.validRound = some r ∧
        l ≤ r ∧ e.quorum ≤ e.countPrevotes l (.id v.id))) ∧
    (∀ log e, BootRun anyDrive e₀ log e → ∀ pm vr,
      .effect (.broadcast (.proposal pm)) ∈ log → pm.validRound = some vr →
      Prevoted log pm ∨ e.Left pm ∨ e.Displaced pm) ∧
    (∀ log e, BootRun ownKey e₀ log e → ∀ pm vr,
      .effect (.broadcast (.proposal pm)) ∈ log → pm.validRound = some vr →
      Prevoted log pm ∨ e.Left pm) := by
  have hunset := Unset.of_new hnew
  have hfresh := FreshAt.of_new hnew
  refine ⟨?_, ?_, ?_⟩
  · intro log e h
    have hb : e.Backed := Backed.passes hunset h
    refine ⟨hb.lockedSet, hb.validSet, ?_, ?_⟩
    · intro r hr
      cases hv : e.validValue with
      | none =>
          rw [hb.validSet.mp hv] at hr
          cases hr
      | some v =>
          rcases hb.valid hv hr with ⟨hpolka, hvalid⟩
          exact ⟨v, rfl, hpolka.le, hpolka.quorum, hvalid⟩
    · intro l hl
      cases hv : e.lockedValue with
      | none =>
          rw [hb.lockedSet.mp hv] at hl
          cases hl
      | some v =>
          rcases hb.locked hv hl with ⟨hpolka, r, hr, hle⟩
          exact ⟨v, r, rfl, hr, hle, hpolka.quorum⟩
  · intro log e h pm vr hmem hvr
    exact h.answered hfresh hunset hmem (by simp [hvr])
  · intro log e h pm vr hmem hvr
    have hpass := h.passes
    -- nobody else signs under this key, so nothing displaced the proposal
    have hnot : ¬ e.Displaced pm := (OwnProposals.passes hfresh hpass).not_displaced
      (TimerInv.passes hfresh hpass).toMarked (h.repeats hfresh hunset).1.sound.filed hmem
    rcases h.answered hfresh hunset hmem (by simp [hvr]) with hprevoted | hleft | hdisplaced
    · exact Or.inl hprevoted
    · exact Or.inr hleft
    · exact absurd hdisplaced hnot

/-- Validator 3 of four locks a value in round 0, hears `early`, and enters
round 1, in which it is its turn. -/
def reproposalInput (early : List (Event sample)) : List (Event sample) :=
  [.message (sampleProposal 2 0 none valueA),
    .message (sampleVote 2 0 .prevote (some valueA.id)),
    .message (sampleVote 4 0 .prevote (some valueA.id))] ++ early ++
  [.message (sampleVote 1 0 .precommit none),
    .message (sampleVote 4 0 .precommit none),
    .timeout 1 0 .precommit]

/-- The re-proposal that validator 3 makes there. -/
def reproposedBy3 : ProposalMsg sample :=
  ProposalMsg.create (C := sample) (3 : UInt8) 3 1 1 (some 0) valueA

theorem lock_backed_by_polka_four :
    ∃ e₀ e log, sampleEngine [1, 2, 3, 4] 3 = .ok e₀ ∧ BootRun anyDrive e₀ log e ∧
      .effect (.broadcast (.proposal reproposedBy3)) ∈ log ∧ e.lockedRound = some 0 ∧
      (∃ v r, e.lockedValue = some v ∧ e.validRound = some r ∧ 0 ≤ r ∧
        e.quorum ≤ e.countPrevotes 0 (.id v.id)) ∧
      (Prevoted log reproposedBy3 ∨ e.Left reproposedBy3 ∨ e.Displaced reproposedBy3) := by
  have hholds : (sampleRun [1, 2, 3, 4] 3 (.setTime 5 :: .start :: reproposalInput [])).holds
      (fun r => decide (.effect (.broadcast (.proposal reproposedBy3)) ∈ r.2 ∧
        r.1.lockedRound = some 0)) = true := by
    decide +kernel
  have hevs : ∀ ev ∈ reproposalInput [], ev.plain = true ∧ ∀ log e, anyDrive log e ev := by
    have hplain : ∀ ev ∈ reproposalInput [], ev.plain = true := by decide
    exact fun ev hev => ⟨hplain ev hev, fun _ _ => trivial⟩
  rcases BootRun.of_sampleRun hevs hholds with ⟨e₀, e, log, hnew, hrun, hp⟩
  rw [decide_eq_true_eq] at hp
  rcases lock_backed_by_polka hnew with ⟨hstates, hanswered, _⟩
  exact ⟨e₀, e, log, hnew, hrun, hp.1, hp.2, (hstates log e hrun.passes).2.2.2 0 hp.2,
    hanswered log e hrun _ 0 hp.1 rfl⟩

/-- A proposal that validator 3 signed for round 1 is handed in before it
enters the round: it re-proposes its locked value there, prevotes nil on the
proposal it holds, and stays. -/
theorem reproposal_displaced :
    ¬ ∀ (genesis : List UInt8) (me : UInt8) (e₀ e : Engine sample) (log : List (Output sample)),
      sampleEngine genesis me = .ok e₀ → BootRun anyDrive e₀ log e → ∀ pm vr,
        .effect (.broadcast (.proposal pm)) ∈ log → pm.validRound = some vr →
        Prevoted log pm ∨ e.Left pm := by
  intro hall
  have hholds : (sampleRun [1, 2, 3, 4] 3 (.setTime 5 :: .start ::
      reproposalInput [.message (sampleProposal 3 1 none valueB)])).holds (fun r =>
        decide (.effect (.broadcast (.proposal reproposedBy3)) ∈ r.2 ∧ r.1.height = 1 ∧
          r.1.round = 1 ∧ ∀ vm ∈ votesCast r.2, vm.voteType = .prevote → vm.round = 1 →
            vm.blockId = none)) = true := by
    decide +kernel
  have hevs : ∀ ev ∈ reproposalInput [.message (sampleProposal 3 1 none valueB)],
      ev.plain = true ∧ ∀ log e, anyDrive log e ev := by
    have hplain : ∀ ev ∈ reproposalInput [.message (sampleProposal 3 1 none valueB)],
        ev.plain = true := by decide
    exact fun ev hev => ⟨hplain ev hev, fun _ _ => trivial⟩
  rcases BootRun.of_sampleRun hevs hholds with ⟨e₀, e, log, hnew, hrun, hp⟩
  rw [decide_eq_true_eq] at hp
  rcases hp with ⟨hmem, hheight, hround, hvotes⟩
  rcases hall _ _ e₀ e log hnew hrun reproposedBy3 0 hmem rfl with
    ⟨vm, hcast, _, htype, _, hvround, hid⟩ | hlt | ⟨_, hlt⟩
  · -- its only prevote of round 1 is for nil
    have hnil := hvotes vm (List.mem_filterMap.mpr ⟨_, hcast, rfl⟩) htype hvround
    rw [hnil] at hid
    cases hid
  · rw [hheight] at hlt
    exact absurd hlt (UInt64.lt_irrefl 1)
  · rw [hround] at hlt
    exact absurd hlt (UInt64.lt_irrefl 1)

end SmartLedger
