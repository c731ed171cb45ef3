import SmartLedger.Consensus.Boot

/-! # The timer an awake engine is owed

An engine that is awake and waits must have a timer running, or it may wait
forever. The proposer of a round schedules none: it relies on prevoting its own
proposal before the handler returns. `TimerInv` is what makes this work: the
proposal stored for a round of ours is the one we made on entering it, and a
valid value keeps the polka that a re-proposal of it needs. Together with the
rules being exhausted when a handler returns, `awake_engine_has_timer` follows.
-/

namespace SmartLedger

open Engine

variable {C : Crypto} {ord : IterOrder} {e e' : Engine C} {log : List (Output C)}

/-- A timeout the engine asked for. -/
def Scheduled (log : List (Output C)) (h r : UInt64) (kind : TimeoutKind) : Prop :=
  .effect (.scheduleTimeout h r kind) ∈ log

theorem Scheduled.append {h r : UInt64} {kind : TimeoutKind} (hs : Scheduled log h r kind)
    (out : List (Output C)) : Scheduled (log ++ out) h r kind := List.mem_append_left _ hs

/-- Nobody else proposes under our key: a proposal that comes in under it is
for a round in which we proposed. -/
def ownKey (log : List (Output C)) (e : Engine C) (ev : Event C) : Prop :=
  ∀ pm, ev = .message (.proposal pm) → pm.proposer = e.mePk → pm.verifySig = true →
    ∃ pm', .effect (.broadcast (.proposal pm')) ∈ log ∧ pm'.height = pm.height ∧
      pm'.round = pm.round

theorem mark_of_proposal {pm : ProposalMsg C} (h : .effect (.broadcast (.proposal pm)) ∈ log) :
    (pm.height, pm.round, Mark.entered) ∈ marks log :=
  List.mem_filterMap.mpr ⟨_, h, rfl⟩

/-- A vote store only gains votes from messages. -/
theorem VoteStore.count_offer_le (s : VoteStore C) (r r' : UInt64) (k : Hash) (vm : VoteMsg C)
    (want : Match) : s.count r' want ≤ (s.offer r k vm).count r' want := by
  rw [VoteStore.count_eq, VoteStore.count_eq, VoteStore.ofRound_offer]
  split
  · next hr =>
      subst hr
      rw [KeyMap.countValues_eq_card, KeyMap.countValues_eq_card]
      apply Finset.card_le_card
      intro k' hk'
      rcases KeyMap.mem_keysWith.mp hk' with ⟨vm', hvm', hmatch⟩
      exact KeyMap.mem_keysWith.mpr ⟨vm', KeyMap.lookup_orInsert_of_some hvm', hmatch⟩
  · exact le_rfl

/-- The engine holds a polka for its valid value, of a round it has left
behind or voted in. -/
def ValidPolka (e : Engine C) : Prop :=
  ∀ v, e.validValue = some v → ∃ vr, e.validRound = some vr ∧
    (vr < e.round ∨ vr = e.round ∧ e.step ≠ .propose) ∧
    e.quorum ≤ e.countPrevotes vr (.id v.id)

/-- What the timers of an engine rest on. -/
structure TimerInv (log : List (Output C)) (e : Engine C) : Prop extends Marked log e where
  own : ∀ {r pm}, e.proposals.lookup r = some pm → e.proposer r = .ok e.mePk →
    (e.height, r, .entered) ∈ marks log
  polka : ValidPolka e
  prevoteTimers : ∀ r ∈ e.prevoteTimeoutStarted, Scheduled log e.height r .prevote
  precommitTimers : ∀ r ∈ e.precommitTimeoutStarted, Scheduled log e.height r .precommit

namespace TimerInv

/-- A proposal of ours that was not there before comes with its mark. -/
theorem own_insert {out : List (Output C)} {r : UInt64} {proposals : KeyMap UInt64 (ProposalMsg C)}
    (h : ∀ {r pm}, e.proposals.lookup r = some pm → e.proposer r = .ok e.mePk →
      (e.height, r, .entered) ∈ marks log)
    (hprop : proposals = e.proposals ∨ (∃ pm, proposals = KeyMap.orInsert e.proposals r pm) ∧
      (e.height, r, .entered) ∈ marks out) {r' : UInt64} {pm' : ProposalMsg C}
    (hpm : proposals.lookup r' = some pm') (hmine : e.proposer r' = .ok e.mePk) :
    (e.height, r', .entered) ∈ marks (log ++ out) := by
  rw [marks_append]
  rcases hprop with rfl | ⟨⟨pm, rfl⟩, hmark⟩
  · exact List.mem_append_left _ (h hpm hmine)
  · rcases KeyMap.lookup_orInsert_cases hpm with hold | ⟨rfl, _, _⟩
    · exact List.mem_append_left _ (h hold hmine)
    · exact List.mem_append_right _ hmark

theorem startRound_proposals {r : UInt64} {out : List (Effect C)}
    (h : e.startRound r = .ok (e', out)) :
    e'.proposals = e.proposals ∨ (∃ pm, e'.proposals = KeyMap.orInsert e.proposals r pm) ∧
      (e.height, r, .entered) ∈ marks (effects out) := by
  rcases startRound_frame h with ⟨parked, proposals, rfl, ⟨rfl, _⟩ | ⟨_, _, rfl, rfl⟩⟩
  · exact Or.inl rfl
  · exact Or.inr ⟨⟨_, rfl⟩, List.mem_cons_self⟩

/-- Entering round 0 of a fresh height. -/
theorem fresh {out : List (Effect C)} (hfresh : FreshAt e) (hnodup : (marks log).Nodup)
    (hbefore : ∀ {h r m}, (h, r, m) ∈ marks log → h < e.height)
    (h : e.startRound 0 = .ok (e', out)) : TimerInv (log ++ effects out) e' := by
  refine ⟨Marked.fresh hnodup hbefore h, ?_, ?_, ?_, ?_⟩
  · have hsame := (startRound_sameHeight h).1
    intro r pm hpm hmine
    rw [hsame.proposer, hsame.mePk] at hmine
    rw [hsame.height]
    refine own_insert ?_ (startRound_proposals h) hpm hmine
    intro r pm hpm _
    rw [hfresh.proposals] at hpm
    simp at hpm
  -- at a fresh height there is no valid value and no timer yet
  · rcases startRound_frame h with ⟨_, _, rfl, _⟩
    intro v hv
    have hnone : e.validValue = some v := hv
    rw [hfresh.validValue] at hnone
    cases hnone
  · rcases startRound_frame h with ⟨_, _, rfl, _⟩
    intro r hr
    rw [show e.prevoteTimeoutStarted = ∅ from hfresh.prevoteTimers] at hr
    simp at hr
  · rcases startRound_frame h with ⟨_, _, rfl, _⟩
    intro r hr
    rw [show e.precommitTimeoutStarted = ∅ from hfresh.precommitTimers] at hr
    simp at hr

/-- A commit rolls to a fresh height. -/
theorem freshAt_rolled (e : Engine C) (v : Proposed C) (pool : List (SignedValidatorChange C))
    (height : UInt64) (set : ValidatorSet C) :
    FreshAt { e.rolled v pool height set with parked := false } :=
  ⟨rfl, rfl, rfl, rfl, rfl, rfl, rfl, rfl, rfl⟩

theorem commit {r : UInt64} {v : Proposed C} {out : List (Effect C)} (h : TimerInv log e)
    (hcommit : e.commit ord r v.id v = .ok (e', out)) : TimerInv (log ++ effects out) e' := by
  rcases commit_cases hcommit with ⟨height, set, out', hheight, _, hstart, rfl⟩
  have hlater : e.height < height := lt_of_checkedAdd_one hheight
  rw [← startRound_parked _ false] at hstart
  have hlog : log ++ effects (.committed (e.assembleBlock ord r v.id v) :: out') =
      (log ++ [.effect (.committed (e.assembleBlock ord r v.id v))]) ++ effects out' := by
    simp [effects]
  have hsame : marks (log ++ [.effect (.committed (e.assembleBlock ord r v.id v))]) = marks log := by
    rw [marks_append]
    exact List.append_nil _
  rw [hlog]
  refine fresh (freshAt_rolled e v _ height set) (by rw [hsame]; exact h.nodup) ?_ hstart
  intro h' r m hmem
  rw [hsame] at hmem
  exact UInt64.lt_of_le_of_lt (h.height_le hmem) hlater

/-- Everything but the stores of proposals and of timers stays where it is. -/
theorem internal {out : List (Effect C)} (h : TimerInv log e) (hi : Internal ord e out e') :
    TimerInv (log ++ effects out) e' := by
  have hmarked := h.toMarked.internal hi
  -- what holds of the timers when no timer is added
  have hprevote : ∀ r ∈ e.prevoteTimeoutStarted,
      Scheduled (log ++ effects out) e.height r .prevote :=
    fun r hr => (h.prevoteTimers r hr).append _
  have hprecommit : ∀ r ∈ e.precommitTimeoutStarted,
      Scheduled (log ++ effects out) e.height r .precommit :=
    fun r hr => (h.precommitTimers r hr).append _
  have hown : ∀ {r pm}, e.proposals.lookup r = some pm → e.proposer r = .ok e.mePk →
      (e.height, r, .entered) ∈ marks (log ++ effects out) :=
    own_insert (r := 0) h.own (Or.inl rfl)
  cases hi with
  | @prevote id hstep hguard =>
      refine ⟨hmarked, hown, ?_, hprevote, hprecommit⟩
      intro v hv
      rcases h.polka v hv with ⟨vr, hvr, hplace, hcount⟩
      -- the polka is of an earlier round, where our new vote does not go
      have hlt : vr < e.round := hplace.resolve_right fun hr => hr.2 hstep
      have hne : vr ≠ e.round := by
        rintro rfl
        exact UInt64.lt_irrefl _ hlt
      refine ⟨vr, hvr, Or.inl hlt, ?_⟩
      show e.quorum ≤ (e.prevotes.put e.round e.mePk.id _).count vr _
      rw [VoteStore.count_eq, VoteStore.ofRound_put, if_neg hne, ← VoteStore.count_eq]
      exact hcount
  | schedulePrevote hstep hnew hquorum =>
      refine ⟨hmarked, hown, h.polka, ?_, hprecommit⟩
      intro r hr
      rcases Finset.mem_insert.mp hr with rfl | hr
      · exact List.mem_append_right _ List.mem_cons_self
      · exact hprevote r hr
  | @polka pm hstep hnew hpm hpolka hvalid =>
      refine ⟨hmarked, hown, ?_, hprevote, hprecommit⟩
      intro v hv
      obtain rfl : pm.value = v := Option.some.inj hv
      exact ⟨e.round, rfl, Or.inr ⟨rfl, by simp [recordValid, castPrecommit]⟩, hpolka⟩
  | @latePolka pm hstep hnew hpm hpolka hvalid =>
      refine ⟨hmarked, hown, ?_, hprevote, hprecommit⟩
      intro v hv
      obtain rfl : pm.value = v := Option.some.inj hv
      refine ⟨e.round, rfl, Or.inr ⟨rfl, ?_⟩, hpolka⟩
      show e.step ≠ .propose
      rw [hstep]
      exact Step.noConfusion
  | precommitNil hstep =>
      refine ⟨hmarked, hown, ?_, hprevote, hprecommit⟩
      intro v hv
      rcases h.polka v hv with ⟨vr, hvr, hplace, hcount⟩
      exact ⟨vr, hvr, hplace.imp_right fun hr => ⟨hr.1, by simp [castPrecommit]⟩, hcount⟩
  | schedulePrecommit hnew hquorum =>
      refine ⟨hmarked, hown, h.polka, hprevote, ?_⟩
      intro r hr
      rcases Finset.mem_insert.mp hr with rfl | hr
      · exact List.mem_append_right _ List.mem_cons_self
      · exact hprecommit r hr
  | @jump _ r _ hlt hstart =>
      have hprop := startRound_proposals hstart
      rcases startRound_frame hstart with ⟨parked, proposals, rfl, _⟩
      refine ⟨hmarked, own_insert h.own hprop, ?_, hprevote, hprecommit⟩
      intro v hv
      rcases h.polka v hv with ⟨vr, hvr, hplace, hcount⟩
      refine ⟨vr, hvr, Or.inl ?_, hcount⟩
      rcases hplace with hlt' | ⟨rfl, _⟩
      · exact UInt64.lt_trans hlt' hlt
      · exact hlt
  | wake hparked hwake =>
      rcases wake_frame hwake with ⟨proposals, rfl, hout⟩
      refine ⟨hmarked, ?_, h.polka, hprevote, hprecommit⟩
      refine own_insert (r := e.round) h.own ?_
      rcases hout with ⟨rfl, _⟩ | ⟨_, _, rfl, rfl⟩
      · exact Or.inl rfl
      · exact Or.inr ⟨⟨_, rfl⟩, List.mem_cons_self⟩
  | commit _ _ _ hcommit => exact h.commit hcommit

theorem enter {ev : Event C} {out : List (Output C)} (h : TimerInv log e)
    (hplain : ev.plain = true) (hguard : ownKey log e ev) (hent : Enter ev e out e') :
    TimerInv (log ++ out) e' := by
  have hmarked := h.toMarked.enter hplain hent
  -- pools and clock have no part in it
  have hstays : ∀ {e₁ : Engine C} {pool gov now},
      e₁ = { e with mempool := pool, govMempool := gov, now := now } → TimerInv (log ++ []) e₁ := by
    rintro e₁ pool gov now rfl
    rw [List.append_nil]
    exact ⟨⟨h.nodup, h.height_le, fun hmem => by
      have hdone := h.done hmem
      rename_i r m
      cases m <;> exact hdone⟩, h.own, h.polka, h.prevoteTimers, h.precommitTimers⟩
  cases hent with
  | start => cases hplain
  | @message _ _ msg hi =>
      rw [List.append_nil] at hmarked ⊢
      cases ingest_cases hi with
      | ignored => exact h
      | @proposal pm hacc =>
          refine ⟨hmarked, ?_, h.polka, h.prevoteTimers, h.precommitTimers⟩
          intro r pm' hpm' hmine
          have hmine' : e.proposer r = .ok e.mePk := hmine
          rcases KeyMap.lookup_orInsert_cases hpm' with hold | ⟨rfl, rfl, _⟩
          · exact h.own hold hmine'
          · -- it is for a slot of ours, so we signed it
            have hself : pm'.proposer = e.mePk :=
              Except.ok.inj (hacc.2.1.symm.trans hmine')
            rcases hguard pm' rfl hself hacc.2.2 with ⟨pm₀, hsent, hheight, hround⟩
            have hmark := mark_of_proposal hsent
            rw [hheight, hround, hacc.1] at hmark
            exact hmark
      | prevote hacc htype =>
          refine ⟨hmarked, h.own, ?_, h.prevoteTimers, h.precommitTimers⟩
          intro v hv
          rcases h.polka v hv with ⟨vr, hvr, hplace, hcount⟩
          exact ⟨vr, hvr, hplace, hcount.trans (VoteStore.count_offer_le _ _ _ _ _ _)⟩
      | precommit hacc htype => exact ⟨hmarked, h.own, h.polka, h.prevoteTimers, h.precommitTimers⟩
  | timeout => exact hstays rfl
  | attestation => exact hstays rfl
  | governance => exact hstays rfl
  | refused => exact hstays rfl
  | synced => cases hplain
  | rejected => cases hplain
  | resume => cases hplain
  | setTime => exact hstays rfl

theorem passes {e₀ : Engine C} {s : List (Output C) × Engine C} (hfresh : FreshAt e₀)
    (h : Passes ownKey e₀ s) : TimerInv s.1 s.2 := by
  induction h with
  | start h =>
      have hempty : (marks ([] : List (Output C))).Nodup := List.nodup_nil
      refine fresh (hfresh.setTime _) hempty ?_ h
      intro h r m hmem
      cases hmem
  | step _ hstep ih =>
      cases hstep with
      | enter hplain hguard hent => exact ih.enter hplain hguard hent
      | internal hi => exact ih.internal hi
      | catchUp hbs happlies hstart =>
          rw [← List.append_assoc]
          have hmarks := marks_applied (C := C)
          refine fresh (happlies.fresh hbs).1 ?_ ?_ hstart
          · rw [marks_append, hmarks, List.append_nil]
            exact ih.nodup
          · intro h r m hmem
            rw [marks_append, hmarks, List.append_nil] at hmem
            exact UInt64.lt_of_le_of_lt (ih.height_le hmem) (happlies.fresh hbs).2.1

end TimerInv

/-! ## Waiting in the propose step -/

/-- The engine can prevote the proposal of its round at once. -/
def Ready (e : Engine C) : Prop :=
  ∃ pm, e.proposals.lookup e.round = some pm ∧ (pm.validRound = none ∨
    ∃ vr, pm.validRound = some vr ∧ vr < e.round ∧
      e.quorum ≤ e.countPrevotes vr (.id pm.value.id))

theorem not_ready_of_atRest (h : e.AtRest) (hstep : e.step = .propose) : ¬ Ready e := by
  rintro ⟨pm, hpm, hready⟩
  rcases h.noPrevote hstep pm hpm with ⟨vr, hvr, hcount⟩
  rcases hready with hnone | ⟨vr', hvr', hlt, hquorum⟩
  · rw [hnone] at hvr
    cases hvr
  · obtain rfl : vr' = vr := Option.some.inj (hvr'.symm.trans hvr)
    exact absurd (hcount hlt) (not_lt.mpr hquorum)

/-- In the propose step an awake engine has its timer, or need not wait. -/
def Armed (log : List (Output C)) (e : Engine C) : Prop :=
  e.parked = false → e.step = .propose → Scheduled log e.height e.round .propose ∨ Ready e

/-- Entering the propose step of a round with no proposal of ours yet. -/
theorem enterPropose_armed {out : List (Effect C)}
    (hnone : e.proposer e.round = .ok e.mePk → e.proposals.lookup e.round = none)
    (hpolka : ∀ v, e.validValue = some v → ∃ vr, e.validRound = some vr ∧ vr < e.round ∧
      e.quorum ≤ e.countPrevotes vr (.id v.id))
    (h : e.enterPropose e.round = .ok (e', out)) : Armed (log ++ effects out) e' := by
  intro _ _
  rcases enterPropose_cases h with ⟨hmine, _, rfl, rfl⟩ | ⟨rfl, rfl⟩
  · right
    refine ⟨e.ownProposal e.round, ?_, ?_⟩
    · show (KeyMap.orInsert e.proposals e.round _).lookup e.round = _
      rw [KeyMap.lookup_orInsert_self, hnone hmine]
      rfl
    · -- a fresh value has no valid round; the valid value comes with its polka
      unfold ownProposal proposalValue
      cases hv : e.validValue with
      | none => exact Or.inl rfl
      | some v =>
          rcases hpolka v hv with ⟨vr, hvr, hlt, hcount⟩
          exact Or.inr ⟨vr, hvr, hlt, hcount⟩
  · exact Or.inl (List.mem_append_right _ List.mem_cons_self)

namespace TimerInv

/-- No proposal of ours is stored for a round that was not entered. -/
theorem lookup_eq_none (h : TimerInv log e) {r : UInt64} (hnot : ¬ Done e r .entered)
    (hmine : e.proposer r = .ok e.mePk) : e.proposals.lookup r = none := by
  cases hpm : e.proposals.lookup r with
  | none => rfl
  | some pm => exact absurd (h.done (h.own hpm hmine)) hnot

theorem jump_armed {r : UInt64} {out : List (Effect C)} (h : TimerInv log e) (hlt : e.round < r)
    (hstart : e.startRound r = .ok (e', out)) : Armed (log ++ effects out) e' := by
  rcases startRound_cases hstart with ⟨hr, _, _, _, rfl, _⟩ | henter
  · intro hparked
    cases hparked
  · refine enterPropose_armed ?_ ?_ henter
    · intro hmine
      apply h.lookup_eq_none _ hmine
      rintro (hlt' | ⟨rfl, _⟩)
      · exact UInt64.lt_irrefl _ (UInt64.lt_trans hlt hlt')
      · exact UInt64.lt_irrefl _ hlt
    · intro v hv
      rcases h.polka v hv with ⟨vr, hvr, hplace, hcount⟩
      refine ⟨vr, hvr, ?_, hcount⟩
      rcases hplace with hlt' | ⟨rfl, _⟩
      · exact UInt64.lt_trans hlt' hlt
      · exact hlt

theorem fresh_armed {out : List (Effect C)} (hfresh : FreshAt e)
    (hstart : e.startRound 0 = .ok (e', out)) : Armed (log ++ effects out) e' := by
  rcases startRound_cases hstart with ⟨hr, _, _, _, rfl, _⟩ | henter
  · intro hparked
    cases hparked
  · refine enterPropose_armed ?_ ?_ henter
    · intro _
      show e.proposals.lookup 0 = none
      rw [hfresh.proposals]
      simp
    · intro v hv
      have hnone : e.validValue = some v := hv
      rw [hfresh.validValue] at hnone
      cases hnone

theorem wake_armed {out : List (Effect C)} (h : TimerInv log e) (hparked : e.parked = true)
    (hwake : enterPropose { e with parked := false } e.round = .ok (e', out)) :
    Armed (log ++ effects out) e' := by
  by_cases hstep : e.step = .propose
  swap
  · intro _ hpropose
    rcases wake_frame hwake with ⟨_, rfl, _⟩
    exact absurd hpropose hstep
  refine enterPropose_armed (e := { e with parked := false }) ?_ ?_ hwake
  · intro hmine
    apply h.lookup_eq_none _ hmine
    rintro (hlt | ⟨_, hawake⟩)
    · exact UInt64.lt_irrefl _ hlt
    · rw [hparked] at hawake
      cases hawake
  · intro v hv
    rcases h.polka v hv with ⟨vr, hvr, hplace, hcount⟩
    exact ⟨vr, hvr, hplace.resolve_right fun hr => hr.2 hstep, hcount⟩

theorem unpark_armed {out : List (Effect C)} (h : TimerInv log e) (hparked : e.parked = true)
    (hwake : e.unpark = .ok (e', out)) : Armed (log ++ effects out) e' := by
  unfold Engine.unpark at hwake
  rw [if_pos hparked] at hwake
  exact h.wake_armed hparked hwake

end TimerInv

/-- The rules keep an engine armed. -/
theorem Armed.fires {out : List (Effect C)} (h : Armed log e) (hinv : TimerInv log e)
    (hf : Fires ord e out e') : Armed (log ++ effects out) e' := by
  cases hf with
  | prevote =>
      intro _ hstep
      cases hstep
  | schedulePrevote hstep =>
      intro _ hpropose
      have hpropose' : e.step = .propose := hpropose
      rw [hstep] at hpropose'
      cases hpropose'
  | polka =>
      intro _ hstep
      cases hstep
  | latePolka hstep =>
      intro _ hpropose
      have hpropose' : e.step = .propose := hpropose
      rw [hstep] at hpropose'
      cases hpropose'
  | precommitNil =>
      intro _ hstep
      cases hstep
  | schedulePrecommit =>
      intro hparked hstep
      -- still waiting where it waited before
      exact (h hparked hstep).imp_left fun hs => hs.append _
  | skip hr _ hstart => exact hinv.jump_armed (Finset.mem_filter.mp hr).2 hstart
  | @commit _ r pm _ _ _ _ hcommit =>
      rcases commit_cases hcommit with ⟨height, set, out', _, _, hstart, rfl⟩
      rw [← startRound_parked _ false] at hstart
      have harmed : Armed ((log ++ [.effect (.committed
          (e.assembleBlock ord r pm.value.id pm.value))]) ++ effects out') e' :=
        TimerInv.fresh_armed (TimerInv.freshAt_rolled e pm.value _ height set) hstart
      simpa [effects] using harmed

/-! ## Between two handler calls -/

/-- When no rule is enabled, only a timer can be meant. -/
theorem Armed.scheduled (h : Armed log e) (hrest : e.AtRest) (hparked : e.parked = false)
    (hstep : e.step = .propose) : Scheduled log e.height e.round .propose :=
  (h hparked hstep).resolve_right (not_ready_of_atRest hrest hstep)

/-- The engine keeps its timer while it stays where it is. -/
theorem Armed.of_scheduled {out : List (Output C)}
    (h : e.parked = false → e.step = .propose → Scheduled log e.height e.round .propose)
    (hheight : e'.height = e.height) (hround : e'.round = e.round) (hstep : e'.step = e.step)
    (hparked : e'.parked = e.parked) : Armed (log ++ out) e' := by
  intro hawake hpropose
  rw [hparked] at hawake
  rw [hstep] at hpropose
  rw [hheight, hround]
  exact Or.inl ((h hawake hpropose).append out)

theorem TimerInv.internals {out : List (Effect C)} (h : TimerInv log e)
    (hi : Internals ord e out e') : TimerInv (log ++ effects out) e' := by
  induction hi generalizing log with
  | refl e => simpa using h
  | step hi rest ih =>
      rw [effects_append, ← List.append_assoc]
      exact ih (h.internal hi)

/-- What an engine is between two handler calls, and what is left of it while
one of them runs. -/
structure Waits (log : List (Output C)) (e : Engine C) : Prop where
  inv : TimerInv log e
  armed : Armed log e

namespace Waits

theorem fireTimeout {kind : TimeoutKind} {out : List (Effect C)} (h : Waits log e)
    (hrest : e.AtRest) (hfire : e.fireTimeout kind = .ok (e', out)) :
    Armed (log ++ effects out) e' := by
  -- a timer that finds its step over changes nothing
  have hstays : Armed (log ++ effects []) e :=
    Armed.of_scheduled (h.armed.scheduled hrest) rfl rfl rfl rfl
  cases kind with
  | propose =>
      dsimp only [Engine.fireTimeout, emitPrevote] at hfire
      split at hfire
      · rcases Exec.ok_pair hfire with ⟨rfl, rfl⟩
        intro _ hstep
        cases hstep
      · rcases Exec.ok_pair hfire with ⟨rfl, rfl⟩
        exact hstays
  | prevote =>
      dsimp only [Engine.fireTimeout, emitPrecommit] at hfire
      split at hfire
      · rcases Exec.ok_pair hfire with ⟨rfl, rfl⟩
        intro _ hstep
        cases hstep
      · rcases Exec.ok_pair hfire with ⟨rfl, rfl⟩
        exact hstays
  | precommit =>
      dsimp only [Engine.fireTimeout] at hfire
      rw [Exec.bind_eq_ok] at hfire
      rcases hfire with ⟨next, hnext, hstart⟩
      exact h.inv.jump_armed (lt_of_checkedAdd_one hnext) hstart

/-- What any event that is handled on its own does before the rules run. -/
theorem opens {ev : Event C} {out : List (Output C)} {go : Bool} (h : Waits log e)
    (hrest : e.AtRest) (hplain : ev.plain = true) (hguard : ownKey log e ev)
    (ho : e.Opens ev e' out go) : Waits (log ++ out) e' := by
  -- what is taken in first keeps the invariant, the rest are steps
  have hentered : ∀ {e₁ : Engine C}, Enter ev e [] e₁ → TimerInv log e₁ := by
    intro e₁ hent
    simpa using h.inv.enter hplain hguard hent
  have hinv : TimerInv (log ++ out) e' := by
    have hsteps : ∃ e₁ o₁ o₂, Enter ev e o₁ e₁ ∧ Internals sampleOrder e₁ o₂ e' ∧
        out = o₁ ++ effects o₂ := ho.steps
    rcases hsteps with ⟨e₁, o₁, o₂, hent, hints, rfl⟩
    rw [← List.append_assoc]
    exact (h.inv.enter hplain hguard hent).internals hints
  refine ⟨hinv, ?_⟩
  have hsched := h.armed.scheduled hrest
  cases ho with
  | round hev => rcases hev with rfl | rfl <;> cases hplain
  | @message msg e₁ _ out hingest hwake =>
      have hinv₁ := hentered (Enter.message hingest)
      rcases ingest_frame hingest with ⟨_, _, _, rfl⟩
      unfold wakeFor at hwake
      split at hwake
      · next hcond =>
          rw [Bool.and_eq_true, Bool.and_eq_true] at hcond
          exact hinv₁.unpark_armed hcond.1.1 hwake
      · rcases Exec.ok_pair hwake with ⟨rfl, rfl⟩
        exact Armed.of_scheduled hsched rfl rfl rfl rfl
  | timer hfire => exact h.fireTimeout hrest hfire
  | lateTimer => exact Armed.of_scheduled hsched rfl rfl rfl rfl
  | woken hqueues hparked hunpark => exact (hentered hqueues.enter).unpark_armed hparked hunpark
  | queued => exact Armed.of_scheduled hsched rfl rfl rfl rfl
  | refused => exact Armed.of_scheduled hsched rfl rfl rfl rfl
  | synced => cases hplain
  | setTime now => exact Armed.of_scheduled hsched rfl rfl rfl rfl

theorem fires {out : List (Effect C)} (h : Waits log e) (hf : Fires ord e out e') :
    Waits (log ++ effects out) e' :=
  ⟨h.inv.internal hf.internal, h.armed.fires h.inv hf⟩

/-- Starting, and resuming after a catch-up. -/
theorem fresh {out : List (Output C)} {ev : Event C} (hev : ev = .start ∨ ev = .resume)
    (hfresh : FreshAt e) (hnodup : (marks log).Nodup)
    (hbefore : ∀ {h r m}, (h, r, m) ∈ marks log → h < e.height)
    (h : e.handle ord ev = .ok (e', out)) : Waits (log ++ out) e' := by
  refine handle_entry_induction (P := fun o e => Waits (log ++ o) e) h ?_ ?_
  · intro o e₁ go ho
    cases ho with
    | round _ hstart =>
        exact ⟨TimerInv.fresh hfresh hnodup hbefore hstart, TimerInv.fresh_armed hfresh hstart⟩
    | message => rcases hev with hev | hev <;> cases hev
    | timer => rcases hev with hev | hev <;> cases hev
    | lateTimer => rcases hev with hev | hev <;> cases hev
    | woken hqueues => rcases hev with rfl | rfl <;> cases hqueues
    | queued hqueues => rcases hev with rfl | rfl <;> cases hqueues
    | refused hev' => rcases hev with rfl | rfl <;> simp at hev'
    | synced => rcases hev with hev | hev <;> cases hev
    | setTime => rcases hev with hev | hev <;> cases hev
  · intro o e₁ o' e₂ hw hf
    rw [← List.append_assoc]
    exact hw.fires hf

theorem handle {ev : Event C} {out : List (Output C)} (h : Waits log e) (hrest : e.AtRest)
    (hplain : ev.plain = true) (hguard : ownKey log e ev)
    (hstep : e.handle ord ev = .ok (e', out)) : Waits (log ++ out) e' := by
  refine handle_entry_induction (P := fun o e => Waits (log ++ o) e) hstep ?_ ?_
  · intro o e₁ go ho
    exact h.opens hrest hplain hguard ho
  · intro o e₁ o' e₂ hw hf
    rw [← List.append_assoc]
    exact hw.fires hf

end Waits

theorem FreshAt.atRest (h : FreshAt e) : e.AtRest :=
  AtRest.of_empty h.proposals h.prevotes h.precommits

/-- Every handler returns with the engine at rest and armed. -/
theorem BootRun.waits {e₀ : Engine C} (hfresh : FreshAt e₀) (h : BootRun ownKey e₀ log e) :
    Waits log e ∧ e.AtRest := by
  induction h with
  | start h =>
      have hempty : (marks ([] : List (Output C))).Nodup := List.nodup_nil
      constructor
      · refine Waits.fresh (Or.inl rfl) (hfresh.setTime _) hempty ?_ h
        intro h r m hmem
        cases hmem
      · exact (hfresh.setTime _).atRest.handle h
  | step _ hstep ih =>
      rcases ih with ⟨hwaits, hrest⟩
      cases hstep with
      | event hplain hguard h =>
          exact ⟨hwaits.handle hrest hplain hguard h, hrest.handle h⟩
      | catchUp hbs happlies h =>
          -- the blocks take it to a height that it has no marks of
          have hat := happlies.fresh hbs
          have hmarks := marks_applied (C := C)
          constructor
          · rw [← List.append_assoc]
            refine Waits.fresh (Or.inr rfl) hat.1 ?_ ?_ h
            · rw [marks_append, hmarks, List.append_nil]
              exact hwaits.inv.nodup
            · intro h r m hmem
              rw [marks_append, hmarks, List.append_nil] at hmem
              exact UInt64.lt_of_le_of_lt (hwaits.inv.height_le hmem) hat.2.1
          · exact hat.1.atRest.handle h

/-- The timeouts an engine asked for, in order. -/
def timeoutsScheduled (log : List (Output C)) : List (UInt64 × UInt64 × TimeoutKind) :=
  log.filterMap fun
    | .effect (.scheduleTimeout h r kind) => some (h, r, kind)
    | _ => none

theorem Marked.timeouts_nodup (h : Marked log e) : (timeoutsScheduled log).Nodup := by
  have hmap : ((timeoutsScheduled log).map fun t => (t.1, t.2.1, t.2.2.mark)).Nodup := by
    apply nodup_map_of_marks _ h.nodup
    intro x t hx
    split at hx
    · obtain rfl := Option.some.inj hx
      rfl
    · cases hx
  exact hmap.of_map _

/-- An awake engine is never left without a timer. However a node drives its
engine, while nobody else uses its key, after every handler: in the propose
step of a round its propose timeout was scheduled; in the prevote step, with
a quorum of prevotes of any kind, its prevote timeout; with a quorum of
precommits of any kind, its precommit timeout. And no timeout is scheduled
twice. -/
theorem awake_engine_has_timer {registry : ValidatorRegistry C} {meSk : C.SigningKey}
    {mePk : C.VerifyingKey} {tip : Hash} {startHeight : UInt64} {e₀ e : Engine C}
    {log : List (Output C)} (hnew : withRegistry registry meSk mePk tip startHeight = .ok e₀)
    (h : BootRun ownKey e₀ log e) :
    (e.parked = false →
      (e.step = .propose → Scheduled log e.height e.round .propose) ∧
      (e.step = .prevote → e.quorum ≤ e.countPrevotes e.round .any →
        Scheduled log e.height e.round .prevote) ∧
      (e.quorum ≤ e.countPrecommits e.round .any → Scheduled log e.height e.round .precommit)) ∧
    (timeoutsScheduled log).Nodup := by
  rcases h.waits (FreshAt.of_new hnew) with ⟨hwaits, hrest⟩
  refine ⟨?_, hwaits.inv.timeouts_nodup⟩
  intro hparked
  refine ⟨hwaits.armed.scheduled hrest hparked, ?_, ?_⟩
  · intro hstep hquorum
    exact hwaits.inv.prevoteTimers _ (hrest.prevoteTimeout hstep hquorum)
  · intro hquorum
    exact hwaits.inv.precommitTimers _ (hrest.precommitTimeout hquorum)

/-- One of four validators, not the proposer, is woken by an attestation. -/
theorem awake_engine_has_timer_woken :
    ∃ e₀ e log, sampleEngine [1, 2, 3, 4] 1 = .ok e₀ ∧ BootRun ownKey e₀ log e ∧
      e.parked = false ∧ e.step = .propose ∧ Scheduled log e.height e.round .propose := by
  have hholds : (sampleRun [1, 2, 3, 4] 1
      (.setTime 5 :: .start :: [.attestation (sampleAttestation 1 7)])).holds (fun r =>
        decide (r.1.parked = false ∧ r.1.step = .propose)) = true := by
    decide +kernel
  have hevs : ∀ ev ∈ [Event.attestation (sampleAttestation 1 7)], ev.plain = true ∧
      ∀ log e, ownKey log e ev := by
    intro ev hev
    rw [List.mem_singleton.mp hev]
    refine ⟨rfl, ?_⟩
    intro log e pm hpm
    cases hpm
  rcases BootRun.of_sampleRun hevs hholds with ⟨e₀, e, log, hnew, hrun, hp⟩
  rw [decide_eq_true_eq] at hp
  exact ⟨e₀, e, log, hnew, hrun, hp.1, hp.2, ((awake_engine_has_timer hnew hrun).1 hp.1).1 hp.2⟩

end SmartLedger
