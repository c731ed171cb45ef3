import SmartLedger.Consensus.Steps

/-! # The loop of `advance` ends

`advance` applies rules until none is enabled. Within a height every rule
uses something up: a step of the round, one of its one-shot guards, or, for a
skip, a later round that has votes (`rank`). A commit starts a height anew,
but only the first one of a call can be of a proposal from outside: from then
on the engine commits what it proposed out of its own pools, and every such
commit takes an entry out of them (`SelfFed`).

So the passes that the model of the loop allows itself are enough:
`advance_quiescent`.
-/

namespace SmartLedger

namespace Engine

variable {C : Crypto} {ord : IterOrder} {e e' : Engine C} {out : List (Effect C)}

/-! ## The rank of a state -/

/-- Entries in both pools. -/
def poolSize (e : Engine C) : Nat := e.mempool.length + e.govMempool.length

/-- The votes still to be cast in a round. -/
def votesLeft : Step → Nat
  | .propose => 2
  | .prevote => 1
  | .precommit => 0

/-- Is the one-shot guard of the current round still unused? -/
def unused (e : Engine C) (guard : Finset UInt64) : Nat := if e.round ∈ guard then 0 else 1

/-- What the rules can still do in the current round. -/
def roundLeft (e : Engine C) : Nat :=
  votesLeft e.step + e.unused e.prevoteTimeoutStarted + e.unused e.polkaApplied +
    e.unused e.precommitTimeoutStarted

def rank (e : Engine C) : Nat := 6 * (e.laterRounds.card + e.poolSize) + e.roundLeft

theorem roundLeft_le (e : Engine C) : e.roundLeft ≤ 5 := by
  have hvotes : votesLeft e.step ≤ 2 := by cases e.step <;> decide
  have hunused : ∀ guard, e.unused guard ≤ 1 := by
    intro guard
    unfold unused
    split <;> omega
  have h₁ := hunused e.prevoteTimeoutStarted
  have h₂ := hunused e.polkaApplied
  have h₃ := hunused e.precommitTimeoutStarted
  unfold roundLeft
  omega

theorem unused_insert (e : Engine C) {guard : Finset UInt64} (hnew : e.round ∉ guard) :
    e.unused (insert e.round guard) + 1 = e.unused guard := by
  unfold unused
  rw [if_pos (Finset.mem_insert_self _ _), if_neg hnew]

/-- Our own vote goes to the current round, so no later round appears. -/
theorem filter_keys_put (s : VoteStore C) (r : UInt64) (id : Hash) (vm : VoteMsg C) :
    (s.put r id vm).keys.filter (fun r' => r < r') = s.keys.filter (fun r' => r < r') := by
  ext r'
  simp only [Finset.mem_filter, VoteStore.put, Finmap.mem_keys, Finmap.mem_insert]
  constructor
  · rintro ⟨rfl | hmem, hlt⟩
    · exact absurd hlt (UInt64.lt_irrefl _)
    · exact ⟨hmem, hlt⟩
  · rintro ⟨hmem, hlt⟩
    exact ⟨Or.inr hmem, hlt⟩

theorem laterRounds_castPrevote (e : Engine C) (id : Option Hash) :
    (e.castPrevote id).laterRounds = e.laterRounds := by
  unfold laterRounds castPrevote
  rw [Finset.filter_union, Finset.filter_union]
  exact congrArg (· ∪ _) (filter_keys_put _ _ _ _)

theorem laterRounds_castPrecommit (e : Engine C) (id : Option Hash) :
    (e.castPrecommit id).laterRounds = e.laterRounds := by
  unfold laterRounds castPrecommit
  rw [Finset.filter_union, Finset.filter_union]
  exact congrArg (_ ∪ ·) (filter_keys_put _ _ _ _)

/-- Entering a later round that has votes uses it up. -/
theorem startRound_laterRounds {r : UInt64} (hr : r ∈ e.laterRounds)
    (h : e.startRound r = .ok (e', out)) : e'.laterRounds.card < e.laterRounds.card := by
  rcases startRound_frame h with ⟨_, _, rfl, _⟩
  have hlt : e.round < r := (Finset.mem_filter.mp hr).2
  apply Finset.card_lt_card
  rw [Finset.ssubset_iff_of_subset]
  · refine ⟨r, hr, ?_⟩
    intro hmem
    exact UInt64.lt_irrefl _ (Finset.mem_filter.mp hmem).2
  · intro r' hmem
    rcases Finset.mem_filter.mp hmem with ⟨hkeys, hlt'⟩
    exact Finset.mem_filter.mpr ⟨hkeys, UInt64.lt_trans hlt hlt'⟩

/-! ## Commits out of our own pools -/

/-- Committing `v` takes something out of the pools. -/
def Fed (e : Engine C) (v : Proposed C) : Prop :=
  (dropSealed v.attestations e.mempool).length + (dropEnacted v.governance e.govMempool).length <
    e.poolSize

/-- Everything stored as a proposal or held as valid takes something out of
the pools. -/
structure SelfFed (e : Engine C) : Prop where
  proposals : ∀ {r pm}, e.proposals.lookup r = some pm → e.Fed pm.value
  valid : ∀ {v}, e.validValue = some v → e.Fed v

theorem fed_getValue (h : e.getValue.attestations ≠ [] ∨ e.getValue.governance ≠ []) :
    e.Fed e.getValue := by
  have hle₁ : (dropSealed e.getValue.attestations e.mempool).length ≤ e.mempool.length :=
    List.length_filter_le _ _
  have hle₂ : (dropEnacted e.getValue.governance e.govMempool).length ≤ e.govMempool.length :=
    List.length_filter_le _ _
  unfold Fed poolSize
  rcases h with hatt | hgov
  · rcases List.exists_mem_of_ne_nil _ hatt with ⟨a, ha⟩
    have hlt : (dropSealed e.getValue.attestations e.mempool).length < e.mempool.length := by
      apply List.length_filter_lt_length_iff_exists.mpr
      refine ⟨a, List.mem_of_mem_take ha, ?_⟩
      simpa using ⟨a, ha, rfl⟩
    omega
  · rcases List.exists_mem_of_ne_nil _ hgov with ⟨g, hg⟩
    have hlt : (dropEnacted e.getValue.governance e.govMempool).length < e.govMempool.length := by
      apply List.length_filter_lt_length_iff_exists.mpr
      refine ⟨g, (List.mem_filter.mp hg).1, ?_⟩
      simpa using ⟨g, hg, rfl⟩
    omega

namespace SelfFed

theorem congr (h : e.SelfFed) (hproposals : e'.proposals = e.proposals)
    (hvalid : e'.validValue = e.validValue) (hmempool : e'.mempool = e.mempool)
    (hgov : e'.govMempool = e.govMempool) : e'.SelfFed := by
  have hfed : ∀ {v}, e.Fed v → e'.Fed v := by
    intro v hv
    unfold Fed poolSize
    rw [hmempool, hgov]
    exact hv
  constructor
  · intro r pm hpm
    rw [hproposals] at hpm
    exact hfed (h.proposals hpm)
  · intro v hv
    rw [hvalid] at hv
    exact hfed (h.valid hv)

/-- A round may bring a proposal of our own: the valid value, or a fresh one
out of the pools. -/
theorem startRound {r : UInt64} (h : e.SelfFed) (hstart : e.startRound r = .ok (e', out)) :
    e'.SelfFed := by
  rcases startRound_frame hstart with ⟨parked, proposals, rfl, hprop⟩
  constructor
  · intro r' pm hpm
    rcases hprop with ⟨rfl, _⟩ | ⟨_, hne, rfl, _⟩
    · exact h.proposals hpm
    · rcases KeyMap.lookup_orInsert_cases hpm with hold | ⟨_, rfl, _⟩
      · exact h.proposals hold
      · show e.Fed e.proposalValue.1
        unfold proposalValue at hne ⊢
        cases hv : e.validValue with
        | some v => exact h.valid hv
        | none =>
            rw [hv] at hne
            exact fed_getValue hne
  · intro v hv
    exact h.valid hv

theorem of_empty (hproposals : e.proposals = ∅) (hvalid : e.validValue = none) : e.SelfFed := by
  constructor
  · intro r pm hpm
    rw [hproposals] at hpm
    simp at hpm
  · intro v hv
    rw [hvalid] at hv
    cases hv

end SelfFed

/-! ## Every rule uses something up -/

/-- What a commit leaves: nothing of the old height, and the pools without
what it sealed. -/
theorem commit_rank {r : UInt64} {v : Proposed C} (h : e.commit ord r v.id v = .ok (e', out)) :
    e'.SelfFed ∧ e'.rank < e.rank + 6 ∧ (e.Fed v → e'.rank < e.rank) := by
  rcases commit_cases h with ⟨height, set, out', _, _, hstart, _⟩
  have hfed : e'.SelfFed := (SelfFed.of_empty rfl rfl).startRound hstart
  -- the stores are empty, so no round is ahead
  have hlater : e'.laterRounds = ∅ := by
    rcases startRound_frame hstart with ⟨_, _, rfl, _⟩
    rfl
  have hpools : e'.poolSize = (dropSealed v.attestations e.mempool).length +
      (dropEnacted v.governance e.govMempool).length := by
    rcases startRound_frame hstart with ⟨_, _, rfl, _⟩
    rfl
  have hle₁ : (dropSealed v.attestations e.mempool).length ≤ e.mempool.length :=
    List.length_filter_le _ _
  have hle₂ : (dropEnacted v.governance e.govMempool).length ≤ e.govMempool.length :=
    List.length_filter_le _ _
  have hround := e'.roundLeft_le
  refine ⟨hfed, ?_, ?_⟩
  · unfold rank poolSize at *
    rw [hlater, Finset.card_empty, hpools]
    omega
  · intro hv
    unfold Fed poolSize at hv
    unfold rank poolSize at *
    rw [hlater, Finset.card_empty, hpools]
    omega

/-- Within a round, it is enough that the round has less left. -/
theorem rank_lt_of_roundLeft (hlater : e'.laterRounds = e.laterRounds)
    (hpools : e'.poolSize = e.poolSize) (hleft : e'.roundLeft < e.roundLeft) :
    e'.rank < e.rank := by
  unfold rank
  rw [hlater, hpools]
  omega

/-- A rule lowers the rank, or is a commit. -/
theorem Fires.rank_lt (h : Fires ord e out e') :
    (e'.rank < e.rank ∧ (e.SelfFed → e'.SelfFed)) ∨
    (e'.SelfFed ∧ e'.rank < e.rank + 6 ∧ (e.SelfFed → e'.rank < e.rank)) := by
  cases h with
  | @prevote id hstep hguard =>
      left
      refine ⟨?_, fun hf => hf.congr rfl rfl rfl rfl⟩
      apply rank_lt_of_roundLeft (laterRounds_castPrevote e id) rfl
      have hafter : (e.castPrevote id).roundLeft = 1 + e.unused e.prevoteTimeoutStarted +
        e.unused e.polkaApplied + e.unused e.precommitTimeoutStarted := rfl
      unfold roundLeft at hafter ⊢
      rw [hafter, hstep]
      -- of the two votes of the round one is left
      have htwo : votesLeft .propose = 2 := rfl
      omega
  | schedulePrevote hstep hnew hquorum =>
      left
      refine ⟨rank_lt_of_roundLeft ?_ ?_ ?_, fun hf => hf.congr rfl rfl rfl rfl⟩
      · rfl
      · rfl
      have hused := e.unused_insert hnew
      show votesLeft e.step + e.unused (insert e.round e.prevoteTimeoutStarted) +
        e.unused e.polkaApplied + e.unused e.precommitTimeoutStarted < e.roundLeft
      unfold roundLeft
      omega
  | @polka pm hstep hnew hpm hpolka hvalid =>
      left
      constructor
      · refine rank_lt_of_roundLeft ?_ ?_ ?_
        · exact laterRounds_castPrecommit (e.lock pm.value) _
        · rfl
        have hused := e.unused_insert hnew
        show 0 + e.unused e.prevoteTimeoutStarted + e.unused (insert e.round e.polkaApplied) +
          e.unused e.precommitTimeoutStarted < e.roundLeft
        unfold roundLeft
        omega
      · intro hf
        refine ⟨fun hpm' => hf.proposals hpm', ?_⟩
        intro v hv
        obtain rfl : pm.value = v := Option.some.inj hv
        exact hf.proposals hpm
  | @latePolka pm hstep hnew hpm hpolka hvalid =>
      left
      constructor
      · refine rank_lt_of_roundLeft ?_ ?_ ?_
        · rfl
        · rfl
        have hused := e.unused_insert hnew
        show votesLeft e.step + e.unused e.prevoteTimeoutStarted +
          e.unused (insert e.round e.polkaApplied) + e.unused e.precommitTimeoutStarted <
            e.roundLeft
        unfold roundLeft
        omega
      · intro hf
        refine ⟨fun hpm' => hf.proposals hpm', ?_⟩
        intro v hv
        obtain rfl : pm.value = v := Option.some.inj hv
        exact hf.proposals hpm
  | precommitNil hstep hquorum =>
      left
      refine ⟨?_, fun hf => hf.congr rfl rfl rfl rfl⟩
      apply rank_lt_of_roundLeft (laterRounds_castPrecommit e none) rfl
      show 0 + e.unused e.prevoteTimeoutStarted + e.unused e.polkaApplied +
        e.unused e.precommitTimeoutStarted < e.roundLeft
      unfold roundLeft
      rw [hstep]
      have hone : votesLeft .prevote = 1 := rfl
      omega
  | schedulePrecommit hnew hquorum =>
      left
      refine ⟨rank_lt_of_roundLeft ?_ ?_ ?_, fun hf => hf.congr rfl rfl rfl rfl⟩
      · rfl
      · rfl
      have hused := e.unused_insert hnew
      show votesLeft e.step + e.unused e.prevoteTimeoutStarted + e.unused e.polkaApplied +
        e.unused (insert e.round e.precommitTimeoutStarted) < e.roundLeft
      unfold roundLeft
      omega
  | skip hr hvoters hstart =>
      left
      refine ⟨?_, fun hf => hf.startRound hstart⟩
      -- the round that is entered is no longer a later one
      have hlater := startRound_laterRounds hr hstart
      have hpools : e'.poolSize = e.poolSize := by
        rcases startRound_frame hstart with ⟨_, _, rfl, _⟩
        rfl
      have hround := e'.roundLeft_le
      unfold rank
      rw [hpools]
      omega
  | commit hpm hquorum hvalid hcommit =>
      right
      rcases commit_rank hcommit with ⟨hfed, hlt, hshrinks⟩
      exact ⟨hfed, hlt, fun hf => hshrinks (hf.proposals hpm)⟩

/-! ## The loop -/

theorem advanceLoop_quiescent {fuel : Nat}
    (hfuel : e.rank + 6 < fuel ∨ e.SelfFed ∧ e.rank < fuel)
    (h : advanceLoop ord fuel e = .ok (e', out)) : e'.applyRule ord = .ok none := by
  induction fuel generalizing e out with
  | zero => omega
  | succ fuel ih =>
      unfold advanceLoop at h
      rw [Exec.bind_eq_ok] at h
      rcases h with ⟨rule, hrule, h⟩
      cases rule with
      | none =>
          rcases Exec.ok_pair h with ⟨rfl, _⟩
          exact hrule
      | some res =>
          rcases res with ⟨e₁, o₁⟩
          dsimp only at h
          rw [Exec.bind_eq_ok] at h
          rcases h with ⟨⟨e₂, o₂⟩, hloop, h⟩
          rcases Exec.ok_pair h with ⟨rfl, _⟩
          refine ih ?_ hloop
          -- the first commit may come from outside and costs one height
          rcases (applyRule_fires hrule).rank_lt with ⟨hlt, hkeeps⟩ | ⟨hfed, hlt, hshrinks⟩
          · rcases hfuel with hany | ⟨hself, hrank⟩
            · exact Or.inl (by omega)
            · exact Or.inr ⟨hkeeps hself, by omega⟩
          · rcases hfuel with hany | ⟨hself, hrank⟩
            · exact Or.inr ⟨hfed, by omega⟩
            · have hless := hshrinks hself
              exact Or.inr ⟨hfed, by omega⟩

/-- `advance` returns in a state in which no rule is enabled. -/
theorem advance_quiescent (h : e.advance ord = .ok (e', out)) : e'.applyRule ord = .ok none := by
  apply advanceLoop_quiescent (Or.inl ?_) h
  have hround := e.roundLeft_le
  unfold rank advanceFuel poolSize
  omega

end Engine

end SmartLedger
