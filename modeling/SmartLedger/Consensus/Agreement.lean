import SmartLedger.Consensus.Network

/-! # Agreement, and what a precommit signature leaves open

A precommit for a block signs the bare block id: it is a certificate share,
and neither its height nor its round is under the signature. So a share that
an honest member gave in one round can be handed to others as its precommit
for the same block in any other round. They file it under the round it
claims, count it in the commit rule there, and let it move them to that
round.

With shares handed over only for the round they were given in
(`Setting.Unaltered`), the precommits behind a commit are real and agreement
holds (`agreement`). Without that it fails with one Byzantine member out of
four (`relabelled_precommits_fork`): after a lock moved from one value to
another, the owner's share for the first completes a quorum in a later round,
and its share for the second completes another one.
-/

namespace SmartLedger

open Engine

variable {C : Crypto}

/-- The votes an engine cast. -/
def castVotes (log : List (Output C)) : List (VoteMsg C) :=
  log.filterMap fun o => match o with
    | .effect (.broadcast (.vote vm)) => some vm
    | _ => none

theorem mem_castVotes {log : List (Output C)} {vm : VoteMsg C} :
    vm ∈ castVotes log ↔ Cast log vm := by
  unfold castVotes Cast
  rw [List.mem_filterMap]
  constructor
  · rintro ⟨o, ho, heq⟩
    split at heq
    · obtain rfl := Option.some.inj heq
      exact ho
    · cases heq
  · intro h
    exact ⟨_, h, rfl⟩

namespace Setting

variable (S : Setting C)

/-- A precommit for a block at this height, verifying under the key of an
honest member, is handed over only with the round that the member gave it
in. -/
def Unaltered (net : Net C) : Event C → Prop
  | .message (.vote vm) => vm.height = S.height → vm.voteType = .precommit →
      vm.blockId.isSome = true → vm.verifySig = true → S.Honest vm.voter →
      ∃ vm' ∈ castVotes (net vm.voter).log, vm'.height = vm.height ∧ vm'.round = vm.round ∧
        vm'.voteType = .precommit ∧ vm'.blockId = vm.blockId
  | _ => True

instance (net : Net C) : (ev : Event C) → Decidable (S.Unaltered net ev)
  | .message (.vote vm) => inferInstanceAs (Decidable (vm.height = S.height →
      vm.voteType = .precommit → vm.blockId.isSome = true → vm.verifySig = true →
      S.Honest vm.voter → ∃ vm' ∈ castVotes (net vm.voter).log, vm'.height = vm.height ∧
        vm'.round = vm.round ∧ vm'.voteType = .precommit ∧ vm'.blockId = vm.blockId))
  | .message (.proposal _) | .start | .timeout _ _ _ | .attestation _ | .governance _
  | .synced _ | .resume | .setTime _ => inferInstanceAs (Decidable True)

variable {S}

theorem Unaltered.mono {guard : Net C → Event C → Prop} {net net' : Net C} {ev : Event C}
    (h : S.Unaltered net ev) (hstep : NetStep S guard net net') : S.Unaltered net' ev := by
  cases ev with
  | message msg =>
      cases msg with
      | proposal pm => trivial
      | vote vm =>
          intro hheight htype hid hver hhonest
          rcases h hheight htype hid hver hhonest with ⟨vm', hmem, hsame⟩
          refine ⟨vm', ?_, hsame⟩
          exact mem_castVotes.mpr ((hstep.grows _).2 (mem_castVotes.mp hmem))
  | _ => trivial

end Setting

variable {S : Setting C} {net₀ net : Net C}

/-- A precommit of an honest member that some honest engine goes by was cast
in its round. -/
theorem precommit_genuine (h₀ : S.Initial net₀) (hrun : NetRun S S.Unaltered net₀ net)
    {k : C.VerifyingKey} (hk : S.Honest k) {vm : VoteMsg C} {v : Hash}
    (hknown : Known (net k).evs (net k).log S.set vm) (hheight : vm.height = S.height)
    (htype : vm.voteType = .precommit) (hid : vm.blockId = some v) (hvoter : S.Honest vm.voter) :
    S.Voted net .precommit vm.voter vm.round.toNat v := by
  rcases hknown with ⟨hmem, _, hver⟩ | hcast
  · have hunaltered : S.Unaltered net (.message (.vote vm)) :=
      NetRun.delivered (fun _ hguard => hguard) (fun hstep h => h.mono hstep) h₀ hrun hk hmem
    have hsome : vm.blockId.isSome = true := by
      rw [hid]
      rfl
    rcases hunaltered hheight htype hsome hver hvoter with ⟨vm', hmem', hh', hr', ht', hb'⟩
    exact ⟨vm', mem_castVotes.mp hmem', hh'.trans hheight, ht', congrArg UInt64.toNat hr',
      hb'.trans hid⟩
  · rw [(NetInv.run h₀ hrun).voter_eq hk hcast]
    exact ⟨vm, hcast, hheight, htype, rfl, hid⟩

/-- Behind a block that an honest member commits at this height is a quorum
of members that precommitted it, in one round. -/
theorem quorumOf_committed (h₀ : S.Initial net₀) (hrun : NetRun S S.Unaltered net₀ net)
    {k : C.VerifyingKey} (hk : S.Honest k) {b : Block C}
    (hb : .effect (.committed b) ∈ (net k).log) (hheight : b.header.height = S.height) :
    ∃ r, S.roster.QuorumOf (S.Voted net .precommit · r (b.header.id C)) := by
  have hinv := NetInv.run h₀ hrun
  rcases hinv.traces hk with ⟨e₀, hentered, htrace⟩
  rcases Decided.trace hentered.fresh htrace b hb with ⟨_, set, r, hset, htally⟩
  rw [hheight, hinv.activeSet_eq hk] at hset
  obtain rfl := Except.ok.inj hset
  rw [hheight] at htally
  refine ⟨r.toNat, Setting.quorumOf_tally htally ?_ ?_⟩
  · intro vm hknown
    exact hinv.known_member hk hknown
  · intro vm hknown hvh hvt hvid hvoter
    exact precommit_genuine h₀ hrun hk hknown hvh hvt hvid hvoter

/-- Agreement. In every run in which precommit shares of honest members are
handed over only for the round they were given in, any two blocks that honest
members commit at this height have the same id. -/
theorem agreement (S : Setting C) {net₀ net : Net C} (h₀ : S.Initial net₀)
    (hrun : NetRun S S.Unaltered net₀ net) {k₁ k₂ : C.VerifyingKey} (hk₁ : S.Honest k₁)
    (hk₂ : S.Honest k₂) {b₁ b₂ : Block C} (hb₁ : .effect (.committed b₁) ∈ (net k₁).log)
    (hb₂ : .effect (.committed b₂) ∈ (net k₂).log) (hh₁ : b₁.header.height = S.height)
    (hh₂ : b₂.header.height = S.height) : b₁.header.id C = b₂.header.id C := by
  rcases quorumOf_committed h₀ hrun hk₁ hb₁ hh₁ with ⟨r₁, hq₁⟩
  rcases quorumOf_committed h₀ hrun hk₂ hb₂ hh₂ with ⟨r₂, hq₂⟩
  exact (NetInv.run h₀ hrun).discipline.decisions_agree hq₁ hq₂

/-- The blocks an engine committed itself. -/
def committedBlocks (log : List (Output C)) : List (Block C) :=
  log.filterMap fun o => match o with
    | .effect (.committed b) => some b
    | _ => none

theorem mem_committedBlocks {log : List (Output C)} {b : Block C}
    (h : b ∈ committedBlocks log) : .effect (.committed b) ∈ log := by
  rcases List.mem_filterMap.mp h with ⟨o, ho, heq⟩
  split at heq
  · obtain rfl := Option.some.inj heq
    exact ho
  · cases heq

/-- The precommits of round 0 reach members 2 and 3. -/
def commitSchedule : List (sample.VerifyingKey × Event sample) :=
  lockSchedule ++
  [(2, .message (sampleVote 3 0 .precommit (some valueA.id))),
    (2, .message (sampleVote 4 0 .precommit (some valueA.id))),
    (3, .message (sampleVote 2 0 .precommit (some valueA.id))),
    (3, .message (sampleVote 4 0 .precommit (some valueA.id)))]

/-- Two of four members commit, with the help of the Byzantine one. -/
theorem agreement_four :
    ∃ (net : Net sample) (b₁ b₂ : Block sample),
      NetRun sampleSetting sampleSetting.Unaltered sampleNet net ∧
      .effect (.committed b₁) ∈ (net 2).log ∧ .effect (.committed b₂) ∈ (net 3).log ∧
      b₁.header.id sample = b₂.header.id sample := by
  have hplays : (sampleSetting.play sampleSetting.Unaltered sampleOrder sampleNet
      commitSchedule).any (fun net => decide (∃ b₁ ∈ committedBlocks (net 2).log,
        ∃ b₂ ∈ committedBlocks (net 3).log, b₁.header.height = 1 ∧ b₂.header.height = 1)) =
      true := by decide +kernel
  rcases (Option.any_eq_true _ _).mp hplays with ⟨net, hplay, hnet⟩
  rcases of_decide_eq_true hnet with ⟨b₁, hb₁, b₂, hb₂, hh₁, hh₂⟩
  have hrun := NetRun.of_play hplay
  have hc₁ := mem_committedBlocks hb₁
  have hc₂ := mem_committedBlocks hb₂
  have hsame := agreement sampleSetting sampleNet_initial hrun
    (show sampleSetting.Honest 2 by decide) (show sampleSetting.Honest 3 by decide) hc₁ hc₂ hh₁ hh₂
  exact ⟨net, b₁, b₂, hrun, hc₁, hc₂, hsame⟩

/-- Member 2 proposes `valueA` in round 0 and precommits it on the prevotes
of 2, 3 and 4. Its share, relabelled, brings member 3 to round 1, where
`valueB` gets the prevotes of 3, 1 and 4 and takes the lock of member 2. The
old share, relabelled for round 2, lets member 3 commit `valueA` there; the
new one, relabelled for round 3, lets member 1 commit `valueB`. -/
def forkSchedule : List (sample.VerifyingKey × Event sample) :=
  [(1, .start), (2, .start), (3, .start), (2, .attestation (sampleAttestation 1 7)),
    (1, .attestation (sampleAttestation 1 8)), (3, .attestation (sampleAttestation 1 8)),
    -- round 0: member 2 locks the first value
    (3, .message (sampleProposal 2 0 none valueA)),
    (2, .message (sampleVote 3 0 .prevote (some valueA.id))),
    (2, .message (sampleVote 4 0 .prevote (some valueA.id))),
    -- round 1: the others prevote the second value, and the lock moves
    (3, .message (sampleVote 2 1 .precommit (some valueA.id))),
    (3, .message (sampleVote 4 1 .precommit none)),
    (1, .message (sampleVote 3 1 .prevote (some valueB.id))),
    (1, .message (sampleVote 4 1 .precommit none)),
    (1, .message (sampleProposal 3 1 none valueB)),
    (2, .message (sampleVote 3 1 .prevote (some valueB.id))),
    (2, .message (sampleVote 1 1 .prevote (some valueB.id))),
    (2, .message (sampleProposal 3 1 none valueB)),
    (2, .message (sampleVote 4 1 .prevote (some valueB.id))),
    -- round 2: member 3 commits the first value
    (3, .message (sampleVote 2 2 .precommit (some valueA.id))),
    (3, .message (sampleVote 4 2 .precommit (some valueA.id))),
    (3, .message (sampleProposal 4 2 none valueA)),
    (1, .message (sampleVote 2 2 .precommit (some valueA.id))),
    (1, .message (sampleVote 4 2 .precommit none)),
    (1, .message (sampleProposal 4 2 none valueA)),
    (3, .message (sampleVote 1 2 .prevote (some valueA.id))),
    (3, .message (sampleVote 4 2 .prevote (some valueA.id))),
    -- round 3: member 1 commits the second value
    (1, .message (sampleVote 2 3 .precommit (some valueB.id))),
    (1, .message (sampleVote 4 3 .precommit (some valueB.id))),
    (2, .message (sampleVote 1 3 .prevote (some valueB.id))),
    (2, .message (sampleVote 4 3 .prevote (some valueB.id))),
    (2, .message (sampleProposal 1 3 none valueB)),
    (1, .message (sampleVote 2 3 .prevote (some valueB.id))),
    (1, .message (sampleVote 4 3 .prevote (some valueB.id)))]

/-- With one Byzantine member out of four and no forged signature, two honest
members commit different blocks. -/
theorem relabelled_precommits_fork :
    ¬ ∀ (S : Setting sample) (net₀ net : Net sample), S.Initial net₀ →
      NetRun S anyDelivery net₀ net → ∀ k₁ k₂ b₁ b₂, S.Honest k₁ → S.Honest k₂ →
        .effect (.committed b₁) ∈ (net k₁).log → .effect (.committed b₂) ∈ (net k₂).log →
        b₁.header.height = S.height → b₂.header.height = S.height →
        b₁.header.id sample = b₂.header.id sample := by
  intro hall
  have hplays : (sampleSetting.play anyDelivery sampleOrder sampleNet forkSchedule).any
      (fun net => decide (∃ b₁ ∈ committedBlocks (net 3).log,
        ∃ b₂ ∈ committedBlocks (net 1).log, b₁.header.height = 1 ∧ b₂.header.height = 1 ∧
          b₁.header.id sample ≠ b₂.header.id sample)) = true := by decide +kernel
  rcases (Option.any_eq_true _ _).mp hplays with ⟨net, hplay, hnet⟩
  rcases of_decide_eq_true hnet with ⟨b₁, hb₁, b₂, hb₂, hh₁, hh₂, hne⟩
  have hsame := hall sampleSetting sampleNet net sampleNet_initial (NetRun.of_play hplay) 3 1 b₁ b₂
    (by decide) (by decide) (mem_committedBlocks hb₁) (mem_committedBlocks hb₂) hh₁ hh₂
  exact hne hsame

end SmartLedger
