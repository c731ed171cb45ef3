import SmartLedger.Consensus.Agreement
import SmartLedger.Consensus.Boot
import SmartLedger.Consensus.World

/-! # What makes an engine skip rounds

More than `f` voters in a later round make an engine jump there. One of them
is honest, so an honest member should have voted in that round. It has, if its
vote was signed with the round: prevotes and nil votes are. A precommit for a
block is not, and a share given in round 0 can be handed over as one for any
round. `Ahead` is what the votes of later rounds in a store stand for, as long
as shares come as they were given (`asGiven`); `skips_follow_honest_votes` is
the result, and `relabelled_share_skips` what happens without.
-/

namespace SmartLedger

open Engine

variable {C : Crypto} {ord : IterOrder} {e e' : Engine C} {honest : Finset C.VerifyingKey}
  {w w' w₀ : World C} {genesis : List C.VerifyingKey}

/-- An honest member of the set created a vote in round `r` of the height. -/
def HonestVote (honest : Finset C.VerifyingKey) (w : World C) (set : ValidatorSet C)
    (h r : UInt64) : Prop :=
  ∃ j ∈ honest, j ∈ set.members ∧ ∃ vm, Cast (w j).log vm ∧ vm.height = h ∧ vm.round = r

theorem HonestVote.mono {set : ValidatorSet C} {h r : UInt64} (hv : HonestVote honest w set h r)
    (hlater : ∀ j, (w j).Later (w' j)) : HonestVote honest w' set h r := by
  rcases hv with ⟨j, hj, hmem, vm, hcast, hplace⟩
  exact ⟨j, hj, hmem, vm, (hlater j).log_eq.subset hcast, hplace⟩

/-- A precommit for a block, at the height of the engine it is handed to and
verifying under an honest key, is one that its owner gave in that round. -/
def asGiven (honest : Finset C.VerifyingKey) (w : World C) (k : C.VerifyingKey) (_ : UInt64) :
    Event C → Prop
  | .message (.vote vm) => vm.height = (w k).engine.height → vm.voteType = .precommit →
      vm.blockId.isSome = true → vm.verifySig = true → vm.voter ∈ honest →
      ∃ vm' ∈ castVotes (w vm.voter).log, vm'.height = vm.height ∧ vm'.round = vm.round
  | _ => True

instance (w : World C) (k : C.VerifyingKey) (t : UInt64) :
    (ev : Event C) → Decidable (asGiven honest w k t ev)
  | .message (.vote vm) => inferInstanceAs (Decidable (vm.height = (w k).engine.height →
      vm.voteType = .precommit → vm.blockId.isSome = true → vm.verifySig = true →
      vm.voter ∈ honest →
      ∃ vm' ∈ castVotes (w vm.voter).log, vm'.height = vm.height ∧ vm'.round = vm.round))
  | .message (.proposal _) | .start | .timeout _ _ _ | .attestation _ | .governance _
  | .synced _ | .resume | .setTime _ => inferInstanceAs (Decidable True)

/-- A vote that is stored for a round. -/
def Engine.Stored (e : Engine C) (r : UInt64) (id : Hash) (vm : VoteMsg C) : Prop :=
  (e.prevotes.ofRound r).lookup id = some vm ∨ (e.precommits.ofRound r).lookup id = some vm

/-- Votes stored for later rounds come from members, and an honest one of
them means that an honest member voted there. -/
structure Ahead (honest : Finset C.VerifyingKey) (w : World C) (e : Engine C) : Prop where
  roster : e.validatorsSorted.length = e.currentSet.validators.length
  voter : ∀ {r id vm}, e.round < r → e.Stored r id vm →
    vm.voter.id = id ∧ vm.voter ∈ e.currentSet.members
  genuine : ∀ {r id vm}, e.round < r → e.Stored r id vm → vm.voter ∈ honest →
    HonestVote honest w e.currentSet e.height r

namespace Ahead

theorem mono (h : Ahead honest w e) (hlater : ∀ j, (w j).Later (w' j)) : Ahead honest w' e :=
  ⟨h.roster, h.voter, fun hlt hs hin => (h.genuine hlt hs hin).mono hlater⟩

/-- With nothing stored. -/
theorem of_empty (hroster : e.validatorsSorted.length = e.currentSet.validators.length)
    (hprevotes : e.prevotes = ∅) (hprecommits : e.precommits = ∅) : Ahead honest w e := by
  have hnone : ∀ {r id vm}, ¬ e.Stored r id vm := by
    rintro r id vm (hs | hs)
    · rw [hprevotes] at hs
      simp [VoteStore.ofRound] at hs
    · rw [hprecommits] at hs
      simp [VoteStore.ofRound] at hs
  exact ⟨hroster, fun _ hs => absurd hs hnone, fun _ hs => absurd hs hnone⟩

/-- Nothing new for later rounds. -/
theorem of_le (h : Ahead honest w e) (hsame : SameHeight e e') (hround : e.round ≤ e'.round)
    (hstored : ∀ {r id vm}, e'.round < r → e'.Stored r id vm → e.Stored r id vm) :
    Ahead honest w e' := by
  refine ⟨?_, ?_, ?_⟩
  · rw [hsame.validatorsSorted, hsame.currentSet]
    exact h.roster
  · intro r id vm hlt hs
    rw [hsame.currentSet]
    exact h.voter (UInt64.lt_of_le_of_lt hround hlt) (hstored hlt hs)
  · intro r id vm hlt hs hin
    rw [hsame.currentSet, hsame.height]
    exact h.genuine (UInt64.lt_of_le_of_lt hround hlt) (hstored hlt hs) hin

theorem internal {out : List (Effect C)} (h : Ahead honest w e) (hi : Internal ord e out e') :
    Ahead honest w e' := by
  -- our own votes are for the round we are in
  have hput : ∀ {s : VoteStore C} {r id k vm vm'}, e.round < r →
      ((s.put e.round k vm').ofRound r).lookup id = some vm → (s.ofRound r).lookup id = some vm := by
    intro s r id k vm vm' hlt hs
    rwa [VoteStore.ofRound_put, if_neg (fun heq => UInt64.lt_irrefl _ (heq ▸ hlt))] at hs
  cases hi with
  | prevote =>
      refine h.of_le rfl (UInt64.le_refl _) ?_
      intro r id vm hlt hs
      exact hs.imp_left (hput hlt)
  | schedulePrevote => exact h.of_le rfl (UInt64.le_refl _) fun _ hs => hs
  | polka =>
      refine h.of_le rfl (UInt64.le_refl _) ?_
      intro r id vm hlt hs
      exact hs.imp_right (hput hlt)
  | latePolka => exact h.of_le rfl (UInt64.le_refl _) fun _ hs => hs
  | precommitNil =>
      refine h.of_le rfl (UInt64.le_refl _) ?_
      intro r id vm hlt hs
      exact hs.imp_right (hput hlt)
  | schedulePrecommit => exact h.of_le rfl (UInt64.le_refl _) fun _ hs => hs
  | jump hlt hstart =>
      have hsame := (startRound_sameHeight hstart).1
      rcases startRound_frame hstart with ⟨_, _, rfl, _⟩
      exact h.of_le hsame (UInt64.le_of_lt hlt) fun _ hs => hs
  | wake _ hwake =>
      rcases wake_frame hwake with ⟨_, rfl, _⟩
      exact h.of_le rfl (UInt64.le_refl _) fun _ hs => hs
  | commit _ _ _ hcommit =>
      rcases commit_cases hcommit with ⟨height, set, out', _, _, hstart, _⟩
      rcases startRound_frame hstart with ⟨_, _, rfl, _⟩
      refine of_empty ?_ rfl rfl
      exact length_sortById set.validators

theorem internals {out : List (Effect C)} (h : Ahead honest w e) (hi : Internals ord e out e') :
    Ahead honest w e' := by
  induction hi with
  | refl e => exact h
  | step hi _ ih => exact ih (h.internal hi)

/-- A vote that is taken in. The signed bytes of a prevote or a nil vote name
its height and round; those of a precommit for a block do not. -/
theorem ingest_vote {k : C.VerifyingKey} {t : UInt64} {vm : VoteMsg C} (hacc : e.AcceptsVote vm)
    (hheight : e.height = (w k).engine.height)
    (hgenuine : Genuine honest w (.message (.vote vm)))
    (hguard : asGiven honest w k t (.message (.vote vm))) (hin : vm.voter ∈ honest) :
    HonestVote honest w e.currentSet e.height vm.round := by
  have hmember : vm.voter ∈ e.currentSet.members := (ValidatorSet.mem_members _ _).mpr hacc.2.1
  by_cases hshare : vm.voteType = .precommit ∧ vm.blockId.isSome = true
  · rcases hguard (hacc.1.trans hheight) hshare.1 hshare.2 hacc.2.2 hin with ⟨vm', hcast, hh, hr⟩
    exact ⟨vm.voter, hin, hmember, vm', mem_castVotes.mp hcast, hh.trans hacc.1, hr⟩
  · have hsigned : votePayload vm.height vm.round vm.voteType vm.blockId ∈
        signedPayloads (w vm.voter).log := hgenuine hin hacc.2.2
    have hpayload : votePayload vm.height vm.round vm.voteType vm.blockId =
        (voteSigningBytes vm.height vm.round vm.voteType vm.blockId, Context.vote) := by
      unfold votePayload
      split
      · next htype hid => exact absurd ⟨htype, by rw [hid]; rfl⟩ hshare
      · rfl
    rw [hpayload] at hsigned
    rcases mem_signedPayloads hsigned with ⟨msg, hmsg, heq⟩
    rcases payload_eq_vote heq with ⟨vm', rfl, hh, hr, _, _⟩
    exact ⟨vm.voter, hin, hmember, vm', hmsg, hh.trans hacc.1, hr⟩

/-- What a new vote leaves in a store. -/
theorem offered {vm : VoteMsg C} (h : Ahead honest w e) (hsame : SameHeight e e')
    (hround : e'.round = e.round) (hmember : vm.voter ∈ e.currentSet.members)
    (hstored : ∀ {r id vm'}, e'.Stored r id vm' →
      e.Stored r id vm' ∨ r = vm.round ∧ id = vm.voter.id ∧ vm' = vm)
    (hnew : vm.voter ∈ honest → HonestVote honest w e.currentSet e.height vm.round) :
    Ahead honest w e' := by
  refine ⟨?_, ?_, ?_⟩
  · rw [hsame.validatorsSorted, hsame.currentSet]
    exact h.roster
  · intro r id vm' hlt hs
    rw [hround] at hlt
    rw [hsame.currentSet]
    rcases hstored hs with hold | ⟨rfl, rfl, rfl⟩
    · exact h.voter hlt hold
    · exact ⟨rfl, hmember⟩
  · intro r id vm' hlt hs hin
    rw [hround] at hlt
    rw [hsame.currentSet, hsame.height]
    rcases hstored hs with hold | ⟨rfl, rfl, rfl⟩
    · exact h.genuine hlt hold hin
    · exact hnew hin

theorem enter {k : C.VerifyingKey} {t : UInt64} {ev : Event C} {out : List (Output C)}
    (h : Ahead honest w e) (hheight : e.height = (w k).engine.height) (hdriven : driven e ev)
    (hgenuine : Genuine honest w ev) (hguard : asGiven honest w k t ev)
    (hent : Enter ev e out e') : Ahead honest w e' := by
  -- a round 0 is behind everything that was seen
  have hzero : ∀ {o}, e.round = 0 → e.startRound 0 = .ok (e', o) → Ahead honest w e' := by
    intro o hround hstart
    have hsame := (startRound_sameHeight hstart).1
    rcases startRound_frame hstart with ⟨_, _, rfl, _⟩
    exact h.of_le hsame (UInt64.le_of_eq hround) fun _ hs => hs
  cases hent with
  | start hstart => exact hzero (hdriven (Or.inl rfl)).1 hstart
  | @message _ _ msg hingest =>
      cases ingest_cases hingest with
      | ignored => exact h
      | proposal => exact h.of_le rfl (UInt64.le_refl _) fun _ hs => hs
      | @prevote vm hacc =>
          refine h.offered rfl rfl ((ValidatorSet.mem_members _ _).mpr hacc.2.1) ?_
            (ingest_vote hacc hheight hgenuine hguard)
          rintro r id vm' (hs | hs)
          · rcases VoteStore.lookup_offer_cases hs with hnew | hold
            · exact Or.inr hnew
            · exact Or.inl (Or.inl hold)
          · exact Or.inl (Or.inr hs)
      | @precommit vm hacc =>
          refine h.offered rfl rfl ((ValidatorSet.mem_members _ _).mpr hacc.2.1) ?_
            (ingest_vote hacc hheight hgenuine hguard)
          rintro r id vm' (hs | hs)
          · exact Or.inl (Or.inl hs)
          · rcases VoteStore.lookup_offer_cases hs with hnew | hold
            · exact Or.inr hnew
            · exact Or.inl (Or.inr hold)
  | timeout => exact h
  | attestation => exact h.of_le rfl (UInt64.le_refl _) fun _ hs => hs
  | governance => exact h.of_le rfl (UInt64.le_refl _) fun _ hs => hs
  | refused => exact h
  | synced hsync =>
      rcases applySyncedBlock_cases hsync with ⟨_, _, height, set, _, _, rfl⟩
      exact of_empty (length_sortById set.validators) rfl rfl
  | rejected => exact h
  | resume hstart => exact hzero (hdriven (Or.inr rfl)).1 hstart
  | setTime => exact h.of_le rfl (UInt64.le_refl _) fun _ hs => hs

theorem setTime (h : Ahead honest w e) (t : UInt64) : Ahead honest w (e.setTime t) :=
  h.of_le rfl (UInt64.le_refl _) fun _ hs => hs

/-- In every reachable world, of every honest engine. -/
theorem run (h₀ : Launched honest genesis w₀) (hrun : WorldRun honest (asGiven honest) w₀ w)
    {k : C.VerifyingKey} (hk : k ∈ honest) : Ahead honest w (w k).engine := by
  induction hrun generalizing k with
  | refl =>
      rcases h₀ k hk with ⟨_, _, sk, hnew⟩
      rcases withRegistry_eq_ok hnew with ⟨set, _, heq⟩
      rw [heq]
      exact of_empty (length_sortById set.validators) rfl rfl
  | tail _ hstep ih =>
      refine mono ?_ hstep.later
      rcases hstep.peer_cases k with
        hsame | ⟨t, ev, ord, e', out, _, hdriven, hgenuine, hguard, hhandle, hnext⟩
      · rw [hsame]
        exact ih hk
      · rw [hnext]
        rcases handle_steps hhandle with ⟨e₁, o₁, o₂, hent, hints, _⟩
        exact (((ih hk).setTime t).enter rfl hdriven hgenuine hguard hent).internals hints

/-- What the states in a call have in common with the one before it. -/
theorem evaluates {k : C.VerifyingKey} {t : UInt64} {ev : Event C} {out : List (Output C)}
    {e₁ : Engine C} (h : Ahead honest w (w k).engine) (hdriven : driven (w k).engine ev)
    (hgenuine : Genuine honest w ev) (hguard : asGiven honest w k t ev)
    (hentry : ((w k).engine.setTime t).entry ev = .ok (e₁, out, true))
    (heval : Evaluates ord e₁ e) : Ahead honest w e := by
  induction heval with
  | here =>
      have hsteps : ∃ e₂ o₁ o₂, Enter ev ((w k).engine.setTime t) o₁ e₂ ∧
          Internals ord e₂ o₂ e₁ ∧ out = o₁ ++ effects o₂ := (entry_opens hentry).steps
      rcases hsteps with ⟨e₂, o₁, o₂, hent, hints, _⟩
      exact ((h.setTime t).enter rfl hdriven hgenuine hguard hent).internals hints
  | next _ hrule ih => exact ih.internal (applyRule_fires hrule).internal

/-- One voter of more than `f` is honest. -/
theorem skip {out : List (Effect C)} (h : Ahead honest w e)
    (hfew : (e.currentSet.members \ honest).card ≤ e.currentSet.f)
    (hskip : e.trySkip = .ok (some (e', out))) :
    HonestVote honest w e.currentSet e.height e'.round := by
  rcases trySkip_cases hskip with ⟨r, hr, hvoters, hstart⟩
  have hlt : e.round < r := (Finset.mem_filter.mp hr).2
  have hround : e'.round = r := by
    rcases startRound_frame hstart with ⟨_, _, rfl, _⟩
    rfl
  rw [hround]
  by_contra hnone
  -- otherwise all of them are Byzantine members
  have hsub : e.votersOf r ⊆ (e.currentSet.members \ honest).image fun k => k.id := by
    intro id hid
    have hstored : ∃ vm, e.Stored r id vm := by
      rcases Finset.mem_union.mp hid with hkey | hkey
      · rcases Finmap.mem_iff.mp (Finmap.mem_keys.mp hkey) with ⟨vm, hvm⟩
        exact ⟨vm, Or.inl hvm⟩
      · rcases Finmap.mem_iff.mp (Finmap.mem_keys.mp hkey) with ⟨vm, hvm⟩
        exact ⟨vm, Or.inr hvm⟩
    rcases hstored with ⟨vm, hs⟩
    rcases h.voter hlt hs with ⟨hid', hmember⟩
    refine Finset.mem_image.mpr ⟨vm.voter, Finset.mem_sdiff.mpr ⟨hmember, ?_⟩, hid'⟩
    intro hin
    exact hnone (h.genuine hlt hs hin)
  have hf : e.f = e.currentSet.f := by
    unfold Engine.f ValidatorSet.f n quorum
    rw [h.roster]
  have hcard := (Finset.card_le_card hsub).trans Finset.card_image_le
  omega

end Ahead

/-- Round skips are caused by an honest vote. In every run of the honest
engines against any network that cannot forge, as long as precommit shares of
honest members come with the round they were given in: whenever `advance`, in
whatever state of a call, jumps to a round and at most `f` members of the set
in force are Byzantine, an honest member of it has voted in that round of that
height before. -/
theorem skips_follow_honest_votes {genesis : List C.VerifyingKey} {w₀ w : World C}
    (h₀ : Launched honest genesis w₀) (hrun : WorldRun honest (asGiven honest) w₀ w)
    {k : C.VerifyingKey} (hk : k ∈ honest) {t : UInt64} {ev : Event C} {ord : IterOrder}
    {e₁ e e' : Engine C} {o : List (Output C)} {out : List (Effect C)}
    (hdriven : driven (w k).engine ev) (hgenuine : Genuine honest w ev)
    (hguard : asGiven honest w k t ev)
    (hentry : ((w k).engine.setTime t).entry ev = .ok (e₁, o, true))
    (heval : Evaluates ord e₁ e)
    (hfew : (e.currentSet.members \ honest).card ≤ e.currentSet.f)
    (hskip : e.trySkip = .ok (some (e', out))) :
    ∃ j ∈ honest, j ∈ e.currentSet.members ∧
      ∃ vm, Cast (w j).log vm ∧ vm.height = e.height ∧ vm.round = e'.round :=
  ((Ahead.run h₀ hrun hk).evaluates hdriven hgenuine hguard hentry heval).skip hfew hskip

/-! ## Four members -/

/-- The jump that hearing a message leads to, with the state it is made in. -/
def skipOn (w : World sample) (k : sample.VerifyingKey) (msg : ConsensusMsg sample) :
    Exec (Engine sample × Engine sample) := do
  let (e, _, go) ← ((w k).engine.setTime 0).entry (.message msg)
  match go, ← e.trySkip with
  | true, some (e', _) => return (e, e')
  | _, _ => throw .expectedPresent

theorem skipOn_eq_ok {w : World sample} {k : sample.VerifyingKey} {msg : ConsensusMsg sample}
    {e e' : Engine sample} (h : skipOn w k msg = .ok (e, e')) :
    ∃ o out, ((w k).engine.setTime 0).entry (.message msg) = .ok (e, o, true) ∧
      e.trySkip = .ok (some (e', out)) := by
  simp only [skipOn, Exec.bind_eq_ok] at h
  rcases h with ⟨⟨e₁, o, go⟩, hentry, res, hskip, h⟩
  dsimp only at hskip h
  split at h
  · rcases Exec.ok_pair h with ⟨rfl, rfl⟩
    exact ⟨o, _, hentry, hskip⟩
  · cases h

/-- Member 2 leaves round 0 after a timeout and votes nil in round 1; member 1
hears of it. -/
def timedOut : List (sample.VerifyingKey × UInt64 × Event sample) :=
  [(1, 0, .start), (2, 0, .start), (2, 0, .timeout 1 0 .precommit), (2, 0, .timeout 1 1 .propose),
    (1, 0, .message (sampleVote 2 1 .prevote none))]

/-- A vote of the Byzantine member completes the jump; member 2 was there. -/
theorem skips_follow_honest_votes_four :
    ∃ w e e', WorldRun {1, 2, 3} (asGiven {1, 2, 3}) fourWorld w ∧
      skipOn w 1 (sampleVote 4 1 .prevote none) = .ok (e, e') ∧
      ∃ j ∈ ({1, 2, 3} : Finset sample.VerifyingKey), j ∈ e.currentSet.members ∧
        ∃ vm, Cast (w j).log vm ∧ vm.height = e.height ∧ vm.round = e'.round := by
  have hplays : (World.play {1, 2, 3} (asGiven {1, 2, 3}) sampleOrder fourWorld timedOut).any
      (fun w => (skipOn w 1 (sampleVote 4 1 .prevote none)).holds fun (e, _) =>
        decide ((e.currentSet.members \ {1, 2, 3}).card ≤ e.currentSet.f)) = true := by
    decide +kernel
  rcases (Option.any_eq_true _ _).mp hplays with ⟨w, hplay, hw⟩
  rcases Exec.holds_iff.mp hw with ⟨⟨e, e'⟩, hjump, hfew⟩
  rcases skipOn_eq_ok hjump with ⟨o, out, hentry, hskip⟩
  have hrun := WorldRun.of_play hplay
  refine ⟨w, e, e', hrun, hjump, ?_⟩
  have hguard : asGiven {1, 2, 3} w 1 0 (.message (sampleVote 4 1 .prevote none)) := by
    intro _ htype
    cases htype
  have hgenuine : Genuine {1, 2, 3} w (.message (sampleVote 4 1 .prevote none)) := by
    intro hin
    exact absurd hin (by decide)
  exact skips_follow_honest_votes (sampleWorld_launched _ _ _) hrun (by decide)
    (driven_of_ne (by simp) (by simp)) hgenuine hguard hentry (Evaluates.here : Evaluates sampleOrder e e)
    (of_decide_eq_true hfew) hskip

/-- Member 2 precommits the value it proposed in round 0, and member 3 is
handed that share as one for round 1000. -/
def relabelled : List (sample.VerifyingKey × UInt64 × Event sample) :=
  [(2, 0, .start), (3, 0, .start), (2, 0, .attestation (sampleAttestation 1 7)),
    (3, 0, .message (sampleProposal 2 0 none valueA)),
    (2, 0, .message (sampleVote 3 0 .prevote (some valueA.id))),
    (2, 0, .message (sampleVote 4 0 .prevote (some valueA.id))),
    (3, 0, .message (sampleVote 2 1000 .precommit (some valueA.id)))]

/-- A vote of the Byzantine member completes the jump to round 1000, in which
no honest member voted. -/
theorem relabelled_share_skips :
    ¬ ∀ (honest : Finset sample.VerifyingKey) (genesis : List sample.VerifyingKey)
      (w₀ w : World sample) (k : sample.VerifyingKey) (t : UInt64) (ev : Event sample)
      (ord : IterOrder) (e₁ e e' : Engine sample) (o : List (Output sample))
      (out : List (Effect sample)), Launched honest genesis w₀ → WorldRun honest anyStep w₀ w →
      k ∈ honest → driven (w k).engine ev → Genuine honest w ev →
      ((w k).engine.setTime t).entry ev = .ok (e₁, o, true) → Evaluates ord e₁ e →
      (e.currentSet.members \ honest).card ≤ e.currentSet.f →
      e.trySkip = .ok (some (e', out)) →
      ∃ j ∈ honest, j ∈ e.currentSet.members ∧
        ∃ vm, Cast (w j).log vm ∧ vm.height = e.height ∧ vm.round = e'.round := by
  intro hall
  have hplays : (World.play {1, 2, 3} anyStep sampleOrder fourWorld relabelled).any
      (fun w : World sample => (skipOn w 3 (sampleVote 4 1000 .precommit none)).holds fun r =>
        decide ((r.1.currentSet.members \ {1, 2, 3}).card ≤ r.1.currentSet.f ∧
          r.2.round ∉ [1, 2, 3].flatMap fun j => (castVotes (w j).log).map (·.round))) = true := by
    decide +kernel
  rcases (Option.any_eq_true _ _).mp hplays with ⟨w, hplay, hw⟩
  rcases Exec.holds_iff.mp hw with ⟨⟨e, e'⟩, hjump, hdec⟩
  rcases of_decide_eq_true hdec with ⟨hfew, hnone⟩
  rcases skipOn_eq_ok hjump with ⟨o, out, hentry, hskip⟩
  have hgenuine : Genuine {1, 2, 3} w (.message (sampleVote 4 1000 .precommit none)) := by
    intro hin
    exact absurd hin (by decide)
  rcases hall {1, 2, 3} [1, 2, 3, 4] fourWorld w 3 0 _ sampleOrder e e e' o out
    (sampleWorld_launched _ _ _) (WorldRun.of_play hplay) (by decide)
    (driven_of_ne (by simp) (by simp)) hgenuine hentry Evaluates.here hfew hskip with
    ⟨j, hj, _, vm, hcast, _, hround⟩
  -- no honest member is there to have voted in round 1000
  have hkey : j ∈ ([1, 2, 3] : List sample.VerifyingKey) := by simpa using hj
  exact hnone (List.mem_flatMap.mpr
    ⟨j, hkey, List.mem_map.mpr ⟨vm, mem_castVotes.mpr hcast, hround⟩⟩)

end SmartLedger
