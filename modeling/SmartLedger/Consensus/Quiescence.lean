import SmartLedger.Consensus.Idle
import SmartLedger.Consensus.Regossip

/-! # Round 0 of an idle height

The honest members of a height are all parked at it with nothing pending
(`Setting.Idling`). From there any number of events are handled in any order
(`CalmRun`), but no timer of the height fires, and nobody speaks at the height
but the honest members (`Setting.Calm`).

Here is what one call of a handler does to one of the members
(`Setting.OnCourse.handle`). Nobody leaves round 0 of the height but by a
commit (`Setting.Stage`), and what is said there is about proposals that the
height can be decided with (`Setting.Words`, `Setting.Coherent`).
-/

namespace SmartLedger

open Engine

variable {C : Crypto} {ord : IterOrder} {e e' : Engine C} {evs : List (Event C)}
  {log : List (Output C)}

/-! ## Heights only grow -/

/-- Whatever an engine says is about its own height or a later one. -/
theorem Trace.broadcast_height {guard : Engine C → Event C → Prop} {e₀ : Engine C}
    (h : Trace guard e₀ evs log e) {msg : ConsensusMsg C}
    (hmsg : .effect (.broadcast msg) ∈ log) : e₀.height ≤ msg.height := by
  induction h with
  | init => cases hmsg
  | @enter evs log out e e' ev h _ hent ih =>
      rcases List.mem_append.mp hmsg with hold | hnew
      · exact ih hold
      · cases msg with
        | vote vm => exact absurd hnew (hent.noVote vm)
        | proposal pm =>
            -- an own proposal names the height that is being entered
            have hown := (hent.own hnew).1
            have htrace : Trace anyEvent _ _ _ e' :=
              Trace.enter (h.imp fun _ _ _ => trivial) trivial hent
            rw [hown]
            exact (Grows.trace htrace).1
  | @internal evs log e e' ord out h hi ih =>
      rcases List.mem_append.mp hmsg with hold | hnew
      · exact ih hold
      · have hmem := mem_effects.mp hnew
        cases msg with
        | vote vm =>
            rcases hi.vote_mem hmem with ⟨voteType, id, rfl⟩
            exact (Grows.trace h).1
        | proposal pm =>
            rw [(hi.own hmem).1]
            exact (Grows.trace (h.internal hi)).1

/-- A vote is filed when it is cast. -/
theorem Engine.Internal.vote_filed {out : List (Effect C)} (h : Internal ord e out e')
    {vm : VoteMsg C} (hvm : .broadcast (.vote vm) ∈ out) :
    (((e'.votesOf vm.voteType).ofRound vm.round).lookup vm.voter.id).isSome := by
  -- a vote replaces what the voter had on file
  have hput : ∀ (s : VoteStore C) (r : UInt64) (id : Hash) (vm : VoteMsg C),
      (((s.put r id vm).ofRound r).lookup id).isSome := by
    intro s r id vm
    rw [VoteStore.ofRound_put, if_pos rfl, Finmap.lookup_insert]
    rfl
  cases h with
  | prevote =>
      obtain rfl : vm = e.ownVote .prevote _ := by simpa using hvm
      exact hput ..
  | polka =>
      obtain rfl : vm = e.ownVote .precommit _ := by simpa using hvm
      exact hput ..
  | precommitNil =>
      obtain rfl : vm = e.ownVote .precommit _ := by simpa using hvm
      exact hput ..
  | schedulePrevote => cases List.mem_singleton.mp hvm
  | latePolka => cases hvm
  | schedulePrecommit => cases List.mem_singleton.mp hvm
  | jump hlt hstart => exact absurd hvm (startRound_no_vote hstart vm)
  | wake hparked hwake =>
      rcases wake_frame hwake with ⟨_, rfl, ⟨_, rfl⟩ | ⟨_, _, _, rfl⟩⟩
      · cases List.mem_singleton.mp hvm
      · simp at hvm
  | commit hpm hquorum hvalid hcommit =>
      rcases commit_cases hcommit with ⟨_, _, out', _, _, hstart, rfl⟩
      rcases List.mem_cons.mp hvm with hbad | hmem
      · cases hbad
      · exact absurd hmem (startRound_no_vote hstart vm)

/-! ## The rules that cast a vote -/

namespace Engine

theorem tryPrevoteOnProposal_pick {out : List (Effect C)}
    (h : e.tryPrevoteOnProposal = some (e', out)) :
    e.step = .propose ∧ ∃ pm, e.proposals.lookup e.round = some pm ∧ pm.validRound = none ∧
      (pm.value.isValid e.tip e.height e.currentSet = true → e.lockedRound = none →
        e' = e.castPrevote (some pm.value.id) ∧
        out = [.broadcast (.vote (e.ownVote .prevote (some pm.value.id)))]) := by
  unfold tryPrevoteOnProposal at h
  split at h
  · cases h
  next hstep =>
  split at h
  · cases h
  next pm hpm =>
  split at h
  · cases h
  next hvr =>
  have heq := Option.some.inj h
  rw [Prod.mk.injEq] at heq
  rcases heq with ⟨rfl, rfl⟩
  refine ⟨not_not.mp hstep, pm, hpm, by simpa using hvr, ?_⟩
  intro hvalid hlock
  -- valid and not locked, so the vote is for the block
  have hcond : (pm.value.isValid e.tip e.height e.currentSet &&
      (e.lockedRound.isNone || e.lockedId == some pm.value.id)) = true := by
    simp [hvalid, hlock]
  rw [if_pos hcond]
  exact ⟨rfl, rfl⟩

theorem tryPrevoteOnReproposal_pick {out : List (Effect C)}
    (h : e.tryPrevoteOnReproposal = some (e', out)) :
    ∃ pm, e.proposals.lookup e.round = some pm ∧ pm.validRound ≠ none := by
  unfold tryPrevoteOnReproposal at h
  split at h
  · cases h
  split at h
  · cases h
  next pm hpm =>
  refine ⟨pm, hpm, ?_⟩
  intro hvr
  rw [hvr] at h
  cases h

theorem tryPrecommitOnPolka_pick {out : List (Effect C)}
    (h : e.tryPrecommitOnPolka = some (e', out)) :
    ∃ pm, e.proposals.lookup e.round = some pm ∧
      ((e.step = .prevote ∧
          e' = ((e.lock pm.value).castPrecommit (some pm.value.id)).recordValid pm.value ∧
          out = [.broadcast (.vote (e.ownVote .precommit (some pm.value.id)))] ∧
          Internal sampleOrder e out e') ∨
        (e.step = .precommit ∧ e' = e.recordValid pm.value ∧ out = [])) := by
  unfold tryPrecommitOnPolka at h
  split at h
  · cases h
  next hcond =>
  rw [not_or] at hcond
  split at h
  · cases h
  next pm hpm =>
  dsimp only at h
  split at h
  · cases h
  next hguard =>
  simp only [Bool.or_eq_true, decide_eq_true_eq, Bool.not_eq_true', not_or, not_lt,
    Bool.not_eq_false] at hguard
  refine ⟨pm, hpm, ?_⟩
  split at h
  · next hstep =>
      have heq := Option.some.inj h
      rw [Prod.mk.injEq] at heq
      rcases heq with ⟨rfl, rfl⟩
      exact Or.inl ⟨hstep, rfl, rfl, Internal.polka hstep hcond.2 hpm hguard.1 hguard.2⟩
  · next hstep =>
      have heq := Option.some.inj h
      rw [Prod.mk.injEq] at heq
      rcases heq with ⟨rfl, rfl⟩
      -- a step past prevote can only be precommit
      have hpre : e.step = .precommit := by
        cases hs : e.step with
        | propose => exact absurd hs hcond.1
        | prevote => exact absurd hs hstep
        | precommit => rfl
      exact Or.inr ⟨hpre, rfl, rfl⟩

/-- A proposer with something to propose does so. -/
theorem enterPropose_mine {r : UInt64} (hmine : e.proposer r = .ok e.mePk)
    (hne : e.proposalValue.1.attestations ≠ [] ∨ e.proposalValue.1.governance ≠ []) :
    e.enterPropose r = .ok ({ e with
        proposals := KeyMap.orInsert e.proposals r (e.ownProposal r) },
      [.broadcast (.proposal (e.ownProposal r))]) := by
  have hcond : (!e.proposalValue.1.attestations.isEmpty ||
      !e.proposalValue.1.governance.isEmpty) = true := by
    rcases hne with hne | hne
    · simp [hne]
    · simp [hne]
  unfold enterPropose isProposer
  simp only [hmine, bind, Except.bind, pure, Except.pure, decide_true, Bool.true_and, hcond,
    if_true]
  rfl

end Engine

/-! ## The height -/

/-- Messages of an honest member, as far as the others go by them. -/
abbrev Word (C : Crypto) := ConsensusMsg C → Prop

/-- `W` with what was said in `out`. -/
def Word.also (W : Word C) (out : List (Output C)) : Word C :=
  fun msg => W msg ∨ .effect (.broadcast msg) ∈ out

namespace Setting

variable (S : Setting C)

/-- Whose turn it is to propose in round 0 of the height. -/
def leader : Option C.VerifyingKey :=
  (sortById S.set.validators)[S.height.toNat % S.set.validators.length]?

/-- The place of member `k` at the height. -/
def place (sk : C.SigningKey) (k : C.VerifyingKey) : Position C where
  registry := S.registry
  currentSet := S.set
  validatorsSorted := sortById S.set.validators
  meSk := sk
  mePk := k
  height := S.height
  tip := S.tip

/-- Member `k` is parked at the height, with its pools and its stores
empty. -/
structure Idling (k : C.VerifyingKey) (p : Party C) : Prop where
  place : ∃ sk, C.Matching sk k ∧ p.engine.position = S.place sk k
  idle : Idle p.engine
  unset : p.engine.Unset
  prevotes : p.engine.prevotes = ∅
  precommits : p.engine.precommits = ∅
  polkaApplied : p.engine.polkaApplied = ∅
  evs : p.evs = []
  log : p.log = []

/-- An honest member said `msg`. -/
def Said (net : Net C) : Word C :=
  fun msg => ∃ j, S.Honest j ∧ .effect (.broadcast msg) ∈ (net j).log

/-- What is handed to the engines: of this height, what an honest member said
and no timer; and attestations that verify. -/
def Calm (W : Word C) : Event C → Prop
  | .message msg => msg.height = S.height → W msg
  | .timeout height _ _ => height ≠ S.height
  | .attestation att => att.verify = true
  | _ => True

end Setting

/-- An honest member handles an event. -/
inductive CalmStep (S : Setting C) (net : Net C) : Net C → Prop where
  | handle {k : C.VerifyingKey} {ord : IterOrder} {ev : Event C} {out : List (Output C)}
      {e' : Engine C} (hk : S.Honest k) (hplain : ev.plain = true) (hcalm : S.Calm (S.Said net) ev)
      (h : (net k).engine.handle ord ev = .ok (e', out)) :
      CalmStep S net (Function.update net k ((net k).step [ev] out e'))

/-- Any number of events. -/
def CalmRun (S : Setting C) : Net C → Net C → Prop := Relation.ReflTransGen (CalmStep S)

namespace Setting

variable (S : Setting C)

/-- What the height is decided with: a proposal of round 0 that is fresh and
valid. -/
structure Opening (pm : ProposalMsg C) : Prop where
  height : pm.height = S.height
  round : pm.round = 0
  validRound : pm.validRound = none
  valid : pm.value.isValid S.tip S.height S.set = true

/-- A vote of round 0 for a proposal that was made. -/
def Backs (W : Word C) (vm : VoteMsg C) : Prop :=
  vm.round = 0 ∧ ∃ pm, W (.proposal pm) ∧ pm.height = S.height ∧ vm.blockId = some pm.value.id

/-- What member `k` says at the height. -/
structure Words (k : C.VerifyingKey) (W : Word C) (log : List (Output C)) : Prop where
  said : ∀ {msg}, .effect (.broadcast msg) ∈ log → W msg
  proposals : ∀ {pm}, .effect (.broadcast (.proposal pm)) ∈ log → pm.height = S.height →
    S.Opening pm ∧ S.leader = some k ∧ pm.proposer = k ∧ pm.verifySig = true
  votes : ∀ {vm}, Cast log vm → vm.height = S.height →
    S.Backs W vm ∧ vm.voter = k ∧ vm.verifySig = true

/-- What the engine has on file: votes and proposals that were really made,
its own among them. -/
structure Files (W : Word C) (log : List (Output C)) (e : Engine C) : Prop where
  stores : e.StoresHold fun vm => W (.vote vm) ∧ S.Backs W vm
  proposals : ∀ {r pm}, e.proposals.lookup r = some pm → W (.proposal pm)
  votes : ∀ {vm}, Cast log vm → vm.height = S.height →
    (((e.votesOf vm.voteType).ofRound vm.round).lookup vm.voter.id).isSome
  made : ∀ {pm}, .effect (.broadcast (.proposal pm)) ∈ log → pm.height = S.height →
    (e.proposals.lookup pm.round).isSome

/-- How far round 0 has got: each step past the first took a vote. -/
structure Stage (log : List (Output C)) (e : Engine C) : Prop where
  round : e.round = 0
  unlocked : e.step = .propose → e.lockedRound = none
  prevoted : e.step ≠ .propose →
    ∃ vm, Cast log vm ∧ vm.height = S.height ∧ vm.voteType = .prevote
  precommitted : e.step = .precommit →
    ∃ vm, Cast log vm ∧ vm.height = S.height ∧ vm.voteType = .precommit
  applied : 0 ∈ e.polkaApplied → e.step = .precommit

/-- What the engine was given to do. -/
structure Desk (k : C.VerifyingKey) (evs : List (Event C)) (log : List (Output C))
    (e : Engine C) : Prop where
  pool : ∀ a ∈ e.mempool, a.verify = true
  woken : ∀ {att}, .attestation att ∈ evs → e.parked = false
  proposed : S.leader = some k → e.parked = false →
    ∃ pm, .effect (.broadcast (.proposal pm)) ∈ log ∧ pm.height = S.height

/-- The engine of member `k` is at the height. -/
structure Present (sk : C.SigningKey) (k : C.VerifyingKey) (W : Word C) (evs : List (Event C))
    (log : List (Output C)) (e : Engine C) : Prop where
  place : e.position = S.place sk k
  sound : e.Sound
  files : S.Files W log e
  stage : S.Stage log e
  desk : S.Desk k evs log e

/-- The height is behind the engine: it committed a proposal that was made,
with precommits that were cast. -/
structure Closed (W : Word C) (log : List (Output C)) (e : Engine C) : Prop where
  later : S.height < e.height
  committed : ∃ b pm, .effect (.committed b) ∈ log ∧ W (.proposal pm) ∧
    pm.height = S.height ∧ b.value = pm.value ∧
    Tally .precommit (fun vm => W (.vote vm)) S.set S.height 0 pm.value.id

/-- Either of the two. -/
def Follows (sk : C.SigningKey) (k : C.VerifyingKey) (W : Word C) (evs : List (Event C))
    (log : List (Output C)) (e : Engine C) : Prop :=
  S.Present sk k W evs log e ∨ S.Closed W log e

/-- What the honest members say together. -/
structure Coherent (W : Word C) : Prop where
  opening : ∀ {pm}, W (.proposal pm) → pm.height = S.height → S.Opening pm
  backs : ∀ {vm}, W (.vote vm) → vm.height = S.height → S.Backs W vm

variable {S} {sk : C.SigningKey} {k : C.VerifyingKey} {W W' : Word C} {out : List (Output C)}

/-! ## More said, and later logs -/

theorem Backs.mono {vm : VoteMsg C} (h : S.Backs W vm) (hW : ∀ msg, W msg → W' msg) :
    S.Backs W' vm := by
  rcases h with ⟨hround, pm, hpm, hrest⟩
  exact ⟨hround, pm, hW _ hpm, hrest⟩

theorem Closed.mono (h : S.Closed W log e) (hW : ∀ msg, W msg → W' msg)
    (hheight : e.height ≤ e'.height) : S.Closed W' (log ++ out) e' := by
  rcases h.committed with ⟨b, pm, hb, hpm, hh, hvalue, voters, hcard, hvoters⟩
  refine ⟨UInt64.lt_of_lt_of_le h.later hheight, b, pm, List.mem_append_left _ hb, hW _ hpm, hh,
    hvalue, voters, hcard, ?_⟩
  intro id hid
  rcases hvoters id hid with ⟨vm, h₁, h₂, h₃, h₄, h₅, hvm⟩
  exact ⟨vm, h₁, h₂, h₃, h₄, h₅, hW _ hvm⟩

theorem Files.mono (h : S.Files W log e) (hW : ∀ msg, W msg → W' msg) : S.Files W' log e where
  stores := h.stores.congr rfl rfl rfl fun _ hvm => ⟨hW _ hvm.1, hvm.2.mono hW⟩
  proposals := fun hpm => hW _ (h.proposals hpm)
  votes := h.votes
  made := h.made

theorem Present.mono (h : S.Present sk k W evs log e) (hW : ∀ msg, W msg → W' msg) :
    S.Present sk k W' evs log e := ⟨h.place, h.sound, h.files.mono hW, h.stage, h.desk⟩

theorem Words.mono (h : S.Words k W log) (hW : ∀ msg, W msg → W' msg) : S.Words k W' log where
  said := fun hmsg => hW _ (h.said hmsg)
  proposals := h.proposals
  votes := fun hvm hheight => ⟨(h.votes hvm hheight).1.mono hW, (h.votes hvm hheight).2⟩

theorem Follows.mono (h : S.Follows sk k W evs log e) (hW : ∀ msg, W msg → W' msg) :
    S.Follows sk k W' evs log e := by
  rcases h with hpresent | hclosed
  · exact Or.inl (hpresent.mono hW)
  · have hlater : S.Closed W' (log ++ []) e := hclosed.mono hW (UInt64.le_refl _)
    rw [List.append_nil] at hlater
    exact Or.inr hlater

/-- What is added to the log has to be in order by itself. -/
theorem Words.append (h : S.Words k W log)
    (hproposals : ∀ {pm}, .effect (.broadcast (.proposal pm)) ∈ out → pm.height = S.height →
      S.Opening pm ∧ S.leader = some k ∧ pm.proposer = k ∧ pm.verifySig = true)
    (hvotes : ∀ {vm}, Cast out vm → vm.height = S.height →
      S.Backs W vm ∧ vm.voter = k ∧ vm.verifySig = true) :
    S.Words k (W.also out) (log ++ out) where
  said := fun hmsg => (List.mem_append.mp hmsg).imp h.said id
  proposals := by
    intro pm hpm hheight
    rcases List.mem_append.mp hpm with hold | hnew
    · exact h.proposals hold hheight
    · exact hproposals hnew hheight
  votes := by
    intro vm hvm hheight
    have hback : S.Backs W vm ∧ vm.voter = k ∧ vm.verifySig = true := by
      rcases cast_append.mp hvm with hold | hnew
      · exact h.votes hold hheight
      · exact hvotes hnew hheight
    exact ⟨hback.1.mono fun _ => Or.inl, hback.2⟩

/-- Nothing about the height was added. -/
theorem Words.elsewhere (h : S.Words k W log)
    (hout : ∀ msg, .effect (.broadcast msg) ∈ out → msg.height ≠ S.height) :
    S.Words k (W.also out) (log ++ out) :=
  h.append (fun hpm hheight => absurd hheight (hout _ hpm))
    fun hvm hheight => absurd hheight (hout _ hvm)

theorem Coherent.also (h : S.Coherent W) (hwords : S.Words k (W.also out) (log ++ out)) :
    S.Coherent (W.also out) where
  opening := by
    rintro pm (hold | hnew) hheight
    · exact h.opening hold hheight
    · exact (hwords.proposals (List.mem_append_right _ hnew) hheight).1
  backs := by
    rintro vm (hold | hnew) hheight
    · exact (h.backs hold hheight).mono fun _ => Or.inl
    · exact (hwords.votes (List.mem_append_right _ hnew) hheight).1

/-! ## At the height -/

theorem proposer_zero (h : e.position = S.place sk k) {key : C.VerifyingKey} :
    e.proposer 0 = .ok key ↔ S.leader = some key := by
  have hheight : e.height = S.height := congrArg Position.height h
  have hsorted : e.validatorsSorted = sortById S.set.validators :=
    congrArg Position.validatorsSorted h
  have hadd : checkedAdd S.height 0 = .ok S.height := by
    unfold checkedAdd
    rw [if_pos (by simpa using S.height.toNat_lt), UInt64.add_zero]
  unfold proposer n leader
  rw [hheight, hsorted, hadd, length_sortById]
  simp only [bind, Except.bind]
  cases (sortById S.set.validators)[S.height.toNat % S.set.validators.length]? with
  | none => simp [throw, throwThe, MonadExceptOf.throw]
  | some key' => simp [pure, Except.pure]

namespace Present

variable (h : S.Present sk k W evs log e)

include h

theorem height : e.height = S.height := congrArg Position.height h.place

theorem mePk : e.mePk = k := congrArg Position.mePk h.place

theorem set : e.currentSet = S.set := congrArg Position.currentSet h.place

theorem activeSet : e.registry.activeSet e.height = .ok e.currentSet := by
  have hregistry : e.registry = S.registry := congrArg Position.registry h.place
  rw [hregistry, h.height, h.set]
  exact S.set_eq

/-- The votes on file are for proposals that were made. -/
theorem stored (voteType : VoteType) {r : UInt64} {id : Hash} {vm : VoteMsg C}
    (hvm : ((e.votesOf voteType).ofRound r).lookup id = some vm) :
    vm.voter.id = id ∧ r = 0 ∧ vm.voteType = voteType ∧ vm.height = S.height ∧ W (.vote vm) ∧
      S.Backs W vm := by
  have hholds : vm.voter.id = id ∧ vm.height = e.height ∧ vm.round = r ∧
      vm.voteType = voteType ∧ W (.vote vm) ∧ S.Backs W vm := by
    cases voteType with
    | prevote => exact h.files.stores.1 r id vm hvm
    | precommit => exact h.files.stores.2 r id vm hvm
  rcases hholds with ⟨hid, hheight, hround, htype, hsaid, hback⟩
  exact ⟨hid, hround.symm.trans hback.1, htype, hheight.trans h.height, hsaid, hback⟩

/-- The proposals on file can be decided with. -/
theorem opening (hco : S.Coherent W) {r : UInt64} {pm : ProposalMsg C}
    (hpm : e.proposals.lookup r = some pm) : r = 0 ∧ W (.proposal pm) ∧ S.Opening pm := by
  have hfiled := h.sound.filed r pm hpm
  have hopening := hco.opening (h.files.proposals hpm) (hfiled.1.trans h.height)
  exact ⟨hfiled.2.1.symm.trans hopening.round, h.files.proposals hpm, hopening⟩

theorem valid (hco : S.Coherent W) {r : UInt64} {pm : ProposalMsg C}
    (hpm : e.proposals.lookup r = some pm) :
    pm.value.isValid e.tip e.height e.currentSet = true := by
  have htip : e.tip = S.tip := congrArg Position.tip h.place
  rw [htip, h.height, h.set]
  exact (h.opening hco hpm).2.2.valid

end Present

/-! ## What is on file -/

theorem Files.keep (h : S.Files W log e) (hheight : e'.height = e.height)
    (hprevotes : e'.prevotes = e.prevotes) (hprecommits : e'.precommits = e.precommits)
    (hproposals : e'.proposals = e.proposals) : S.Files W log e' where
  stores := h.stores.congr hheight hprevotes hprecommits fun _ => id
  proposals := by
    rw [hproposals]
    exact h.proposals
  votes := by
    intro vm hvm hh
    have hstored := h.votes hvm hh
    unfold votesOf at hstored ⊢
    rw [hprevotes, hprecommits]
    exact hstored
  made := by
    rw [hproposals]
    exact h.made

/-- Nothing was said that would have to be on file. -/
theorem Files.also (h : S.Files W log e) (hout : ∀ msg, .effect (.broadcast msg) ∉ out) :
    S.Files (W.also out) (log ++ out) e where
  stores := by
    have hmono : ∀ msg, W msg → W.also out msg := fun _ => Or.inl
    exact (h.mono hmono).stores
  proposals := fun hpm => Or.inl (h.proposals hpm)
  votes := fun hvm => h.votes ((cast_append.mp hvm).resolve_right (hout _))
  made := fun hpm => h.made ((List.mem_append.mp hpm).resolve_right (hout _))

/-- What was on file stays there. -/
theorem Files.grows (h : S.Files W log e) (hgrows : Grows e e') :
    (∀ {vm}, Cast log vm → vm.height = S.height →
      (((e'.votesOf vm.voteType).ofRound vm.round).lookup vm.voter.id).isSome) ∧
    ∀ {pm}, .effect (.broadcast (.proposal pm)) ∈ log → pm.height = S.height →
      (e'.proposals.lookup pm.round).isSome := by
  constructor
  · intro vm hvm hheight
    have hstored := h.votes hvm hheight
    cases htype : vm.voteType with
    | prevote =>
        rw [htype] at hstored
        exact hgrows.prevotes _ _ hstored
    | precommit =>
        rw [htype] at hstored
        exact hgrows.precommits _ _ hstored
  · intro pm hpm hheight
    exact hgrows.proposals _ (h.made hpm hheight)

/-- A rule that stays at the height files what it says. -/
theorem Files.internal {out : List (Effect C)} (h : S.Files W log e) (hi : Internal ord e out e')
    (hgrows : Grows e e')
    (hnew : ∀ vm, .broadcast (.vote vm) ∈ out → S.Backs W vm) :
    S.Files (W.also (effects out)) (log ++ effects out) e' where
  stores := by
    apply h.stores.internal hi
    · intro _ vm hvm
      exact ⟨Or.inl hvm.1, hvm.2.mono fun _ => Or.inl⟩
    · intro _ vm hvm
      exact ⟨Or.inr (mem_effects.mpr hvm), (hnew vm hvm).mono fun _ => Or.inl⟩
  proposals := by
    intro r pm hpm
    rcases hi.stored hpm with ⟨_, hold⟩ | ⟨_, hmem⟩
    · exact Or.inl (h.proposals hold)
    · exact Or.inr (mem_effects.mpr hmem)
  votes := by
    intro vm hvm hheight
    rcases cast_append.mp hvm with hold | hmem
    · exact (h.grows hgrows).1 hold hheight
    · exact hi.vote_filed (cast_effects.mp hmem)
  made := by
    intro pm hpm hheight
    rcases List.mem_append.mp hpm with hold | hmem
    · exact (h.grows hgrows).2 hold hheight
    · exact hi.sent (mem_effects.mp hmem)

/-! ## How far the round is -/

theorem Stage.keep (h : S.Stage log e) (hround : e'.round = e.round) (hstep : e'.step = e.step)
    (hlocked : e'.lockedRound = e.lockedRound)
    (happlied : 0 ∈ e'.polkaApplied → 0 ∈ e.polkaApplied ∨ e.step = .precommit) :
    S.Stage log e' := by
  constructor
  · exact hround.trans h.round
  · rw [hstep, hlocked]
    exact h.unlocked
  · rw [hstep]
    exact h.prevoted
  · rw [hstep]
    exact h.precommitted
  · rw [hstep]
    intro hmem
    exact (happlied hmem).elim h.applied id

theorem Stage.also (h : S.Stage log e) : S.Stage (log ++ out) e where
  round := h.round
  unlocked := h.unlocked
  prevoted := by
    intro hne
    rcases h.prevoted hne with ⟨vm, hvm, hrest⟩
    exact ⟨vm, List.mem_append_left _ hvm, hrest⟩
  precommitted := by
    intro heq
    rcases h.precommitted heq with ⟨vm, hvm, hrest⟩
    exact ⟨vm, List.mem_append_left _ hvm, hrest⟩
  applied := h.applied

/-! ## One step -/

/-- The engine of member `k`, with what it said and what it goes by. -/
structure OnCourse (S : Setting C) (sk : C.SigningKey) (k : C.VerifyingKey) (W : Word C)
    (evs : List (Event C)) (log : List (Output C)) (e : Engine C) : Prop where
  keys : C.Matching sk k
  follows : S.Follows sk k W evs log e
  words : S.Words k W log
  coherent : S.Coherent W
  mine : S.leader = some k → ∀ {pm}, W (.proposal pm) → pm.height = S.height →
    .effect (.broadcast (.proposal pm)) ∈ log

theorem OnCourse.next {evs' : List (Event C)} (h : S.OnCourse sk k W evs log e)
    (hwords : S.Words k (W.also out) (log ++ out))
    (hfollows : S.Follows sk k (W.also out) evs' (log ++ out) e') :
    S.OnCourse sk k (W.also out) evs' (log ++ out) e' where
  keys := h.keys
  follows := hfollows
  words := hwords
  coherent := h.coherent.also hwords
  mine := by
    rintro hleads pm (hold | hnew) hheight
    · exact List.mem_append_left _ (h.mine hleads hold hheight)
    · exact List.mem_append_right _ hnew

/-- Past the height, what an engine does is about later heights. -/
theorem OnCourse.closed {guard : Engine C → Event C → Prop} {evs' evs'' : List (Event C)}
    (h : S.OnCourse sk k W evs log e) (hclosed : S.Closed W log e)
    (htrace : Trace guard e evs' out e') :
    S.OnCourse sk k (W.also out) evs'' (log ++ out) e' := by
  apply h.next
  · apply h.words.elsewhere
    intro msg hmsg heq
    have hle := htrace.broadcast_height hmsg
    rw [heq] at hle
    exact absurd hclosed.later (UInt64.not_lt.mpr hle)
  · exact Or.inr (hclosed.mono (fun _ => Or.inl) (Grows.trace htrace).1)

section

variable (h : S.OnCourse sk k W evs log e) (hp : S.Present sk k W evs log e)

include h hp

/-- A vote for a proposal on file. -/
theorem Present.vote {r : UInt64} {pm : ProposalMsg C} (hpm : e.proposals.lookup r = some pm)
    (voteType : VoteType) :
    S.Backs W (e.ownVote voteType (some pm.value.id)) ∧
      (e.ownVote voteType (some pm.value.id)).voter = k ∧
      (e.ownVote voteType (some pm.value.id)).verifySig = true := by
  have hopening := hp.opening h.coherent hpm
  refine ⟨⟨hp.stage.round, pm, hopening.2.1, hopening.2.2.height, rfl⟩, hp.mePk, ?_⟩
  have hsk : e.meSk = sk := congrArg Position.meSk hp.place
  have hkeys : C.Matching e.meSk e.mePk := by
    rw [hsk, hp.mePk]
    exact h.keys
  exact VoteMsg.verifySig_create hkeys _ _ _ _

theorem Present.cast {ord : IterOrder} {voteType : VoteType} {r : UInt64} {pm : ProposalMsg C}
    (hpm : e.proposals.lookup r = some pm)
    (hi : Internal ord e [.broadcast (.vote (e.ownVote voteType (some pm.value.id)))] e')
    (hsound : e'.Sound) (hplace : e'.position = e.position) (hpool : e'.mempool = e.mempool)
    (hparked : e'.parked = e.parked)
    (hstage : S.Stage (log ++
      effects [.broadcast (.vote (e.ownVote voteType (some pm.value.id)))]) e') :
    S.OnCourse sk k (W.also (effects [.broadcast (.vote (e.ownVote voteType (some pm.value.id)))]))
      evs (log ++ effects [.broadcast (.vote (e.ownVote voteType (some pm.value.id)))]) e' := by
  have hnew := hp.vote h hpm voteType
  -- the vote does not take the engine to another height
  have hgrows : Grows e e' := by
    have hheight : e'.height = e.height := congrArg Position.height hplace
    refine hi.grows_or_rolls.resolve_right fun hlt => ?_
    rw [hheight] at hlt
    exact absurd hlt (UInt64.lt_irrefl _)
  apply h.next
  · apply h.words.append
    · intro pm' hpm'
      cases List.mem_singleton.mp (mem_effects.mp hpm')
    · intro vm hvm _
      obtain rfl : vm = e.ownVote voteType (some pm.value.id) := by
        simpa using cast_effects.mp hvm
      exact hnew
  · left
    refine ⟨hplace.trans hp.place, hsound, ?_, hstage, ?_⟩
    · apply hp.files.internal hi hgrows
      intro vm hvm
      obtain rfl : vm = e.ownVote voteType (some pm.value.id) := by simpa using hvm
      exact hnew.1
    · constructor
      · rw [hpool]
        exact hp.desk.pool
      · intro att hatt
        rw [hparked]
        exact hp.desk.woken hatt
      · intro hleads hawake
        rw [hparked] at hawake
        rcases hp.desk.proposed hleads hawake with ⟨pm', hpm', hheight⟩
        exact ⟨pm', List.mem_append_left _ hpm', hheight⟩

/-- Still at the height, and nothing was said. -/
theorem OnCourse.stays {evs' : List (Event C)} (hplace : e'.position = S.place sk k)
    (hsound : e'.Sound) (hfiles : S.Files W log e') (hstage : S.Stage log e')
    (hpool : ∀ a ∈ e'.mempool, a.verify = true) (hparked : e'.parked = e.parked)
    (hevs : ∀ {att}, .attestation att ∈ evs' → .attestation att ∈ evs ∨ e.parked = false)
    (hout : ∀ msg, .effect (.broadcast msg) ∉ out) :
    S.OnCourse sk k (W.also out) evs' (log ++ out) e' := by
  apply h.next
  · exact h.words.elsewhere fun msg hmsg => absurd hmsg (hout msg)
  · refine Or.inl ⟨hplace, hsound, hfiles.also hout, hstage.also, hpool, ?_, ?_⟩
    · intro att hatt
      rw [hparked]
      exact (hevs hatt).elim hp.desk.woken id
    · intro hleads hawake
      rw [hparked] at hawake
      rcases hp.desk.proposed hleads hawake with ⟨pm, hpm, hheight⟩
      exact ⟨pm, List.mem_append_left _ hpm, hheight⟩

/-- Nothing but the pools, the clock and the timers moves. -/
theorem OnCourse.idles {evs' : List (Event C)} (hsound : e'.Sound)
    (hplace : e'.position = e.position) (hprevotes : e'.prevotes = e.prevotes)
    (hprecommits : e'.precommits = e.precommits) (hproposals : e'.proposals = e.proposals)
    (hround : e'.round = e.round) (hstep : e'.step = e.step)
    (hlocked : e'.lockedRound = e.lockedRound)
    (happlied : 0 ∈ e'.polkaApplied → 0 ∈ e.polkaApplied ∨ e.step = .precommit)
    (hpool : ∀ a ∈ e'.mempool, a.verify = true) (hparked : e'.parked = e.parked)
    (hevs : ∀ {att}, .attestation att ∈ evs' → .attestation att ∈ evs ∨ e.parked = false)
    (hout : ∀ msg, .effect (.broadcast msg) ∉ out) :
    S.OnCourse sk k (W.also out) evs' (log ++ out) e' := by
  have hheight : e'.height = e.height := congrArg Position.height hplace
  exact h.stays hp (hplace.trans hp.place) hsound
    (hp.files.keep hheight hprevotes hprecommits hproposals)
    (hp.stage.keep hround hstep hlocked happlied) hpool hparked hevs hout

/-- The commit rule takes the engine past the height. -/
theorem Present.commit {ord : IterOrder} {r : UInt64} {pm : ProposalMsg C} {o : List (Effect C)}
    (hpm : e.proposals.lookup r = some pm)
    (hquorum : e.quorum ≤ e.countPrecommits r (.id pm.value.id))
    (hvalid : pm.value.isValid e.tip e.height e.currentSet = true)
    (hcommit : e.commit ord r pm.value.id pm.value = .ok (e', o)) :
    S.OnCourse sk k (W.also (effects o)) evs (log ++ effects o) e' := by
  have hi : Internal ord e o e' := Internal.commit hpm hquorum hvalid hcommit
  have hopening := hp.opening h.coherent hpm
  rcases commit_cases hcommit with ⟨height, set, o', hheight, _, hstart, rfl⟩
  have hlater : S.height < e'.height := by
    rw [(startRound_sameHeight hstart).1.height, ← hp.height]
    exact lt_of_checkedAdd_one hheight
  apply h.next
  -- what is said now is about the next height
  · apply h.words.elsewhere
    intro msg hmsg heq
    have hmem := mem_effects.mp hmsg
    cases msg with
    | vote vm =>
        rcases List.mem_cons.mp hmem with hbad | hvm
        · cases hbad
        · exact startRound_no_vote hstart vm hvm
    | proposal pm' =>
        have hheight' : pm'.height = e'.height := congrArg ProposalMsg.height (hi.own hmem).1
        rw [← heq] at hlater
        exact absurd (hheight'.symm ▸ hlater) (UInt64.lt_irrefl _)
  · right
    refine ⟨hlater, e.assembleBlock ord r pm.value.id pm.value, pm, ?_, Or.inl hopening.2.1,
      hopening.2.2.height, rfl, ?_⟩
    · exact List.mem_append_right _ (mem_effects.mpr List.mem_cons_self)
    -- and the precommits behind the block are on file
    · have htally : Tally .precommit (fun vm => W (.vote vm) ∧ S.Backs W vm) e.currentSet
          e.height r pm.value.id := hp.files.stores.2.tally hquorum
      rw [hp.set, hp.height, hopening.1] at htally
      rcases htally with ⟨voters, hcard, hvoters⟩
      refine ⟨voters, hcard, fun id hid => ?_⟩
      rcases hvoters id hid with ⟨vm, h₁, h₂, h₃, h₄, h₅, hvm⟩
      exact ⟨vm, h₁, h₂, h₃, h₄, h₅, Or.inl hvm.1⟩

end

/-- A rule of `advance`. -/
theorem OnCourse.rule {o : List (Effect C)} (h : S.OnCourse sk k W evs log e)
    (hrule : e.applyRule ord = .ok (some (e', o))) :
    S.OnCourse sk k (W.also (effects o)) evs (log ++ effects o) e' := by
  have hfires := applyRule_fires hrule
  rcases h.follows with hp | hclosed
  swap
  · have htrace : Trace anyEvent e [] ([] ++ effects o) e' := Trace.init.internal hfires.internal
    exact h.closed hclosed htrace
  have hsound := hp.sound.fires hfires
  rcases applyRule_cases hrule with hr | hr | hr | hr | hr | hr | hr | hr
  · rcases tryCommit_cases hr with ⟨r, pm, hpm, hquorum, hvalid, hcommit⟩
    exact hp.commit h hpm hquorum hvalid hcommit
  · -- all votes on file are of round 0, so there is no round to skip to
    rcases trySkip_cases hr with ⟨r, hlater, hvoters, _⟩
    rcases Finset.card_pos.mp (Nat.lt_of_le_of_lt (Nat.zero_le _) hvoters) with ⟨id, hid⟩
    have hzero : r = 0 := by
      rcases Finset.mem_union.mp hid with hmem | hmem
      · rcases Finmap.mem_iff.mp (Finmap.mem_keys.mp hmem) with ⟨vm, hvm⟩
        exact (hp.stored .prevote hvm).2.1
      · rcases Finmap.mem_iff.mp (Finmap.mem_keys.mp hmem) with ⟨vm, hvm⟩
        exact (hp.stored .precommit hvm).2.1
    have hlt : e.round < r := (Finset.mem_filter.mp hlater).2
    rw [hp.stage.round, hzero] at hlt
    exact absurd hlt (UInt64.lt_irrefl _)
  · rcases tryPrevoteOnProposal_pick hr with ⟨hstep, pm, hpm, hvr, heq⟩
    have hvalid := hp.valid h.coherent hpm
    have hlock := hp.stage.unlocked hstep
    rcases heq hvalid hlock with ⟨rfl, rfl⟩
    have hi : Internal ord e [.broadcast (.vote (e.ownVote .prevote (some pm.value.id)))]
        (e.castPrevote (some pm.value.id)) :=
      Internal.prevote hstep (PrevoteGuard.fresh pm hpm hvr hvalid (Or.inl hlock))
    refine hp.cast h hpm hi hsound rfl rfl rfl ⟨hp.stage.round, ?_, ?_, ?_, ?_⟩
    · intro hbad
      cases hbad
    · intro _
      exact ⟨_, List.mem_append_right _ (mem_effects.mpr List.mem_cons_self), hp.height, rfl⟩
    · intro hbad
      cases hbad
    · intro happlied
      have hbad := hp.stage.applied happlied
      rw [hstep] at hbad
      cases hbad
  · rcases tryPrevoteOnReproposal_pick hr with ⟨pm, hpm, hvr⟩
    exact absurd (hp.opening h.coherent hpm).2.2.validRound hvr
  · unfold trySchedulePrevoteTimeout at hr
    split at hr
    · have heq := Option.some.inj hr
      rw [Prod.mk.injEq] at heq
      rcases heq with ⟨rfl, rfl⟩
      exact h.idles hp hsound rfl rfl rfl rfl rfl rfl rfl Or.inl hp.desk.pool rfl Or.inl
        (by simp [effects])
    · cases hr
  · rcases tryPrecommitOnPolka_pick hr with
      ⟨pm, hpm, ⟨hstep, rfl, rfl, hi⟩ | ⟨hstep, rfl, rfl⟩⟩
    · refine hp.cast h hpm hi hsound rfl rfl rfl ⟨hp.stage.round, ?_, ?_, ?_, fun _ => rfl⟩
      · intro hbad
        cases hbad
      · intro _
        rcases hp.stage.prevoted (by simp [hstep]) with ⟨vm, hvm, hrest⟩
        exact ⟨vm, List.mem_append_left _ hvm, hrest⟩
      · intro _
        exact ⟨_, List.mem_append_right _ (mem_effects.mpr List.mem_cons_self), hp.height, rfl⟩
    · exact h.idles hp hsound rfl rfl rfl rfl rfl rfl rfl (fun _ => Or.inr hstep) hp.desk.pool rfl
        Or.inl (by simp)
  · -- no vote for nil is on file
    unfold tryPrecommitNil at hr
    split at hr
    · next hcond =>
        have hpos : 0 < e.countPrevotes e.round .nil :=
          Nat.lt_of_lt_of_le e.currentSet.threshold_pos hcond.2
        unfold countPrevotes at hpos
        rw [VoteStore.count_eq, KeyMap.countValues_eq_card] at hpos
        rcases Finset.card_pos.mp hpos with ⟨id, hid⟩
        rcases KeyMap.mem_keysWith.mp hid with ⟨vm, hvm, hnil⟩
        rcases (hp.stored .prevote hvm).2.2.2.2.2 with ⟨_, pm, _, _, hblock⟩
        rw [hblock] at hnil
        cases hnil
    · cases hr
  · unfold trySchedulePrecommitTimeout at hr
    split at hr
    · have heq := Option.some.inj hr
      rw [Prod.mk.injEq] at heq
      rcases heq with ⟨rfl, rfl⟩
      exact h.idles hp hsound rfl rfl rfl rfl rfl rfl rfl Or.inl hp.desk.pool rfl Or.inl
        (by simp [effects])
    · cases hr

/-- An engine that stops being parked. When it is its turn to propose, then it
has something to propose, or has proposed. -/
theorem OnCourse.wakes {evs' : List (Event C)} {o : List (Effect C)}
    (h : S.OnCourse sk k W evs log e) (e₁ : Engine C) (hplace : e₁.position = S.place sk k)
    (hfresh : e₁.validValue = none) (hfiles : S.Files W log e₁) (hstage : S.Stage log e₁)
    (hpool : ∀ a ∈ e₁.mempool, a.verify = true) (hparked : e₁.parked = true)
    (hwake : enterPropose { e₁ with parked := false } e₁.round = .ok (e', o))
    (hsound : e'.Sound)
    (hreason : S.leader = some k → e₁.getValue.attestations ≠ [] ∨ e₁.getValue.governance ≠ [] ∨
      ∃ pm, .effect (.broadcast (.proposal pm)) ∈ log ∧ pm.height = S.height) :
    S.OnCourse sk k (W.also (effects o)) evs' (log ++ effects o) e' := by
  have hi : Internal sampleOrder e₁ o e' := Internal.wake hparked hwake
  have hheight : e₁.height = S.height := congrArg Position.height hplace
  have hvalue : e₁.proposalValue = (e₁.getValue, none) := by
    unfold proposalValue
    rw [hfresh]
  have hzero : e₁.proposer e₁.round = .ok e₁.mePk ↔ S.leader = some k := by
    have hme : e₁.mePk = k := congrArg Position.mePk hplace
    rw [hstage.round, hme]
    exact proposer_zero hplace
  -- no vote is cast
  have hmute : ∀ vm, .broadcast (.vote vm) ∉ o := by
    intro vm hvm
    rcases wake_frame hwake with ⟨_, _, ⟨_, rfl⟩ | ⟨_, _, _, rfl⟩⟩
    · simp at hvm
    · simp at hvm
  have hproposes : ∀ {pm}, .broadcast (.proposal pm) ∈ o →
      S.Opening pm ∧ S.leader = some k ∧ pm.proposer = k ∧ pm.verifySig = true := by
    intro pm hpm
    rcases wake_frame hwake with ⟨_, _, ⟨_, rfl⟩ | ⟨hmine, hne, _, rfl⟩⟩
    · simp at hpm
    · obtain rfl : pm = e₁.ownProposal e₁.round := by simpa using hpm
      rw [hvalue] at hne
      have hset : e₁.registry.activeSet e₁.height = .ok e₁.currentSet := by
        have hregistry : e₁.registry = S.registry := congrArg Position.registry hplace
        have hcurrent : e₁.currentSet = S.set := congrArg Position.currentSet hplace
        rw [hregistry, hheight, hcurrent]
        exact S.set_eq
      have hvalid := (getValue_isValid_iff hset hne).mpr
        (fun a ha => hpool a (List.mem_of_mem_take ha)) e₁ ⟨rfl, rfl, rfl, hset⟩
      have hown : (e₁.ownProposal e₁.round).value = e₁.getValue := congrArg Prod.fst hvalue
      have hplaced : S.Opening (e₁.ownProposal e₁.round) := by
        refine ⟨hheight, hstage.round, congrArg Prod.snd hvalue, ?_⟩
        have htip : e₁.tip = S.tip := congrArg Position.tip hplace
        have hcurrent : e₁.currentSet = S.set := congrArg Position.currentSet hplace
        rw [hown, ← htip, ← hheight, ← hcurrent]
        exact hvalid
      have hsk : e₁.meSk = sk := congrArg Position.meSk hplace
      have hme : e₁.mePk = k := congrArg Position.mePk hplace
      have hkeys : C.Matching e₁.meSk e₁.mePk := by
        rw [hsk, hme]
        exact h.keys
      exact ⟨hplaced, hzero.mp hmine, hme, hkeys _ _⟩
  have hgrows : Grows e₁ e' := by
    refine hi.grows_or_rolls.resolve_right fun hlt => ?_
    rcases wake_frame hwake with ⟨_, rfl, _⟩
    exact absurd hlt (UInt64.lt_irrefl _)
  apply h.next
  · apply h.words.append
    · intro pm hpm _
      exact hproposes (mem_effects.mp hpm)
    · intro vm hvm _
      exact absurd (cast_effects.mp hvm) (hmute vm)
  · have hfiles' : S.Files (W.also (effects o)) (log ++ effects o) e' :=
      hfiles.internal hi hgrows fun vm hvm => absurd hvm (hmute vm)
    have hstage' : S.Stage log e' := by
      rcases wake_frame hwake with ⟨_, rfl, _⟩
      exact hstage.keep rfl rfl rfl Or.inl
    left
    rcases wake_frame hwake with ⟨proposals, rfl, hout⟩
    refine ⟨hplace, hsound, hfiles', hstage'.also, hpool, fun _ => rfl, ?_⟩
    intro hleads _
    -- with something to propose, the leader does
    have hmade : (e₁.getValue.attestations ≠ [] ∨ e₁.getValue.governance ≠ []) →
        ∃ pm, .effect (.broadcast (.proposal pm)) ∈ log ++ effects o ∧ pm.height = S.height := by
      intro hne
      have hne' : e₁.proposalValue.1.attestations ≠ [] ∨ e₁.proposalValue.1.governance ≠ [] := by
        rw [hvalue]
        exact hne
      have hforced := enterPropose_mine (e := { e₁ with parked := false }) (hzero.mpr hleads) hne'
      rw [hwake] at hforced
      have hsaid := congrArg Prod.snd (Except.ok.inj hforced)
      refine ⟨e₁.ownProposal e₁.round, List.mem_append_right _ (mem_effects.mpr ?_), hheight⟩
      rw [show o = _ from hsaid]
      exact List.mem_cons_self
    rcases hreason hleads with hatt | hgov | ⟨pm, hpm, hheight'⟩
    · exact hmade (Or.inl hatt)
    · exact hmade (Or.inr hgov)
    · exact ⟨pm, List.mem_append_left _ hpm, hheight'⟩

/-- A message of the height. -/
theorem Present.ingest {msg : ConsensusMsg C} {e₁ : Engine C} (h : S.OnCourse sk k W evs log e)
    (hp : S.Present sk k W evs log e) (hsaid : W msg) (hingest : e.ingest msg = .ok e₁) :
    S.Files W log e₁ ∧ S.Stage log e₁ := by
  have hent : Enter (.message msg) e [] e₁ := Enter.message hingest
  have hgrows := hp.files.grows (Grows.of_ingest hingest)
  refine ⟨⟨?_, ?_, hgrows.1, hgrows.2⟩, ?_⟩
  · apply hp.files.stores.ingest hingest
    rintro vm rfl hacc
    exact ⟨hsaid, h.coherent.backs hsaid (hacc.1.trans hp.height)⟩
  · intro r pm hpm
    rcases hent.stored hpm with ⟨_, hold⟩ | ⟨_, hbad⟩ | ⟨_, heq, _⟩
    · exact hp.files.proposals hold
    · cases hbad
    · rw [← Event.message.inj heq]
      exact hsaid
  · rcases ingest_frame hingest with ⟨_, _, _, rfl⟩
    exact hp.stage.keep rfl rfl rfl Or.inl

/-- What precedes the rules. -/
theorem OnCourse.opens {ev : Event C} {go : Bool} (h : S.OnCourse sk k W evs log e)
    (hplain : ev.plain = true) (hcalm : S.Calm W ev) (ho : e.Opens ev e' out go) :
    S.OnCourse sk k (W.also out) (evs ++ [ev]) (log ++ out) e' := by
  rcases h.follows with hp | hclosed
  swap
  · have hsteps : ∃ e₁ o₁ o₂, Enter ev e o₁ e₁ ∧ Internals sampleOrder e₁ o₂ e' ∧
        out = o₁ ++ effects o₂ := ho.steps
    rcases hsteps with ⟨e₁, o₁, o₂, hent, hints, rfl⟩
    have htrace : Trace anyEvent e _ ([] ++ o₁ ++ effects o₂) e' :=
      (Trace.init.enter trivial hent).internals hints
    exact h.closed hclosed htrace
  have hsound := hp.sound.opens hplain ho
  have hother : ∀ {att}, (∀ a, ev ≠ .attestation a) → .attestation att ∈ evs ++ [ev] →
      .attestation att ∈ evs ∨ e.parked = false := by
    intro att hev hatt
    rcases List.mem_append.mp hatt with hold | hnew
    · exact Or.inl hold
    · exact absurd (List.mem_singleton.mp hnew).symm (hev att)
  cases ho with
  | round hev => rcases hev with rfl | rfl <;> cases hplain
  | @message msg e₁ _ o hingest hwake =>
      by_cases hheight : msg.height = S.height
      · have hing := hp.ingest h (hcalm hheight) hingest
        rcases ingest_frame hingest with ⟨proposals, prevotes, precommits, rfl⟩
        unfold wakeFor at hwake
        split at hwake
        · next hcond =>
            rw [Bool.and_eq_true, Bool.and_eq_true] at hcond
            unfold unpark at hwake
            rw [if_pos hcond.1.1] at hwake
            refine h.wakes { e with proposals, prevotes, precommits } hp.place
              (hp.sound.asleep hcond.1.1) hing.1 hing.2 hp.desk.pool hcond.1.1 hwake hsound ?_
            -- the proposal that is on file is one of the leader's
            intro hleads
            rcases Option.isSome_iff_exists.mp hcond.2 with ⟨pm, hpm⟩
            have hsaid := hing.1.proposals hpm
            have hfiled := (hp.sound.filed.enter (Enter.message hingest)) _ pm hpm
            have hheight' : pm.height = S.height := hfiled.1.trans hp.height
            exact Or.inr (Or.inr ⟨pm, h.mine hleads hsaid hheight', hheight'⟩)
        · rcases Exec.ok_pair hwake with ⟨rfl, rfl⟩
          exact h.stays hp hp.place hsound hing.1 hing.2 hp.desk.pool rfl
            (hother (by simp)) (by simp)
      · -- of another height: neither filed nor a reason to wake up
        have hne : msg.height ≠ e.height := fun heq => hheight (heq.trans hp.height)
        obtain rfl : e₁ = e :=
          Except.ok.inj (hingest.symm.trans (absorbed_of_height_ne hne))
        have hno : e₁.mayWake msg = false := by
          cases msg with
          | proposal pm => exact decide_eq_false hne
          | vote vm => rfl
        rw [hno] at hwake
        unfold wakeFor at hwake
        rw [Bool.and_false, Bool.false_and, if_neg Bool.false_ne_true] at hwake
        rcases Exec.ok_pair hwake with ⟨rfl, rfl⟩
        exact h.idles hp hsound rfl rfl rfl rfl rfl rfl rfl Or.inl hp.desk.pool rfl
          (hother (by simp)) (by simp)
  | timer => exact absurd hp.height hcalm
  | lateTimer =>
      exact h.idles hp hsound rfl rfl rfl rfl rfl rfl rfl Or.inl hp.desk.pool rfl
        (hother (by simp)) (by simp)
  | @woken _ pool gov _ o hqueues hparked hunpark =>
      have hpool : ∀ a ∈ pool, a.verify = true := by
        cases hqueues with
        | attestation att =>
            intro a ha
            rcases List.mem_append.mp ha with hold | hnew
            · exact hp.desk.pool a hold
            · rw [List.mem_singleton.mp hnew]
              exact hcalm
        | governance => exact hp.desk.pool
      unfold unpark at hunpark
      rw [if_pos hparked] at hunpark
      refine h.wakes { e with mempool := pool, govMempool := gov } hp.place
        (hp.sound.asleep hparked) (hp.files.keep rfl rfl rfl rfl)
        (hp.stage.keep rfl rfl rfl Or.inl) hpool hparked hunpark hsound fun _ => ?_
      cases hqueues with
      | attestation att =>
          left
          show (e.mempool ++ [att]).take maxTxs ≠ []
          simp [maxTxs]
      | @governance change haccepts =>
          right
          left
          unfold acceptsGovernance at haccepts
          rw [Bool.and_eq_true, Bool.and_eq_true] at haccepts
          apply List.ne_nil_of_mem (a := change)
          apply List.mem_filter.mpr
          refine ⟨List.mem_append_right _ List.mem_cons_self, ?_⟩
          rw [Bool.and_eq_true]
          exact haccepts.1
  | @queued _ pool gov hqueues hparked =>
      refine h.idles hp hsound rfl rfl rfl rfl rfl rfl rfl Or.inl ?_ rfl (fun _ => Or.inr hparked)
        (by simp)
      cases hqueues with
      | attestation att =>
          intro a ha
          rcases List.mem_append.mp ha with hold | hnew
          · exact hp.desk.pool a hold
          · rw [List.mem_singleton.mp hnew]
            exact hcalm
      | governance => exact hp.desk.pool
  | refused hev =>
      refine h.idles hp hsound rfl rfl rfl rfl rfl rfl rfl Or.inl hp.desk.pool rfl (hother ?_)
        (by simp)
      rcases hev with ⟨_, rfl, _⟩ | ⟨_, _, rfl, _⟩
      · simp
      · simp
  | synced => cases hplain
  | setTime now =>
      exact h.idles hp hsound rfl rfl rfl rfl rfl rfl rfl Or.inl hp.desk.pool rfl
        (hother (by simp)) (by simp)

/-- A call of a handler. -/
theorem OnCourse.handle {ev : Event C} (h : S.OnCourse sk k W evs log e)
    (hplain : ev.plain = true) (hcalm : S.Calm W ev) (hstep : e.handle ord ev = .ok (e', out)) :
    S.OnCourse sk k (W.also out) (evs ++ [ev]) (log ++ out) e' := by
  apply handle_rule_induction
    (P := fun o e' => S.OnCourse sk k (W.also o) (evs ++ [ev]) (log ++ o) e') hstep
  · intro o e₁ go ho
    exact h.opens hplain hcalm ho
  · intro o e₁ o' e₂ hcourse hrule
    have hnext := hcourse.rule hrule
    have hword : (W.also o).also (effects o') = W.also (o ++ effects o') := by
      funext msg
      simp [Word.also, or_assoc]
    rw [hword, List.append_assoc] at hnext
    exact hnext

end Setting

end SmartLedger
