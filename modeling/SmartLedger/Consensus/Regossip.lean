import SmartLedger.Consensus.Backing
import SmartLedger.Consensus.Network
import SmartLedger.Consensus.Statements

/-! # What is re-broadcast

`regossip` reads the engine's own messages of the current round out of its
stores, where the messages of others are put as well. The stores hold them by
the id of the voter, and whoever hands a message in decides what it says, as
far as the signature does not. A signature fixes everything that is
re-broadcast, but for a precommit for a block: it does not fix the round. So
what is re-broadcast was said before (`regossip_repeats`) as long as no
precommit of the engine's own is handed in under a round of its choice.
-/

namespace SmartLedger

open Engine

variable {C : Crypto} {ord : IterOrder} {e e' : Engine C} {log : List (Output C)}

/-! ## Where a stored vote comes from -/

/-- What an `offer` adds, it adds where nothing was. -/
theorem VoteStore.lookup_offer_new {s : VoteStore C} {r r' : UInt64} {id k : Hash}
    {vm vm' : VoteMsg C} (h : ((s.offer r id vm).ofRound r').lookup k = some vm') :
    (r' = r ∧ k = id ∧ vm' = vm ∧ (s.ofRound r').lookup k = none) ∨
      (s.ofRound r').lookup k = some vm' := by
  rw [ofRound_offer] at h
  by_cases hr : r' = r
  · subst hr
    rw [if_pos rfl] at h
    rcases KeyMap.lookup_orInsert_cases h with hold | ⟨rfl, rfl, hnone⟩
    · exact Or.inr hold
    · exact Or.inl ⟨rfl, rfl, rfl, hnone⟩
  · rw [if_neg hr] at h
    exact Or.inr h

namespace Engine

/-- The votes of one type. -/
def votesOf (e : Engine C) : VoteType → VoteStore C
  | .prevote => e.prevotes
  | .precommit => e.precommits

variable {t : VoteType} {r : UInt64} {k : Hash} {vm : VoteMsg C}

/-- A stored vote was stored before, or was just cast. -/
theorem Internal.vote_stored {out : List (Effect C)} (h : Internal ord e out e')
    (hvm : ((e'.votesOf t).ofRound r).lookup k = some vm) :
    (SameHeight e e' ∧ e.round ≤ e'.round ∧ ((e.votesOf t).ofRound r).lookup k = some vm) ∨
      (.broadcast (.vote vm) ∈ out ∧ vm.voter = e'.mePk) := by
  have hle : e.round ≤ e.round := UInt64.le_refl _
  cases h with
  | prevote =>
      cases t with
      | prevote =>
          -- our own vote is put where the round is, all else was there
          rcases VoteStore.lookup_put_cases hvm with ⟨_, _, rfl⟩ | hold
          · exact Or.inr ⟨List.mem_cons_self, rfl⟩
          · exact Or.inl ⟨rfl, hle, hold⟩
      | precommit => exact Or.inl ⟨rfl, hle, hvm⟩
  | schedulePrevote => cases t <;> exact Or.inl ⟨rfl, hle, hvm⟩
  | polka =>
      cases t with
      | prevote => exact Or.inl ⟨rfl, hle, hvm⟩
      | precommit =>
          rcases VoteStore.lookup_put_cases hvm with ⟨_, _, rfl⟩ | hold
          · exact Or.inr ⟨List.mem_cons_self, rfl⟩
          · exact Or.inl ⟨rfl, hle, hold⟩
  | latePolka => cases t <;> exact Or.inl ⟨rfl, hle, hvm⟩
  | precommitNil =>
      cases t with
      | prevote => exact Or.inl ⟨rfl, hle, hvm⟩
      | precommit =>
          rcases VoteStore.lookup_put_cases hvm with ⟨_, _, rfl⟩ | hold
          · exact Or.inr ⟨List.mem_cons_self, rfl⟩
          · exact Or.inl ⟨rfl, hle, hold⟩
  | schedulePrecommit => cases t <;> exact Or.inl ⟨rfl, hle, hvm⟩
  | jump hlt hstart =>
      rcases startRound_frame hstart with ⟨_, _, rfl, _⟩
      cases t <;> exact Or.inl ⟨rfl, UInt64.le_of_lt hlt, hvm⟩
  | wake _ hwake =>
      rcases wake_frame hwake with ⟨_, rfl, _⟩
      cases t <;> exact Or.inl ⟨rfl, hle, hvm⟩
  | commit _ _ _ hcommit =>
      rcases commit_cases hcommit with ⟨_, _, _, _, _, hstart, _⟩
      rcases startRound_frame hstart with ⟨_, _, rfl, _⟩
      cases t <;> simp [votesOf, rolled, clearHeight] at hvm

/-- A stored vote was stored before, or was just handed in. -/
theorem Enter.vote_stored {ev : Event C} {out : List (Output C)} (hplain : ev.plain = true)
    (h : Enter ev e out e') (hvm : ((e'.votesOf t).ofRound r).lookup k = some vm) :
    ((e.votesOf t).ofRound r).lookup k = some vm ∨
      (ev = .message (.vote vm) ∧ vm.voteType = t ∧ vm.round = r ∧ vm.voter.id = k ∧
        e.AcceptsVote vm ∧ ((e.votesOf t).ofRound r).lookup k = none) := by
  cases h with
  | start => cases hplain
  | message hi =>
      cases ingest_cases hi with
      | ignored => exact Or.inl hvm
      | proposal => cases t <;> exact Or.inl hvm
      | prevote hacc htype =>
          cases t with
          | prevote =>
              -- a vote that is handed in only fills a free slot
              rcases VoteStore.lookup_offer_new hvm with ⟨rfl, rfl, rfl, hnone⟩ | hold
              · exact Or.inr ⟨rfl, htype, rfl, rfl, hacc, hnone⟩
              · exact Or.inl hold
          | precommit => exact Or.inl hvm
      | precommit hacc htype =>
          cases t with
          | prevote => exact Or.inl hvm
          | precommit =>
              rcases VoteStore.lookup_offer_new hvm with ⟨rfl, rfl, rfl, hnone⟩ | hold
              · exact Or.inr ⟨rfl, htype, rfl, rfl, hacc, hnone⟩
              · exact Or.inl hold
  | timeout => exact Or.inl hvm
  | attestation => cases t <;> exact Or.inl hvm
  | governance => cases t <;> exact Or.inl hvm
  | refused => exact Or.inl hvm
  | synced => cases hplain
  | rejected => cases hplain
  | resume => cases hplain
  | setTime => cases t <;> exact Or.inl hvm

end Engine

/-! ## Own words -/

/-- What a message says, whoever signed it. -/
def ConsensusMsg.statement : ConsensusMsg C → Statement C
  | .proposal pm => .proposal pm.height pm.round pm.value.id pm.validRound
  | .vote vm => .vote vm.height vm.round vm.voteType vm.blockId

/-- The engine has said this before: the same height and round, the same value
with the same valid round, or the same vote. -/
def Said (log : List (Output C)) (msg : ConsensusMsg C) : Prop :=
  ∃ msg', .effect (.broadcast msg') ∈ log ∧ msg'.signer = msg.signer ∧
    msg'.statement = msg.statement

theorem Said.append {msg : ConsensusMsg C} (h : Said log msg) (out : List (Output C)) :
    Said (log ++ out) msg := by
  rcases h with ⟨msg', hmem, hsame⟩
  exact ⟨msg', List.mem_append_left _ hmem, hsame⟩

theorem Said.of_mem {msg : ConsensusMsg C} (h : .effect (.broadcast msg) ∈ log) : Said log msg :=
  ⟨msg, h, rfl, rfl⟩

/-- Nobody forges the engine's signature: what comes in under its key and
verifies has a payload that it signed. -/
def ownWords (log : List (Output C)) (e : Engine C) : Event C → Prop
  | .message msg => msg.signer = e.mePk → msg.verifySig = true →
      msg.payload ∈ signedPayloads log
  | _ => True

/-- A precommit for a block under the engine's key (or under one with the same
id), for the current height and a round not yet left in which the engine holds
no precommit of its own, although it cast none such. -/
def Relabelled (log : List (Output C)) (e : Engine C) (vm : VoteMsg C) : Prop :=
  vm.height = e.height ∧ vm.voter.id = e.mePk.id ∧ vm.voteType = .precommit ∧
    vm.blockId ≠ none ∧ e.round ≤ vm.round ∧
    (e.precommits.ofRound vm.round).lookup e.mePk.id = none ∧ ¬ Said log (.vote vm)

/-- The votes that come in are nobody's under a key with the engine's id, and
its own precommits only for the rounds they were cast in. -/
def ownRounds (log : List (Output C)) (e : Engine C) : Event C → Prop
  | .message (.vote vm) => (vm.voter.id = e.mePk.id → vm.voter = e.mePk) ∧ ¬ Relabelled log e vm
  | _ => True

/-- A signature says all that a message says, but for a precommit for a
block. -/
theorem Said.of_payload {msg : ConsensusMsg C}
    (hsigner : ∀ msg', .effect (.broadcast msg') ∈ log → msg'.signer = msg.signer)
    (hsigned : msg.payload ∈ signedPayloads log)
    (hfull : ∀ vm, msg = .vote vm → vm.voteType = .precommit → vm.blockId = none) :
    Said log msg := by
  rcases mem_signedPayloads hsigned with ⟨msg', hmem, hpayload⟩
  refine ⟨msg', hmem, hsigner msg' hmem, ?_⟩
  cases msg with
  | proposal pm =>
      rcases payload_eq_proposal hpayload with ⟨pm', rfl, _⟩
      have hbytes := proposalSigningBytes_inj (congrArg Prod.fst hpayload)
      show Statement.proposal _ _ _ _ = Statement.proposal _ _ _ _
      rw [hbytes.1, hbytes.2.1, hbytes.2.2.1, hbytes.2.2.2]
  | vote vm =>
      -- other than a precommit for a block, a vote signs its own fields
      have hbody : ConsensusMsg.payload (.vote vm) =
          (voteSigningBytes vm.height vm.round vm.voteType vm.blockId, Context.vote) := by
        show votePayload _ _ _ _ = _
        unfold votePayload
        split
        · next id htype hid =>
            rw [hfull vm rfl htype] at hid
            cases hid
        · rfl
      rw [hbody] at hpayload
      rcases payload_eq_vote hpayload with ⟨vm', rfl, hheight, hround, htype, hid⟩
      show Statement.vote _ _ _ _ = Statement.vote _ _ _ _
      rw [hheight, hround, htype, hid]

theorem Engine.startRound_signer {r : UInt64} {out : List (Effect C)} {msg : ConsensusMsg C}
    (h : e.startRound r = .ok (e', out)) (hmem : .broadcast msg ∈ out) : msg.signer = e'.mePk := by
  rcases startRound_frame h with ⟨_, _, rfl, ⟨_, rfl | rfl⟩ | ⟨_, _, _, rfl⟩⟩
  · cases hmem
  · cases List.mem_singleton.mp hmem
  · obtain rfl : msg = .proposal (e.ownProposal r) := by simpa using hmem
    rfl

/-- An engine sends under its key. -/
theorem Engine.Internal.signer {out : List (Effect C)} {msg : ConsensusMsg C}
    (h : Internal ord e out e') (hmem : .broadcast msg ∈ out) : msg.signer = e'.mePk := by
  cases h with
  | prevote =>
      obtain rfl : msg = _ := by simpa using hmem
      rfl
  | schedulePrevote => cases List.mem_singleton.mp hmem
  | polka =>
      obtain rfl : msg = _ := by simpa using hmem
      rfl
  | latePolka => cases hmem
  | precommitNil =>
      obtain rfl : msg = _ := by simpa using hmem
      rfl
  | schedulePrecommit => cases List.mem_singleton.mp hmem
  | jump _ hstart => exact startRound_signer hstart hmem
  | wake _ hwake =>
      rcases wake_frame hwake with ⟨_, rfl, ⟨_, rfl⟩ | ⟨_, _, _, rfl⟩⟩
      · cases List.mem_singleton.mp hmem
      -- woken up, it proposes under its key
      · obtain rfl : msg = .proposal (e.ownProposal e.round) := by simpa using hmem
        rfl
  | commit _ _ _ hcommit =>
      rcases commit_cases hcommit with ⟨_, _, out', _, _, hstart, rfl⟩
      rcases List.mem_cons.mp hmem with hbad | hmem
      · cases hbad
      · exact startRound_signer hstart hmem

/-- What the stores hold under the engine's key, the engine has said; of the
votes, in the rounds it has not left. -/
structure Repeatable (log : List (Output C)) (e : Engine C) : Prop where
  signer : ∀ msg, .effect (.broadcast msg) ∈ log → msg.signer = e.mePk
  proposal : ∀ r pm, e.proposals.lookup r = some pm → pm.proposer = e.mePk →
    Said log (.proposal pm)
  vote : ∀ t r vm, e.round ≤ r → ((e.votesOf t).ofRound r).lookup e.mePk.id = some vm →
    vm.voter = e.mePk ∧ Said log (.vote vm)

namespace Repeatable

/-- Entering round 0 of a fresh height. -/
theorem fresh {out : List (Effect C)} (hfresh : FreshAt e)
    (hsigner : ∀ msg, .effect (.broadcast msg) ∈ log → msg.signer = e.mePk)
    (h : e.startRound 0 = .ok (e', out)) : Repeatable (log ++ effects out) e' := by
  constructor
  · intro msg hmem
    rcases List.mem_append.mp hmem with hold | hnew
    · rw [(startRound_sameHeight h).1.mePk]
      exact hsigner msg hold
    · exact startRound_signer h (mem_effects.mp hnew)
  · intro r pm hpm _
    rcases startRound_stored h hpm with hold | ⟨_, hmem⟩
    · rw [hfresh.proposals] at hold
      simp at hold
    · exact Said.of_mem (List.mem_append_right _ (mem_effects.mpr hmem))
  · intro t r vm _ hvm
    rcases startRound_frame h with ⟨_, _, rfl, _⟩
    cases t <;> simp [votesOf, hfresh.prevotes, hfresh.precommits] at hvm

theorem internal {out : List (Effect C)} (h : Repeatable log e) (hi : Internal ord e out e') :
    Repeatable (log ++ effects out) e' := by
  constructor
  · intro msg hmem
    rcases List.mem_append.mp hmem with hold | hnew
    · rw [hi.keys.2]
      exact h.signer msg hold
    · exact hi.signer (mem_effects.mp hnew)
  · intro r pm hpm hkey
    rcases hi.stored hpm with ⟨hsame, hold⟩ | ⟨_, hmem⟩
    · rw [hsame.mePk] at hkey
      exact (h.proposal r pm hold hkey).append _
    · exact Said.of_mem (List.mem_append_right _ (mem_effects.mpr hmem))
  · intro t r vm hle hvm
    rcases hi.vote_stored hvm with ⟨hsame, hround, hold⟩ | ⟨hmem, hkey⟩
    · rw [hsame.mePk] at hold ⊢
      exact (h.vote t r vm (UInt64.le_trans hround hle) hold).imp_right fun hs => hs.append _
    · exact ⟨hkey, Said.of_mem (List.mem_append_right _ (mem_effects.mpr hmem))⟩

theorem enter {ev : Event C} {out : List (Output C)} (h : Repeatable log e)
    (hplain : ev.plain = true) (hown : ownWords log e ev) (hrounds : ownRounds log e ev)
    (hent : Enter ev e out e') : Repeatable (log ++ out) e' := by
  have hkeys := hent.keys.2
  have hround : e'.round = e.round ∧ out = [] := by
    cases hent with
    | start => cases hplain
    | message hi =>
        rcases ingest_frame hi with ⟨_, _, _, rfl⟩
        exact ⟨rfl, rfl⟩
    | timeout => exact ⟨rfl, rfl⟩
    | attestation => exact ⟨rfl, rfl⟩
    | governance => exact ⟨rfl, rfl⟩
    | refused => exact ⟨rfl, rfl⟩
    | synced => cases hplain
    | rejected => cases hplain
    | resume => cases hplain
    | setTime => exact ⟨rfl, rfl⟩
  rcases hround with ⟨hround, rfl⟩
  rw [List.append_nil]
  constructor
  · rw [hkeys]
    exact h.signer
  · intro r pm hpm hkey
    rw [hkeys] at hkey
    rcases hent.stored hpm with ⟨_, hold⟩ | ⟨_, hbad⟩ | ⟨_, rfl, _, hacc⟩
    · exact h.proposal r pm hold hkey
    · cases hbad
    · -- a proposal under our key repeats one of ours
      refine Said.of_payload ?_ (hown hkey hacc.2.2) ?_
      · intro msg' hmem
        exact (h.signer msg' hmem).trans hkey.symm
      · intro vm hbad
        cases hbad
  · intro t r vm hle hvm
    rw [hround] at hle
    rw [hkeys] at hvm ⊢
    rcases hent.vote_stored hplain hvm with hold | ⟨rfl, htype, rfl, hid, hacc, hnone⟩
    · exact h.vote t r vm hle hold
    · have hkey := hrounds.1 hid
      refine ⟨hkey, ?_⟩
      by_contra hnot
      -- its signature leaves something open
      have hblock : vm.voteType = .precommit ∧ vm.blockId ≠ none := by
        by_contra hfull
        apply hnot
        refine Said.of_payload ?_ (hown hkey hacc.2.2) ?_
        · intro msg' hmem
          exact (h.signer msg' hmem).trans hkey.symm
        · rintro vm' ⟨⟩ hpre
          by_contra hne
          exact hfull ⟨hpre, hne⟩
      rw [← htype, hblock.1] at hnone
      exact hrounds.2 ⟨hacc.1, hid, hblock.1, hblock.2, hle, hnone, hnot⟩

end Repeatable

/-! ## Runs -/

/-- What a node may hand over: no forgeries, and no precommit of the engine's
own under another round. -/
def faithful (log : List (Output C)) (e : Engine C) (ev : Event C) : Prop :=
  ownWords log e ev ∧ ownRounds log e ev

theorem Repeatable.passes {e₀ : Engine C} {s : List (Output C) × Engine C} (hfresh : FreshAt e₀)
    (h : Passes faithful e₀ s) : Repeatable s.1 s.2 := by
  induction h with
  | @start now out e₁ h =>
      have hfirst : Repeatable ([] ++ effects out) e₁ := by
        refine Repeatable.fresh (hfresh.setTime now) ?_ h
        intro msg hmem
        cases hmem
      exact hfirst
  | step _ hstep ih =>
      cases hstep with
      | enter hplain hguard hent => exact ih.enter hplain hguard.1 hguard.2 hent
      | internal hi => exact ih.internal hi
      | catchUp hbs happlies hstart =>
          rw [← List.append_assoc]
          refine Repeatable.fresh (happlies.fresh hbs).1 ?_ hstart
          intro msg hmem
          rw [(happlies.fresh hbs).2.2]
          rcases List.mem_append.mp hmem with hold | hbad
          · exact ih.signer msg hold
          · simp at hbad

/-- What `regossip` returns is stored under the engine's own key. -/
theorem Engine.mem_regossip {x : Effect C} (h : x ∈ e.regossip) :
    (∃ pm, x = .broadcast (.proposal pm) ∧ e.proposals.lookup e.round = some pm ∧
      pm.proposer = e.mePk) ∨
    ∃ t vm, x = .broadcast (.vote vm) ∧
      ((e.votesOf t).ofRound e.round).lookup e.mePk.id = some vm := by
  unfold regossip at h
  split at h
  · cases h
  -- the proposal, the prevote and the precommit of the round
  rcases List.mem_append.mp h with h | hpre
  · rcases List.mem_append.mp h with hprop | hvote
    · left
      split at hprop
      · next pm hpm =>
          split at hprop
          · next hkey => exact ⟨pm, List.mem_singleton.mp hprop, hpm, hkey⟩
          · cases hprop
      · cases hprop
    · right
      split at hvote
      · next vm hvm => exact ⟨.prevote, vm, List.mem_singleton.mp hvote, hvm⟩
      · cases hvote
  · right
    split at hpre
    · next vm hvm => exact ⟨.precommit, vm, List.mem_singleton.mp hpre, hvm⟩
    · cases hpre

/-- What is re-broadcast was said before. In every run in which nobody forges
the engine's signature, whatever else is sent, replayed or altered, and in
which none of its precommits for a block is handed in under a round in which
it was not cast: all that `regossip` returns are messages under the engine's
key, and for each of them the engine has broadcast one with the same height,
round, value and valid round, or the same height, round, type and block. -/
theorem regossip_repeats {registry : ValidatorRegistry C} {meSk : C.SigningKey}
    {mePk : C.VerifyingKey} {tip : Hash} {startHeight : UInt64} {e₀ e : Engine C}
    {log : List (Output C)} (hnew : withRegistry registry meSk mePk tip startHeight = .ok e₀)
    (h : BootRun faithful e₀ log e) :
    ∀ x ∈ e.regossip, ∃ msg, x = .broadcast msg ∧ msg.signer = e.mePk ∧ Said log msg := by
  have hrep : Repeatable log e := Repeatable.passes (FreshAt.of_new hnew) h.passes
  intro x hx
  rcases mem_regossip hx with ⟨pm, rfl, hpm, hkey⟩ | ⟨t, vm, rfl, hvm⟩
  · exact ⟨.proposal pm, rfl, hkey, hrep.proposal _ pm hpm hkey⟩
  · rcases hrep.vote t _ vm (UInt64.le_refl _) hvm with ⟨hkey, hsaid⟩
    exact ⟨.vote vm, rfl, hkey, hsaid⟩

/-! ## A precommit under another round -/

section

variable {guard : List (Output C) → Engine C → Event C → Prop}
  [∀ log e ev, Decidable (guard log e ev)]

/-- Handle events one after the other while they meet the guard; with all that
was emitted, and whether the end was reached. -/
def Engine.handleGuarded (ord : IterOrder)
    (guard : List (Output C) → Engine C → Event C → Prop)
    [∀ log e ev, Decidable (guard log e ev)] (log : List (Output C)) (e : Engine C) :
    List (Event C) → Exec (Engine C × List (Output C) × Bool)
  | [] => .ok (e, log, true)
  | ev :: evs =>
      if ev.plain = true ∧ guard log e ev then do
        let (e', out) ← e.handle ord ev
        handleGuarded ord guard (log ++ out) e' evs
      else .ok (e, log, false)

theorem BootRun.of_handleGuarded {e₀ : Engine C} {evs : List (Event C)}
    {log' : List (Output C)} (h : BootRun guard e₀ log e)
    (hall : e.handleGuarded ord guard log evs = .ok (e', log', true)) :
    BootRun guard e₀ log' e' := by
  induction evs generalizing log e with
  | nil =>
      rcases Exec.ok_triple hall with ⟨rfl, rfl, _⟩
      exact h
  | cons ev evs ih =>
      unfold Engine.handleGuarded at hall
      split at hall
      · next hcond =>
          rw [Exec.bind_eq_ok] at hall
          rcases hall with ⟨⟨e₁, out⟩, hhandle, hrest⟩
          exact ih (h.step (BootStep.event hcond.1 hcond.2 hhandle)) hrest
      · cases (Exec.ok_triple hall).2.2

end

instance (log : List (Output C)) (e : Engine C) : (ev : Event C) → Decidable (ownWords log e ev)
  | .message msg => inferInstanceAs (Decidable (msg.signer = e.mePk → msg.verifySig = true →
      msg.payload ∈ signedPayloads log))
  | .start | .resume | .synced _ | .timeout _ _ _ | .attestation _ | .governance _ | .setTime _ =>
      inferInstanceAs (Decidable True)

/-- The messages an engine sent. -/
def messagesSent (log : List (Output C)) : List (ConsensusMsg C) :=
  log.filterMap fun
    | .effect (.broadcast msg) => some msg
    | _ => none

theorem mem_messagesSent {msg : ConsensusMsg C} :
    msg ∈ messagesSent log ↔ .effect (.broadcast msg) ∈ log := by
  unfold messagesSent
  rw [List.mem_filterMap]
  constructor
  · rintro ⟨o, ho, hmsg⟩
    split at hmsg
    · obtain rfl := Option.some.inj hmsg
      exact ho
    · cases hmsg
  · exact fun hmem => ⟨_, hmem, rfl⟩

instance (log : List (Output C)) (msg : ConsensusMsg C) : Decidable (Said log msg) :=
  decidable_of_iff (∃ msg' ∈ messagesSent log, msg'.signer = msg.signer ∧
    msg'.statement = msg.statement) (by simp only [mem_messagesSent, Said])

instance (log : List (Output C)) (e : Engine C) (vm : VoteMsg C) :
    Decidable (Relabelled log e vm) := by
  unfold Relabelled
  infer_instance

instance (log : List (Output C)) (e : Engine C) : (ev : Event C) → Decidable (ownRounds log e ev)
  | .message (.vote vm) => inferInstanceAs (Decidable ((vm.voter.id = e.mePk.id →
      vm.voter = e.mePk) ∧ ¬ Relabelled log e vm))
  | .message (.proposal _) | .start | .resume | .synced _ | .timeout _ _ _ | .attestation _
  | .governance _ | .setTime _ => inferInstanceAs (Decidable True)

instance (log : List (Output C)) (e : Engine C) (ev : Event C) : Decidable (faithful log e ev) := by
  unfold faithful
  infer_instance

/-- What becomes of validator 1 of four. -/
def guardedRun (guard : List (Output sample) → Engine sample → Event sample → Prop)
    [∀ log e ev, Decidable (guard log e ev)] (evs : List (Event sample)) :
    Exec (Engine sample × List (Output sample) × Bool) := do
  let e ← sampleEngine [1, 2, 3, 4] 1
  let (e, out) ← (e.setTime 5).handle sampleOrder .start
  e.handleGuarded sampleOrder guard out evs

theorem BootRun.of_guardedRun {guard : List (Output sample) → Engine sample → Event sample → Prop}
    [∀ log e ev, Decidable (guard log e ev)] {evs : List (Event sample)}
    {p : Engine sample × List (Output sample) → Bool}
    (h : (guardedRun guard evs).holds (fun r => r.2.2 && p (r.1, r.2.1)) = true) :
    ∃ e₀ e log, sampleEngine [1, 2, 3, 4] 1 = .ok e₀ ∧ BootRun guard e₀ log e ∧
      p (e, log) = true := by
  rcases Exec.holds_iff.mp h with ⟨⟨e, log, done⟩, hrun, hp⟩
  rw [Bool.and_eq_true] at hp
  obtain rfl : done = true := hp.1
  simp only [guardedRun, Exec.bind_eq_ok] at hrun
  rcases hrun with ⟨e₀, hnew, ⟨e₁, out⟩, hstart, hall⟩
  exact ⟨e₀, e, log, hnew, (BootRun.start hstart).of_handleGuarded hall, hp.2⟩

/-- Validator 1 precommits a block in round 0, and hears what comes late. -/
def afterPolka (late : List (Event sample)) : List (Event sample) :=
  [.message (sampleProposal 2 0 none valueA),
    .message (sampleVote 2 0 .prevote (some valueA.id)),
    .message (sampleVote 3 0 .prevote (some valueA.id))] ++ late

/-- In round 0 it repeats its prevote and its precommit. -/
theorem regossip_repeats_four :
    ∃ e₀ e log, sampleEngine [1, 2, 3, 4] 1 = .ok e₀ ∧ BootRun faithful e₀ log e ∧
      e.regossip.length = 2 ∧
      ∀ x ∈ e.regossip, ∃ msg, x = .broadcast msg ∧ msg.signer = e.mePk ∧ Said log msg := by
  have hholds : (guardedRun faithful (afterPolka [.message (sampleVote 1 0 .precommit
      (some valueA.id))])).holds (fun r => r.2.2 && decide (r.1.regossip.length = 2)) = true := by
    decide +kernel
  rcases BootRun.of_guardedRun (p := fun r => decide (r.1.regossip.length = 2)) hholds with
    ⟨e₀, e, log, hnew, hrun, hp⟩
  exact ⟨e₀, e, log, hnew, hrun, of_decide_eq_true hp, regossip_repeats hnew hrun⟩

/-- The precommit of round 0 under round 1. -/
def underRound1 : ConsensusMsg sample := sampleVote 1 1 .precommit (some valueA.id)

/-- Validator 1 repeats that, and has not said it. -/
def repeatsRelabelled (r : Engine sample × List (Output sample)) : Bool :=
  decide (.broadcast underRound1 ∈ r.1.regossip ∧ ¬ Said r.2 underRound1)

/-- Its precommit of round 0 comes back as one of round 1. Two precommits for
nil later it is there, and repeats it before it has voted. -/
theorem regossip_relabelled :
    ¬ ∀ (genesis : List UInt8) (me : UInt8) (e₀ e : Engine sample) (log : List (Output sample)),
      sampleEngine genesis me = .ok e₀ → BootRun ownWords e₀ log e →
        ∀ msg, .broadcast msg ∈ e.regossip → Said log msg := by
  intro hall
  have hholds : (guardedRun ownWords (afterPolka [.message underRound1,
      .message (sampleVote 2 0 .precommit none), .message (sampleVote 3 0 .precommit none),
      .timeout 1 0 .precommit])).holds (fun r => r.2.2 && repeatsRelabelled (r.1, r.2.1)) =
      true := by
    decide +kernel
  rcases BootRun.of_guardedRun hholds with ⟨e₀, e, log, hnew, hrun, hp⟩
  have hboth := of_decide_eq_true hp
  exact hboth.2 (hall _ _ e₀ e log hnew hrun _ hboth.1)

end SmartLedger
