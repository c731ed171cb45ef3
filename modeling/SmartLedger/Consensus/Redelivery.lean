import SmartLedger.Consensus.Rest
import SmartLedger.Consensus.Voting

/-! # A message that comes again

Peers re-gossip, so a message may come any number of times. What an engine
has absorbed stays absorbed for as long as it is at the height
(`Grows.absorbed`), a parked engine holds no proposal that a repeat could wake
it up for (`Unseen`), and between two calls it is at rest. So a repeat, or a
message for another height, does nothing at all (`redelivery_harmless`).
-/

namespace SmartLedger

variable {C : Crypto} {ord : IterOrder} {e e' : Engine C}

/-- The height a message is for. -/
def ConsensusMsg.height : ConsensusMsg C → UInt64
  | .proposal pm => pm.height
  | .vote vm => vm.height

namespace Engine

/-! ## What is stored stays stored -/

/-- `e'` is at the height of `e` and holds whatever `e` holds. -/
structure Grows (e e' : Engine C) : Prop where
  sameHeight : SameHeight e e'
  proposals : ∀ r, (e.proposals.lookup r).isSome → (e'.proposals.lookup r).isSome
  prevotes : ∀ r k, ((e.prevotes.ofRound r).lookup k).isSome →
    ((e'.prevotes.ofRound r).lookup k).isSome
  precommits : ∀ r k, ((e.precommits.ofRound r).lookup k).isSome →
    ((e'.precommits.ofRound r).lookup k).isSome

theorem isSome_orInsert {κ ν : Type} [DecidableEq κ] {m : KeyMap κ ν} {k k' : κ} {v : ν}
    (h : (m.lookup k').isSome) : ((KeyMap.orInsert m k v).lookup k').isSome := by
  rcases Option.isSome_iff_exists.mp h with ⟨w, hw⟩
  rw [KeyMap.lookup_orInsert_of_some hw]
  rfl

theorem isSome_put {s : VoteStore C} {r r' : UInt64} {id k : Hash} {vm : VoteMsg C}
    (h : ((s.ofRound r').lookup k).isSome) : (((s.put r id vm).ofRound r').lookup k).isSome := by
  rw [VoteStore.ofRound_put]
  split
  · next hr =>
      rw [← hr]
      by_cases hk : k = id
      · rw [hk, Finmap.lookup_insert]
        rfl
      · rwa [Finmap.lookup_insert_of_ne _ hk]
  · exact h

theorem isSome_offer {s : VoteStore C} {r r' : UInt64} {id k : Hash} {vm : VoteMsg C}
    (h : ((s.ofRound r').lookup k).isSome) : (((s.offer r id vm).ofRound r').lookup k).isSome := by
  rw [VoteStore.ofRound_offer]
  split
  · next hr =>
      rw [← hr]
      exact isSome_orInsert h
  · exact h

namespace Grows

theorem refl (e : Engine C) : Grows e e := ⟨rfl, fun _ h => h, fun _ _ h => h, fun _ _ h => h⟩

theorem trans {e₁ e₂ e₃ : Engine C} (h₁ : Grows e₁ e₂) (h₂ : Grows e₂ e₃) : Grows e₁ e₃ where
  sameHeight := h₂.sameHeight.trans h₁.sameHeight
  proposals r h := h₂.proposals r (h₁.proposals r h)
  prevotes r k h := h₂.prevotes r k (h₁.prevotes r k h)
  precommits r k h := h₂.precommits r k (h₁.precommits r k h)

theorem of_startRound {r : UInt64} {out : List (Effect C)} (h : e.startRound r = .ok (e', out)) :
    Grows e e' := by
  rcases startRound_frame h with ⟨parked, proposals, rfl, hprop⟩
  refine ⟨rfl, ?_, fun _ _ h => h, fun _ _ h => h⟩
  intro r' hr'
  rcases hprop with ⟨rfl, _⟩ | ⟨_, _, rfl, _⟩
  · exact hr'
  · exact isSome_orInsert hr'

/-- A message adds to the stores at most. -/
theorem of_ingest {msg : ConsensusMsg C} (h : e.ingest msg = .ok e') : Grows e e' := by
  cases ingest_cases h with
  | ignored => exact refl _
  | proposal => exact ⟨rfl, fun r hr => isSome_orInsert hr, fun _ _ h => h, fun _ _ h => h⟩
  | prevote => exact ⟨rfl, fun _ h => h, fun _ _ h => isSome_offer h, fun _ _ h => h⟩
  | precommit => exact ⟨rfl, fun _ h => h, fun _ _ h => h, fun _ _ h => isSome_offer h⟩

end Grows

/-- An internal step keeps what is stored, or leaves the height. -/
theorem Internal.grows_or_rolls {out : List (Effect C)} (h : Internal ord e out e') :
    Grows e e' ∨ e.height < e'.height := by
  cases h with
  | prevote => exact Or.inl ⟨rfl, fun _ h => h, fun _ _ h => isSome_put h, fun _ _ h => h⟩
  | schedulePrevote => exact Or.inl ⟨rfl, fun _ h => h, fun _ _ h => h, fun _ _ h => h⟩
  | polka => exact Or.inl ⟨rfl, fun _ h => h, fun _ _ h => h, fun _ _ h => isSome_put h⟩
  | latePolka => exact Or.inl ⟨rfl, fun _ h => h, fun _ _ h => h, fun _ _ h => h⟩
  | precommitNil => exact Or.inl ⟨rfl, fun _ h => h, fun _ _ h => h, fun _ _ h => isSome_put h⟩
  | schedulePrecommit => exact Or.inl ⟨rfl, fun _ h => h, fun _ _ h => h, fun _ _ h => h⟩
  | jump _ hstart => exact Or.inl (Grows.of_startRound hstart)
  | wake _ hwake =>
      left
      rcases wake_frame hwake with ⟨proposals, rfl, hprop⟩
      refine ⟨rfl, ?_, fun _ _ h => h, fun _ _ h => h⟩
      intro r hr
      rcases hprop with ⟨rfl, _⟩ | ⟨_, _, rfl, _⟩
      · exact hr
      · exact isSome_orInsert hr
  | commit _ _ _ hcommit =>
      right
      rcases commit_cases hcommit with ⟨height, set, out', hheight, _, hstart, _⟩
      rw [(startRound_sameHeight hstart).1.height]
      exact lt_of_checkedAdd_one hheight

/-- A change of the inputs adds to the stores, or begins a new height. -/
theorem Enter.grows_or_rolls {ev : Event C} {out : List (Output C)} (h : Enter ev e out e') :
    Grows e e' ∨ e.height < e'.height := by
  cases h with
  | start hstart => exact Or.inl (Grows.of_startRound hstart)
  | message hi => exact Or.inl (Grows.of_ingest hi)
  | timeout => exact Or.inl (Grows.refl _)
  | attestation => exact Or.inl ⟨rfl, fun _ h => h, fun _ _ h => h, fun _ _ h => h⟩
  | governance => exact Or.inl ⟨rfl, fun _ h => h, fun _ _ h => h, fun _ _ h => h⟩
  | refused => exact Or.inl (Grows.refl _)
  | synced hsync =>
      right
      rcases applySyncedBlock_cases hsync with ⟨_, _, height, set, hheight, _, rfl⟩
      exact lt_of_checkedAdd_one hheight
  | rejected => exact Or.inl (Grows.refl _)
  | resume hstart => exact Or.inl (Grows.of_startRound hstart)
  | setTime => exact Or.inl ⟨rfl, fun _ h => h, fun _ _ h => h, fun _ _ h => h⟩

/-- Along a trace that ends at the height it began at. -/
theorem Grows.trace {guard : Engine C → Event C → Prop} {e₀ : Engine C} {evs : List (Event C)}
    {log : List (Output C)} (h : Trace guard e₀ evs log e) :
    e₀.height ≤ e.height ∧ (e.height = e₀.height → Grows e₀ e) := by
  have hnext : ∀ {e e' : Engine C}, Grows e e' ∨ e.height < e'.height →
      (e₀.height ≤ e.height ∧ (e.height = e₀.height → Grows e₀ e)) →
      e₀.height ≤ e'.height ∧ (e'.height = e₀.height → Grows e₀ e') := by
    rintro e e' (hgrows | hlt) ⟨hle, hkeeps⟩
    · have hheight := hgrows.sameHeight.height
      rw [hheight]
      exact ⟨hle, fun heq => (hkeeps heq).trans hgrows⟩
    · have hlt' := UInt64.lt_of_le_of_lt hle hlt
      refine ⟨UInt64.le_of_lt hlt', fun heq => ?_⟩
      rw [heq] at hlt'
      exact absurd hlt' (UInt64.lt_irrefl _)
  induction h with
  | init => exact ⟨UInt64.le_refl _, fun _ => Grows.refl _⟩
  | enter _ _ hent ih => exact hnext hent.grows_or_rolls ih
  | internal _ hi ih => exact hnext hi.grows_or_rolls ih

/-! ## Absorbed messages -/

theorem offer_eq_self {s : VoteStore C} {r : UInt64} {id : Hash} {vm : VoteMsg C}
    (h : ((s.ofRound r).lookup id).isSome) : s.offer r id vm = s := by
  rcases Option.isSome_iff_exists.mp h with ⟨vm', hvm'⟩
  have hround : s.lookup r = some (s.ofRound r) := by
    unfold VoteStore.ofRound at hvm' ⊢
    cases hr : s.lookup r with
    | none => simp [hr] at hvm'
    | some m => rfl
  unfold VoteStore.offer
  have hsame : KeyMap.orInsert (s.ofRound r) id vm = s.ofRound r := by
    simp [KeyMap.orInsert, hvm']
  rw [hsame]
  apply Finmap.ext_lookup
  intro r'
  by_cases hr : r' = r
  · rw [hr, Finmap.lookup_insert, hround]
  · rw [Finmap.lookup_insert_of_ne _ hr]

/-- Reading the message again changes nothing. -/
def Absorbed (e : Engine C) (msg : ConsensusMsg C) : Prop := e.ingest msg = .ok e

theorem ingestProposal_eq {pm : ProposalMsg C} (h : e.AcceptsProposal pm) :
    e.ingestProposal pm = .ok { e with proposals := KeyMap.orInsert e.proposals pm.round pm } := by
  rcases h with ⟨hheight, hkey, hsig⟩
  unfold ingestProposal
  rw [if_neg (not_not.mpr hheight), hkey]
  simp [hsig, bind, Except.bind, pure, Except.pure]

theorem absorbed_proposal {pm : ProposalMsg C}
    (hkey : pm.height = e.height → ∃ key, e.proposer pm.round = .ok key)
    (hstored : e.AcceptsProposal pm → (e.proposals.lookup pm.round).isSome) :
    e.Absorbed (.proposal pm) := by
  by_cases hacc : e.AcceptsProposal pm
  · rcases Option.isSome_iff_exists.mp (hstored hacc) with ⟨pm', hpm'⟩
    show e.ingestProposal pm = .ok e
    rw [ingestProposal_eq hacc]
    simp [KeyMap.orInsert, hpm']
  · show e.ingestProposal pm = .ok e
    unfold ingestProposal
    split
    · rfl
    next heq =>
    rcases hkey (not_not.mp heq) with ⟨key, hkey⟩
    rw [hkey]
    by_cases hbad : (decide (key ≠ pm.proposer) || !pm.verifySig) = true
    · simp only [bind, Except.bind, if_pos hbad]
      rfl
    · simp only [Bool.or_eq_true, decide_eq_true_eq, Bool.not_eq_true', not_or, not_not,
        Bool.not_eq_false] at hbad
      exact absurd ⟨not_not.mp heq, hbad.1 ▸ hkey, hbad.2⟩ hacc

/-- A vote is dropped, or offered to the store of its type. -/
theorem ingestVote_cases (e : Engine C) (vm : VoteMsg C) :
    (¬ e.AcceptsVote vm ∧ e.ingestVote vm = e) ∨
    (e.AcceptsVote vm ∧ vm.voteType = .prevote ∧
      e.ingestVote vm = { e with prevotes := e.prevotes.offer vm.round vm.voter.id vm }) ∨
    (e.AcceptsVote vm ∧ vm.voteType = .precommit ∧
      e.ingestVote vm = { e with precommits := e.precommits.offer vm.round vm.voter.id vm }) := by
  have hiff : (decide (vm.height ≠ e.height) || !e.currentSet.contains vm.voter ||
      !vm.verifySig) = true ↔ ¬ e.AcceptsVote vm := by
    unfold AcceptsVote
    rw [← ValidatorSet.contains_iff]
    by_cases hh : vm.height = e.height
    · cases hc : e.currentSet.contains vm.voter <;> cases hv : vm.verifySig <;> simp [hh]
    · simp [hh]
  unfold ingestVote
  by_cases hacc : e.AcceptsVote vm
  · right
    rw [if_neg fun hbad => hiff.mp hbad hacc]
    cases htype : vm.voteType with
    | prevote => exact Or.inl ⟨hacc, rfl, rfl⟩
    | precommit => exact Or.inr ⟨hacc, rfl, rfl⟩
  · left
    rw [if_pos (hiff.mpr hacc)]
    exact ⟨hacc, rfl⟩

theorem absorbed_vote {vm : VoteMsg C}
    (hprevote : e.AcceptsVote vm → vm.voteType = .prevote →
      ((e.prevotes.ofRound vm.round).lookup vm.voter.id).isSome)
    (hprecommit : e.AcceptsVote vm → vm.voteType = .precommit →
      ((e.precommits.ofRound vm.round).lookup vm.voter.id).isSome) : e.Absorbed (.vote vm) := by
  have hself : e.ingestVote vm = e := by
    rcases ingestVote_cases e vm with ⟨_, h⟩ | ⟨hacc, htype, h⟩ | ⟨hacc, htype, h⟩
    · exact h
    · rw [h, offer_eq_self (hprevote hacc htype)]
    · rw [h, offer_eq_self (hprecommit hacc htype)]
  show Except.ok (e.ingestVote vm) = .ok e
  rw [hself]

/-- A message of another height is not stored at all. -/
theorem absorbed_of_height_ne {msg : ConsensusMsg C} (h : msg.height ≠ e.height) :
    e.Absorbed msg := by
  cases msg with
  | proposal pm => exact absorbed_proposal (fun heq => absurd heq h) fun hacc => absurd hacc.1 h
  | vote vm => exact absorbed_vote (fun hacc => absurd hacc.1 h) fun hacc => absurd hacc.1 h

/-- A message that was read once is absorbed as long as nothing is dropped. -/
theorem Grows.absorbed {msg : ConsensusMsg C} {e₁ : Engine C} (h : e.ingest msg = .ok e₁)
    (hgrows : Grows e₁ e') : e'.Absorbed msg := by
  have hsame : SameHeight e e' := hgrows.sameHeight.trans (Grows.of_ingest h).sameHeight
  cases msg with
  | proposal pm =>
      -- the slot of a round is a matter of the height alone
      have hproposer : e'.proposer pm.round = e.proposer pm.round := by
        unfold proposer n
        rw [hsame.height, hsame.validatorsSorted]
      change e.ingestProposal pm = .ok e₁ at h
      apply absorbed_proposal
      · intro hheight
        rw [hproposer]
        unfold ingestProposal at h
        rw [if_neg (not_not.mpr (hheight.trans hsame.height)), Exec.bind_eq_ok] at h
        rcases h with ⟨key, hkey, _⟩
        exact ⟨key, hkey⟩
      · rintro ⟨hheight, hkey, hsig⟩
        rw [ingestProposal_eq ⟨hheight.trans hsame.height, hproposer ▸ hkey, hsig⟩] at h
        obtain rfl := Except.ok.inj h
        apply hgrows.proposals
        show ((KeyMap.orInsert e.proposals pm.round pm).lookup pm.round).isSome
        rw [KeyMap.lookup_orInsert_self]
        rfl
  | vote vm =>
      obtain rfl := Except.ok.inj h
      have hacc : e'.AcceptsVote vm → e.AcceptsVote vm := by
        rintro ⟨hheight, hmem, hsig⟩
        exact ⟨hheight.trans hsame.height, hsame.currentSet ▸ hmem, hsig⟩
      -- after the offer the place is taken, by this vote or another
      have hoffered : ∀ s : VoteStore C,
          (((s.offer vm.round vm.voter.id vm).ofRound vm.round).lookup vm.voter.id).isSome := by
        intro s
        rw [VoteStore.ofRound_offer, if_pos rfl, KeyMap.lookup_orInsert_self]
        rfl
      rcases ingestVote_cases e vm with ⟨hno, _⟩ | ⟨_, htype, heq⟩ | ⟨_, htype, heq⟩
      · exact absorbed_vote (fun h => absurd (hacc h) hno) fun h => absurd (hacc h) hno
      · rw [heq] at hgrows
        apply absorbed_vote
        · intro _ _
          exact hgrows.prevotes _ _ (hoffered e.prevotes)
        · intro _ htype'
          rw [htype] at htype'
          cases htype'
      · rw [heq] at hgrows
        apply absorbed_vote
        · intro _ htype'
          rw [htype] at htype'
          cases htype'
        · intro _ _
          exact hgrows.precommits _ _ (hoffered e.precommits)

/-! ## Nothing to wake up for -/

/-- A parked engine holds no proposal for its round. -/
def Unseen (e : Engine C) : Prop := e.parked = true → e.proposals.lookup e.round = none

/-- `start` and `resume` are called where no proposal of the height is stored:
at the very beginning, and right after a block of a peer was applied. -/
def unheard (e : Engine C) (ev : Event C) : Prop := ev = .start ∨ ev = .resume → e.proposals = ∅

namespace Unseen

/-- Only round 0 parks. -/
theorem startRound {r : UInt64} {out : List (Effect C)} (h : e.startRound r = .ok (e', out))
    (hnone : r = 0 → e.proposals.lookup 0 = none) : e'.Unseen := by
  rcases startRound_cases h with ⟨hr, _, _, _, rfl, _⟩ | henter
  · intro _
    show e.proposals.lookup r = none
    rw [hr]
    exact hnone hr
  · intro hparked
    rcases enterPropose_cases henter with ⟨_, _, rfl, _⟩ | ⟨rfl, _⟩
    · cases hparked
    · cases hparked

theorem wake {out : List (Effect C)}
    (h : enterPropose { e with parked := false } e.round = .ok (e', out)) : e'.Unseen := by
  rcases wake_frame h with ⟨proposals, rfl, _⟩
  intro hparked
  cases hparked

theorem unpark {out : List (Effect C)} (h : e.unpark = .ok (e', out))
    (hparked : e.parked = true) : e'.Unseen := by
  unfold Engine.unpark at h
  rw [if_pos hparked] at h
  exact wake h

theorem ne_zero_of_lt {a b : UInt64} (h : a < b) : b ≠ 0 := by
  rintro rfl
  exact absurd h UInt64.not_lt_zero

/-- A rule leaves no proposal behind that the engine could wake up for. -/
theorem fires {out : List (Effect C)} (h : e.Unseen) (hf : Fires ord e out e') : e'.Unseen := by
  cases hf with
  | prevote => exact h
  | schedulePrevote => exact h
  | polka => exact h
  | latePolka => exact h
  | precommitNil => exact h
  | schedulePrecommit => exact h
  | skip hr _ hstart =>
      exact startRound hstart fun hzero => absurd hzero (ne_zero_of_lt (Finset.mem_filter.mp hr).2)
  | commit _ _ _ hcommit =>
      rcases commit_cases hcommit with ⟨height, set, out', _, _, hstart, _⟩
      exact startRound hstart fun _ => by simp [rolled, clearHeight]

/-- A proposal for the current round that gets stored wakes a parked engine in
the same call. -/
theorem message {msg : ConsensusMsg C} {e₁ : Engine C} {out : List (Effect C)} (h : e.Unseen)
    (hingest : e.ingest msg = .ok e₁) (hwake : e₁.wakeFor (e.mayWake msg) = .ok (e', out)) :
    e'.Unseen := by
  rcases ingest_frame hingest with ⟨proposals, prevotes, precommits, hframe⟩
  unfold wakeFor at hwake
  split at hwake
  · next hcond =>
      rw [Bool.and_eq_true, Bool.and_eq_true] at hcond
      exact unpark hwake hcond.1.1
  next hcond =>
  rcases Exec.ok_pair hwake with ⟨rfl, _⟩
  intro hparked
  -- it was stored before, or it did not come with this message
  cases ingest_cases hingest with
  | ignored => exact h hparked
  | @proposal pm hacc =>
      have hmay : e.mayWake (.proposal pm) = true := decide_eq_true hacc.1
      have hnot : ¬ ((KeyMap.orInsert e.proposals pm.round pm).lookup e.round).isSome = true := by
        intro hsome
        exact hcond (by rw [hmay, hparked]; simpa using hsome)
      simpa using hnot
  | prevote => exact h hparked
  | precommit => exact h hparked

theorem fireTimeout {kind : TimeoutKind} {out : List (Effect C)} (h : e.Unseen)
    (hfire : e.fireTimeout kind = .ok (e', out)) : e'.Unseen := by
  cases kind with
  | propose =>
      dsimp only [Engine.fireTimeout, emitPrevote] at hfire
      split at hfire
      · rcases Exec.ok_pair hfire with ⟨rfl, _⟩
        exact h
      · rcases Exec.ok_pair hfire with ⟨rfl, _⟩
        exact h
  | prevote =>
      dsimp only [Engine.fireTimeout, emitPrecommit] at hfire
      split at hfire
      · rcases Exec.ok_pair hfire with ⟨rfl, _⟩
        exact h
      · rcases Exec.ok_pair hfire with ⟨rfl, _⟩
        exact h
  | precommit =>
      unfold Engine.fireTimeout at hfire
      rw [Exec.bind_eq_ok] at hfire
      rcases hfire with ⟨next, hnext, hstart⟩
      exact startRound hstart fun hzero => absurd hzero (ne_zero_of_lt (lt_of_checkedAdd_one hnext))

theorem opens {ev : Event C} {out : List (Output C)} {go : Bool} (h : e.Unseen)
    (hguard : unheard e ev) (hopens : e.Opens ev e' out go) : e'.Unseen := by
  cases hopens with
  | round hev hstart => exact startRound hstart fun _ => by simp [hguard hev]
  | message hingest hwake => exact h.message hingest hwake
  | timer hfire => exact h.fireTimeout hfire
  | lateTimer => exact h
  | woken _ hparked hunpark => exact unpark hunpark hparked
  | queued => exact h
  | refused => exact h
  | synced hsync =>
      rcases applySyncedBlock_cases hsync with ⟨_, _, height, set, _, _, rfl⟩
      intro hparked
      cases hparked
  | setTime => exact h

/-- At every point of a run. -/
theorem run {e₀ : Engine C} {evs : List (Event C)} {log : List (Output C)} (h₀ : e₀.Unseen)
    (hrun : Run unheard e₀ evs log e) : e.Unseen := by
  induction hrun with
  | init => exact h₀
  | step _ hguard hstep ih =>
      exact handle_entry_induction (P := fun _ e => e.Unseen) hstep
        (fun hopens => ih.opens hguard hopens) fun h hf => h.fires hf

end Unseen

/-- At rest `advance` does nothing. -/
theorem AtRest.advance_eq (hrest : e.AtRest) (ord : IterOrder) : e.advance ord = .ok (e, []) := by
  have hrule : e.applyRule ord = .ok none := applyRule_eq_none_iff.mpr hrest
  have hfuel : e.advanceFuel = (e.advanceFuel - 1) + 1 := by
    unfold advanceFuel
    omega
  unfold advance
  rw [hfuel, advanceLoop, hrule]
  rfl

/-- What an absorbed message does to an engine at rest that it cannot wake. -/
theorem onMessage_eq_self {msg : ConsensusMsg C} (hrest : e.AtRest) (hunseen : e.Unseen)
    (habsorbed : e.Absorbed msg) (ord : IterOrder) : e.onMessage ord msg = .ok (e, []) := by
  have hwake : ∀ wake, e.wakeFor wake = .ok (e, []) := by
    intro wake
    unfold wakeFor
    by_cases hparked : e.parked = true
    · rw [hunseen hparked]
      simp
    · simp [hparked]
  unfold onMessage
  rw [show e.ingest msg = .ok e from habsorbed]
  simp only [bind, Except.bind, hwake, thenAdvance, hrest.advance_eq ord]
  rfl

end Engine

open Engine

/-- Re-delivered messages are harmless. In every state that a new engine
reaches between two calls, a message for another height changes nothing and
has no effects; nor does a message that was handed to it before at the height
it is at, whatever became of it then and whatever happened since. -/
theorem redelivery_harmless {registry : ValidatorRegistry C} {meSk : C.SigningKey}
    {mePk : C.VerifyingKey} {tip : Hash} {startHeight : UInt64} {e₀ : Engine C}
    (hnew : withRegistry registry meSk mePk tip startHeight = .ok e₀) :
    (∀ (evs : List (Event C)) (log : List (Output C)) (e : Engine C), Run unheard e₀ evs log e →
      ∀ (ord : IterOrder) (msg : ConsensusMsg C), msg.height ≠ e.height →
        e.onMessage ord msg = .ok (e, [])) ∧
    (∀ (evs evs' : List (Event C)) (log log' out : List (Output C)) (e₁ e₂ e : Engine C)
      (ord ord' : IterOrder) (msg : ConsensusMsg C),
      Run unheard e₀ evs log e₁ → e₁.handle ord (.message msg) = .ok (e₂, out) →
      Run unheard e₂ evs' log' e → e₁.height = e.height → e.onMessage ord' msg = .ok (e, [])) := by
  have hrest₀ := AtRest.of_new hnew
  have hunseen₀ : e₀.Unseen := by
    rcases withRegistry_eq_ok hnew with ⟨set, _, rfl⟩
    intro hparked
    cases hparked
  constructor
  · intro evs log e hrun ord msg hne
    exact onMessage_eq_self (hrest₀.run hrun) (hunseen₀.run hrun) (absorbed_of_height_ne hne) ord
  · intro evs evs' log log' out e₁ e₂ e ord ord' msg hrun hdelivered hrun' hheight
    have hall := (Run.step hrun (by rintro (h | h) <;> cases h) hdelivered).trans hrun'
    -- what the first delivery stored is still there
    have habsorbed : e.Absorbed msg := by
      rcases handle_steps hdelivered with ⟨e₁', o₁, o₂, hent, hints, rfl⟩
      cases hent with
      | message hingest =>
          have htrace : Trace unheard e₁' ([] ++ evs') ([] ++ effects o₂ ++ log') e :=
            (Trace.init.internals hints).trans hrun'.trace
          have hsame : e.height = e₁'.height := by
            rw [(Grows.of_ingest hingest).sameHeight.height, hheight]
          exact Grows.absorbed hingest ((Grows.trace htrace).2 hsame)
    exact onMessage_eq_self (hrest₀.run hall) (hunseen₀.run hall) habsorbed ord'

/-- A validator of four hears the same prevote twice. -/
theorem redelivery_harmless_four :
    ∃ e log, sampleRun [1, 2, 3, 4] 1 [.start, .message (sampleVote 2 0 .prevote none)] =
        .ok (e, log) ∧
      e.onMessage sampleOrder (sampleVote 2 0 .prevote none) = .ok (e, []) := by
  have hholds : (sampleRun [1, 2, 3, 4] 1 [.start, .message (sampleVote 2 0 .prevote none)]).holds
      (fun r => decide (r.1.height = 1)) = true := by decide +kernel
  rcases Exec.holds_iff.mp hholds with ⟨⟨e, log⟩, hrun, hheight⟩
  have hall := hrun
  simp only [sampleRun, Exec.bind_eq_ok, handleAll] at hall
  rcases hall with ⟨e₀, hnew, ⟨e₁, o₁⟩, hstart, ⟨e₂, o₂⟩, ⟨⟨e₃, o₃⟩, hmsg, ⟨e₄, o₄⟩, hnil, hret⟩, h⟩
  rcases Exec.ok_pair hnil with ⟨rfl, rfl⟩
  rcases Exec.ok_pair hret with ⟨rfl, rfl⟩
  rcases Exec.ok_pair h with ⟨rfl, rfl⟩
  have hfirst : Run unheard e₀ ([] ++ [.start]) ([] ++ o₁) e₁ := by
    refine Run.step Run.init ?_ hstart
    rcases withRegistry_eq_ok hnew with ⟨set, _, rfl⟩
    exact fun _ => rfl
  -- heights only grow, and the last one is still the first
  have hsame : e₁.height = e.height := by
    have hle := (Grows.trace hfirst.trace).1
    have hle' := (Grows.trace (Run.step (Run.init : Run unheard e₁ [] [] e₁)
      (by rintro (h | h) <;> cases h) hmsg).trace).1
    rw [show e₀.height = 1 by
      rcases withRegistry_eq_ok hnew with ⟨set, _, rfl⟩
      rfl] at hle
    rw [of_decide_eq_true hheight] at hle' ⊢
    exact UInt64.le_antisymm hle' hle
  exact ⟨_, _, hrun, (redelivery_harmless hnew).2 _ [] _ [] _ e₁ e e sampleOrder sampleOrder _
    hfirst hmsg Run.init hsame⟩

end SmartLedger
