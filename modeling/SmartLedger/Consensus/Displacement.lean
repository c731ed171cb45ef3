import SmartLedger.Consensus.Pool
import SmartLedger.Consensus.Skipping

/-! # What is stored for an honest proposal

An engine keeps the first proposal that verifies for a round, and the
signature covers the id of the value: its header, but not its body. Whoever
relays a proposal can hand it over with another body, and that is then what
the engine keeps. `Unaltered` is when nothing of this kind has happened, and
`honest_proposal_stands` shows that it is exactly what an honest proposal
needs to be stored as it was sent.
-/

namespace SmartLedger

open Engine

variable {C : Crypto} {ord : IterOrder} {e e' : Engine C} {honest : Finset C.VerifyingKey}
  {guard : World C → C.VerifyingKey → UInt64 → Event C → Prop} {genesis : List C.VerifyingKey}
  {w w' w₀ : World C}

/-! ## Bodies -/

namespace Proposed

/-- The body is one that the header is a digest of. -/
structure Bodied (v : Proposed C) : Prop where
  txCount_eq : v.header.txCount.toNat = v.attestations.length
  merkleRoot_eq :
    (MerkleTree.build C (v.attestations.map (·.leafHash))).root C = v.header.merkleRoot
  govRoot_eq : governanceRoot v.governance = v.header.govRoot

theorem bodied_iff (v : Proposed C) :
    v.Bodied ↔ v.header.txCount.toNat = v.attestations.length ∧
      (MerkleTree.build C (v.attestations.map (·.leafHash))).root C = v.header.merkleRoot ∧
      governanceRoot v.governance = v.header.govRoot :=
  ⟨fun h => ⟨h.txCount_eq, h.merkleRoot_eq, h.govRoot_eq⟩, fun h => ⟨h.1, h.2.1, h.2.2⟩⟩

instance (v : Proposed C) : Decidable v.Bodied := decidable_of_iff _ (bodied_iff v).symm

theorem WellFormed.bodied {v : Proposed C} {tip : Hash} {height : UInt64}
    {current : ValidatorSet C} (h : v.WellFormed tip height current) : v.Bodied :=
  ⟨h.txCount_eq, h.merkleRoot_eq, h.govRoot_eq⟩

/-- `u` has a body that fits its header, and it is not `v` with a governance
change rewritten in what the commitment leaves open. -/
structure Unaltered (u v : Proposed C) : Prop where
  bodied : u.Bodied
  unrewritten : ∀ p ∈ u.governance.zip v.governance, p.1.commitment = p.2.commitment → p.1 = p.2

instance (u v : Proposed C) : Decidable (Unaltered u v) :=
  decidable_of_iff (u.Bodied ∧ ∀ p ∈ u.governance.zip v.governance,
    p.1.commitment = p.2.commitment → p.1 = p.2) ⟨fun h => ⟨h.1, h.2⟩, fun h => ⟨h.1, h.2⟩⟩

theorem Unaltered.refl {v : Proposed C} (h : v.Bodied) : v.Unaltered v := by
  refine ⟨h, ?_⟩
  intro p hp _
  generalize v.governance = l at hp
  induction l with
  | nil => cases hp
  | cons x rest ih =>
      rw [List.zip_cons_cons] at hp
      rcases List.mem_cons.mp hp with rfl | hrest
      · rfl
      · exact ih hrest

/-- Changes with the same commitments are the same if none was rewritten. -/
theorem governance_eq {as bs : List (SignedValidatorChange C)}
    (hcommit : as.map (·.commitment) = bs.map (·.commitment))
    (h : ∀ p ∈ as.zip bs, p.1.commitment = p.2.commitment → p.1 = p.2) : as = bs := by
  induction as generalizing bs with
  | nil =>
      have hnil : bs = [] := by simpa using hcommit.symm
      exact hnil.symm
  | cons a as ih =>
      cases bs with
      | nil => simp at hcommit
      | cons b bs =>
          rw [List.map_cons, List.map_cons, List.cons.injEq] at hcommit
          rw [List.zip_cons_cons] at h
          have hhead : a = b := h (a, b) List.mem_cons_self hcommit.1
          rw [hhead, ih hcommit.2 fun p hp => h p (List.mem_cons_of_mem _ hp)]

/-- Values with one header are equal when the body of one was left alone. -/
theorem eq_iff_unaltered {inputs : Set (List UInt8)} (hinj : Set.InjOn C.digest inputs)
    {u v : Proposed C} (hin : ∀ x ∈ u.inputs, x ∈ inputs) (hin' : ∀ x ∈ v.inputs, x ∈ inputs)
    (hv : v.Bodied) (hheader : u.header = v.header) : u = v ↔ u.Unaltered v := by
  constructor
  · rintro rfl
    exact Unaltered.refl hv
  · intro hu
    have hatt : u.attestations = v.attestations :=
      attestations_eq_of_header_eq hinj hin hin' hu.bodied.txCount_eq hv.txCount_eq
        hu.bodied.merkleRoot_eq hv.merkleRoot_eq hheader
    have hroots : governanceRoot u.governance = governanceRoot v.governance := by
      rw [hu.bodied.govRoot_eq, hv.govRoot_eq, hheader]
    have hcommit := commitments_eq_of_governanceRoot_eq hinj
      (fun x hx => hin x (List.mem_cons_of_mem _ (List.mem_append_right _ hx)))
      (fun x hx => hin' x (List.mem_cons_of_mem _ (List.mem_append_right _ hx))) hroots
    have hgov : u.governance = v.governance := governance_eq hcommit hu.unrewritten
    cases u
    cases v
    simp_all

end Proposed

/-! ## What honest engines propose -/

theorem getValue_bodied (e : Engine C) : e.getValue.Bodied := ⟨e.getValue_txCount, rfl, rfl⟩

/-- What an engine holds valid or has proposed has the body of its header. -/
structure Embodied (log : List (Output C)) (e : Engine C) : Prop where
  valid : ∀ v, e.validValue = some v → v.Bodied
  sent : ∀ pm, .effect (.broadcast (.proposal pm)) ∈ log → pm.value.Bodied

namespace Embodied

variable {log out : List (Output C)}

theorem proposes {pm : ProposalMsg C} (hvalid : ∀ v, e.validValue = some v → v.Bodied)
    (hprop : e.Proposes pm) : pm.value.Bodied := by
  cases hv : e.validValue with
  | none =>
      rw [(hprop.fresh hv).1]
      exact getValue_bodied e
  | some v =>
      rcases hprop with ⟨r, rfl, _⟩
      have hvalue : (e.ownProposal r).value = v := by
        show e.proposalValue.1 = v
        unfold proposalValue
        rw [hv]
      rw [hvalue]
      exact hvalid v hv

theorem extend (h : Embodied log e) (hvalid : ∀ v, e'.validValue = some v → v.Bodied)
    (hsent : ∀ pm, .effect (.broadcast (.proposal pm)) ∈ out → e'.Proposes pm) :
    Embodied (log ++ out) e' := by
  refine ⟨hvalid, ?_⟩
  intro pm hpm
  rcases List.mem_append.mp hpm with hold | hnew
  · exact h.sent pm hold
  · exact proposes hvalid (hsent pm hnew)

theorem trace {driver : Engine C → Event C → Prop} {e₀ : Engine C} {evs : List (Event C)}
    (hfresh : e₀.validValue = none) (h : Trace driver e₀ evs log e) : Embodied log e := by
  induction h with
  | init =>
      refine ⟨?_, nofun⟩
      intro v hv
      rw [hfresh] at hv
      cases hv
  | enter _ _ hent ih =>
      refine ih.extend ?_ fun pm hpm => hent.proposes hpm
      intro v hv
      exact ih.valid v (hent.validValue_cases hv)
  | internal _ hi ih =>
      refine ih.extend ?_ fun pm hpm => hi.proposes (mem_effects.mp hpm)
      intro v hv
      rcases hi.validValue_cases hv with ⟨_, hold⟩ | ⟨pm, _, rfl, _, hvalid⟩
      · exact ih.valid v hold
      · exact ((Proposed.isValid_iff _ _ _ _).mp hvalid).bodied

end Embodied

/-! ## What honest engines store -/

/-- Peer `k` was handed `ev` at some point before. -/
def Taken (honest : Finset C.VerifyingKey)
    (guard : World C → C.VerifyingKey → UInt64 → Event C → Prop) (w : World C)
    (k : C.VerifyingKey) (ev : Event C) : Prop :=
  ∃ w₁ t, Genuine honest w₁ ev ∧ guard w₁ k t ev ∧ ∀ j, (w₁ j).Later (w j)

theorem Taken.mono {k : C.VerifyingKey} {ev : Event C} (h : Taken honest guard w k ev)
    (hlater : ∀ j, (w j).Later (w' j)) : Taken honest guard w' k ev := by
  rcases h with ⟨w₁, t, hgenuine, hguard, hbefore⟩
  exact ⟨w₁, t, hgenuine, hguard, fun j => (hbefore j).trans (hlater j)⟩

/-- The engines of a peer: the one between its calls, and those in which
`advance` evaluates its rules in the next one. -/
inductive Visits (honest : Finset C.VerifyingKey)
    (guard : World C → C.VerifyingKey → UInt64 → Event C → Prop) (w : World C)
    (k : C.VerifyingKey) : Engine C → Prop where
  | rest : Visits honest guard w k (w k).engine
  | call {t : UInt64} {ev : Event C} {ord : IterOrder} {e₁ e : Engine C} {out : List (Output C)}
      {go : Bool} (hdriven : driven (w k).engine ev) (hgenuine : Genuine honest w ev)
      (hguard : guard w k t ev) (hentry : ((w k).engine.setTime t).entry ev = .ok (e₁, out, go))
      (heval : Evaluates ord e₁ e) : Visits honest guard w k e

/-- Stored proposals are for their rounds and under the keys of the designated
proposers, and those of others were handed over. -/
structure Holding (honest : Finset C.VerifyingKey)
    (guard : World C → C.VerifyingKey → UInt64 → Event C → Prop) (w : World C)
    (k : C.VerifyingKey) (e : Engine C) : Prop where
  mePk : e.mePk = k
  place : ∀ {r pm}, e.proposals.lookup r = some pm →
    pm.height = e.height ∧ pm.round = r ∧ e.proposer r = .ok pm.proposer
  taken : ∀ {r pm}, e.proposals.lookup r = some pm → pm.proposer ≠ k →
    pm.verifySig = true ∧ Taken honest guard w k (.message (.proposal pm))

namespace Holding

variable {k : C.VerifyingKey}

theorem mono (h : Holding honest guard w k e) (hlater : ∀ j, (w j).Later (w' j)) :
    Holding honest guard w' k e :=
  ⟨h.mePk, h.place, fun hpm hne => ⟨(h.taken hpm hne).1, (h.taken hpm hne).2.mono hlater⟩⟩

/-- A stored proposal was stored before, is our own, or was handed over. -/
theorem of_stored (h : Holding honest guard w k e) (hkey : e'.mePk = e.mePk)
    (hstored : ∀ {r pm}, e'.proposals.lookup r = some pm →
      (SameHeight e e' ∧ e.proposals.lookup r = some pm) ∨
      (r = e'.round ∧ pm = e'.ownProposal e'.round ∧ e'.proposer e'.round = .ok e'.mePk) ∨
      (SameHeight e e' ∧ pm.round = r ∧ e.AcceptsProposal pm ∧
        Taken honest guard w k (.message (.proposal pm)))) : Holding honest guard w k e' := by
  refine ⟨hkey.trans h.mePk, ?_, ?_⟩
  · intro r pm hpm
    rcases hstored hpm with ⟨hsame, hold⟩ | ⟨rfl, rfl, hprop⟩ | ⟨hsame, rfl, hacc, _⟩
    · rw [hsame.height, hsame.proposer]
      exact h.place hold
    · exact ⟨rfl, rfl, hprop⟩
    · rw [hsame.height, hsame.proposer]
      exact ⟨hacc.1, rfl, hacc.2.1⟩
  · intro r pm hpm hne
    rcases hstored hpm with ⟨hsame, hold⟩ | ⟨rfl, rfl, _⟩ | ⟨_, _, hacc, htaken⟩
    · exact h.taken hold hne
    · exact absurd (hkey.trans h.mePk) hne
    · exact ⟨hacc.2.2, htaken⟩

theorem internal {out : List (Effect C)} (h : Holding honest guard w k e)
    (hi : Internal ord e out e') : Holding honest guard w k e' := by
  apply h.of_stored hi.keys.2
  intro r pm hpm
  rcases hi.stored hpm with hold | ⟨hr, hsent⟩
  · exact Or.inl hold
  · exact Or.inr (Or.inl ⟨hr, hi.own hsent⟩)

theorem internals {out : List (Effect C)} (h : Holding honest guard w k e)
    (hi : Internals ord e out e') : Holding honest guard w k e' := by
  induction hi with
  | refl e => exact h
  | step hi _ ih => exact ih (h.internal hi)

theorem enter {t : UInt64} {ev : Event C} {out : List (Output C)} (h : Holding honest guard w k e)
    (hgenuine : Genuine honest w ev) (hguard : guard w k t ev) (hent : Enter ev e out e') :
    Holding honest guard w k e' := by
  apply h.of_stored hent.keys.2
  intro r pm hpm
  rcases hent.stored hpm with hold | ⟨hr, hsent⟩ | ⟨hsame, rfl, hr, hacc⟩
  · exact Or.inl hold
  · exact Or.inr (Or.inl ⟨hr, hent.own hsent⟩)
  · exact Or.inr (Or.inr ⟨hsame, hr, hacc, w, t, hgenuine, hguard, fun j => Peer.Later.refl _⟩)

theorem setTime (h : Holding honest guard w k e) (t : UInt64) :
    Holding honest guard w k (e.setTime t) := ⟨h.mePk, h.place, h.taken⟩

/-- In every reachable world, of every honest engine. -/
theorem run (h₀ : Launched honest genesis w₀) (hrun : WorldRun honest guard w₀ w)
    (hk : k ∈ honest) : Holding honest guard w k (w k).engine := by
  induction hrun with
  | refl =>
      rcases h₀ k hk with ⟨_, _, sk, hnew⟩
      rcases withRegistry_eq_ok hnew with ⟨set, _, heq⟩
      rw [heq]
      refine ⟨rfl, ?_, ?_⟩
      · intro r pm hpm
        simp at hpm
      · intro r pm hpm
        simp at hpm
  | tail _ hstep ih =>
      refine mono ?_ hstep.later
      rcases hstep.peer_cases k with
        hsame | ⟨t, ev, ord, e', out, _, _, hgenuine, hguard, hhandle, hnext⟩
      · rw [hsame]
        exact ih
      · rw [hnext]
        rcases handle_steps hhandle with ⟨e₁, o₁, o₂, hent, hints, _⟩
        exact ((ih.setTime t).enter hgenuine hguard hent).internals hints

theorem visits (h : Holding honest guard w k (w k).engine) (hv : Visits honest guard w k e) :
    Holding honest guard w k e := by
  cases hv with
  | rest => exact h
  | @call t ev ord e₁ _ out _ _ hgenuine hguard hentry heval =>
      induction heval with
      | here =>
          have hsteps : ∃ e₂ o₁ o₂, Enter ev ((w k).engine.setTime t) o₁ e₂ ∧
              Internals ord e₂ o₂ e₁ ∧ out = o₁ ++ effects o₂ := (entry_opens hentry).steps
          rcases hsteps with ⟨e₂, o₁, o₂, hent, hints, _⟩
          exact ((h.setTime _).enter hgenuine hguard hent).internals hints
      | next _ hrule ih => exact ih.internal (applyRule_fires hrule).internal

end Holding

/-! ## What is stored for an honest proposal -/

/-- A proposal under an honest key is handed over with the body it was sent
with. -/
def asSent (honest : Finset C.VerifyingKey) (w : World C) (_ : C.VerifyingKey) (_ : UInt64) :
    Event C → Prop
  | .message (.proposal pm) => pm.proposer ∈ honest → pm.verifySig = true →
      ∀ P ∈ sentProposals (w pm.proposer).log, P.height = pm.height → P.round = pm.round →
        pm.value.Unaltered P.value
  | _ => True

instance (w : World C) (k : C.VerifyingKey) (t : UInt64) :
    (ev : Event C) → Decidable (asSent honest w k t ev)
  | .message (.proposal pm) => inferInstanceAs (Decidable (pm.proposer ∈ honest →
      pm.verifySig = true → ∀ P ∈ sentProposals (w pm.proposer).log, P.height = pm.height →
        P.round = pm.round → pm.value.Unaltered P.value))
  | .message (.vote _) | .start | .timeout _ _ _ | .attestation _ | .governance _
  | .synced _ | .resume | .setTime _ => inferInstanceAs (Decidable True)

/-- The same proposal, whatever its signature. -/
def ProposalMsg.Same (pm P : ProposalMsg C) : Prop :=
  pm.height = P.height ∧ pm.round = P.round ∧ pm.validRound = P.validRound ∧ pm.value = P.value

/-- `pm` is stored for a round whose designated proposer `j` made one proposal
there, which is `P`. -/
structure StoredFor (w : World C) (j : C.VerifyingKey) (e : Engine C) (r : UInt64)
    (pm P : ProposalMsg C) : Prop where
  designated : e.proposer r = .ok j
  stored : e.proposals.lookup r = some pm
  sent : P ∈ sentProposals (w j).log
  height : P.height = e.height
  round : P.round = r
  only : ∀ P' ∈ sentProposals (w j).log, P'.height = e.height → P'.round = r → P' = P

theorem mem_sentProposals {log : List (Output C)} {pm : ProposalMsg C} :
    pm ∈ sentProposals log ↔ .effect (.broadcast (.proposal pm)) ∈ log := by
  unfold sentProposals
  rw [List.mem_filterMap]
  constructor
  · rintro ⟨o, ho, heq⟩
    split at heq
    · obtain rfl := Option.some.inj heq
      exact ho
    · cases heq
  · intro h
    exact ⟨_, h, rfl⟩

/-- A genuine proposal repeats one that was sent, up to the body. -/
theorem Genuine.proposal {pm : ProposalMsg C} (h : Genuine honest w (.message (.proposal pm)))
    (hhonest : pm.proposer ∈ honest) (hver : pm.verifySig = true) :
    ∃ P ∈ sentProposals (w pm.proposer).log, P.height = pm.height ∧ P.round = pm.round ∧
      P.value.id = pm.value.id ∧ P.validRound = pm.validRound := by
  have hsigned : (proposalSigningBytes pm.height pm.round pm.value.id pm.validRound,
      Context.proposal) ∈ signedPayloads (w pm.proposer).log := h hhonest hver
  rcases mem_signedPayloads hsigned with ⟨msg, hmsg, hpayload⟩
  rcases payload_eq_proposal hpayload with ⟨P, rfl, _⟩
  have hbytes : proposalSigningBytes P.height P.round P.value.id P.validRound =
      proposalSigningBytes pm.height pm.round pm.value.id pm.validRound :=
    congrArg Prod.fst hpayload
  exact ⟨P, mem_sentProposals.mpr hmsg, proposalSigningBytes_inj hbytes⟩

/-- What another engine stores for an honest proposal was handed to it after
the proposal was sent, and repeats it up to the body. -/
theorem StoredFor.origin {j k : C.VerifyingKey} {r : UInt64} {pm P : ProposalMsg C}
    (h : StoredFor w j e r pm P) (hj : j ∈ honest) (hne : k ≠ j)
    (hheld : Holding honest guard w k e) :
    (pm.proposer = j ∧ pm.verifySig = true) ∧
      (pm.height = P.height ∧ pm.round = P.round ∧ pm.validRound = P.validRound ∧
        pm.value.id = P.value.id) ∧
      ∃ w₁ t, guard w₁ k t (.message (.proposal pm)) ∧ P ∈ sentProposals (w₁ j).log := by
  rcases hheld.place h.stored with ⟨hheight, hround, hprop⟩
  obtain rfl : pm.proposer = j := Except.ok.inj (hprop.symm.trans h.designated)
  rcases hheld.taken h.stored hne.symm with ⟨hver, w₁, t, hgenuine, hguard, hlater⟩
  rcases hgenuine.proposal hj hver with ⟨P', hP', hheight', hround', hid, hvr⟩
  -- what was signed then is the one proposal that was made there
  have hnow : P' ∈ sentProposals (w pm.proposer).log :=
    mem_sentProposals.mpr ((hlater _).log_eq.subset (mem_sentProposals.mp hP'))
  obtain rfl : P' = P := h.only P' hnow (hheight'.trans hheight) (hround'.trans hround)
  exact ⟨⟨rfl, hver⟩, ⟨hheight'.symm, hround'.symm, hvr.symm, hid.symm⟩, w₁, t, hguard, hP'⟩

theorem StoredFor.same_iff {j k : C.VerifyingKey} {r : UInt64} {pm P : ProposalMsg C}
    (h : StoredFor w j e r pm P) (hj : j ∈ honest) (hne : k ≠ j)
    (hheld : Holding honest guard w k e) (hsound : (w j).Sound genesis j) :
    (pm.Same P ↔ pm.value.Unaltered P.value) ∨
      Collision.Exhibits C.digest (pm.value.inputs ++ P.value.inputs) := by
  rcases Collision.injOn_or_exhibits C.digest (pm.value.inputs ++ P.value.inputs) with hinj | hcol
  swap
  · exact Or.inr hcol
  left
  rcases h.origin hj hne hheld with ⟨_, ⟨hheight, hround, hvr, hid⟩, _⟩
  -- the proposer sends proposals with the bodies they were made of
  have hbodied : P.value.Bodied := by
    rcases hsound.traced with ⟨e₀, sk, hnew, htrace⟩
    have hfresh : e₀.validValue = none := (Fresh.of_withRegistry hnew).validValue
    exact (Embodied.trace hfresh htrace).sent P (mem_sentProposals.mp h.sent)
  have hin : ∀ x ∈ pm.value.inputs, x ∈ {x | x ∈ pm.value.inputs ++ P.value.inputs} :=
    fun x hx => List.mem_append_left _ hx
  have hin' : ∀ x ∈ P.value.inputs, x ∈ {x | x ∈ pm.value.inputs ++ P.value.inputs} :=
    fun x hx => List.mem_append_right _ hx
  -- the signature covers the id, and with it the header
  have hheader : pm.value.header = P.value.header := by
    apply BlockHeader.signingBytes_injective
    exact hinj (hin _ List.mem_cons_self) (hin' _ List.mem_cons_self) hid
  have hvalue := Proposed.eq_iff_unaltered hinj hin hin' hbodied hheader
  constructor
  · intro hsame
    exact hvalue.mp hsame.2.2.2
  · intro hunaltered
    exact ⟨hheight, hround, hvr, hvalue.mpr hunaltered⟩

/-- An honest proposal stands if it is handed over with the body it was sent
with. As long as this is so for every proposal under an honest key, whatever
another engine stores for a round in which the designated proposer is honest
and made one proposal is that proposal; and in any run, it is if and only if
its body was left alone. -/
theorem honest_proposal_stands (h₀ : Launched honest genesis w₀) {j k : C.VerifyingKey}
    (hj : j ∈ honest) (hk : k ∈ honest) (hne : k ≠ j) {r : UInt64} {pm P : ProposalMsg C} :
    (∀ w e, WorldRun honest (asSent honest) w₀ w → Visits honest (asSent honest) w k e →
      StoredFor w j e r pm P →
      pm.Same P ∨ Collision.Exhibits C.digest (pm.value.inputs ++ P.value.inputs)) ∧
    ∀ w e, WorldRun honest anyStep w₀ w → Visits honest anyStep w k e → StoredFor w j e r pm P →
      (pm.Same P ↔ pm.value.Unaltered P.value) ∨
        Collision.Exhibits C.digest (pm.value.inputs ++ P.value.inputs) := by
  constructor
  · intro w e hrun hvisits hstored
    have hheld := (Holding.run h₀ hrun hk).visits hvisits
    rcases hstored.same_iff hj hne hheld ((WorldInv.run h₀ hrun).sound hj) with hiff | hcol
    · left
      rcases hstored.origin hj hne hheld with
        ⟨⟨rfl, hver⟩, ⟨hheight, hround, _, _⟩, w₁, t, hguard, hsent⟩
      exact hiff.mpr (hguard hj hver P hsent hheight.symm hround.symm)
    · exact Or.inr hcol
  · intro w e hrun hvisits hstored
    exact hstored.same_iff hj hne ((Holding.run h₀ hrun hk).visits hvisits)
      ((WorldInv.run h₀ hrun).sound hj)

/-! ## Four members -/

/-- Member 2 makes a proposal, and member 3 is handed `pms` for it. -/
def proposedTo3 (pms : List (ProposalMsg sample)) :
    List (sample.VerifyingKey × UInt64 × Event sample) :=
  [(2, 0, .start), (3, 0, .start), (2, 0, .attestation (sampleAttestation 1 7))] ++
    pms.map fun pm => (3, 0, .message (.proposal pm))

/-- What member 2 proposes. -/
def sentBy2 : ProposalMsg sample := ProposalMsg.create (2 : UInt8) 2 1 0 none valueA

/-- The same with its entries taken out. -/
def emptied : ProposalMsg sample :=
  { sentBy2 with value := { valueA with attestations := [] } }

/-- Is `pm` what member 3 has stored for the one proposal of member 2? -/
def storedAt3 (pm : ProposalMsg sample) (w : World sample) : Bool :=
  ((w 3).engine.proposer 0).holds (fun key => decide (key = 2)) &&
    decide ((w 3).engine.proposals.lookup 0 = some pm ∧ (w 3).engine.height = 1 ∧
      sentProposals (w 2).log = [sentBy2])

theorem StoredFor.of_storedAt3 {pm : ProposalMsg sample} {w : World sample}
    (h : storedAt3 pm w = true) : StoredFor w 2 (w 3).engine 0 pm sentBy2 := by
  unfold storedAt3 at h
  rw [Bool.and_eq_true, decide_eq_true_eq] at h
  rcases h with ⟨hholds, hstored, hheight, hsent⟩
  rcases Exec.holds_iff.mp hholds with ⟨key, hprop, hkey⟩
  obtain rfl := of_decide_eq_true hkey
  refine ⟨hprop, hstored, ?_, hheight.symm, rfl, ?_⟩
  · rw [hsent]
    exact List.mem_cons_self
  · intro P' hP' _ _
    rw [hsent] at hP'
    exact List.mem_singleton.mp hP'

/-- Handed over as it was sent, the proposal is what member 3 stores. -/
theorem honest_proposal_stands_four :
    ∃ w pm, WorldRun {1, 2, 3} (asSent {1, 2, 3}) fourWorld w ∧
      StoredFor w 2 (w 3).engine 0 pm sentBy2 ∧
      (pm.Same sentBy2 ∨ Collision.Exhibits sample.digest (pm.value.inputs ++
        sentBy2.value.inputs)) := by
  have hplays : (World.play {1, 2, 3} (asSent {1, 2, 3}) sampleOrder fourWorld
      (proposedTo3 [sentBy2])).any (storedAt3 sentBy2) = true := by decide +kernel
  rcases (Option.any_eq_true _ _).mp hplays with ⟨w, hplay, hw⟩
  have hrun := WorldRun.of_play hplay
  have hstored := StoredFor.of_storedAt3 hw
  refine ⟨w, sentBy2, hrun, hstored, ?_⟩
  exact (honest_proposal_stands (sampleWorld_launched {1, 2, 3} _ _) (by decide) (by decide)
    (by decide)).1 w _ hrun Visits.rest hstored

/-- The emptied proposal verifies. Handed over first, it is what member 3
stores, and the real one is ignored. -/
theorem emptied_body_displaces :
    ¬ ∀ (honest : Finset sample.VerifyingKey) (genesis : List sample.VerifyingKey)
      (w₀ w : World sample) (j k : sample.VerifyingKey) (e : Engine sample) (r : UInt64)
      (pm P : ProposalMsg sample), Launched honest genesis w₀ → WorldRun honest anyStep w₀ w →
      j ∈ honest → k ∈ honest → k ≠ j → Visits honest anyStep w k e → StoredFor w j e r pm P →
      pm.Same P ∨ Collision.Exhibits sample.digest (pm.value.inputs ++ P.value.inputs) := by
  intro hall
  have hplays : (World.play {1, 2, 3} anyStep sampleOrder fourWorld
      (proposedTo3 [emptied, sentBy2])).any (storedAt3 emptied) = true := by decide +kernel
  rcases (Option.any_eq_true _ _).mp hplays with ⟨w, hplay, hw⟩
  rcases hall {1, 2, 3} [1, 2, 3, 4] fourWorld w 2 3 _ 0 emptied sentBy2
    (sampleWorld_launched _ _ _) (WorldRun.of_play hplay) (by decide) (by decide) (by decide)
    Visits.rest (StoredFor.of_storedAt3 hw) with ⟨_, _, _, hvalue⟩ | ⟨x, y, hfind, _⟩
  · have hnil : ([] : List (Attestation sample)) = [sampleAttestation 1 7] :=
      congrArg Proposed.attestations hvalue
    exact List.cons_ne_nil _ _ hnil.symm
  · exact absurd (hfind.symm.trans (by decide +kernel : _ = none)) (by simp)

end SmartLedger
