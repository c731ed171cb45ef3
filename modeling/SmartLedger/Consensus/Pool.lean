import SmartLedger.Consensus.Integrity

/-! # The pool of pending attestations

How the pool changes along a run (`Internal.mempool`, `Enter.mempool`): it
grows by what is handed in and loses what a finalized block seals. And what a
fresh proposal makes of it: a value that passes validation on every engine at
the same point of the chain exactly when the entries it takes from the pool
verify (`getValue_isValid_iff`).
-/

namespace SmartLedger

open Engine

variable {C : Crypto} {ord : IterOrder} {e e' : Engine C}

/-- The attestation an event hands in. -/
def Event.handed : Event C → List (Attestation C)
  | .attestation att => [att]
  | _ => []

/-- The attestations sealed by the blocks of a log. -/
def sealedBy (log : List (Output C)) : List (Attestation C) :=
  (finalized log).flatMap (·.attestations)

@[simp] theorem sealedBy_nil : sealedBy ([] : List (Output C)) = [] := rfl

@[simp] theorem sealedBy_append (a b : List (Output C)) :
    sealedBy (a ++ b) = sealedBy a ++ sealedBy b := by
  unfold sealedBy
  rw [finalized_append, List.flatMap_append]

namespace Engine

@[simp] theorem dropSealed_nil (pool : List (Attestation C)) : dropSealed [] pool = pool := by
  simp [dropSealed]

theorem mem_dropSealed {atts pool : List (Attestation C)} {a : Attestation C} :
    a ∈ dropSealed atts pool ↔ a ∈ pool ∧ a.leafHash ∉ atts.map (·.leafHash) := by
  simp [dropSealed]

theorem startRound_mempool {r : UInt64} {out : List (Effect C)}
    (h : e.startRound r = .ok (e', out)) : e'.mempool = e.mempool := by
  rcases startRound_frame h with ⟨_, _, rfl, _⟩
  rfl

/-- An internal step only drops what its block seals. -/
theorem Internal.mempool {out : List (Effect C)} (h : Internal ord e out e') :
    e'.mempool = dropSealed (sealedBy (effects out)) e.mempool := by
  -- all but a commit seal nothing and leave the pool alone
  have hquiet : ∀ {o : List (Effect C)} {e₁ : Engine C}, finalized (effects o) = [] →
      e₁.mempool = e.mempool → e₁.mempool = dropSealed (sealedBy (effects o)) e.mempool := by
    intro o e₁ hnone hpool
    rw [sealedBy, hnone, List.flatMap_nil, dropSealed_nil, hpool]
  cases h with
  | prevote => exact hquiet rfl rfl
  | schedulePrevote => exact hquiet rfl rfl
  | polka => exact hquiet rfl rfl
  | latePolka => exact hquiet rfl rfl
  | precommitNil => exact hquiet rfl rfl
  | schedulePrecommit => exact hquiet rfl rfl
  | jump hlt hstart =>
      exact hquiet (startRound_sameHeight hstart).2 (startRound_mempool hstart)
  | wake hparked hwake =>
      rcases wake_frame hwake with ⟨_, rfl, ⟨_, rfl⟩ | ⟨_, _, _, rfl⟩⟩
      · exact hquiet rfl rfl
      · exact hquiet rfl rfl
  | @commit _ r pm _ hpm hquorum hvalid hcommit =>
      rcases commit_cases hcommit with ⟨height, set, out', _, _, hstart, rfl⟩
      have hsealed : sealedBy (effects (.committed (e.assembleBlock ord r pm.value.id pm.value) ::
          out')) = pm.value.attestations ++ sealedBy (effects out') := rfl
      have hnone : sealedBy (effects out') = [] := by
        rw [sealedBy, (startRound_sameHeight hstart).2]
        rfl
      rw [startRound_mempool hstart, hsealed, hnone, List.append_nil]
      rfl

/-- A change of the inputs adds what is handed in and drops what an applied
block seals. -/
theorem Enter.mempool {ev : Event C} {out : List (Output C)} (h : Enter ev e out e') :
    e'.mempool = dropSealed (sealedBy out) e.mempool ++ ev.handed := by
  have hquiet : ∀ {o : List (Output C)} {e₁ : Engine C}, finalized o = [] →
      e₁.mempool = e.mempool → e₁.mempool = dropSealed (sealedBy o) e.mempool ++ [] := by
    intro o e₁ hnone hpool
    rw [sealedBy, hnone, List.flatMap_nil, dropSealed_nil, hpool, List.append_nil]
  cases h with
  | start hstart => exact hquiet (startRound_sameHeight hstart).2 (startRound_mempool hstart)
  | message hi =>
      rcases ingest_frame hi with ⟨_, _, _, rfl⟩
      exact hquiet rfl rfl
  | timeout => exact hquiet rfl rfl
  | attestation =>
      rw [sealedBy_nil, dropSealed_nil]
      rfl
  | governance => exact hquiet rfl rfl
  | refused => exact hquiet rfl rfl
  | synced hsync =>
      rcases applySyncedBlock_cases hsync with ⟨_, _, height, set, _, _, rfl⟩
      simp [sealedBy, finalized, Output.block?, Event.handed, rolled, clearHeight, Block.value]
  | rejected => exact hquiet rfl rfl
  | resume hstart => exact hquiet (startRound_sameHeight hstart).2 (startRound_mempool hstart)
  | setTime => exact hquiet rfl rfl

end Engine

/-- What holds of every attestation handed in holds of the whole pool. -/
theorem Trace.mempool_of_handed {P : Attestation C → Prop} {guard : Engine C → Event C → Prop}
    {e₀ : Engine C} {evs : List (Event C)} {log : List (Output C)}
    (h : Trace guard e₀ evs log e) (hempty : e₀.mempool = [])
    (hhanded : ∀ ev ∈ evs, ∀ a ∈ ev.handed, P a) : ∀ a ∈ e.mempool, P a := by
  induction h with
  | init =>
      intro a ha
      rw [hempty] at ha
      cases ha
  | enter _ _ hent ih =>
      have ih := ih fun ev hev => hhanded ev (List.mem_append_left _ hev)
      intro a ha
      rw [hent.mempool, List.mem_append] at ha
      rcases ha with ha | ha
      · exact ih a (mem_dropSealed.mp ha).1
      · exact hhanded _ (List.mem_append_right _ List.mem_cons_self) a ha
  | internal _ hi ih =>
      intro a ha
      rw [hi.mempool] at ha
      exact ih hhanded a (mem_dropSealed.mp ha).1

/-! ## Proposing -/

/-- The engines at the same point of the chain as `e`. -/
structure Engine.SamePlace (e f : Engine C) : Prop where
  tip : f.tip = e.tip
  height : f.height = e.height
  registry : f.registry = e.registry
  set : f.registry.activeSet f.height = .ok f.currentSet

/-- Along a run from `e₀` the engine sends a proposal of its own; `e` is
where the step that sends it leads. -/
inductive Sends (guard : Engine C → Event C → Prop) (e₀ : Engine C) :
    List (Event C) → ProposalMsg C → Engine C → Prop where
  | enter {evs : List (Event C)} {log out : List (Output C)} {e e' : Engine C} {ev : Event C}
      {pm : ProposalMsg C} (h : Trace guard e₀ evs log e) (hguard : guard e ev)
      (hent : Enter ev e out e') (hmem : .effect (.broadcast (.proposal pm)) ∈ out) :
      Sends guard e₀ (evs ++ [ev]) pm e'
  | internal {evs : List (Event C)} {log : List (Output C)} {e e' : Engine C} {ord : IterOrder}
      {out : List (Effect C)} {pm : ProposalMsg C} (h : Trace guard e₀ evs log e)
      (hi : Internal ord e out e') (hmem : .broadcast (.proposal pm) ∈ out) :
      Sends guard e₀ evs pm e'

namespace Engine

/-- What the step of a proposal leaves behind: it is never of an empty
value. -/
def Proposes (e : Engine C) (pm : ProposalMsg C) : Prop :=
  ∃ r, pm = e.ownProposal r ∧
    (e.proposalValue.1.attestations ≠ [] ∨ e.proposalValue.1.governance ≠ [])

/-- A fresh proposal carries the front of the pool. -/
theorem Proposes.fresh {pm : ProposalMsg C} (h : e.Proposes pm)
    (hfresh : e.validValue = none) :
    pm.value = e.getValue ∧ (e.getValue.attestations ≠ [] ∨ e.getValue.governance ≠ []) := by
  rcases h with ⟨r, rfl, hne⟩
  have hvalue : e.proposalValue.1 = e.getValue := by
    unfold proposalValue
    rw [hfresh]
  rw [hvalue] at hne
  exact ⟨hvalue, hne⟩

theorem startRound_proposes {r : UInt64} {out : List (Effect C)} {pm : ProposalMsg C}
    (h : e.startRound r = .ok (e', out)) (hmem : .broadcast (.proposal pm) ∈ out) :
    e'.Proposes pm := by
  rcases startRound_frame h with ⟨_, _, rfl, ⟨_, rfl | rfl⟩ | ⟨_, hne, _, rfl⟩⟩
  · cases hmem
  · cases List.mem_singleton.mp hmem
  · have heq : pm = e.ownProposal r := by simpa using hmem
    exact ⟨r, heq, hne⟩

theorem Internal.proposes {out : List (Effect C)} {pm : ProposalMsg C}
    (h : Internal ord e out e') (hmem : .broadcast (.proposal pm) ∈ out) : e'.Proposes pm := by
  cases h with
  | prevote => cases List.mem_singleton.mp hmem
  | schedulePrevote => cases List.mem_singleton.mp hmem
  | polka => cases List.mem_singleton.mp hmem
  | latePolka => cases hmem
  | precommitNil => cases List.mem_singleton.mp hmem
  | schedulePrecommit => cases List.mem_singleton.mp hmem
  | jump hlt hstart => exact startRound_proposes hstart hmem
  | wake hparked hwake =>
      rcases wake_frame hwake with ⟨_, rfl, ⟨_, rfl⟩ | ⟨_, hne, _, rfl⟩⟩
      · cases List.mem_singleton.mp hmem
      · have heq : pm = e.ownProposal e.round := by simpa using hmem
        exact ⟨e.round, heq, hne⟩
  | commit hpm hquorum hvalid hcommit =>
      rcases commit_cases hcommit with ⟨height, set, out', _, _, hstart, rfl⟩
      rcases List.mem_cons.mp hmem with hbad | hmem
      · cases hbad
      · exact startRound_proposes hstart hmem

theorem Enter.proposes {ev : Event C} {out : List (Output C)} {pm : ProposalMsg C}
    (h : Enter ev e out e') (hmem : .effect (.broadcast (.proposal pm)) ∈ out) :
    e'.Proposes pm := by
  cases h with
  | start hstart => exact startRound_proposes hstart (mem_effects.mp hmem)
  | resume hstart => exact startRound_proposes hstart (mem_effects.mp hmem)
  | synced => cases List.mem_singleton.mp hmem
  | message => cases hmem
  | timeout => cases hmem
  | attestation => cases hmem
  | governance => cases hmem
  | refused => cases hmem
  | rejected => cases hmem
  | setTime => cases hmem

theorem startRound_own {r : UInt64} {out : List (Effect C)} {pm : ProposalMsg C}
    (h : e.startRound r = .ok (e', out)) (hmem : .broadcast (.proposal pm) ∈ out) :
    pm = e'.ownProposal e'.round ∧ e'.proposer e'.round = .ok e'.mePk := by
  rcases startRound_frame h with ⟨_, _, rfl, ⟨_, rfl | rfl⟩ | ⟨hprop, _, _, rfl⟩⟩
  · cases hmem
  · cases List.mem_singleton.mp hmem
  · have heq : pm = e.ownProposal r := by simpa using hmem
    exact ⟨heq, hprop⟩

/-- An engine proposes in the round it is in, and when it is its turn. -/
theorem Internal.own {out : List (Effect C)} {pm : ProposalMsg C}
    (h : Internal ord e out e') (hmem : .broadcast (.proposal pm) ∈ out) :
    pm = e'.ownProposal e'.round ∧ e'.proposer e'.round = .ok e'.mePk := by
  cases h with
  | prevote => cases List.mem_singleton.mp hmem
  | schedulePrevote => cases List.mem_singleton.mp hmem
  | polka => cases List.mem_singleton.mp hmem
  | latePolka => cases hmem
  | precommitNil => cases List.mem_singleton.mp hmem
  | schedulePrecommit => cases List.mem_singleton.mp hmem
  | jump hlt hstart => exact startRound_own hstart hmem
  | wake hparked hwake =>
      rcases wake_frame hwake with ⟨_, rfl, ⟨_, rfl⟩ | ⟨hprop, _, _, rfl⟩⟩
      · cases List.mem_singleton.mp hmem
      · have heq : pm = e.ownProposal e.round := by simpa using hmem
        exact ⟨heq, hprop⟩
  | commit hpm hquorum hvalid hcommit =>
      rcases commit_cases hcommit with ⟨_, _, out', _, _, hstart, rfl⟩
      rcases List.mem_cons.mp hmem with hbad | hmem
      · cases hbad
      · exact startRound_own hstart hmem

theorem Enter.own {ev : Event C} {out : List (Output C)} {pm : ProposalMsg C}
    (h : Enter ev e out e') (hmem : .effect (.broadcast (.proposal pm)) ∈ out) :
    pm = e'.ownProposal e'.round ∧ e'.proposer e'.round = .ok e'.mePk := by
  cases h with
  | start hstart => exact startRound_own hstart (mem_effects.mp hmem)
  | resume hstart => exact startRound_own hstart (mem_effects.mp hmem)
  | synced => cases List.mem_singleton.mp hmem
  | message => cases hmem
  | timeout => cases hmem
  | attestation => cases hmem
  | governance => cases hmem
  | refused => cases hmem
  | rejected => cases hmem
  | setTime => cases hmem

/-- Entering a round stores nothing but what it sends. -/
theorem startRound_stored {r r' : UInt64} {out : List (Effect C)} {pm : ProposalMsg C}
    (h : e.startRound r = .ok (e', out)) (hpm : e'.proposals.lookup r' = some pm) :
    e.proposals.lookup r' = some pm ∨ (r' = e'.round ∧ .broadcast (.proposal pm) ∈ out) := by
  rcases startRound_frame h with ⟨_, proposals, rfl, ⟨rfl, _⟩ | ⟨_, _, rfl, rfl⟩⟩
  · exact Or.inl hpm
  · rcases KeyMap.lookup_orInsert_cases hpm with hold | ⟨hr, rfl, _⟩
    · exact Or.inl hold
    · exact Or.inr ⟨hr, List.mem_cons_self⟩

/-- A stored proposal was stored before, or was just sent for the round we
are in; and a commit forgets the ones before. -/
theorem Internal.stored {out : List (Effect C)} {r : UInt64} {pm : ProposalMsg C}
    (h : Internal ord e out e') (hpm : e'.proposals.lookup r = some pm) :
    (SameHeight e e' ∧ e.proposals.lookup r = some pm) ∨
      (r = e'.round ∧ .broadcast (.proposal pm) ∈ out) := by
  cases h with
  | prevote => exact Or.inl ⟨rfl, hpm⟩
  | schedulePrevote => exact Or.inl ⟨rfl, hpm⟩
  | polka => exact Or.inl ⟨rfl, hpm⟩
  | latePolka => exact Or.inl ⟨rfl, hpm⟩
  | precommitNil => exact Or.inl ⟨rfl, hpm⟩
  | schedulePrecommit => exact Or.inl ⟨rfl, hpm⟩
  | jump hlt hstart =>
      rcases startRound_stored hstart hpm with hold | hnew
      · exact Or.inl ⟨(startRound_sameHeight hstart).1, hold⟩
      · exact Or.inr hnew
  | wake hparked hwake =>
      rcases wake_frame hwake with ⟨proposals, rfl, ⟨rfl, _⟩ | ⟨_, _, rfl, rfl⟩⟩
      · exact Or.inl ⟨rfl, hpm⟩
      · rcases KeyMap.lookup_orInsert_cases hpm with hold | ⟨hr, rfl, _⟩
        · exact Or.inl ⟨rfl, hold⟩
        · exact Or.inr ⟨hr, List.mem_cons_self⟩
  | commit hlook hquorum hvalid hcommit =>
      rcases commit_cases hcommit with ⟨_, _, out', _, _, hstart, rfl⟩
      rcases startRound_stored hstart hpm with hold | ⟨hr, hnew⟩
      -- the stores are empty when the next height is entered
      · have hempty : (∅ : KeyMap UInt64 (ProposalMsg C)).lookup r = some pm := hold
        simp at hempty
      · exact Or.inr ⟨hr, List.mem_cons_of_mem _ hnew⟩

/-- Along a change of the inputs, a stored proposal may also be the one that
was handed in. -/
theorem Enter.stored {ev : Event C} {out : List (Output C)} {r : UInt64} {pm : ProposalMsg C}
    (h : Enter ev e out e') (hpm : e'.proposals.lookup r = some pm) :
    (SameHeight e e' ∧ e.proposals.lookup r = some pm) ∨
      (r = e'.round ∧ .effect (.broadcast (.proposal pm)) ∈ out) ∨
      (SameHeight e e' ∧ ev = .message (.proposal pm) ∧ pm.round = r ∧ e.AcceptsProposal pm) := by
  -- entering a round adds our own proposal at most
  have hround : ∀ {x : UInt64} {o : List (Effect C)}, e.startRound x = .ok (e', o) →
      (SameHeight e e' ∧ e.proposals.lookup r = some pm) ∨
        (r = e'.round ∧ .effect (.broadcast (.proposal pm)) ∈ effects o) := by
    intro x o hstart
    rcases startRound_stored hstart hpm with hold | ⟨hr, hnew⟩
    · exact Or.inl ⟨(startRound_sameHeight hstart).1, hold⟩
    · exact Or.inr ⟨hr, mem_effects.mpr hnew⟩
  cases h with
  | start hstart => exact (hround hstart).imp id Or.inl
  | message hi =>
      cases ingest_cases hi with
      | ignored => exact Or.inl ⟨rfl, hpm⟩
      | proposal hacc =>
          rcases KeyMap.lookup_orInsert_cases hpm with hold | ⟨hr, rfl, _⟩
          · exact Or.inl ⟨rfl, hold⟩
          · exact Or.inr (Or.inr ⟨rfl, rfl, hr.symm, hacc⟩)
      | prevote => exact Or.inl ⟨rfl, hpm⟩
      | precommit => exact Or.inl ⟨rfl, hpm⟩
  | timeout => exact Or.inl ⟨rfl, hpm⟩
  | attestation => exact Or.inl ⟨rfl, hpm⟩
  | governance => exact Or.inl ⟨rfl, hpm⟩
  | refused => exact Or.inl ⟨rfl, hpm⟩
  | synced hsync =>
      rcases applySyncedBlock_cases hsync with ⟨_, _, _, _, _, _, rfl⟩
      have hempty : (∅ : KeyMap UInt64 (ProposalMsg C)).lookup r = some pm := hpm
      simp at hempty
  | rejected => exact Or.inl ⟨rfl, hpm⟩
  | resume hstart => exact (hround hstart).imp id Or.inl
  | setTime => exact Or.inl ⟨rfl, hpm⟩

end Engine

namespace Sends

variable {guard : Engine C → Event C → Prop} {e₀ : Engine C} {evs : List (Event C)}
  {pm : ProposalMsg C}

theorem trace (h : Sends guard e₀ evs pm e) : ∃ log, Trace guard e₀ evs log e := by
  cases h with
  | enter h hguard hent => exact ⟨_, Trace.enter h hguard hent⟩
  | internal h hi => exact ⟨_, Trace.internal h hi⟩

theorem imp {guard' : Engine C → Event C → Prop} (h : Sends guard e₀ evs pm e)
    (himp : ∀ e ev, guard e ev → guard' e ev) : Sends guard' e₀ evs pm e := by
  cases h with
  | enter h hguard hent hmem => exact Sends.enter (h.imp himp) (himp _ _ hguard) hent hmem
  | internal h hi hmem => exact Sends.internal (h.imp himp) hi hmem

theorem after {e₁ : Engine C} {evs' : List (Event C)} {log' : List (Output C)}
    (h : Sends guard e₁ evs pm e) (hrun : Run guard e₀ evs' log' e₁) :
    Sends guard e₀ (evs' ++ evs) pm e := by
  cases h with
  | enter h hguard hent hmem =>
      rw [← List.append_assoc]
      exact Sends.enter (hrun.trace.trans h) hguard hent hmem
  | internal h hi hmem => exact Sends.internal (hrun.trace.trans h) hi hmem

theorem proposes (h : Sends guard e₀ evs pm e) : e.Proposes pm := by
  cases h with
  | enter _ _ hent hmem => exact hent.proposes hmem
  | internal _ hi hmem => exact hi.proposes hmem

end Sends

namespace Engine

theorem getValue_txCount (e : Engine C) :
    e.getValue.header.txCount.toNat = e.getValue.attestations.length := by
  have hle : (e.mempool.take maxTxs).length ≤ maxTxs := List.length_take_le _ _
  have hsmall : (e.mempool.take maxTxs).length < 2 ^ 32 :=
    lt_of_le_of_lt hle (by decide)
  show (UInt32.ofNat (e.mempool.take maxTxs).length).toNat = (e.mempool.take maxTxs).length
  rw [UInt32.toNat_ofNat']
  exact Nat.mod_eq_of_lt hsmall

/-- A fresh value that is not empty passes validation, here and at every
engine at the same point of the chain, exactly when the entries it takes
verify: everything else `isValid` checks is as `getValue` builds it. -/
theorem getValue_isValid_iff (hset : e.registry.activeSet e.height = .ok e.currentSet)
    (hne : e.getValue.attestations ≠ [] ∨ e.getValue.governance ≠ []) :
    (∀ f, e.SamePlace f → e.getValue.isValid f.tip f.height f.currentSet = true) ↔
      ∀ a ∈ e.mempool.take maxTxs, a.verify = true := by
  constructor
  · intro hall
    have hself := hall e ⟨rfl, rfl, rfl, hset⟩
    exact ((Proposed.isValid_iff _ _ _ _).mp hself).attestations_verify
  · intro hver f hf
    -- at one height of one registry there is one set
    have hcurrent : f.currentSet = e.currentSet := by
      have h := hf.set
      rw [hf.registry, hf.height, hset] at h
      exact (Except.ok.inj h).symm
    rw [hf.tip, hf.height, hcurrent, Proposed.isValid_iff]
    -- `getValue` only takes changes that pass both checks
    have hgov : ∀ g ∈ e.getValue.governance, g.isAuthorized e.currentSet = true ∧
        e.height < g.change.activationHeight := by
      intro g hg
      have hfilter := (List.mem_filter.mp hg).2
      simpa using hfilter
    exact {
      nonempty := hne
      height_eq := rfl
      prevHash_eq := rfl
      txCount_eq := e.getValue_txCount
      attestations_verify := hver
      merkleRoot_eq := rfl
      govRoot_eq := rfl
      authorized := fun g hg => (hgov g hg).1
      activates_later := fun g hg => (hgov g hg).2 }

end Engine

/-! ## Queued attestations -/

theorem sublist_dropSealed (atts pool : List (Attestation C)) :
    (dropSealed atts pool).Sublist pool :=
  List.filter_sublist

/-- A leaf is sealed when it is the leaf of an entry of a block. -/
theorem mem_sealedBy_leaf {log : List (Output C)} {att : Attestation C} :
    att.leafHash ∈ (sealedBy log).map (·.leafHash) ↔
      ∃ b ∈ finalized log, ∃ a ∈ b.attestations, a.leafHash = att.leafHash := by
  constructor
  · intro h
    rcases List.mem_map.mp h with ⟨a, ha, heq⟩
    rcases List.mem_flatMap.mp ha with ⟨b, hb, hab⟩
    exact ⟨b, hb, a, hab, heq⟩
  · rintro ⟨b, hb, a, hab, heq⟩
    exact List.mem_map.mpr ⟨a, List.mem_flatMap.mpr ⟨b, hb, hab⟩, heq⟩

namespace Trace

variable {guard : Engine C → Event C → Prop} {e₀ : Engine C} {evs : List (Event C)}
  {log : List (Output C)}

/-- What is queued stays, or its leaf is sealed. -/
theorem mempool_kept (h : Trace guard e₀ evs log e) {a : Attestation C} (ha : a ∈ e₀.mempool) :
    a ∈ e.mempool ∨ a.leafHash ∈ (sealedBy log).map (·.leafHash) := by
  -- an entry that a step drops is among what the step seals
  have hdrop : ∀ {pool sealedAtts before : List (Attestation C)},
      a ∈ pool ∨ a.leafHash ∈ before.map (·.leafHash) →
      a ∈ dropSealed sealedAtts pool ∨ a.leafHash ∈ (before ++ sealedAtts).map (·.leafHash) := by
    intro pool sealedAtts before hprev
    rw [List.map_append, List.mem_append]
    rcases hprev with hpool | hsealed
    · by_cases hleaf : a.leafHash ∈ sealedAtts.map (·.leafHash)
      · exact Or.inr (Or.inr hleaf)
      · exact Or.inl (mem_dropSealed.mpr ⟨hpool, hleaf⟩)
    · exact Or.inr (Or.inl hsealed)
  induction h with
  | init => exact Or.inl ha
  | enter _ _ hent ih =>
      rw [hent.mempool, sealedBy_append]
      exact (hdrop ih).imp_left (List.mem_append_left _)
  | internal _ hi ih =>
      rw [hi.mempool, sealedBy_append]
      exact hdrop ih

/-- The pool is what was handed in, less some of it, in its order. -/
theorem mempool_sublist (h : Trace guard e₀ evs log e) :
    e.mempool.Sublist (e₀.mempool ++ evs.flatMap Event.handed) := by
  induction h with
  | init => simp
  | enter _ _ hent ih =>
      rw [hent.mempool, List.flatMap_append, ← List.append_assoc, List.flatMap_singleton]
      exact ((sublist_dropSealed _ _).trans ih).append_right _
  | internal _ hi ih =>
      rw [hi.mempool]
      exact (sublist_dropSealed _ _).trans ih

/-- Once handed in, an attestation is in the pool or its leaf in a block. -/
theorem attestation_kept {e₁ : Engine C} {att : Attestation C} {out : List (Output C)}
    (hqueue : Enter (.attestation att) e out e₁) (h : Trace guard e₁ evs log e') :
    (att ∈ e'.mempool ∨
      ∃ b ∈ finalized log, ∃ a ∈ b.attestations, a.leafHash = att.leafHash) ∧
    e'.mempool.Sublist (e.mempool ++ att :: evs.flatMap Event.handed) := by
  cases hqueue with
  | attestation =>
      constructor
      · have hlast : att ∈ e.mempool ++ [att] :=
          List.mem_append_right _ List.mem_cons_self
        rcases h.mempool_kept hlast with hpool | hleaf
        · exact Or.inl hpool
        · exact Or.inr (mem_sealedBy_leaf.mp hleaf)
      · have hsub := h.mempool_sublist
        rwa [List.append_assoc, List.singleton_append] at hsub

end Trace

/-- The same over whole calls: an attestation that `add_attestation` was given
is pooled after any further calls, or its leaf is in a block that one of them,
or that call itself, committed or applied. -/
theorem Run.attestation_kept {guard : Engine C → Event C → Prop} {e₁ : Engine C}
    {att : Attestation C} {evs : List (Event C)} {out log : List (Output C)}
    (hqueue : e.handle ord (.attestation att) = .ok (e₁, out)) (h : Run guard e₁ evs log e') :
    (att ∈ e'.mempool ∨
      ∃ b ∈ finalized (out ++ log), ∃ a ∈ b.attestations, a.leafHash = att.leafHash) ∧
    e'.mempool.Sublist (e.mempool ++ att :: evs.flatMap Event.handed) := by
  rcases handle_steps hqueue with ⟨e₂, o₁, o₂, hent, hints, rfl⟩
  -- the call goes on after the entry is pooled, and may seal it at once
  have htrace : Trace guard e₂ ([] ++ evs) ([] ++ effects o₂ ++ log) e' :=
    (Trace.init.internals hints).trans h.trace
  cases hent with
  | attestation => simpa using htrace.attestation_kept Enter.attestation

/-- From the moment an attestation is queued, whatever the engine is handed
and whatever it commits or applies: the attestation stays in the pool until a
later block holds one with its leaf. What is in the pool is in the order it was
handed in, and a fresh proposal takes the front of the pool. -/
theorem queued_attestations_kept {e₁ : Engine C} {att : Attestation C} {evs : List (Event C)}
    {out log : List (Output C)} (hqueue : Enter (.attestation att) e out e₁)
    (h : Trace anyEvent e₁ evs log e') :
    (att ∈ e'.mempool ∨
      ∃ b ∈ finalized log, ∃ a ∈ b.attestations, a.leafHash = att.leafHash) ∧
    e'.mempool.Sublist (e.mempool ++ att :: evs.flatMap Event.handed) ∧
    ∀ pm, Sends anyEvent e₁ evs pm e' → e'.validValue = none →
      pm.value.attestations = e'.mempool.take (min maxTxs e'.mempool.length) := by
  rcases h.attestation_kept hqueue with ⟨hkept, horder⟩
  refine ⟨hkept, horder, ?_⟩
  intro pm hsends hfresh
  rw [(hsends.proposes.fresh hfresh).1]
  show e'.mempool.take maxTxs = _
  rw [← List.take_take, List.take_length]

/-- A lone validator seals what it was handed. -/
theorem queued_attestations_kept_lone :
    ∃ (e e₁ e' : Engine sample) (log : List (Output sample)),
      Enter (.attestation (sampleAttestation 1 7)) e [] e₁ ∧ Trace anyEvent e₁ [] log e' ∧
      e'.mempool = [] ∧
      ∃ b ∈ finalized log, ∃ a ∈ b.attestations,
        a.leafHash = (sampleAttestation 1 7).leafHash := by
  have hholds : Exec.holds (do
      let (e, _) ← sampleRun [1] 1 [.start]
      e.handle sampleOrder (.attestation (sampleAttestation 1 7)))
        (fun r => r.1.mempool = []) = true := by decide +kernel
  rcases Exec.holds_iff.mp hholds with ⟨⟨e', log⟩, hrun, hempty⟩
  rcases Exec.bind_eq_ok.mp hrun with ⟨r, _, hhandle⟩
  rcases handle_steps hhandle with ⟨e₁, o₁, o₂, hent, hints, _⟩
  have htrace : Trace anyEvent e₁ [] ([] ++ effects o₂) e' := Trace.init.internals hints
  have hnone : e'.mempool = [] := of_decide_eq_true hempty
  rcases (queued_attestations_kept hent htrace).1 with hpool | hsealed
  · rw [hnone] at hpool
    cases hpool
  · cases hent with
    | attestation => exact ⟨_, _, e', _, Enter.attestation, htrace, hnone, hsealed⟩

end SmartLedger
