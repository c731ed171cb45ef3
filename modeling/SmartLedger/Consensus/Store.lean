import SmartLedger.Consensus.Runs

/-! # What the vote stores hold

A store is filled on two paths, `offer` for the verified votes of others and
`put` for our own. `VoteStore.Holds` says what every entry has in common
whatever the path: it is filed under its voter's id and its round, has the
store's kind and height, and satisfies a property `G` of votes that the
callers choose (its signature verifies, its voter is a member, somebody
really cast it).

`StoresHold.internal` and `StoresHold.enter` carry such a property along a
run; `authentic_trace` is the first use: the stores only ever hold verifying
votes of members, and our own. `assembleBlock_countValid` connects the counting of the commit rule with the
counting of the certificate it assembles.
-/

namespace SmartLedger

variable {C : Crypto}

namespace VoteStore

@[simp] theorem ofRound_empty (r : UInt64) : (∅ : VoteStore C).ofRound r = ∅ := by
  simp [ofRound]

theorem ofRound_put (s : VoteStore C) (r r' : UInt64) (id : Hash) (vm : VoteMsg C) :
    (s.put r id vm).ofRound r' = if r' = r then (s.ofRound r).insert id vm else s.ofRound r' := by
  unfold put
  by_cases hr : r' = r
  · subst hr
    simp [ofRound]
  · simp [ofRound, hr, Finmap.lookup_insert_of_ne s hr]

theorem ofRound_offer (s : VoteStore C) (r r' : UInt64) (id : Hash) (vm : VoteMsg C) :
    (s.offer r id vm).ofRound r' =
      if r' = r then KeyMap.orInsert (s.ofRound r) id vm else s.ofRound r' := by
  unfold offer
  by_cases hr : r' = r
  · subst hr
    simp [ofRound]
  · simp [ofRound, hr, Finmap.lookup_insert_of_ne s hr]

/-- What a `put` leaves in the store. -/
theorem lookup_put_cases {s : VoteStore C} {r r' : UInt64} {id k : Hash} {vm vm' : VoteMsg C}
    (h : ((s.put r id vm).ofRound r').lookup k = some vm') :
    (r' = r ∧ k = id ∧ vm' = vm) ∨ (s.ofRound r').lookup k = some vm' := by
  rw [ofRound_put] at h
  split at h
  · next hr =>
      rcases KeyMap.lookup_insert_cases h with ⟨hk, hv⟩ | ⟨_, hold⟩
      · exact Or.inl ⟨hr, hk, hv⟩
      · rw [hr]
        exact Or.inr hold
  · exact Or.inr h

/-- What an `offer` leaves in the store. -/
theorem lookup_offer_cases {s : VoteStore C} {r r' : UInt64} {id k : Hash} {vm vm' : VoteMsg C}
    (h : ((s.offer r id vm).ofRound r').lookup k = some vm') :
    (r' = r ∧ k = id ∧ vm' = vm) ∨ (s.ofRound r').lookup k = some vm' := by
  rw [ofRound_offer] at h
  split at h
  · next hr =>
      rcases KeyMap.lookup_orInsert_cases h with hold | ⟨hk, hv, _⟩
      · rw [hr]
        exact Or.inr hold
      · exact Or.inl ⟨hr, hk, hv⟩
  · exact Or.inr h

/-- A `put` overwrites the entry of its own id only. -/
theorem lookup_put_of_ne {s : VoteStore C} {r r' : UInt64} {id k : Hash} {vm vm' : VoteMsg C}
    (hne : k ≠ id) (h : (s.ofRound r').lookup k = some vm') :
    ((s.put r id vm).ofRound r').lookup k = some vm' := by
  rw [ofRound_put]
  split
  · next hr => rwa [Finmap.lookup_insert_of_ne _ hne, ← hr]
  · exact h

/-- An `offer` overwrites nothing. -/
theorem lookup_offer_of_some {s : VoteStore C} {r r' : UInt64} {id k : Hash} {vm vm' : VoteMsg C}
    (h : (s.ofRound r').lookup k = some vm') :
    ((s.offer r id vm).ofRound r').lookup k = some vm' := by
  rw [ofRound_offer]
  split
  · next hr => exact KeyMap.lookup_orInsert_of_some (hr ▸ h)
  · exact h

theorem count_eq (s : VoteStore C) (r : UInt64) (want : Match) :
    s.count r want = KeyMap.countValues (fun vm => matchesVote vm.blockId want) (s.ofRound r) := by
  unfold count ofRound
  cases s.lookup r with
  | none => rfl
  | some m => rfl

/-- A count is the number of voter ids filed with a matching vote. -/
theorem count_eq_card (s : VoteStore C) (r : UInt64) (id : Hash) :
    s.count r (.id id) =
      (KeyMap.keysWith (fun vm => vm.blockId == some id) (s.ofRound r)).card := by
  rw [count_eq, KeyMap.countValues_eq_card]
  rfl

/-- Every entry is filed where it belongs and satisfies `G`. -/
def Holds (G : VoteMsg C → Prop) (height : UInt64) (voteType : VoteType) (s : VoteStore C) :
    Prop :=
  ∀ r k vm, (s.ofRound r).lookup k = some vm →
    vm.voter.id = k ∧ vm.height = height ∧ vm.round = r ∧ vm.voteType = voteType ∧ G vm

namespace Holds

variable {G : VoteMsg C → Prop} {height : UInt64} {voteType : VoteType} {s : VoteStore C}

theorem empty : Holds G height voteType (∅ : VoteStore C) := by
  intro r k vm h
  rw [ofRound_empty] at h
  simp at h

theorem put (hs : Holds G height voteType s) (vm : VoteMsg C) (hheight : vm.height = height)
    (htype : vm.voteType = voteType) (hG : G vm) :
    Holds G height voteType (s.put vm.round vm.voter.id vm) := by
  intro r k vm' h
  rcases lookup_put_cases h with ⟨rfl, rfl, rfl⟩ | hold
  · exact ⟨rfl, hheight, rfl, htype, hG⟩
  · exact hs r k vm' hold

theorem offer (hs : Holds G height voteType s) (vm : VoteMsg C) (hheight : vm.height = height)
    (htype : vm.voteType = voteType) (hG : G vm) :
    Holds G height voteType (s.offer vm.round vm.voter.id vm) := by
  intro r k vm' h
  rcases lookup_offer_cases h with ⟨rfl, rfl, rfl⟩ | hold
  · exact ⟨rfl, hheight, rfl, htype, hG⟩
  · exact hs r k vm' hold

theorem mono {G' : VoteMsg C → Prop} (hs : Holds G height voteType s)
    (hGG' : ∀ vm, G vm → G' vm) : Holds G' height voteType s := by
  intro r k vm h
  rcases hs r k vm h with ⟨hk, hheight, hround, htype, hG⟩
  exact ⟨hk, hheight, hround, htype, hGG' vm hG⟩

end Holds

end VoteStore

namespace Engine

variable {ord : IterOrder} {e e' : Engine C}

/-! ## Along a run -/

/-- Both stores hold votes of the current height that satisfy `G`. -/
def StoresHold (G : VoteMsg C → Prop) (e : Engine C) : Prop :=
  VoteStore.Holds G e.height .prevote e.prevotes ∧
    VoteStore.Holds G e.height .precommit e.precommits

/-- What an internal step does to the stores: nothing, one vote of our own,
or, when it commits, everything is cleared. -/
theorem Internal.stores {out : List (Effect C)} (h : Internal ord e out e') :
    (SameHeight e e' ∧
      ((e'.prevotes = e.prevotes ∧ e'.precommits = e.precommits) ∨
      (∃ id, out = [.broadcast (.vote (e.ownVote .prevote id))] ∧
        e'.prevotes = e.prevotes.put e.round e.mePk.id (e.ownVote .prevote id) ∧
        e'.precommits = e.precommits) ∨
      ∃ id, out = [.broadcast (.vote (e.ownVote .precommit id))] ∧
        e'.prevotes = e.prevotes ∧
        e'.precommits = e.precommits.put e.round e.mePk.id (e.ownVote .precommit id))) ∨
    (e'.prevotes = ∅ ∧ e'.precommits = ∅) := by
  cases h with
  | prevote =>
      left
      refine ⟨rfl, Or.inr (Or.inl ?_)⟩
      exact ⟨_, rfl, rfl, rfl⟩
  | schedulePrevote =>
      exact Or.inl ⟨rfl, Or.inl ⟨rfl, rfl⟩⟩
  | polka =>
      left
      refine ⟨rfl, Or.inr (Or.inr ?_)⟩
      exact ⟨_, rfl, rfl, rfl⟩
  | latePolka =>
      exact Or.inl ⟨rfl, Or.inl ⟨rfl, rfl⟩⟩
  | precommitNil =>
      left
      refine ⟨rfl, Or.inr (Or.inr ?_)⟩
      exact ⟨_, rfl, rfl, rfl⟩
  | schedulePrecommit =>
      exact Or.inl ⟨rfl, Or.inl ⟨rfl, rfl⟩⟩
  | jump hlt hstart =>
      -- a skipped round leaves its votes where they are
      have hsame := (startRound_sameHeight hstart).1
      rcases startRound_frame hstart with ⟨parked, proposals, rfl, _⟩
      exact Or.inl ⟨hsame, Or.inl ⟨rfl, rfl⟩⟩
  | wake hparked hwake =>
      rcases wake_frame hwake with ⟨proposals, rfl, _⟩
      exact Or.inl ⟨rfl, Or.inl ⟨rfl, rfl⟩⟩
  | commit hpm hquorum hvalid hcommit =>
      rcases commit_cases hcommit with ⟨height, set, out', _, _, hstart, rfl⟩
      rcases startRound_frame hstart with ⟨parked, proposals, rfl, _⟩
      exact Or.inr ⟨rfl, rfl⟩

namespace StoresHold

variable {G G' : VoteMsg C → Prop}

theorem of_empty (hprevotes : e.prevotes = ∅) (hprecommits : e.precommits = ∅) :
    e.StoresHold G := by
  unfold StoresHold
  rw [hprevotes, hprecommits]
  exact ⟨VoteStore.Holds.empty, VoteStore.Holds.empty⟩

theorem congr (h : e.StoresHold G) (hheight : e'.height = e.height)
    (hprevotes : e'.prevotes = e.prevotes) (hprecommits : e'.precommits = e.precommits)
    (hmono : ∀ vm, G vm → G' vm) : e'.StoresHold G' := by
  unfold StoresHold
  rw [hheight, hprevotes, hprecommits]
  exact ⟨h.1.mono hmono, h.2.mono hmono⟩

/-- Along an internal step, at the same height, it is enough that our own new
vote satisfies the property. -/
theorem internal {out : List (Effect C)} (h : e.StoresHold G) (hi : Internal ord e out e')
    (hmono : SameHeight e e' → ∀ vm, G vm → G' vm)
    (hown : SameHeight e e' → ∀ vm, .broadcast (.vote vm) ∈ out → G' vm) : e'.StoresHold G' := by
  rcases hi.stores with ⟨hsame, hcases⟩ | ⟨hprevotes, hprecommits⟩
  · rcases hcases with ⟨hpv, hpc⟩ | ⟨id, rfl, hpv, hpc⟩ | ⟨id, rfl, hpv, hpc⟩
    · exact h.congr hsame.height hpv hpc (hmono hsame)
    · have hnew := hown hsame _ List.mem_cons_self
      unfold StoresHold
      rw [hsame.height, hpv, hpc]
      exact ⟨(h.1.mono (hmono hsame)).put (e.ownVote .prevote id) rfl rfl hnew, h.2.mono (hmono hsame)⟩
    · have hnew := hown hsame _ List.mem_cons_self
      unfold StoresHold
      rw [hsame.height, hpv, hpc]
      exact ⟨h.1.mono (hmono hsame), (h.2.mono (hmono hsame)).put (e.ownVote .precommit id) rfl rfl hnew⟩
  · exact of_empty hprevotes hprecommits

theorem ingest {msg : ConsensusMsg C} (h : e.StoresHold G) (hi : e.ingest msg = .ok e')
    (hmsg : ∀ vm, msg = .vote vm → e.AcceptsVote vm → G vm) : e'.StoresHold G := by
  cases ingest_cases hi with
  | ignored => exact h
  | proposal => exact h.congr rfl rfl rfl fun _ hG => hG
  | prevote hacc htype => exact ⟨h.1.offer _ hacc.1 htype (hmsg _ rfl hacc), h.2⟩
  | precommit hacc htype => exact ⟨h.1, h.2.offer _ hacc.1 htype (hmsg _ rfl hacc)⟩

/-- Along a change of the inputs, it is enough that a vote read from the
network satisfies the property. -/
theorem enter {ev : Event C} {out : List (Output C)} (h : e.StoresHold G)
    (hent : Enter ev e out e') (hmsg : ∀ vm, ev = .message (.vote vm) → e.AcceptsVote vm → G vm) :
    e'.StoresHold G := by
  cases hent with
  | start hstart =>
      rcases startRound_frame hstart with ⟨parked, proposals, rfl, _⟩
      exact h.congr rfl rfl rfl fun _ hG => hG
  | message hi => exact h.ingest hi fun vm hvm => hmsg vm (congrArg Event.message hvm)
  | timeout => exact h
  | attestation => exact h.congr rfl rfl rfl fun _ hG => hG
  | governance => exact h.congr rfl rfl rfl fun _ hG => hG
  | refused => exact h
  | synced hsync =>
      rcases applySyncedBlock_cases hsync with ⟨_, _, height, set, _, _, rfl⟩
      exact of_empty rfl rfl
  | rejected => exact h
  | resume hstart =>
      rcases startRound_frame hstart with ⟨parked, proposals, rfl, _⟩
      exact h.congr rfl rfl rfl fun _ hG => hG
  | setTime => exact h.congr rfl rfl rfl fun _ hG => hG

end StoresHold

/-- The votes an engine keeps: verifying ones of members, and its own. -/
def Authentic (e : Engine C) (vm : VoteMsg C) : Prop :=
  vm.verifySig = true ∧ (vm.voter ∈ e.currentSet.validators ∨ vm.voter = e.mePk)

theorem startRound_no_vote {r : UInt64} {out : List (Effect C)}
    (h : e.startRound r = .ok (e', out)) (vm : VoteMsg C) : .broadcast (.vote vm) ∉ out := by
  rcases startRound_frame h with ⟨_, _, _, ⟨_, rfl | rfl⟩ | ⟨_, _, _, rfl⟩⟩ <;> simp

/-- The votes an internal step broadcasts are our own. -/
theorem Internal.vote_mem {out : List (Effect C)} (h : Internal ord e out e') {vm : VoteMsg C}
    (hvm : .broadcast (.vote vm) ∈ out) : ∃ voteType id, vm = e.ownVote voteType id := by
  cases h with
  | prevote => exact ⟨_, _, by simpa using hvm⟩
  | schedulePrevote => simp at hvm
  | polka => exact ⟨_, _, by simpa using hvm⟩
  | latePolka => simp at hvm
  | precommitNil => exact ⟨_, _, by simpa using hvm⟩
  | schedulePrecommit => simp at hvm
  | jump hlt hstart => exact absurd hvm (startRound_no_vote hstart vm)
  | wake hparked hwake =>
      rcases wake_frame hwake with ⟨_, _, ⟨_, rfl⟩ | ⟨_, _, _, rfl⟩⟩
      · simp at hvm
      · simp at hvm
  | commit hpm hquorum hvalid hcommit =>
      rcases commit_cases hcommit with ⟨_, _, out', _, _, hstart, rfl⟩
      rcases List.mem_cons.mp hvm with heq | hmem
      · cases heq
      · exact absurd hmem (startRound_no_vote hstart vm)

theorem StoresHold.authentic_internal {out : List (Effect C)} (h : e.StoresHold e.Authentic)
    (hkeys : C.Matching e.meSk e.mePk) (hi : Internal ord e out e') :
    e'.StoresHold e'.Authentic := by
  apply h.internal hi
  · intro hsame vm hvm
    unfold Authentic
    rw [hsame.currentSet, hsame.mePk]
    exact hvm
  · intro hsame vm hvm
    rcases hi.vote_mem hvm with ⟨voteType, id, rfl⟩
    unfold Authentic
    rw [hsame.mePk]
    exact ⟨VoteMsg.verifySig_create hkeys _ _ _ _, Or.inr rfl⟩

theorem StoresHold.authentic_enter {ev : Event C} {out : List (Output C)}
    (h : e.StoresHold e.Authentic) (hent : Enter ev e out e') : e'.StoresHold e'.Authentic := by
  rcases hent.height_cases with ⟨hsame, _⟩ | ⟨_, _, _, _, _, _, _, _, rfl, _⟩
  · have hstores : e'.StoresHold e.Authentic := by
      apply h.enter hent
      intro vm _ hacc
      exact ⟨hacc.2.2, Or.inl hacc.2.1⟩
    apply hstores.congr rfl rfl rfl
    intro vm hvm
    unfold Authentic
    rw [hsame.currentSet, hsame.mePk]
    exact hvm
  · exact StoresHold.of_empty rfl rfl

/-- Along every trace of an engine with a matching keypair. -/
theorem authentic_trace {guard : Engine C → Event C → Prop} {e₀ : Engine C}
    {evs : List (Event C)} {log : List (Output C)} (hkeys : C.Matching e₀.meSk e₀.mePk)
    (h₀ : e₀.StoresHold e₀.Authentic) (h : Trace guard e₀ evs log e) :
    C.Matching e.meSk e.mePk ∧ e.StoresHold e.Authentic := by
  induction h with
  | init => exact ⟨hkeys, h₀⟩
  | enter _ _ hent ih =>
      rw [hent.keys.1, hent.keys.2]
      exact ⟨ih.1, ih.2.authentic_enter hent⟩
  | internal _ hi ih =>
      rw [hi.keys.1, hi.keys.2]
      exact ⟨ih.1, ih.2.authentic_internal ih.1 hi⟩

/-! ## Counting certificates -/

/-- How many of the stored round-`r` precommits for `id` come from members of
the current set. -/
def memberPrecommits (e : Engine C) (r : UInt64) (id : Hash) : Nat :=
  KeyMap.countValues (fun vm => vm.blockId == some id && e.currentSet.contains vm.voter)
    (e.precommits.ofRound r)

/-- In a store of verified precommits, the certificate of the assembled block
counts exactly the members among them. -/
theorem assembleBlock_countValid {G : VoteMsg C → Prop} {height : UInt64}
    (hs : VoteStore.Holds G height .precommit e.precommits)
    (hver : ∀ vm, G vm → vm.verifySig = true) (r : UInt64) (id : Hash) (v : Proposed C) :
    (e.assembleBlock ord r id v).qc.countValid e.currentSet = e.memberPrecommits r id := by
  -- a stored precommit for the id is a verifying share of the certificate
  have hentry : ∀ entry ∈ (KeyMap.iter ord.ids (e.precommits.ofRound r)).filter
      (fun entry => entry.2.blockId == some id),
      entry.2.voter.id = entry.1 ∧
        C.verify entry.2.voter id.asBytes entry.2.sig Context.block = true := by
    rintro ⟨k, vm⟩ hmem
    rw [List.mem_filter, KeyMap.mem_iter, beq_iff_eq] at hmem
    rcases hs r k vm hmem.1 with ⟨hk, _, _, htype, hG⟩
    have hsig := hver vm hG
    unfold VoteMsg.verifySig verifyVote at hsig
    rw [htype, hmem.2] at hsig
    exact ⟨hk, hsig⟩
  unfold QuorumCertificate.countValid assembleBlock
  dsimp only
  rw [countSigned_of_verified]
  · rw [List.filter_map, List.length_map, List.filter_filter]
    unfold memberPrecommits
    rw [← KeyMap.length_filter_iter ord.ids]
    congr 2
    funext entry
    exact Bool.and_comm _ _
  · intro vs hvs
    rcases List.mem_map.mp hvs with ⟨entry, hmem, rfl⟩
    exact (hentry entry hmem).2
  · have hfst : ∀ entry ∈ (KeyMap.iter ord.ids (e.precommits.ofRound r)).filter
        (fun entry => entry.2.blockId == some id), entry.2.voter.id = entry.1 :=
      fun entry hmem => (hentry entry hmem).1
    rw [List.map_map]
    have hmap := List.map_congr_left hfst
    simp only [Function.comp_def]
    rw [hmap]
    exact (KeyMap.nodup_map_fst_iter ord.ids _).sublist (List.filter_sublist.map _)
  · intro vs _
    exact Finset.notMem_empty _

/-- So the assembled certificate verifies exactly when enough members are
among the stored precommits. -/
theorem assembleBlock_verify_iff {G : VoteMsg C → Prop} {height : UInt64}
    (hs : VoteStore.Holds G height .precommit e.precommits)
    (hver : ∀ vm, G vm → vm.verifySig = true) (r : UInt64) (v : Proposed C) :
    (e.assembleBlock ord r v.id v).qc.verify (e.assembleBlock ord r v.id v).header e.currentSet =
        .ok () ↔
      e.quorum ≤ e.memberPrecommits r v.id := by
  rw [QuorumCertificate.verify_eq_ok_iff, assembleBlock_countValid hs hver]
  constructor
  · exact fun h => h.2
  · exact fun h => ⟨rfl, h⟩

/-- If every stored voter is a member, that is every precommit for the id. -/
theorem memberPrecommits_of_members {G : VoteMsg C → Prop} {height : UInt64}
    (hs : VoteStore.Holds G height .precommit e.precommits)
    (hmem : ∀ vm, G vm → vm.voter ∈ e.currentSet.validators) (r : UInt64) (id : Hash) :
    e.countPrecommits r (.id id) ≤ e.memberPrecommits r id := by
  unfold countPrecommits memberPrecommits
  rw [VoteStore.count_eq]
  apply KeyMap.countValues_mono
  intro k vm hk hmatch
  rcases hs r k vm hk with ⟨_, _, _, _, hG⟩
  refine ⟨vm, hk, ?_⟩
  rw [Bool.and_eq_true, ValidatorSet.contains_iff]
  exact ⟨hmatch, hmem vm hG⟩

end Engine

end SmartLedger
