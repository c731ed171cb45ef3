import SmartLedger.Consensus.Integrity
import SmartLedger.Consensus.Store

/-! # Catching up with a block one could have committed

`applySyncedBlock` followed by `resume` is meant to leave the engine where a
local commit of the same block would. The two transitions differ in one line:
only the local commit drops the enacted changes from the pending pool.
`catch_up_eq_commit_iff` says exactly when that shows.

For the "only if" we follow both engines through everything they then do on
their own. Alone at a fresh height an engine only proposes from its own pools
(`Solo`), so what a further commit records it also drops: the number of
pending plus recorded changes stays the same (`Solo.internals`), and a change
that was not dropped is never lost again.
-/

namespace SmartLedger

open Engine

variable {C : Crypto} {ord : IterOrder} {e e' : Engine C}

/-! ## The pending pool -/

/-- No commitment is pending twice. -/
def PoolNodup (e : Engine C) : Prop := (e.govMempool.map (·.commitment)).Nodup

theorem nodup_dropEnacted {enacted pool : List (SignedValidatorChange C)}
    (h : (pool.map (·.commitment)).Nodup) :
    ((dropEnacted enacted pool).map (·.commitment)).Nodup :=
  h.sublist (List.filter_sublist.map _)

/-- Dropping what was taken from the pool drops exactly that many. -/
theorem length_dropEnacted {taken pool : List (SignedValidatorChange C)} (hsub : taken.Sublist pool)
    (h : (pool.map (·.commitment)).Nodup) :
    (dropEnacted taken pool).length + taken.length = pool.length := by
  induction hsub with
  | slnil => rfl
  | @cons l₁ l₂ g hsub ih =>
      rw [List.map_cons, List.nodup_cons] at h
      -- an entry that was not taken stays, as no taken one has its commitment
      have hg : g.commitment ∉ l₁.map (·.commitment) :=
        fun hmem => h.1 ((hsub.map _).subset hmem)
      have hlen := ih h.2
      unfold dropEnacted at hlen ⊢
      rw [List.filter_cons_of_pos (by simpa using hg), List.length_cons, List.length_cons]
      omega
  | @cons_cons l₁ l₂ g hsub ih =>
      rw [List.map_cons, List.nodup_cons] at h
      have hlen := ih h.2
      -- no other entry of the pool has the commitment of `g`
      have hrest : (l₂.filter fun x => decide (x.commitment ∉ (g :: l₁).map (·.commitment))) =
          l₂.filter fun x => decide (x.commitment ∉ l₁.map (·.commitment)) := by
        apply List.filter_congr
        intro x hx
        have hne : x.commitment ≠ g.commitment := by
          intro heq
          exact h.1 (heq ▸ List.mem_map_of_mem hx)
        simp [hne]
      unfold dropEnacted at hlen ⊢
      rw [List.filter_cons_of_neg (by simp), hrest, List.length_cons, List.length_cons]
      omega

/-- Dropping something shortens the pool. -/
theorem length_dropEnacted_lt {enacted pool : List (SignedValidatorChange C)}
    {g : SignedValidatorChange C} (hg : g ∈ pool)
    (hmem : g.commitment ∈ enacted.map (·.commitment)) :
    (dropEnacted enacted pool).length < pool.length := by
  apply List.length_filter_lt_length_iff_exists.mpr
  exact ⟨g, hg, by simpa using hmem⟩

theorem dropEnacted_eq_self {enacted pool : List (SignedValidatorChange C)}
    (h : ∀ g ∈ pool, g.commitment ∉ enacted.map (·.commitment)) :
    dropEnacted enacted pool = pool := by
  apply List.filter_eq_self.mpr
  intro g hg
  exact decide_eq_true (h g hg)

/-! ## An engine on its own -/

/-- Pending and recorded changes together. -/
def changesKnown (e : Engine C) : Nat := e.govMempool.length + e.registry.changes.length

/-- Every value the engine holds takes its changes from its own pool. -/
structure Solo (e : Engine C) : Prop where
  nodup : PoolNodup e
  proposals : ∀ r pm, e.proposals.lookup r = some pm →
    pm.value.governance.Sublist e.govMempool
  valid : ∀ v, e.validValue = some v → v.governance.Sublist e.govMempool

namespace Solo

theorem proposalValue (h : Solo e) : e.proposalValue.1.governance.Sublist e.govMempool := by
  unfold Engine.proposalValue
  split
  · next v hv => exact h.valid v hv
  · exact List.filter_sublist

theorem startRound {r : UInt64} {out : List (Effect C)} (h : Solo e)
    (hstart : e.startRound r = .ok (e', out)) : Solo e' ∧ changesKnown e' = changesKnown e := by
  rcases startRound_frame hstart with ⟨parked, proposals, rfl, hprop⟩
  refine ⟨⟨h.nodup, ?_, h.valid⟩, rfl⟩
  intro r' pm hpm
  rcases hprop with ⟨rfl, _⟩ | ⟨_, _, rfl, _⟩
  · exact h.proposals r' pm hpm
  · rcases KeyMap.lookup_orInsert_cases hpm with hold | ⟨_, rfl, _⟩
    · exact h.proposals r' pm hold
    · exact h.proposalValue

/-- Rolling over one's own value moves its changes from pending to recorded. -/
theorem rolled (h : Solo e) {v : Proposed C} (height : UInt64) (set : ValidatorSet C)
    (hsub : v.governance.Sublist e.govMempool) :
    Solo (e.rolled v (dropEnacted v.governance e.govMempool) height set) ∧
    changesKnown (e.rolled v (dropEnacted v.governance e.govMempool) height set) =
      changesKnown e := by
  constructor
  · refine ⟨nodup_dropEnacted h.nodup, ?_, ?_⟩
    · intro r pm hpm
      simp [Engine.rolled, clearHeight] at hpm
    · intro w hw
      simp [Engine.rolled, clearHeight] at hw
  · have hlen := length_dropEnacted hsub h.nodup
    simp only [changesKnown, Engine.rolled, clearHeight, ValidatorRegistry.recordAll_changes,
      List.length_append, List.length_map]
    omega

theorem internal {out : List (Effect C)} (h : Solo e) (hi : Internal ord e out e') :
    Solo e' ∧ changesKnown e' = changesKnown e := by
  cases hi with
  | prevote => exact ⟨⟨h.nodup, h.proposals, h.valid⟩, rfl⟩
  | schedulePrevote => exact ⟨⟨h.nodup, h.proposals, h.valid⟩, rfl⟩
  | polka hstep hnew hpm =>
      refine ⟨⟨h.nodup, h.proposals, ?_⟩, rfl⟩
      intro v hv
      -- the valid value is the proposal of the round
      obtain rfl := Option.some.inj hv
      exact h.proposals _ _ hpm
  | latePolka hstep hnew hpm =>
      refine ⟨⟨h.nodup, h.proposals, ?_⟩, rfl⟩
      intro v hv
      obtain rfl := Option.some.inj hv
      exact h.proposals _ _ hpm
  | precommitNil => exact ⟨⟨h.nodup, h.proposals, h.valid⟩, rfl⟩
  | schedulePrecommit => exact ⟨⟨h.nodup, h.proposals, h.valid⟩, rfl⟩
  | jump hlt hstart => exact h.startRound hstart
  | wake hparked hwake =>
      rcases wake_frame hwake with ⟨proposals, rfl, hprop⟩
      refine ⟨⟨h.nodup, ?_, h.valid⟩, rfl⟩
      intro r' pm hpm
      rcases hprop with ⟨rfl, _⟩ | ⟨_, _, rfl, _⟩
      · exact h.proposals r' pm hpm
      · rcases KeyMap.lookup_orInsert_cases hpm with hold | ⟨_, rfl, _⟩
        · exact h.proposals r' pm hold
        · exact h.proposalValue
  | commit hpm hquorum hvalid hcommit =>
      rcases commit_cases hcommit with ⟨height, set, out', _, _, hstart, rfl⟩
      rcases h.rolled height set (h.proposals _ _ hpm) with ⟨hsolo, hknown⟩
      rcases hsolo.startRound hstart with ⟨hsolo', hknown'⟩
      exact ⟨hsolo', hknown'.trans hknown⟩

theorem internals {out : List (Effect C)} (h : Solo e) (hi : Internals ord e out e') :
    changesKnown e' = changesKnown e := by
  induction hi with
  | refl e => rfl
  | step hi rest ih =>
      rcases h.internal hi with ⟨hsolo, hknown⟩
      exact (ih hsolo).trans hknown

end Solo

/-! ## Nothing is pending twice -/

theorem PoolNodup.internal {out : List (Effect C)} (h : PoolNodup e)
    (hi : Internal ord e out e') : PoolNodup e' := by
  cases hi with
  | prevote => exact h
  | schedulePrevote => exact h
  | polka => exact h
  | latePolka => exact h
  | precommitNil => exact h
  | schedulePrecommit => exact h
  | jump hlt hstart =>
      rcases startRound_frame hstart with ⟨_, _, rfl, _⟩
      exact h
  | wake hparked hwake =>
      rcases wake_frame hwake with ⟨_, rfl, _⟩
      exact h
  | commit hpm hquorum hvalid hcommit =>
      rcases commit_cases hcommit with ⟨_, _, _, _, _, hstart, rfl⟩
      rcases startRound_frame hstart with ⟨_, _, rfl, _⟩
      exact nodup_dropEnacted h

theorem PoolNodup.enter {ev : Event C} {out : List (Output C)} (h : PoolNodup e)
    (hent : Enter ev e out e') : PoolNodup e' := by
  cases hent with
  | start hstart =>
      rcases startRound_frame hstart with ⟨_, _, rfl, _⟩
      exact h
  | message hi =>
      rcases ingest_frame hi with ⟨_, _, _, rfl⟩
      exact h
  | timeout => exact h
  | attestation => exact h
  | @governance _ change hacc =>
      -- a change whose commitment is pending is refused
      have hfresh : change.commitment ∉ e.govMempool.map (·.commitment) := by
        intro hmem
        rcases List.mem_map.mp hmem with ⟨g, hg, heq⟩
        simp only [acceptsGovernance, Bool.and_eq_true, Bool.not_eq_true',
          List.any_eq_false] at hacc
        exact hacc.2 g hg (beq_iff_eq.mpr heq)
      unfold PoolNodup
      rw [List.map_append, List.map_singleton]
      exact List.nodup_append.mpr ⟨h, List.nodup_singleton _, by
        intro a ha b hb hab
        rw [List.mem_singleton] at hb
        exact hfresh (hb ▸ hab ▸ ha)⟩
  | refused => exact h
  | synced hsync =>
      rcases applySyncedBlock_cases hsync with ⟨_, _, _, _, _, _, rfl⟩
      exact h
  | rejected => exact h
  | resume hstart =>
      rcases startRound_frame hstart with ⟨_, _, rfl, _⟩
      exact h
  | setTime => exact h

theorem PoolNodup.trace {guard : Engine C → Event C → Prop} {e₀ : Engine C}
    {evs : List (Event C)} {log : List (Output C)} (h₀ : PoolNodup e₀)
    (h : Trace guard e₀ evs log e) : PoolNodup e := by
  induction h with
  | init => exact h₀
  | enter _ _ hent ih => exact ih.enter hent
  | internal _ hi ih => exact ih.internal hi

/-! ## The two transitions -/

/-- The commit rule applies to the stored proposal `pm` of round `r`. -/
structure CanCommit (e : Engine C) (r : UInt64) (pm : ProposalMsg C) : Prop where
  stored : e.proposals.lookup r = some pm
  quorum : e.quorum ≤ e.countPrecommits r (.id pm.value.id)
  valid : pm.value.isValid e.tip e.height e.currentSet = true

/-- The local commit of a stored proposal, and everything `advance` does
after it. -/
def commitLocally (ord : IterOrder) (e : Engine C) (r : UInt64) (v : Proposed C) :
    Exec (Engine C × List (Effect C)) := do
  let r ← e.commit ord r v.id v
  thenAdvance ord r

/-- The block taken from a peer instead. -/
def catchUp (ord : IterOrder) (e : Engine C) (b : Block C) :
    Exec (Except String (Engine C × List (Effect C))) := do
  match ← e.applySyncedBlock b with
  | .error err => return .error err
  | .ok e => return .ok (← e.resume ord)

/-- Both roll over the same value; they differ in the pool they keep, and in
whether they were parked. -/
theorem commitLocally_cases {r : UInt64} {v : Proposed C} {out : List (Effect C)}
    (h : commitLocally ord e r v = .ok (e', out)) :
    ∃ height set e₁ o₁ o₂,
      checkedAdd e.height 1 = .ok height ∧
      (e.registry.recordAll v.governance).activeSet height = .ok set ∧
      (e.rolled v (dropEnacted v.governance e.govMempool) height set).startRound 0 =
        .ok (e₁, o₁) ∧
      e₁.advance ord = .ok (e', o₂) := by
  unfold commitLocally at h
  rw [Exec.bind_eq_ok] at h
  rcases h with ⟨⟨e₁, o⟩, hcommit, h⟩
  rcases commit_cases hcommit with ⟨height, set, o₁, hheight, hset, hstart, rfl⟩
  unfold thenAdvance at h
  rw [Exec.bind_eq_ok] at h
  rcases h with ⟨⟨e₂, o₂⟩, hadv, h⟩
  rcases Exec.ok_pair h with ⟨rfl, _⟩
  exact ⟨height, set, e₁, o₁, o₂, hheight, hset, hstart, hadv⟩

/-- Whether we were parked does not matter to entering a round. -/
theorem startRound_parked (e : Engine C) (parked : Bool) (r : UInt64) :
    ({ e with parked } : Engine C).startRound r = e.startRound r := rfl

theorem catchUp_cases {b : Block C} {out : List (Effect C)}
    (h : catchUp ord e b = .ok (.ok (e', out))) :
    b.qc.verify b.header e.currentSet = .ok () ∧
    ∃ height set e₁ o₁ o₂,
      checkedAdd e.height 1 = .ok height ∧
      (e.registry.recordAll b.governance).activeSet height = .ok set ∧
      (e.rolled b.value e.govMempool height set).startRound 0 = .ok (e₁, o₁) ∧
      e₁.advance ord = .ok (e', o₂) := by
  unfold catchUp at h
  rw [Exec.bind_eq_ok] at h
  rcases h with ⟨res, hsync, h⟩
  cases res with
  | error err => cases h
  | ok e₂ =>
      dsimp only at h
      rw [Exec.bind_eq_ok] at h
      rcases h with ⟨res, hresume, h⟩
      obtain rfl : res = (e', out) := Except.ok.inj (Except.ok.inj h)
      rcases applySyncedBlock_cases hsync with ⟨_, hqc, height, set, hheight, hset, rfl⟩
      unfold resume at hresume
      -- whether it was parked makes no difference to a new round
      rw [startRound_parked, Exec.bind_eq_ok] at hresume
      rcases hresume with ⟨⟨e₁, o₁⟩, hstart, hadv⟩
      unfold thenAdvance at hadv
      rw [Exec.bind_eq_ok] at hadv
      rcases hadv with ⟨⟨e₃, o₂⟩, hadv, hres⟩
      rcases Exec.ok_pair hres with ⟨rfl, _⟩
      exact ⟨hqc, height, set, e₁, o₁, o₂, hheight, hset, hstart, hadv⟩

theorem catchUp_eq {b : Block C} {res : Engine C × List (Effect C)}
    (hsync : e.applySyncedBlock b = .ok (.ok e')) (hresume : e'.resume ord = .ok res) :
    catchUp ord e b = .ok (.ok res) := by
  unfold catchUp
  rw [hsync]
  show (do return Except.ok (← e'.resume ord)) = _
  rw [hresume]
  rfl

/-- The engine right after a roll is on its own, whatever pool it kept. -/
theorem Solo.of_rolled {v : Proposed C} {pool : List (SignedValidatorChange C)} {height : UInt64}
    {set : ValidatorSet C} (h : (pool.map (·.commitment)).Nodup) :
    Solo (e.rolled v pool height set) := by
  refine ⟨h, ?_, ?_⟩
  · intro r pm hpm
    simp [Engine.rolled, clearHeight] at hpm
  · intro w hw
    simp [Engine.rolled, clearHeight] at hw

/-- What an engine knows after a roll and all it then does on its own. -/
theorem changesKnown_after_roll {v : Proposed C} {pool : List (SignedValidatorChange C)}
    {height : UInt64} {set : ValidatorSet C} {e₁ : Engine C} {o₁ o₂ : List (Effect C)}
    (h : (pool.map (·.commitment)).Nodup)
    (hstart : (e.rolled v pool height set).startRound 0 = .ok (e₁, o₁))
    (hadv : e₁.advance ord = .ok (e', o₂)) :
    changesKnown e' = pool.length + (e.registry.changes.length + v.governance.length) := by
  have hsolo : Solo (e.rolled v pool height set) := Solo.of_rolled h
  rcases hsolo.startRound hstart with ⟨hsolo₁, hknown₁⟩
  -- proposing, voting and committing alone loses no change
  rw [hsolo₁.internals (advanceLoop_internals hadv), hknown₁]
  simp [changesKnown, Engine.rolled, clearHeight]

section

variable {registry : ValidatorRegistry C} {meSk : C.SigningKey} {mePk : C.VerifyingKey}
  {tip₀ : Hash} {h₀ : UInt64} {e₀ e₁ : Engine C} {r : UInt64} {pm : ProposalMsg C}
  {out : List (Effect C)} {evs : List (Event C)} {log : List (Output C)}

/-- In every state an engine passes through, for every block it can commit
from a stored proposal and precommits: catching up with that block leads to
the very state of the local commit if and only if enough of the precommits
come from members and no change of the block is still pending. -/
theorem catch_up_eq_commit_iff (hkeys : C.Matching meSk mePk)
    (hnew : withRegistry registry meSk mePk tip₀ h₀ = .ok e₀) 
    (htrace : Trace anyEvent e₀ evs log e)
    (hcan : CanCommit e r pm) (hlocal : commitLocally ord e r pm.value = .ok (e₁, out)) :
    (∃ out', catchUp ord e (e.assembleBlock ord r pm.value.id pm.value) = .ok (.ok (e₁, out'))) ↔
    e.quorum ≤ e.memberPrecommits r pm.value.id ∧
      ∀ g ∈ e.govMempool, g.commitment ∉ pm.value.governance.map (·.commitment) := by
  have hinit : e₀.StoresHold e₀.Authentic ∧ PoolNodup e₀ ∧ C.Matching e₀.meSk e₀.mePk := by
    rcases withRegistry_eq_ok hnew with ⟨set, _, rfl⟩
    exact ⟨StoresHold.of_empty rfl rfl, List.nodup_nil, hkeys⟩
  have hstores := (authentic_trace hinit.2.2 hinit.1 htrace).2
  have hnodup : PoolNodup e := hinit.2.1.trace htrace
  have hverify : (e.assembleBlock ord r pm.value.id pm.value).qc.verify pm.value.header
      e.currentSet = .ok () ↔ e.quorum ≤ e.memberPrecommits r pm.value.id :=
    assembleBlock_verify_iff hstores.2 (fun vm hvm => hvm.1) r pm.value
  rcases commitLocally_cases hlocal with ⟨height, set, e₂, o₁, o₂, hheight, hset, hstart, hadv⟩
  constructor
  · rintro ⟨out', hcatch⟩
    rcases catchUp_cases hcatch with ⟨hqc, height', set', e₃, o₃, o₄, _, _, hstart', hadv'⟩
    refine ⟨hverify.mp hqc, ?_⟩
    intro g hg hmem
    -- the local commit forgets a pending change that the catch-up keeps
    have hlocalKnown := changesKnown_after_roll (nodup_dropEnacted hnodup) hstart hadv
    have hcatchKnown := changesKnown_after_roll hnodup hstart' hadv'
    have hshorter := length_dropEnacted_lt hg hmem
    have hsame : (e.assembleBlock ord r pm.value.id pm.value).value.governance.length =
        pm.value.governance.length := rfl
    omega
  · rintro ⟨hmembers, hnone⟩
    -- with nothing to drop, both roll to the same state
    have hdrop := dropEnacted_eq_self hnone
    rw [hdrop] at hstart
    have hsync := applySyncedBlock_eq (b := e.assembleBlock ord r pm.value.id pm.value)
      hcan.valid (hverify.mpr hmembers) hheight hset
    have hresume : ({ e.rolled pm.value e.govMempool height set with parked := false } :
        Engine C).resume ord = .ok (e₁, o₁ ++ o₂) := by
      unfold resume
      rw [startRound_parked, hstart]
      show thenAdvance ord (e₂, o₁) = _
      unfold thenAdvance
      rw [hadv]
      rfl
    exact ⟨o₁ ++ o₂, catchUp_eq hsync hresume⟩

end

/-! ## The lone validator, right before a commit -/

/-- Woken up, it prevotes its own proposal, arms the timeout and precommits. -/
def upToPrecommit (e : Engine sample) : Exec (Engine sample) := do
  let (e, _) ← e.unpark
  let (e, _) ← advanceLoop sampleOrder 3 e
  return e

theorem trace_upToPrecommit {e₀ e e' : Engine sample} {evs : List (Event sample)}
    {log : List (Output sample)} (h : Trace anyEvent e₀ evs log e)
    (hup : upToPrecommit e = .ok e') : ∃ log', Trace anyEvent e₀ evs log' e' := by
  unfold upToPrecommit at hup
  simp only [Exec.bind_eq_ok] at hup
  rcases hup with ⟨⟨e₁, o₁⟩, hunpark, ⟨e₂, o₂⟩, hloop, hup⟩
  obtain rfl : e₂ = e' := Except.ok.inj hup
  have hwake : Internals sampleOrder e o₁ e₁ := unpark_internals hunpark
  exact ⟨_, (h.internals hwake).internals (advanceLoop_internals hloop)⟩

/-- It is about to commit an attestation. -/
def aboutToSeal : Exec (Engine sample) := do
  let (e, _) ← sampleRun [1] 1 [.start]
  upToPrecommit { e with mempool := e.mempool ++ [sampleAttestation 1 7] }

/-- It is about to commit a pending change. -/
def aboutToEnact : Exec (Engine sample) := do
  let (e, _) ← sampleRun [1] 1 [.start]
  if e.acceptsGovernance (sampleChange [2] [] 5 [1]) then
    upToPrecommit { e with govMempool := e.govMempool ++ [sampleChange [2] [] 5 [1]] }
  else throw .expectedPresent

theorem trace_aboutToSeal {e : Engine sample} (h : aboutToSeal = .ok e) :
    ∃ e₀ evs log, sampleEngine [1] 1 = .ok e₀ ∧ Trace anyEvent e₀ evs log e := by
  unfold aboutToSeal at h
  rw [Exec.bind_eq_ok] at h
  rcases h with ⟨⟨e₁, log⟩, hrun, hup⟩
  rcases Exec.bind_eq_ok.mp hrun with ⟨e₀, hnew, hall⟩
  have hone : Run anyEvent e₀ [.start] log e₁ := Run.of_handleAll (fun _ _ _ => trivial) hall
  rcases trace_upToPrecommit (hone.trace.enter trivial Enter.attestation) hup with ⟨log', h⟩
  exact ⟨e₀, _, log', hnew, h⟩

theorem trace_aboutToEnact {e : Engine sample} (h : aboutToEnact = .ok e) :
    ∃ e₀ evs log, sampleEngine [1] 1 = .ok e₀ ∧ Trace anyEvent e₀ evs log e := by
  unfold aboutToEnact at h
  rw [Exec.bind_eq_ok] at h
  rcases h with ⟨⟨e₁, log⟩, hrun, hup⟩
  rcases Exec.bind_eq_ok.mp hrun with ⟨e₀, hnew, hall⟩
  have hone : Run anyEvent e₀ [.start] log e₁ := Run.of_handleAll (fun _ _ _ => trivial) hall
  dsimp only at hup
  split at hup
  · next hacc =>
      rcases trace_upToPrecommit (hone.trace.enter trivial (Enter.governance hacc)) hup with
        ⟨log', h⟩
      exact ⟨e₀, _, log', hnew, h⟩
  · cases hup

/-- With no change pending, catching up is the local commit. -/
theorem catch_up_eq_commit_sealed :
    ∃ (e e₁ : Engine sample) (pm : ProposalMsg sample) (out : List (Effect sample)),
      aboutToSeal = .ok e ∧ CanCommit e 0 pm ∧
      commitLocally sampleOrder e 0 pm.value = .ok (e₁, out) ∧
      ∃ out', catchUp sampleOrder e (e.assembleBlock sampleOrder 0 pm.value.id pm.value) =
        .ok (.ok (e₁, out')) := by
  have hholds : aboutToSeal.holds (fun e => (e.proposals.lookup 0).any fun pm =>
      decide (e.quorum ≤ e.countPrecommits 0 (.id pm.value.id)) &&
        (pm.value.isValid e.tip e.height e.currentSet &&
        ((commitLocally sampleOrder e 0 pm.value).holds (fun _ => true) &&
        (decide (e.quorum ≤ e.memberPrecommits 0 pm.value.id) && e.govMempool.isEmpty)))) = true := by
    decide +kernel
  rcases Exec.holds_iff.mp hholds with ⟨e, he, hany⟩
  rcases (Option.any_eq_true _ _).mp hany with ⟨pm, hpm, hcond⟩
  simp only [Bool.and_eq_true, decide_eq_true_eq, List.isEmpty_iff] at hcond
  rcases hcond with ⟨hquorum, hvalid, hlocal, hmembers, hpool⟩
  rcases Exec.holds_iff.mp hlocal with ⟨⟨e₁, out⟩, hlocal, _⟩
  rcases trace_aboutToSeal he with ⟨e₀, evs, log, hnew, htrace⟩
  have hcan : CanCommit e 0 pm := ⟨hpm, hquorum, hvalid⟩
  -- the pool is empty, so the block enacts nothing that is pending
  have hnone : ∀ g ∈ e.govMempool, g.commitment ∉ pm.value.governance.map (·.commitment) := by
    rw [hpool]
    intro g hg
    cases hg
  have hcatch := (catch_up_eq_commit_iff (sample_matching 1) hnew htrace hcan hlocal).mpr
    ⟨hmembers, hnone⟩
  exact ⟨e, e₁, pm, out, he, hcan, hlocal, hcatch⟩

/-- With the change still pending, the engine that catches up proposes it
again at the next height, and records it twice. -/
theorem catch_up_keeps_enacted_change :
    ¬ ∀ (e₀ e e₁ : Engine sample) (evs : List (Event sample)) (log : List (Output sample))
      (r : UInt64) (pm : ProposalMsg sample) (out : List (Effect sample)),
      sampleEngine [1] 1 = .ok e₀ → Trace anyEvent e₀ evs log e → CanCommit e r pm →
      commitLocally sampleOrder e r pm.value = .ok (e₁, out) →
      ∃ out', catchUp sampleOrder e (e.assembleBlock sampleOrder r pm.value.id pm.value) =
        .ok (.ok (e₁, out')) := by
  intro hall
  have hholds : aboutToEnact.holds (fun e => (e.proposals.lookup 0).any fun pm =>
      decide (e.quorum ≤ e.countPrecommits 0 (.id pm.value.id)) &&
        (pm.value.isValid e.tip e.height e.currentSet &&
        (commitLocally sampleOrder e 0 pm.value).holds fun r₁ =>
          (catchUp sampleOrder e (e.assembleBlock sampleOrder 0 pm.value.id pm.value)).holds
            fun res => match res with
              | .ok r₂ => decide (r₁.1.registry.changes.length = 1) &&
                  decide (r₂.1.registry.changes.length = 2)
              | .error _ => false)) = true := by
    decide +kernel
  rcases Exec.holds_iff.mp hholds with ⟨e, he, hany⟩
  rcases (Option.any_eq_true _ _).mp hany with ⟨pm, hpm, hcond⟩
  rw [Bool.and_eq_true, Bool.and_eq_true, decide_eq_true_eq] at hcond
  rcases hcond with ⟨hquorum, hvalid, hdiff⟩
  rcases Exec.holds_iff.mp hdiff with ⟨⟨e₁, out⟩, hlocal, hdiff⟩
  rcases Exec.holds_iff.mp hdiff with ⟨res, hcatch, hdiff⟩
  rcases trace_aboutToEnact he with ⟨e₀, evs, log, hnew, htrace⟩
  rcases hall e₀ e e₁ evs log 0 pm out hnew htrace ⟨hpm, hquorum, hvalid⟩ hlocal with ⟨out', hsame⟩
  obtain rfl : res = .ok (e₁, out') := Except.ok.inj (hcatch.symm.trans hsame)
  simp only [Bool.and_eq_true, decide_eq_true_eq] at hdiff
  omega

end SmartLedger
