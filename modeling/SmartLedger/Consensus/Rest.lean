import SmartLedger.Consensus.CatchUp
import SmartLedger.Consensus.Progress

/-! # Handlers that come to rest

A handler changes the inputs (`entry`, where no hash map is visited) and then,
for most events, runs the loop of `advance` (`handle_eq_entry`). Between two
handler calls no rule is enabled (`AtRest`), whatever the events were and in
whatever order they came (`AtRest.run`).

The commit rule is the only place where the order of a hash map could decide
something. From rest no handler touches more than one round before the rules
run (`entry_touches`), and no rule does (`Fires.atMostOne`), so whenever the
commit rule is evaluated at most one stored round qualifies, and every order
gives the same outcome (`iteration_order_irrelevant`).
-/

namespace SmartLedger

variable {C : Crypto} {ord : IterOrder} {e e' : Engine C}

namespace Engine

/-! ## The two halves of a handler -/

/-- Only a proposal for the current height may wake a parked engine. -/
def mayWake (e : Engine C) : ConsensusMsg C → Bool
  | .proposal pm => decide (pm.height = e.height)
  | .vote _ => false

/-- What an event does before the rules run, and whether they do. -/
def entry (e : Engine C) : Event C → Exec (Engine C × List (Output C) × Bool)
  | .start => do
      let (e, out) ← e.startRound 0
      return (e, effects out, true)
  | .message msg => do
      let e₁ ← e.ingest msg
      let (e₂, out) ← e₁.wakeFor (e.mayWake msg)
      return (e₂, effects out, true)
  | .timeout height round kind =>
      if height = e.height ∧ round = e.round then do
        let (e, out) ← e.fireTimeout kind
        return (e, effects out, true)
      else .ok (e, [], true)
  | .attestation att =>
      let e := { e with mempool := e.mempool ++ [att] }
      if e.parked then do
        let (e, out) ← e.unpark
        return (e, effects out, true)
      else .ok (e, [], false)
  | .governance change =>
      if e.acceptsGovernance change then
        let e := { e with govMempool := e.govMempool ++ [change] }
        if e.parked then do
          let (e, out) ← e.unpark
          return (e, effects out, true)
        else .ok (e, [], false)
      else .ok (e, [], false)
  | .synced block => do
      match ← e.applySyncedBlock block with
      | .ok e => return (e, [.applied block], false)
      | .error _ => return (e, [], false)
  | .resume => do
      let (e, out) ← e.startRound 0
      return (e, effects out, true)
  | .setTime now => .ok (e.setTime now, [], false)

/-- The rest of a handler. -/
def settle (ord : IterOrder) : Engine C × List (Output C) × Bool → Exec (Engine C × List (Output C))
  | (e, out, true) => do
      let (e, o) ← e.advance ord
      return (e, out ++ effects o)
  | (e, out, false) => .ok (e, out)

/-- A handler is the entry of the event and then, at most once, the evaluation
of the rules. -/
theorem handle_eq_entry (ord : IterOrder) (e : Engine C) (ev : Event C) :
    e.handle ord ev = e.entry ev >>= settle ord := by
  cases ev with
  | start =>
      -- both sides are the same binds, nested differently
      simp only [handle, start, thenAdvance, entry, settle, bind_assoc, pure_bind, effects_append]
  | message msg =>
      cases msg <;>
        simp only [handle, onMessage, mayWake, thenAdvance, entry, settle, bind_assoc, pure_bind,
          effects_append]
  | timeout height round kind =>
      simp only [handle, onTimeout, entry]
      split
      · simp only [thenAdvance, settle, bind_assoc, pure_bind, effects_append]
      · simp only [thenAdvance, bind_assoc, pure_bind, effects_append]
        rfl
  | attestation att =>
      simp only [handle, addAttestation, entry]
      split
      · simp only [thenAdvance, settle, bind_assoc, pure_bind, effects_append]
      · rfl
  | governance change =>
      simp only [handle, addGovernance, entry]
      split
      · split
        · simp only [thenAdvance, settle, bind_assoc, pure_bind, effects_append]
        · rfl
      · rfl
  | synced block =>
      simp only [handle, entry, bind_assoc]
      congr 1
      funext res
      cases res <;> rfl
  | resume =>
      simp only [handle, resume, thenAdvance, entry, settle, bind_assoc, pure_bind, effects_append]
  | setTime now => rfl

/-- What holds when the loop is entered and is kept by every rule holds when it
ends. -/
theorem advanceLoop_induction {P : List (Effect C) → Engine C → Prop} {fuel : Nat}
    {out : List (Effect C)} (h : advanceLoop ord fuel e = .ok (e', out)) (hfirst : P [] e)
    (hrule : ∀ {o e₁ o' e₂}, P o e₁ → e₁.applyRule ord = .ok (some (e₂, o')) → P (o ++ o') e₂) :
    P out e' := by
  induction fuel generalizing P e out with
  | zero =>
      rcases Exec.ok_pair h with ⟨rfl, rfl⟩
      exact hfirst
  | succ fuel ih =>
      unfold advanceLoop at h
      rw [Exec.bind_eq_ok] at h
      rcases h with ⟨rule, hr, h⟩
      cases rule with
      | none =>
          rcases Exec.ok_pair h with ⟨rfl, rfl⟩
          exact hfirst
      | some res =>
          rcases res with ⟨e₁, o₁⟩
          dsimp only at h
          rw [Exec.bind_eq_ok] at h
          rcases h with ⟨⟨e₂, o₂⟩, hloop, h⟩
          rcases Exec.ok_pair h with ⟨rfl, rfl⟩
          -- the rest of the loop starts with what this rule put out
          have hnext : P ([] ++ o₁) e₁ := hrule hfirst hr
          apply ih (P := fun o => P (o₁ ++ o)) hloop
          · simpa using hnext
          · intro o e₁ o' e₂ hP hnextRule
            rw [← List.append_assoc]
            exact hrule hP hnextRule

/-- What a submission makes of the pools. -/
inductive Queues (e : Engine C) :
    Event C → List (Attestation C) → List (SignedValidatorChange C) → Prop where
  | attestation (att : Attestation C) :
      Queues e (.attestation att) (e.mempool ++ [att]) e.govMempool
  | governance {change : SignedValidatorChange C} (h : e.acceptsGovernance change = true) :
      Queues e (.governance change) e.mempool (e.govMempool ++ [change])

/-- Everything an entry can do. The rules do not run after a submission to an
engine that is awake, nor after a block of a peer. -/
inductive Opens (e : Engine C) : Event C → Engine C → List (Output C) → Bool → Prop where
  | round {ev : Event C} {e' : Engine C} {out : List (Effect C)}
      (hev : ev = .start ∨ ev = .resume) (h : e.startRound 0 = .ok (e', out)) :
      Opens e ev e' (effects out) true
  | message {msg : ConsensusMsg C} {e₁ e' : Engine C} {out : List (Effect C)}
      (hingest : e.ingest msg = .ok e₁) (hwake : e₁.wakeFor (e.mayWake msg) = .ok (e', out)) :
      Opens e (.message msg) e' (effects out) true
  | timer {kind : TimeoutKind} {e' : Engine C} {out : List (Effect C)}
      (h : e.fireTimeout kind = .ok (e', out)) :
      Opens e (.timeout e.height e.round kind) e' (effects out) true
  | lateTimer {height round : UInt64} {kind : TimeoutKind}
      (h : ¬ (height = e.height ∧ round = e.round)) : Opens e (.timeout height round kind) e [] true
  | woken {ev : Event C} {pool : List (Attestation C)} {gov : List (SignedValidatorChange C)}
      {e' : Engine C} {out : List (Effect C)} (hqueues : Queues e ev pool gov)
      (hparked : e.parked = true)
      (h : unpark { e with mempool := pool, govMempool := gov } = .ok (e', out)) :
      Opens e ev e' (effects out) true
  | queued {ev : Event C} {pool : List (Attestation C)} {gov : List (SignedValidatorChange C)}
      (hqueues : Queues e ev pool gov) (hparked : e.parked = false) :
      Opens e ev { e with mempool := pool, govMempool := gov } [] false
  | refused {ev : Event C} (hev : (∃ c, ev = .governance c ∧ e.acceptsGovernance c = false) ∨
      ∃ b err, ev = .synced b ∧ e.applySyncedBlock b = .ok (.error err)) : Opens e ev e [] false
  | synced {b : Block C} {e' : Engine C} (h : e.applySyncedBlock b = .ok (.ok e')) :
      Opens e (.synced b) e' [.applied b] false
  | setTime (now : UInt64) : Opens e (.setTime now) (e.setTime now) [] false

/-- What an entry does, case by case. -/
theorem entry_opens {ev : Event C} {out : List (Output C)} {go : Bool}
    (h : e.entry ev = .ok (e', out, go)) : e.Opens ev e' out go := by
  -- most events do one thing and go on to the rules
  have hbind : ∀ {x : Exec (Engine C × List (Effect C))},
      (x >>= fun r => pure (r.1, effects r.2, true)) = .ok (e', out, go) →
      ∃ o, x = .ok (e', o) ∧ out = effects o ∧ go = true := by
    intro x hx
    rw [Exec.bind_eq_ok] at hx
    rcases hx with ⟨⟨e₁, o⟩, hx, hr⟩
    rcases Exec.ok_triple hr with ⟨rfl, rfl, rfl⟩
    exact ⟨o, hx, rfl, rfl⟩
  -- queueing is followed by waking up a parked engine
  have hpool : ∀ {pool gov}, Queues e ev pool gov →
      (if e.parked then do
        let (e, out) ← unpark { e with mempool := pool, govMempool := gov }
        return (e, effects out, true)
      else .ok ({ e with mempool := pool, govMempool := gov }, [], false)) = .ok (e', out, go) →
      e.Opens ev e' out go := by
    intro pool gov hqueues h
    by_cases hparked : e.parked = true
    · rw [if_pos hparked] at h
      rcases hbind h with ⟨o, hunpark, rfl, rfl⟩
      exact Opens.woken hqueues hparked hunpark
    · rw [if_neg hparked] at h
      rcases Exec.ok_triple h with ⟨rfl, rfl, rfl⟩
      exact Opens.queued hqueues (by simpa using hparked)
  cases ev with
  | start =>
      rcases hbind h with ⟨o, hstart, rfl, rfl⟩
      exact Opens.round (Or.inl rfl) hstart
  | message msg =>
      simp only [entry] at h
      rw [Exec.bind_eq_ok] at h
      rcases h with ⟨e₁, hingest, h⟩
      rcases hbind h with ⟨o, hwake, rfl, rfl⟩
      exact Opens.message hingest hwake
  | timeout height round kind =>
      simp only [entry] at h
      split at h
      · next hcur =>
          rcases hbind h with ⟨o, hfire, rfl, rfl⟩
          rw [hcur.1, hcur.2]
          exact Opens.timer hfire
      · next hlate =>
          rcases Exec.ok_triple h with ⟨rfl, rfl, rfl⟩
          exact Opens.lateTimer hlate
  | attestation att => exact hpool (Queues.attestation att) h
  | governance change =>
      simp only [entry] at h
      split at h
      · next hacc => exact hpool (Queues.governance hacc) h
      · next hrefused =>
          rcases Exec.ok_triple h with ⟨rfl, rfl, rfl⟩
          exact Opens.refused (Or.inl ⟨change, rfl, by simpa using hrefused⟩)
  | synced block =>
      simp only [entry] at h
      rw [Exec.bind_eq_ok] at h
      rcases h with ⟨res, hsync, h⟩
      cases res with
      | ok e₁ =>
          rcases Exec.ok_triple h with ⟨rfl, rfl, rfl⟩
          exact Opens.synced hsync
      | error err =>
          rcases Exec.ok_triple h with ⟨rfl, rfl, rfl⟩
          exact Opens.refused (Or.inr ⟨block, err, rfl, hsync⟩)
  | resume =>
      rcases hbind h with ⟨o, hstart, rfl, rfl⟩
      exact Opens.round (Or.inr rfl) hstart
  | setTime now =>
      rcases Exec.ok_triple h with ⟨rfl, rfl, rfl⟩
      exact Opens.setTime now

/-- The same for a whole handler, with what its entry establishes. -/
theorem handle_rule_induction {P : List (Output C) → Engine C → Prop} {ev : Event C}
    {out : List (Output C)} (h : e.handle ord ev = .ok (e', out))
    (hentry : ∀ {o e₁ go}, e.Opens ev e₁ o go → P o e₁)
    (hrule : ∀ {o e₁ o' e₂}, P o e₁ → e₁.applyRule ord = .ok (some (e₂, o')) →
      P (o ++ effects o') e₂) : P out e' := by
  rw [handle_eq_entry, Exec.bind_eq_ok] at h
  rcases h with ⟨⟨e₁, o₁, go⟩, hfirst, hsettle⟩
  cases go with
  | false =>
      rcases Exec.ok_pair hsettle with ⟨rfl, rfl⟩
      exact hentry (entry_opens hfirst)
  | true =>
      simp only [settle, Exec.bind_eq_ok] at hsettle
      rcases hsettle with ⟨⟨e₂, o₂⟩, hadv, hret⟩
      rcases Exec.ok_pair hret with ⟨rfl, rfl⟩
      apply advanceLoop_induction (P := fun o => P (o₁ ++ effects o)) hadv
      · simpa using hentry (entry_opens hfirst)
      · intro o e₁ o' e₂ hP hnext
        rw [effects_append, ← List.append_assoc]
        exact hrule hP hnext

/-- The rule of induction along one handler. -/
theorem handle_entry_induction {P : List (Output C) → Engine C → Prop} {ev : Event C}
    {out : List (Output C)} (h : e.handle ord ev = .ok (e', out))
    (hentry : ∀ {o e₁ go}, e.Opens ev e₁ o go → P o e₁)
    (hrule : ∀ {o e₁ o' e₂}, P o e₁ → Fires ord e₁ o' e₂ → P (o ++ effects o') e₂) : P out e' :=
  handle_rule_induction h hentry fun hP hnext => hrule hP (applyRule_fires hnext)

/-! ## No rule is enabled -/

/-- None of the eight rules is enabled, in terms of what is stored. -/
structure AtRest (e : Engine C) : Prop where
  noCommit : ∀ r pm, ¬ CanCommit e r pm
  noSkip : ∀ r ∈ e.laterRounds, (e.votersOf r).card ≤ e.f
  noPrevote : e.step = .propose → ∀ pm, e.proposals.lookup e.round = some pm →
    ∃ vr, pm.validRound = some vr ∧
      (vr < e.round → e.countPrevotes vr (.id pm.value.id) < e.quorum)
  prevoteTimeout : e.step = .prevote → e.quorum ≤ e.countPrevotes e.round .any →
    e.round ∈ e.prevoteTimeoutStarted
  noPolka : e.step ≠ .propose → ∀ pm, e.proposals.lookup e.round = some pm →
    e.quorum ≤ e.countPrevotes e.round (.id pm.value.id) →
    pm.value.isValid e.tip e.height e.currentSet = true → e.round ∈ e.polkaApplied
  noNil : e.step = .prevote → e.countPrevotes e.round .nil < e.quorum
  precommitTimeout : e.quorum ≤ e.countPrecommits e.round .any →
    e.round ∈ e.precommitTimeoutStarted

/-- With no block to commit the loop over the proposals finds none. -/
theorem tryCommitFrom_eq_none {l : List (UInt64 × Hash)}
    (hl : ∀ p ∈ l, ∃ pm, e.proposals.lookup p.1 = some pm ∧ pm.value.id = p.2)
    (hnone : ∀ r pm, ¬ CanCommit e r pm) : e.tryCommitFrom ord l = .ok none := by
  induction l with
  | nil => rfl
  | cons p rest ih =>
      have hrest := ih fun q hq => hl q (List.mem_cons_of_mem _ hq)
      rcases p with ⟨r, id⟩
      rcases hl (r, id) List.mem_cons_self with ⟨pm, hpm, hid⟩
      dsimp only at hpm hid
      unfold tryCommitFrom
      split
      · next hquorum =>
          rw [hpm]
          dsimp only
          split
          · next hvalid =>
              rw [← hid] at hquorum
              exact absurd ⟨hpm, hquorum, hvalid⟩ (hnone r pm)
          · exact hrest
      · exact hrest

/-- When only one round qualifies, the loop ends there wherever it is listed. -/
theorem tryCommitFrom_eq_commit {l : List (UInt64 × Hash)} {r : UInt64} {pm : ProposalMsg C}
    (hl : ∀ p ∈ l, ∃ pm, e.proposals.lookup p.1 = some pm ∧ pm.value.id = p.2)
    (hcan : CanCommit e r pm) (honly : ∀ r' pm', CanCommit e r' pm' → r' = r)
    (hmem : (r, pm.value.id) ∈ l) :
    e.tryCommitFrom ord l = some <$> e.commit ord r pm.value.id pm.value := by
  induction l with
  | nil => cases hmem
  | cons p rest ih =>
      rcases p with ⟨r₁, id₁⟩
      rcases hl (r₁, id₁) List.mem_cons_self with ⟨pm₁, hpm₁, hid₁⟩
      dsimp only at hpm₁ hid₁
      -- the head qualifies exactly if it is round `r`
      have hhead : CanCommit e r₁ pm₁ → r₁ = r ∧ pm₁ = pm := by
        intro hcan₁
        obtain rfl := honly r₁ pm₁ hcan₁
        exact ⟨rfl, Option.some.inj (hpm₁.symm.trans hcan.stored)⟩
      have hrest : ¬ CanCommit e r₁ pm₁ →
          e.tryCommitFrom ord rest = some <$> e.commit ord r pm.value.id pm.value := by
        intro hnot
        apply ih fun q hq => hl q (List.mem_cons_of_mem _ hq)
        rcases List.mem_cons.mp hmem with heq | hmem
        · rw [Prod.mk.injEq] at heq
          rw [← heq.1, hcan.stored] at hpm₁
          obtain rfl := Option.some.inj hpm₁
          rw [← heq.1] at hnot
          exact absurd hcan hnot
        · exact hmem
      unfold tryCommitFrom
      split
      · next hquorum =>
          rw [hpm₁]
          dsimp only
          rw [← hid₁] at hquorum
          split
          · next hvalid =>
              rcases hhead ⟨hpm₁, hquorum, hvalid⟩ with ⟨rfl, rfl⟩
              rw [← hid₁]
          · next hvalid => exact hrest fun hcan₁ => hvalid hcan₁.valid
      · next hquorum =>
          rw [← hid₁] at hquorum
          exact hrest fun hcan₁ => hquorum hcan₁.quorum

theorem candidates_stored (ord : IterOrder) (e : Engine C) :
    ∀ p ∈ (KeyMap.iter ord.rounds e.proposals).map fun entry => (entry.1, entry.2.value.id),
      ∃ pm, e.proposals.lookup p.1 = some pm ∧ pm.value.id = p.2 := by
  intro p hp
  rcases List.mem_map.mp hp with ⟨⟨r, pm⟩, hmem, rfl⟩
  exact ⟨pm, KeyMap.mem_iter.mp hmem, rfl⟩

theorem tryCommit_eq_none (hnone : ∀ r pm, ¬ CanCommit e r pm) : e.tryCommit ord = .ok none :=
  tryCommitFrom_eq_none (candidates_stored ord e) hnone

theorem tryCommit_eq_commit {r : UInt64} {pm : ProposalMsg C} (hcan : CanCommit e r pm)
    (honly : ∀ r' pm', CanCommit e r' pm' → r' = r) :
    e.tryCommit ord = some <$> e.commit ord r pm.value.id pm.value :=
  tryCommitFrom_eq_commit (candidates_stored ord e) hcan honly
    (List.mem_map.mpr ⟨(r, pm), KeyMap.mem_iter.mpr hcan.stored, rfl⟩)

theorem not_canCommit_of_tryCommitFrom {l : List (UInt64 × Hash)} {r : UInt64} {pm : ProposalMsg C}
    (h : e.tryCommitFrom ord l = .ok none) (hmem : (r, pm.value.id) ∈ l) :
    ¬ CanCommit e r pm := by
  intro hcan
  induction l with
  | nil => cases hmem
  | cons p rest ih =>
      rcases p with ⟨r₁, id₁⟩
      unfold tryCommitFrom at h
      rcases List.mem_cons.mp hmem with heq | hmem
      · rw [Prod.mk.injEq] at heq
        rcases heq with ⟨rfl, rfl⟩
        -- the scan would have stopped here
        rw [if_pos hcan.quorum, hcan.stored] at h
        dsimp only at h
        rw [if_pos hcan.valid] at h
        cases hc : e.commit ord r pm.value.id pm.value with
        | error p => rw [hc] at h; cases h
        | ok res => rw [hc] at h; cases h
      · split at h
        · split at h
          · cases h
          next pm₁ _ =>
          split at h
          · cases hc : e.commit ord r₁ id₁ pm₁.value with
            | error p => rw [hc] at h; cases h
            | ok res => rw [hc] at h; cases h
          · exact ih h hmem
        · exact ih h hmem

/-- The commit rule has nothing to do when no stored proposal can be committed. -/
theorem tryCommit_eq_none_iff : e.tryCommit ord = .ok none ↔ ∀ r pm, ¬ CanCommit e r pm := by
  constructor
  · intro h r pm hcan
    exact not_canCommit_of_tryCommitFrom h
      (List.mem_map.mpr ⟨(r, pm), KeyMap.mem_iter.mpr hcan.stored, rfl⟩) hcan
  · exact tryCommit_eq_none

/-- The skip rule, when no later round has `f + 1` voters. -/
theorem trySkip_eq_none_iff :
    e.trySkip = .ok none ↔ ∀ r ∈ e.laterRounds, (e.votersOf r).card ≤ e.f := by
  unfold trySkip
  constructor
  · intro h r hr
    split at h
    · next r' _ =>
        cases hs : e.startRound r' with
        | error p => rw [hs] at h; cases h
        | ok res => rw [hs] at h; cases h
    · next hfind =>
        have hnot := List.find?_eq_none.mp hfind r (by simpa using hr)
        simpa using hnot
  · intro h
    have hfind : (ascendingRounds.order e.laterRounds).find?
        (fun r => decide (e.f < (e.votersOf r).card)) = none := by
      rw [List.find?_eq_none]
      intro r hr
      rw [KeyOrder.mem_order] at hr
      simpa using h r hr
    rw [hfind]

/-- The two prevote rules together. -/
theorem tryPrevote_eq_none_iff :
    (e.tryPrevoteOnProposal = none ∧ e.tryPrevoteOnReproposal = none) ↔
      (e.step = .propose → ∀ pm, e.proposals.lookup e.round = some pm →
        ∃ vr, pm.validRound = some vr ∧
          (vr < e.round → e.countPrevotes vr (.id pm.value.id) < e.quorum)) := by
  unfold tryPrevoteOnProposal tryPrevoteOnReproposal
  by_cases hstep : e.step = .propose
  swap
  · simp [hstep]
  cases hpm : e.proposals.lookup e.round with
  | none => simp [hstep]
  | some pm =>
      cases hvr : pm.validRound with
      | none => simp [hstep, hvr]
      | some vr =>
          by_cases hlt : vr < e.round
          · by_cases hcount : e.countPrevotes vr (.id pm.value.id) < e.quorum
            · simp [hstep, hvr, hlt, hcount]
            · simp [hstep, hvr, hlt, hcount]
          · simp [hstep, hvr, hlt]

/-- The rule of the polka. -/
theorem tryPrecommitOnPolka_eq_none_iff :
    e.tryPrecommitOnPolka = none ↔
      (e.step ≠ .propose → ∀ pm, e.proposals.lookup e.round = some pm →
        e.quorum ≤ e.countPrevotes e.round (.id pm.value.id) →
        pm.value.isValid e.tip e.height e.currentSet = true → e.round ∈ e.polkaApplied) := by
  unfold tryPrecommitOnPolka
  -- in the propose step, and where the rule fired before, both sides hold
  by_cases hstep : e.step = .propose
  · simp [hstep]
  by_cases hdone : e.round ∈ e.polkaApplied
  · simp [hdone]
  rw [if_neg (by simp [hstep, hdone])]
  cases hpm : e.proposals.lookup e.round with
  | none => simp
  | some pm =>
      dsimp only
      constructor
      · intro h _ pm' hpm' hquorum hvalid
        obtain rfl := Option.some.inj hpm'
        rw [if_neg (by simp [hvalid, not_lt.mpr hquorum])] at h
        split at h <;> cases h
      · intro h
        by_cases hquorum : e.quorum ≤ e.countPrevotes e.round (.id pm.value.id)
        · by_cases hvalid : pm.value.isValid e.tip e.height e.currentSet = true
          · exact absurd (h hstep pm rfl hquorum hvalid) hdone
          · rw [if_pos (by simp [hvalid])]
        · rw [if_pos (by simp [not_le.mp hquorum])]

/-- `advance` stops exactly where the engine is at rest, in any order. -/
theorem applyRule_eq_none_iff : e.applyRule ord = .ok none ↔ e.AtRest := by
  -- no rule fires when none of the eight does
  have hsplit : e.applyRule ord = .ok none ↔
      e.tryCommit ord = .ok none ∧ e.trySkip = .ok none ∧
      (e.tryPrevoteOnProposal = none ∧ e.tryPrevoteOnReproposal = none) ∧
      e.trySchedulePrevoteTimeout = none ∧ e.tryPrecommitOnPolka = none ∧
      e.tryPrecommitNil = none ∧ e.trySchedulePrecommitTimeout = none := by
    unfold applyRule
    constructor
    · intro h
      rw [Exec.bind_eq_ok] at h
      rcases h with ⟨c, hc, h⟩
      cases c with
      | some res => cases h
      | none =>
          rw [Exec.bind_eq_ok] at h
          rcases h with ⟨s, hs, h⟩
          cases s with
          | some res => cases h
          | none =>
              have h' := Except.ok.inj h
              simp only [Option.orElse_eq_orElse, Option.orElse_eq_or, Option.or_eq_none_iff] at h'
              tauto
    · rintro ⟨hc, hs, ⟨h₁, h₂⟩, h₃, h₄, h₅, h₆⟩
      rw [hc, hs, h₁, h₂, h₃, h₄, h₅, h₆]
      rfl
  rw [hsplit, tryCommit_eq_none_iff, trySkip_eq_none_iff, tryPrevote_eq_none_iff,
    tryPrecommitOnPolka_eq_none_iff]
  unfold trySchedulePrevoteTimeout tryPrecommitNil trySchedulePrecommitTimeout
  simp only [ite_eq_right_iff, reduceCtorEq, imp_false, not_and, not_le]
  constructor
  · rintro ⟨h₁, h₂, h₃, h₄, h₅, h₆, h₇⟩
    refine ⟨h₁, h₂, h₃, ?_, h₅, h₆, ?_⟩
    · intro hstep hquorum
      by_contra hnew
      have := h₄ hstep hnew
      omega
    · intro hquorum
      by_contra hnew
      have := h₇ hnew
      omega
  · intro h
    refine ⟨h.noCommit, h.noSkip, h.noPrevote, ?_, h.noPolka, h.noNil, ?_⟩
    · intro hstep hnew
      by_contra hquorum
      exact hnew (h.prevoteTimeout hstep (not_lt.mp hquorum))
    · intro hnew
      by_contra hquorum
      exact hnew (h.precommitTimeout (not_lt.mp hquorum))

namespace AtRest

/-- With nothing stored there is nothing to do. -/
theorem of_empty (hproposals : e.proposals = ∅) (hprevotes : e.prevotes = ∅)
    (hprecommits : e.precommits = ∅) : e.AtRest := by
  have hlookup : ∀ r, e.proposals.lookup r = none := by simp [hproposals]
  -- no count reaches the threshold, which is positive
  have hpos : 0 < e.quorum := e.currentSet.threshold_pos
  have hcount : ∀ r want, e.countPrevotes r want = 0 := by
    intro r want
    unfold countPrevotes
    rw [hprevotes]
    rfl
  have hcount' : ∀ r want, e.countPrecommits r want = 0 := by
    intro r want
    unfold countPrecommits
    rw [hprecommits]
    rfl
  constructor
  · intro r pm hcan
    have hstored := hcan.stored
    rw [hlookup] at hstored
    cases hstored
  · intro r hr
    unfold laterRounds at hr
    rw [hprevotes, hprecommits] at hr
    simp at hr
  · intro _ pm hpm
    rw [hlookup] at hpm
    cases hpm
  · intro _ hquorum
    rw [hcount] at hquorum
    omega
  · intro _ pm hpm
    rw [hlookup] at hpm
    cases hpm
  · intro _
    rw [hcount]
    exact hpos
  · intro hquorum
    rw [hcount'] at hquorum
    omega

/-- The rules do not look at the pools or at the clock. -/
theorem congr {pool : List (Attestation C)} {gov : List (SignedValidatorChange C)} {now : UInt64}
    (h : e.AtRest) (heq : e' = { e with mempool := pool, govMempool := gov, now := now }) :
    e'.AtRest := by
  subst heq
  exact ⟨fun r pm hcan => h.noCommit r pm ⟨hcan.stored, hcan.quorum, hcan.valid⟩, h.noSkip,
    h.noPrevote, h.prevoteTimeout, h.noPolka, h.noNil, h.precommitTimeout⟩

/-- Handlers leave an engine at rest. -/
theorem handle {ev : Event C} {out : List (Output C)} (h : e.AtRest)
    (hstep : e.handle ord ev = .ok (e', out)) : e'.AtRest := by
  rw [handle_eq_entry, Exec.bind_eq_ok] at hstep
  rcases hstep with ⟨⟨e₁, o₁, go⟩, hentry, hsettle⟩
  cases go with
  | true =>
      simp only [settle, Exec.bind_eq_ok] at hsettle
      rcases hsettle with ⟨⟨e₂, o₂⟩, hadv, hret⟩
      rcases Exec.ok_pair hret with ⟨rfl, _⟩
      exact applyRule_eq_none_iff.mp (advance_quiescent hadv)
  | false =>
      rcases Exec.ok_pair hsettle with ⟨rfl, _⟩
      cases entry_opens hentry with
      | queued => exact h.congr rfl
      | refused => exact h
      | synced hsync =>
          rcases applySyncedBlock_cases hsync with ⟨_, _, height, set, _, _, rfl⟩
          exact AtRest.of_empty rfl rfl rfl
      | setTime => exact h.congr rfl

/-- At rest at every point of a run. -/
theorem run {guard : Engine C → Event C → Prop} {e₀ : Engine C} {evs : List (Event C)}
    {log : List (Output C)} (h₀ : e₀.AtRest) (hrun : Run guard e₀ evs log e) : e.AtRest := by
  induction hrun with
  | init => exact h₀
  | step _ _ hstep ih => exact ih.handle hstep

/-- A new engine is at rest. -/
theorem of_new {registry : ValidatorRegistry C} {meSk : C.SigningKey} {mePk : C.VerifyingKey}
    {tip : Hash} {startHeight : UInt64}
    (h : withRegistry registry meSk mePk tip startHeight = .ok e) : e.AtRest := by
  rcases withRegistry_eq_ok h with ⟨set, _, rfl⟩
  exact AtRest.of_empty rfl rfl rfl

end AtRest

/-! ## At most one round qualifies -/

/-- At most one stored round qualifies for the commit rule. -/
def AtMostOne (e : Engine C) : Prop :=
  ∀ r pm r' pm', CanCommit e r pm → CanCommit e r' pm' → r = r'

/-- Nothing that the commit rule looks at changed outside round `r₀`. -/
structure TouchesOnly (r₀ : UInt64) (e e' : Engine C) : Prop where
  sameHeight : SameHeight e e'
  proposals : ∀ r, r ≠ r₀ → e'.proposals.lookup r = e.proposals.lookup r
  precommits : ∀ r, r ≠ r₀ → e'.precommits.ofRound r = e.precommits.ofRound r

namespace TouchesOnly

variable {r₀ : UInt64} {out : List (Effect C)}

/-- Where no block could be committed, a change to one round makes at most one
possible. -/
theorem atMostOne (h : TouchesOnly r₀ e e') (hnone : ∀ r pm, ¬ CanCommit e r pm) :
    AtMostOne e' := by
  have honly : ∀ r pm, CanCommit e' r pm → r = r₀ := by
    intro r pm hcan
    by_contra hne
    refine hnone r pm ⟨?_, ?_, ?_⟩
    · rw [← h.proposals r hne]
      exact hcan.stored
    · have hquorum := hcan.quorum
      unfold Engine.quorum countPrecommits at hquorum ⊢
      rwa [VoteStore.count_eq, h.precommits r hne, ← VoteStore.count_eq, h.sameHeight.currentSet]
        at hquorum
    · have hvalid := hcan.valid
      rwa [h.sameHeight.tip, h.sameHeight.height, h.sameHeight.currentSet] at hvalid
  intro r pm r' pm' hcan hcan'
  rw [honly r pm hcan, honly r' pm' hcan']

theorem startRound {r : UInt64} (h : e.startRound r = .ok (e', out)) : TouchesOnly r e e' := by
  rcases startRound_frame h with ⟨parked, proposals, rfl, hprop⟩
  refine ⟨rfl, ?_, fun _ _ => rfl⟩
  intro r' hne
  rcases hprop with ⟨rfl, _⟩ | ⟨_, _, rfl, _⟩
  · rfl
  · exact KeyMap.lookup_orInsert_ne _ _ hne

theorem wake (h : enterPropose { e with parked := false } e.round = .ok (e', out)) :
    TouchesOnly e.round e e' := by
  rcases wake_frame h with ⟨proposals, rfl, hprop⟩
  refine ⟨rfl, ?_, fun _ _ => rfl⟩
  intro r' hne
  rcases hprop with ⟨rfl, _⟩ | ⟨_, _, rfl, _⟩
  · rfl
  · exact KeyMap.lookup_orInsert_ne _ _ hne

theorem castPrecommit (e : Engine C) (id : Option Hash) :
    TouchesOnly e.round e (e.castPrecommit id) := by
  refine ⟨rfl, fun _ _ => rfl, ?_⟩
  intro r hne
  show (e.precommits.put e.round e.mePk.id _).ofRound r = _
  rw [VoteStore.ofRound_put, if_neg hne]

end TouchesOnly

/-- Reading a message touches the round it is for. -/
theorem ingest_touches {msg : ConsensusMsg C} (h : e.ingest msg = .ok e') :
    ∃ r₀, TouchesOnly r₀ e e' := by
  cases ingest_cases h with
  | ignored => exact ⟨0, rfl, fun _ _ => rfl, fun _ _ => rfl⟩
  | @proposal pm hacc =>
      exact ⟨pm.round, rfl, fun r hne => KeyMap.lookup_orInsert_ne _ _ hne, fun _ _ => rfl⟩
  | prevote => exact ⟨0, rfl, fun _ _ => rfl, fun _ _ => rfl⟩
  | @precommit vm hacc htype =>
      refine ⟨vm.round, rfl, fun _ _ => rfl, ?_⟩
      intro r hne
      show (e.precommits.offer vm.round vm.voter.id vm).ofRound r = _
      rw [VoteStore.ofRound_offer, if_neg hne]

/-- Waking up for a message adds no proposal: one is stored already. -/
theorem wakeFor_frame {wake : Bool} {out : List (Effect C)}
    (h : e.wakeFor wake = .ok (e', out)) :
    ∃ parked, e' = { e with parked } ∧
      (parked = e.parked ∧ out = [] ∨
        e.parked = true ∧ parked = false ∧ (e.proposals.lookup e.round).isSome) := by
  unfold wakeFor at h
  split at h
  · next hcond =>
      rw [Bool.and_eq_true, Bool.and_eq_true] at hcond
      unfold unpark at h
      rw [if_pos hcond.1.1] at h
      rcases wake_frame h with ⟨proposals, rfl, hprop⟩
      refine ⟨false, ?_, Or.inr ⟨hcond.1.1, rfl, hcond.2⟩⟩
      rcases hprop with ⟨rfl, _⟩ | ⟨_, _, rfl, _⟩
      · rfl
      · rcases Option.isSome_iff_exists.mp hcond.2 with ⟨pm, hpm⟩
        simp [KeyMap.orInsert, hpm]
  · rcases Exec.ok_pair h with ⟨rfl, rfl⟩
    exact ⟨_, rfl, Or.inl ⟨rfl, rfl⟩⟩

theorem fireTimeout_touches {kind : TimeoutKind} {out : List (Effect C)}
    (h : e.fireTimeout kind = .ok (e', out)) : ∃ r₀, TouchesOnly r₀ e e' := by
  cases kind with
  | propose =>
      dsimp only [fireTimeout, emitPrevote] at h
      split at h
      · rcases Exec.ok_pair h with ⟨rfl, _⟩
        exact ⟨0, rfl, fun _ _ => rfl, fun _ _ => rfl⟩
      · rcases Exec.ok_pair h with ⟨rfl, _⟩
        exact ⟨0, rfl, fun _ _ => rfl, fun _ _ => rfl⟩
  | prevote =>
      dsimp only [fireTimeout, emitPrecommit] at h
      split at h
      · rcases Exec.ok_pair h with ⟨rfl, _⟩
        exact ⟨e.round, TouchesOnly.castPrecommit e none⟩
      · rcases Exec.ok_pair h with ⟨rfl, _⟩
        exact ⟨0, rfl, fun _ _ => rfl, fun _ _ => rfl⟩
  | precommit =>
      unfold fireTimeout at h
      rw [Exec.bind_eq_ok] at h
      rcases h with ⟨next, _, hstart⟩
      exact ⟨next, TouchesOnly.startRound hstart⟩

theorem unpark_touches {out : List (Effect C)} (h : e.unpark = .ok (e', out)) :
    TouchesOnly e.round e e' := by
  unfold unpark at h
  split at h
  · exact TouchesOnly.wake h
  · rcases Exec.ok_pair h with ⟨rfl, _⟩
    exact ⟨rfl, fun _ _ => rfl, fun _ _ => rfl⟩

/-- No handler touches more than one round before the rules run. -/
theorem entry_touches {ev : Event C} {out : List (Output C)}
    (h : e.entry ev = .ok (e', out, true)) : ∃ r₀, TouchesOnly r₀ e e' := by
  cases entry_opens h with
  | round _ hstart => exact ⟨0, TouchesOnly.startRound hstart⟩
  | message hingest hwake =>
      rcases ingest_touches hingest with ⟨r₀, ht⟩
      rcases wakeFor_frame hwake with ⟨parked, rfl, _⟩
      exact ⟨r₀, ht.sameHeight, ht.proposals, ht.precommits⟩
  | timer hfire => exact fireTimeout_touches hfire
  | lateTimer => exact ⟨0, rfl, fun _ _ => rfl, fun _ _ => rfl⟩
  | woken _ _ hunpark =>
      -- the pools are not looked at
      have ht := unpark_touches hunpark
      exact ⟨e.round, ht.sameHeight, ht.proposals, ht.precommits⟩

/-- The rules other than a commit keep to one round. -/
theorem Fires.atMostOne {out : List (Effect C)} (h : Fires ord e out e')
    (hnone : ∀ r pm, ¬ CanCommit e r pm) : AtMostOne e' := by
  -- these rules leave the proposals and the precommits alone
  have hquiet : ∀ {e₁ : Engine C}, SameHeight e e₁ → e₁.proposals = e.proposals →
      e₁.precommits = e.precommits → AtMostOne e₁ := by
    intro e₁ hsame hprop hpre
    refine TouchesOnly.atMostOne (?_ : TouchesOnly 0 e e₁) hnone
    refine ⟨hsame, ?_, ?_⟩
    · intro r _
      rw [hprop]
    · intro r _
      rw [hpre]
  cases h with
  | prevote => exact hquiet rfl rfl rfl
  | schedulePrevote => exact hquiet rfl rfl rfl
  | @polka pm =>
      have ht := TouchesOnly.castPrecommit (e.lock pm.value) (some pm.value.id)
      have ht' : TouchesOnly e.round e
          (((e.lock pm.value).castPrecommit (some pm.value.id)).recordValid pm.value) :=
        ⟨ht.sameHeight, ht.proposals, ht.precommits⟩
      exact ht'.atMostOne hnone
  | latePolka => exact hquiet rfl rfl rfl
  | precommitNil => exact (TouchesOnly.castPrecommit e none).atMostOne hnone
  | schedulePrecommit => exact hquiet rfl rfl rfl
  | skip _ _ hstart => exact (TouchesOnly.startRound hstart).atMostOne hnone
  | commit hpm hquorum hvalid _ => exact absurd ⟨hpm, hquorum, hvalid⟩ (hnone _ _)

/-- A commit leaves at most our own proposal for round 0. -/
theorem commit_atMostOne {r : UInt64} {v : Proposed C} {out : List (Effect C)}
    (h : e.commit ord r v.id v = .ok (e', out)) : AtMostOne e' := by
  rcases commit_cases h with ⟨height, set, out', _, _, hstart, _⟩
  refine (TouchesOnly.startRound hstart).atMostOne ?_
  intro r pm hcan
  have hstored := hcan.stored
  simp [rolled, clearHeight] at hstored

/-- A rule is the commit of the one round that qualifies, or does not depend
on any order. -/
theorem AtMostOne.applyRule_cases (h : AtMostOne e) :
    (∃ r pm, CanCommit e r pm ∧
      ∀ ord, e.applyRule ord = some <$> e.commit ord r pm.value.id pm.value) ∨
    ((∀ r pm, ¬ CanCommit e r pm) ∧ ∀ ord ord', e.applyRule ord = e.applyRule ord') := by
  by_cases hcan : ∃ r pm, CanCommit e r pm
  · left
    rcases hcan with ⟨r, pm, hcan⟩
    refine ⟨r, pm, hcan, ?_⟩
    intro ord
    unfold applyRule
    rw [tryCommit_eq_commit hcan fun r' pm' hcan' => h r' pm' r pm hcan' hcan]
    cases e.commit ord r pm.value.id pm.value with
    | error p => rfl
    | ok res => rfl
  · right
    have hnone : ∀ r pm, ¬ CanCommit e r pm := fun r pm hc => hcan ⟨r, pm, hc⟩
    refine ⟨hnone, ?_⟩
    intro ord ord'
    unfold applyRule
    rw [tryCommit_eq_none hnone, tryCommit_eq_none hnone]

theorem AtMostOne.applyRule {out : List (Effect C)} (h : AtMostOne e)
    (hrule : e.applyRule ord = .ok (some (e', out))) : AtMostOne e' := by
  rcases h.applyRule_cases with ⟨r, pm, _, heq⟩ | ⟨hnone, _⟩
  · rw [heq ord] at hrule
    cases hc : e.commit ord r pm.value.id pm.value with
    | error p => rw [hc] at hrule; cases hrule
    | ok res =>
        rw [hc] at hrule
        obtain rfl : res = (e', out) := Option.some.inj (Except.ok.inj hrule)
        exact commit_atMostOne hc
  · exact (applyRule_fires hrule).atMostOne hnone

/-- The states in which `advance` evaluates its rules, the commit rule first,
after it was entered in `e`. -/
inductive Evaluates (ord : IterOrder) (e : Engine C) : Engine C → Prop where
  | here : Evaluates ord e e
  | next {e₁ e₂ : Engine C} {out : List (Effect C)} (h : Evaluates ord e e₁)
      (hrule : e₁.applyRule ord = .ok (some (e₂, out))) : Evaluates ord e e₂

theorem Evaluates.atMostOne (h : Evaluates ord e e') (hone : AtMostOne e) : AtMostOne e' := by
  induction h with
  | here => exact hone
  | next _ hrule ih => exact ih.applyRule hrule

/-- An event touches one round, so it makes at most one block possible. -/
theorem AtRest.atMostOne {ev : Event C} {out : List (Output C)} (h : e.AtRest)
    (hentry : e.entry ev = .ok (e', out, true)) : AtMostOne e' := by
  rcases entry_touches hentry with ⟨r₀, ht⟩
  exact ht.atMostOne h.noCommit

end Engine

open Engine

/-! ## Two iteration orders -/

/-- Two computations that panic alike, or return related results. -/
inductive Exec.Agree {α β : Type} (R : α → β → Prop) : Exec α → Exec β → Prop where
  | ok {a : α} {b : β} (h : R a b) : Exec.Agree R (.ok a) (.ok b)
  | error (p : Panic) : Exec.Agree R (.error p) (.error p)

theorem Exec.Agree.bind {α β α' β' : Type} {R : α → β → Prop} {S : α' → β' → Prop} {x : Exec α}
    {y : Exec β} {f : α → Exec α'} {g : β → Exec β'} (h : Exec.Agree R x y)
    (hfg : ∀ a b, R a b → Exec.Agree S (f a) (g b)) : Exec.Agree S (x >>= f) (y >>= g) := by
  cases h with
  | ok h => exact hfg _ _ h
  | error p => exact Exec.Agree.error p

theorem Exec.Agree.refl {α : Type} {R : α → α → Prop} (hR : ∀ a, R a a) (x : Exec α) :
    Exec.Agree R x x := by
  cases x with
  | ok a => exact Exec.Agree.ok (hR a)
  | error p => exact Exec.Agree.error p

/-- The same block, with the signatures of its certificate in another order. -/
structure Block.Alike (b b' : Block C) : Prop where
  header : b.header = b'.header
  attestations : b.attestations = b'.attestations
  governance : b.governance = b'.governance
  blockId : b.qc.blockId = b'.qc.blockId
  signatures : b.qc.signatures.Perm b'.qc.signatures

/-- The same effect, up to the order of certificate signatures. -/
inductive Effect.Alike : Effect C → Effect C → Prop where
  | same (x : Effect C) : Effect.Alike x x
  | committed {b b' : Block C} (h : b.Alike b') : Effect.Alike (.committed b) (.committed b')

inductive Output.Alike : Output C → Output C → Prop where
  | effect {x y : Effect C} (h : x.Alike y) : Output.Alike (.effect x) (.effect y)
  | applied (b : Block C) : Output.Alike (.applied b) (.applied b)

theorem Output.Alike.refl (x : Output C) : x.Alike x := by
  cases x with
  | effect x => exact Output.Alike.effect (Effect.Alike.same x)
  | applied b => exact Output.Alike.applied b

/-- The same state, and effects that differ at most in the order of certificate
signatures. -/
def SameEffects (r r' : Engine C × List (Effect C)) : Prop :=
  r.1 = r'.1 ∧ List.Forall₂ Effect.Alike r.2 r'.2

def SameOutputs (r r' : Engine C × List (Output C)) : Prop :=
  r.1 = r'.1 ∧ List.Forall₂ Output.Alike r.2 r'.2

theorem SameEffects.refl (r : Engine C × List (Effect C)) : SameEffects r r :=
  ⟨rfl, List.forall₂_same.mpr fun x _ => Effect.Alike.same x⟩

theorem SameOutputs.refl (r : Engine C × List (Output C)) : SameOutputs r r :=
  ⟨rfl, List.forall₂_same.mpr fun x _ => Output.Alike.refl x⟩

theorem forall₂_effects {out out' : List (Effect C)} (h : List.Forall₂ Effect.Alike out out') :
    List.Forall₂ Output.Alike (effects out) (effects out') := by
  unfold effects
  rw [List.forall₂_map_left_iff, List.forall₂_map_right_iff]
  exact h.imp fun _ _ hx => Output.Alike.effect hx

theorem assembleBlock_alike (ord ord' : IterOrder) (e : Engine C) (r : UInt64) (id : Hash)
    (v : Proposed C) : (e.assembleBlock ord r id v).Alike (e.assembleBlock ord' r id v) := by
  refine ⟨rfl, rfl, rfl, rfl, ?_⟩
  exact ((KeyMap.iter_perm _ _ _).filter _).map _

theorem commit_agree (ord ord' : IterOrder) (e : Engine C) (r : UInt64) (v : Proposed C) :
    Exec.Agree SameEffects (e.commit ord r v.id v) (e.commit ord' r v.id v) := by
  unfold Engine.commit
  apply Exec.Agree.bind (R := Eq) (Exec.Agree.refl (fun _ => rfl) _)
  rintro height _ rfl
  apply Exec.Agree.bind (R := Eq) (Exec.Agree.refl (fun _ => rfl) _)
  rintro e₁ _ rfl
  apply Exec.Agree.bind (R := Eq) (Exec.Agree.refl (fun _ => rfl) _)
  rintro ⟨e₂, out⟩ _ rfl
  refine Exec.Agree.ok ⟨rfl, List.Forall₂.cons ?_ (SameEffects.refl (e₂, out)).2⟩
  exact Effect.Alike.committed (assembleBlock_alike ord ord' e r v.id v)

/-- The loop, pass by pass: the order in which the maps are walked never
decides. -/
theorem advanceLoop_agree (ord ord' : IterOrder) (fuel : Nat) {e : Engine C}
    (hone : AtMostOne e) :
    Exec.Agree SameEffects (advanceLoop ord fuel e) (advanceLoop ord' fuel e) := by
  induction fuel generalizing e with
  | zero => exact Exec.Agree.ok (SameEffects.refl _)
  | succ fuel ih =>
      unfold advanceLoop
      -- one pass: the same rule, from the same state
      have hpass : Exec.Agree (Option.Rel fun r r' => SameEffects r r' ∧ AtMostOne r.1)
          (e.applyRule ord) (e.applyRule ord') := by
        rcases hone.applyRule_cases with ⟨r, pm, _, heq⟩ | ⟨hnone, heq⟩
        · rw [heq ord, heq ord']
          cases hc : e.commit ord r pm.value.id pm.value with
          | error p =>
              have hagree := commit_agree ord ord' e r pm.value
              rw [hc] at hagree
              generalize e.commit ord' r pm.value.id pm.value = res' at hagree
              cases hagree
              exact Exec.Agree.error p
          | ok res =>
              have hafter : AtMostOne res.1 := commit_atMostOne hc
              have hagree := commit_agree ord ord' e r pm.value
              rw [hc] at hagree
              generalize e.commit ord' r pm.value.id pm.value = res' at hagree
              cases hagree with
              | ok h => exact Exec.Agree.ok (Option.Rel.some ⟨h, hafter⟩)
        · rw [heq ord ord']
          cases hrule : e.applyRule ord' with
          | error p => exact Exec.Agree.error p
          | ok res =>
              cases res with
              | none => exact Exec.Agree.ok Option.Rel.none
              | some res =>
                  exact Exec.Agree.ok (Option.Rel.some ⟨SameEffects.refl res,
                    (applyRule_fires hrule).atMostOne hnone⟩)
      refine hpass.bind ?_
      intro res res' hrel
      cases hrel with
      | none => exact Exec.Agree.ok (SameEffects.refl _)
      | @some r r' h =>
          rcases r with ⟨e₁, o₁⟩
          rcases r' with ⟨e₁', o₁'⟩
          rcases h with ⟨⟨heq, ho⟩, hafter⟩
          dsimp only at heq ho hafter
          subst heq
          refine (ih hafter).bind ?_
          rintro ⟨e₂, o₂⟩ ⟨e₂', o₂'⟩ ⟨heq, ho₂⟩
          exact Exec.Agree.ok ⟨heq, List.rel_append ho ho₂⟩

/-- One event under two orders. -/
theorem handle_agree (ord ord' : IterOrder) (h : e.AtRest) (ev : Event C) :
    Exec.Agree SameOutputs (e.handle ord ev) (e.handle ord' ev) := by
  rw [handle_eq_entry, handle_eq_entry]
  cases hentry : e.entry ev with
  | error p => exact Exec.Agree.error p
  | ok res =>
      rcases res with ⟨e₁, out, go⟩
      cases go with
      | false => exact Exec.Agree.ok (SameOutputs.refl _)
      | true =>
          have hloop : Exec.Agree SameEffects (e₁.advance ord) (e₁.advance ord') :=
            advanceLoop_agree ord ord' _ (h.atMostOne hentry)
          refine hloop.bind ?_
          rintro ⟨e₂, o₂⟩ ⟨e₂', o₂'⟩ ⟨heq, ho⟩
          exact Exec.Agree.ok
            ⟨heq, List.rel_append (SameOutputs.refl (e₁, out)).2 (forall₂_effects ho)⟩

/-- Handle a list of events, each with its own iteration orders. -/
def Engine.handleEach (e : Engine C) :
    List (IterOrder × Event C) → Exec (Engine C × List (Output C))
  | [] => .ok (e, [])
  | (ord, ev) :: rest => do
      let (e, out) ← e.handle ord ev
      let (e, out') ← handleEach e rest
      return (e, out ++ out')

/-- Events one after another, each under its own two orders. -/
theorem handleEach_agree {l l' : List (IterOrder × Event C)}
    (hevs : l.map Prod.snd = l'.map Prod.snd) {e : Engine C} (h : e.AtRest) :
    Exec.Agree SameOutputs (e.handleEach l) (e.handleEach l') := by
  induction l generalizing l' e with
  | nil =>
      obtain rfl : l' = [] := List.map_eq_nil_iff.mp hevs.symm
      exact Exec.Agree.ok (SameOutputs.refl _)
  | cons p l ih =>
      rcases p with ⟨ord, ev⟩
      cases l' with
      | nil => cases hevs
      | cons p' l' =>
          rcases p' with ⟨ord', ev'⟩
          rw [List.map_cons, List.map_cons, List.cons.injEq] at hevs
          rcases hevs with ⟨hev, hevs⟩
          dsimp only at hev
          subst hev
          unfold handleEach
          -- the state after the first event is at rest again
          have hfirst : Exec.Agree (fun r r' => SameOutputs r r' ∧ r.1.AtRest) (e.handle ord ev)
              (e.handle ord' ev) := by
            have hagree := handle_agree ord ord' h ev
            cases hres : e.handle ord ev with
            | error p =>
                rw [hres] at hagree
                generalize e.handle ord' ev = res' at hagree
                cases hagree
                exact Exec.Agree.error p
            | ok res =>
                rw [hres] at hagree
                generalize e.handle ord' ev = res' at hagree
                cases hagree with
                | ok hsame => exact Exec.Agree.ok ⟨hsame, h.handle hres⟩
          refine hfirst.bind ?_
          rintro ⟨e₁, o₁⟩ ⟨e₁', o₁'⟩ ⟨⟨heq, ho⟩, hrest⟩
          dsimp only at heq ho hrest
          subst heq
          refine (ih hevs hrest).bind ?_
          rintro ⟨e₂, o₂⟩ ⟨e₂', o₂'⟩ ⟨heq, ho₂⟩
          exact Exec.Agree.ok ⟨heq, List.rel_append ho ho₂⟩

/-- Whatever events a new engine is fed, in any order, and however its hash
maps are visited at each of them: it panics alike or ends in the same state
with the same effects, up to the order of the signatures in committed blocks.
And in every state in which the loop evaluates the commit rule, at most one
stored round satisfies it. -/
theorem iteration_order_irrelevant {registry : ValidatorRegistry C} {meSk : C.SigningKey}
    {mePk : C.VerifyingKey} {tip : Hash} {startHeight : UInt64} {e₀ : Engine C}
    (hnew : withRegistry registry meSk mePk tip startHeight = .ok e₀) :
    (∀ l l' : List (IterOrder × Event C), l.map Prod.snd = l'.map Prod.snd →
      Exec.Agree SameOutputs (e₀.handleEach l) (e₀.handleEach l')) ∧
    (∀ (evs : List (Event C)) (log : List (Output C)) (e : Engine C), Run anyEvent e₀ evs log e →
      ∀ (ev : Event C) (out : List (Output C)) (e₁ : Engine C),
      e.entry ev = .ok (e₁, out, true) → ∀ (ord : IterOrder) (e₂ : Engine C),
      Evaluates ord e₁ e₂ → ∀ r pm r' pm', CanCommit e₂ r pm → CanCommit e₂ r' pm' → r = r') := by
  have hrest := AtRest.of_new hnew
  constructor
  · intro l l' hevs
    exact handleEach_agree hevs hrest
  · intro evs log e hrun ev out e₁ hentry ord e₂ hevaluates
    exact hevaluates.atMostOne ((hrest.run hrun).atMostOne hentry)

/-- Everything in descending order. -/
def reversedOrder : IterOrder where
  rounds := ⟨fun s => (ascendingRounds.order s).reverse, fun s => by
    rw [Multiset.coe_reverse, ascendingRounds.perm]⟩
  ids := ⟨fun s => (sampleOrder.ids.order s).reverse, fun s => by
    rw [Multiset.coe_reverse, sampleOrder.ids.perm]⟩

/-- Validator 1 of four stores the proposals of two rounds, and hears three
prevotes and three precommits for the first. -/
def twoProposals : List (Event sample) :=
  [.start, .message (sampleProposal 3 1 none (sampleValue [sampleAttestation 1 8])),
    .message (sampleProposal 2 0 none (sampleValue [sampleAttestation 1 7])),
    .message (sampleVote 2 0 .prevote (some (sampleValue [sampleAttestation 1 7]).id)),
    .message (sampleVote 3 0 .prevote (some (sampleValue [sampleAttestation 1 7]).id)),
    .message (sampleVote 4 0 .precommit (some (sampleValue [sampleAttestation 1 7]).id)),
    .message (sampleVote 3 0 .precommit (some (sampleValue [sampleAttestation 1 7]).id))]

/-- The signers of the certificates of a log. -/
def signers (log : List (Output sample)) : List (List sample.VerifyingKey) :=
  (finalized log).map fun b => b.qc.signatures.map (·.validator)

/-- The two orders visit both the stored proposals and the precommits the other
way round: the certificates list their signers differently, and nothing else
differs. -/
theorem iteration_order_irrelevant_four :
    ∃ e₀ r r', sampleEngine [1, 2, 3, 4] 1 = .ok e₀ ∧
      e₀.handleEach (twoProposals.map fun ev => (sampleOrder, ev)) = .ok r ∧
      e₀.handleEach (twoProposals.map fun ev => (reversedOrder, ev)) = .ok r' ∧
      signers r.2 = [[1, 3, 4]] ∧ signers r'.2 = [[4, 3, 1]] ∧ SameOutputs r r' := by
  have hholds : Exec.holds (do
      let e₀ ← sampleEngine [1, 2, 3, 4] 1
      let r ← e₀.handleEach (twoProposals.map fun ev => (sampleOrder, ev))
      let r' ← e₀.handleEach (twoProposals.map fun ev => (reversedOrder, ev))
      return (e₀, r, r')) (fun x => decide (signers x.2.1.2 = [[1, 3, 4]]) &&
        decide (signers x.2.2.2 = [[4, 3, 1]])) = true := by
    decide +kernel
  rcases Exec.holds_iff.mp hholds with ⟨⟨e₀, r, r'⟩, hrun, hsigners⟩
  rw [Bool.and_eq_true, decide_eq_true_eq, decide_eq_true_eq] at hsigners
  simp only [Exec.bind_eq_ok] at hrun
  rcases hrun with ⟨e₁, hnew, r₁, hrun₁, r₂, hrun₂, hret⟩
  rcases Exec.ok_triple hret with ⟨rfl, rfl, rfl⟩
  have hagree := (iteration_order_irrelevant hnew).1
    (twoProposals.map fun ev => (sampleOrder, ev)) (twoProposals.map fun ev => (reversedOrder, ev))
    (by simp)
  rw [hrun₁, hrun₂] at hagree
  cases hagree with
  | ok hsame => exact ⟨_, _, _, hnew, hrun₁, hrun₂, hsigners.1, hsigners.2, hsame⟩

end SmartLedger
