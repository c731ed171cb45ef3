import SmartLedger.Consensus.Locking
import SmartLedger.Node.Replay

/-! # What a reboot forgets

The store keeps finalized blocks. The lock, the valid value and the votes of
the height in progress live in memory only, so `Node::new` starts that height
over. `reboot_keeps_votes_iff` says when nothing is lost by it: exactly when
the node stops before its first vote at the height. A validator that only
stops there never contradicts itself, over any number of reboots.
-/

namespace SmartLedger

open Engine

variable {C : Crypto} {e e' e₀ : Engine C} {evs : List (Event C)} {log : List (Output C)}

/-! ## A height without a vote -/

/-- Bound to nothing at its height: no lock, no valid value, and before the
prevote of its round. -/
structure Unbound (e : Engine C) : Prop where
  step : e.step = .propose
  lockedValue : e.lockedValue = none
  lockedRound : e.lockedRound = none
  validValue : e.validValue = none
  validRound : e.validRound = none

theorem Fresh.unbound (h : Fresh e) : Unbound e :=
  ⟨h.step, h.lockedValue, h.lockedRound, h.validValue, h.validRound⟩

/-- No vote was signed at this height. -/
def Unvoted (log : List (Output C)) (height : UInt64) : Prop :=
  ∀ vm, Cast log vm → vm.height ≠ height

theorem Unvoted.of_append {out : List (Output C)} {height : UInt64}
    (h : Unvoted (log ++ out) height) : Unvoted log height :=
  fun vm hvm => h vm (cast_append.mpr (Or.inl hvm))

/-- A vote of the current height contradicts `Unvoted`. -/
theorem Unvoted.not_ownVote {voteType : VoteType} {id : Option Hash} {height : UInt64}
    (h : Unvoted (log ++ effects [.broadcast (.vote (e.ownVote voteType id))]) height) :
    e.height ≠ height :=
  h (e.ownVote voteType id)
    (cast_append.mpr (Or.inr (cast_effects.mpr List.mem_cons_self)))

/-- Entering a round keeps an engine unbound. -/
theorem Unbound.startRound {r : UInt64} {out : List (Effect C)} (h : Unbound e)
    (hstart : e.startRound r = .ok (e', out)) : Unbound e' := by
  rcases startRound_frame hstart with ⟨parked, proposals, rfl, _⟩
  exact ⟨rfl, h.lockedValue, h.lockedRound, h.validValue, h.validRound⟩

/-- One step: what binds an engine is a vote of its height. -/
theorem Unbound.internal {ord : IterOrder} {out : List (Effect C)}
    (h : Unvoted log e.height → Unbound e) (hi : Internal ord e out e')
    (hnone : Unvoted (log ++ effects out) e'.height) : Unbound e' := by
  -- at the height it was at, the run has been without a vote too
  have hbefore : e'.height = e.height → Unbound e := fun heq => h (heq ▸ hnone.of_append)
  cases hi with
  | prevote => exact absurd rfl hnone.not_ownVote
  | schedulePrevote =>
      have hun := hbefore rfl
      exact ⟨hun.step, hun.lockedValue, hun.lockedRound, hun.validValue, hun.validRound⟩
  | polka => exact absurd rfl hnone.not_ownVote
  | latePolka hstep =>
      -- it never left the propose step
      rw [(hbefore rfl).step] at hstep
      cases hstep
  | precommitNil => exact absurd rfl hnone.not_ownVote
  | schedulePrecommit =>
      have hun := hbefore rfl
      exact ⟨hun.step, hun.lockedValue, hun.lockedRound, hun.validValue, hun.validRound⟩
  | jump _ hstart => exact (hbefore (startRound_sameHeight hstart).1.height).startRound hstart
  | wake _ hwake =>
      rcases wake_frame hwake with ⟨proposals, rfl, _⟩
      have hun := hbefore rfl
      exact ⟨hun.step, hun.lockedValue, hun.lockedRound, hun.validValue, hun.validRound⟩
  | commit _ _ _ hcommit =>
      rcases commit_cases hcommit with ⟨height, set, out', _, _, hstart, rfl⟩
      rcases startRound_frame hstart with ⟨parked, proposals, rfl, _⟩
      exact ⟨rfl, rfl, rfl, rfl, rfl⟩

theorem Unbound.enter {ev : Event C} {out : List (Output C)}
    (h : Unvoted log e.height → Unbound e) (hent : Enter ev e out e')
    (hnone : Unvoted (log ++ out) e'.height) : Unbound e' := by
  have hbefore : e'.height = e.height → Unbound e := fun heq => h (heq ▸ hnone.of_append)
  -- what comes in touches neither the step nor the lock
  have hframe : ∀ {f : Engine C}, f.step = e.step → f.lockedValue = e.lockedValue →
      f.lockedRound = e.lockedRound → f.validValue = e.validValue →
      f.validRound = e.validRound → Unbound e → Unbound f := by
    intro f hs hlv hlr hvv hvr hun
    exact ⟨hs.trans hun.step, hlv.trans hun.lockedValue, hlr.trans hun.lockedRound,
      hvv.trans hun.validValue, hvr.trans hun.validRound⟩
  cases hent with
  | start hstart => exact (hbefore (startRound_sameHeight hstart).1.height).startRound hstart
  | resume hstart => exact (hbefore (startRound_sameHeight hstart).1.height).startRound hstart
  | message hi =>
      rcases ingest_frame hi with ⟨_, _, _, rfl⟩
      exact hframe rfl rfl rfl rfl rfl (hbefore rfl)
  | synced hsync =>
      rcases applySyncedBlock_cases hsync with ⟨_, _, height, set, _, _, rfl⟩
      exact ⟨rfl, rfl, rfl, rfl, rfl⟩
  | timeout => exact hbefore rfl
  | attestation => exact hframe rfl rfl rfl rfl rfl (hbefore rfl)
  | governance => exact hframe rfl rfl rfl rfl rfl (hbefore rfl)
  | refused => exact hbefore rfl
  | rejected => exact hbefore rfl
  | setTime => exact hframe rfl rfl rfl rfl rfl (hbefore rfl)

variable {guard : Engine C → Event C → Prop}

/-- Until its first vote at a height, an engine is bound to nothing there. -/
theorem Trace.unbound (hstart : Unbound e₀) (h : Trace guard e₀ evs log e)
    (hnone : Unvoted log e.height) : Unbound e := by
  induction h with
  | init => exact hstart
  | enter _ _ hent ih => exact Unbound.enter ih hent hnone
  | internal _ hi ih => exact Unbound.internal ih hi hnone

/-- All votes are of height `n` or later, and so is the engine. -/
def VotesFrom (n : Nat) (log : List (Output C)) (e : Engine C) : Prop :=
  n ≤ e.height.toNat ∧ ∀ vm, Cast log vm → n ≤ vm.height.toNat

theorem VotesFrom.ownVote {n : Nat} {voteType : VoteType} {id : Option Hash}
    (h : VotesFrom n log e) :
    ∀ vm, Cast (log ++ effects [.broadcast (.vote (e.ownVote voteType id))]) vm →
      n ≤ vm.height.toNat := by
  intro vm hvm
  rcases cast_append.mp hvm with hold | hnew
  · exact h.2 vm hold
  · have heq : vm = e.ownVote voteType id := by simpa [cast_effects] using hnew
    rw [heq]
    exact h.1

theorem VotesFrom.step {n : Nat} {out : List (Output C)} (h : VotesFrom n log e)
    (hstep : VoteStep e out e') : VotesFrom n (log ++ out) e' := by
  cases hstep with
  | silent hsame hout =>
      refine ⟨?_, fun vm hvm => h.2 vm (hout.cast_iff.mp hvm)⟩
      rw [hsame.height]
      exact h.1
  | prevote => exact ⟨h.1, h.ownVote⟩
  | polka => exact ⟨h.1, h.ownVote⟩
  | precommitNil => exact ⟨h.1, h.ownVote⟩
  | roll _ hout hheight =>
      rw [UInt64.lt_iff_toNat_lt] at hheight
      exact ⟨h.1.trans hheight.le, fun vm hvm => h.2 vm (hout.cast_iff.mp hvm)⟩

/-- An engine never votes below the height it started at. -/
theorem VotesFrom.trace (h : Trace driven e₀ evs log e) :
    VotesFrom e₀.height.toNat log e := by
  induction h with
  | init => exact ⟨le_rfl, fun vm hvm => by cases hvm⟩
  | enter _ hdriven hent ih => exact ih.step (hent.voteStep hdriven)
  | internal _ hi ih => exact ih.step hi.voteStep

/-! ## Boots and lives of a node -/

/-- One pass of the loop, with what its engine did. -/
def Node.Logged (n : Node C) (log : List (Output C)) (n' : Node C) : Prop :=
  ∃ evs, Run driven n.engine evs log n'.engine ∧ n'.store = n.store ++ finalized log

section Reboot

variable (genesis : List C.VerifyingKey) (meSk : C.SigningKey) (mePk : C.VerifyingKey)

/-- The node is built from `store` and its loop runs; it stands between two
events, and its engine has done `log` so far. -/
inductive Boot (store : List (Block C)) : List (Output C) → Node C → Prop where
  | new {baseTimeout : Nat} {n : Node C}
      (hnew : Node.new genesis meSk mePk store baseTimeout = .ok n) : Boot store [] n
  | start {baseTimeout : Nat} {n₀ n : Node C} {log : List (Output C)} {acts : List (Action C)}
      {ord : IterOrder} {now : UInt64}
      (hnew : Node.new genesis meSk mePk store baseTimeout = .ok n₀)
      (hbegin : n₀.begin ord now = .ok (n, acts)) (hlog : n₀.Logged log n) : Boot store log n
  | pass {n n' : Node C} {log out : List (Output C)} {ev : NodeEvent C} {acts : List (Action C)}
      {ord : IterOrder} {now : UInt64} (h : Boot store log n)
      (hstep : n.handle ord now ev = .ok (n', acts)) (hlog : n.Logged out n') :
      Boot store (log ++ out) n'

/-- A node's boots so far, each from the store the one before left behind:
everything its engines did, and the store. `stop` is asked of every moment at
which it was stopped. -/
inductive Life (stop : List (Output C) → Node C → Prop) :
    List (Output C) → List (Block C) → Prop where
  | unborn : Life stop [] []
  | boot {past log : List (Output C)} {store : List (Block C)} {n : Node C}
      (h : Life stop past store) (hboot : Boot genesis meSk mePk store log n)
      (hstop : stop (past ++ log) n) : Life stop (past ++ log) n.store

/-- It may be stopped at any moment between two events. -/
def anyStop : List (Output C) → Node C → Prop := fun _ _ => True

/-- It is stopped before its first vote at the height in progress. -/
def beforeVoting (log : List (Output C)) (n : Node C) : Prop := Unvoted log n.engine.height

end Reboot

/-- The own votes an engine knows of. -/
def Engine.OwnVote (e : Engine C) (vm : VoteMsg C) : Prop :=
  ∃ r, (e.prevotes.ofRound r).lookup e.mePk.id = some vm ∨
    (e.precommits.ofRound r).lookup e.mePk.id = some vm

/-- The engine `e'` is committed to what the engine `e`, after `log`, is
committed to at its height. -/
structure SameCommitments (log : List (Output C)) (e e' : Engine C) : Prop where
  height : e'.height = e.height
  lockedValue : e'.lockedValue = e.lockedValue
  lockedRound : e'.lockedRound = e.lockedRound
  validValue : e'.validValue = e.validValue
  validRound : e'.validRound = e.validRound
  votes : ∀ vm, e'.OwnVote vm ↔ Cast log vm ∧ vm.height = e.height

section Reboot

variable {genesis : List C.VerifyingKey} {meSk : C.SigningKey} {mePk : C.VerifyingKey}
  {store : List (Block C)} {past : List (Output C)} {n : Node C}

theorem Fresh.of_rebuild (h : rebuild genesis meSk mePk store = .ok e) : Fresh e := by
  rcases Exec.bind_eq_ok.mp h with ⟨height, _, hbuild⟩
  exact Fresh.of_withRegistry hbuild

/-- A boot is one driven run of the engine that was built. -/
theorem Boot.run (h : Boot genesis meSk mePk store log n) :
    ∃ e₀ evs, rebuild genesis meSk mePk store = .ok e₀ ∧ Run driven e₀ evs log n.engine ∧
      n.store = store ++ finalized log := by
  induction h with
  | new hnew =>
      rcases Node.new_eq_ok hnew with ⟨hbuild, hstore⟩
      exact ⟨_, [], hbuild, Run.init, by rw [hstore]; simp⟩
  | start hnew _ hlog =>
      rcases Node.new_eq_ok hnew with ⟨hbuild, hstore⟩
      rcases hlog with ⟨evs, hrun, hgrown⟩
      exact ⟨_, evs, hbuild, hrun, by rw [hgrown, hstore]⟩
  | pass _ _ hlog ih =>
      rcases ih with ⟨e₀, evs, hbuild, hrun, hstore⟩
      rcases hlog with ⟨evs', hrun', hgrown⟩
      refine ⟨e₀, evs ++ evs', hbuild, hrun.trans hrun', ?_⟩
      rw [hgrown, hstore, finalized_append, List.append_assoc]

/-- A booted node stands at the end of its store. -/
theorem Boot.onChain (hchain : Chain (genesisState genesis) store)
    (h : Boot genesis meSk mePk store log n) :
    OnChain (genesisState genesis) n.store n.engine := by
  rcases h.run with ⟨e₀, evs, hbuild, hrun, hstore⟩
  rw [hstore]
  exact (OnChain.rebuild hchain hbuild).run hrun

theorem Life.chain {stop : List (Output C) → Node C → Prop}
    (h : Life genesis meSk mePk stop past store) : Chain (genesisState genesis) store := by
  induction h with
  | unborn => trivial
  | boot _ hboot _ ih => exact (hboot.onChain ih).chain

/-- If every stop came before a vote, the votes of the past are all of earlier
heights than the one a new boot starts at. -/
theorem Life.votes_before (h : Life genesis meSk mePk beforeVoting past store)
    (hbuild : rebuild genesis meSk mePk store = .ok e) :
    ∀ vm, Cast past vm → vm.height.toNat < e.height.toNat := by
  induction h generalizing e with
  | unborn =>
      intro vm hvm
      cases hvm
  | @boot past log store n hlife hboot hstop ih =>
      intro vm hvm
      -- the new boot is at the height the stopped engine was at
      rcases rebuild_eq (hboot.onChain hlife.chain) meSk mePk with ⟨e', hbuild', hstate, _⟩
      obtain rfl : e = e' := Except.ok.inj (hbuild.symm.trans hbuild')
      rw [(chainState_ext hstate).1]
      rcases hboot.run with ⟨e₀, evs, hbuild₀, hrun, _⟩
      rcases cast_append.mp hvm with hold | hnew
      · have hlt := ih hbuild₀ vm hold
        have hle := (VotesFrom.trace hrun.trace).1
        omega
      · have hinv := VoteInv.trace (Fresh.of_rebuild hbuild₀).lockedRound hrun.trace
        have hle := hinv.height_le hnew
        have hne := hstop vm (cast_append.mpr (Or.inr hnew))
        have hne' : vm.height.toNat ≠ n.engine.height.toNat :=
          fun heq => hne (UInt64.toNat_inj.mp heq)
        omega

/-- No two different votes of one kind in one round of one height. -/
def VotesOnce (log : List (Output C)) : Prop :=
  ∀ vm₁ vm₂, Cast log vm₁ → Cast log vm₂ → vm₁.height = vm₂.height → vm₁.round = vm₂.round →
    vm₁.voteType = vm₂.voteType → vm₁ = vm₂

/-- A boot that starts above the votes of the past adds none that contradict
them. -/
theorem VotesOnce.boot (hpast : VotesOnce past)
    (hbelow : ∀ e₀, rebuild genesis meSk mePk store = .ok e₀ →
      ∀ vm, Cast past vm → vm.height.toNat < e₀.height.toNat)
    (h : Boot genesis meSk mePk store log n) : VotesOnce (past ++ log) := by
  rcases h.run with ⟨e₀, evs, hbuild, hrun, _⟩
  have hinv := VoteInv.trace (Fresh.of_rebuild hbuild).lockedRound hrun.trace
  have hfrom := (VotesFrom.trace hrun.trace).2
  -- the heights keep the two apart
  have hapart : ∀ {vm₁ vm₂}, Cast past vm₁ → Cast log vm₂ → vm₁.height ≠ vm₂.height := by
    intro vm₁ vm₂ h₁ h₂ heq
    have hlt := hbelow e₀ hbuild vm₁ h₁
    have hle := hfrom vm₂ h₂
    rw [heq] at hlt
    omega
  intro vm₁ vm₂ h₁ h₂ hheight hround htype
  rcases cast_append.mp h₁ with hold₁ | hnew₁
  · rcases cast_append.mp h₂ with hold₂ | hnew₂
    · exact hpast vm₁ vm₂ hold₁ hold₂ hheight hround htype
    · exact absurd hheight (hapart hold₁ hnew₂)
  · rcases cast_append.mp h₂ with hold₂ | hnew₂
    · exact absurd hheight.symm (hapart hold₂ hnew₁)
    · exact hinv.unique hnew₁ hnew₂ hheight (votePos_congr hround htype)

theorem Life.votesOnce (h : Life genesis meSk mePk beforeVoting past store) :
    VotesOnce past := by
  induction h with
  | unborn =>
      intro vm₁ vm₂ h₁
      cases h₁
  | boot hlife hboot _ ih => exact ih.boot (fun _ hbuild => hlife.votes_before hbuild) hboot

/-- A new engine knows of no vote of its own. -/
theorem Fresh.no_ownVote (h : Fresh e) (vm : VoteMsg C) : ¬ e.OwnVote vm := by
  rintro ⟨r, hvm | hvm⟩
  · rw [h.prevotes] at hvm
    simp at hvm
  · rw [h.precommits] at hvm
    simp at hvm

/-- A new engine agrees with a stopped one exactly if that has not voted. -/
theorem sameCommitments_iff (hbuild : rebuild genesis meSk mePk n.store = .ok e')
    (hheight : e'.height = n.engine.height)
    (hunbound : Unvoted log n.engine.height → Unbound n.engine) :
    SameCommitments log n.engine e' ↔ beforeVoting log n := by
  have hfresh := Fresh.of_rebuild hbuild
  constructor
  · intro hsame vm hvm heq
    exact hfresh.no_ownVote vm ((hsame.votes vm).mpr ⟨hvm, heq⟩)
  · intro hbefore
    have hun := hunbound hbefore
    refine ⟨hheight, ?_, ?_, ?_, ?_, ?_⟩
    · rw [hfresh.lockedValue, hun.lockedValue]
    · rw [hfresh.lockedRound, hun.lockedRound]
    · rw [hfresh.validValue, hun.validValue]
    · rw [hfresh.validRound, hun.validRound]
    · intro vm
      constructor
      · intro hvm
        exact absurd hvm (hfresh.no_ownVote vm)
      · rintro ⟨hvm, heq⟩
        exact absurd heq (hbefore vm hvm)

/-- Wherever a node is stopped between two events, in whatever life, the engine
that `Node::new` builds from its store has the stopped engine's lock, valid
value and signed votes of the height exactly when no vote of the height was
signed yet; and a validator that is only ever stopped at such moments never
signs two different votes of one type for one height and round. -/
theorem reboot_keeps_votes_iff (genesis : List C.VerifyingKey) (meSk : C.SigningKey)
    (mePk : C.VerifyingKey) :
    (∀ past store log n, Life genesis meSk mePk anyStop past store →
      Boot genesis meSk mePk store log n →
      ∃ e', rebuild genesis meSk mePk n.store = .ok e' ∧
        (SameCommitments (past ++ log) n.engine e' ↔ beforeVoting (past ++ log) n)) ∧
    ∀ past store log n, Life genesis meSk mePk beforeVoting past store →
      Boot genesis meSk mePk store log n → VotesOnce (past ++ log) := by
  constructor
  · intro past store log n hlife hboot
    rcases rebuild_eq (hboot.onChain hlife.chain) meSk mePk with ⟨e', hbuild', hstate, _⟩
    refine ⟨e', hbuild', sameCommitments_iff hbuild' (chainState_ext hstate).1 ?_⟩
    intro hnone
    rcases hboot.run with ⟨e₀, evs, hbuild, hrun, _⟩
    apply hrun.trace.unbound (Fresh.of_rebuild hbuild).unbound
    exact fun vm hvm => hnone vm (cast_append.mpr (Or.inr hvm))
  · intro past store log n hlife hboot
    exact hlife.votesOnce.boot (fun _ hbuild => hlife.votes_before hbuild) hboot

end Reboot

/-! ## A validator that contradicts itself -/

namespace Node

variable {ord : IterOrder} {now : UInt64} {n n' : Node C} {acts : List (Action C)}

/-- The votes the loop sends out. -/
def sentVotes (acts : List (Action C)) : List (VoteMsg C) :=
  acts.filterMap fun
    | .broadcast (.consensus (.vote vm)) => some vm
    | _ => none

theorem mem_sentVotes {vm : VoteMsg C} :
    vm ∈ sentVotes acts ↔ .broadcast (.consensus (.vote vm)) ∈ acts := by
  unfold sentVotes
  rw [List.mem_filterMap]
  constructor
  · rintro ⟨a, ha, heq⟩
    split at heq
    · rw [← Option.some.inj heq]
      exact ha
    · cases heq
  · intro h
    exact ⟨_, h, rfl⟩

/-- The loop sends the votes its engine cast. -/
theorem handleEffects_votes {baseTimeout : Nat} {store store' : List (Block C)}
    {out : List (Effect C)} (h : handleEffects baseTimeout store out = .ok (store', acts))
    (vm : VoteMsg C) : vm ∈ sentVotes acts ↔ Cast (effects out) vm := by
  rw [mem_sentVotes, cast_effects]
  induction out generalizing store store' acts with
  | nil =>
      rcases Exec.ok_pair h with ⟨_, rfl⟩
      simp
  | cons x rest ih =>
      cases x with
      | broadcast msg =>
          simp only [handleEffects, Exec.bind_eq_ok] at h
          rcases h with ⟨⟨s, a⟩, hrest, h⟩
          rcases Exec.ok_pair h with ⟨_, rfl⟩
          simp [ih hrest]
      | scheduleTimeout height round kind =>
          simp only [handleEffects, Exec.bind_eq_ok] at h
          rcases h with ⟨after, _, ⟨s, a⟩, hrest, h⟩
          rcases Exec.ok_pair h with ⟨_, rfl⟩
          simp [ih hrest]
      | committed block => simp [ih h]

theorem finish_logged {engine : Engine C} {out : List (Effect C)} {sent : List (Action C)}
    {ev : Event C} (hsent : sentVotes sent = [])
    (h : (n.engine.setTime now).handle ord ev = .ok (engine, effects out))
    (hdriven : driven (n.engine.setTime now) ev)
    (hfinish : finish { n with engine } out sent = .ok (n', acts)) :
    ∃ log, n.Logged log n' ∧ ∀ vm, vm ∈ sentVotes acts ↔ Cast log vm := by
  refine ⟨effects out, ?_, ?_⟩
  · rcases finish_eq_ok hfinish with ⟨hengine, hstore⟩
    have hset : n.engine.handle ord (.setTime now) = .ok (n.engine.setTime now, []) := rfl
    have htime : Run driven n.engine ([] ++ [.setTime now]) ([] ++ []) (n.engine.setTime now) :=
      Run.step Run.init (driven_of_ne nofun nofun) hset
    refine ⟨([] ++ [.setTime now]) ++ [ev], ?_, hstore⟩
    rw [hengine]
    exact Run.step htime hdriven h
  · intro vm
    unfold finish at hfinish
    rw [Exec.bind_eq_ok] at hfinish
    rcases hfinish with ⟨⟨store, a⟩, heffects, hfinish⟩
    rcases Exec.ok_pair hfinish with ⟨_, rfl⟩
    have hsplit : sentVotes (sent ++ a) = sentVotes sent ++ sentVotes a := List.filterMap_append
    rw [hsplit, hsent, List.nil_append]
    exact handleEffects_votes heffects vm

theorem begin_logged (hfresh : Fresh n.engine) (h : n.begin ord now = .ok (n', acts)) :
    ∃ log, n.Logged log n' ∧ ∀ vm, vm ∈ sentVotes acts ↔ Cast log vm := by
  unfold begin at h
  rw [Exec.bind_eq_ok] at h
  rcases h with ⟨⟨engine, out⟩, hstart, hfinish⟩
  have hhandle : (n.engine.setTime now).handle ord .start = .ok (engine, effects out) := by
    simp only [Engine.handle, hstart]
    rfl
  exact finish_logged rfl hhandle (fun _ => ⟨hfresh.round, hfresh.step⟩) hfinish

theorem submit_logged {att : Attestation C}
    (h : n.handle ord now (.submit att) = .ok (n', acts)) :
    ∃ log, n.Logged log n' ∧ ∀ vm, vm ∈ sentVotes acts ↔ Cast log vm := by
  unfold handle at h
  rw [Exec.bind_eq_ok] at h
  rcases h with ⟨⟨n₁, out, sent⟩, hdispatch, hfinish⟩
  simp only [dispatch, Exec.bind_eq_ok] at hdispatch
  rcases hdispatch with ⟨⟨engine, o⟩, hadd, hdispatch⟩
  rcases Exec.ok_triple hdispatch with ⟨rfl, rfl, rfl⟩
  have hhandle : (n.engine.setTime now).handle ord (.attestation att) =
      .ok (engine, effects out) := by
    simp only [Engine.handle, hadd]
    rfl
  exact finish_logged rfl hhandle (driven_of_ne (by simp) (by simp)) hfinish

end Node

/-- Validator 2 of two, booted from an empty store and handed one attestation
as its first. -/
def sampleBoot (content : Nat) : Exec (Node sample × List (Action sample)) := do
  let n₀ ← Node.new (C := sample) [1, 2] (2 : UInt8) 2 [] 1000
  let (n₁, _) ← n₀.begin sampleOrder 0
  n₁.handle sampleOrder 0 (.submit (sampleAttestation 1 content))

/-- Its prevote for the block with that attestation. -/
def samplePrevote (content : Nat) : VoteMsg sample :=
  VoteMsg.create (C := sample) (2 : UInt8) 2 1 0 .prevote
    (some (sampleValue [sampleAttestation 1 content]).id)

theorem samplePrevote_place (content : Nat) : (samplePrevote content).height = 1 ∧
    (samplePrevote content).round = 0 ∧ (samplePrevote content).voteType = .prevote :=
  ⟨rfl, rfl, rfl⟩

/-- It prevotes for what it was handed, and has stored nothing. -/
theorem Boot.of_sampleBoot (content : Nat) (h : (sampleBoot content).holds (fun r =>
      decide (samplePrevote content ∈ Node.sentVotes r.2) && decide (r.1.engine.height = 1) &&
      r.1.store.isEmpty) = true) :
    ∃ log n, Boot (C := sample) [1, 2] (2 : UInt8) 2 [] log n ∧ Cast log (samplePrevote content) ∧
      n.engine.height = 1 ∧ n.store = [] := by
  rcases Exec.holds_iff.mp h with ⟨⟨n, acts⟩, hboot, hcond⟩
  simp only [Bool.and_eq_true, decide_eq_true_eq, List.isEmpty_iff] at hcond
  unfold sampleBoot at hboot
  simp only [Exec.bind_eq_ok] at hboot
  rcases hboot with ⟨n₀, hnew, ⟨n₁, acts₁⟩, hbegin, hhandle⟩
  have hfresh := Fresh.of_rebuild (Node.new_eq_ok hnew).1
  rcases Node.begin_logged hfresh hbegin with ⟨log₁, hlog₁, _⟩
  rcases Node.submit_logged hhandle with ⟨log₂, hlog₂, hcast⟩
  refine ⟨log₁ ++ log₂, n, Boot.pass (Boot.start hnew hbegin hlog₁) hhandle hlog₂, ?_, hcond.1.2,
    hcond.2⟩
  exact cast_append.mpr (Or.inr ((hcast _).mp hcond.1.1))

/-- The same validator, started and handed nothing. -/
def sampleIdle : Exec (Node sample × List (Action sample)) := do
  let n₀ ← Node.new (C := sample) [1, 2] (2 : UInt8) 2 [] 1000
  n₀.begin sampleOrder 0

/-- Stopped before it was handed anything, it prevotes once, after the reboot. -/
theorem reboot_keeps_votes_idle :
    ∃ past log n, Life (C := sample) [1, 2] (2 : UInt8) 2 beforeVoting past [] ∧
      Boot (C := sample) [1, 2] (2 : UInt8) 2 [] log n ∧ Cast (past ++ log) (samplePrevote 7) ∧
      VotesOnce (past ++ log) ∧
      ∃ e', rebuild (C := sample) [1, 2] (2 : UInt8) 2 n.store = .ok e' ∧
        ¬ SameCommitments (past ++ log) n.engine e' := by
  have hidle : sampleIdle.holds (fun r => (Node.sentVotes r.2).isEmpty && r.1.store.isEmpty) =
      true := by decide +kernel
  rcases Exec.holds_iff.mp hidle with ⟨⟨n₁, acts⟩, hrun, hcond⟩
  simp only [Bool.and_eq_true, List.isEmpty_iff] at hcond
  unfold sampleIdle at hrun
  rw [Exec.bind_eq_ok] at hrun
  rcases hrun with ⟨n₀, hnew, hbegin⟩
  rcases Node.begin_logged (Fresh.of_rebuild (Node.new_eq_ok hnew).1) hbegin with
    ⟨log₁, hlog₁, hcast₁⟩
  -- it sent no vote, so none is cast in its log
  rw [hcond.1] at hcast₁
  have hquiet : beforeVoting ([] ++ log₁) n₁ :=
    fun vm hvm => absurd ((hcast₁ vm).mpr hvm) List.not_mem_nil
  have hlife : Life (C := sample) [1, 2] (2 : UInt8) 2 beforeVoting ([] ++ log₁) n₁.store :=
    Life.boot Life.unborn (Boot.start hnew hbegin hlog₁) hquiet
  have hany : Life (C := sample) [1, 2] (2 : UInt8) 2 anyStop ([] ++ log₁) n₁.store :=
    Life.boot Life.unborn (Boot.start hnew hbegin hlog₁) trivial
  rw [hcond.2] at hlife hany
  rcases Boot.of_sampleBoot 7 (by decide +kernel) with ⟨log, n, hboot, hcast, hheight, _⟩
  have hvoted : Cast (([] ++ log₁) ++ log) (samplePrevote 7) := cast_append.mpr (Or.inr hcast)
  rcases reboot_keeps_votes_iff (C := sample) [1, 2] (2 : UInt8) 2 with ⟨hsame, honce⟩
  rcases hsame _ _ _ _ hany hboot with ⟨e', hbuild, hiff⟩
  refine ⟨_, log, n, hlife, hboot, hvoted, honce _ _ _ _ hlife hboot, e', hbuild, ?_⟩
  -- the prevote it then sent would be lost by another reboot
  intro hagree
  refine hiff.mp hagree _ hvoted ?_
  rw [hheight]
  exact (samplePrevote_place 7).1

/-- Stopped after that prevote, it forgets it, and prevotes for another block
in the same round after the reboot. -/
theorem reboot_forgets_votes :
    (¬ ∀ (genesis : List UInt8) (key : UInt8) past store log n,
      Life (C := sample) genesis key key anyStop past store →
      Boot (C := sample) genesis key key store log n →
      ∃ e', rebuild (C := sample) genesis key key n.store = .ok e' ∧
        SameCommitments (past ++ log) n.engine e') ∧
    ¬ ∀ (genesis : List UInt8) (key : UInt8) past store log n,
      Life (C := sample) genesis key key anyStop past store →
      Boot (C := sample) genesis key key store log n → VotesOnce (past ++ log) := by
  rcases Boot.of_sampleBoot 7 (by decide +kernel) with
    ⟨log₁, n₁, hboot₁, hcast₁, hheight₁, hstore₁⟩
  rcases Boot.of_sampleBoot 8 (by decide +kernel) with
    ⟨log₂, n₂, hboot₂, hcast₂, _, _⟩
  constructor
  · intro hall
    rcases hall [1, 2] 2 [] [] log₁ n₁ Life.unborn hboot₁ with ⟨e', hbuild, hsame⟩
    have hheight : (samplePrevote 7).height = n₁.engine.height := by
      rw [hheight₁]
      exact (samplePrevote_place 7).1
    -- the rebuilt engine would have to know of the prevote
    have hvote := (hsame.votes (samplePrevote 7)).mpr ⟨hcast₁, hheight⟩
    exact (Fresh.of_rebuild hbuild).no_ownVote _ hvote
  · intro hall
    have hlife : Life (C := sample) [1, 2] (2 : UInt8) 2 anyStop ([] ++ log₁) n₁.store :=
      Life.boot Life.unborn hboot₁ trivial
    rw [hstore₁] at hlife
    have honce := hall [1, 2] 2 _ _ log₂ n₂ hlife hboot₂
    rcases samplePrevote_place 7 with ⟨hheight, hround, htype⟩
    rcases samplePrevote_place 8 with ⟨hheight', hround', htype'⟩
    -- both are prevotes at height 1, round 0
    have heq := honce (samplePrevote 7) (samplePrevote 8) (cast_append.mpr (Or.inl hcast₁))
      (cast_append.mpr (Or.inr hcast₂)) (hheight.trans hheight'.symm)
      (hround.trans hround'.symm) (htype.trans htype'.symm)
    have hne : samplePrevote 7 ≠ samplePrevote 8 := by decide +kernel
    exact hne heq

end SmartLedger
