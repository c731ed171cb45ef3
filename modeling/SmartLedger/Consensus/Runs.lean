import SmartLedger.Consensus.Steps
import SmartLedger.Sample

/-! # Runs of one engine

The events a driver hands to an engine, and the runs they make up. Every
event is one change of the inputs (`Enter`) followed by internal steps
(`handle_steps`), so a property of all runs is shown once for `Enter` and
once for `Internal`, along the `Trace` of the run (`Run.trace`).

A run records its events and, in order, what it did to the outside: effects,
and catch-up blocks it applied. A panic ends a run: the thread is gone.
-/

namespace SmartLedger

variable {C : Crypto} {ord : IterOrder} {e e' : Engine C}

/-- What a driver can do to an engine. -/
inductive Event (C : Crypto) where
  | start
  | message (msg : ConsensusMsg C)
  | timeout (height round : UInt64) (kind : TimeoutKind)
  | attestation (att : Attestation C)
  | governance (change : SignedValidatorChange C)
  | synced (block : Block C)
  | resume
  | setTime (now : UInt64)
deriving DecidableEq

/-- What an engine does to the outside. -/
inductive Output (C : Crypto) where
  | effect (x : Effect C)
  | applied (block : Block C)
deriving DecidableEq

/-- The block an output finalizes. -/
def Output.block? : Output C → Option (Block C)
  | .effect (.committed b) => some b
  | .applied b => some b
  | _ => none

/-- The blocks a run committed or applied, in order. -/
def finalized (log : List (Output C)) : List (Block C) := log.filterMap Output.block?

@[simp] theorem finalized_append (a b : List (Output C)) :
    finalized (a ++ b) = finalized a ++ finalized b := List.filterMap_append

@[simp] theorem finalized_nil : finalized ([] : List (Output C)) = [] := rfl

theorem committed_mem_finalized {out : List (Output C)} {b : Block C}
    (h : .effect (.committed b) ∈ out) : b ∈ finalized out :=
  List.mem_filterMap.mpr ⟨_, h, rfl⟩

/-- The effects of a handler as outputs. -/
def effects (out : List (Effect C)) : List (Output C) := out.map Output.effect

@[simp] theorem effects_append (a b : List (Effect C)) :
    effects (a ++ b) = effects a ++ effects b := List.map_append

@[simp] theorem effects_nil : effects ([] : List (Effect C)) = [] := rfl

@[simp] theorem mem_effects {x : Effect C} {out : List (Effect C)} :
    Output.effect x ∈ effects out ↔ x ∈ out := by
  simp [effects]

namespace Engine

/-- Handle one event. -/
def handle (ord : IterOrder) (e : Engine C) : Event C → Exec (Engine C × List (Output C))
  | .start => do
      let (e, out) ← e.start ord
      return (e, effects out)
  | .message msg => do
      let (e, out) ← e.onMessage ord msg
      return (e, effects out)
  | .timeout height round kind => do
      let (e, out) ← e.onTimeout ord height round kind
      return (e, effects out)
  | .attestation att => do
      let (e, out) ← e.addAttestation ord att
      return (e, effects out)
  | .governance change => do
      let (_, e, out) ← e.addGovernance ord change
      return (e, effects out)
  | .synced block => do
      match ← e.applySyncedBlock block with
      | .ok e => return (e, [.applied block])
      | .error _ => return (e, [])
  | .resume => do
      let (e, out) ← e.resume ord
      return (e, effects out)
  | .setTime now => .ok (e.setTime now, [])

/-- Handle a list of events. -/
def handleAll (ord : IterOrder) (e : Engine C) :
    List (Event C) → Exec (Engine C × List (Output C))
  | [] => .ok (e, [])
  | ev :: evs => do
      let (e, out) ← e.handle ord ev
      let (e, out') ← handleAll ord e evs
      return (e, out ++ out')

/-- How an event changes the inputs of the engine, before any rule fires. -/
inductive Enter : Event C → Engine C → List (Output C) → Engine C → Prop where
  | start {e e' : Engine C} {out : List (Effect C)} (h : e.startRound 0 = .ok (e', out)) :
      Enter .start e (effects out) e'
  | message {e e' : Engine C} {msg : ConsensusMsg C} (h : e.ingest msg = .ok e') :
      Enter (.message msg) e [] e'
  | timeout {e : Engine C} {height round : UInt64} {kind : TimeoutKind} :
      Enter (.timeout height round kind) e [] e
  | attestation {e : Engine C} {att : Attestation C} :
      Enter (.attestation att) e [] { e with mempool := e.mempool ++ [att] }
  | governance {e : Engine C} {change : SignedValidatorChange C}
      (h : e.acceptsGovernance change = true) :
      Enter (.governance change) e [] { e with govMempool := e.govMempool ++ [change] }
  | refused {e : Engine C} {change : SignedValidatorChange C}
      (h : e.acceptsGovernance change = false) : Enter (.governance change) e [] e
  | synced {e e' : Engine C} {block : Block C} (h : e.applySyncedBlock block = .ok (.ok e')) :
      Enter (.synced block) e [.applied block] e'
  | rejected {e : Engine C} {block : Block C} {err : String}
      (h : e.applySyncedBlock block = .ok (.error err)) : Enter (.synced block) e [] e
  | resume {e e' : Engine C} {out : List (Effect C)} (h : e.startRound 0 = .ok (e', out)) :
      Enter .resume e (effects out) e'
  | setTime {e : Engine C} {now : UInt64} : Enter (.setTime now) e [] (e.setTime now)

/-- Every handler is one change of the inputs and then internal steps. -/
theorem handle_steps {ev : Event C} {log : List (Output C)}
    (h : e.handle ord ev = .ok (e', log)) :
    ∃ e₁ o₁ o₂, Enter ev e o₁ e₁ ∧ Internals ord e₁ o₂ e' ∧ log = o₁ ++ effects o₂ := by
  cases ev with
  | start =>
      simp only [handle, Exec.bind_eq_ok] at h
      rcases h with ⟨⟨e₂, out⟩, hstart, h⟩
      rcases Exec.ok_pair h with ⟨rfl, rfl⟩
      rcases start_steps hstart with ⟨e₁, o₁, o₂, hround, hint, rfl⟩
      exact ⟨e₁, _, o₂, Enter.start hround, hint, effects_append _ _⟩
  | message msg =>
      simp only [handle, Exec.bind_eq_ok] at h
      rcases h with ⟨⟨e₂, out⟩, hmsg, h⟩
      rcases Exec.ok_pair h with ⟨rfl, rfl⟩
      rcases onMessage_steps hmsg with ⟨e₁, hingest, hint⟩
      exact ⟨e₁, [], out, Enter.message hingest, hint, rfl⟩
  | timeout height round kind =>
      simp only [handle, Exec.bind_eq_ok] at h
      rcases h with ⟨⟨e₂, out⟩, htimeout, h⟩
      rcases Exec.ok_pair h with ⟨rfl, rfl⟩
      exact ⟨e, [], out, Enter.timeout, onTimeout_steps htimeout, rfl⟩
  | attestation att =>
      simp only [handle, Exec.bind_eq_ok] at h
      rcases h with ⟨⟨e₂, out⟩, hadd, h⟩
      rcases Exec.ok_pair h with ⟨rfl, rfl⟩
      exact ⟨_, [], out, Enter.attestation, addAttestation_steps hadd, rfl⟩
  | governance change =>
      simp only [handle, Exec.bind_eq_ok] at h
      rcases h with ⟨⟨accepted, e₂, out⟩, hadd, h⟩
      rcases Exec.ok_pair h with ⟨rfl, rfl⟩
      rcases addGovernance_steps hadd with ⟨_, hno, rfl, rfl⟩ | ⟨_, hyes, hint⟩
      -- a change that is refused leaves no trace
      · exact ⟨_, [], [], Enter.refused hno, Internals.refl _, rfl⟩
      · exact ⟨_, [], out, Enter.governance hyes, hint, rfl⟩
  | synced block =>
      simp only [handle, Exec.bind_eq_ok] at h
      rcases h with ⟨res, hsync, h⟩
      cases res with
      | ok e₁ =>
          rcases Exec.ok_pair h with ⟨rfl, rfl⟩
          exact ⟨_, _, [], Enter.synced hsync, Internals.refl _, rfl⟩
      | error err =>
          rcases Exec.ok_pair h with ⟨rfl, rfl⟩
          exact ⟨_, _, [], Enter.rejected hsync, Internals.refl _, rfl⟩
  | resume =>
      simp only [handle, Exec.bind_eq_ok] at h
      rcases h with ⟨⟨e₂, out⟩, hresume, h⟩
      rcases Exec.ok_pair h with ⟨rfl, rfl⟩
      rw [resume_eq_start] at hresume
      rcases start_steps hresume with ⟨e₁, o₁, o₂, hround, hint, rfl⟩
      exact ⟨e₁, _, o₂, Enter.resume hround, hint, effects_append _ _⟩
  | setTime now =>
      rcases Exec.ok_pair h with ⟨rfl, rfl⟩
      exact ⟨_, [], [], Enter.setTime, Internals.refl _, rfl⟩

/-- What holds after the change of the inputs and is kept by every internal
step holds when the handler returns. The effects so far are always the first
ones of the whole call. -/
theorem handle_induction {P : List (Output C) → Engine C → Prop} {ev : Event C}
    {out : List (Output C)} (h : e.handle ord ev = .ok (e', out))
    (henter : ∀ {o e₁}, Enter ev e o e₁ → o <+: out → P o e₁)
    (hinternal : ∀ {o e₁ o' e₂}, P o e₁ → Internal ord e₁ o' e₂ → o ++ effects o' <+: out →
      P (o ++ effects o') e₂) : P out e' := by
  rcases handle_steps h with ⟨e₁, o₁, o₂, hent, hints, rfl⟩
  have hfirst : P o₁ e₁ := henter hent (List.prefix_append _ _)
  clear henter hent h
  induction hints generalizing o₁ with
  | refl e => simpa using hfirst
  | step hi rest ih =>
      rw [effects_append, ← List.append_assoc] at hinternal ⊢
      exact ih _ hinternal (hinternal hfirst hi (List.prefix_append _ _))

/-! ## Staying at a height and rolling to the next -/

/-- Where an engine stands: its keys, its height and the chain below. -/
structure Position (C : Crypto) where
  registry : ValidatorRegistry C
  currentSet : ValidatorSet C
  validatorsSorted : List C.VerifyingKey
  meSk : C.SigningKey
  mePk : C.VerifyingKey
  height : UInt64
  tip : Hash

def position (e : Engine C) : Position C where
  registry := e.registry
  currentSet := e.currentSet
  validatorsSorted := e.validatorsSorted
  meSk := e.meSk
  mePk := e.mePk
  height := e.height
  tip := e.tip

/-- `e'` works at the same height as `e`, on the same chain and with the same
keys. -/
def SameHeight (e e' : Engine C) : Prop := e'.position = e.position

namespace SameHeight

variable (h : SameHeight e e')
include h

theorem registry : e'.registry = e.registry := congrArg Position.registry h
theorem currentSet : e'.currentSet = e.currentSet := congrArg Position.currentSet h
theorem validatorsSorted : e'.validatorsSorted = e.validatorsSorted :=
  congrArg Position.validatorsSorted h
theorem meSk : e'.meSk = e.meSk := congrArg Position.meSk h
theorem mePk : e'.mePk = e.mePk := congrArg Position.mePk h
theorem height : e'.height = e.height := congrArg Position.height h
theorem tip : e'.tip = e.tip := congrArg Position.tip h

theorem proposer (r : UInt64) : e'.proposer r = e.proposer r := by
  unfold Engine.proposer Engine.n
  rw [height h, validatorsSorted h]

end SameHeight

theorem startRound_sameHeight {r : UInt64} {out : List (Effect C)}
    (h : e.startRound r = .ok (e', out)) : SameHeight e e' ∧ finalized (effects out) = [] := by
  rcases startRound_frame h with ⟨parked, proposals, rfl, hout⟩
  refine ⟨rfl, ?_⟩
  rcases hout with ⟨_, rfl | rfl⟩ | ⟨_, _, _, rfl⟩ <;> rfl

/-- An internal step stays at its height, or is a commit: it rolls over the
committed value and enters round 0 of the next height. -/
theorem Internal.height_cases {out : List (Effect C)} (h : Internal ord e out e') :
    (SameHeight e e' ∧ finalized (effects out) = []) ∨
    ∃ r pm height set,
      e.proposals.lookup r = some pm ∧
      e.quorum ≤ e.countPrecommits r (.id pm.value.id) ∧
      pm.value.isValid e.tip e.height e.currentSet = true ∧
      checkedAdd e.height 1 = .ok height ∧
      (e.registry.recordAll pm.value.governance).activeSet height = .ok set ∧
      SameHeight (e.rolled pm.value (dropEnacted pm.value.governance e.govMempool) height set)
        e' ∧
      finalized (effects out) = [e.assembleBlock ord r pm.value.id pm.value] := by
  cases h with
  | prevote => exact Or.inl ⟨rfl, rfl⟩
  | schedulePrevote => exact Or.inl ⟨rfl, rfl⟩
  | polka => exact Or.inl ⟨rfl, rfl⟩
  | latePolka => exact Or.inl ⟨rfl, rfl⟩
  | precommitNil => exact Or.inl ⟨rfl, rfl⟩
  | schedulePrecommit => exact Or.inl ⟨rfl, rfl⟩
  | jump hlt hstart => exact Or.inl (startRound_sameHeight hstart)
  | wake hparked hwake =>
      rcases wake_frame hwake with ⟨proposals, rfl, hout⟩
      refine Or.inl ⟨rfl, ?_⟩
      rcases hout with ⟨_, rfl⟩ | ⟨_, _, _, rfl⟩ <;> rfl
  | @commit _ r pm _ hpm hquorum hvalid hcommit =>
      rcases commit_cases hcommit with ⟨height, set, out', hheight, hset, hstart, rfl⟩
      rcases startRound_sameHeight hstart with ⟨hsame, hnone⟩
      refine Or.inr ⟨r, pm, height, set, hpm, hquorum, hvalid, hheight, hset, hsame, ?_⟩
      -- the committed block comes first, and the next round finalizes nothing
      have hcons : finalized (effects (.committed (e.assembleBlock ord r pm.value.id pm.value) ::
          out')) = e.assembleBlock ord r pm.value.id pm.value :: finalized (effects out') := rfl
      rw [hcons, hnone]

/-- Reading a message only touches the stores of the current height. -/
theorem ingest_frame {msg : ConsensusMsg C} (h : e.ingest msg = .ok e') :
    ∃ proposals prevotes precommits, e' = { e with proposals, prevotes, precommits } := by
  cases ingest_cases h with
  | ignored => exact ⟨_, _, _, rfl⟩
  | proposal => exact ⟨_, _, _, rfl⟩
  | prevote => exact ⟨_, _, _, rfl⟩
  | precommit => exact ⟨_, _, _, rfl⟩

/-- A change of the inputs stays at its height, or applies a block of a peer
and rolls over it. -/
theorem Enter.height_cases {ev : Event C} {out : List (Output C)} (h : Enter ev e out e') :
    (SameHeight e e' ∧ finalized out = []) ∨
    ∃ b height set,
      ev = .synced b ∧
      b.value.isValid e.tip e.height e.currentSet = true ∧
      b.qc.verify b.header e.currentSet = .ok () ∧
      checkedAdd e.height 1 = .ok height ∧
      (e.registry.recordAll b.governance).activeSet height = .ok set ∧
      e' = { e.rolled b.value e.govMempool height set with parked := false } ∧
      out = [.applied b] := by
  cases h with
  | start hstart => exact Or.inl (startRound_sameHeight hstart)
  | message hi =>
      rcases ingest_frame hi with ⟨_, _, _, rfl⟩
      exact Or.inl ⟨rfl, rfl⟩
  | timeout => exact Or.inl ⟨rfl, rfl⟩
  | attestation => exact Or.inl ⟨rfl, rfl⟩
  | governance => exact Or.inl ⟨rfl, rfl⟩
  | refused => exact Or.inl ⟨rfl, rfl⟩
  | synced hsync =>
      rcases applySyncedBlock_cases hsync with ⟨hvalid, hqc, height, set, hheight, hset, he'⟩
      exact Or.inr ⟨_, height, set, rfl, hvalid, hqc, hheight, hset, he', rfl⟩
  | rejected => exact Or.inl ⟨rfl, rfl⟩
  | resume hstart => exact Or.inl (startRound_sameHeight hstart)
  | setTime => exact Or.inl ⟨rfl, rfl⟩

theorem Internal.keys {out : List (Effect C)} (h : Internal ord e out e') :
    e'.meSk = e.meSk ∧ e'.mePk = e.mePk := by
  rcases h.height_cases with ⟨hsame, _⟩ | ⟨_, _, _, _, _, _, _, _, _, hsame, _⟩
  · exact ⟨hsame.meSk, hsame.mePk⟩
  · exact ⟨hsame.meSk, hsame.mePk⟩

theorem Enter.keys {ev : Event C} {out : List (Output C)} (h : Enter ev e out e') :
    e'.meSk = e.meSk ∧ e'.mePk = e.mePk := by
  rcases h.height_cases with ⟨hsame, _⟩ | ⟨_, _, _, _, _, _, _, _, rfl, _⟩
  · exact ⟨hsame.meSk, hsame.mePk⟩
  · exact ⟨rfl, rfl⟩

end Engine

open Engine

/-- The runs of an engine from `e₀`, with their events and their outputs;
`guard` restricts the events to those that meet a condition in the state they
find. Each event may see its own iteration order. -/
inductive Run (guard : Engine C → Event C → Prop) (e₀ : Engine C) :
    List (Event C) → List (Output C) → Engine C → Prop where
  | init : Run guard e₀ [] [] e₀
  | step {evs : List (Event C)} {log out : List (Output C)} {e e' : Engine C} {ev : Event C}
      {ord : IterOrder} (h : Run guard e₀ evs log e) (hguard : guard e ev)
      (hstep : e.handle ord ev = .ok (e', out)) : Run guard e₀ (evs ++ [ev]) (log ++ out) e'

/-- No restriction on the events. -/
def anyEvent : Engine C → Event C → Prop := fun _ _ => True

/-- The same, step by step: the states an engine passes through, also in the
middle of a handler. -/
inductive Trace (guard : Engine C → Event C → Prop) (e₀ : Engine C) :
    List (Event C) → List (Output C) → Engine C → Prop where
  | init : Trace guard e₀ [] [] e₀
  | enter {evs : List (Event C)} {log out : List (Output C)} {e e' : Engine C} {ev : Event C}
      (h : Trace guard e₀ evs log e) (hguard : guard e ev) (hent : Enter ev e out e') :
      Trace guard e₀ (evs ++ [ev]) (log ++ out) e'
  | internal {evs : List (Event C)} {log : List (Output C)} {e e' : Engine C} {ord : IterOrder}
      {out : List (Effect C)} (h : Trace guard e₀ evs log e) (hi : Internal ord e out e') :
      Trace guard e₀ evs (log ++ effects out) e'

namespace Trace

variable {guard : Engine C → Event C → Prop} {e₀ : Engine C} {evs : List (Event C)}
  {log : List (Output C)}

theorem internals {out : List (Effect C)} (h : Trace guard e₀ evs log e)
    (hi : Internals ord e out e') : Trace guard e₀ evs (log ++ effects out) e' := by
  induction hi generalizing log with
  | refl e => simpa using h
  | step hi rest ih =>
      rw [effects_append, ← List.append_assoc]
      exact ih (Trace.internal h hi)

theorem imp {guard' : Engine C → Event C → Prop} (h : Trace guard e₀ evs log e)
    (himp : ∀ e ev, guard e ev → guard' e ev) : Trace guard' e₀ evs log e := by
  induction h with
  | init => exact Trace.init
  | enter _ hguard hent ih => exact Trace.enter ih (himp _ _ hguard) hent
  | internal _ hi ih => exact Trace.internal ih hi

/-- A trace goes on from where another ended. -/
theorem trans {e₁ e₂ : Engine C} {evs' : List (Event C)} {log' : List (Output C)}
    (h₁ : Trace guard e₀ evs log e₁) (h₂ : Trace guard e₁ evs' log' e₂) :
    Trace guard e₀ (evs ++ evs') (log ++ log') e₂ := by
  induction h₂ with
  | init => simpa using h₁
  | enter _ hguard hent ih =>
      rw [← List.append_assoc, ← List.append_assoc]
      exact Trace.enter ih hguard hent
  | internal _ hi ih =>
      rw [← List.append_assoc]
      exact Trace.internal ih hi

/-- Every event of a trace met the guard where it was handled. -/
theorem guard_of_mem (h : Trace guard e₀ evs log e) {ev : Event C} (hev : ev ∈ evs) :
    ∃ e₁, guard e₁ ev := by
  induction h with
  | init => cases hev
  | enter _ hguard _ ih =>
      rcases List.mem_append.mp hev with hold | hlast
      · exact ih hold
      · rw [List.mem_singleton.mp hlast]
        exact ⟨_, hguard⟩
  | internal _ _ ih => exact ih hev

theorem mePk_eq (h : Trace guard e₀ evs log e) : e.mePk = e₀.mePk := by
  induction h with
  | init => rfl
  | enter _ _ hent ih => exact hent.keys.2.trans ih
  | internal _ hi ih => exact hi.keys.2.trans ih

end Trace

namespace Run

variable {guard : Engine C → Event C → Prop} {e₀ : Engine C} {evs : List (Event C)}
  {log : List (Output C)}

/-- A run is a trace that stops between two events. -/
theorem trace (h : Run guard e₀ evs log e) : Trace guard e₀ evs log e := by
  induction h with
  | init => exact Trace.init
  | step _ hguard hstep ih =>
      rcases handle_steps hstep with ⟨e₁, o₁, o₂, hent, hints, rfl⟩
      rw [← List.append_assoc]
      exact (Trace.enter ih hguard hent).internals hints

/-- A run under one guard is a run under every weaker one. -/
theorem imp {guard' : Engine C → Event C → Prop} (h : Run guard e₀ evs log e)
    (himp : ∀ e ev, guard e ev → guard' e ev) : Run guard' e₀ evs log e := by
  induction h with
  | init => exact Run.init
  | step _ hguard hstep ih => exact Run.step ih (himp _ _ hguard) hstep

/-- A run goes on from where another ended. -/
theorem trans {e₁ e₂ : Engine C} {evs' : List (Event C)} {log' : List (Output C)}
    (h₁ : Run guard e₀ evs log e₁) (h₂ : Run guard e₁ evs' log' e₂) :
    Run guard e₀ (evs ++ evs') (log ++ log') e₂ := by
  induction h₂ with
  | init => simpa using h₁
  | step _ hguard hstep ih =>
      rw [← List.append_assoc, ← List.append_assoc]
      exact Run.step ih hguard hstep

/-- Handling a list of events is a run, under any guard that they all meet. -/
theorem of_handleAll {evs' : List (Event C)} {out : List (Output C)}
    (hguard : ∀ ev ∈ evs', ∀ e, guard e ev) (h : e.handleAll ord evs' = .ok (e', out)) :
    Run guard e evs' out e' := by
  induction evs' generalizing e out with
  | nil =>
      rcases Exec.ok_pair h with ⟨rfl, rfl⟩
      exact Run.init
  | cons ev evs' ih =>
      simp only [handleAll, Exec.bind_eq_ok] at h
      rcases h with ⟨⟨e₁, o₁⟩, hhandle, ⟨e₂, o₂⟩, hrest, h⟩
      rcases Exec.ok_pair h with ⟨rfl, rfl⟩
      have hone : Run guard e ([] ++ [ev]) ([] ++ o₁) e₁ :=
        Run.step Run.init (hguard ev List.mem_cons_self e) hhandle
      exact hone.trans (ih (fun ev hev => hguard ev (List.mem_cons_of_mem _ hev)) hrest)

end Run

/-! ## Concrete runs -/

section

variable {guard : Engine C → Event C → Prop} [∀ e ev, Decidable (guard e ev)]

/-- Handle events one after the other while they meet the guard; with whether
the end was reached. -/
def Engine.handleWhile (ord : IterOrder) (guard : Engine C → Event C → Prop)
    [∀ e ev, Decidable (guard e ev)] (e : Engine C) :
    List (Event C) → Exec (Engine C × List (Output C) × Bool)
  | [] => .ok (e, [], true)
  | ev :: evs =>
      if guard e ev then do
        let (e, out) ← e.handle ord ev
        let (e, rest, done) ← handleWhile ord guard e evs
        return (e, out ++ rest, done)
      else .ok (e, [], false)

theorem Run.of_handleWhile {evs : List (Event C)} {out : List (Output C)}
    (h : e.handleWhile ord guard evs = .ok (e', out, true)) : Run guard e evs out e' := by
  induction evs generalizing e out with
  | nil =>
      rcases Exec.ok_triple h with ⟨rfl, rfl, _⟩
      exact Run.init
  | cons ev evs ih =>
      unfold Engine.handleWhile at h
      split at h
      · next hguard =>
          simp only [Exec.bind_eq_ok] at h
          rcases h with ⟨⟨e₁, o₁⟩, hhandle, ⟨e₂, o₂, done⟩, hrest, hret⟩
          rcases Exec.ok_triple hret with ⟨rfl, rfl, rfl⟩
          have hone : Run guard e ([] ++ [ev]) ([] ++ o₁) e₁ :=
            Run.step Run.init hguard hhandle
          exact hone.trans (ih hrest)
      · cases (Exec.ok_triple h).2.2

end

/-- Everything in ascending order. -/
def sampleOrder : IterOrder where
  rounds := ascendingRounds
  ids := KeyOrder.ascending Hash.rank Hash.rank_injective

/-- A signed entry over a small hash. -/
def sampleAttestation (key : UInt8) (content : Nat) : Attestation sample :=
  Attestation.create (C := sample) key key ⟨BitVec.ofNat 256 content⟩

/-- The value a sample proposer makes of some attestations at height 1. -/
def sampleValue (attestations : List (Attestation sample)) : Proposed sample where
  header := {
    height := 1
    prevHash := Hash.zero
    merkleRoot := (MerkleTree.build sample (attestations.map (·.leafHash))).root sample
    txCount := UInt32.ofNat attestations.length
    timestamp := 0
    govRoot := governanceRoot (C := sample) [] }
  attestations := attestations
  governance := []

/-- A proposal of `key` at height 1, and a vote. -/
def sampleProposal (key : UInt8) (round : UInt64) (validRound : Option UInt64)
    (value : Proposed sample) : ConsensusMsg sample :=
  .proposal (ProposalMsg.create (C := sample) key key 1 round validRound value)

def sampleVote (key : UInt8) (round : UInt64) (voteType : VoteType) (id : Option Hash) :
    ConsensusMsg sample :=
  .vote (VoteMsg.create (C := sample) key key 1 round voteType id)

/-- A change approved by the given keys. -/
def sampleChange (adds removes : List UInt8) (activationHeight : UInt64)
    (approvers : List UInt8) : SignedValidatorChange sample :=
  let change : ValidatorChange sample := { adds, removes, activationHeight }
  { change
    approvals := approvers.map fun k =>
      { validator := k, signature := sampleSign k change.signingBytes Context.governance } }

/-- An engine of the sample chain with the given genesis, at height 1. -/
def sampleEngine (genesis : List UInt8) (me : UInt8) : Exec (Engine sample) :=
  withRegistry (C := sample) (ValidatorRegistry.new genesis) me me Hash.zero 1

/-- What a list of events does to that engine. -/
def sampleRun (genesis : List UInt8) (me : UInt8) (evs : List (Event sample)) :
    Exec (Engine sample × List (Output sample)) := do
  let e ← sampleEngine genesis me
  e.handleAll sampleOrder evs

/-- The same while the events meet the guard. -/
def sampleRunWhile (guard : Engine sample → Event sample → Prop)
    [∀ e ev, Decidable (guard e ev)] (genesis : List UInt8) (me : UInt8)
    (evs : List (Event sample)) : Exec (Engine sample × List (Output sample) × Bool) := do
  let e ← sampleEngine genesis me
  e.handleWhile sampleOrder guard evs

theorem Run.of_sampleRunWhile {guard : Engine sample → Event sample → Prop}
    [∀ e ev, Decidable (guard e ev)] {genesis : List UInt8} {me : UInt8}
    {evs : List (Event sample)} {p : Engine sample × List (Output sample) → Bool}
    (h : (sampleRunWhile guard genesis me evs).holds (fun r => r.2.2 && p (r.1, r.2.1)) = true) :
    ∃ e₀ e log, sampleEngine genesis me = .ok e₀ ∧ Run guard e₀ evs log e ∧
      p (e, log) = true := by
  rcases Exec.holds_iff.mp h with ⟨⟨e, log, done⟩, hrun, hp⟩
  rw [Bool.and_eq_true] at hp
  obtain rfl : done = true := hp.1
  rcases Exec.bind_eq_ok.mp hrun with ⟨e₀, hnew, hall⟩
  exact ⟨e₀, e, log, hnew, Run.of_handleWhile hall, hp.2⟩

theorem Run.of_sampleRun {guard : Engine sample → Event sample → Prop} {genesis : List UInt8}
    {me : UInt8} {evs : List (Event sample)} {p : Engine sample × List (Output sample) → Bool}
    (hguard : ∀ ev ∈ evs, ∀ e, guard e ev) (h : (sampleRun genesis me evs).holds p = true) :
    ∃ e₀ e log, sampleEngine genesis me = .ok e₀ ∧ Run guard e₀ evs log e ∧
      p (e, log) = true := by
  rcases Exec.holds_iff.mp h with ⟨⟨e, log⟩, hrun, hp⟩
  rcases Exec.bind_eq_ok.mp hrun with ⟨e₀, hnew, hall⟩
  exact ⟨e₀, e, log, hnew, Run.of_handleAll hguard hall, hp⟩

end SmartLedger
