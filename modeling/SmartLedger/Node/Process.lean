import SmartLedger.Consensus.Timers
import SmartLedger.Node.Anchoring
import SmartLedger.Node.Replay
import SmartLedger.Node.Timer

/-! # The node as a process

A spawned node is several threads around one channel. The loop takes events
from the channel and carries out the effects of each before it takes the next;
the timer service puts timeouts on the channel; readers, periodic ticks, the
RPC and the handle put on it whatever they have. All of them move
independently (`ProcessStep`).

`ProcessRun.refines_loop`: between two events the loop is where `NodeRun` says, so
what holds of the runs of the loop holds here, whatever the other threads do.
`ProcessRun.booted` says the same of its engine at any moment.
-/

namespace SmartLedger

variable {C : Crypto} {B : AnchorBackend} {ord : IterOrder}

theorem Applies.nil_eq {e e' : Engine C} (h : Applies e [] e') : e' = e := by
  cases h
  rfl

theorem BootSteps.single {guard : List (Output C) → Engine C → Event C → Prop}
    {log out : List (Output C)} {e e' : Engine C} (h : BootStep guard log e out e') :
    BootSteps guard log e out e' := by
  have hstep : BootStep guard (log ++ []) e out e' := by
    rw [List.append_nil]
    exact h
  exact BootSteps.step BootSteps.refl hstep

namespace Node

/-! ## The engine behind one pass -/

/-- What the engine put out in a pass that took the node from `n` to `n'`;
messages gossiped again are nothing new. -/
def outputs (n n' : Node C) (ev : NodeEvent C) (out : List (Effect C)) : List (Output C) :=
  match ev with
  | .regossip => []
  | _ => (n'.store.drop n.store.length).map .applied ++ effects out

/-- A batch applies some of its blocks, in order. -/
theorem applyBatch_applies {n n' : Node C} {bs : List (Block C)} {applied : Bool}
    (h : n.applyBatch bs = .ok (n', applied)) :
    ∃ done, Applies n.engine done n'.engine ∧ n'.store = n.store ++ done ∧
      (applied = true ↔ done ≠ []) ∧ n'.baseTimeout = n.baseTimeout := by
  induction bs generalizing n applied with
  | nil =>
      rcases Exec.ok_pair h with ⟨rfl, rfl⟩
      exact ⟨[], Applies.nil _, (List.append_nil _).symm, by simp, rfl⟩
  | cons b rest ih =>
      unfold applyBatch at h
      split at h
      · rw [Exec.bind_eq_ok] at h
        rcases h with ⟨res, hsync, h⟩
        cases res with
        | ok engine =>
            dsimp only at h
            rw [Exec.bind_eq_ok] at h
            rcases h with ⟨⟨n₁, a⟩, hrest, h⟩
            rcases Exec.ok_pair h with ⟨rfl, rfl⟩
            rcases ih hrest with ⟨done, happlies, hstore, _, hbase⟩
            -- a block that is refused ends the batch, one that is not due is passed over
            refine ⟨b :: done, Applies.cons hsync happlies, ?_, by simp, hbase⟩
            rw [hstore, List.append_assoc]
            rfl
        | error err =>
            rcases Exec.ok_pair h with ⟨rfl, rfl⟩
            exact ⟨[], Applies.nil _, (List.append_nil _).symm, by simp, rfl⟩
      · exact ih h

/-- A dispatched event is at most one step of the engine's boot, and the
blocks it applied are in the store. -/
structure Boots (guard : List (Output C) → Engine C → Event C → Prop) (log : List (Output C))
    (n n' : Node C) (ev : NodeEvent C) (out : List (Effect C)) : Prop where
  steps : BootSteps guard log n.engine (outputs n n' ev out) n'.engine
  store : ∃ applied, n'.store = n.store ++ applied ∧
    finalized (outputs n n' ev out) = applied ++ finalized (effects out)
  timeouts : timeoutsScheduled (outputs n n' ev out) = timeoutsScheduled (effects out)
  baseTimeout : n'.baseTimeout = n.baseTimeout

theorem timeoutsScheduled_append (a b : List (Output C)) :
    timeoutsScheduled (a ++ b) = timeoutsScheduled a ++ timeoutsScheduled b :=
  List.filterMap_append

theorem timeoutsScheduled_applied (bs : List (Block C)) :
    timeoutsScheduled (bs.map Output.applied) = [] := by
  simp [timeoutsScheduled]

theorem finalized_applied (bs : List (Block C)) : finalized (bs.map Output.applied) = bs := by
  induction bs with
  | nil => rfl
  | cons b rest ih => exact congrArg (b :: ·) ih

theorem timeoutsScheduled_regossip (e : Engine C) :
    timeoutsScheduled (effects e.regossip) = [] := by
  unfold Engine.regossip
  split
  · rfl
  · simp only [effects_append, timeoutsScheduled_append, List.append_eq_nil_iff]
    refine ⟨⟨?_, ?_⟩, ?_⟩
    · split
      · split <;> rfl
      · rfl
    · split <;> rfl
    · split <;> rfl

section Boots

variable {guard : List (Output C) → Engine C → Event C → Prop} {log : List (Output C)}

/-- An event that goes to the engine. -/
theorem Boots.of_handle {n : Node C} {engine : Engine C} {ev : NodeEvent C} {ev' : Event C}
    {out : List (Effect C)} (hev : ev ≠ .regossip) (hplain : ev'.plain = true)
    (hguard : guard log n.engine ev') (h : n.engine.handle ord ev' = .ok (engine, effects out)) :
    Boots guard log n { n with engine } ev out := by
  have hout : outputs n { n with engine } ev out = effects out := by
    unfold outputs
    cases ev with
    | regossip => exact absurd rfl hev
    | _ => simp
  constructor
  · rw [hout]
    exact BootSteps.single (BootStep.event hplain hguard h)
  · exact ⟨[], (List.append_nil _).symm, by rw [hout, List.nil_append]⟩
  · rw [hout]
  · rfl

/-- An event that leaves the node alone. -/
theorem Boots.of_same {n : Node C} {ev : NodeEvent C} {out : List (Effect C)}
    (hout : outputs n n ev out = []) (hnone : finalized (effects out) = [])
    (htimeouts : timeoutsScheduled (effects out) = []) : Boots guard log n n ev out := by
  constructor
  · rw [hout]
    exact BootSteps.refl
  · exact ⟨[], (List.append_nil _).symm, by rw [hout, hnone]; rfl⟩
  · rw [hout, htimeouts]
    rfl
  · rfl

/-- A batch of blocks, with what the engine did after it. -/
theorem Boots.of_batch {n n' : Node C} {bs done : List (Block C)} {out : List (Effect C)}
    (hstore : n'.store = n.store ++ done) (hbase : n'.baseTimeout = n.baseTimeout)
    (h : BootSteps guard log n.engine (done.map .applied ++ effects out) n'.engine) :
    Boots guard log n n' (.wire (.blocks bs)) out := by
  have hout : outputs n n' (.wire (.blocks bs)) out = done.map .applied ++ effects out := by
    simp [outputs, hstore]
  constructor
  · rw [hout]
    exact h
  · refine ⟨done, hstore, ?_⟩
    rw [hout, finalized_append, finalized_applied]
  · rw [hout, timeoutsScheduled_append, timeoutsScheduled_applied, List.nil_append]
  · exact hbase

/-- What a handler of the loop does to the engine is a step of the boot. -/
theorem dispatch_boots {n n' : Node C} {ev : NodeEvent C} {out : List (Effect C)}
    {sent : List (Action C)} (hguard : ∀ ev', Feeds ev ev' → ev'.plain = true → guard log n.engine ev')
    (h : n.dispatch ord ev = .ok (n', out, sent)) : Boots guard log n n' ev out := by
  cases dispatch_cases h with
  | @fed _ ev' engine _ hfeeds hother hhandle =>
      have hplain : ev'.plain = true := by
        cases hfeeds with
        | synced => exact absurd rfl (hother _)
        | resume => exact absurd rfl (hother _)
        | _ => rfl
      have hev : ev ≠ .regossip := by
        rintro rfl
        cases hfeeds
      exact Boots.of_handle hev hplain (hguard ev' hfeeds hplain) hhandle
  | idle _ hsilent =>
      refine Boots.of_same ?_ rfl rfl
      cases ev with
      | regossip => exact absurd rfl hsilent
      | _ => simp [outputs]
  | regossip => exact Boots.of_same rfl (finalized_regossip _) (timeoutsScheduled_regossip _)
  | resumed hbatch hhandle =>
      rcases applyBatch_applies hbatch with ⟨done, happlies, hstore, hdone, hbase⟩
      exact Boots.of_batch hstore hbase
        (BootSteps.single (BootStep.catchUp (hdone.mp rfl) happlies hhandle))
  | unapplied hbatch =>
      rcases applyBatch_applies hbatch with ⟨done, happlies, hstore, hdone, hbase⟩
      -- none was applied, so the engine was not touched
      obtain rfl : done = [] := by
        by_contra hne
        cases hdone.mpr hne
      refine Boots.of_batch hstore hbase ?_
      rw [happlies.nil_eq]
      exact BootSteps.refl

end Boots

end Node

/-! ## The threads -/

/-- What waits on the event channel. -/
inductive Incoming (C : Crypto) where
  | event (ev : NodeEvent C)
  | shutdown

/-- Where the loop's thread is: not started, carrying out effects (it takes
the next event when none is left), or gone. -/
inductive LoopPhase (C : Crypto) where
  | created
  | busy (todo : List (Effect C))
  | gone

/-- The loop waits for an event. -/
def LoopPhase.waits : LoopPhase C → Bool
  | .busy [] => true
  | _ => false

@[simp] theorem LoopPhase.waits_eq_true (phase : LoopPhase C) :
    phase.waits = true ↔ phase = .busy [] := by
  cases phase with
  | busy todo => cases todo <;> simp [waits]
  | created => simp [waits]
  | gone => simp [waits]

/-- The effects the loop has still to carry out. -/
def LoopPhase.todo : LoopPhase C → List (Effect C)
  | .busy todo => todo
  | .created | .gone => []

/-- A spawned node. -/
structure Process (C : Crypto) (B : AnchorBackend) where
  node : Node C
  phase : LoopPhase C
  anchor : Option (AnchorService B)
  records : List AnchorRecord
  inbox : List (Incoming C)
  timers : TimerService

/-- The height, the round and the kind of a timeout. -/
abbrev TimeoutKey := UInt64 × UInt64 × TimeoutKind

/-- What a timer is about. -/
def Timer.key (t : Timer) : TimeoutKey := (t.height, t.round, t.kind)

/-- What happened so far: what the engine put out, what the loop asked of the
network, the timers it asked for and the timeouts it took, each with the clock
of that moment. -/
structure History (C : Crypto) where
  log : List (Output C)
  sent : List (Action C)
  armed : List (Nat × Timer)
  taken : List (Nat × TimeoutKey)

def History.empty : History C := ⟨[], [], [], []⟩

namespace Process

/-- The node as `spawn` finds it, its timer service started at `now`. -/
def create (node : Node C) (anchor : Option (AnchorService B)) (now : Nat) : Process C B where
  node := node
  phase := .created
  anchor := anchor
  records := []
  inbox := []
  timers := TimerService.start now

/-- The loop ends: both its channels lose their end. -/
def leave (p : Process C B) : Process C B :=
  { p with phase := .gone, timers := { p.timers with dropped := true, closed := true } }

/-- Carry out a commit: store the block, then feed the anchoring service. -/
def store (p : Process C B) (b : Block C) : Process C B :=
  { p with
    node := { p.node with store := p.node.store ++ [b] }
    anchor := p.anchor.map fun s => (s.recordBlock C (b.header.id C) b.header.height).1
    records := p.records ++ match p.anchor with
      | some s => (s.recordBlock C (b.header.id C) b.header.height).2.toList
      | none => [] }

end Process

/-- The timeout an event is, if it is one. -/
def NodeEvent.timeout? : NodeEvent C → Option TimeoutKey
  | .timeout height round kind => some (height, round, kind)
  | _ => none

def Incoming.timeout? : Incoming C → Option TimeoutKey
  | .event ev => ev.timeout?
  | .shutdown => none

/-- What the timer service puts on the event channel when it goes from `s` to
`s'`. -/
def TimerService.firedBy (s s' : TimerService) : List (Incoming C) :=
  (s'.sent.drop s.sent.length).map fun q => .event (.timeout q.2.height q.2.round q.2.kind)

/-- A step of one of the threads; the events that reach the engine meet
`guard`. -/
inductive ProcessStep (guard : List (Output C) → Engine C → Event C → Prop) :
    History C × Process C B → History C × Process C B → Prop where
  | tick {H : History C} {p : Process C B} (d : Nat) :
      ProcessStep guard (H, p) (H, { p with timers := { p.timers with now := p.timers.now + d } })
  | timer {H : History C} {p : Process C B} {timers : TimerService}
      (h : p.timers.Works timers) :
      ProcessStep guard (H, p)
        (H, { p with timers, inbox := p.inbox ++ p.timers.firedBy timers })
  | arrive {H : History C} {p : Process C B} (x : Incoming C) (hx : x.timeout? = none)
      (hup : p.phase ≠ .gone) : ProcessStep guard (H, p) (H, { p with inbox := p.inbox ++ [x] })
  | start {H : History C} {p : Process C B} {ord : IterOrder} {now : UInt64}
      {engine : Engine C} {out : List (Effect C)} (hphase : p.phase = .created)
      (h : (p.node.engine.setTime now).start ord = .ok (engine, out)) :
      ProcessStep guard (H, p)
        ({ H with log := H.log ++ effects out },
          { p with node := { p.node with engine }, phase := .busy out })
  | receive {H : History C} {p : Process C B} {ord : IterOrder} {now : UInt64}
      {ev : NodeEvent C} {rest : List (Incoming C)} {node : Node C} {out : List (Effect C)}
      {sent : List (Action C)} (hphase : p.phase = .busy []) (hinbox : p.inbox = .event ev :: rest)
      (hguard : ∀ ev', Node.Feeds ev ev' → guard H.log (p.node.engine.setTime now) ev')
      (h : Node.dispatch ord { p.node with engine := p.node.engine.setTime now } ev =
        .ok (node, out, sent)) :
      ProcessStep guard (H, p)
        ({ H with
            log := H.log ++ Node.outputs p.node node ev out
            sent := H.sent ++ sent
            taken := H.taken ++ (ev.timeout?.map fun key => (p.timers.now, key)).toList },
          { p with node, phase := .busy out, inbox := rest })
  | broadcast {H : History C} {p : Process C B} {msg : ConsensusMsg C} {todo : List (Effect C)}
      (hphase : p.phase = .busy (.broadcast msg :: todo)) :
      ProcessStep guard (H, p)
        ({ H with sent := H.sent ++ [.broadcast (.consensus msg)] }, { p with phase := .busy todo })
  | schedule {H : History C} {p : Process C B} {height round : UInt64} {kind : TimeoutKind}
      {todo : List (Effect C)} {delay : Nat}
      (hphase : p.phase = .busy (.scheduleTimeout height round kind :: todo))
      (hdelay : Node.timeoutFor p.node.baseTimeout round = .ok delay) :
      ProcessStep guard (H, p)
        ({ H with
            sent := H.sent ++ [.schedule height round kind delay]
            armed := H.armed ++ [(p.timers.now, p.timers.timer height round kind delay)] },
          { p with phase := .busy todo, timers := p.timers.schedule height round kind delay })
  | committed {H : History C} {p : Process C B} {b : Block C} {todo : List (Effect C)}
      (hphase : p.phase = .busy (.committed b :: todo)) :
      ProcessStep guard (H, p) (H, { p.store b with phase := .busy todo })
  | shutdown {H : History C} {p : Process C B} {rest : List (Incoming C)}
      (hphase : p.phase = .busy []) (hinbox : p.inbox = .shutdown :: rest) :
      ProcessStep guard (H, p)
        (H, Process.leave { p with inbox := rest, timers := p.timers.stop })
  | panicStart {H : History C} {p : Process C B} {ord : IterOrder} {now : UInt64} {err : Panic}
      (hphase : p.phase = .created) (h : (p.node.engine.setTime now).start ord = .error err) :
      ProcessStep guard (H, p) (H, p.leave)
  | panicReceive {H : History C} {p : Process C B} {ord : IterOrder} {now : UInt64}
      {ev : NodeEvent C} {rest : List (Incoming C)} {applied : List (Block C)}
      {engine : Engine C} {err : Panic} (hphase : p.phase = .busy [])
      (hinbox : p.inbox = .event ev :: rest)
      (h : Node.dispatch ord { p.node with engine := p.node.engine.setTime now } ev = .error err)
      -- a batch may have been applied in part
      (happlied : ∀ b ∈ applied, Node.Feeds ev (.synced b))
      (happlies : Applies (p.node.engine.setTime now) applied engine) :
      ProcessStep guard (H, p)
        ({ H with taken := H.taken ++ (ev.timeout?.map fun key => (p.timers.now, key)).toList },
          Process.leave
          { p with node := { p.node with store := p.node.store ++ applied }, inbox := rest })
  | panicSchedule {H : History C} {p : Process C B} {height round : UInt64} {kind : TimeoutKind}
      {todo : List (Effect C)} {err : Panic}
      (hphase : p.phase = .busy (.scheduleTimeout height round kind :: todo))
      (h : Node.timeoutFor p.node.baseTimeout round = .error err) :
      ProcessStep guard (H, p) (H, p.leave)

/-- The runs of a node that was spawned at `now`. -/
def ProcessRun (guard : List (Output C) → Engine C → Event C → Prop) (n₀ : Node C)
    (anchor : Option (AnchorService B)) (now : Nat) : History C × Process C B → Prop :=
  Relation.ReflTransGen (ProcessStep guard) (History.empty, Process.create n₀ anchor now)

/-! ## A turn of the loop -/

/-- What the loop's thread does next: it starts, carries out an effect, or
takes an event. -/
def Process.turn (ord : IterOrder) (now : UInt64) (H : History C) (p : Process C B) :
    Exec (History C × Process C B) :=
  match p.phase with
  | .created => do
      let (engine, out) ← (p.node.engine.setTime now).start ord
      return ({ H with log := H.log ++ effects out },
        { p with node := { p.node with engine }, phase := .busy out })
  | .busy (.broadcast msg :: todo) =>
      .ok ({ H with sent := H.sent ++ [.broadcast (.consensus msg)] },
        { p with phase := .busy todo })
  | .busy (.scheduleTimeout height round kind :: todo) => do
      let delay ← Node.timeoutFor p.node.baseTimeout round
      return ({ H with
          sent := H.sent ++ [.schedule height round kind delay]
          armed := H.armed ++ [(p.timers.now, p.timers.timer height round kind delay)] },
        { p with phase := .busy todo, timers := p.timers.schedule height round kind delay })
  | .busy (.committed b :: todo) => .ok (H, { p.store b with phase := .busy todo })
  | .busy [] =>
      match p.inbox with
      | .event ev :: rest => do
          let (node, out, sent) ←
            Node.dispatch ord { p.node with engine := p.node.engine.setTime now } ev
          return ({ H with
              log := H.log ++ Node.outputs p.node node ev out
              sent := H.sent ++ sent
              taken := H.taken ++ (ev.timeout?.map fun key => (p.timers.now, key)).toList },
            { p with node, phase := .busy out, inbox := rest })
      | .shutdown :: rest => .ok (H, Process.leave { p with inbox := rest, timers := p.timers.stop })
      | [] => .ok (H, p)
  | .gone => .ok (H, p)

/-- It is a step of the process, if it is anything. -/
theorem ProcessStep.of_turn {now : UInt64} {H H' : History C} {p p' : Process C B}
    (h : p.turn ord now H = .ok (H', p')) :
    Relation.ReflTransGen (ProcessStep anyDrive) (H, p) (H', p') := by
  unfold Process.turn at h
  split at h
  · next hphase =>
    rw [Exec.bind_eq_ok] at h
    rcases h with ⟨⟨engine, out⟩, hstart, h⟩
    rcases Exec.ok_pair h with ⟨rfl, rfl⟩
    exact Relation.ReflTransGen.single (ProcessStep.start hphase hstart)
  · next hphase =>
    rcases Exec.ok_pair h with ⟨rfl, rfl⟩
    exact Relation.ReflTransGen.single (ProcessStep.broadcast hphase)
  · next hphase =>
    rw [Exec.bind_eq_ok] at h
    rcases h with ⟨delay, hdelay, h⟩
    rcases Exec.ok_pair h with ⟨rfl, rfl⟩
    exact Relation.ReflTransGen.single (ProcessStep.schedule hphase hdelay)
  · next hphase =>
    rcases Exec.ok_pair h with ⟨rfl, rfl⟩
    exact Relation.ReflTransGen.single (ProcessStep.committed hphase)
  · next hphase =>
    split at h
    · next hinbox =>
      rw [Exec.bind_eq_ok] at h
      rcases h with ⟨⟨node, out, sent⟩, hdispatch, h⟩
      rcases Exec.ok_pair h with ⟨rfl, rfl⟩
      exact Relation.ReflTransGen.single
        (ProcessStep.receive hphase hinbox (fun _ _ => trivial) hdispatch)
    · next hinbox =>
      rcases Exec.ok_pair h with ⟨rfl, rfl⟩
      exact Relation.ReflTransGen.single (ProcessStep.shutdown hphase hinbox)
    · rcases Exec.ok_pair h with ⟨rfl, rfl⟩
      exact Relation.ReflTransGen.refl
  · rcases Exec.ok_pair h with ⟨rfl, rfl⟩
    exact Relation.ReflTransGen.refl

/-- So many turns. -/
def Process.turns (ord : IterOrder) (now : UInt64) :
    Nat → History C × Process C B → Exec (History C × Process C B)
  | 0, x => .ok x
  | n + 1, (H, p) => do
      let x ← p.turn ord now H
      turns ord now n x

theorem ProcessStep.of_turns {now : UInt64} {n : Nat} {x y : History C × Process C B}
    (h : Process.turns ord now n x = .ok y) :
    Relation.ReflTransGen (ProcessStep anyDrive) x y := by
  induction n generalizing x with
  | zero =>
      obtain rfl := Except.ok.inj h
      exact Relation.ReflTransGen.refl
  | succ n ih =>
      rw [Process.turns, Exec.bind_eq_ok] at h
      rcases h with ⟨x₁, hturn, hrest⟩
      exact (ProcessStep.of_turn hturn).trans (ih hrest)

section Runs

variable {guard : List (Output C) → Engine C → Event C → Prop} {n₀ : Node C}
  {anchor : Option (AnchorService B)} {now₀ : Nat} {H H' : History C} {p p' : Process C B}

/-! ## The engine of the process -/

/-- Until the loop has started nothing happened; from then on the engine is
in its boot. -/
def Process.Booted (guard : List (Output C) → Engine C → Event C → Prop) (e₀ : Engine C)
    (H : History C) (p : Process C B) : Prop :=
  (∀ todo, p.phase ≠ .busy todo) ∧ H.log = [] ∧ p.node.engine = e₀ ∨
  p.phase ≠ .created ∧ BootRun guard e₀ H.log p.node.engine

namespace Process.Booted

variable {e₀ : Engine C}

theorem run (h : Booted guard e₀ H p) {todo : List (Effect C)} (hphase : p.phase = .busy todo) :
    BootRun guard e₀ H.log p.node.engine := by
  rcases h with ⟨hnot, _⟩ | ⟨_, hrun⟩
  · exact absurd hphase (hnot todo)
  · exact hrun

/-- The engine after the clock is set and an event is dispatched. -/
theorem dispatched (ord : IterOrder) (htime : ∀ log e now, guard log e (.setTime now))
    (h : BootRun guard e₀ H.log p.node.engine) {now : UInt64} {ev : NodeEvent C} {node : Node C}
    {out : List (Effect C)} (hboots : Node.Boots guard H.log
      { p.node with engine := p.node.engine.setTime now } node ev out) :
    BootRun guard e₀ (H.log ++ Node.outputs p.node node ev out) node.engine := by
  have hset : p.node.engine.handle ord (.setTime now) = .ok (p.node.engine.setTime now, []) := rfl
  have hclock := h.step (BootStep.event rfl (htime _ _ now) hset)
  rw [List.append_nil] at hclock
  exact hclock.steps hboots.steps

/-- What one step of the process does to the boot. -/
theorem step (htime : ∀ log e now, guard log e (.setTime now)) (h : p.Booted guard e₀ H)
    (hstep : ProcessStep guard (H, p) (H', p')) : p'.Booted guard e₀ H' := by
  cases hstep with
  | tick => exact h
  | timer => exact h
  | arrive => exact h
  | @start _ _ ord now engine out hphase hstart =>
      rcases h with ⟨_, hlog, hengine⟩ | ⟨hnot, _⟩
      · refine Or.inr ⟨by simp, ?_⟩
        -- the loop starts the engine it was spawned with
        have hhandle : (e₀.setTime now).handle ord .start = .ok (engine, effects out) := by
          rw [hengine] at hstart
          simp only [Engine.handle, hstart]
          rfl
        rw [hlog]
        exact BootRun.start hhandle
      · exact absurd hphase hnot
  | @receive _ _ ord now ev rest node out sent hphase hinbox hguard hdispatch =>
      exact Or.inr ⟨by simp, dispatched ord htime (h.run hphase)
        (Node.dispatch_boots (fun ev' hfeeds _ => hguard ev' hfeeds) hdispatch)⟩
  | broadcast hphase => exact Or.inr ⟨by simp, h.run hphase⟩
  | schedule hphase => exact Or.inr ⟨by simp, h.run hphase⟩
  | committed hphase => exact Or.inr ⟨by simp, h.run hphase⟩
  | shutdown hphase => exact Or.inr ⟨by simp [Process.leave], h.run hphase⟩
  | panicStart hphase =>
      rcases h with ⟨_, hlog, hengine⟩ | ⟨hnot, _⟩
      · exact Or.inl ⟨by simp [Process.leave], hlog, hengine⟩
      · exact absurd hphase hnot
  | panicReceive hphase => exact Or.inr ⟨by simp [Process.leave], h.run hphase⟩
  | panicSchedule hphase => exact Or.inr ⟨by simp [Process.leave], h.run hphase⟩

end Process.Booted

/-- Along a run of the process. -/
theorem ProcessRun.booted (htime : ∀ log e now, guard log e (.setTime now))
    (h : ProcessRun guard n₀ anchor now₀ (H, p)) : p.Booted guard n₀.engine H := by
  have hall : ∀ s, ProcessRun guard n₀ anchor now₀ s → s.2.Booted guard n₀.engine s.1 := by
    intro s hs
    induction hs with
    | refl => exact Or.inl ⟨by simp [Process.create], rfl, rfl⟩
    | tail _ hstep ih => exact ih.step htime hstep
  exact hall _ h

/-! ## The chain of the process -/

theorem Engine.Enter.trace {e e' : Engine C} {ev : Event C} {out : List (Output C)}
    (h : Engine.Enter ev e out e') : Trace anyEvent e [ev] out e' := by
  have hfree : anyEvent e ev := trivial
  exact Trace.init.enter hfree h

theorem Applies.trace {e e' : Engine C} {bs : List (Block C)} (h : Applies e bs e') :
    ∃ evs, Trace anyEvent e evs (bs.map Output.applied) e' := by
  induction h with
  | nil e => exact ⟨[], Trace.init⟩
  | cons hsync _ ih =>
      rcases ih with ⟨evs, htrace⟩
      exact ⟨_, (Engine.Enter.synced hsync).trace.trans htrace⟩

theorem Engine.handle_trace {e e' : Engine C} {ev : Event C} {out : List (Output C)}
    (h : e.handle ord ev = .ok (e', out)) : Trace anyEvent e [ev] out e' := by
  rcases Engine.handle_steps h with ⟨e₁, o₁, o₂, hent, hints, rfl⟩
  exact hent.trace.internals hints

theorem BootStep.trace {log out : List (Output C)} {e e' : Engine C}
    (h : BootStep guard log e out e') : ∃ evs, Trace anyEvent e evs out e' := by
  cases h with
  | event _ _ hhandle => exact ⟨_, Engine.handle_trace hhandle⟩
  | catchUp _ happlies hresume =>
      rcases happlies.trace with ⟨evs, htrace⟩
      exact ⟨_, htrace.trans (Engine.handle_trace hresume)⟩

theorem BootSteps.trace {log news : List (Output C)} {e e' : Engine C}
    (h : BootSteps guard log e news e') : ∃ evs, Trace anyEvent e evs news e' := by
  induction h with
  | refl => exact ⟨[], Trace.init⟩
  | step _ hstep ih =>
      rcases ih with ⟨evs, htrace⟩
      rcases hstep.trace with ⟨evs', htrace'⟩
      exact ⟨_, htrace.trans htrace'⟩

/-- A boot is a trace of its engine. -/
theorem BootRun.trace {log : List (Output C)} {e₀ e : Engine C} (h : BootRun guard e₀ log e) :
    ∃ evs, Trace anyEvent e₀ evs log e := by
  induction h with
  | start hstart =>
      exact ⟨_, Engine.Enter.setTime.trace.trans (Engine.handle_trace hstart)⟩
  | step _ hstep ih =>
      rcases ih with ⟨evs, htrace⟩
      rcases hstep.trace with ⟨evs', htrace'⟩
      exact ⟨_, htrace.trans htrace'⟩

/-- The blocks that are stored or about to be. -/
def Process.ledger (p : Process C B) : List (Block C) :=
  p.node.store ++ finalized (effects p.phase.todo)

/-- Blocks are only ever added to the store. -/
theorem ProcessStep.store_append (h : ProcessStep guard (H, p) (H', p')) :
    ∃ fresh, p'.node.store = p.node.store ++ fresh := by
  have hsame : ∀ {q : Process C B}, q.node.store = p.node.store →
      ∃ fresh, q.node.store = p.node.store ++ fresh :=
    fun hstore => ⟨[], by rw [hstore, List.append_nil]⟩
  cases h with
  | tick => exact hsame rfl
  | timer => exact hsame rfl
  | arrive => exact hsame rfl
  | start => exact hsame rfl
  | receive hphase hinbox hguard hdispatch =>
      rcases (Node.dispatch_boots (fun ev' hfeeds _ => hguard ev' hfeeds) hdispatch).store with
        ⟨applied, hstore, _⟩
      exact ⟨applied, hstore⟩
  | broadcast => exact hsame rfl
  | schedule => exact hsame rfl
  | committed => exact ⟨_, rfl⟩
  | shutdown => exact hsame rfl
  | panicStart => exact hsame rfl
  | panicReceive => exact ⟨_, rfl⟩
  | panicSchedule => exact hsame rfl

/-- The store of a process, with what is about to be stored, is what its
engine finalized after `n₀`; and it is always part of a chain. -/
structure Process.Stored (s₀ : ChainState C) (n₀ : Node C) (H : History C) (p : Process C B) :
    Prop where
  created : p.phase = .created → p.node.store = n₀.store
  busy : ∀ todo, p.phase = .busy todo → p.ledger = n₀.store ++ finalized H.log
  chain : Chain s₀ p.ledger

theorem Process.Stored.step {s₀ : ChainState C} (hon : OnChain s₀ n₀.store n₀.engine)
    (h : p.Stored s₀ n₀ H) (hbooted : p.Booted guard n₀.engine H)
    (hbooted' : p'.Booted guard n₀.engine H') (hstep : ProcessStep guard (H, p) (H', p')) :
    p'.Stored s₀ n₀ H' := by
  -- while the loop is up, the chain is that of its engine
  have hup : ∀ {todo : List (Effect C)}, p'.phase = .busy todo →
      p'.ledger = n₀.store ++ finalized H'.log → p'.Stored s₀ n₀ H' := by
    intro todo hphase hledger
    refine ⟨by simp [hphase], fun _ _ => hledger, ?_⟩
    rcases (hbooted'.run hphase).trace with ⟨evs, htrace⟩
    rw [hledger]
    exact (hon.trace htrace).chain
  -- what is lost when it ends was at the end of the chain
  have hleave : ∀ {q : Process C B}, q.node.store = p.node.store →
      q.leave.Stored s₀ n₀ H' := by
    intro q hstore
    refine ⟨by simp [Process.leave], by simp [Process.leave], ?_⟩
    have hchain := (Chain.append_iff.mp h.chain).1
    show Chain s₀ (q.node.store ++ [])
    rwa [List.append_nil, hstore]
  cases hstep with
  | tick => exact ⟨h.created, h.busy, h.chain⟩
  | timer => exact ⟨h.created, h.busy, h.chain⟩
  | arrive => exact ⟨h.created, h.busy, h.chain⟩
  | @start _ _ ord now engine out hphase =>
      apply hup rfl
      rcases hbooted with ⟨_, hlog, _⟩ | ⟨hnot, _⟩
      · show p.node.store ++ finalized (effects out) = _
        rw [h.created hphase, hlog]
        rfl
      · exact absurd hphase hnot
  | @receive _ _ ord now ev rest node out sent hphase hinbox hguard hdispatch =>
      apply hup rfl
      rcases (Node.dispatch_boots (fun ev' hfeeds _ => hguard ev' hfeeds) hdispatch).store with
        ⟨applied, hstore, hfinal⟩
      have hbefore := h.busy [] hphase
      unfold Process.ledger at hbefore
      rw [hphase] at hbefore
      show node.store ++ finalized (effects out) = _
      rw [finalized_append]
      have hnew : finalized (Node.outputs p.node node ev out) =
          applied ++ finalized (effects out) := hfinal
      rw [hnew, ← List.append_assoc, ← hbefore, hstore]
      simp [LoopPhase.todo]
  | @broadcast _ _ msg todo hphase =>
      apply hup rfl
      have hbefore := h.busy _ hphase
      unfold Process.ledger at hbefore
      rw [hphase] at hbefore
      exact hbefore
  | @schedule _ _ height round kind todo delay hphase =>
      apply hup rfl
      have hbefore := h.busy _ hphase
      unfold Process.ledger at hbefore
      rw [hphase] at hbefore
      exact hbefore
  | @committed _ _ b todo hphase =>
      apply hup rfl
      have hbefore := h.busy _ hphase
      unfold Process.ledger at hbefore
      rw [hphase] at hbefore
      rw [← hbefore]
      show p.node.store ++ [b] ++ finalized (effects todo) = _
      rw [List.append_assoc]
      rfl
  | shutdown => exact hleave rfl
  | panicStart => exact hleave rfl
  | @panicReceive _ _ ord now ev rest applied engine err hphase hinbox hdispatch happlied happlies =>
      refine ⟨by simp [Process.leave], by simp [Process.leave], ?_⟩
      have hbefore := h.busy [] hphase
      unfold Process.ledger at hbefore
      rw [hphase] at hbefore
      have hstore : p.node.store = n₀.store ++ finalized H.log := by
        rw [← hbefore]
        exact (List.append_nil _).symm
      rcases (hbooted.run hphase).trace with ⟨evs, htrace⟩
      have hset : Trace anyEvent p.node.engine [.setTime now] [] (p.node.engine.setTime now) :=
        Engine.Enter.setTime.trace
      rcases happlies.trace with ⟨evs', htrace'⟩
      have hend := (hon.trace ((htrace.trans hset).trans htrace')).chain
      show Chain s₀ (p.node.store ++ applied ++ [])
      rw [List.append_nil, hstore]
      simpa [Node.finalized_applied] using hend
  | panicSchedule => exact hleave rfl

/-- What is stored, in memory and on disk, is what the engine finalized. -/
theorem ProcessRun.stored {s₀ : ChainState C} (hon : OnChain s₀ n₀.store n₀.engine)
    (htime : ∀ log e now, guard log e (.setTime now))
    (h : ProcessRun guard n₀ anchor now₀ (H, p)) : p.Stored s₀ n₀ H := by
  have hall : ∀ s, ProcessRun guard n₀ anchor now₀ s → s.2.Stored s₀ n₀ s.1 := by
    intro s hs
    induction hs with
    | refl =>
        refine ⟨fun _ => rfl, by simp [Process.create], ?_⟩
        show Chain s₀ (n₀.store ++ [])
        rw [List.append_nil]
        exact hon.chain
    | tail hprev hstep ih =>
        have hnext : ProcessRun guard n₀ anchor now₀ _ := hprev.tail hstep
        exact ih.step hon (ProcessRun.booted htime hprev) (ProcessRun.booted htime hnext) hstep
  exact hall _ h

/-! ## The loop of the process -/

/-- Effects whose timers can be set are carried out. -/
theorem Node.handleEffects_eq {base : Nat} {out : List (Effect C)}
    (hset : ∀ h r kind, .scheduleTimeout h r kind ∈ out → ∃ delay, timeoutFor base r = .ok delay)
    (store : List (Block C)) :
    ∃ acts, handleEffects base store out = .ok (store ++ finalized (effects out), acts) := by
  induction out generalizing store with
  | nil => exact ⟨[], by simp [handleEffects]⟩
  | cons x rest ih =>
      -- the store grows as the effects are carried out
      have hrest : ∀ h r kind, .scheduleTimeout h r kind ∈ rest →
          ∃ delay, timeoutFor base r = .ok delay :=
        fun h r kind hmem => hset h r kind (List.mem_cons_of_mem _ hmem)
      cases x with
      | broadcast msg =>
          rcases ih hrest store with ⟨acts, hacts⟩
          refine ⟨.broadcast (.consensus msg) :: acts, ?_⟩
          simp only [handleEffects, hacts]
          rfl
      | scheduleTimeout height round kind =>
          rcases ih hrest store with ⟨acts, hacts⟩
          rcases hset height round kind List.mem_cons_self with ⟨delay, hdelay⟩
          refine ⟨.schedule height round kind delay :: acts, ?_⟩
          simp only [handleEffects, hacts, hdelay]
          rfl
      | committed b =>
          rcases ih hrest (store ++ [b]) with ⟨acts, hacts⟩
          refine ⟨acts, ?_⟩
          simp only [handleEffects, hacts, List.append_assoc]
          rfl

/-- What was already sent has no influence on the rest. -/
theorem Node.finish_sent {n n' : Node C} {out : List (Effect C)} {sent acts : List (Action C)}
    (h : finish n out sent = .ok (n', acts)) (sent' : List (Action C)) :
    ∃ acts', finish n out sent' = .ok (n', acts') := by
  unfold finish at h ⊢
  rw [Exec.bind_eq_ok] at h
  rcases h with ⟨⟨store, acts₁⟩, heffects, h⟩
  rcases Exec.ok_pair h with ⟨rfl, _⟩
  refine ⟨sent' ++ acts₁, ?_⟩
  rw [heffects]
  rfl

/-- The loop is in the middle of a pass: it has carried out `done`, and if it
gets through, it is where `NodeRun` says. -/
structure Process.Midway (n₀ : Node C) (p : Process C B) (node : Node C)
    (done : List (Effect C)) : Prop where
  carried : p.node = { node with store := node.store ++ finalized (effects done) }
  timers : ∀ h r kind, .scheduleTimeout h r kind ∈ done →
    ∃ delay, Node.timeoutFor node.baseTimeout r = .ok delay
  through : ∀ n, (∃ sent acts, Node.finish node (done ++ p.phase.todo) sent = .ok (n, acts)) →
    NodeRun n₀ n

namespace Process.Midway

variable {node : Node C} {done : List (Effect C)}

/-- The pass is over. -/
theorem ended (h : p.Midway n₀ node done) (htodo : p.phase.todo = []) : NodeRun n₀ p.node := by
  rcases Node.handleEffects_eq h.timers node.store with ⟨acts, hacts⟩
  apply h.through
  refine ⟨[], [] ++ acts, ?_⟩
  rw [htodo, List.append_nil, h.carried]
  unfold Node.finish
  rw [hacts]
  rfl

/-- One more effect is carried out. -/
theorem carry (h : p.Midway n₀ node done) {q : Process C B} {x : Effect C}
    {todo : List (Effect C)} (hphase : p.phase = .busy (x :: todo)) (hnext : q.phase = .busy todo)
    (htimer : ∀ h r kind, x = .scheduleTimeout h r kind →
      ∃ delay, Node.timeoutFor node.baseTimeout r = .ok delay)
    (hnode : q.node = { p.node with store := p.node.store ++ finalized (effects [x]) }) :
    q.Midway n₀ node (done ++ [x]) where
  carried := by
    rw [hnode, h.carried, effects_append, finalized_append, List.append_assoc]
  timers height round kind hmem := by
    rcases List.mem_append.mp hmem with hold | hnew
    · exact h.timers height round kind hold
    · exact htimer height round kind (List.mem_singleton.mp hnew).symm
  through n hfinish := by
    apply h.through n
    have hsplit : done ++ [x] ++ q.phase.todo = done ++ p.phase.todo := by
      rw [hphase, hnext, List.append_assoc]
      rfl
    rwa [hsplit] at hfinish

end Process.Midway

/-- Where the loop of a process is: where it started, or in a pass. -/
def Process.InLoop (n₀ : Node C) (p : Process C B) : Prop :=
  (p.phase = .created → p.node = n₀) ∧
  ∀ todo, p.phase = .busy todo → ∃ node done, p.Midway n₀ node done

/-- One step, by its cases. -/
theorem Process.InLoop.step (h : p.InLoop n₀) (hstep : ProcessStep guard (H, p) (H', p')) :
    p'.InLoop n₀ := by
  -- the other threads do not touch the node
  have hsame : ∀ {q : Process C B}, q.node = p.node → q.phase = p.phase → q.InLoop n₀ := by
    intro q hnode hphase
    refine ⟨fun hcreated => hnode.trans (h.1 (hphase ▸ hcreated)), ?_⟩
    intro todo hbusy
    rcases h.2 todo (hphase ▸ hbusy) with ⟨node, done, hmid⟩
    exact ⟨node, done, hnode.trans hmid.carried, hmid.timers, by rw [hphase]; exact hmid.through⟩
  cases hstep with
  | tick => exact hsame rfl rfl
  | timer => exact hsame rfl rfl
  | arrive => exact hsame rfl rfl
  | @start _ _ ord now engine out hphase hstart =>
      refine ⟨by simp, ?_⟩
      intro todo htodo
      obtain rfl := LoopPhase.busy.inj htodo
      refine ⟨{ p.node with engine }, [], by simp, by simp, ?_⟩
      rintro n ⟨sent, acts, hfinish⟩
      rw [h.1 hphase] at hstart hfinish
      rcases Node.finish_sent hfinish [] with ⟨acts', hbegin⟩
      -- what the pass was before its first effect
      have hpass : n₀.begin ord now = .ok (n, acts') := by
        unfold Node.begin
        rw [Exec.bind_eq_ok]
        exact ⟨_, hstart, hbegin⟩
      exact NodeRun.start hpass
  | @receive _ _ ord now ev rest node out sent hphase hinbox hguard hdispatch =>
      refine ⟨by simp, ?_⟩
      intro todo htodo
      obtain rfl := LoopPhase.busy.inj htodo
      rcases h.2 _ hphase with ⟨node₁, done₁, hmid⟩
      have hrun := hmid.ended (by rw [hphase]; rfl)
      refine ⟨node, [], by simp, by simp, ?_⟩
      rintro n ⟨sent', acts, hfinish⟩
      rcases Node.finish_sent hfinish sent with ⟨acts', hpass⟩
      have hhandle : p.node.handle ord now ev = .ok (n, acts') := by
        unfold Node.handle
        rw [Exec.bind_eq_ok]
        exact ⟨_, hdispatch, hpass⟩
      exact NodeRun.step hrun hhandle
  | @broadcast _ _ msg todo hphase =>
      refine ⟨by simp, ?_⟩
      intro todo' _
      rcases h.2 _ hphase with ⟨node, done, hmid⟩
      refine ⟨node, done ++ [.broadcast msg], hmid.carry hphase rfl (by simp) ?_⟩
      show p.node = { p.node with store := p.node.store ++ [] }
      rw [List.append_nil]
  | @schedule _ _ height round kind todo delay hphase hdelay =>
      refine ⟨by simp, ?_⟩
      intro todo' _
      rcases h.2 _ hphase with ⟨node, done, hmid⟩
      refine ⟨node, done ++ [.scheduleTimeout height round kind], hmid.carry hphase rfl ?_ ?_⟩
      · intro h' r' kind' hx
        obtain ⟨rfl, rfl, rfl⟩ : height = h' ∧ round = r' ∧ kind = kind' := by simpa using hx
        rw [hmid.carried] at hdelay
        exact ⟨delay, hdelay⟩
      · show p.node = { p.node with store := p.node.store ++ [] }
        rw [List.append_nil]
  | @committed _ _ b todo hphase =>
      refine ⟨by simp, ?_⟩
      intro todo' _
      rcases h.2 _ hphase with ⟨node, done, hmid⟩
      exact ⟨node, done ++ [.committed b], hmid.carry hphase rfl (by simp) rfl⟩
  | shutdown => exact ⟨by simp [Process.leave], by simp [Process.leave]⟩
  | panicStart => exact ⟨by simp [Process.leave], by simp [Process.leave]⟩
  | panicReceive => exact ⟨by simp [Process.leave], by simp [Process.leave]⟩
  | panicSchedule => exact ⟨by simp [Process.leave], by simp [Process.leave]⟩

/-- Between two events the loop is in a state of `NodeRun`. -/
theorem ProcessRun.refines_loop (h : ProcessRun guard n₀ anchor now₀ (H, p))
    (hphase : p.phase = .busy []) : NodeRun n₀ p.node := by
  have hall : ∀ s, ProcessRun guard n₀ anchor now₀ s → s.2.InLoop n₀ := by
    intro s hs
    induction hs with
    | refl => exact ⟨fun _ => rfl, by simp [Process.create]⟩
    | tail _ hstep ih => exact ih.step hstep
  rcases (hall _ h).2 _ hphase with ⟨node, done, hmid⟩
  exact hmid.ended (by rw [hphase]; rfl)

end Runs

/-- A lone validator that finds a submission on its channel, after some turns. -/
def sampleTurned : Exec (Node sample × History sample × Process sample mockAnchor) := do
  let n₀ ← Node.new (C := sample) [1] (1 : UInt8) 1 [] 1000
  let p₀ : Process sample mockAnchor := Process.create n₀ none 0
  let p : Process sample mockAnchor :=
    { p₀ with inbox := p₀.inbox ++ [.event (.submit (sampleAttestation 9 7))] }
  let res ← Process.turns sampleOrder 0 13 (History.empty, p)
  return (n₀, res)

/-- It sealed the document and waits for the next event. -/
theorem refines_loop_turned :
    ∃ n₀ H p, ProcessRun (B := mockAnchor) anyDrive n₀ none 0 (H, p) ∧ p.phase = .busy [] ∧
      p.node.store.length = 1 ∧ NodeRun (C := sample) n₀ p.node := by
  have hholds : sampleTurned.holds (fun r =>
      r.2.2.phase.waits && decide (r.2.2.node.store.length = 1)) = true := by decide +kernel
  rcases Exec.holds_iff.mp hholds with ⟨⟨n₀, H, p⟩, hturned, hp⟩
  rw [Bool.and_eq_true, LoopPhase.waits_eq_true, decide_eq_true_eq] at hp
  rcases hp with ⟨hphase, hstored⟩
  unfold sampleTurned at hturned
  rw [Exec.bind_eq_ok] at hturned
  rcases hturned with ⟨n₁, _, hturned⟩
  rw [Exec.bind_eq_ok] at hturned
  rcases hturned with ⟨res, hturns, hret⟩
  rcases Exec.ok_pair hret with ⟨rfl, rfl⟩
  have hrun : ProcessRun (B := mockAnchor) anyDrive n₀ none 0 (H, p) := by
    refine Relation.ReflTransGen.head ?_ (ProcessStep.of_turns hturns)
    exact ProcessStep.arrive _ rfl (by simp [Process.create])
  exact ⟨n₀, H, p, hrun, hphase, hstored, hrun.refines_loop hphase⟩

end SmartLedger
