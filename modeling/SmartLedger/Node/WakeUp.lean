import SmartLedger.Consensus.Expiry
import SmartLedger.Node.Process

/-! # Timeouts on their way

The engine asks for a timeout as an effect, the loop passes it on as a command
to the timer service, the service keeps it on its heap until it is due and
puts it on the event channel, and the loop hands it to the engine. `Timed`
follows the timeouts along this way, and `Beyond` says what became of those
that arrived.

`wake_up_on_the_way`: every timeout the loop takes was asked for by its own
engine, is taken at most once and not before its time; and an engine that
waits for a timeout does so with that timeout on the way to it.
-/

namespace SmartLedger

variable {C : Crypto} {B : AnchorBackend} {ord : IterOrder}

/-! ## What the timer service does in the process -/

theorem TimerService.Works.sent_append {s s' : TimerService} (h : s.Works s') :
    ∃ fresh, s'.sent = s.sent ++ fresh := by
  cases h with
  | fire => exact ⟨_, rfl⟩
  | look => exact ⟨[], (List.append_nil _).symm⟩
  | hangUp => exact ⟨[], (List.append_nil _).symm⟩
  | sleep => exact ⟨[], (List.append_nil _).symm⟩
  | sleepLong => exact ⟨[], (List.append_nil _).symm⟩
  | receive => exact ⟨[], (List.append_nil _).symm⟩
  | halt => exact ⟨[], (List.append_nil _).symm⟩
  | wake => exact ⟨[], (List.append_nil _).symm⟩
  | disconnect => exact ⟨[], (List.append_nil _).symm⟩

/-- A service that nobody stops and that has both its channels goes on. -/
structure TimerService.Served (s : TimerService) : Prop where
  dropped : s.dropped = false
  closed : s.closed = false
  commands : .stop ∉ s.commands
  phase : s.phase ≠ .returned

theorem TimerService.Served.work {s s' : TimerService} (h : s.Served) (hwork : s.Works s') :
    s'.Served := by
  cases hwork with
  | look => exact ⟨h.dropped, h.closed, h.commands, by simp⟩
  | fire => exact ⟨h.dropped, h.closed, h.commands, h.phase⟩
  | hangUp _ _ _ hclosed =>
      rw [h.closed] at hclosed
      cases hclosed
  | sleep => exact ⟨h.dropped, h.closed, h.commands, by simp⟩
  | sleepLong => exact ⟨h.dropped, h.closed, h.commands, by simp⟩
  | receive _ hcmd =>
      have hcommands := h.commands
      rw [hcmd] at hcommands
      exact ⟨h.dropped, h.closed, fun hmem => hcommands (List.mem_cons_of_mem _ hmem), by simp⟩
  | halt _ hcmd =>
      have hcommands := h.commands
      rw [hcmd] at hcommands
      exact absurd List.mem_cons_self hcommands
  | wake => exact ⟨h.dropped, h.closed, h.commands, by simp⟩
  | disconnect _ _ hdropped =>
      rw [h.dropped] at hdropped
      cases hdropped

section Runs

variable {guard : List (Output C) → Engine C → Event C → Prop} {n₀ : Node C}
  {anchor : Option (AnchorService B)} {now₀ : Nat} {H H' : History C} {p p' : Process C B}

/-- The timer service of a process runs as it does alone. -/
theorem ProcessStep.timerSteps (h : ProcessStep guard (H, p) (H', p')) :
    Relation.ReflTransGen TimerStep (H.armed.map Prod.snd, p.timers)
      (H'.armed.map Prod.snd, p'.timers) := by
  -- a loop that ends drops the handle and the channel
  have hleave : ∀ (asked : List Timer) (q : Process C B),
      Relation.ReflTransGen TimerStep (asked, q.timers) (asked, q.leave.timers) :=
    fun asked q => (Relation.ReflTransGen.single TimerStep.drop).tail TimerStep.close
  cases h with
  | tick d => exact Relation.ReflTransGen.single (TimerStep.tick d)
  | timer h => exact Relation.ReflTransGen.single (TimerStep.work h)
  | arrive => exact Relation.ReflTransGen.refl
  | start => exact Relation.ReflTransGen.refl
  | receive => exact Relation.ReflTransGen.refl
  | broadcast => exact Relation.ReflTransGen.refl
  | @schedule _ _ height round kind todo delay =>
      rw [List.map_append]
      exact Relation.ReflTransGen.single (TimerStep.schedule height round kind delay)
  | committed => exact Relation.ReflTransGen.refl
  | @shutdown _ _ rest =>
      have hstop : TimerStep (H.armed.map Prod.snd, p.timers) (H.armed.map Prod.snd, p.timers.stop) :=
        TimerStep.stop
      exact (Relation.ReflTransGen.single hstop).trans
        (hleave _ { p with inbox := rest, timers := p.timers.stop })
  | panicStart => exact hleave _ p
  | panicReceive => exact hleave _ p
  | panicSchedule => exact hleave _ p

/-- The timer service of a process runs as one of its own. -/
theorem ProcessRun.timerRun (h : ProcessRun guard n₀ anchor now₀ (H, p)) :
    TimerRun now₀ (H.armed.map Prod.snd, p.timers) := by
  have hall : ∀ s, ProcessRun guard n₀ anchor now₀ s →
      TimerRun now₀ (s.1.armed.map Prod.snd, s.2.timers) := by
    intro s hs
    induction hs with
    | refl => exact Relation.ReflTransGen.refl
    | tail _ hstep ih => exact ih.trans hstep.timerSteps
  exact hall _ h

/-- What the loop asked of the timer service, and what it got back. A loop
that is up has passed on every timeout of its engine, except those among the
effects it has still to carry out. -/
structure Process.Timed (base : Nat) (H : History C) (p : Process C B) : Prop where
  baseTimeout : p.node.baseTimeout = base
  delays : ∀ a ∈ H.armed, ∃ delay, Node.timeoutFor base a.2.round = .ok delay ∧
    a.2.deadline = a.1 + delay
  created : p.phase = .created → H.log = [] ∧ H.armed = []
  busy : ∀ todo, p.phase = .busy todo → H.armed.map (·.2.key) ++ timeoutsScheduled (effects todo) =
    timeoutsScheduled H.log
  served : p.phase ≠ .gone → p.timers.Served
  asked : H.armed.map (·.2.key) <+: timeoutsScheduled H.log
  taken : ∃ fired waiting, p.timers.sent = fired ++ waiting ∧
    List.Forall₂ (fun q s => q.2 = s.2.key ∧ s.1 ≤ q.1) H.taken fired ∧
    p.inbox.filterMap Incoming.timeout? = waiting.map (·.2.key)

namespace Process.Timed

variable {base : Nat}

theorem create (now : Nat) : Timed n₀.baseTimeout History.empty (Process.create n₀ anchor now) where
  baseTimeout := rfl
  delays := by simp [History.empty]
  created _ := ⟨rfl, rfl⟩
  busy todo h := by simp [Process.create] at h
  served _ := ⟨rfl, rfl, by simp [Process.create, TimerService.start], by
    simp [Process.create, TimerService.start]⟩
  asked := ⟨[], rfl⟩
  taken := ⟨[], [], rfl, List.Forall₂.nil, rfl⟩

/-- The loop ends. -/
theorem leave (h : Timed base H p) {q : Process C B} (hbase : q.node.baseTimeout = base)
    (hsent : q.timers.sent = p.timers.sent)
    (hinbox : q.inbox.filterMap Incoming.timeout? = p.inbox.filterMap Incoming.timeout?) :
    Timed base H q.leave where
  baseTimeout := hbase
  delays := h.delays
  created hphase := by simp [Process.leave] at hphase
  busy todo hphase := by simp [Process.leave] at hphase
  served hphase := absurd rfl hphase
  asked := h.asked
  taken := by
    rcases h.taken with ⟨fired, waiting, hfired, htaken, hwaiting⟩
    exact ⟨fired, waiting, hsent.trans hfired, htaken, hinbox.trans hwaiting⟩

/-- The loop takes an event from the channel. -/
theorem take (h : Timed base H p) (hlate : ∀ q ∈ p.timers.sent, q.1 ≤ p.timers.now)
    {ev : NodeEvent C} {rest : List (Incoming C)} (hinbox : p.inbox = .event ev :: rest) :
    ∃ fired waiting, p.timers.sent = fired ++ waiting ∧
      List.Forall₂ (fun q s => q.2 = s.2.key ∧ s.1 ≤ q.1)
        (H.taken ++ (ev.timeout?.map fun key => (p.timers.now, key)).toList) fired ∧
      rest.filterMap Incoming.timeout? = waiting.map (·.2.key) := by
  rcases h.taken with ⟨fired, waiting, hfired, htaken, hwaiting⟩
  rw [hinbox, List.filterMap_cons] at hwaiting
  -- only a timeout comes off the timers that wait in the channel
  cases htimeout : ev.timeout? with
  | none =>
      simp only [Incoming.timeout?, htimeout] at hwaiting
      refine ⟨fired, waiting, hfired, ?_, hwaiting⟩
      simpa using htaken
  | some key =>
      simp only [Incoming.timeout?, htimeout] at hwaiting
      cases waiting with
      | nil => simp at hwaiting
      | cons q waiting =>
          rcases List.cons_eq_cons.mp hwaiting with ⟨hkey, hrest⟩
          refine ⟨fired ++ [q], waiting, ?_, ?_, hrest⟩
          · rw [hfired, List.append_assoc]
            rfl
          · refine List.rel_append htaken ?_
            have hmem : q ∈ p.timers.sent := by
              rw [hfired]
              exact List.mem_append_right _ List.mem_cons_self
            exact List.Forall₂.cons ⟨hkey, hlate q hmem⟩ List.Forall₂.nil

/-- One step of the process, by its cases. -/
theorem step (h : Timed base H p) (hlate : ∀ q ∈ p.timers.sent, q.1 ≤ p.timers.now)
    (hstep : ProcessStep guard (H, p) (H', p')) : Timed base H' p' := by
  rcases h.taken with ⟨fired, waiting, hfired, htaken, hwaiting⟩
  cases hstep with
  | tick d =>
      refine ⟨h.baseTimeout, h.delays, h.created, h.busy, fun hup => ?_, h.asked, h.taken⟩
      rcases h.served hup with ⟨hdropped, hclosed, hcommands, hphase⟩
      exact ⟨hdropped, hclosed, hcommands, hphase⟩
  | @timer _ _ timers hwork =>
      rcases hwork.sent_append with ⟨fresh, hfresh⟩
      refine ⟨h.baseTimeout, h.delays, h.created, h.busy, fun hup => (h.served hup).work hwork,
        h.asked, fired, waiting ++ fresh, ?_, htaken, ?_⟩
      · rw [hfresh, hfired, List.append_assoc]
      -- what the timers send now is what arrives in the channel
      · have hput : (p.timers.firedBy timers : List (Incoming C)).filterMap Incoming.timeout? =
            fresh.map (·.2.key) := by
          unfold TimerService.firedBy
          rw [hfresh, List.drop_left, List.filterMap_map]
          exact List.filterMap_eq_map.symm ▸ rfl
        rw [List.filterMap_append, hwaiting, hput, List.map_append]
  | arrive x hx hup =>
      refine ⟨h.baseTimeout, h.delays, h.created, h.busy, h.served, h.asked, fired, waiting,
        hfired, htaken, ?_⟩
      rw [List.filterMap_append, hwaiting]
      simp [hx]
  | @start _ _ ord now engine out hphase hstart =>
      rcases h.created hphase with ⟨hlog, harmed⟩
      refine ⟨h.baseTimeout, h.delays, by simp, ?_, fun _ => h.served (by simp [hphase]), ?_,
        h.taken⟩
      · intro todo htodo
        obtain rfl := LoopPhase.busy.inj htodo
        rw [hlog, harmed]
        rfl
      · rw [harmed]
        exact List.nil_prefix
  | @receive _ _ ord now ev rest node out sent hphase hinbox hguard hdispatch =>
      have hboots : Node.Boots anyDrive H.log
          { p.node with engine := p.node.engine.setTime now } node ev out :=
        Node.dispatch_boots (fun _ _ _ => trivial) hdispatch
      have hbusy := h.busy [] hphase
      -- nothing of the last pass is left to do
      have hasked : H.armed.map (·.2.key) = timeoutsScheduled H.log := by
        rw [← hbusy]
        exact (List.append_nil _).symm
      have hlog : timeoutsScheduled (H.log ++ Node.outputs p.node node ev out) =
          timeoutsScheduled H.log ++ timeoutsScheduled (effects out) := by
        rw [Node.timeoutsScheduled_append]
        exact congrArg _ hboots.timeouts
      refine ⟨hboots.baseTimeout.trans h.baseTimeout, h.delays, by simp, ?_,
        fun _ => h.served (by simp [hphase]), ?_, ?_⟩
      · intro todo htodo
        obtain rfl := LoopPhase.busy.inj htodo
        rw [hlog]
        exact congrArg (· ++ _) hasked
      · rw [hlog]
        exact ⟨_, congrArg (· ++ _) hasked⟩
      · exact h.take hlate hinbox
  | @broadcast _ _ msg todo hphase =>
      refine ⟨h.baseTimeout, h.delays, by simp, ?_, fun _ => h.served (by simp [hphase]), h.asked,
        h.taken⟩
      intro todo' htodo
      obtain rfl := LoopPhase.busy.inj htodo
      have hbusy := h.busy _ hphase
      exact hbusy
  | @schedule _ _ height round kind todo delay hphase hdelay =>
      have hbusy := h.busy _ hphase
      have hall : (H.armed ++ [(p.timers.now, p.timers.timer height round kind delay)]).map
          (·.2.key) ++ timeoutsScheduled (effects todo) = timeoutsScheduled H.log := by
        rw [← hbusy, List.map_append, List.append_assoc]
        rfl
      refine ⟨h.baseTimeout, ?_, by simp, ?_, fun _ => ?_, ⟨_, hall⟩, h.taken⟩
      · intro a ha
        rcases List.mem_append.mp ha with hold | hnew
        · exact h.delays a hold
        · obtain rfl := List.mem_singleton.mp hnew
          rw [h.baseTimeout] at hdelay
          exact ⟨delay, hdelay, rfl⟩
      · intro todo' htodo
        obtain rfl := LoopPhase.busy.inj htodo
        exact hall
      · rcases h.served (by simp [hphase]) with ⟨hdropped, hclosed, hcommands, hrun⟩
        refine ⟨hdropped, hclosed, ?_, hrun⟩
        simpa [TimerService.schedule] using hcommands
  | @committed _ _ b todo hphase =>
      refine ⟨h.baseTimeout, h.delays, by simp, ?_, fun _ => h.served (by simp [hphase]), h.asked,
        h.taken⟩
      intro todo' htodo
      obtain rfl := LoopPhase.busy.inj htodo
      have hbusy := h.busy _ hphase
      exact hbusy
  | @shutdown _ _ rest hphase hinbox =>
      refine h.leave h.baseTimeout rfl ?_
      rw [hinbox]
      rfl
  | panicStart hphase => exact h.leave h.baseTimeout rfl rfl
  | @panicReceive _ _ ord now ev rest applied engine err hphase hinbox hdispatch =>
      exact ⟨h.baseTimeout, h.delays, by simp [Process.leave], by simp [Process.leave],
        fun hup => absurd rfl hup, h.asked, h.take hlate hinbox⟩
  | panicSchedule hphase => exact h.leave h.baseTimeout rfl rfl

end Process.Timed

/-- Along a run. -/
theorem ProcessRun.timed (h : ProcessRun guard n₀ anchor now₀ (H, p)) :
    p.Timed n₀.baseTimeout H := by
  have hall : ∀ s, ProcessRun guard n₀ anchor now₀ s → s.2.Timed n₀.baseTimeout s.1 := by
    intro s hs
    induction hs with
    | refl => exact Process.Timed.create now₀
    | tail hprev hstep ih =>
        have hlate := (TimersKept.run (ProcessRun.timerRun hprev)).late
        exact ih.step (fun q hq => (hlate q hq).2) hstep
  exact hall _ h

/-- No timeout is asked for twice in one boot. -/
theorem ProcessRun.timeouts_nodup (htime : ∀ log e now, guard log e (.setTime now))
    (h : ProcessRun guard n₀ anchor now₀ (H, p)) : (timeoutsScheduled H.log).Nodup := by
  rcases h.booted htime with ⟨_, hlog, _⟩ | ⟨_, hrun⟩
  · rw [hlog]
    exact List.nodup_nil
  · exact (Marked.passes hrun.passes).timeouts_nodup

/-! ## Timeouts taken -/

theorem mem_timeoutsScheduled {log : List (Output C)} {h r : UInt64} {kind : TimeoutKind} :
    (h, r, kind) ∈ timeoutsScheduled log ↔ Scheduled log h r kind := by
  unfold timeoutsScheduled Scheduled
  rw [List.mem_filterMap]
  constructor
  · rintro ⟨x, hx, hkey⟩
    split at hkey
    · obtain ⟨rfl, rfl, rfl⟩ : _ ∧ _ ∧ _ := by simpa using hkey
      exact hx
    · cases hkey
  · intro hmem
    exact ⟨_, hmem, rfl⟩

theorem TimersKept.sent_mem {asked : List Timer} {s : TimerService} (h : TimersKept asked s)
    {q : Nat × Timer} (hq : q ∈ s.sent) : q.2 ∈ asked := by
  rcases h.kept with ⟨lost, hkept, _⟩
  have hmem : q.2 ∈ (asked : Multiset Timer) := by
    rw [hkept, Multiset.mem_add, Multiset.mem_add, Multiset.mem_add]
    exact Or.inl (Or.inl (Or.inl (Multiset.mem_coe.mpr (List.mem_map_of_mem hq))))
  exact Multiset.mem_coe.mp hmem

/-- What the service fired, the engine had asked for. -/
theorem Process.Timed.scheduled {base : Nat} (h : p.Timed base H)
    (hkept : TimersKept (H.armed.map Prod.snd) p.timers) {q : Nat × Timer}
    (hq : q ∈ p.timers.sent) : Scheduled H.log q.2.height q.2.round q.2.kind := by
  rcases List.mem_map.mp (hkept.sent_mem hq) with ⟨a, ha, hsame⟩
  apply mem_timeoutsScheduled.mp
  apply h.asked.subset
  rw [← hsame]
  exact List.mem_map_of_mem ha

/-- The engine is beyond the place of every timeout that it handled. -/
def Process.Beyond (H : History C) (p : Process C B) : Prop :=
  ∀ q ∈ H.taken, p.node.engine.After q.2.1 q.2.2.1 q.2.2.2.closes

namespace Process.Beyond

variable {base : Nat} {e₀ : Engine C}

/-- The place of a timeout in the channel has been reached. -/
theorem reached (hbooted : p.Booted guard e₀ H) (htimed : p.Timed base H)
    (hkept : TimersKept (H.armed.map Prod.snd) p.timers) (hphase : p.phase = .busy [])
    {height round : UInt64} {kind : TimeoutKind} {rest : List (Incoming C)}
    (hinbox : p.inbox = .event (.timeout height round kind) :: rest) :
    p.node.engine.After height round kind.opens := by
  rcases htimed.taken with ⟨fired, waiting, hsent, _, hwaiting⟩
  rw [hinbox] at hwaiting
  cases waiting with
  | nil => simp [Incoming.timeout?, NodeEvent.timeout?] at hwaiting
  | cons q waiting =>
      have hkey : (height, round, kind) = q.2.key := (List.cons_eq_cons.mp hwaiting).1
      have hmem : q ∈ p.timers.sent := by
        rw [hsent]
        exact List.mem_append_right _ List.mem_cons_self
      obtain ⟨rfl, rfl, rfl⟩ : height = q.2.height ∧ round = q.2.round ∧ kind = q.2.kind := by
        simpa [Timer.key] using hkey
      exact (hbooted.run hphase).passes.scheduled_after (htimed.scheduled hkept hmem)

theorem step (h : p.phase ≠ .gone → Beyond H p) (hbooted : p.Booted guard e₀ H)
    (htimed : p.Timed base H) (hkept : TimersKept (H.armed.map Prod.snd) p.timers)
    (hstep : ProcessStep guard (H, p) (H', p')) (hup : p'.phase ≠ .gone) : Beyond H' p' := by
  cases hstep with
  | tick => exact h hup
  | timer => exact h hup
  | arrive => exact h hup
  | start hphase =>
      -- nothing was taken before the loop started
      rcases htimed.taken with ⟨fired, waiting, hsent, htaken, _⟩
      have hnone : p.timers.sent = [] := by
        rw [List.eq_nil_iff_forall_not_mem]
        intro q hq
        have hasked := hkept.sent_mem hq
        rw [(htimed.created hphase).2] at hasked
        cases hasked
      rw [hnone] at hsent
      obtain rfl : fired = [] := (List.append_eq_nil_iff.mp hsent.symm).1
      intro q hq
      rw [List.forall₂_nil_right_iff.mp htaken] at hq
      cases hq
  | @receive _ _ ord now ev rest node out sent hphase hinbox hguard hdispatch =>
      have hboots := Node.dispatch_boots (fun ev' hfeeds _ => hguard ev' hfeeds) hdispatch
      intro q hq
      rcases List.mem_append.mp hq with hold | hnew
      · have hafter := h (by simp [hphase]) q hold
        have hset : (p.node.engine.setTime now).After q.2.1 q.2.2.1 q.2.2.2.closes := hafter
        exact hboots.steps.after hset
      · cases ev with
        | timeout height round kind =>
            obtain rfl : q = (p.timers.now, height, round, kind) := by
              simpa [NodeEvent.timeout?] using hnew
            have hopens := reached hbooted htimed hkept hphase hinbox
            have hset : (p.node.engine.setTime now).After height round kind.opens := hopens
            simp only [Node.dispatch, Exec.bind_eq_ok] at hdispatch
            rcases hdispatch with ⟨⟨engine, o⟩, htimeout, hdispatch⟩
            rcases Exec.ok_triple hdispatch with ⟨rfl, rfl, rfl⟩
            have hhandle : (p.node.engine.setTime now).handle ord (.timeout height round kind) =
                .ok (engine, effects out) := by
              simp only [Engine.handle, htimeout]
              rfl
            exact timeout_closes hset hhandle
        | wire msg => simp [NodeEvent.timeout?] at hnew
        | submit att => simp [NodeEvent.timeout?] at hnew
        | submitGovernance change => simp [NodeEvent.timeout?] at hnew
        | addPeer addr => simp [NodeEvent.timeout?] at hnew
        | regossip => simp [NodeEvent.timeout?] at hnew
        | syncPoll => simp [NodeEvent.timeout?] at hnew
  | broadcast hphase => exact h (by simp [hphase])
  | schedule hphase => exact h (by simp [hphase])
  | committed hphase => exact h (by simp [hphase])
  | shutdown => exact absurd rfl hup
  | panicStart => exact absurd rfl hup
  | panicReceive => exact absurd rfl hup
  | panicSchedule => exact absurd rfl hup

end Process.Beyond

theorem ProcessRun.beyond (htime : ∀ log e now, guard log e (.setTime now))
    (h : ProcessRun guard n₀ anchor now₀ (H, p)) (hup : p.phase ≠ .gone) : p.Beyond H := by
  have hall : ∀ s, ProcessRun guard n₀ anchor now₀ s → s.2.phase ≠ .gone → s.2.Beyond s.1 := by
    intro s hs
    induction hs with
    | refl =>
        intro _ q hq
        cases hq
    | tail hprev hstep ih =>
        exact Process.Beyond.step ih (ProcessRun.booted htime hprev) (ProcessRun.timed hprev)
          (TimersKept.run (ProcessRun.timerRun hprev)) hstep
  exact hall _ h hup

/-! ## On the way -/

/-- The timeout will come: the loop is about to ask for it, or the timer
service has still to receive or to fire it, or it waits on the channel. -/
def Process.OnTheWay (p : Process C B) (key : TimeoutKey) : Prop :=
  key ∈ timeoutsScheduled (effects p.phase.todo) ∨
  key ∈ (TimerService.pending p.timers.commands).map Timer.key ∨
  key ∈ p.timers.heap.map Timer.key ∨
  key ∈ p.inbox.filterMap Incoming.timeout?

/-- What was fired and is off the channel was taken. -/
theorem Process.taken_eq {taken : List (Nat × TimeoutKey)} {fired : List (Nat × Timer)}
    (h : List.Forall₂ (fun q s => q.2 = s.2.key ∧ s.1 ≤ q.1) taken fired) :
    taken.map Prod.snd = fired.map (·.2.key) ∧
    ∀ q ∈ taken, ∃ s ∈ fired, q.2 = s.2.key ∧ s.1 ≤ q.1 := by
  induction h with
  | nil => exact ⟨rfl, by simp⟩
  | @cons q s taken fired hpair _ ih =>
      refine ⟨?_, ?_⟩
      · rw [List.map_cons, List.map_cons, hpair.1, ih.1]
      · intro q' hq'
        rcases List.mem_cons.mp hq' with rfl | hrest
        · exact ⟨s, List.mem_cons_self, hpair⟩
        · rcases ih.2 q' hrest with ⟨s', hs', hpair'⟩
          exact ⟨s', List.mem_cons_of_mem _ hs', hpair'⟩

/-- What the engine asked for and has not got is on the way. -/
theorem Process.Timed.onTheWay {base : Nat} (h : p.Timed base H)
    (hkept : TimersKept (H.armed.map Prod.snd) p.timers) {todo : List (Effect C)}
    (hphase : p.phase = .busy todo) {height round : UInt64} {kind : TimeoutKind}
    (hs : Scheduled H.log height round kind)
    (hnot : (height, round, kind) ∉ H.taken.map Prod.snd) :
    p.OnTheWay (height, round, kind) := by
  have hmem := mem_timeoutsScheduled.mpr hs
  rw [← h.busy todo hphase] at hmem
  rcases List.mem_append.mp hmem with harmed | htodo
  · rcases List.mem_map.mp harmed with ⟨a, ha, hkey⟩
    rcases hkept.kept with ⟨lost, hsplit, hlost⟩
    have hasked : a.2 ∈ ((H.armed.map Prod.snd : List Timer) : Multiset Timer) :=
      Multiset.mem_coe.mpr (List.mem_map_of_mem ha)
    rw [hsplit, hlost (h.served (by simp [hphase])).phase, Multiset.add_zero, Multiset.mem_add,
      Multiset.mem_add] at hasked
    -- fired, in the heap, or a command that is not read yet
    rcases hasked with (hsent | hheap) | hpending
    · rcases List.mem_map.mp (Multiset.mem_coe.mp hsent) with ⟨q, hq, hsame⟩
      rcases h.taken with ⟨fired, waiting, hfired, htaken, hwaiting⟩
      rw [hfired] at hq
      rcases List.mem_append.mp hq with hold | hwait
      · exfalso
        apply hnot
        rw [(Process.taken_eq htaken).1, ← hkey, ← hsame]
        exact List.mem_map_of_mem hold
      · right; right; right
        rw [hwaiting, ← hkey, ← hsame]
        exact List.mem_map_of_mem hwait
    · right; right; left
      rw [← hkey]
      exact Multiset.mem_map_of_mem _ hheap
    · right; left
      rw [← hkey]
      exact List.mem_map_of_mem (Multiset.mem_coe.mp hpending)
  · left
    rw [hphase]
    exact htodo

end Runs

/-- The engine of a new node is fresh. -/
theorem FreshAt.of_node {genesis : List C.VerifyingKey} {meSk : C.SigningKey}
    {mePk : C.VerifyingKey} {store : List (Block C)} {baseTimeout : Nat} {n₀ : Node C}
    (hnew : Node.new genesis meSk mePk store baseTimeout = .ok n₀) : FreshAt n₀.engine := by
  have hbuild := (Node.new_eq_ok hnew).1
  unfold rebuild at hbuild
  dsimp only at hbuild
  rw [Exec.bind_eq_ok] at hbuild
  rcases hbuild with ⟨height, _, hengine⟩
  exact FreshAt.of_new hengine

theorem Node.new_baseTimeout {genesis : List C.VerifyingKey} {meSk : C.SigningKey}
    {mePk : C.VerifyingKey} {store : List (Block C)} {baseTimeout : Nat} {n₀ : Node C}
    (hnew : Node.new genesis meSk mePk store baseTimeout = .ok n₀) :
    n₀.baseTimeout = baseTimeout := by
  unfold Node.new at hnew
  rw [Exec.bind_eq_ok] at hnew
  rcases hnew with ⟨engine, _, hnew⟩
  obtain rfl := Except.ok.inj hnew
  rfl

/-- However the threads of a node move, while nobody else uses its key: no
timeout is taken twice, and what is taken was asked for by the engine, at
least the round's delay before. An awake engine that stands where only a
timeout helps has that timeout on the way. And once the timer service has
nothing to do, what is due was taken or waits on the channel, while the loop
is up. -/
theorem wake_up_on_the_way {genesis : List C.VerifyingKey} {meSk : C.SigningKey}
    {mePk : C.VerifyingKey} {store : List (Block C)} {baseTimeout : Nat} {n₀ : Node C}
    (hnew : Node.new genesis meSk mePk store baseTimeout = .ok n₀)
    {anchor : Option (AnchorService B)} {now₀ : Nat} {H : History C} {p : Process C B}
    (h : ProcessRun ownKey n₀ anchor now₀ (H, p)) :
    (H.taken.map Prod.snd).Nodup ∧
    (∀ q ∈ H.taken, Scheduled H.log q.2.1 q.2.2.1 q.2.2.2 ∧
      ∃ a ∈ H.armed, a.2.key = q.2 ∧
        ∃ delay, Node.timeoutFor baseTimeout q.2.2.1 = .ok delay ∧ a.1 + delay ≤ q.1) ∧
    (∀ todo, p.phase = .busy todo → p.node.engine.parked = false →
      (p.node.engine.step = .propose →
        p.OnTheWay (p.node.engine.height, p.node.engine.round, .propose)) ∧
      (p.node.engine.step = .prevote →
        p.node.engine.quorum ≤ p.node.engine.countPrevotes p.node.engine.round .any →
        p.OnTheWay (p.node.engine.height, p.node.engine.round, .prevote)) ∧
      (p.node.engine.quorum ≤ p.node.engine.countPrecommits p.node.engine.round .any →
        p.OnTheWay (p.node.engine.height, p.node.engine.round, .precommit))) ∧
    (p.phase ≠ .gone → p.timers.Blocked → ∀ a ∈ H.armed, a.2.deadline ≤ p.timers.now →
      a.2.key ∈ H.taken.map Prod.snd ∨ a.2.key ∈ p.inbox.filterMap Incoming.timeout?) := by
  have htime : ∀ (log : List (Output C)) (e : Engine C) now, ownKey log e (.setTime now) := by
    intro log e now pm hpm
    cases hpm
  have htimed := h.timed
  rw [Node.new_baseTimeout hnew] at htimed
  have hkept := TimersKept.run h.timerRun
  have hnodup := h.timeouts_nodup htime
  rcases htimed.taken with ⟨fired, waiting, hsent, htaken, hwaiting⟩
  rcases Process.taken_eq htaken with ⟨hkeys, hlate⟩
  -- everything fired was asked for, once
  have hsentNodup : (p.timers.sent.map (·.2.key)).Nodup := by
    rcases hkept.kept with ⟨lost, hsplit, _⟩
    have harmed : (H.armed.map (·.2.key)).Nodup := hnodup.sublist htimed.asked.sublist
    have hle : ((p.timers.sent.map Prod.snd : List Timer) : Multiset Timer) ≤
        (H.armed.map Prod.snd : List Timer) := by
      rw [hsplit, add_assoc, add_assoc]
      exact Multiset.le_add_right _ _
    have hmap := Multiset.map_le_map (f := Timer.key) hle
    rw [Multiset.map_coe, Multiset.map_coe, List.map_map, List.map_map] at hmap
    exact Multiset.coe_nodup.mp (Multiset.nodup_of_le hmap (Multiset.coe_nodup.mpr harmed))
  rw [hsent, List.map_append] at hsentNodup
  refine ⟨?_, ?_, ?_, ?_⟩
  · rw [hkeys]
    exact (List.nodup_append.mp hsentNodup).1
  · intro q hq
    rcases hlate q hq with ⟨s, hs, hkey, hle⟩
    have hmem : s ∈ p.timers.sent := by
      rw [hsent]
      exact List.mem_append_left _ hs
    have hscheduled := htimed.scheduled hkept hmem
    rcases List.mem_map.mp (hkept.sent_mem hmem) with ⟨a, ha, hsame⟩
    rcases htimed.delays a ha with ⟨delay, hdelay, hdeadline⟩
    rw [hkey]
    refine ⟨hscheduled, a, ha, by rw [hsame], delay, ?_, ?_⟩
    · rw [hsame] at hdelay
      exact hdelay
    · have hdue := (hkept.late s hmem).1
      rw [← hsame] at hdue
      omega
  · intro todo hphase hparked
    have hrun := (h.booted htime).run hphase
    rcases hrun.waits (FreshAt.of_node hnew) with ⟨hwaits, hrest⟩
    have hbeyond := h.beyond htime (by simp [hphase])
    have hcomes : ∀ kind : TimeoutKind,
        Scheduled H.log p.node.engine.height p.node.engine.round kind →
        ¬ p.node.engine.After p.node.engine.height p.node.engine.round kind.closes →
        p.OnTheWay (p.node.engine.height, p.node.engine.round, kind) := by
      intro kind hscheduled hnot
      apply htimed.onTheWay hkept hphase hscheduled
      intro hmem
      rcases List.mem_map.mp hmem with ⟨q, hq, hkey⟩
      have hafter := hbeyond q hq
      rw [hkey] at hafter
      exact hnot hafter
    have hhere : ∀ {stage : Nat}, p.node.engine.step.stage < stage →
        ¬ p.node.engine.After p.node.engine.height p.node.engine.round stage := by
      rintro stage hlt (hbad | ⟨_, hbad | ⟨_, hle⟩⟩)
      · exact UInt64.lt_irrefl _ hbad
      · exact UInt64.lt_irrefl _ hbad
      · omega
    refine ⟨?_, ?_, ?_⟩
    · intro hstep
      apply hcomes _ (hwaits.armed.scheduled hrest hparked hstep)
      apply hhere
      rw [hstep]
      exact Nat.zero_lt_one
    · intro hstep hquorum
      apply hcomes _ (hwaits.inv.prevoteTimers _ (hrest.prevoteTimeout hstep hquorum))
      apply hhere
      rw [hstep]
      exact Nat.lt_succ_self 1
    · intro hquorum
      apply hcomes _ (hwaits.inv.precommitTimers _ (hrest.precommitTimeout hquorum))
      apply hhere
      cases p.node.engine.step with
      | propose => exact Nat.zero_lt_succ 2
      | prevote => exact Nat.one_lt_succ_succ 1
      | precommit => exact Nat.lt_succ_self 2
  · intro hup hblocked a ha hdue
    rcases hblocked.waiting (htimed.served hup).phase with ⟨hnone, w, hwait, hlater⟩
    rcases hkept.kept with ⟨lost, hsplit, hlost⟩
    have hasked : a.2 ∈ ((H.armed.map Prod.snd : List Timer) : Multiset Timer) :=
      Multiset.mem_coe.mpr (List.mem_map_of_mem ha)
    rw [hsplit, hlost (htimed.served hup).phase, hnone, Multiset.add_zero, Multiset.mem_add,
      Multiset.mem_add] at hasked
    rcases hasked with (hsentMem | hheap) | hpending
    · rcases List.mem_map.mp (Multiset.mem_coe.mp hsentMem) with ⟨s, hs, hsame⟩
      rw [hsent] at hs
      rcases List.mem_append.mp hs with hold | hnew
      · left
        rw [hkeys, ← hsame]
        exact List.mem_map_of_mem hold
      · right
        rw [hwaiting, ← hsame]
        exact List.mem_map_of_mem hnew
    · have hawake := hkept.awake w hwait a.2 hheap
      omega
    · simp [TimerService.pending] at hpending

/-- One of four validators, not the proposer, starts and takes a submission. -/
def sampleWoken : Exec (Node sample × Engine sample × List (Effect sample) ×
    Node sample × List (Effect sample) × List (Action sample)) := do
  let n₀ ← Node.new (C := sample) [1, 2, 3, 4] (1 : UInt8) 1 [] 1000
  let (e, out) ← (n₀.engine.setTime 5).start sampleOrder
  let (n, out', sent) ← Node.dispatch sampleOrder { n₀ with engine := e.setTime 5 }
    (.submit (sampleAttestation 1 7))
  return (n₀, e, out, n, out', sent)

/-- The process that took it. -/
theorem process_of_sampleWoken {n₀ n : Node sample} {e : Engine sample}
    {out' : List (Effect sample)} {sent : List (Action sample)}
    (h : sampleWoken = .ok (n₀, e, [], n, out', sent)) :
    Node.new (C := sample) [1, 2, 3, 4] (1 : UInt8) 1 [] 1000 = .ok n₀ ∧
    ∃ H p, ProcessRun (B := mockAnchor) ownKey n₀ none 0 (H, p) ∧ p.phase = .busy out' ∧
      p.node = n := by
  unfold sampleWoken at h
  simp only [Exec.bind_eq_ok] at h
  rcases h with ⟨n₀', hnew, ⟨e', o⟩, hstart, ⟨n', o', s'⟩, hdispatch, h⟩
  obtain ⟨rfl, rfl, rfl, rfl, rfl, rfl⟩ : n₀' = n₀ ∧ e' = e ∧ o = [] ∧ n' = n ∧ o' = out' ∧ s' = sent := by
    simpa using Except.ok.inj h
  refine ⟨hnew, ?_⟩
  let x : Incoming sample := .event (.submit (sampleAttestation 1 7))
  let p₀ : Process sample mockAnchor := Process.create n₀' none 0
  let p₁ := { p₀ with node := { n₀' with engine := e' }, phase := .busy [] }
  let p₂ := { p₁ with inbox := [x] }
  let p₃ := { p₂ with node := n', phase := .busy o', inbox := [] }
  let H₁ : History sample := { History.empty with log := [] ++ effects [] }
  let H₃ : History sample := {
    log := H₁.log ++ Node.outputs p₂.node n' (.submit (sampleAttestation 1 7)) o'
    sent := [] ++ s'
    armed := []
    taken := [] }
  -- it starts, the submission arrives, and the loop takes it
  have h₁ : ProcessStep ownKey (History.empty, p₀) (H₁, p₁) := ProcessStep.start rfl hstart
  have h₂ : ProcessStep ownKey (H₁, p₁) (H₁, p₂) := ProcessStep.arrive x rfl (by simp [p₁])
  have h₃ : ProcessStep ownKey (H₁, p₂) (H₃, p₃) := by
    refine ProcessStep.receive rfl rfl ?_ hdispatch
    intro ev' hfeeds pm hpm
    rw [hpm] at hfeeds
    cases hfeeds
  exact ⟨H₃, p₃, ((Relation.ReflTransGen.single h₁).tail h₂).tail h₃, rfl, rfl⟩

theorem wake_up_on_the_way_submit :
    ∃ n₀ H p, Node.new (C := sample) [1, 2, 3, 4] (1 : UInt8) 1 [] 1000 = .ok n₀ ∧
      ProcessRun (B := mockAnchor) ownKey n₀ none 0 (H, p) ∧ p.node.engine.parked = false ∧
      p.OnTheWay (p.node.engine.height, p.node.engine.round, .propose) := by
  have hholds : sampleWoken.holds (fun r => decide (r.2.2.1 = [] ∧
      r.2.2.2.1.engine.parked = false ∧ r.2.2.2.1.engine.step = .propose)) = true := by
    decide +kernel
  rcases Exec.holds_iff.mp hholds with ⟨⟨n₀, e, out, n, out', sent⟩, hwoken, hp⟩
  obtain ⟨rfl, hparked, hstep⟩ := of_decide_eq_true hp
  rcases process_of_sampleWoken hwoken with ⟨hnew, H, p, hrun, hphase, hnode⟩
  subst hnode
  exact ⟨n₀, H, p, hnew, hrun, hparked,
    ((wake_up_on_the_way hnew hrun).2.2.1 out' hphase hparked).1 hstep⟩

end SmartLedger
