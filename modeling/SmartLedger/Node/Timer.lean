import Mathlib.Data.Finset.Max
import Mathlib.Tactic.Abel
import SmartLedger.Consensus.Engine

/-! # The timer service

A thread of its own keeps the timers that the loop asked for. It takes them
from a command channel, sleeps until the nearest deadline or the next command,
and puts a timeout on the event channel for every timer that is due.

The heap is a multiset, of which `pop` takes out an element with the nearest
deadline; which one of several is left open. The clock and the other threads
may move between any two steps of the service (`TimerStep`).

`timers_fire`: whatever they do, a timer fires at most once and never before
its deadline, and the service comes to rest after a number of its own steps
that is bounded by what there is to do; then no timer that is due is left.
-/

namespace SmartLedger

/-- An entry of the heap; times are in nanoseconds. -/
structure Timer where
  deadline : Nat
  height : UInt64
  round : UInt64
  kind : TimeoutKind
deriving DecidableEq

/-- What the loop asks of the thread. -/
inductive TimerCmd where
  | schedule (t : Timer)
  | stop
deriving DecidableEq

/-- Where in its loop the thread is: before it reads the clock, in the loop
that fires what was due at `now`, in `recv_timeout` until `wake`, or gone. -/
inductive TimerPhase where
  | top
  | firing (now : Nat)
  | waiting (wake : Nat)
  | returned
deriving DecidableEq

/-- The service, with the clock and its two channels: the commands still to be
received (`dropped` when nobody is left to send any), and what was put on the
event channel, each with the clock of that moment (`closed` when nobody is
left to receive it). -/
structure TimerService where
  now : Nat
  commands : List TimerCmd
  dropped : Bool
  heap : Multiset Timer
  phase : TimerPhase
  sent : List (Nat × Timer)
  closed : Bool

namespace TimerService

/-- How long the thread sleeps with an empty heap. -/
def idleWait : Nat := 3600 * 1000000000

def start (now : Nat) : TimerService where
  now := now
  commands := []
  dropped := false
  heap := 0
  phase := .top
  sent := []
  closed := false

/-- What `schedule` makes of a delay: the deadline is set by the caller. -/
def timer (s : TimerService) (height round : UInt64) (kind : TimeoutKind) (delay : Nat) : Timer :=
  { deadline := s.now + delay, height, round, kind }

def schedule (s : TimerService) (height round : UInt64) (kind : TimeoutKind) (delay : Nat) :
    TimerService :=
  { s with commands := s.commands ++ [.schedule (s.timer height round kind delay)] }

def stop (s : TimerService) : TimerService := { s with commands := s.commands ++ [.stop] }

/-- What `peek` may return. -/
def Peeks (s : TimerService) (t : Timer) : Prop :=
  t ∈ s.heap ∧ ∀ u ∈ s.heap, t.deadline ≤ u.deadline

/-- A step of the thread. -/
inductive Works (s : TimerService) : TimerService → Prop where
  | look (hphase : s.phase = .top) : Works s { s with phase := .firing s.now }
  | fire {n : Nat} {t : Timer} (hphase : s.phase = .firing n) (hpeek : s.Peeks t)
      (hdue : t.deadline ≤ n) (hopen : s.closed = false) :
      Works s { s with heap := s.heap.erase t, sent := s.sent ++ [(s.now, t)] }
  | hangUp {n : Nat} {t : Timer} (hphase : s.phase = .firing n) (hpeek : s.Peeks t)
      (hdue : t.deadline ≤ n) (hclosed : s.closed = true) :
      Works s { s with heap := s.heap.erase t, phase := .returned }
  | sleep {n : Nat} {t : Timer} (hphase : s.phase = .firing n) (hpeek : s.Peeks t)
      (hlater : n < t.deadline) :
      Works s { s with phase := .waiting (s.now + (t.deadline - s.now)) }
  | sleepLong {n : Nat} (hphase : s.phase = .firing n) (hempty : s.heap = 0) :
      Works s { s with phase := .waiting (s.now + idleWait) }
  | receive {w : Nat} {t : Timer} {rest : List TimerCmd} (hphase : s.phase = .waiting w)
      (hcmd : s.commands = .schedule t :: rest) :
      Works s { s with commands := rest, heap := t ::ₘ s.heap, phase := .top }
  | halt {w : Nat} {rest : List TimerCmd} (hphase : s.phase = .waiting w)
      (hcmd : s.commands = .stop :: rest) :
      Works s { s with commands := rest, phase := .returned }
  | wake {w : Nat} (hphase : s.phase = .waiting w) (hnone : s.commands = []) (hdue : w ≤ s.now) :
      Works s { s with phase := .top }
  | disconnect {w : Nat} (hphase : s.phase = .waiting w) (hnone : s.commands = [])
      (hdropped : s.dropped = true) : Works s { s with phase := .returned }

/-- The timers among the commands. -/
def pending : List TimerCmd → List Timer
  | [] => []
  | .schedule t :: rest => t :: pending rest
  | .stop :: rest => pending rest

@[simp] theorem pending_append (a b : List TimerCmd) :
    pending (a ++ b) = pending a ++ pending b := by
  induction a with
  | nil => rfl
  | cons c rest ih =>
      cases c with
      | schedule t => simp [pending, ih]
      | stop => exact ih

end TimerService

open TimerService

/-- A step of the service and of what is around it; the list is what was
scheduled so far. -/
inductive TimerStep : List Timer × TimerService → List Timer × TimerService → Prop where
  | tick {asked : List Timer} {s : TimerService} (d : Nat) :
      TimerStep (asked, s) (asked, { s with now := s.now + d })
  | schedule {asked : List Timer} {s : TimerService} (height round : UInt64)
      (kind : TimeoutKind) (delay : Nat) :
      TimerStep (asked, s)
        (asked ++ [s.timer height round kind delay], s.schedule height round kind delay)
  | stop {asked : List Timer} {s : TimerService} : TimerStep (asked, s) (asked, s.stop)
  | drop {asked : List Timer} {s : TimerService} :
      TimerStep (asked, s) (asked, { s with dropped := true })
  | close {asked : List Timer} {s : TimerService} :
      TimerStep (asked, s) (asked, { s with closed := true })
  | work {asked : List Timer} {s s' : TimerService} (h : s.Works s') :
      TimerStep (asked, s) (asked, s')

/-- The runs of a service that started at `now`. -/
def TimerRun (now : Nat) : List Timer × TimerService → Prop :=
  Relation.ReflTransGen TimerStep ([], TimerService.start now)

/-- Every timer is somewhere: still a command, on the heap, or fired. None is
there twice that was not asked for twice. Only a thread that returned has lost
any. -/
structure TimersKept (asked : List Timer) (s : TimerService) : Prop where
  kept : ∃ lost : Multiset Timer, (asked : Multiset Timer) =
    (s.sent.map Prod.snd : List Timer) + s.heap + (pending s.commands : List Timer) + lost ∧
    (s.phase ≠ .returned → lost = 0)
  late : ∀ p ∈ s.sent, p.2.deadline ≤ p.1 ∧ p.1 ≤ s.now
  looked : ∀ n, s.phase = .firing n → n ≤ s.now
  awake : ∀ w, s.phase = .waiting w → ∀ u ∈ s.heap, w ≤ u.deadline ∨ w ≤ s.now

namespace TimersKept

variable {asked asked' : List Timer} {s s' : TimerService}

theorem start (now : Nat) : TimersKept [] (TimerService.start now) where
  kept := ⟨0, rfl, fun _ => rfl⟩
  late := by simp [TimerService.start]
  looked := by simp [TimerService.start]
  awake := by simp [TimerService.start]

theorem work (h : TimersKept asked s) (hwork : s.Works s') : TimersKept asked s' := by
  rcases h.kept with ⟨lost, hkept, hlost⟩
  cases hwork with
  | look hphase =>
      refine ⟨⟨lost, hkept, fun _ => hlost (by simp [hphase])⟩, h.late, ?_, by simp⟩
      intro n hn
      exact (TimerPhase.firing.inj hn) ▸ Nat.le_refl _
  | @fire n t hphase hpeek hdue hopen =>
      have hheap : t ::ₘ s.heap.erase t = s.heap := Multiset.cons_erase hpeek.1
      refine ⟨⟨lost, ?_, fun _ => hlost (by simp [hphase])⟩, ?_, h.looked, by simp [hphase]⟩
      -- the timer moves from the heap to the fired ones
      · rw [hkept, ← hheap, List.map_append, ← Multiset.coe_add, Multiset.erase_cons_head]
        simp only [List.map_cons, List.map_nil, Multiset.coe_singleton, ← Multiset.singleton_add]
        abel
      · intro p hp
        rcases List.mem_append.mp hp with hold | hnew
        · exact h.late p hold
        · obtain rfl := List.mem_singleton.mp hnew
          exact ⟨hdue.trans (h.looked n hphase), Nat.le_refl _⟩
  | @hangUp n t hphase hpeek =>
      have hheap : t ::ₘ s.heap.erase t = s.heap := Multiset.cons_erase hpeek.1
      -- nobody listens any more, and the timer is lost
      refine ⟨⟨{t} + lost, ?_, by simp⟩, h.late, by simp, by simp⟩
      rw [hkept, ← hheap, Multiset.erase_cons_head, ← Multiset.singleton_add]
      abel
  | @sleep n t hphase hpeek hlater =>
      refine ⟨⟨lost, hkept, fun _ => hlost (by simp [hphase])⟩, h.late, by simp, ?_⟩
      intro w hw u hu
      obtain rfl := TimerPhase.waiting.inj hw
      -- the one it sleeps for has the least deadline
      have hle := hpeek.2 u hu
      show s.now + (t.deadline - s.now) ≤ u.deadline ∨ s.now + (t.deadline - s.now) ≤ s.now
      omega
  | sleepLong hphase hempty =>
      refine ⟨⟨lost, hkept, fun _ => hlost (by simp [hphase])⟩, h.late, by simp, ?_⟩
      intro w _ u hu
      change u ∈ s.heap at hu
      rw [hempty] at hu
      exact absurd hu (Multiset.notMem_zero u)
  | @receive w t rest hphase hcmd =>
      refine ⟨⟨lost, ?_, fun _ => hlost (by simp [hphase])⟩, h.late, by simp, by simp⟩
      rw [hkept, hcmd, ← Multiset.singleton_add]
      -- the command moves its timer into the heap
      show _ = _ + ({t} + s.heap) + (pending rest : Multiset Timer) + lost
      rw [show (pending (.schedule t :: rest) : Multiset Timer) = {t} + (pending rest : List Timer)
        from rfl]
      abel
  | halt hphase hcmd =>
      rw [hcmd] at hkept
      exact ⟨⟨lost, hkept, by simp⟩, h.late, by simp, by simp⟩
  | wake hphase =>
      exact ⟨⟨lost, hkept, fun _ => hlost (by simp [hphase])⟩, h.late, by simp, by simp⟩
  | disconnect hphase =>
      exact ⟨⟨lost, hkept, by simp⟩, h.late, by simp, by simp⟩

theorem step (h : TimersKept asked s) (hstep : TimerStep (asked, s) (asked', s')) :
    TimersKept asked' s' := by
  rcases h.kept with ⟨lost, hkept, hlost⟩
  cases hstep with
  | tick d =>
      refine ⟨⟨lost, hkept, hlost⟩, ?_, ?_, ?_⟩
      · intro p hp
        exact ⟨(h.late p hp).1, Nat.le_add_right_of_le (h.late p hp).2⟩
      · intro n hn
        exact Nat.le_add_right_of_le (h.looked n hn)
      · intro w hw u hu
        exact (h.awake w hw u hu).imp id Nat.le_add_right_of_le
  | schedule height round kind delay =>
      refine ⟨⟨lost, ?_, hlost⟩, h.late, h.looked, h.awake⟩
      unfold TimerService.schedule
      rw [pending_append, ← Multiset.coe_add, ← Multiset.coe_add, hkept]
      show _ = _ + s.heap + (_ + ([s.timer height round kind delay] : Multiset Timer)) + lost
      abel
  | stop =>
      refine ⟨⟨lost, ?_, hlost⟩, h.late, h.looked, h.awake⟩
      rw [hkept]
      simp [TimerService.stop, pending]
  | drop => exact ⟨⟨lost, hkept, hlost⟩, h.late, h.looked, h.awake⟩
  | close => exact ⟨⟨lost, hkept, hlost⟩, h.late, h.looked, h.awake⟩
  | work hwork => exact h.work hwork

theorem run {now : Nat} (h : TimerRun now (asked, s)) : TimersKept asked s := by
  have hall : ∀ p, TimerRun now p → TimersKept p.1 p.2 := by
    intro p hp
    induction hp with
    | refl => exact start now
    | tail _ hstep ih => exact ih.step hstep
  exact hall _ h

end TimersKept

namespace TimerService

/-! ## Coming to rest -/

/-- Steps to go, by the phase: one that went to sleep late has to look
again. -/
def lag (s : TimerService) : Nat :=
  match s.phase with
  | .top => 3
  | .firing n => if n < s.now then 5 else 2
  | .waiting w => if w ≤ s.now then 4 else 1
  | .returned => 0

/-- How much the thread has to do. -/
def todo (s : TimerService) : Nat := 10 * s.commands.length + 5 * s.heap.card + s.lag

variable {s s' : TimerService}

theorem Works.todo_lt (h : s.Works s') : s'.todo < s.todo := by
  cases h with
  | look hphase => simp [todo, lag, hphase]
  | @fire n t hphase hpeek hdue hopen =>
      have hcard := Multiset.card_erase_lt_of_mem hpeek.1
      simp only [todo, lag, hphase]
      omega
  | @hangUp n t hphase hpeek =>
      have hcard := Multiset.card_erase_lt_of_mem hpeek.1
      simp only [todo, lag]
      omega
  | @sleep n t hphase hpeek hlater =>
      simp only [todo, lag, hphase]
      split
      · split
        · omega
        · omega
      · split
        · omega
        · omega
  | sleepLong hphase hempty =>
      -- it sleeps for a while, and so is not overdue
      have hlong : ¬ s.now + idleWait ≤ s.now := by
        unfold idleWait
        omega
      simp only [todo, lag, hphase, if_neg hlong]
      split
      · omega
      · omega
  | receive hphase hcmd =>
      simp only [todo, lag, hphase, hcmd, List.length_cons, Multiset.card_cons]
      omega
  | halt hphase hcmd =>
      simp only [todo, lag, hphase, hcmd, List.length_cons]
      omega
  | wake hphase hnone hdue =>
      simp [todo, lag, hphase, hdue]
  | disconnect hphase =>
      simp only [todo, lag, hphase]
      split
      · omega
      · omega

/-- So many steps of the thread, and nobody else moves. -/
inductive WorksFor : Nat → TimerService → TimerService → Prop where
  | zero (s : TimerService) : WorksFor 0 s s
  | succ {k : Nat} {s₁ s₂ s₃ : TimerService} (h : s₁.Works s₂) (rest : WorksFor k s₂ s₃) :
      WorksFor (k + 1) s₁ s₃

/-- Nothing the thread can do for now. -/
def Blocked (s : TimerService) : Prop := ∀ s', ¬ s.Works s'

theorem WorksFor.bound {k : Nat} (h : WorksFor k s s') : k + s'.todo ≤ s.todo := by
  induction h with
  | zero => omega
  | succ hstep _ ih =>
      have hlt := hstep.todo_lt
      omega

theorem WorksFor.now_eq {k : Nat} (h : WorksFor k s s') : s'.now = s.now := by
  induction h with
  | zero => rfl
  | succ hstep _ ih =>
      rw [ih]
      cases hstep <;> rfl

theorem exists_blocked (s : TimerService) : ∃ k s', WorksFor k s s' ∧ s'.Blocked := by
  induction hn : s.todo using Nat.strong_induction_on generalizing s with
  | _ n ih =>
      by_cases hblocked : s.Blocked
      · exact ⟨0, s, WorksFor.zero s, hblocked⟩
      · rcases not_forall.mp hblocked with ⟨s₁, hnot⟩
        have hstep := not_not.mp hnot
        rcases ih s₁.todo (hn ▸ hstep.todo_lt) s₁ rfl with ⟨k, s', hrest, hblocked'⟩
        exact ⟨k + 1, s', WorksFor.succ hstep hrest, hblocked'⟩

theorem WorksFor.inv {k : Nat} {asked : List Timer} (hinv : TimersKept asked s)
    (h : WorksFor k s s') : TimersKept asked s' := by
  induction h with
  | zero => exact hinv
  | succ hstep _ ih => exact ih (hinv.work hstep)

theorem exists_peek (h : s.heap ≠ 0) : ∃ t, s.Peeks t := by
  have hne : s.heap.toFinset.Nonempty := by
    rcases Multiset.exists_mem_of_ne_zero h with ⟨t, ht⟩
    exact ⟨t, Multiset.mem_toFinset.mpr ht⟩
  rcases Finset.exists_min_image s.heap.toFinset Timer.deadline hne with ⟨t, ht, hmin⟩
  refine ⟨t, Multiset.mem_toFinset.mp ht, fun u hu => hmin u (Multiset.mem_toFinset.mpr hu)⟩

/-- A thread that can do nothing waits for a command or for the clock. -/
theorem Blocked.waiting (h : s.Blocked) (halive : s.phase ≠ .returned) :
    s.commands = [] ∧ ∃ w, s.phase = .waiting w ∧ s.now < w := by
  cases hphase : s.phase with
  | returned => exact absurd hphase halive
  | top => exact absurd (Works.look hphase) (h _)
  | firing n =>
      -- something is always done with the first timer
      exfalso
      by_cases hempty : s.heap = 0
      · exact h _ (Works.sleepLong hphase hempty)
      · rcases exists_peek hempty with ⟨t, hpeek⟩
        by_cases hdue : t.deadline ≤ n
        · cases hclosed : s.closed with
          | false => exact h _ (Works.fire hphase hpeek hdue hclosed)
          | true => exact h _ (Works.hangUp hphase hpeek hdue hclosed)
        · exact h _ (Works.sleep hphase hpeek (Nat.lt_of_not_le hdue))
  | waiting w =>
      cases hcmds : s.commands with
      | cons c rest =>
          cases c with
          | schedule t => exact absurd (Works.receive hphase hcmds) (h _)
          | stop => exact absurd (Works.halt hphase hcmds) (h _)
      | nil =>
          refine ⟨rfl, w, rfl, ?_⟩
          -- the clock has not come so far, or it would wake up
          by_contra hle
          exact h _ (Works.wake hphase hcmds (Nat.le_of_not_lt hle))

end TimerService

/-- In every run of the timer service: a timer fires at most as often as it was
scheduled, and never before its deadline. Left to itself the thread comes to
rest, after no more steps than it has to do; unless it returned, every timer
that is due has then fired as often as it was scheduled. -/
theorem timers_fire {now : Nat} {asked : List Timer} {s : TimerService}
    (h : TimerRun now (asked, s)) :
    (∀ t, (s.sent.map Prod.snd).count t ≤ asked.count t) ∧
    (∀ p ∈ s.sent, p.2.deadline ≤ p.1 ∧ p.1 ≤ s.now) ∧
    (∀ k s', WorksFor k s s' → k ≤ 10 * s.commands.length + 5 * s.heap.card + 5) ∧
    (∃ k s', WorksFor k s s' ∧ s'.Blocked) ∧
    ∀ k s', WorksFor k s s' → s'.Blocked → s'.phase ≠ .returned →
      ∀ t, t.deadline ≤ s.now → (s'.sent.map Prod.snd).count t = asked.count t := by
  have hinv := TimersKept.run h
  have hcount : ∀ {s' : TimerService}, TimersKept asked s' → ∀ t, ∃ n,
      asked.count t = (s'.sent.map Prod.snd).count t + s'.heap.count t +
        (pending s'.commands).count t + n ∧ (s'.phase ≠ .returned → n = 0) := by
    intro s' hinv' t
    rcases hinv'.kept with ⟨lost, hkept, hlost⟩
    refine ⟨lost.count t, ?_, ?_⟩
    · have hcounts := congrArg (Multiset.count t) hkept
      simpa only [Multiset.count_add, Multiset.coe_count] using hcounts
    · intro halive
      rw [hlost halive, Multiset.count_zero]
  refine ⟨?_, hinv.late, ?_, s.exists_blocked, ?_⟩
  · intro t
    rcases hcount hinv t with ⟨n, heq, _⟩
    omega
  · intro k s' hworks
    have hbound := hworks.bound
    have hlag : s.lag ≤ 5 := by
      unfold lag
      split
      · omega
      · split
        · omega
        · omega
      · split
        · omega
        · omega
      · omega
    unfold todo at hbound
    omega
  · intro k s' hworks hblocked halive t hdue
    have hinv' := hworks.inv hinv
    rcases hblocked.waiting halive with ⟨hnone, w, hphase, hlater⟩
    -- what is still on the heap is not due
    have hheap : s'.heap.count t = 0 := by
      apply Multiset.count_eq_zero_of_notMem
      intro hmem
      have hlate := hinv'.awake w hphase t hmem
      rw [← hworks.now_eq] at hdue
      omega
    rcases hcount hinv' t with ⟨n, heq, hzero⟩
    rw [hheap, hnone, hzero halive] at heq
    exact heq.symm

/-- A timer of round 0, scheduled at time 0 for time 5. -/
def roundTimer : Timer := { deadline := 5, height := 1, round := 0, kind := .propose }

/-- The service that received it, as time 7 comes. -/
def overdue : TimerService :=
  { TimerService.start 0 with now := 7, heap := {roundTimer}, phase := .top }

theorem overdue_run : TimerRun 0 ([roundTimer], overdue) := by
  let s₀ := TimerService.start 0
  let s₁ := s₀.schedule 1 0 .propose 5
  let s₂ := { s₁ with phase := .firing 0 }
  let s₃ := { s₁ with phase := .waiting idleWait }
  let s₄ := { s₁ with commands := [], heap := {roundTimer}, phase := .top }
  have h₁ : TimerStep ([], s₀) ([roundTimer], s₁) := TimerStep.schedule 1 0 .propose 5
  have h₂ : TimerStep ([roundTimer], s₁) ([roundTimer], s₂) := TimerStep.work (Works.look rfl)
  have h₃ : TimerStep ([roundTimer], s₂) ([roundTimer], s₃) := by
    have hwork : s₂.Works { s₂ with phase := .waiting (s₂.now + idleWait) } :=
      Works.sleepLong rfl rfl
    have hsame : s₃ = { s₂ with phase := .waiting (s₂.now + idleWait) } := by
      show s₃ = { s₁ with phase := .waiting (0 + idleWait) }
      rw [Nat.zero_add]
    rw [hsame]
    exact TimerStep.work hwork
  have h₄ : TimerStep ([roundTimer], s₃) ([roundTimer], s₄) := TimerStep.work (Works.receive rfl rfl)
  have h₅ : TimerStep ([roundTimer], s₄) ([roundTimer], overdue) := TimerStep.tick 7
  exact ((((Relation.ReflTransGen.single h₁).tail h₂).tail h₃).tail h₄).tail h₅

theorem timers_fire_overdue :
    (∃ k s', WorksFor k overdue s' ∧ s'.Blocked) ∧
    ∀ k s', WorksFor k overdue s' → s'.Blocked → s'.phase ≠ .returned →
      (s'.sent.map Prod.snd).count roundTimer = 1 := by
  rcases timers_fire overdue_run with ⟨_, _, _, hrest, hfire⟩
  exact ⟨hrest, fun k s' hworks hblocked halive =>
    hfire k s' hworks hblocked halive roundTimer (by decide)⟩

end SmartLedger
