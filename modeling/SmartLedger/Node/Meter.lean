import SmartLedger.Crypto

/-! # The licensed volume

A meter counts the accepted submissions of a window of 30 days against a cap.
The window rolls when somebody looks at the meter after its end, and only an
accepted submission is written to the file, so after a restart the meter may
come up with a window that is long over.

It never gives quota away: the windows in which something was accepted are a
window's length apart, each holds no more than the cap, and the file always
knows the last of them (`Metered`).
-/

namespace SmartLedger

/-- A 30-day window, in seconds. -/
def windowSecs : UInt64 := 30 * 24 * 3600

/-- `u64::saturating_add`. -/
def saturatingAdd (a b : UInt64) : UInt64 :=
  if a.toNat + b.toNat < 2 ^ 64 then a + b else 0xFFFFFFFFFFFFFFFF

theorem toNat_saturatingAdd {a b : UInt64} (h : a.toNat + b.toNat < 2 ^ 64) :
    (saturatingAdd a b).toNat = a.toNat + b.toNat := by
  unfold saturatingAdd
  rw [if_pos h, UInt64.toNat_add, Nat.mod_eq_of_lt h]

/-- What is kept in the file. -/
structure Persisted where
  count : UInt64
  windowStart : UInt64

/-- What reading and parsing the files gives. -/
abbrev Files := String → Option Persisted

/-- The count of the current window against an optional cap. -/
structure Meter where
  cap : Option UInt64
  count : UInt64
  windowStart : UInt64
  path : Option String

namespace Meter

def roll (m : Meter) (now : UInt64) : Meter :=
  if saturatingAdd m.windowStart windowSecs ≤ now then { m with windowStart := now, count := 0 }
  else m

/-- Restore the usage from the file, if there is any. -/
def new (cap : Option UInt64) (path : Option String) (files : Files) (now : UInt64) : Meter :=
  let restored := (path.bind files).getD { count := 0, windowStart := now }
  roll { cap, count := restored.count, windowStart := restored.windowStart, path } now

/-- A write that succeeds reads back. -/
def persist (m : Meter) (files : Files) : Files :=
  match m.path with
  | none => files
  | some path =>
      Function.update files path (some { count := m.count, windowStart := m.windowStart })

/-- The cap, if there is one, is reached. -/
def exhausted (m : Meter) : Bool :=
  match m.cap with
  | none => false
  | some cap => cap ≤ m.count

/-- Attempt to record one submission at `now`. -/
def tryRecord (m : Meter) (files : Files) (now : UInt64) : Exec (Bool × Meter × Files) :=
  let m := m.roll now
  if m.exhausted then .ok (false, m, files)
  else do
    let count ← checkedAdd m.count 1
    let m := { m with count }
    return (true, m, m.persist files)

/-- Count, cap, start and length of the window. -/
def status (m : Meter) : UInt64 × Option UInt64 × UInt64 × UInt64 :=
  (m.count, m.cap, m.windowStart, windowSecs)

end Meter

/-! ## Sequences of calls -/

/-- An accepted submission: its time, and the start of the window it was
counted in. -/
structure Grant where
  time : UInt64
  window : UInt64

/-- A meter with its files, and what it accepted so far. -/
structure Metering where
  meter : Meter
  files : Files
  grants : List Grant

/-- A submission, or a restart with the same cap and file. -/
inductive MeterCall where
  | tryRecord (now : UInt64)
  | restart (now : UInt64)

def MeterCall.time : MeterCall → UInt64
  | .tryRecord now => now
  | .restart now => now

namespace Metering

def start (cap : UInt64) (path : String) (files : Files) (now : UInt64) : Metering where
  meter := Meter.new (some cap) (some path) files now
  files
  grants := []

def step (s : Metering) : MeterCall → Exec Metering
  | .tryRecord now => do
      let (accepted, meter, files) ← s.meter.tryRecord s.files now
      return {
        meter
        files
        grants := if accepted then s.grants ++ [⟨now, meter.windowStart⟩] else s.grants }
  | .restart now => .ok { s with meter := Meter.new s.meter.cap s.meter.path s.files now }

def run (s : Metering) : List MeterCall → Exec Metering
  | [] => .ok s
  | c :: calls => do
      let s ← s.step c
      run s calls

end Metering

/-! ## Windows -/

/-- How many submissions were accepted in the window from `start`. -/
def grantsOf (grants : List Grant) (start : UInt64) : Nat :=
  grants.countP fun g => g.window == start

theorem grantsOf_append (grants : List Grant) (g : Grant) (start : UInt64) :
    grantsOf (grants ++ [g]) start = grantsOf grants start + if g.window = start then 1 else 0 := by
  simp [grantsOf, List.countP_append, List.countP_cons]

theorem grantsOf_eq_zero {grants : List Grant} {start : UInt64}
    (h : ∀ g ∈ grants, g.window ≠ start) : grantsOf grants start = 0 := by
  unfold grantsOf
  rw [List.countP_eq_zero]
  intro g hg
  simpa using h g hg

theorem countP_either_le (grants : List Grant) (a b : UInt64) :
    grants.countP (fun g => g.window == a || g.window == b) ≤
      grantsOf grants a + grantsOf grants b := by
  unfold grantsOf
  induction grants with
  | nil => simp
  | cons g grants ih =>
      simp only [List.countP_cons]
      by_cases ha : g.window = a
      · simp [ha]
        omega
      · by_cases hb : g.window = b
        · simp [hb]
          omega
        · simpa [ha, hb] using ih

/-- Two windows are one, or a window's length apart. -/
def Apart (a b : UInt64) : Prop :=
  a = b ∨ a.toNat + windowSecs.toNat ≤ b.toNat ∨ b.toNat + windowSecs.toNat ≤ a.toNat

/-- With windows apart and at most `c` accepted in each, at most `2 * c` are
accepted in an interval of a window's length. -/
theorem countP_interval_le {grants : List Grant} {c : Nat}
    (htimed : ∀ g ∈ grants, g.window.toNat ≤ g.time.toNat ∧
      g.time.toNat < g.window.toNat + windowSecs.toNat)
    (hapart : ∀ g ∈ grants, ∀ g' ∈ grants, Apart g.window g'.window)
    (hwithin : ∀ w, grantsOf grants w ≤ c) (x : Nat) :
    grants.countP (fun g => decide (x ≤ g.time.toNat ∧ g.time.toNat ≤ x + windowSecs.toNat)) ≤
      2 * c := by
  -- the grants of the interval lie in two windows
  have htwo : ∃ a b : UInt64, ∀ g ∈ grants,
      x ≤ g.time.toNat ∧ g.time.toNat ≤ x + windowSecs.toNat → g.window = a ∨ g.window = b := by
    by_cases hany : ∃ g ∈ grants, x ≤ g.time.toNat ∧ g.time.toNat ≤ x + windowSecs.toNat
    · rcases hany with ⟨g₁, hg₁, hin₁⟩
      by_cases hother : ∃ g ∈ grants,
          (x ≤ g.time.toNat ∧ g.time.toNat ≤ x + windowSecs.toNat) ∧ g.window ≠ g₁.window
      · rcases hother with ⟨g₂, hg₂, hin₂, hne₂⟩
        refine ⟨g₁.window, g₂.window, ?_⟩
        intro g hg hin
        by_contra hthird
        rw [not_or] at hthird
        have h₁ := (hapart g hg g₁ hg₁).resolve_left hthird.1
        have h₂ := (hapart g hg g₂ hg₂).resolve_left hthird.2
        have h₁₂ := (hapart g₂ hg₂ g₁ hg₁).resolve_left hne₂
        have ht := htimed g hg
        have ht₁ := htimed g₁ hg₁
        have ht₂ := htimed g₂ hg₂
        omega
      · refine ⟨g₁.window, g₁.window, ?_⟩
        intro g hg hin
        by_contra hne
        exact hother ⟨g, hg, hin, fun heq => hne (Or.inl heq)⟩
    · exact ⟨0, 0, fun g hg hin => absurd ⟨g, hg, hin⟩ hany⟩
  rcases htwo with ⟨a, b, hab⟩
  calc grants.countP (fun g =>
        decide (x ≤ g.time.toNat ∧ g.time.toNat ≤ x + windowSecs.toNat))
      ≤ grants.countP (fun g => g.window == a || g.window == b) := by
        apply List.countP_mono_left
        intro g hg hin
        simpa using hab g hg (of_decide_eq_true hin)
    _ ≤ grantsOf grants a + grantsOf grants b := countP_either_le grants a b
    _ ≤ 2 * c := by
        have ha := hwithin a
        have hb := hwithin b
        omega

/-! ## What the meter and its file know -/

/-- What the file holds: the last window in which something was accepted. -/
structure Filed (s : Metering) (f : Persisted) : Prop where
  count : f.count.toNat = grantsOf s.grants f.windowStart
  last : ∀ g ∈ s.grants, g.window = f.windowStart ∨
    g.window.toNat + windowSecs.toNat ≤ f.windowStart.toNat
  current : f.windowStart = s.meter.windowStart ∨
    f.windowStart.toNat + windowSecs.toNat ≤ s.meter.windowStart.toNat

/-- A meter that was last looked at at `now`. -/
structure Metered (cap : UInt64) (path : String) (now : UInt64) (s : Metering) : Prop where
  cap_eq : s.meter.cap = some cap
  path_eq : s.meter.path = some path
  started : s.meter.windowStart.toNat ≤ now.toNat
  count : s.meter.count.toNat = grantsOf s.grants s.meter.windowStart
  within : ∀ w, grantsOf s.grants w ≤ cap.toNat
  timed : ∀ g ∈ s.grants, g.window.toNat ≤ g.time.toNat ∧
    g.time.toNat < g.window.toNat + windowSecs.toNat
  apart : ∀ g ∈ s.grants, ∀ g' ∈ s.grants, Apart g.window g'.window
  unfiled : s.files path = none → s.grants = []
  filed : ∀ f, s.files path = some f → Filed s f

namespace Meter

variable {m : Meter}

/-- Away from the end of time a roll starts a new window exactly when the
current one is over. -/
theorem roll_cases (now : UInt64) (hsmall : m.windowStart.toNat + windowSecs.toNat < 2 ^ 64) :
    (now.toNat < m.windowStart.toNat + windowSecs.toNat ∧ m.roll now = m) ∨
    (m.windowStart.toNat + windowSecs.toNat ≤ now.toNat ∧
      m.roll now = { m with windowStart := now, count := 0 }) := by
  unfold roll
  by_cases hover : saturatingAdd m.windowStart windowSecs ≤ now
  · right
    rw [if_pos hover]
    rw [UInt64.le_iff_toNat_le, toNat_saturatingAdd hsmall] at hover
    exact ⟨hover, rfl⟩
  · left
    rw [if_neg hover]
    rw [UInt64.le_iff_toNat_le, toNat_saturatingAdd hsmall] at hover
    exact ⟨by omega, rfl⟩

section

variable {cap : Option UInt64} {path : String} {files : Files} {now : UInt64}

theorem new_of_none (h : files path = none) :
    new cap (some path) files now = roll ⟨cap, 0, now, some path⟩ now := by
  simp only [new, Option.bind_some, h, Option.getD_none]

theorem new_of_some {f : Persisted} (h : files path = some f) :
    new cap (some path) files now = roll ⟨cap, f.count, f.windowStart, some path⟩ now := by
  simp only [new, Option.bind_some, h, Option.getD_some]

end

theorem status_count (m : Meter) : m.status.1 = m.count := by
  unfold status
  rfl

theorem roll_count (m : Meter) (now : UInt64) :
    (m.roll now).count = 0 ∨ (m.roll now).count = m.count := by
  unfold roll
  split
  · exact Or.inl rfl
  · exact Or.inr rfl

end Meter

namespace Metered

variable {cap : UInt64} {path : String} {now later : UInt64} {s : Metering}

theorem mono (h : Metered cap path now s) (hle : now.toNat ≤ later.toNat) :
    Metered cap path later s :=
  { h with started := h.started.trans hle }

/-- No accepted submission is in a window that starts later than the meter's. -/
theorem window_le (h : Metered cap path now s) {g : Grant} (hg : g ∈ s.grants) :
    g.window.toNat ≤ s.meter.windowStart.toNat := by
  cases hfile : s.files path with
  | none =>
      rw [h.unfiled hfile] at hg
      cases hg
  | some f =>
      have hfiled := h.filed f hfile
      rcases hfiled.last g hg with heq | hbefore
      · rw [heq]
        rcases hfiled.current with hcur | hcur
        · rw [hcur]
        · omega
      · rcases hfiled.current with hcur | hcur
        · rw [← hcur]
          omega
        · omega

/-- Rolling the window. -/
theorem roll (h : Metered cap path now s) (hsmall : now.toNat + windowSecs.toNat < 2 ^ 64) :
    Metered cap path now { s with meter := s.meter.roll now } ∧
      now.toNat < (s.meter.roll now).windowStart.toNat + windowSecs.toNat := by
  have hpos : 0 < windowSecs.toNat := by decide
  have hstarted := h.started
  rcases Meter.roll_cases (m := s.meter) now (by omega) with ⟨hcur, heq⟩ | ⟨hover, heq⟩
  · rw [heq]
    exact ⟨h, hcur⟩
  · rw [heq]
    refine ⟨?_, ?_⟩
    · refine { h with started := le_rfl, count := ?_, filed := ?_ }
      · -- nothing was accepted in the new window
        refine (grantsOf_eq_zero ?_).symm
        intro g hg hnow
        have hle := h.window_le hg
        rw [show g.window = now from hnow] at hle
        omega
      · intro f hfile
        have hfiled := h.filed f hfile
        refine ⟨hfiled.count, hfiled.last, Or.inr ?_⟩
        -- the file is of the window that just ended, or of an older one
        rcases hfiled.current with hcur | hcur
        · rw [hcur]
          exact hover
        · show f.windowStart.toNat + windowSecs.toNat ≤ now.toNat
          omega
    · show now.toNat < now.toNat + windowSecs.toNat
      omega

/-- A meter that comes up without a file. -/
theorem start {files : Files} (hnone : files path = none)
    (hsmall : now.toNat + windowSecs.toNat < 2 ^ 64) :
    Metered cap path now (Metering.start cap path files now) := by
  have hempty : Metered cap path now
      { meter := ⟨some cap, 0, now, some path⟩, files, grants := [] } := by
    refine ⟨rfl, rfl, le_rfl, rfl, ?_, ?_, ?_, fun _ => rfl, ?_⟩
    · intro w
      exact Nat.zero_le _
    · intro g hg
      cases hg
    · intro g hg
      cases hg
    · intro f hsome
      have hfiles : files path = some f := hsome
      rw [hnone] at hfiles
      cases hfiles
  unfold Metering.start
  rw [Meter.new_of_none hnone]
  exact (hempty.roll hsmall).1

/-- A meter comes up as it was, or in a new window in which nothing is
accepted yet. -/
theorem restart (h : Metered cap path now s) (hsmall : now.toNat + windowSecs.toNat < 2 ^ 64) :
    Metered cap path now
      { s with meter := Meter.new s.meter.cap s.meter.path s.files now } := by
  rw [h.path_eq]
  cases hfile : s.files path with
  | none =>
      have hnone := h.unfiled hfile
      -- without a file nothing was accepted, so a count of zero is right
      have hempty : Metered cap path now
          { s with meter := ⟨s.meter.cap, 0, now, some path⟩ } := by
        refine { h with path_eq := rfl, started := le_rfl, count := ?_, filed := ?_ }
        · show 0 = grantsOf s.grants now
          rw [hnone]
          rfl
        · intro f hsome
          have hfiles : s.files path = some f := hsome
          rw [hfile] at hfiles
          cases hfiles
      rw [Meter.new_of_none hfile]
      exact (hempty.roll hsmall).1
  | some f =>
      have hfiled := h.filed f hfile
      have hstarted := h.started
      -- the file may be of an older window, which the rolling puts right
      have hrestored : Metered cap path now
          { s with meter := ⟨s.meter.cap, f.count, f.windowStart, some path⟩ } := by
        refine { h with path_eq := rfl, started := ?_, count := hfiled.count, filed := ?_ }
        · show f.windowStart.toNat ≤ now.toNat
          rcases hfiled.current with hcur | hcur
          · rw [hcur]
            exact hstarted
          · omega
        · intro f' hsome
          have hfiles : s.files path = some f' := hsome
          rw [hfile] at hfiles
          obtain rfl := Option.some.inj hfiles
          exact ⟨hfiled.count, hfiled.last, Or.inl rfl⟩
      rw [Meter.new_of_some hfile]
      exact (hrestored.roll hsmall).1

/-- An attempt is turned down, or counted and written to the file. -/
theorem tryRecord (h : Metered cap path now s) (hsmall : now.toNat + windowSecs.toNat < 2 ^ 64) :
    ∃ s', s.step (.tryRecord now) = .ok s' ∧ Metered cap path now s' := by
  rcases h.roll hsmall with ⟨hrolled, hcur⟩
  rcases hm : s.meter.roll now with ⟨cap?, count, window, path?⟩
  rw [hm] at hrolled hcur
  obtain rfl : cap? = some cap := hrolled.cap_eq
  obtain rfl : path? = some path := hrolled.path_eq
  by_cases hfull : cap ≤ count
  · refine ⟨{ s with meter := ⟨some cap, count, window, some path⟩ }, ?_, hrolled⟩
    have hexhausted : (⟨some cap, count, window, some path⟩ : Meter).exhausted = true := by
      simp [Meter.exhausted, hfull]
    simp only [Metering.step, Meter.tryRecord, hm, hexhausted, if_true]
    rfl
  · have hexhausted : (⟨some cap, count, window, some path⟩ : Meter).exhausted = false := by
      simpa [Meter.exhausted] using hfull
    rw [UInt64.le_iff_toNat_le] at hfull
    -- below the cap there is room for one more
    have hroom : count.toNat + (1 : UInt64).toNat < 2 ^ 64 := by
      have hlt := cap.toNat_lt
      rw [show (1 : UInt64).toNat = 1 from rfl]
      omega
    have hcount : (count + 1).toNat = count.toNat + 1 := by
      rw [UInt64.toNat_add, Nat.mod_eq_of_lt hroom]
      rfl
    let s' : Metering := {
      meter := ⟨some cap, count + 1, window, some path⟩
      files := Function.update s.files path
        (some { count := count + 1, windowStart := window })
      grants := s.grants ++ [⟨now, window⟩] }
    have hadd : checkedAdd count 1 = .ok (count + 1) := by
      unfold checkedAdd
      rw [if_pos hroom]
    have hstep : s.step (.tryRecord now) = .ok s' := by
      simp only [Metering.step, Meter.tryRecord, hm, hexhausted, hadd, Bool.false_eq_true,
        if_false]
      rfl
    have hother : ∀ g ∈ s.grants, g.window = window ∨
        g.window.toNat + windowSecs.toNat ≤ window.toNat := by
      intro g hg
      cases hfile : s.files path with
      | none =>
          rw [h.unfiled hfile] at hg
          cases hg
      | some f =>
          have hfiled := hrolled.filed f hfile
          have hcurrent : f.windowStart = window ∨
              f.windowStart.toNat + windowSecs.toNat ≤ window.toNat := hfiled.current
          rcases hfiled.last g hg with heq | hbefore
          · rw [heq]
            exact hcurrent
          · rcases hcurrent with hsame | hlater
            · exact Or.inr (hsame ▸ hbefore)
            · exact Or.inr (by omega)
    have hnew : grantsOf s'.grants window = grantsOf s.grants window + 1 := by
      rw [grantsOf_append, if_pos rfl]
    have hbefore : count.toNat = grantsOf s.grants window := hrolled.count
    refine ⟨s', hstep, ⟨rfl, rfl, hrolled.started, ?_, ?_, ?_, ?_, ?_, ?_⟩⟩
    · show (count + 1).toNat = grantsOf s'.grants window
      rw [hnew, hcount, hbefore]
    · intro w
      by_cases hw : w = window
      · rw [hw, hnew]
        omega
      · rw [grantsOf_append, if_neg (Ne.symm hw)]
        exact h.within w
    · intro g hg
      rcases List.mem_append.mp hg with hold | hlast
      · exact h.timed g hold
      · rw [List.mem_singleton.mp hlast]
        exact ⟨hrolled.started, hcur⟩
    · intro g hg g' hg'
      rcases List.mem_append.mp hg with hold | hlast
      · rcases List.mem_append.mp hg' with hold' | hlast'
        · exact h.apart g hold g' hold'
        · rw [List.mem_singleton.mp hlast']
          exact (hother g hold).imp_right Or.inl
      · rw [List.mem_singleton.mp hlast]
        rcases List.mem_append.mp hg' with hold' | hlast'
        · rcases hother g' hold' with heq | hlater
          · exact Or.inl heq.symm
          · exact Or.inr (Or.inr hlater)
        · rw [List.mem_singleton.mp hlast']
          exact Or.inl rfl
    · intro hnone
      have hfiles : Function.update s.files path
          (some { count := count + 1, windowStart := window }) path = none := hnone
      rw [Function.update_self] at hfiles
      cases hfiles
    · intro f hsome
      have hfiles : Function.update s.files path
          (some { count := count + 1, windowStart := window }) path = some f :=
        hsome
      rw [Function.update_self] at hfiles
      obtain rfl := Option.some.inj hfiles
      refine ⟨?_, ?_, Or.inl rfl⟩
      · show (count + 1).toNat = grantsOf s'.grants window
        rw [hnew, hcount, hbefore]
      · intro g hg
        rcases List.mem_append.mp hg with hold | hlast
        · exact hother g hold
        · rw [List.mem_singleton.mp hlast]
          exact Or.inl rfl

theorem step (h : Metered cap path now s) {c : MeterCall} (hle : now ≤ c.time)
    (hsmall : c.time.toNat + windowSecs.toNat < 2 ^ 64) :
    ∃ s', s.step c = .ok s' ∧ Metered cap path c.time s' := by
  have hlater := h.mono (UInt64.le_iff_toNat_le.mp hle)
  cases c with
  | tryRecord t => exact hlater.tryRecord hsmall
  | restart t => exact ⟨_, rfl, hlater.restart hsmall⟩

/-- A sequence of calls at times that do not decrease. -/
theorem run (h : Metered cap path now s) {calls : List MeterCall}
    (hmono : (now :: calls.map (·.time)).Pairwise (· ≤ ·))
    (hsmall : ∀ t ∈ calls.map (·.time), t.toNat + windowSecs.toNat < 2 ^ 64) :
    ∃ s' t, s.run calls = .ok s' ∧ t ∈ now :: calls.map (·.time) ∧ Metered cap path t s' := by
  induction calls generalizing now s with
  | nil => exact ⟨s, now, rfl, List.mem_cons_self, h⟩
  | cons c calls ih =>
      rw [List.map_cons, List.pairwise_cons] at hmono
      have hle : now ≤ c.time := hmono.1 _ List.mem_cons_self
      rcases h.step hle (hsmall _ List.mem_cons_self) with ⟨s₁, hstep, hnext⟩
      rcases ih hnext hmono.2 (fun t ht => hsmall t (List.mem_cons_of_mem _ ht)) with
        ⟨s₂, t, hrun, ht, hend⟩
      refine ⟨s₂, t, ?_, List.mem_cons_of_mem _ ht, hend⟩
      rw [Metering.run, hstep]
      exact hrun

/-- A restart within the window keeps the count. -/
theorem restart_count (h : Metered cap path now s) (hle : now.toNat ≤ later.toNat)
    (hsmall : now.toNat + windowSecs.toNat < 2 ^ 64)
    (hcur : later.toNat < s.meter.windowStart.toNat + windowSecs.toNat) :
    (Meter.new s.meter.cap s.meter.path s.files later).count = s.meter.count := by
  have hstarted := h.started
  have hcount := h.count
  have hpos : 0 < windowSecs.toNat := by decide
  rw [h.path_eq]
  cases hfile : s.files path with
  | none =>
      rw [h.unfiled hfile] at hcount
      have hzero : s.meter.count = 0 := UInt64.toNat_inj.mp hcount
      rw [Meter.new_of_none hfile]
      rcases Meter.roll_count ⟨s.meter.cap, 0, later, some path⟩ later with hroll | hroll
      · exact hroll.trans hzero.symm
      · exact hroll.trans hzero.symm
  | some f =>
      have hfiled := h.filed f hfile
      have hfits : f.windowStart.toNat + windowSecs.toNat < 2 ^ 64 := by
        rcases hfiled.current with hsame | hbefore
        · rw [hsame]
          omega
        · omega
      have hroll := Meter.roll_cases (m := ⟨s.meter.cap, f.count, f.windowStart, some path⟩) later
        hfits
      rw [Meter.new_of_some hfile]
      rcases hfiled.current with hsame | hbefore
      · -- the file is of this window
        rcases hroll with ⟨_, heq⟩ | ⟨hover, _⟩
        · rw [heq]
          apply UInt64.toNat_inj.mp
          show f.count.toNat = s.meter.count.toNat
          rw [hfiled.count, hcount, hsame]
        · have hover' : f.windowStart.toNat + windowSecs.toNat ≤ later.toNat := hover
          rw [hsame] at hover'
          omega
      · -- the file is of a window that is over, and nothing was accepted since
        have hzero : grantsOf s.grants s.meter.windowStart = 0 := by
          apply grantsOf_eq_zero
          intro g hg heq
          rw [← heq] at hbefore
          rcases hfiled.last g hg with hlast | hlast
          · rw [hlast] at hbefore
            omega
          · omega
        have hnone : s.meter.count = 0 := UInt64.toNat_inj.mp (hcount.trans hzero)
        rcases hroll with ⟨hcur', _⟩ | ⟨_, heq⟩
        · have hcur'' : later.toNat < f.windowStart.toNat + windowSecs.toNat := hcur'
          omega
        · rw [heq, hnone]

end Metered

/-- From the first start, when there is no file yet, whatever is recorded and
however often the node restarts, at times that do not decrease and stay away
from the end of time: every attempt returns; an
accepted submission falls into its window; the status counts those of the
current window, of which there are at most as many as the cap; two windows with
accepted submissions start a window's length apart; an interval of that length
has at most twice the cap of them; and a restart keeps the count of a window
that is not over. -/
theorem licensed_volume_holds (cap : UInt64) (path : String) (files : Files)
    (hnone : files path = none) (now : UInt64) (calls : List MeterCall)
    (hmono : (now :: calls.map (·.time)).Pairwise (· ≤ ·))
    (hsmall : ∀ t ∈ now :: calls.map (·.time), t.toNat + windowSecs.toNat < 2 ^ 64) :
    ∃ s, (Metering.start cap path files now).run calls = .ok s ∧
      (∀ g ∈ s.grants, g.window.toNat ≤ g.time.toNat ∧
        g.time.toNat < g.window.toNat + windowSecs.toNat) ∧
      s.meter.status.1.toNat = grantsOf s.grants s.meter.windowStart ∧
      (∀ w, grantsOf s.grants w ≤ cap.toNat) ∧
      (∀ g ∈ s.grants, ∀ g' ∈ s.grants, Apart g.window g'.window) ∧
      (∀ x : Nat, s.grants.countP (fun g =>
        decide (x ≤ g.time.toNat ∧ g.time.toNat ≤ x + windowSecs.toNat)) ≤ 2 * cap.toNat) ∧
      ∀ later : UInt64, (∀ t ∈ now :: calls.map (·.time), t ≤ later) →
        later.toNat < s.meter.windowStart.toNat + windowSecs.toNat →
        (Meter.new s.meter.cap s.meter.path s.files later).status.1 = s.meter.status.1 := by
  have hstart : Metered cap path now (Metering.start cap path files now) :=
    Metered.start hnone (hsmall now List.mem_cons_self)
  -- what is kept along the calls is said of their end
  rcases hstart.run hmono fun t ht => hsmall t (List.mem_cons_of_mem _ ht) with
    ⟨s, t, hrun, ht, hend⟩
  refine ⟨s, hrun, hend.timed, ?_, hend.within, hend.apart, ?_, ?_⟩
  · rw [Meter.status_count]
    exact hend.count
  · intro x
    exact countP_interval_le hend.timed hend.apart hend.within x
  · intro later hlater hcur
    rw [Meter.status_count, Meter.status_count]
    exact hend.restart_count (UInt64.le_iff_toNat_le.mp (hlater t ht)) (hsmall t ht) hcur

/-- Two of three submissions are accepted, a restart does not help, and after
the window is over there is room again. -/
theorem licensed_volume_holds_two :
    ∃ s, (Metering.start 2 "meter.json" (fun _ => none) 1000).run
        [.tryRecord 1000, .tryRecord 1001, .tryRecord 1002, .restart 1003, .tryRecord 1003,
          .tryRecord 2593000] = .ok s ∧
      s.meter.status.1.toNat = grantsOf s.grants s.meter.windowStart ∧
      s.grants.map (·.time) = [1000, 1001, 2593000] := by
  -- not `decide` on the quantifier, which would go through every time there is
  have hsmall : ∀ t ∈ (1000 : UInt64) :: [MeterCall.tryRecord 1000, .tryRecord 1001,
      .tryRecord 1002, .restart 1003, .tryRecord 1003, .tryRecord 2593000].map (·.time),
      t.toNat + windowSecs.toNat < 2 ^ 64 := by
    simp only [List.map_cons, List.map_nil, List.forall_mem_cons, List.not_mem_nil,
      IsEmpty.forall_iff, implies_true, and_true]
    decide +kernel
  rcases licensed_volume_holds 2 "meter.json" (fun _ => none) rfl 1000 [.tryRecord 1000,
    .tryRecord 1001, .tryRecord 1002, .restart 1003, .tryRecord 1003, .tryRecord 2593000]
    (by decide +kernel) hsmall with ⟨s, hrun, _, hcount, _⟩
  refine ⟨s, hrun, hcount, ?_⟩
  have hplayed : ((Metering.start 2 "meter.json" (fun _ => none) 1000).run
      [.tryRecord 1000, .tryRecord 1001, .tryRecord 1002, .restart 1003, .tryRecord 1003,
        .tryRecord 2593000]).holds (fun s => s.grants.map (·.time) = [1000, 1001, 2593000]) =
          true := by decide +kernel
  rw [hrun] at hplayed
  exact of_decide_eq_true hplayed

end SmartLedger
