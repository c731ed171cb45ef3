import SmartLedger.Ledger.Block

/-! # Checkpoints and the anchoring service

The service collects the ids of finalized blocks and publishes a Merkle root
over each full window through a backend. The backend is a parameter with a
state of its own: it may answer anything, and fail at any time, in which case
the window is kept for the next block.

`Batched`: whatever it was fed, the service has cut it into published windows
and a pending rest, in order and without loss.
-/

namespace SmartLedger

variable {C : Crypto}

/-! ## Checkpoints -/

/-- The checkpoint leaf for a block id. -/
def checkpointLeaf (C : Crypto) (blockId : Hash) : Hash := hashLeaf C blockId.asBytes

/-- A checkpoint over a run of blocks. -/
structure Checkpoint where
  fromHeight : UInt64
  toHeight : UInt64
  blockIds : List Hash
  tree : MerkleTree
  root : Hash

namespace Checkpoint

/-- The Merkle root over block ids. -/
def rootOf (C : Crypto) (blockIds : List Hash) : Hash :=
  (MerkleTree.build C (blockIds.map (checkpointLeaf C))).root C

def fromBlockIds (C : Crypto) (blockIds : List Hash) (fromHeight toHeight : UInt64) :
    Option Checkpoint :=
  if blockIds.isEmpty then none
  else
    let tree := MerkleTree.build C (blockIds.map (checkpointLeaf C))
    some { fromHeight, toHeight, blockIds, tree, root := tree.root C }

theorem fromBlockIds_of_ne_nil {blockIds : List Hash} (hne : blockIds ≠ [])
    (fromHeight toHeight : UInt64) :
    ∃ cp, fromBlockIds C blockIds fromHeight toHeight = some cp ∧ cp.root = rootOf C blockIds := by
  unfold fromBlockIds
  rw [if_neg (by simpa using hne)]
  exact ⟨_, rfl, rfl⟩

end Checkpoint

/-! ## Backends and records -/

/-- The errors of the anchoring layer. -/
inductive AnchorError where
  | io (message : String)
  | notarization (err : LedgerError)
  | blockMismatch
  | notInCheckpoint
  | receiptMismatch

/-- External evidence that a checkpoint root was published. -/
structure Receipt where
  backend : String
  reference : String
  checkpointRoot : Hash

/-- A backend that can publish a checkpoint root. -/
structure AnchorBackend where
  State : Type
  anchor : State → Checkpoint → Except AnchorError Receipt × State

/-- A hash as lowercase hex digits. -/
def Hash.toHex (h : Hash) : String :=
  let digit (n : Nat) : Char := Char.ofNat (if n < 10 then 48 + n else 87 + n)
  String.ofList (h.asBytes.flatMap fun b => [digit (b.toNat / 16), digit (b.toNat % 16)])

/-- The in-memory backend: remembers every root it published. -/
def mockAnchor : AnchorBackend where
  State := List Hash
  anchor published checkpoint :=
    (.ok {
      backend := "mock"
      reference := "mock:" ++ toString published.length ++ ":" ++ checkpoint.root.toHex
      checkpointRoot := checkpoint.root }, published ++ [checkpoint.root])

/-- Where and what was published for a range of heights. -/
structure AnchorRecord where
  fromHeight : UInt64
  toHeight : UInt64
  checkpointRoot : Hash
  receipt : Receipt

/-- A published window. -/
structure Window where
  blockIds : List Hash
  fromHeight : UInt64
  toHeight : UInt64
  record : AnchorRecord

/-! ## The service -/

/-- Accumulates block ids and anchors them every `interval` blocks. -/
structure AnchorService (B : AnchorBackend) where
  backend : B.State
  interval : Nat
  interval_pos : 1 ≤ interval
  pendingIds : List Hash
  pendingFrom : Option UInt64
  pendingTo : UInt64
  history : List Window

namespace AnchorService

variable {B : AnchorBackend}

/-- A service that has seen nothing yet. -/
def new (backend : B.State) (interval : Nat) (h : 1 ≤ interval) : AnchorService B where
  backend
  interval
  interval_pos := h
  pendingIds := []
  pendingFrom := none
  pendingTo := 0
  history := []

/-- Publish the pending window, if any; it is kept when the backend fails. -/
def flush (C : Crypto) (s : AnchorService B) : AnchorService B × Option AnchorRecord :=
  match s.pendingFrom with
  | none => (s, none)
  | some fromHeight =>
      match Checkpoint.fromBlockIds C s.pendingIds fromHeight s.pendingTo with
      | none => (s, none)
      | some checkpoint =>
          match B.anchor s.backend checkpoint with
          | (.error _, backend) => ({ s with backend }, none)
          | (.ok receipt, backend) =>
              let record : AnchorRecord := {
                fromHeight
                toHeight := s.pendingTo
                checkpointRoot := checkpoint.root
                receipt }
              ({ s with
                backend
                pendingIds := []
                pendingFrom := none
                history := s.history ++ [{
                  blockIds := s.pendingIds
                  fromHeight
                  toHeight := s.pendingTo
                  record }] }, some record)

/-- Note a newly finalized block; a full window is published. -/
def recordBlock (C : Crypto) (s : AnchorService B) (blockId : Hash) (height : UInt64) :
    AnchorService B × Option AnchorRecord :=
  let s := { s with
    pendingFrom := some (s.pendingFrom.getD height)
    pendingTo := height
    pendingIds := s.pendingIds ++ [blockId] }
  if s.interval ≤ s.pendingIds.length then s.flush C else (s, none)

end AnchorService

/-! ## What the service makes of its input -/

/-- Ids and heights in the order they were recorded. -/
abbrev Fed := List (Hash × UInt64)

/-- A window of recorded blocks: its first and its last height. -/
structure Spans (fed : Fed) (fromHeight toHeight : UInt64) : Prop where
  first : fed.head?.map Prod.snd = some fromHeight
  last : fed.getLast?.map Prod.snd = some toHeight

theorem Spans.snoc {fed : Fed} {fromHeight toHeight : UInt64} (h : Spans fed fromHeight toHeight)
    (x : Hash × UInt64) : Spans (fed ++ [x]) fromHeight x.2 := by
  constructor
  · match fed, h.first with
    | y :: rest, hfirst => exact hfirst
  · simp

theorem Spans.ne_nil {fed : Fed} {fromHeight toHeight : UInt64}
    (h : Spans fed fromHeight toHeight) : fed ≠ [] := by
  intro hnil
  have hfirst := h.first
  rw [hnil] at hfirst
  cases hfirst

/-- A published window is of the blocks `fed`. -/
structure Window.Of (C : Crypto) (fed : Fed) (w : Window) : Prop where
  ids : w.blockIds = fed.map Prod.fst
  spans : Spans fed w.fromHeight w.toHeight
  recordFrom : w.record.fromHeight = w.fromHeight
  recordTo : w.record.toHeight = w.toHeight
  root : w.record.checkpointRoot = Checkpoint.rootOf C w.blockIds

/-- The recorded blocks are the published windows, in order, and then what is
pending. -/
structure Batched (C : Crypto) {B : AnchorBackend} (s : AnchorService B) (windows : List Fed)
    (pending : Fed) : Prop where
  history : List.Forall₂ (Window.Of C) windows s.history
  ids : s.pendingIds = pending.map Prod.fst
  none_iff : s.pendingFrom = none ↔ pending = []
  spans : ∀ fromHeight, s.pendingFrom = some fromHeight → Spans pending fromHeight s.pendingTo

namespace Batched

variable {B : AnchorBackend} {s : AnchorService B} {windows : List Fed} {pending : Fed}

theorem new (backend : B.State) (interval : Nat) (h : 1 ≤ interval) :
    Batched C (AnchorService.new backend interval h) [] [] where
  history := List.Forall₂.nil
  ids := rfl
  none_iff := by simp [AnchorService.new]
  spans := by simp [AnchorService.new]

/-- A flush closes the pending window, or leaves everything but the backend
as it was. -/
theorem flush (h : Batched C s windows pending) :
    (Batched C (s.flush C).1 windows pending ∧ (s.flush C).2 = none ∧
      (s.flush C).1.history = s.history) ∨
    ∃ w, Batched C (s.flush C).1 (windows ++ [pending]) [] ∧ (s.flush C).2 = some w.record ∧
      (s.flush C).1.history = s.history ++ [w] := by
  unfold AnchorService.flush
  cases hfrom : s.pendingFrom with
  | none => exact Or.inl ⟨h, rfl, rfl⟩
  | some fromHeight =>
      have hspans := h.spans fromHeight hfrom
      have hne : s.pendingIds ≠ [] := by
        rw [h.ids]
        intro hnil
        exact hspans.ne_nil (List.map_eq_nil_iff.mp hnil)
      rcases Checkpoint.fromBlockIds_of_ne_nil (C := C) hne fromHeight s.pendingTo with
        ⟨cp, hcp, hroot⟩
      simp only [hcp]
      rcases B.anchor s.backend cp with ⟨result, backend⟩
      cases result with
      -- the backend refused, so the window stays open
      | error err =>
          have hiff := h.none_iff
          have hpending := h.spans
          rw [hfrom] at hiff hpending
          exact Or.inl ⟨⟨h.history, h.ids, hiff, hpending⟩, rfl, rfl⟩
      | ok receipt =>
          right
          refine ⟨_, ⟨?_, ?_, ?_, ?_⟩, rfl, rfl⟩
          · refine List.rel_append h.history (List.Forall₂.cons ?_ List.Forall₂.nil)
            exact ⟨h.ids, hspans, rfl, rfl, hroot⟩
          · rfl
          · simp
          · intro fromHeight' hbad
            cases hbad

/-- A recorded block joins the pending ones; the window may then close. -/
theorem recordBlock (h : Batched C s windows pending) (blockId : Hash) (height : UInt64) :
    ∃ windows' pending', Batched C (s.recordBlock C blockId height).1 windows' pending' ∧
      windows'.flatten ++ pending' = windows.flatten ++ pending ++ [(blockId, height)] ∧
      (s.recordBlock C blockId height).1.history.map (·.record) =
        s.history.map (·.record) ++ (s.recordBlock C blockId height).2.toList := by
  let s' : AnchorService B := { s with
    pendingFrom := some (s.pendingFrom.getD height)
    pendingTo := height
    pendingIds := s.pendingIds ++ [blockId] }
  -- first the block is queued, and it may be the first of its window
  have hqueued : Batched C s' windows (pending ++ [(blockId, height)]) := by
    refine ⟨h.history, ?_, ?_, ?_⟩
    · show s.pendingIds ++ [blockId] = _
      rw [h.ids, List.map_append]
      rfl
    · simp [s']
    · intro fromHeight hfrom
      have hfrom' : s.pendingFrom.getD height = fromHeight := Option.some.inj hfrom
      cases hold : s.pendingFrom with
      | none =>
          rw [hold] at hfrom'
          rw [h.none_iff.mp hold, List.nil_append]
          exact ⟨congrArg some hfrom', rfl⟩
      | some f =>
          rw [hold] at hfrom'
          obtain rfl : f = fromHeight := hfrom'
          exact (h.spans f hold).snoc (blockId, height)
  -- then the service looks at the number of ids, not of heights
  have hstep : s.recordBlock C blockId height =
      if s'.interval ≤ s'.pendingIds.length then s'.flush C else (s', none) := rfl
  rw [hstep]
  by_cases hfull : s'.interval ≤ s'.pendingIds.length
  · rw [if_pos hfull]
    rcases hqueued.flush with ⟨hkept, hnone, hhist⟩ | ⟨w, hclosed, hsome, hhist⟩
    · refine ⟨_, _, hkept, (List.append_assoc _ _ _).symm, ?_⟩
      rw [hnone, hhist]
      simp [s']
    · refine ⟨_, _, hclosed, ?_, ?_⟩
      · simp
      · rw [hsome, hhist]
        simp [s']
  · rw [if_neg hfull]
    refine ⟨_, _, hqueued, (List.append_assoc _ _ _).symm, ?_⟩
    simp [s']

end Batched

/-! ## Sequences of calls -/

/-- What the owner of a service can ask of it. -/
inductive AnchorCall where
  | recordBlock (blockId : Hash) (height : UInt64)
  | flush

/-- The block a call records. -/
def AnchorCall.fed : AnchorCall → Fed
  | .recordBlock blockId height => [(blockId, height)]
  | .flush => []

/-- Everything some calls record, in order. -/
def fedBy (calls : List AnchorCall) : Fed := calls.flatMap AnchorCall.fed

namespace AnchorService

variable {B : AnchorBackend}

def call (C : Crypto) (s : AnchorService B) : AnchorCall → AnchorService B × Option AnchorRecord
  | .recordBlock blockId height => s.recordBlock C blockId height
  | .flush => s.flush C

/-- The service after some calls. -/
def run (C : Crypto) (s : AnchorService B) : List AnchorCall → AnchorService B
  | [] => s
  | c :: calls => run C (s.call C c).1 calls

/-- A flush publishes nothing and changes at most the backend, or it closes the
pending window with the receipt of the backend. -/
theorem flush_cases (s : AnchorService B) :
    (∃ backend, s.flush C = ({ s with backend }, none)) ∨
    ∃ backend w checkpoint, B.anchor s.backend checkpoint = (.ok w.record.receipt, backend) ∧
      w.record.checkpointRoot = checkpoint.root ∧ s.flush C = ({ s with
        backend
        pendingIds := []
        pendingFrom := none
        history := s.history ++ [w] }, some w.record) := by
  rcases s with ⟨backend, interval, hpos, ids, from?, toHeight, history⟩
  cases from? with
  | none => exact Or.inl ⟨backend, rfl⟩
  | some fromHeight =>
      simp only [flush]
      cases Checkpoint.fromBlockIds C ids fromHeight toHeight with
      | none => exact Or.inl ⟨backend, rfl⟩
      | some checkpoint =>
          dsimp only
          rcases hanchor : B.anchor backend checkpoint with ⟨result, backend'⟩
          cases result with
          | error err => exact Or.inl ⟨backend', rfl⟩
          | ok receipt =>
              right
              exact ⟨backend', ⟨ids, fromHeight, toHeight, _⟩, checkpoint, hanchor, rfl, rfl⟩

/-- A call that publishes nothing only adds what it records. -/
theorem call_eq_none {s : AnchorService B} {c : AnchorCall} (h : (s.call C c).2 = none) :
    (s.call C c).1.history = s.history ∧
      (s.call C c).1.pendingIds = s.pendingIds ++ c.fed.map Prod.fst := by
  cases c with
  | recordBlock blockId height =>
      let s' : AnchorService B := { s with
        pendingFrom := some (s.pendingFrom.getD height)
        pendingTo := height
        pendingIds := s.pendingIds ++ [blockId] }
      -- a call that publishes closes a window, and none was
      have hcall : s.call C (.recordBlock blockId height) =
          if s'.interval ≤ s'.pendingIds.length then s'.flush C else (s', none) := rfl
      rw [hcall] at h ⊢
      by_cases hfull : s'.interval ≤ s'.pendingIds.length
      · rw [if_pos hfull] at h ⊢
        rcases s'.flush_cases (C := C) with ⟨backend, heq⟩ | ⟨_, w, _, _, _, heq⟩
        · rw [heq]
          exact ⟨rfl, rfl⟩
        · rw [heq] at h
          cases h
      · rw [if_neg hfull]
        exact ⟨rfl, rfl⟩
  | flush =>
      have hcall : s.call C .flush = s.flush C := rfl
      rw [hcall] at h ⊢
      rcases s.flush_cases (C := C) with ⟨backend, heq⟩ | ⟨_, w, _, _, _, heq⟩
      · rw [heq]
        exact ⟨rfl, (List.append_nil _).symm⟩
      · rw [heq] at h
        cases h

end AnchorService

namespace Batched

variable {B : AnchorBackend} {s : AnchorService B} {windows : List Fed} {pending : Fed}

theorem call (h : Batched C s windows pending) (c : AnchorCall) :
    ∃ windows' pending', Batched C (s.call C c).1 windows' pending' ∧
      windows'.flatten ++ pending' = windows.flatten ++ pending ++ c.fed := by
  cases c with
  | recordBlock blockId height =>
      rcases h.recordBlock blockId height with ⟨windows', pending', hbatched, hfed, _⟩
      exact ⟨windows', pending', hbatched, hfed⟩
  | flush =>
      rcases h.flush with ⟨hkept, _, _⟩ | ⟨_, hclosed, _, _⟩
      · exact ⟨_, _, hkept, (List.append_nil _).symm⟩
      · exact ⟨_, _, hclosed, by simp [AnchorCall.fed]⟩

theorem run (h : Batched C s windows pending) (calls : List AnchorCall) :
    ∃ windows' pending', Batched C (s.run C calls) windows' pending' ∧
      windows'.flatten ++ pending' = windows.flatten ++ pending ++ fedBy calls := by
  induction calls generalizing s windows pending with
  | nil => exact ⟨windows, pending, h, (List.append_nil _).symm⟩
  | cons c calls ih =>
      rcases h.call c with ⟨windows₁, pending₁, hnext, hfed₁⟩
      rcases ih hnext with ⟨windows₂, pending₂, hend, hfed₂⟩
      refine ⟨windows₂, pending₂, hend, ?_⟩
      rw [hfed₂, hfed₁, List.append_assoc]
      rfl

/-- The ids in the published windows are those of the recorded blocks. -/
theorem history_ids {history : List Window} (h : List.Forall₂ (Window.Of C) windows history) :
    history.flatMap (·.blockIds) = windows.flatten.map Prod.fst := by
  induction h with
  | nil => rfl
  | @cons fed w _ _ hof _ ih =>
      rw [List.flatMap_cons, List.flatten_cons, List.map_append, ih, hof.ids]

theorem window_ne_nil (h : Batched C s windows pending) {w : Window} (hw : w ∈ s.history) :
    w.blockIds ≠ [] := by
  rcases List.mem_iff_getElem.mp hw with ⟨i, hi, rfl⟩
  have hof := List.Forall₂.get h.history (h.history.length_eq ▸ hi) hi
  rw [List.get_eq_getElem, List.get_eq_getElem] at hof
  rw [hof.ids]
  exact fun hnil => hof.spans.ne_nil (List.map_eq_nil_iff.mp hnil)

theorem pendingFrom_eq_none_iff (h : Batched C s windows pending) :
    s.pendingFrom = none ↔ s.pendingIds = [] := by
  rw [h.none_iff, h.ids, List.map_eq_nil_iff]

end Batched

/-- Whatever a service is asked to do and however its backend answers: the ids
in its windows and then the pending ones are the recorded ids; the recorded
blocks are cut up into the windows, which have the heights and the roots of
their blocks and are not empty, and the rest; and a publication that fails
changes neither the history nor the pending ids. -/
theorem anchoring_lossless {B : AnchorBackend} (backend : B.State) (interval : Nat)
    (hpos : 1 ≤ interval) (calls : List AnchorCall) (s : AnchorService B)
    (hs : s = (AnchorService.new backend interval hpos).run C calls) :
    s.history.flatMap (·.blockIds) ++ s.pendingIds = (fedBy calls).map Prod.fst ∧
    (∃ windows pending, windows.flatten ++ pending = fedBy calls ∧
      List.Forall₂ (Window.Of C) windows s.history ∧ s.pendingIds = pending.map Prod.fst) ∧
    (∀ w ∈ s.history, w.blockIds ≠ []) ∧
    (s.pendingFrom = none ↔ s.pendingIds = []) ∧
    ∀ c, (s.call C c).2 = none → (s.call C c).1.history = s.history ∧
      (s.call C c).1.pendingIds = s.pendingIds ++ c.fed.map Prod.fst := by
  subst hs
  rcases (Batched.new (C := C) backend interval hpos).run calls with
    ⟨windows, pending, hbatched, hfed⟩
  rw [List.flatten_nil, List.nil_append, List.nil_append] at hfed
  refine ⟨?_, ⟨windows, pending, hfed, hbatched.history, hbatched.ids⟩, ?_, ?_, ?_⟩
  · rw [Batched.history_ids hbatched.history, hbatched.ids, ← List.map_append, hfed]
  · exact fun w hw => hbatched.window_ne_nil hw
  · exact hbatched.pendingFrom_eq_none_iff
  · exact fun c hnone => AnchorService.call_eq_none hnone

/-- A backend that is up and down as it is told. -/
def scriptedAnchor : AnchorBackend where
  State := List Bool
  anchor script checkpoint :=
    if script.headD true then
      (.ok { backend := "script", reference := "", checkpointRoot := checkpoint.root }, script.tail)
    else (.error (.io "down"), script.tail)

/-- Two blocks are recorded while the backend is down; the window closes over
three, and a fourth block waits. -/
theorem anchoring_lossless_retry :
    ∃ s : AnchorService scriptedAnchor,
      s = (AnchorService.new [false, true] 2 (by decide)).run sample [.recordBlock ⟨7⟩ 1,
        .recordBlock ⟨8⟩ 2, .recordBlock ⟨9⟩ 3, .recordBlock ⟨10⟩ 4] ∧
      s.history.map (fun w => (w.blockIds, w.fromHeight, w.toHeight)) =
        [([⟨7⟩, ⟨8⟩, ⟨9⟩], 1, 3)] ∧
      s.pendingFrom ≠ none := by
  refine ⟨_, rfl, by decide +kernel, ?_⟩
  intro hnone
  have hids := (anchoring_lossless _ _ _ _ _ rfl).2.2.2.1.mp hnone
  revert hids
  decide +kernel

end SmartLedger
