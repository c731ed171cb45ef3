import SmartLedger.Anchor.Service
import SmartLedger.Node.Client

/-! # The node with anchoring

With anchoring enabled the loop feeds the anchoring service with every block
it commits, right after storing it. Blocks that arrive by catch-up are stored
as well, but nothing feeds them to the service.

`anchored_windows_contiguous`: in a run in which no block arrives by catch-up
once the service has been fed its first block, every published record covers
exactly the stored blocks of its heights, and consecutive records are
adjacent.
-/

namespace SmartLedger

open Engine

variable {C : Crypto} {B : AnchorBackend} {ord : IterOrder}

/-- A node with its anchoring service and the records it has published. -/
structure AnchoredNode (C : Crypto) (B : AnchorBackend) where
  node : Node C
  service : AnchorService B
  records : List AnchorRecord

namespace AnchoredNode

/-- What carrying out effects does to the service and to the records. -/
def feed (service : AnchorService B) (records : List AnchorRecord) :
    List (Effect C) → AnchorService B × List AnchorRecord
  | [] => (service, records)
  | .committed block :: rest =>
      let (service, record) := service.recordBlock C (block.header.id C) block.header.height
      feed service (records ++ record.toList) rest
  | .broadcast _ :: rest => feed service records rest
  | .scheduleTimeout _ _ _ :: rest => feed service records rest

/-- `Node::with_anchor`. -/
def withAnchor (node : Node C) (service : AnchorService B) : AnchoredNode C B :=
  { node, service, records := [] }

/-- Carry out the effects of a dispatched event. -/
def finish (n : AnchoredNode C B) (node : Node C) (out : List (Effect C))
    (sent : List (Action C)) : Exec (AnchoredNode C B × List (Action C)) := do
  let (node, acts) ← Node.finish node out sent
  let (service, records) := feed n.service n.records out
  return ({ node, service, records }, acts)

/-- The first thing the loop does. -/
def begin (ord : IterOrder) (now : UInt64) (n : AnchoredNode C B) :
    Exec (AnchoredNode C B × List (Action C)) := do
  let (engine, out) ← (n.node.engine.setTime now).start ord
  n.finish { n.node with engine } out []

/-- One pass of the loop. -/
def handle (ord : IterOrder) (now : UInt64) (n : AnchoredNode C B) (ev : NodeEvent C) :
    Exec (AnchoredNode C B × List (Action C)) := do
  let (node, out, sent) ← Node.dispatch ord { n.node with engine := n.node.engine.setTime now } ev
  n.finish node out sent

/-- Anchoring does not change what the loop does otherwise. -/
theorem handle_node {n n' : AnchoredNode C B} {now : UInt64} {ev : NodeEvent C}
    {acts : List (Action C)} (h : n.handle ord now ev = .ok (n', acts)) :
    n.node.handle ord now ev = .ok (n'.node, acts) := by
  unfold handle finish at h
  simp only [Exec.bind_eq_ok] at h
  rcases h with ⟨⟨node, out, sent⟩, hdispatch, ⟨node', acts'⟩, hfinish, h⟩
  rcases Exec.ok_pair h with ⟨rfl, rfl⟩
  unfold Node.handle
  rw [Exec.bind_eq_ok]
  exact ⟨_, hdispatch, hfinish⟩

theorem begin_node {n n' : AnchoredNode C B} {now : UInt64} {acts : List (Action C)}
    (h : n.begin ord now = .ok (n', acts)) : n.node.begin ord now = .ok (n'.node, acts) := by
  unfold begin finish at h
  simp only [Exec.bind_eq_ok] at h
  rcases h with ⟨⟨engine, out⟩, hstart, ⟨node, acts'⟩, hfinish, h⟩
  rcases Exec.ok_pair h with ⟨rfl, rfl⟩
  unfold Node.begin
  rw [Exec.bind_eq_ok]
  exact ⟨_, hstart, hfinish⟩

end AnchoredNode

/-! ## What is stored and what is fed -/

/-- An id with its height. -/
def Block.tag (b : Block C) : Hash × UInt64 := (b.header.id C, b.header.height)

/-- The service has been fed `fed` since the node started, and the records
are those of its history. -/
structure Feeding (n : AnchoredNode C B) (windows : List Fed) (pending : Fed)
    (fed : List (Block C)) : Prop where
  batched : Batched C n.service windows pending
  fed : windows.flatten ++ pending = fed.map Block.tag
  records : n.records = n.service.history.map (·.record)

namespace Feeding

variable {n : AnchoredNode C B} {windows : List Fed} {pending : Fed} {fed : List (Block C)}

/-- Effects feed the service with the blocks they commit. -/
theorem feed (h : Feeding n windows pending fed) (node : Node C) (out : List (Effect C)) :
    ∃ windows' pending', Feeding
      { node
        service := (AnchoredNode.feed n.service n.records out).1
        records := (AnchoredNode.feed n.service n.records out).2 }
      windows' pending' (fed ++ finalized (effects out)) := by
  induction out generalizing n windows pending fed with
  | nil =>
      refine ⟨windows, pending, h.batched, ?_, h.records⟩
      rw [h.fed, effects_nil, finalized_nil, List.append_nil]
  | cons x rest ih =>
      cases x with
      | broadcast msg => exact ih h
      | scheduleTimeout height round kind => exact ih h
      | committed block =>
          rcases h.batched.recordBlock (block.header.id C) block.header.height with
            ⟨windows₁, pending₁, hbatched, hfed, hrecords⟩
          -- a committed block is fed, and what it closes is recorded
          have hstep : Feeding
              { node := n.node
                service := (n.service.recordBlock C (block.header.id C) block.header.height).1
                records := n.records ++
                  (n.service.recordBlock C (block.header.id C) block.header.height).2.toList }
              windows₁ pending₁ (fed ++ [block]) := by
            refine ⟨hbatched, ?_, ?_⟩
            · rw [hfed, h.fed, List.map_append]
              rfl
            · rw [h.records]
              exact hrecords.symm
          have hrest := ih hstep
          rw [List.append_assoc] at hrest
          exact hrest

end Feeding

/-- No block of the batch is the next one, valid and certified. -/
def Quiet (e : Engine C) (bs : List (Block C)) : Prop :=
  ∀ b ∈ bs, b.value.isValid e.tip e.height e.currentSet = true →
    b.qc.verify b.header e.currentSet ≠ .ok ()

/-- A quiet batch changes nothing. -/
theorem applyBatch_quiet {n n' : Node C} {bs : List (Block C)} {applied : Bool}
    (hquiet : Quiet n.engine bs) (h : n.applyBatch bs = .ok (n', applied)) :
    n' = n ∧ applied = false := by
  induction bs with
  | nil => exact Exec.ok_pair h
  | cons b rest ih =>
      have hrest : Quiet n.engine rest := fun b hb => hquiet b (List.mem_cons_of_mem _ hb)
      unfold Node.applyBatch at h
      split at h
      · rw [Exec.bind_eq_ok] at h
        rcases h with ⟨res, hsync, h⟩
        cases res with
        | ok engine =>
            rcases applySyncedBlock_cases hsync with ⟨hvalid, hqc, _⟩
            exact absurd hqc (hquiet b List.mem_cons_self hvalid)
        | error err => exact Exec.ok_pair h
      · exact ih hrest h

/-- Only a catch-up batch stores anything before the effects are carried
out. -/
theorem dispatch_store {n n' : Node C} {ev : NodeEvent C} {out : List (Effect C)}
    {sent : List (Action C)} (h : n.dispatch ord ev = .ok (n', out, sent)) :
    (∃ applied, n'.store = n.store ++ applied) ∧
      ((∀ bs, ev = .wire (.blocks bs) → Quiet n.engine bs) → n'.store = n.store) := by
  have hbatched : ∀ {bs : List (Block C)} {n₁ : Node C} {applied : Bool},
      n.applyBatch (bs.insertionSort fun a b => a.header.height.toNat ≤ b.header.height.toNat) =
        .ok (n₁, applied) →
      (∃ applied, n₁.store = n.store ++ applied) ∧ (Quiet n.engine bs → n₁.store = n.store) := by
    intro bs n₁ applied hbatch
    have hfollows : Node.FollowsBy anyEvent n n₁ :=
      Node.applyBatch_follows ord (fun _ _ _ => trivial) hbatch
    rcases hfollows with ⟨_, log, _, hgrown⟩
    refine ⟨⟨finalized log, hgrown⟩, ?_⟩
    intro hquiet
    -- the batch is applied in the order of the heights
    have hsorted : Quiet n.engine (bs.insertionSort
        fun a b => a.header.height.toNat ≤ b.header.height.toNat) := by
      intro b hb
      rw [List.mem_insertionSort] at hb
      exact hquiet b hb
    rw [(applyBatch_quiet hsorted hbatch).1]
  have hsame : (∃ applied, n.store = n.store ++ applied) ∧
      ((∀ bs, ev = .wire (.blocks bs) → Quiet n.engine bs) → n.store = n.store) :=
    ⟨⟨[], (List.append_nil _).symm⟩, fun _ => rfl⟩
  cases Node.dispatch_cases h with
  | fed => exact hsame
  | idle => exact hsame
  | regossip => exact hsame
  | resumed hbatch => exact ⟨(hbatched hbatch).1, fun hquiet => (hbatched hbatch).2 (hquiet _ rfl)⟩
  | unapplied hbatch => exact ⟨(hbatched hbatch).1, fun hquiet => (hbatched hbatch).2 (hquiet _ rfl)⟩

/-! ## Runs -/

/-- The service has not been fed any block yet. -/
def AnchorService.Untouched (s : AnchorService B) : Prop := s.pendingFrom = none ∧ s.history = []

/-- No block arrives by catch-up once the service has been fed its first
block. -/
def NoLateCatchUp (n : AnchoredNode C B) (ev : NodeEvent C) : Prop :=
  n.service.Untouched ∨ ∀ bs, ev = .wire (.blocks bs) → Quiet n.node.engine bs

/-- No restriction on the events. -/
def anyPass : AnchoredNode C B → NodeEvent C → Prop := fun _ _ => True

/-- The states of the loop with anchoring, after its start and after every
handled event. -/
inductive AnchoredRun (guard : AnchoredNode C B → NodeEvent C → Prop) (n₀ : AnchoredNode C B) :
    AnchoredNode C B → Prop where
  | start {n : AnchoredNode C B} {acts : List (Action C)} {ord : IterOrder} {now : UInt64}
      (h : n₀.begin ord now = .ok (n, acts)) : AnchoredRun guard n₀ n
  | step {n n' : AnchoredNode C B} {ev : NodeEvent C} {acts : List (Action C)} {ord : IterOrder}
      {now : UInt64} (h : AnchoredRun guard n₀ n) (hguard : guard n ev)
      (hstep : n.handle ord now ev = .ok (n', acts)) : AnchoredRun guard n₀ n'

/-- The service has been fed a final part of the store. -/
def FedSuffix (n : AnchoredNode C B) : Prop :=
  ∃ before windows pending fed, Feeding n windows pending fed ∧ n.node.store = before ++ fed

theorem FedSuffix.finish {n n' : AnchoredNode C B} {node : Node C} {out : List (Effect C)}
    {sent acts : List (Action C)} {before : List (Block C)} {windows : List Fed} {pending : Fed}
    {fed : List (Block C)} (hfeeding : Feeding n windows pending fed)
    (hstore : node.store = before ++ fed)
    (h : n.finish node out sent = .ok (n', acts)) : FedSuffix n' := by
  unfold AnchoredNode.finish at h
  rw [Exec.bind_eq_ok] at h
  rcases h with ⟨⟨node', acts'⟩, hfinish, h⟩
  rcases Exec.ok_pair h with ⟨rfl, _⟩
  rcases Node.finish_eq_ok hfinish with ⟨_, hstore'⟩
  rcases hfeeding.feed node' out with ⟨windows', pending', hfeeding'⟩
  refine ⟨before, windows', pending', _, hfeeding', ?_⟩
  show node'.store = _
  rw [hstore', hstore, List.append_assoc]

/-- A run without late catch-up keeps the fed blocks at the end of the store. -/
theorem AnchoredRun.fedSuffix {node : Node C} {backend : B.State} {interval : Nat}
    {hpos : 1 ≤ interval} {n : AnchoredNode C B}
    (h : AnchoredRun NoLateCatchUp
      (AnchoredNode.withAnchor node (AnchorService.new backend interval hpos)) n) :
    FedSuffix n := by
  induction h with
  | start h =>
      unfold AnchoredNode.begin at h
      rw [Exec.bind_eq_ok] at h
      rcases h with ⟨⟨engine, out⟩, _, hfinish⟩
      have hnew : Feeding (AnchoredNode.withAnchor node (AnchorService.new backend interval hpos))
          [] [] ([] : List (Block C)) := ⟨Batched.new backend interval hpos, rfl, rfl⟩
      exact FedSuffix.finish hnew (List.append_nil _).symm hfinish
  | @step n n' ev _ _ now _ hguard hstep ih =>
      rcases ih with ⟨before, windows, pending, fed, hfeeding, hstore⟩
      unfold AnchoredNode.handle at hstep
      rw [Exec.bind_eq_ok] at hstep
      rcases hstep with ⟨⟨node', out, sent⟩, hdispatch, hfinish⟩
      rcases dispatch_store hdispatch with ⟨⟨applied, happlied⟩, hquiet⟩
      rcases hguard with huntouched | hnone
      · -- nothing was fed, so the blocks of the batch go before everything
        have hwindows : windows = [] := by
          have hhist := hfeeding.batched.history
          rw [huntouched.2] at hhist
          exact List.forall₂_nil_right_iff.mp hhist
        have hfed : fed = [] := by
          have h := hfeeding.fed
          rw [hwindows, hfeeding.batched.none_iff.mp huntouched.1] at h
          exact List.map_eq_nil_iff.mp h.symm
        subst hfed
        rw [List.append_nil] at hstore
        have hgrown : node'.store = (n.node.store ++ applied) ++ [] := by
          rw [List.append_nil]
          exact happlied
        exact FedSuffix.finish hfeeding hgrown hfinish
      -- or the batch applied nothing
      · have hkept : node'.store = before ++ fed := by
          rw [← hstore]
          exact hquiet hnone
        exact FedSuffix.finish hfeeding hkept hfinish

/-- The loop with anchoring is the loop. -/
theorem AnchoredRun.nodeRun {guard : AnchoredNode C B → NodeEvent C → Prop}
    {n₀ n : AnchoredNode C B} (h : AnchoredRun guard n₀ n) : NodeRun n₀.node n.node := by
  induction h with
  | start h => exact NodeRun.start (AnchoredNode.begin_node h)
  | step _ _ hstep ih => exact NodeRun.step ih (AnchoredNode.handle_node hstep)

/-! ## Numbered stores -/

/-- The blocks are numbered from 1 on. -/
def Numbered (bs : List (Block C)) : Prop :=
  ∀ i b, bs[i]? = some b → b.header.height.toNat = i + 1

theorem Numbered.of_chain {genesis : List C.VerifyingKey} {bs : List (Block C)}
    (h : Chain (genesisState genesis) bs) : Numbered bs := by
  intro i b hb
  have hheight := (Chain.block_at h hb).1
  rw [hheight]
  exact Nat.add_comm 1 i

/-- The blocks of a range of heights, in the order they are stored. -/
def blocksAt (bs : List (Block C)) (fromHeight toHeight : UInt64) : List (Block C) :=
  bs.filter fun b => fromHeight ≤ b.header.height ∧ b.header.height ≤ toHeight

namespace Numbered

variable {before window after : List (Block C)} (h : Numbered (before ++ (window ++ after)))
include h

theorem before_le {b : Block C} (hb : b ∈ before) : b.header.height.toNat ≤ before.length := by
  rcases List.mem_iff_getElem?.mp hb with ⟨i, hi⟩
  have hlt := (List.getElem?_eq_some_iff.mp hi).1
  rw [h i b (by rw [List.getElem?_append_left hlt, hi])]
  omega

theorem window_at {i : Nat} {b : Block C} (hb : window[i]? = some b) :
    b.header.height.toNat = before.length + i + 1 := by
  have hlt := (List.getElem?_eq_some_iff.mp hb).1
  apply h (before.length + i)
  rw [List.getElem?_append_right (by omega), Nat.add_sub_cancel_left,
    List.getElem?_append_left hlt, hb]

theorem after_lt {b : Block C} (hb : b ∈ after) :
    before.length + window.length < b.header.height.toNat := by
  rcases List.mem_iff_getElem?.mp hb with ⟨i, hi⟩
  have hheight := h (before.length + (window.length + i)) b (by
    rw [List.getElem?_append_right (by omega), Nat.add_sub_cancel_left,
      List.getElem?_append_right (by omega), Nat.add_sub_cancel_left, hi])
  omega

theorem heights : window.map (·.header.height.toNat) =
    List.range' (before.length + 1) window.length := by
  apply List.ext_getElem?
  intro i
  rw [List.getElem?_map]
  by_cases hlt : i < window.length
  · have hb : window[i]? = some window[i] := List.getElem?_eq_getElem hlt
    rw [hb, List.getElem?_range' hlt]
    have hheight := h.window_at hb
    simp only [Option.map_some, Option.some.injEq]
    omega
  · rw [List.getElem?_eq_none (by omega), List.getElem?_eq_none (by simpa using hlt)]
    rfl

/-- A window is what is stored at its heights. -/
theorem blocksAt_eq {fromHeight toHeight : UInt64}
    (hfrom : fromHeight.toNat = before.length + 1)
    (hto : toHeight.toNat = before.length + window.length) :
    blocksAt (before ++ (window ++ after)) fromHeight toHeight = window := by
  unfold blocksAt
  rw [List.filter_append, List.filter_append]
  -- the heights count the blocks: below, inside and above the window
  have hbefore : before.filter (fun b => decide (fromHeight ≤ b.header.height ∧
      b.header.height ≤ toHeight)) = [] := by
    rw [List.filter_eq_nil_iff]
    intro b hb
    have hle := h.before_le hb
    rw [decide_eq_true_eq, UInt64.le_iff_toNat_le]
    omega
  have hwindow : window.filter (fun b => decide (fromHeight ≤ b.header.height ∧
      b.header.height ≤ toHeight)) = window := by
    rw [List.filter_eq_self]
    intro b hb
    rcases List.mem_iff_getElem?.mp hb with ⟨i, hi⟩
    have hlt := (List.getElem?_eq_some_iff.mp hi).1
    have hheight := h.window_at hi
    rw [decide_eq_true_eq, UInt64.le_iff_toNat_le, UInt64.le_iff_toNat_le]
    omega
  have hafter : after.filter (fun b => decide (fromHeight ≤ b.header.height ∧
      b.header.height ≤ toHeight)) = [] := by
    rw [List.filter_eq_nil_iff]
    intro b hb
    have hlt := h.after_lt hb
    rw [decide_eq_true_eq, UInt64.le_iff_toNat_le, UInt64.le_iff_toNat_le]
    omega
  rw [hbefore, hwindow, hafter, List.append_nil, List.nil_append]

end Numbered

/-! ## Records -/

/-- The record covers the heights it names, all of them, and its root is that
of the blocks stored there. -/
structure AnchorRecord.Covers (C : Crypto) (r : AnchorRecord) (store : List (Block C)) :
    Prop where
  heights : (blocksAt store r.fromHeight r.toHeight).map (·.header.height.toNat) =
    List.range' r.fromHeight.toNat (r.toHeight.toNat + 1 - r.fromHeight.toNat)
  nonempty : r.fromHeight ≤ r.toHeight
  root : r.checkpointRoot =
    Checkpoint.rootOf C ((blocksAt store r.fromHeight r.toHeight).map (·.header.id C))

/-- A window inside what was fed is a part of the store, and its record is of
exactly that part. -/
theorem Feeding.window {n : AnchoredNode C B} {windows : List Fed} {pending : Fed}
    {fed before : List (Block C)} (h : Feeding n windows pending fed)
    (hnumbered : Numbered (before ++ fed)) {i : Nat} {r : AnchorRecord}
    (hr : n.records[i]? = some r) :
    ∃ w, windows[i]? = some w ∧
      r.fromHeight.toNat = before.length + (windows.take i).flatten.length + 1 ∧
      r.toHeight.toNat = before.length + (windows.take i).flatten.length + w.length ∧
      w ≠ [] ∧ r.Covers C (before ++ fed) := by
  rw [h.records, List.getElem?_map, Option.map_eq_some_iff] at hr
  rcases hr with ⟨win, hwin, rfl⟩
  have hlt : i < windows.length := by
    rw [h.batched.history.length_eq]
    exact (List.getElem?_eq_some_iff.mp hwin).1
  have hw : windows[i]? = some windows[i] := List.getElem?_eq_getElem hlt
  have hof : Window.Of C windows[i] win := by
    have hget := List.Forall₂.get h.batched.history hlt
      (List.getElem?_eq_some_iff.mp hwin).1
    simpa [(List.getElem?_eq_some_iff.mp hwin).2] using hget
  -- cut the fed blocks as the service has cut them
  have hcut : fed.map Block.tag =
      (windows.take i).flatten ++ (windows[i] ++ ((windows.drop (i + 1)).flatten ++ pending)) := by
    rw [← h.fed, ← List.append_assoc, ← List.append_assoc, List.append_assoc,
      ← List.append_assoc]
    congr 1
    have hsplit : windows = windows.take i ++ (windows[i] :: windows.drop (i + 1)) := by
      rw [List.getElem_cons_drop, List.take_append_drop]
    nth_rewrite 1 [hsplit]
    rw [List.flatten_append, List.flatten_cons, List.append_assoc]
  rcases List.map_eq_append_iff.mp hcut with ⟨left, rest, rfl, hleft, hrest⟩
  rcases List.map_eq_append_iff.mp hrest with ⟨window, right, rfl, hwindow, _⟩
  rw [← List.append_assoc] at hnumbered
  have hleftLen : left.length = (windows.take i).flatten.length := by
    rw [← hleft, List.length_map]
  have hwinLen : window.length = windows[i].length := by
    rw [← hwindow, List.length_map]
  have hne : window ≠ [] := by
    intro hnil
    apply hof.spans.ne_nil
    rw [← hwindow, hnil]
    rfl
  have hpos : 0 < window.length := List.length_pos_iff.mpr hne
  have hfrom : win.fromHeight.toNat = (before ++ left).length + 1 := by
    have hfirst := hof.spans.first
    rw [← hwindow, List.head?_map, Option.map_map, List.head?_eq_getElem?] at hfirst
    rcases Option.map_eq_some_iff.mp hfirst with ⟨b, hb, hheight⟩
    rw [← hheight]
    exact hnumbered.window_at hb
  have hto : win.toHeight.toNat = (before ++ left).length + window.length := by
    have hlast := hof.spans.last
    rw [← hwindow, List.getLast?_map, Option.map_map, List.getLast?_eq_getElem?] at hlast
    rcases Option.map_eq_some_iff.mp hlast with ⟨b, hb, hheight⟩
    rw [← hheight]
    have h := hnumbered.window_at hb
    show b.header.height.toNat = _
    omega
  have hblocks : blocksAt (before ++ (left ++ (window ++ right))) win.fromHeight win.toHeight =
      window := by
    rw [← List.append_assoc]
    exact hnumbered.blocksAt_eq hfrom hto
  have hlen : (before ++ left).length = before.length + (windows.take i).flatten.length := by
    rw [List.length_append, hleftLen]
  refine ⟨windows[i], hw, ?_, ?_, hof.spans.ne_nil, ?_⟩
  · rw [hof.recordFrom, hfrom, hlen]
  · rw [hof.recordTo, hto, hlen, hwinLen]
  · refine ⟨?_, ?_, ?_⟩
    · rw [hof.recordFrom, hof.recordTo, hblocks, hnumbered.heights, hfrom, hto]
      congr 1
      omega
    · rw [hof.recordFrom, hof.recordTo, UInt64.le_iff_toNat_le]
      omega
    · rw [hof.recordFrom, hof.recordTo, hblocks, hof.root, hof.ids, ← hwindow, List.map_map]
      rfl

/-- In every run of the loop in which no block arrives by catch-up once the
service has been fed its first block, and whatever the backend answers, each
published record is of exactly the stored blocks of its heights, and each
record starts where the one before it ended. -/
theorem anchored_windows_contiguous {genesis : List C.VerifyingKey} {meSk : C.SigningKey}
    {mePk : C.VerifyingKey} {store : List (Block C)} {baseTimeout : Nat} {n₀ : Node C}
    (hstore : Chain (genesisState genesis) store)
    (hnew : Node.new genesis meSk mePk store baseTimeout = .ok n₀) (backend : B.State)
    (interval : Nat) (hpos : 1 ≤ interval) :
    ∀ n, AnchoredRun NoLateCatchUp
        (AnchoredNode.withAnchor n₀ (AnchorService.new backend interval hpos)) n →
      (∀ r ∈ n.records, r.Covers C n.node.store) ∧
      ∀ i r r', n.records[i]? = some r → n.records[i + 1]? = some r' →
        r'.fromHeight.toNat = r.toHeight.toNat + 1 := by
  intro n hrun
  unfold Node.new at hnew
  rw [Exec.bind_eq_ok] at hnew
  rcases hnew with ⟨e₀, hbuild, hnew⟩
  obtain rfl := Except.ok.inj hnew
  -- the engine comes from the store, in round 0
  have hround : e₀.round = 0 ∧ e₀.step = .propose := by
    rcases Exec.bind_eq_ok.mp hbuild with ⟨height, _, hwith⟩
    rcases Engine.withRegistry_eq_ok hwith with ⟨set, _, rfl⟩
    exact ⟨rfl, rfl⟩
  rcases hrun.nodeRun.follows hround with ⟨evs, log, hengine, hgrown⟩
  have hon := (OnChain.rebuild hstore hbuild).run hengine
  have hchain : Chain (genesisState genesis) n.node.store := by
    rw [hgrown]
    exact hon.chain
  rcases hrun.fedSuffix with ⟨before, windows, pending, fed, hfeeding, hsplit⟩
  have hnumbered : Numbered (before ++ fed) := by
    rw [← hsplit]
    exact Numbered.of_chain hchain
  rw [hsplit]
  constructor
  · intro r hr
    rcases List.mem_iff_getElem?.mp hr with ⟨i, hi⟩
    rcases hfeeding.window hnumbered hi with ⟨_, _, _, _, _, hcovers⟩
    exact hcovers
  · intro i r r' hr hr'
    rcases hfeeding.window hnumbered hr with ⟨w, hw, _, hto, _, _⟩
    rcases hfeeding.window hnumbered hr' with ⟨_, _, hfrom', _, _, _⟩
    -- between them lies the one window that starts the second record
    have htake : (windows.take (i + 1)).flatten.length =
        (windows.take i).flatten.length + w.length := by
      rw [List.take_add_one, hw, List.flatten_append, List.length_append]
      simp
    rw [hfrom', hto, htake]
    omega

instance Quiet.decidable (e : Engine C) (bs : List (Block C)) : Decidable (Quiet e bs) := by
  unfold Quiet
  infer_instance

instance NoLateCatchUp.decidable (n : AnchoredNode C B) :
    (ev : NodeEvent C) → Decidable (NoLateCatchUp n ev)
  | .wire (.blocks bs) =>
      decidable_of_iff ((n.service.pendingFrom.isNone ∧ n.service.history.isEmpty = true) ∨
        Quiet n.node.engine bs) (by simp [NoLateCatchUp, AnchorService.Untouched])
  | .wire (.consensus _) | .wire (.getBlocks _) | .wire (.attestation _) | .wire (.governance _)
  | .timeout _ _ _ | .submit _ | .submitGovernance _ | .addPeer _ | .regossip | .syncPoll =>
      .isTrue (by simp [NoLateCatchUp])

instance anyPass.decidable (n : AnchoredNode C B) (ev : NodeEvent C) :
    Decidable (anyPass n ev) := inferInstanceAs (Decidable True)

section

variable {guard : AnchoredNode C B → NodeEvent C → Prop} [∀ n ev, Decidable (guard n ev)]

/-- Handle events one after the other while they meet the guard; with whether
the end was reached. -/
def AnchoredNode.handleWhile (ord : IterOrder) (now : UInt64)
    (guard : AnchoredNode C B → NodeEvent C → Prop) [∀ n ev, Decidable (guard n ev)]
    (n : AnchoredNode C B) :
    List (AnchoredNode C B → NodeEvent C) → Exec (AnchoredNode C B × Bool)
  | [] => .ok (n, true)
  | ev :: evs =>
      if guard n (ev n) then do
        let (n, _) ← n.handle ord now (ev n)
        handleWhile ord now guard n evs
      else .ok (n, false)

theorem AnchoredRun.of_handleWhile {ord : IterOrder} {n₀ n n' : AnchoredNode C B}
    {evs : List (AnchoredNode C B → NodeEvent C)} {now : UInt64} (h : AnchoredRun guard n₀ n)
    (hall : n.handleWhile ord now guard evs = .ok (n', true)) : AnchoredRun guard n₀ n' := by
  induction evs generalizing n with
  | nil =>
      rcases Exec.ok_pair hall with ⟨rfl, _⟩
      exact h
  | cons ev evs ih =>
      unfold AnchoredNode.handleWhile at hall
      split at hall
      · next hguard =>
          rw [Exec.bind_eq_ok] at hall
          rcases hall with ⟨⟨n₁, acts⟩, hhandle, hrest⟩
          exact ih (AnchoredRun.step h hguard hhandle) hrest
      · cases (Exec.ok_pair hall).2

end

/-- The lone validator's node, anchoring every two blocks, handles some events
that meet the guard. -/
def sampleAnchored
    (guard : AnchoredNode sample mockAnchor → NodeEvent sample → Prop)
    [∀ n ev, Decidable (guard n ev)]
    (evs : List (AnchoredNode sample mockAnchor → NodeEvent sample)) :
    Exec (AnchoredNode sample mockAnchor × AnchoredNode sample mockAnchor × Bool) := do
  let n₀ ← Node.new (C := sample) [1] (1 : UInt8) 1 [] 1000
  let a₀ := AnchoredNode.withAnchor n₀ (AnchorService.new (B := mockAnchor) [] 2 (by decide))
  let (a, _) ← a₀.begin sampleOrder 0
  let res ← a.handleWhile sampleOrder 0 guard evs
  return (a₀, res)

/-- The run behind an evaluated sample. -/
theorem AnchoredRun.of_sample {guard : AnchoredNode sample mockAnchor → NodeEvent sample → Prop}
    [∀ n ev, Decidable (guard n ev)]
    {evs : List (AnchoredNode sample mockAnchor → NodeEvent sample)}
    {p : AnchoredNode sample mockAnchor → Bool}
    (h : (sampleAnchored guard evs).holds (fun r => r.2.2 && p r.2.1) = true) :
    ∃ n₀ n, Node.new (C := sample) [1] (1 : UInt8) 1 [] 1000 = .ok n₀ ∧
      AnchoredRun guard (AnchoredNode.withAnchor n₀
        (AnchorService.new (B := mockAnchor) [] 2 (by decide))) n ∧ p n = true := by
  rcases Exec.holds_iff.mp h with ⟨⟨a₀, a, done⟩, hrun, hp⟩
  rw [Bool.and_eq_true] at hp
  obtain rfl : done = true := hp.1
  unfold sampleAnchored at hrun
  simp only [Exec.bind_eq_ok] at hrun
  rcases hrun with ⟨n₀, hnew, ⟨a₁, acts⟩, hbegin, res, hall, hres⟩
  rcases Exec.ok_pair hres with ⟨rfl, rfl⟩
  exact ⟨n₀, a, hnew, (AnchoredRun.start hbegin).of_handleWhile hall, hp.2⟩

/-- The first block arrives by catch-up, before the service is fed, and later
the same block again, which is refused. In between and after, the validator
commits blocks of its own. -/
def earlyCatchUp : List (AnchoredNode sample mockAnchor → NodeEvent sample) :=
  [fun _ => .wire (.blocks [sealedBlock 1 Hash.zero [sampleAttestation 9 6] [] 1]),
    fun _ => .submit (sampleAttestation 9 7), fun _ => .submit (sampleAttestation 9 8),
    fun _ => .wire (.blocks [sealedBlock 1 Hash.zero [sampleAttestation 9 6] [] 1]),
    fun _ => .submit (sampleAttestation 9 9), fun _ => .submit (sampleAttestation 9 10)]

/-- Two records, of the blocks 2 to 3 and 4 to 5, each covering what is stored. -/
theorem anchored_windows_contiguous_early :
    ∃ n₀ n, Node.new (C := sample) [1] (1 : UInt8) 1 [] 1000 = .ok n₀ ∧
      n.records.map (fun r => (r.fromHeight, r.toHeight)) = [(2, 3), (4, 5)] ∧
      AnchoredRun NoLateCatchUp (AnchoredNode.withAnchor n₀
        (AnchorService.new (B := mockAnchor) [] 2 (by decide))) n ∧
      ∀ r ∈ n.records, r.Covers sample n.node.store := by
  have hcheck : (sampleAnchored NoLateCatchUp earlyCatchUp).holds (fun a => a.2.2 &&
      decide (a.2.1.records.map (fun r => (r.fromHeight, r.toHeight)) = [(2, 3), (4, 5)])) =
        true := by
    decide +kernel
  rcases AnchoredRun.of_sample (p := fun n => decide (n.records.map (fun r =>
    (r.fromHeight, r.toHeight)) = [(2, 3), (4, 5)])) hcheck with ⟨n₀, n, hnew, hrun, hrecords⟩
  have hempty : Chain (genesisState (C := sample) [1]) [] := trivial
  exact ⟨n₀, n, hnew, of_decide_eq_true hrecords, hrun,
    (anchored_windows_contiguous hempty hnew [] 2 (by decide) n hrun).1⟩

/-- The validator hands over at height 2 and back at height 3: it commits the
first and the third block, and catches up on the second. -/
def lateCatchUp : List (AnchoredNode sample mockAnchor → NodeEvent sample) :=
  [fun _ => .submitGovernance (sampleChange [2] [1] 2 [1]),
    fun n => .wire (.blocks [sealedBlock 2 n.node.engine.tip [] [sampleChange [1] [2] 3 [2]] 2]),
    fun _ => .submit (sampleAttestation 9 7)]

/-- Some record names heights 1 to 3, all of which are stored, and its root
is not that of the three blocks. -/
def ShowsGap (n : AnchoredNode sample mockAnchor) : Prop :=
  ∃ r ∈ n.records, r.fromHeight = 1 ∧ r.toHeight = 3 ∧
    n.node.store.map (·.header.height) = [1, 2, 3] ∧
    r.checkpointRoot ≠
      Checkpoint.rootOf sample ((blocksAt n.node.store 1 3).map (·.header.id sample))

instance (n : AnchoredNode sample mockAnchor) : Decidable (ShowsGap n) :=
  inferInstanceAs (Decidable (∃ r ∈ n.records, _))

/-- The caught-up block is missing from the record. -/
theorem catchUp_leaves_gap :
    ∃ n₀ n, Node.new (C := sample) [1] (1 : UInt8) 1 [] 1000 = .ok n₀ ∧
      AnchoredRun anyPass (AnchoredNode.withAnchor n₀
        (AnchorService.new (B := mockAnchor) [] 2 (by decide))) n ∧ ShowsGap n := by
  have hcheck : (sampleAnchored anyPass lateCatchUp).holds
      (fun a => a.2.2 && decide (ShowsGap a.2.1)) = true := by decide +kernel
  rcases AnchoredRun.of_sample (p := fun n => decide (ShowsGap n)) hcheck with
    ⟨n₀, n, hnew, hrun, hgap⟩
  exact ⟨n₀, n, hnew, hrun, of_decide_eq_true hgap⟩

end SmartLedger
