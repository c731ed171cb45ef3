import SmartLedger.Lib.KeyMap
import SmartLedger.Consensus.Messages

/-! # The consensus engine

The state machine of one validator, function by function. It consumes events
(start, messages, timeouts, submissions, finalized blocks from peers) and
returns the new state with the effects the driver must carry out; the `out`
parameter of the source is the list of effects each function returns.

Three points of the embedding:

* `u64` arithmetic is checked and the assertions of `ValidatorSet::new` are
  real, so a function that can reach one of them returns in `Exec`;
* the order in which a hash map is visited is an input (`IterOrder`), used by
  `tryCommit` for the stored proposals and by `commit` for the precommits;
* the loop of `advance` gets as many passes as its ranking bound allows
  (`advanceFuel`), which are always enough (`advance_quiescent`).
-/

namespace SmartLedger

variable {C : Crypto}

/-- Maximum attestations packed into one block. -/
def maxTxs : Nat := 10000

/-- The phase within a round. -/
inductive Step where
  | propose
  | prevote
  | precommit
deriving DecidableEq, Repr

/-- Which timeout a driver scheduled and is now firing. -/
inductive TimeoutKind where
  | propose
  | prevote
  | precommit
deriving DecidableEq, Repr

/-- A side effect the driver must carry out. -/
inductive Effect (C : Crypto) where
  | broadcast (msg : ConsensusMsg C)
  | scheduleTimeout (height round : UInt64) (kind : TimeoutKind)
  | committed (block : Block C)
deriving DecidableEq

/-- What a vote count should match. -/
inductive Match where
  | id (h : Hash)
  | nil
  | any

def matchesVote (blockId : Option Hash) : Match → Bool
  | .any => true
  | .nil => blockId.isNone
  | .id h => blockId == some h

/-- The order in which the engine's hash maps are visited. -/
structure IterOrder where
  rounds : KeyOrder UInt64
  ids : KeyOrder Hash

/-- Rounds in ascending order. -/
def ascendingRounds : KeyOrder UInt64 :=
  KeyOrder.ascending UInt64.toNat fun _ _ h => UInt64.toNat_inj.mp h

/-! ## Vote stores -/

/-- Votes by round and voter id. -/
abbrev VoteStore (C : Crypto) := KeyMap UInt64 (KeyMap Hash (VoteMsg C))

namespace VoteStore

/-- The votes of one round (`entry(round).or_default()`). -/
def ofRound (s : VoteStore C) (round : UInt64) : KeyMap Hash (VoteMsg C) :=
  (s.lookup round).getD ∅

/-- `entry(round).or_default().insert(id, vm)`. -/
def put (s : VoteStore C) (round : UInt64) (id : Hash) (vm : VoteMsg C) : VoteStore C :=
  s.insert round ((s.ofRound round).insert id vm)

/-- `entry(round).or_default().entry(id).or_insert(vm)`. -/
def offer (s : VoteStore C) (round : UInt64) (id : Hash) (vm : VoteMsg C) : VoteStore C :=
  s.insert round (KeyMap.orInsert (s.ofRound round) id vm)

/-- How many votes of a round match. -/
def count (s : VoteStore C) (round : UInt64) (want : Match) : Nat :=
  match s.lookup round with
  | none => 0
  | some m => KeyMap.countValues (fun vm => matchesVote vm.blockId want) m

end VoteStore

/-! ## The state -/

/-- A single validator's consensus state machine. -/
@[ext]
structure Engine (C : Crypto) where
  registry : ValidatorRegistry C
  currentSet : ValidatorSet C
  validatorsSorted : List C.VerifyingKey
  meSk : C.SigningKey
  mePk : C.VerifyingKey
  height : UInt64
  round : UInt64
  step : Step
  tip : Hash
  now : UInt64
  lockedValue : Option (Proposed C)
  lockedRound : Option UInt64
  validValue : Option (Proposed C)
  validRound : Option UInt64
  mempool : List (Attestation C)
  govMempool : List (SignedValidatorChange C)
  proposals : KeyMap UInt64 (ProposalMsg C)
  prevotes : VoteStore C
  precommits : VoteStore C
  prevoteTimeoutStarted : Finset UInt64
  precommitTimeoutStarted : Finset UInt64
  polkaApplied : Finset UInt64
  parked : Bool

/-- `sort_by_key(|v| v.id())`. -/
def sortById (keys : List C.VerifyingKey) : List C.VerifyingKey :=
  keys.insertionSort fun a b => a.id.rank ≤ b.id.rank

@[simp] theorem length_sortById (keys : List C.VerifyingKey) :
    (sortById keys).length = keys.length := List.length_insertionSort _ _

namespace Engine

/-- An engine backed by a registry, producing `startHeight` on top of `tip`. -/
def withRegistry (registry : ValidatorRegistry C) (meSk : C.SigningKey) (mePk : C.VerifyingKey)
    (tip : Hash) (startHeight : UInt64) : Exec (Engine C) := do
  let currentSet ← registry.activeSet startHeight
  return {
    registry, currentSet, meSk, mePk, tip
    validatorsSorted := sortById currentSet.validators
    height := startHeight
    round := 0
    step := .propose
    now := 0
    lockedValue := none
    lockedRound := none
    validValue := none
    validRound := none
    mempool := []
    govMempool := []
    proposals := ∅
    prevotes := ∅
    precommits := ∅
    prevoteTimeoutStarted := ∅
    precommitTimeoutStarted := ∅
    polkaApplied := ∅
    parked := false }

/-- Set the engine's notion of wall-clock time. -/
def setTime (e : Engine C) (now : UInt64) : Engine C := { e with now }

/-! ## Helpers -/

def n (e : Engine C) : Nat := e.validatorsSorted.length

def quorum (e : Engine C) : Nat := e.currentSet.threshold

def f (e : Engine C) : Nat := e.n - e.quorum

/-- Recompute the active validator set for the current height. -/
def reloadSet (e : Engine C) : Exec (Engine C) := do
  let set ← e.registry.activeSet e.height
  return { e with currentSet := set, validatorsSorted := sortById set.validators }

/-- The designated proposer. The index is in range unless the roster is
empty, where the remainder itself would panic. -/
def proposer (e : Engine C) (round : UInt64) : Exec C.VerifyingKey := do
  let slot ← checkedAdd e.height round
  match e.validatorsSorted[slot.toNat % e.n]? with
  | some key => return key
  | none => throw .indexOutOfBounds

def isProposer (e : Engine C) (round : UInt64) : Exec Bool := do
  let key ← e.proposer round
  return decide (key = e.mePk)

/-- The fresh value this engine would propose. -/
def getValue (e : Engine C) : Proposed C :=
  let attestations := e.mempool.take maxTxs
  -- a pending change may have lost its quorum or its lead since it was queued
  let governance := e.govMempool.filter fun g =>
    g.isAuthorized e.currentSet && decide (e.height < g.change.activationHeight)
  { header := {
      height := e.height
      prevHash := e.tip
      merkleRoot := (MerkleTree.build C (attestations.map (·.leafHash))).root C
      txCount := UInt32.ofNat attestations.length
      timestamp := e.now
      govRoot := governanceRoot governance }
    attestations, governance }

def countPrevotes (e : Engine C) (round : UInt64) (want : Match) : Nat :=
  e.prevotes.count round want

def countPrecommits (e : Engine C) (round : UInt64) (want : Match) : Nat :=
  e.precommits.count round want

def lockedId (e : Engine C) : Option Hash := e.lockedValue.map (·.id)

/-! ## Emitting our own messages -/

/-- The value to propose, with its valid round: the valid value if there is
one, else a fresh one. -/
def proposalValue (e : Engine C) : Proposed C × Option UInt64 :=
  match e.validValue with
  | some v => (v, e.validRound)
  | none => (e.getValue, none)

/-- Enter the propose step: propose if we can (never an empty block),
otherwise arm the propose timeout. -/
def enterPropose (e : Engine C) (round : UInt64) : Exec (Engine C × List (Effect C)) := do
  let mine ← e.isProposer round
  let (value, vr) := e.proposalValue
  -- a block must notarize or govern; without anything to propose the round
  -- times out
  if mine && (!value.attestations.isEmpty || !value.governance.isEmpty) then
    let pm := ProposalMsg.create e.meSk e.mePk e.height round vr value
    return ({ e with proposals := KeyMap.orInsert e.proposals round pm },
      [.broadcast (.proposal pm)])
  else
    return (e, [.scheduleTimeout e.height round .propose])

/-- Enter a round. Round 0 with nothing pending parks instead. -/
def startRound (e : Engine C) (round : UInt64) : Exec (Engine C × List (Effect C)) :=
  let e := { e with round, step := .propose }
  -- the pool is asked for any change, not for one that could be proposed
  if round = 0 && e.validValue.isNone && e.mempool.isEmpty && e.govMempool.isEmpty then
    .ok ({ e with parked := true }, [])
  else enterPropose { e with parked := false } round

/-- Leave the idle state and actually enter the current round. -/
def unpark (e : Engine C) : Exec (Engine C × List (Effect C)) :=
  if e.parked then enterPropose { e with parked := false } e.round else .ok (e, [])

def emitPrevote (e : Engine C) (id : Option Hash) : Engine C × List (Effect C) :=
  let vm := VoteMsg.create e.meSk e.mePk e.height e.round .prevote id
  ({ e with prevotes := e.prevotes.put e.round e.mePk.id vm }, [.broadcast (.vote vm)])

def emitPrecommit (e : Engine C) (id : Option Hash) : Engine C × List (Effect C) :=
  let vm := VoteMsg.create e.meSk e.mePk e.height e.round .precommit id
  ({ e with precommits := e.precommits.put e.round e.mePk.id vm }, [.broadcast (.vote vm)])

/-! ## Ingesting others' messages -/

/-- Only the round's designated proposer may propose, and the first proposal
for a round wins. -/
def ingestProposal (e : Engine C) (pm : ProposalMsg C) : Exec (Engine C) :=
  if pm.height ≠ e.height then .ok e
  else do
    -- the proposer is looked up before the signature is checked
    let key ← e.proposer pm.round
    if key ≠ pm.proposer || !pm.verifySig then return e
    else return { e with proposals := KeyMap.orInsert e.proposals pm.round pm }

/-- The first vote of a member for a round wins. -/
def ingestVote (e : Engine C) (vm : VoteMsg C) : Engine C :=
  if vm.height ≠ e.height || !e.currentSet.contains vm.voter || !vm.verifySig then e
  else match vm.voteType with
    | .prevote => { e with prevotes := e.prevotes.offer vm.round vm.voter.id vm }
    | .precommit => { e with precommits := e.precommits.offer vm.round vm.voter.id vm }

def ingest (e : Engine C) : ConsensusMsg C → Exec (Engine C)
  | .proposal pm => e.ingestProposal pm
  | .vote vm => .ok (e.ingestVote vm)

/-! ## Committing -/

/-- The finalized block: `value` with the certificate assembled from the
stored precommits of round `r`. -/
def assembleBlock (ord : IterOrder) (e : Engine C) (r : UInt64) (id : Hash) (value : Proposed C) :
    Block C :=
  let votes := KeyMap.iter ord.ids (e.precommits.ofRound r)
  { header := value.header
    attestations := value.attestations
    governance := value.governance
    qc := {
      blockId := id
      signatures := (votes.filter fun entry => entry.2.blockId == some id).map
        fun entry => ⟨entry.2.voter, entry.2.sig⟩ } }

/-- `mempool.retain`: drop the attestations sealed in a block. -/
def dropSealed (sealedAtts : List (Attestation C)) (mempool : List (Attestation C)) :
    List (Attestation C) :=
  mempool.filter fun a => decide (a.leafHash ∉ sealedAtts.map (·.leafHash))

/-- `gov_mempool.retain`: drop the changes enacted by a block. -/
def dropEnacted (enacted : List (SignedValidatorChange C))
    (pool : List (SignedValidatorChange C)) : List (SignedValidatorChange C) :=
  pool.filter fun g => decide (g.commitment ∉ enacted.map (·.commitment))

/-- Reset everything that belongs to one height. -/
def clearHeight (e : Engine C) : Engine C :=
  { e with
    round := 0
    step := .propose
    lockedValue := none
    lockedRound := none
    validValue := none
    validRound := none
    proposals := ∅
    prevotes := ∅
    precommits := ∅
    prevoteTimeoutStarted := ∅
    precommitTimeoutStarted := ∅
    polkaApplied := ∅ }

/-- Finalize `value` at round `r`, emit it and roll forward to the next
height. -/
def commit (ord : IterOrder) (e : Engine C) (r : UInt64) (id : Hash) (value : Proposed C) :
    Exec (Engine C × List (Effect C)) := do
  let block := e.assembleBlock ord r id value
  let e := { e with
    mempool := dropSealed block.attestations e.mempool
    registry := e.registry.recordAll block.governance
    govMempool := dropEnacted block.governance e.govMempool }
  -- the set of the next height already counts the changes of this block
  let height ← checkedAdd e.height 1
  let e ← reloadSet { e with height, tip := id }
  let (e, out) ← e.clearHeight.startRound 0
  return (e, .committed block :: out)

/-! ## The transition rules -/

/-- The loop of the commit rule over the stored proposals. -/
def tryCommitFrom (ord : IterOrder) (e : Engine C) :
    List (UInt64 × Hash) → Exec (Option (Engine C × List (Effect C)))
  | [] => .ok none
  | (r, id) :: rest =>
      if e.quorum ≤ e.countPrecommits r (.id id) then
        -- the candidate came out of the same map, so the entry is there
        match e.proposals.lookup r with
        | none => .error .expectedPresent
        | some pm =>
            if pm.value.isValid e.tip e.height e.currentSet then
              some <$> e.commit ord r id pm.value
            else tryCommitFrom ord e rest
      else tryCommitFrom ord e rest

/-- Commit rule: a proposal for round `r` plus a precommit quorum for its id. -/
def tryCommit (ord : IterOrder) (e : Engine C) : Exec (Option (Engine C × List (Effect C))) :=
  e.tryCommitFrom ord ((KeyMap.iter ord.rounds e.proposals).map fun entry =>
    (entry.1, entry.2.value.id))

/-- The rounds beyond the current one that have votes. -/
def laterRounds (e : Engine C) : Finset UInt64 :=
  (e.prevotes.keys ∪ e.precommits.keys).filter fun r => e.round < r

/-- The validators seen voting in a round. -/
def votersOf (e : Engine C) (r : UInt64) : Finset Hash :=
  (e.prevotes.ofRound r).keys ∪ (e.precommits.ofRound r).keys

/-- Skip rule: on `f + 1` voters in a round beyond the current one, jump. -/
def trySkip (e : Engine C) : Exec (Option (Engine C × List (Effect C))) :=
  match (ascendingRounds.order e.laterRounds).find? fun r => e.f < (e.votersOf r).card with
  | some r => some <$> e.startRound r
  | none => .ok none

/-- Prevote on a fresh proposal while in the propose step. -/
def tryPrevoteOnProposal (e : Engine C) : Option (Engine C × List (Effect C)) :=
  if e.step ≠ .propose then none
  else match e.proposals.lookup e.round with
    | none => none
    | some pm =>
        if pm.validRound.isSome then none
        else
          -- a lock on another value or an invalid value turns the prevote into nil
          let acceptable := e.lockedRound.isNone || e.lockedId == some pm.value.id
          let id := if pm.value.isValid e.tip e.height e.currentSet && acceptable
            then some pm.value.id else none
          let (e, out) := e.emitPrevote id
          some ({ e with step := .prevote }, out)

/-- Prevote on a re-proposal justified by a polka in an earlier round. -/
def tryPrevoteOnReproposal (e : Engine C) : Option (Engine C × List (Effect C)) :=
  if e.step ≠ .propose then none
  else match e.proposals.lookup e.round with
    | none => none
    | some pm =>
        match pm.validRound with
        | none => none
        | some vr =>
            if ¬ vr < e.round then none
            else if e.countPrevotes vr (.id pm.value.id) < e.quorum then none
            else
              -- the polka of round `vr` may be newer than our lock, and then overrides it
              let acceptable := e.lockedRound.all (fun lr => decide (lr ≤ vr)) ||
                e.lockedId == some pm.value.id
              let id := if pm.value.isValid e.tip e.height e.currentSet && acceptable
                then some pm.value.id else none
              let (e, out) := e.emitPrevote id
              some ({ e with step := .prevote }, out)

/-- Any prevote quorum for the current round arms the prevote timeout. -/
def trySchedulePrevoteTimeout (e : Engine C) : Option (Engine C × List (Effect C)) :=
  if e.step = .prevote ∧ e.round ∉ e.prevoteTimeoutStarted ∧
      e.quorum ≤ e.countPrevotes e.round .any then
    some ({ e with prevoteTimeoutStarted := insert e.round e.prevoteTimeoutStarted },
      [.scheduleTimeout e.height e.round .prevote])
  else none

/-- Polka for a value: lock it, precommit it, and record it as valid. -/
def tryPrecommitOnPolka (e : Engine C) : Option (Engine C × List (Effect C)) :=
  if e.step = .propose ∨ e.round ∈ e.polkaApplied then none
  else match e.proposals.lookup e.round with
    | none => none
    | some pm =>
        let v := pm.value
        if e.countPrevotes e.round (.id v.id) < e.quorum ||
            !v.isValid e.tip e.height e.currentSet then none
        else
          let e := { e with polkaApplied := insert e.round e.polkaApplied }
          -- after a nil precommit of this round the value only becomes valid
          if e.step = .prevote then
            let e := { e with lockedValue := some v, lockedRound := some e.round }
            let (e, out) := e.emitPrecommit (some v.id)
            some ({ e with
              step := .precommit, validValue := some v, validRound := some e.round }, out)
          else some ({ e with validValue := some v, validRound := some e.round }, [])

/-- Polka for nil: precommit nil and move on. -/
def tryPrecommitNil (e : Engine C) : Option (Engine C × List (Effect C)) :=
  if e.step = .prevote ∧ e.quorum ≤ e.countPrevotes e.round .nil then
    let (e, out) := e.emitPrecommit none
    some ({ e with step := .precommit }, out)
  else none

/-- Any precommit quorum for the current round arms the precommit timeout. -/
def trySchedulePrecommitTimeout (e : Engine C) : Option (Engine C × List (Effect C)) :=
  if e.round ∉ e.precommitTimeoutStarted ∧ e.quorum ≤ e.countPrecommits e.round .any then
    some ({ e with precommitTimeoutStarted := insert e.round e.precommitTimeoutStarted },
      [.scheduleTimeout e.height e.round .precommit])
  else none

/-- The first enabled rule, in the order `advance` tries them. -/
def applyRule (ord : IterOrder) (e : Engine C) :
    Exec (Option (Engine C × List (Effect C))) := do
  match ← e.tryCommit ord with
  | some r => return some r
  | none =>
      match ← e.trySkip with
      | some r => return some r
      | none =>
          return e.tryPrevoteOnProposal <|> e.tryPrevoteOnReproposal <|>
            e.trySchedulePrevoteTimeout <|> e.tryPrecommitOnPolka <|> e.tryPrecommitNil <|>
            e.trySchedulePrecommitTimeout

/-- Passes that are enough for the loop of `advance`: every rule of a round
fires at most once, every skip uses up a later round, and every commit after
the first empties part of a pool. -/
def advanceFuel (e : Engine C) : Nat :=
  6 * (e.laterRounds.card + (e.mempool.length + e.govMempool.length)) + 12

def advanceLoop (ord : IterOrder) : Nat → Engine C → Exec (Engine C × List (Effect C))
  | 0, e => .ok (e, [])
  | fuel + 1, e => do
      match ← e.applyRule ord with
      | none => return (e, [])
      | some (e, out) =>
          let (e, out') ← advanceLoop ord fuel e
          return (e, out ++ out')

/-- Apply every enabled rule until the state stops changing. -/
def advance (ord : IterOrder) (e : Engine C) : Exec (Engine C × List (Effect C)) :=
  advanceLoop ord e.advanceFuel e

/-- `advance` after some effects were already pushed. -/
def thenAdvance (ord : IterOrder) (r : Engine C × List (Effect C)) :
    Exec (Engine C × List (Effect C)) := do
  let (e, out) ← r.1.advance ord
  return (e, r.2 ++ out)

/-! ## The driver-facing API -/

/-- Begin consensus at the starting height. -/
def start (ord : IterOrder) (e : Engine C) : Exec (Engine C × List (Effect C)) := do
  let r ← e.startRound 0
  thenAdvance ord r

/-- Re-enter round 0 after catching up. -/
def resume (ord : IterOrder) (e : Engine C) : Exec (Engine C × List (Effect C)) := do
  let r ← e.startRound 0
  thenAdvance ord r

/-- Queue an attestation; wakes a parked engine. -/
def addAttestation (ord : IterOrder) (e : Engine C) (att : Attestation C) :
    Exec (Engine C × List (Effect C)) :=
  let e := { e with mempool := e.mempool ++ [att] }
  if e.parked then do
    let r ← e.unpark
    thenAdvance ord r
  else .ok (e, [])

/-- Does `addGovernance` accept the change? -/
def acceptsGovernance (e : Engine C) (change : SignedValidatorChange C) : Bool :=
  change.isAuthorized e.currentSet && decide (e.height < change.change.activationHeight) &&
    !e.govMempool.any fun g => g.commitment == change.commitment

/-- Submit a validator-set change; returns whether it was accepted. -/
def addGovernance (ord : IterOrder) (e : Engine C) (change : SignedValidatorChange C) :
    Exec (Bool × Engine C × List (Effect C)) :=
  if e.acceptsGovernance change then
    let e := { e with govMempool := e.govMempool ++ [change] }
    if e.parked then do
      let r ← e.unpark
      let r ← thenAdvance ord r
      return (true, r)
    else .ok (true, e, [])
  else .ok (false, e, [])

/-- Only a stored proposal for the current round wakes a parked engine. -/
def wakeFor (e : Engine C) (wake : Bool) : Exec (Engine C × List (Effect C)) :=
  -- a proposal for another round, or one that was refused, does not wake us
  if e.parked && wake && (e.proposals.lookup e.round).isSome then e.unpark else .ok (e, [])

/-- Handle an inbound message; only a proposal for our height may wake us. -/
def onMessage (ord : IterOrder) (e : Engine C) (msg : ConsensusMsg C) :
    Exec (Engine C × List (Effect C)) := do
  let wake := match msg with
    | .proposal pm => decide (pm.height = e.height)
    | .vote _ => false
  let e ← e.ingest msg
  let r ← e.wakeFor wake
  thenAdvance ord r

/-- What a timer of the current height and round does. -/
def fireTimeout (e : Engine C) : TimeoutKind → Exec (Engine C × List (Effect C))
  | .propose =>
      if e.step = .propose then
        let (e, out) := e.emitPrevote none
        .ok ({ e with step := .prevote }, out)
      else .ok (e, [])
  | .prevote =>
      if e.step = .prevote then
        let (e, out) := e.emitPrecommit none
        .ok ({ e with step := .precommit }, out)
      else .ok (e, [])
  | .precommit => do
      let next ← checkedAdd e.round 1
      e.startRound next

/-- Handle a timer that fires. -/
def onTimeout (ord : IterOrder) (e : Engine C) (height round : UInt64) (kind : TimeoutKind) :
    Exec (Engine C × List (Effect C)) :=
  if height = e.height ∧ round = e.round then do
    let r ← e.fireTimeout kind
    thenAdvance ord r
  else thenAdvance ord (e, [])

/-- The `{:?}` rendering of a ledger error. -/
def debugError : LedgerError → String
  | .invalidAttestation => "InvalidAttestation"
  | .notIncluded => "NotIncluded"
  | .blockIdMismatch => "BlockIdMismatch"
  | .insufficientQuorum got need =>
      "InsufficientQuorum \x7b got: " ++ toString got ++ ", need: " ++ toString need ++ " \x7d"

/-- Apply a finalized block received from a peer during catch-up. -/
def applySyncedBlock (e : Engine C) (block : Block C) : Exec (Except String (Engine C)) :=
  if block.header.height ≠ e.height then
    .ok (.error ("expected height " ++ toString e.height ++ ", got " ++
      toString block.header.height))
  else if block.header.prevHash ≠ e.tip then
    .ok (.error "prev_hash does not chain onto our tip")
  else
    let value : Proposed C :=
      { header := block.header, attestations := block.attestations,
        governance := block.governance }
    if value.isValid e.tip e.height e.currentSet = false then
      .ok (.error "block failed structural validation")
    else match block.qc.verify block.header e.currentSet with
      | .error err => .ok (.error ("quorum certificate invalid: " ++ debugError err))
      | .ok () => do
          -- unlike `commit`, this leaves the pool of pending changes alone
          let e := { e with
            registry := e.registry.recordAll block.governance
            mempool := dropSealed block.attestations e.mempool }
          let height ← checkedAdd e.height 1
          let e ← reloadSet { e with height, tip := block.header.id C }
          return .ok { e.clearHeight with parked := false }

/-- Re-broadcast this node's current-round messages. -/
def regossip (e : Engine C) : List (Effect C) :=
  if e.parked then []
  else
    let proposal := match e.proposals.lookup e.round with
      | some pm => if pm.proposer = e.mePk then [.broadcast (.proposal pm)] else []
      | none => []
    let prevote := match (e.prevotes.ofRound e.round).lookup e.mePk.id with
      | some vm => [.broadcast (.vote vm)]
      | none => []
    let precommit := match (e.precommits.ofRound e.round).lookup e.mePk.id with
      | some vm => [.broadcast (.vote vm)]
      | none => []
    proposal ++ prevote ++ precommit

end Engine

end SmartLedger
