import Mathlib.Data.List.Sort
import SmartLedger.Ledger.Validators

/-! # Validator-set governance

A `ValidatorChange` is authorized by a quorum of the current validators and
carries the height from which it applies. The registry keeps the genesis
roster and every recorded change; the roster at a height is recomputed from
scratch, applying the changes that have activated in order of activation.
-/

namespace SmartLedger

variable {C : Crypto}

/-- A proposed change to the validator set, effective at `activationHeight`. -/
structure ValidatorChange (C : Crypto) where
  adds : List C.VerifyingKey
  removes : List C.VerifyingKey
  activationHeight : UInt64
deriving DecidableEq

namespace ValidatorChange

/-- The keys' bytes, sorted, behind their number. -/
def sortedKeyBytes (keys : List C.VerifyingKey) : List UInt8 :=
  let sorted := (keys.map C.keyBytes).insertionSort fun a b => a ≤ b
  beBytes32 (UInt32.ofNat sorted.length) ++ sorted.flatten

/-- Canonical bytes that approving validators sign. -/
def signingBytes (c : ValidatorChange C) : List UInt8 :=
  Bytes.ascii ['S', 'L', 'C', 'G', 'O', 'V'] ++ (beBytes64 c.activationHeight ++
    (sortedKeyBytes c.adds ++ sortedKeyBytes c.removes))

/-- A stable id for this change. -/
def id (c : ValidatorChange C) : Hash := C.digest c.signingBytes

def isEmpty (c : ValidatorChange C) : Bool := c.adds.isEmpty && c.removes.isEmpty

end ValidatorChange

/-- A change plus the approvals that authorize it. -/
structure SignedValidatorChange (C : Crypto) where
  change : ValidatorChange C
  approvals : List (ValidatorSig C)
deriving DecidableEq

namespace SignedValidatorChange

/-- The commitment that binds this change and its approver set into a block
header. -/
def commitment (s : SignedValidatorChange C) : Hash :=
  let approverIds := (s.approvals.map fun a => a.validator.id).insertionSort
    fun a b => a.rank ≤ b.rank
  C.digest (s.change.id.asBytes ++ (beBytes32 (UInt32.ofNat approverIds.length) ++
    (approverIds.map Hash.asBytes).flatten))

/-- Is this change authorized by a quorum of `current`? An empty change never
is. -/
def isAuthorized (s : SignedValidatorChange C) (current : ValidatorSet C) : Bool :=
  if s.change.isEmpty then false
  else decide (current.threshold ≤
    countSigned current s.change.signingBytes Context.governance ∅ s.approvals)

end SignedValidatorChange

/-- The commitment to the ordered governance changes of a block. -/
def governanceRoot (changes : List (SignedValidatorChange C)) : Hash :=
  C.digest (Bytes.ascii ['S', 'L', 'C', '-', 'g', 'o', 'v', 'r', 'o', 'o', 't', '-', 'v', '1'] ++
    (beBytes32 (UInt32.ofNat changes.length) ++
      (changes.map fun c => c.commitment.asBytes).flatten))

/-- The evolving roster: genesis plus every recorded change. -/
@[ext]
structure ValidatorRegistry (C : Crypto) where
  genesis : List C.VerifyingKey
  changes : List (ValidatorChange C)
deriving DecidableEq

namespace ValidatorRegistry

def new (genesis : List C.VerifyingKey) : ValidatorRegistry C := ⟨genesis, []⟩

/-- Record a finalized change. -/
def record (reg : ValidatorRegistry C) (change : ValidatorChange C) : ValidatorRegistry C :=
  { reg with changes := reg.changes ++ [change] }

/-- Record every change of a block, in order. -/
def recordAll (reg : ValidatorRegistry C) (signed : List (SignedValidatorChange C)) :
    ValidatorRegistry C :=
  signed.foldl (fun reg s => reg.record s.change) reg

/-- Removes, then adds; a key already present is not added again. -/
def applyChange (keys : List C.VerifyingKey) (change : ValidatorChange C) :
    List C.VerifyingKey :=
  let kept := change.removes.foldl (fun keys r => keys.filter fun k => k ≠ r) keys
  change.adds.foldl (fun keys a => if a ∈ keys then keys else keys ++ [a]) kept

/-- The changes in force at `height`, in the order they apply: by activation
height, and by time of recording within one height. -/
def activeChanges (reg : ValidatorRegistry C) (height : UInt64) : List (ValidatorChange C) :=
  (reg.changes.filter fun c => c.activationHeight ≤ height).insertionSort
    fun a b => a.activationHeight.toNat ≤ b.activationHeight.toNat

/-- The validator keys in force at `height`. -/
def activeKeys (reg : ValidatorRegistry C) (height : UInt64) : List C.VerifyingKey :=
  (reg.activeChanges height).foldl applyChange reg.genesis

/-- The Byzantine validator set in force at `height`; panics when no key is
left. -/
def activeSet (reg : ValidatorRegistry C) (height : UInt64) : Exec (ValidatorSet C) :=
  ValidatorSet.bft (reg.activeKeys height)

/-! ## Recording -/

@[simp] theorem recordAll_genesis (reg : ValidatorRegistry C)
    (signed : List (SignedValidatorChange C)) : (reg.recordAll signed).genesis = reg.genesis := by
  induction signed generalizing reg with
  | nil => rfl
  | cons s rest ih => exact ih (reg.record s.change)

@[simp] theorem recordAll_changes (reg : ValidatorRegistry C)
    (signed : List (SignedValidatorChange C)) :
    (reg.recordAll signed).changes = reg.changes ++ signed.map (·.change) := by
  induction signed generalizing reg with
  | nil => simp [recordAll]
  | cons s rest ih =>
      have h := ih (reg.record s.change)
      rw [show reg.recordAll (s :: rest) = (reg.record s.change).recordAll rest from rfl, h]
      simp [record]

/-- Changes that activate later than `h` do not show at `h`. -/
theorem activeKeys_recordAll (reg : ValidatorRegistry C)
    (signed : List (SignedValidatorChange C)) (h : UInt64)
    (hlater : ∀ s ∈ signed, h < s.change.activationHeight) :
    (reg.recordAll signed).activeKeys h = reg.activeKeys h := by
  have hnone : (signed.map (·.change)).filter (fun c => c.activationHeight ≤ h) = [] := by
    rw [List.filter_eq_nil_iff]
    intro c hc
    rcases List.mem_map.mp hc with ⟨s, hs, rfl⟩
    have := hlater s hs
    grind
  simp only [activeKeys, activeChanges, recordAll_changes, recordAll_genesis, List.filter_append,
    hnone, List.append_nil]

theorem activeSet_recordAll (reg : ValidatorRegistry C)
    (signed : List (SignedValidatorChange C)) (h : UInt64)
    (hlater : ∀ s ∈ signed, h < s.change.activationHeight) :
    (reg.recordAll signed).activeSet h = reg.activeSet h := by
  rw [activeSet, activeSet, activeKeys_recordAll reg signed h hlater]

end ValidatorRegistry

end SmartLedger
