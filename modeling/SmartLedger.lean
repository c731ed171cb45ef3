import SmartLedger.Lib.Bytes
import SmartLedger.Lib.Quorum
import SmartLedger.Lib.KeyMap
import SmartLedger.Lib.Collision
import SmartLedger.Lib.PairTree
import SmartLedger.Lib.PowerTree
import SmartLedger.Lib.Lines
import SmartLedger.Lib.JsonText
import SmartLedger.Crypto
import SmartLedger.Sample
import SmartLedger.Ledger.Attestation
import SmartLedger.Ledger.Merkle
import SmartLedger.Ledger.Validators
import SmartLedger.Ledger.Governance
import SmartLedger.Ledger.Block
import SmartLedger.Ledger.Counting
import SmartLedger.Ledger.Proof
import SmartLedger.Ledger.TreeHash
import SmartLedger.Ledger.Binding
import SmartLedger.Anchor.OpReturn
import SmartLedger.Anchor.Service
import SmartLedger.Anchor.Proof
import SmartLedger.Consensus.Messages
import SmartLedger.Consensus.Chain
import SmartLedger.Consensus.Engine
import SmartLedger.Consensus.Steps
import SmartLedger.Consensus.Runs
import SmartLedger.Consensus.Store
import SmartLedger.Consensus.Voting
import SmartLedger.Consensus.Integrity
import SmartLedger.Consensus.Roster
import SmartLedger.Consensus.Recording
import SmartLedger.Consensus.Certified
import SmartLedger.Consensus.CatchUp
import SmartLedger.Consensus.Locking
import SmartLedger.Node.Loop
import SmartLedger.Node.Replay
import SmartLedger.Lib.LockedVoting
import SmartLedger.Consensus.Statements
import SmartLedger.Consensus.Network
import SmartLedger.Consensus.Agreement
import SmartLedger.Consensus.Progress
import SmartLedger.Consensus.Regossip
import SmartLedger.Consensus.Rest
import SmartLedger.Consensus.Redelivery
import SmartLedger.Consensus.Boot
import SmartLedger.Consensus.Timers
import SmartLedger.Consensus.Idle
import SmartLedger.Consensus.Arithmetic
import SmartLedger.Consensus.Termination
import SmartLedger.Node.Arithmetic
import SmartLedger.Consensus.Backing
import SmartLedger.Consensus.Binding
import SmartLedger.Consensus.Pool
import SmartLedger.Consensus.World
import SmartLedger.Consensus.Skipping
import SmartLedger.Consensus.Displacement
import SmartLedger.Consensus.Timestamps
import SmartLedger.Consensus.Sealing
import SmartLedger.Consensus.Quiescence
import SmartLedger.Consensus.Liveness
import SmartLedger.Consensus.Expiry
import SmartLedger.Node.Client
import SmartLedger.Node.Gossip
import SmartLedger.Node.Storage
import SmartLedger.Node.Anchoring
import SmartLedger.Node.Reboot
import SmartLedger.Node.Frame
import SmartLedger.Node.Meter
import SmartLedger.Node.Timer
import SmartLedger.Node.Process
import SmartLedger.Node.WakeUp
import SmartLedger.Node.Rpc
import SmartLedger.Node.Replies
