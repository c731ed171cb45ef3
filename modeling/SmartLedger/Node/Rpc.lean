import SmartLedger.Anchor.Proof
import SmartLedger.Node.Client
import SmartLedger.Node.Meter
import SmartLedger.Node.Process

/-! # The client RPC

Every connection has a thread, which answers one request after the other.
Reads are answered from the committed blocks and the anchoring service, under
their locks; what a client submits goes on the loop's event channel. Between
the steps of a request, and between requests, the other threads move
(`ServerStep`). `ServerRun.process`: to the node, an RPC is one more source of
events.
-/

namespace SmartLedger

variable {C : Crypto} {B : AnchorBackend}

/-! ## Requests and responses -/

/-- `RpcRequest`. -/
inductive RpcRequest (C : Crypto) where
  | submit (att : Attestation C)
  | submitGovernance (change : SignedValidatorChange C)
  | addPeer (addr : String)
  | getProof (hash : Hash)
  | getAnchoredProof (hash : Hash)
  | status
  | nodeInfo
  | usage

/-- `RpcResponse`. -/
inductive RpcResponse (C : Crypto) where
  | submitted (accepted : Bool)
  | proof (p : Option (NotarizationProof C))
  | anchoredProof (p : Option (AnchoredProof C))
  | status (height : UInt64) (tip : Hash)
  | nodeInfo (chainId : String) (pubkey : C.VerifyingKey) (height : UInt64) (tip : Hash)
  | usage (count : UInt64) (cap : Option UInt64) (windowStart windowSecs : UInt64)
  | error (message : String)

/-- A request with its response. -/
abbrev Reply (C : Crypto) := RpcRequest C × RpcResponse C

/-- What the anchoring service, if there is one, adds to a proof. -/
def anchoredFor (anchor : Option (AnchorService B)) (proof : NotarizationProof C) :
    Exec (Option (AnchoredProof C)) :=
  match anchor with
  | none => .ok none
  | some service => service.anchorProof proof

/-- The notarization proof with its anchoring, once the block is anchored. -/
def findAnchoredProof (store : List (Block C)) (anchor : Option (AnchorService B))
    (hash : Hash) : Exec (Option (AnchoredProof C)) := do
  match ← findProof hash store with
  | none => return none
  | some proof => anchoredFor anchor proof

/-- Record one notarization against the meter, if any. -/
def recordUsage (meter : Option Meter) (files : Files) (now : UInt64) :
    Exec (Bool × Option Meter × Files) :=
  match meter with
  | none => .ok (true, none, files)
  | some m => do
      let (accepted, m, files) ← m.tryRecord files now
      return (accepted, some m, files)

/-! ## The server -/

/-- A request that a connection has dealt with in part: a submission that the
meter let through, or a proof whose anchoring is still to be looked up. -/
inductive RpcTask (C : Crypto) where
  | metered (att : Attestation C)
  | located (hash : Hash) (proof : NotarizationProof C)

/-- A node with its RPC. -/
structure Server (C : Crypto) (B : AnchorBackend) where
  process : Process C B
  meter : Option Meter
  files : Files
  tasks : List (RpcTask C)

namespace Server

/-- The committed blocks. -/
def store (s : Server C B) : List (Block C) := s.process.node.store

/-- Put an event on the loop's channel. -/
def send (s : Server C B) (ev : NodeEvent C) : Server C B :=
  { s with process := { s.process with inbox := s.process.inbox ++ [.event ev] } }

/-- Is the loop's end of the event channel still there? -/
def up (s : Server C B) : Bool :=
  match s.process.phase with
  | .gone => false
  | .created | .busy _ => true

@[simp] theorem up_eq_true (s : Server C B) : s.up = true ↔ s.process.phase ≠ .gone := by
  unfold up
  split <;> simp_all

/-- Answer one request, undisturbed by the other threads. -/
def answer (chainId : String) (pubkey : C.VerifyingKey) (now : UInt64) (s : Server C B) :
    RpcRequest C → Exec (RpcResponse C × Server C B)
  | .submit att =>
      if att.verify then do
        let (accepted, meter, files) ← recordUsage s.meter s.files now
        let s := { s with meter, files }
        if accepted then
          if s.up then return (.submitted true, s.send (.submit att))
          else return (.submitted false, s)
        else return (.error "licensed notarization volume exceeded", s)
      else .ok (.submitted false, s)
  | .submitGovernance change =>
      if s.up then .ok (.submitted true, s.send (.submitGovernance change))
      else .ok (.submitted false, s)
  | .addPeer addr =>
      if s.up then .ok (.submitted true, s.send (.addPeer addr)) else .ok (.submitted false, s)
  | .getAnchoredProof hash => do
      let a ← findAnchoredProof s.store s.process.anchor hash
      return (.anchoredProof a, s)
  | .getProof hash => do
      let proof ← findProof hash s.store
      return (.proof proof, s)
  | .status =>
      let (tip, height) := storeTip s.store
      .ok (.status height tip, s)
  | .nodeInfo =>
      let (tip, height) := storeTip s.store
      .ok (.nodeInfo chainId pubkey height tip, s)
  | .usage =>
      match s.meter with
      | some m =>
          let (count, cap, windowStart, windowSecs) := m.status
          .ok (.usage count cap windowStart windowSecs, s)
      | none => .ok (.usage 0 none 0 0, s)

end Server

namespace RpcRequest

/-- The requests that are handed to the loop as they are. -/
def forwarded : RpcRequest C → Option (NodeEvent C)
  | .submitGovernance change => some (.submitGovernance change)
  | .addPeer addr => some (.addPeer addr)
  | .submit _ | .getProof _ | .getAnchoredProof _ | .status | .nodeInfo | .usage => none

/-- The requests that take one lock, and change nothing. -/
def reads : RpcRequest C → Bool
  | .getProof _ | .status | .nodeInfo | .usage => true
  | .submit _ | .submitGovernance _ | .addPeer _ | .getAnchoredProof _ => false

end RpcRequest

/-- A step of the process, or of a connection; the lists are what happened
in the process and what was answered. -/
inductive ServerStep (chainId : String) (pubkey : C.VerifyingKey) :
    History C × List (Reply C) × Server C B → History C × List (Reply C) × Server C B →
      Prop where
  | inner {H H' : History C} {R : List (Reply C)} {s : Server C B} {process : Process C B}
      (h : ProcessStep anyDrive (H, s.process) (H', process)) :
      ServerStep chainId pubkey (H, R, s) (H', R, { s with process })
  | read {H : History C} {R : List (Reply C)} {s : Server C B} {req : RpcRequest C}
      {resp : RpcResponse C} {now : UInt64} (hreads : req.reads = true)
      (h : s.answer chainId pubkey now req = .ok (resp, s)) :
      ServerStep chainId pubkey (H, R, s) (H, R ++ [(req, resp)], s)
  | invalid {H : History C} {R : List (Reply C)} {s : Server C B} {att : Attestation C}
      (h : att.verify = false) :
      ServerStep chainId pubkey (H, R, s) (H, R ++ [(.submit att, .submitted false)], s)
  | exceeded {H : History C} {R : List (Reply C)} {s : Server C B} {att : Attestation C}
      {now : UInt64} {meter : Option Meter} {files : Files} (hvalid : att.verify = true)
      (h : recordUsage s.meter s.files now = .ok (false, meter, files)) :
      ServerStep chainId pubkey (H, R, s)
        (H, R ++ [(.submit att, .error "licensed notarization volume exceeded")],
          { s with meter, files })
  | metered {H : History C} {R : List (Reply C)} {s : Server C B} {att : Attestation C}
      {now : UInt64} {meter : Option Meter} {files : Files} (hvalid : att.verify = true)
      (h : recordUsage s.meter s.files now = .ok (true, meter, files)) :
      ServerStep chainId pubkey (H, R, s)
        (H, R, { s with meter, files, tasks := s.tasks ++ [.metered att] })
  | submitted {H : History C} {R : List (Reply C)} {s : Server C B} {att : Attestation C}
      {before after : List (RpcTask C)} (htasks : s.tasks = before ++ .metered att :: after)
      (hup : s.process.phase ≠ .gone) :
      ServerStep chainId pubkey (H, R, s)
        (H, R ++ [(.submit att, .submitted true)],
          { s.send (.submit att) with tasks := before ++ after })
  | lost {H : History C} {R : List (Reply C)} {s : Server C B} {att : Attestation C}
      {before after : List (RpcTask C)} (htasks : s.tasks = before ++ .metered att :: after)
      (hgone : s.process.phase = .gone) :
      ServerStep chainId pubkey (H, R, s)
        (H, R ++ [(.submit att, .submitted false)], { s with tasks := before ++ after })
  | forwarded {H : History C} {R : List (Reply C)} {s : Server C B} {req : RpcRequest C}
      {ev : NodeEvent C} (h : req.forwarded = some ev) (hup : s.process.phase ≠ .gone) :
      ServerStep chainId pubkey (H, R, s) (H, R ++ [(req, .submitted true)], s.send ev)
  | refused {H : History C} {R : List (Reply C)} {s : Server C B} {req : RpcRequest C}
      {ev : NodeEvent C} (h : req.forwarded = some ev) (hgone : s.process.phase = .gone) :
      ServerStep chainId pubkey (H, R, s) (H, R ++ [(req, .submitted false)], s)
  | unknown {H : History C} {R : List (Reply C)} {s : Server C B} {hash : Hash}
      (h : findProof hash s.store = .ok none) :
      ServerStep chainId pubkey (H, R, s)
        (H, R ++ [(.getAnchoredProof hash, .anchoredProof none)], s)
  | located {H : History C} {R : List (Reply C)} {s : Server C B} {hash : Hash}
      {proof : NotarizationProof C} (h : findProof hash s.store = .ok (some proof)) :
      ServerStep chainId pubkey (H, R, s) (H, R, { s with tasks := s.tasks ++ [.located hash proof] })
  | anchored {H : History C} {R : List (Reply C)} {s : Server C B} {hash : Hash}
      {proof : NotarizationProof C} {result : Option (AnchoredProof C)}
      {before after : List (RpcTask C)} (htasks : s.tasks = before ++ .located hash proof :: after)
      (h : anchoredFor s.process.anchor proof = .ok result) :
      ServerStep chainId pubkey (H, R, s)
        (H, R ++ [(.getAnchoredProof hash, .anchoredProof result)],
          { s with tasks := before ++ after })

/-- The runs of a node spawned at `now` with an RPC. -/
def ServerRun (chainId : String) (pubkey : C.VerifyingKey) (n₀ : Node C)
    (anchor : Option (AnchorService B)) (meter : Option Meter) (files : Files) (now : Nat) :
    History C × List (Reply C) × Server C B → Prop :=
  Relation.ReflTransGen (ServerStep chainId pubkey)
    (History.empty, [], ⟨Process.create n₀ anchor now, meter, files, []⟩)

/-! ## A whole request -/

variable {chainId : String} {pubkey : C.VerifyingKey} {H H' : History C} {R R' : List (Reply C)}
  {s s' : Server C B} {r r' : Reply C}

/-- A request that is handed on takes one step. -/
theorem ServerStep.of_forwarded {req : RpcRequest C} {ev : NodeEvent C} {resp : RpcResponse C}
    (hreq : req.forwarded = some ev)
    (h : (if s.up then .ok (.submitted true, s.send ev) else .ok (.submitted false, s) :
      Exec (RpcResponse C × Server C B)) = .ok (resp, s')) :
    ServerStep chainId pubkey (H, R, s) (H, R ++ [(req, resp)], s') := by
  by_cases hup : s.up = true
  · rw [if_pos hup] at h
    rcases Exec.ok_pair h with ⟨rfl, rfl⟩
    exact ServerStep.forwarded hreq (s.up_eq_true.mp hup)
  · rw [if_neg hup] at h
    rcases Exec.ok_pair h with ⟨rfl, rfl⟩
    rw [Server.up_eq_true, not_not] at hup
    exact ServerStep.refused hreq hup

/-- A read leaves everything as it is. -/
theorem Server.answer_same {now : UInt64} {req : RpcRequest C} {resp : RpcResponse C}
    (hreads : req.reads = true) (h : s.answer chainId pubkey now req = .ok (resp, s')) :
    s' = s := by
  cases req with
  | getProof hash =>
      rw [Server.answer, Exec.bind_eq_ok] at h
      rcases h with ⟨found, _, h⟩
      exact (Exec.ok_pair h).2
  | status => exact (Exec.ok_pair h).2
  | nodeInfo => exact (Exec.ok_pair h).2
  | usage =>
      unfold Server.answer at h
      cases hmeter : s.meter with
      | none =>
          rw [hmeter] at h
          exact (Exec.ok_pair h).2
      | some m =>
          rw [hmeter] at h
          exact (Exec.ok_pair h).2
  | submit | submitGovernance | addPeer | getAnchoredProof => cases hreads

/-- An undisturbed request is some steps of its connection. -/
theorem ServerStep.of_answer {now : UInt64} {req : RpcRequest C} {resp : RpcResponse C}
    (h : s.answer chainId pubkey now req = .ok (resp, s')) :
    Relation.ReflTransGen (ServerStep chainId pubkey) (H, R, s) (H, R ++ [(req, resp)], s') := by
  by_cases hreads : req.reads = true
  · obtain rfl := (Server.answer_same hreads h).symm
    exact Relation.ReflTransGen.single (ServerStep.read hreads h)
  cases req with
  | submit att =>
      by_cases hvalid : att.verify = true
      · rw [Server.answer, if_pos hvalid, Exec.bind_eq_ok] at h
        rcases h with ⟨⟨accepted, meter, files⟩, hrecord, h⟩
        cases accepted with
        | false =>
            rcases Exec.ok_pair h with ⟨rfl, rfl⟩
            exact Relation.ReflTransGen.single (ServerStep.exceeded hvalid hrecord)
        | true =>
            -- counted first, then sent
            refine (Relation.ReflTransGen.single (ServerStep.metered hvalid hrecord)).tail ?_
            have hrest : s.tasks = s.tasks ++ [] := (List.append_nil _).symm
            dsimp only at h
            rw [if_pos rfl] at h
            by_cases hup : ({ s with meter, files } : Server C B).up = true
            · rw [if_pos hup] at h
              rcases Exec.ok_pair h with ⟨rfl, rfl⟩
              have hstep : ServerStep chainId pubkey
                  (H, R, { s with meter, files, tasks := s.tasks ++ [.metered att] })
                  (H, R ++ [(.submit att, .submitted true)],
                    { ({ s with meter, files } : Server C B).send (.submit att) with
                      tasks := s.tasks ++ [] }) :=
                ServerStep.submitted rfl ((Server.up_eq_true _).mp hup)
              rwa [← hrest] at hstep
            · rw [if_neg hup] at h
              rcases Exec.ok_pair h with ⟨rfl, rfl⟩
              rw [Server.up_eq_true, not_not] at hup
              have hstep : ServerStep chainId pubkey
                  (H, R, { s with meter, files, tasks := s.tasks ++ [.metered att] })
                  (H, R ++ [(.submit att, .submitted false)],
                    { s with meter, files, tasks := s.tasks ++ [] }) :=
                ServerStep.lost rfl hup
              rwa [← hrest] at hstep
      · rw [Server.answer, if_neg hvalid] at h
        rcases Exec.ok_pair h with ⟨rfl, rfl⟩
        exact Relation.ReflTransGen.single (ServerStep.invalid (by simpa using hvalid))
  | submitGovernance change =>
      exact Relation.ReflTransGen.single (ServerStep.of_forwarded rfl h)
  | addPeer addr => exact Relation.ReflTransGen.single (ServerStep.of_forwarded rfl h)
  | getAnchoredProof hash =>
      rw [Server.answer, Exec.bind_eq_ok] at h
      rcases h with ⟨result, hfound, h⟩
      rcases Exec.ok_pair h with ⟨rfl, hsame⟩
      rw [hsame]
      unfold findAnchoredProof at hfound
      rw [Exec.bind_eq_ok] at hfound
      rcases hfound with ⟨found, hfind, hresult⟩
      cases found with
      | none =>
          obtain rfl := Except.ok.inj hresult
          exact Relation.ReflTransGen.single (ServerStep.unknown hfind)
      | some proof =>
          refine (Relation.ReflTransGen.single (ServerStep.located hfind)).tail ?_
          have hstep : ServerStep chainId pubkey
              (H, R, { s with tasks := s.tasks ++ [.located hash proof] })
              (H, R ++ [(.getAnchoredProof hash, .anchoredProof result)],
                { s with tasks := s.tasks ++ [] }) :=
            ServerStep.anchored rfl hresult
          rwa [List.append_nil] at hstep
  | getProof | status | nodeInfo | usage => exact absurd rfl hreads

/-! ## The process behind the server -/

variable {n₀ : Node C} {anchor : Option (AnchorService B)} {meter : Option Meter}
  {files : Files} {now : Nat}

/-- To the process, a request is an event that arrives, or nothing. -/
theorem ServerStep.process (h : ServerStep chainId pubkey (H, R, s) (H', R', s')) :
    Relation.ReflTransGen (ProcessStep anyDrive) (H, s.process) (H', s'.process) := by
  cases h with
  | inner h => exact Relation.ReflTransGen.single h
  | read => exact Relation.ReflTransGen.refl
  | invalid => exact Relation.ReflTransGen.refl
  | exceeded => exact Relation.ReflTransGen.refl
  | metered => exact Relation.ReflTransGen.refl
  | submitted _ hup => exact Relation.ReflTransGen.single (ProcessStep.arrive _ rfl hup)
  | lost => exact Relation.ReflTransGen.refl
  | @forwarded _ _ _ req ev hreq hup =>
      refine Relation.ReflTransGen.single (ProcessStep.arrive _ ?_ hup)
      cases req with
      | submitGovernance change => rw [← Option.some.inj hreq]; rfl
      | addPeer addr => rw [← Option.some.inj hreq]; rfl
      | submit | getProof | getAnchoredProof | status | nodeInfo | usage => cases hreq
  | refused => exact Relation.ReflTransGen.refl
  | unknown => exact Relation.ReflTransGen.refl
  | located => exact Relation.ReflTransGen.refl
  | anchored => exact Relation.ReflTransGen.refl

/-- The process behind a server runs as it does without one. -/
theorem ServerRun.process (h : ServerRun chainId pubkey n₀ anchor meter files now (H, R, s)) :
    ProcessRun anyDrive n₀ anchor now (H, s.process) := by
  have hall : ∀ x, ServerRun chainId pubkey n₀ anchor meter files now x →
      ProcessRun anyDrive n₀ anchor now (x.1, x.2.2.process) := by
    intro x hx
    induction hx with
    | refl => exact Relation.ReflTransGen.refl
    | tail _ hstep ih => exact ih.trans hstep.process
  exact hall _ h

/-! ## A server with one client -/

/-- The client's requests one after the other; in between (`none`) it is the
loop's turn. -/
def Server.drive (chainId : String) (pubkey : C.VerifyingKey) (ord : IterOrder) (now : UInt64) :
    List (Option (RpcRequest C)) → History C × List (Reply C) × Server C B →
      Exec (History C × List (Reply C) × Server C B)
  | [], x => .ok x
  | none :: moves, (H, R, s) => do
      let (H, process) ← s.process.turn ord now H
      drive chainId pubkey ord now moves (H, R, { s with process })
  | some req :: moves, (H, R, s) => do
      let (resp, s) ← s.answer chainId pubkey now req
      drive chainId pubkey ord now moves (H, R ++ [(req, resp)], s)

/-- Steps of the process are steps of the server. -/
theorem ServerStep.of_process {process : Process C B}
    (h : Relation.ReflTransGen (ProcessStep anyDrive) (H, s.process) (H', process)) :
    Relation.ReflTransGen (ServerStep chainId pubkey) (H, R, s) (H', R, { s with process }) := by
  have hall : ∀ x, Relation.ReflTransGen (ProcessStep anyDrive) (H, s.process) x →
      Relation.ReflTransGen (ServerStep chainId pubkey) (H, R, s) (x.1, R, { s with process := x.2 }) := by
    intro x hx
    induction hx with
    | refl => exact Relation.ReflTransGen.refl
    | tail _ hstep ih => exact ih.tail (ServerStep.inner hstep)
  exact hall _ h

theorem ServerStep.of_drive {ord : IterOrder} {now : UInt64}
    {moves : List (Option (RpcRequest C))} {x y : History C × List (Reply C) × Server C B}
    (h : Server.drive chainId pubkey ord now moves x = .ok y) :
    Relation.ReflTransGen (ServerStep chainId pubkey) x y := by
  induction moves generalizing x with
  | nil =>
      obtain rfl := Except.ok.inj h
      exact Relation.ReflTransGen.refl
  | cons move moves ih =>
      rcases x with ⟨H, R, s⟩
      cases move with
      | none =>
          rw [Server.drive, Exec.bind_eq_ok] at h
          rcases h with ⟨⟨H', process⟩, hturn, h⟩
          exact (ServerStep.of_process (ProcessStep.of_turn hturn)).trans (ih h)
      | some req =>
          rw [Server.drive, Exec.bind_eq_ok] at h
          rcases h with ⟨⟨resp, s'⟩, hanswer, h⟩
          exact (ServerStep.of_answer hanswer).trans (ih h)

/-- A lone validator with a licence for two submissions, anchoring every
block, and its client. -/
def sampleServed (moves : List (Option (RpcRequest sample))) :
    Exec (Node sample × History sample × List (Reply sample) × Server sample mockAnchor) := do
  let n₀ ← Node.new (C := sample) [1] (1 : UInt8) 1 [] 1000
  let service := AnchorService.new (B := mockAnchor) [] 1 (by decide)
  let s₀ : Server sample mockAnchor :=
    ⟨Process.create n₀ (some service) 0, some (Meter.new (some 2) none (fun _ => none) 0),
      fun _ => none, []⟩
  let res ← Server.drive "test" (1 : UInt8) sampleOrder 0 moves (History.empty, [], s₀)
  return (n₀, res)

/-- A document and its requests. -/
def sampleLookup (att : Attestation sample) : List (Option (RpcRequest sample)) :=
  [some (.getProof att.hash), some (.getAnchoredProof att.hash)]

/-- The client looks at the chain before, between and after two blocks, and
asks for the first document each time; a third submission is one too many. -/
def sampleClient : List (Option (RpcRequest sample)) :=
  [some .status, some (.submit (sampleAttestation 9 7))] ++ sampleLookup (sampleAttestation 9 7) ++
    List.replicate 12 none ++ [some .status] ++ sampleLookup (sampleAttestation 9 7) ++
    [some (.submit (sampleAttestation 9 8)), some (.submit (sampleAttestation 9 9))] ++
    List.replicate 12 none ++ [some .nodeInfo] ++ sampleLookup (sampleAttestation 9 7)

theorem ServerRun.of_sampleServed {moves : List (Option (RpcRequest sample))}
    {p : History sample × List (Reply sample) × Server sample mockAnchor → Bool}
    (h : (sampleServed moves).holds (fun r => p r.2) = true) :
    ∃ n₀ service meter H R s, Node.new (C := sample) [1] (1 : UInt8) 1 [] 1000 = .ok n₀ ∧
      ServerRun "test" (1 : UInt8) n₀ service meter (fun _ => none) 0 (H, R, s) ∧
      p (H, R, s) = true := by
  rcases Exec.holds_iff.mp h with ⟨⟨n₀, H, R, s⟩, hserved, hp⟩
  unfold sampleServed at hserved
  rw [Exec.bind_eq_ok] at hserved
  rcases hserved with ⟨n₁, hnew, hserved⟩
  rw [Exec.bind_eq_ok] at hserved
  rcases hserved with ⟨res, hdrive, hserved⟩
  rcases Exec.ok_pair hserved with ⟨rfl, rfl⟩
  exact ⟨n₀, _, _, H, R, s, hnew, ServerStep.of_drive hdrive, hp⟩

end SmartLedger
