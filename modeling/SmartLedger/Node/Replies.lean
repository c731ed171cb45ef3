import SmartLedger.Consensus.Pool
import SmartLedger.Node.Rpc

/-! # What clients are told

`replies_agree`: what clients are told never goes back. A proof once served is
served ever after, and the chain tip only moves forward.

`submissions_kept`: a submission that was accepted waits for the loop, waits
in the mempool or is in a block, for as long as the loop is up.
-/

namespace SmartLedger

variable {C : Crypto} {B : AnchorBackend} {chainId : String} {pubkey : C.VerifyingKey}
  {H H' : History C} {R R' : List (Reply C)} {s s' : Server C B} {r r' : Reply C}

/-! ## What is found stays found -/

/-- What is found stays found, as it is, when blocks are added behind. -/
theorem findProof_append {hash : Hash} {bs : List (Block C)} {p : NotarizationProof C}
    (h : findProof hash bs = .ok (some p)) (fresh : List (Block C)) :
    findProof hash (bs ++ fresh) = .ok (some p) := by
  induction bs with
  | nil => cases Except.ok.inj h
  | cons b bs ih =>
      rw [List.cons_append]
      unfold findProof at h ⊢
      split at h
      · exact h
      · exact ih h

/-- Looking for a proof never fails, and finds one exactly for the documents
in the blocks. -/
theorem findProof_spec (hash : Hash) (bs : List (Block C)) :
    ∃ r, findProof hash bs = .ok r ∧
      (r.isSome = true ↔ ∃ b ∈ bs, ∃ a ∈ b.attestations, a.hash = hash) ∧
      ∀ p, r = some p → p.attestation.hash = hash ∧
        ∃ b ∈ bs, p.attestation ∈ b.attestations ∧ p.header = b.header ∧ p.qc = b.qc := by
  induction bs with
  | nil => exact ⟨none, rfl, by simp, by simp⟩
  | cons b bs ih =>
      unfold findProof
      cases hindex : b.attestations.findIdx? fun a => a.hash = hash with
      | some index =>
          rw [List.findIdx?_eq_some_iff_getElem] at hindex
          rcases hindex with ⟨hlt, hhash, _⟩
          -- found in this block, so a proof is made of its entry
          have ha : b.attestations[index]? = some b.attestations[index] :=
            List.getElem?_eq_getElem hlt
          rcases NotarizationProof.fromBlock_spec ha with ⟨path, hspec, _⟩
          have hfound : b.attestations[index].hash = hash := of_decide_eq_true hhash
          refine ⟨_, hspec, ?_, ?_⟩
          · simp only [Option.isSome_some, true_iff]
            exact ⟨b, List.mem_cons_self, _, List.getElem_mem hlt, hfound⟩
          · intro p hp
            obtain rfl := Option.some.inj hp
            exact ⟨hfound, b, List.mem_cons_self, List.getElem_mem hlt, rfl, rfl⟩
      | none =>
          rw [List.findIdx?_eq_none_iff] at hindex
          -- not in this block, so as in the rest
          rcases ih with ⟨r, hr, hsome, hproof⟩
          refine ⟨r, hr, ?_, ?_⟩
          · rw [hsome]
            constructor
            · rintro ⟨b', hb', hrest⟩
              exact ⟨b', List.mem_cons_of_mem _ hb', hrest⟩
            · rintro ⟨b', hb', a, ha, hhash⟩
              rcases List.mem_cons.mp hb' with rfl | hb'
              · exact absurd hhash (of_decide_eq_false (hindex a ha))
              · exact ⟨b', hb', a, ha, hhash⟩
          · intro p hp
            rcases hproof p hp with ⟨hhash, b', hb', hrest⟩
            exact ⟨hhash, b', List.mem_cons_of_mem _ hb', hrest⟩

namespace AnchorService

/-- The windows are searched from the oldest on. -/
theorem inclusionIn_append {blockId : Hash} {history : List Window}
    {found : CheckpointInclusion × AnchorRecord}
    (h : inclusionIn C blockId history = .ok (some found)) (fresh : List Window) :
    inclusionIn C blockId (history ++ fresh) = .ok (some found) := by
  induction history with
  | nil => cases Except.ok.inj h
  | cons w history ih =>
      rw [List.cons_append]
      unfold inclusionIn at h ⊢
      split at h
      · next hin =>
        rw [if_pos hin]
        exact h
      · next hout =>
        rw [if_neg hout]
        exact ih h

/-- Recording a block adds to the history at most. -/
theorem recordBlock_history (s : AnchorService B) (blockId : Hash) (height : UInt64) :
    s.history <+: (s.recordBlock C blockId height).1.history := by
  unfold recordBlock
  dsimp only
  split
  · rcases flush_cases (C := C) { s with
      pendingFrom := some (s.pendingFrom.getD height)
      pendingTo := height
      pendingIds := s.pendingIds ++ [blockId] } with ⟨backend, hflush⟩ | ⟨backend, w, cp, _, _, hflush⟩
    · rw [hflush]
    · rw [hflush]
      exact List.prefix_append _ _
  · exact List.prefix_refl _

/-- An anchored proof stays the same when windows are added. -/
theorem anchorProof_append {s s' : AnchorService B} (h : s.history <+: s'.history)
    {proof : NotarizationProof C} {a : AnchoredProof C} (ha : s.anchorProof proof = .ok (some a)) :
    s'.anchorProof proof = .ok (some a) := by
  rcases h with ⟨fresh, hfresh⟩
  unfold anchorProof inclusionFor at ha ⊢
  rw [Exec.bind_eq_ok] at ha
  rcases ha with ⟨found, hfound, ha⟩
  cases found with
  | none => cases Except.ok.inj ha
  | some found =>
      rw [← hfresh, inclusionIn_append hfound fresh]
      exact ha

end AnchorService

/-- The process has what it had, and possibly more: blocks and published
windows. -/
structure Process.Grows (p p' : Process C B) : Prop where
  store : ∃ fresh, p'.node.store = p.node.store ++ fresh
  anchor : ∀ service, p.anchor = some service →
    ∃ service', p'.anchor = some service' ∧ service.history <+: service'.history

theorem Process.Grows.refl (p : Process C B) : p.Grows p where
  store := ⟨[], (List.append_nil _).symm⟩
  anchor service hservice := ⟨service, hservice, List.prefix_refl _⟩

/-- No step of the process takes back a block or a window. -/
theorem ProcessStep.grows {guard : List (Output C) → Engine C → Event C → Prop}
    {H H' : History C} {p p' : Process C B} (h : ProcessStep guard (H, p) (H', p')) :
    p.Grows p' := by
  refine ⟨h.store_append, ?_⟩
  intro service hservice
  have hsame : ∃ service', p.anchor = some service' ∧ service.history <+: service'.history :=
    ⟨service, hservice, List.prefix_refl _⟩
  cases h with
  | tick => exact hsame
  | timer => exact hsame
  | arrive => exact hsame
  | start => exact hsame
  | receive => exact hsame
  | broadcast => exact hsame
  | schedule => exact hsame
  | @committed _ _ b =>
      refine ⟨(service.recordBlock C (b.header.id C) b.header.height).1, ?_,
        service.recordBlock_history _ _⟩
      simp [Process.store, hservice]
  | shutdown => exact hsame
  | panicStart => exact hsame
  | panicReceive => exact hsame
  | panicSchedule => exact hsame

theorem Process.Grows.of_same {p p' : Process C B} (hstore : p'.node.store = p.node.store)
    (hanchor : p'.anchor = p.anchor) : p.Grows p' where
  store := ⟨[], by rw [hstore, List.append_nil]⟩
  anchor service hservice := ⟨service, hanchor.trans hservice, List.prefix_refl _⟩

/-- Only the threads of the node change what is read. -/
theorem ServerStep.grows (h : ServerStep chainId pubkey (H, R, s) (H', R', s')) :
    s.process.Grows s'.process := by
  cases h with
  | inner h => exact h.grows
  | read => exact Process.Grows.refl _
  | invalid => exact Process.Grows.refl _
  | exceeded => exact Process.Grows.refl _
  | metered => exact Process.Grows.refl _
  | submitted => exact Process.Grows.of_same rfl rfl
  | lost => exact Process.Grows.refl _
  | forwarded => exact Process.Grows.of_same rfl rfl
  | refused => exact Process.Grows.refl _
  | unknown => exact Process.Grows.refl _
  | located => exact Process.Grows.refl _
  | anchored => exact Process.Grows.refl _

/-! ## The tip of a numbered chain -/

theorem Numbered.prefix_of {bs bs' : List (Block C)} (h : Numbered bs') (hpre : bs <+: bs') :
    Numbered bs := by
  rcases hpre with ⟨rest, rfl⟩
  intro i b hb
  have hlt := (List.getElem?_eq_some_iff.mp hb).1
  exact h i b (by rw [List.getElem?_append_left hlt, hb])

/-- The heights of numbered blocks end with their number. -/
theorem Numbered.height_le {bs : List (Block C)} (h : Numbered bs) {b : Block C} (hb : b ∈ bs) :
    b.header.height.toNat ≤ bs.length := by
  rcases List.mem_iff_getElem?.mp hb with ⟨i, hi⟩
  have hlt := (List.getElem?_eq_some_iff.mp hi).1
  rw [h i b hi]
  omega

/-- The height of the tip counts the blocks. -/
theorem Numbered.storeTip_height {bs : List (Block C)} (h : Numbered bs) :
    (storeTip bs).2.toNat = bs.length := by
  unfold storeTip
  cases hlast : bs.getLast? with
  | none =>
      rw [List.getLast?_eq_none_iff] at hlast
      subst hlast
      rfl
  | some b =>
      rw [List.getLast?_eq_getElem?] at hlast
      have hlt := (List.getElem?_eq_some_iff.mp hlast).1
      show b.header.height.toNat = bs.length
      rw [h _ b hlast]
      omega

/-! ## What clients are told -/

/-- The height and the id of the chain tip that a response names. -/
def RpcResponse.tip? : RpcResponse C → Option (UInt64 × Hash)
  | .status height tip | .nodeInfo _ _ height tip => some (height, tip)
  | .submitted _ | .proof _ | .anchoredProof _ | .usage _ _ _ _ | .error _ => none

/-- The submission that a reply accepts. -/
def Reply.accepted? : Reply C → Option (Attestation C)
  | (.submit att, .submitted true) => some att
  | _ => none

theorem Reply.eq_of_accepted {att : Attestation C} (h : r.accepted? = some att) :
    r = (.submit att, .submitted true) := by
  unfold Reply.accepted? at h
  split at h
  · rw [Option.some.inj h]
  · cases h

/-- Does the response hold a proof? -/
def RpcResponse.found : RpcResponse C → Bool
  | .proof p => p.isSome
  | .anchoredProof a => a.isSome
  | .submitted _ | .status _ _ | .nodeInfo _ _ _ _ | .usage _ _ _ _ | .error _ => false

/-- The server has a proof of `hash`, and it is anchored: that makes `a`. -/
def Server.Anchors (s : Server C B) (hash : Hash) (a : AnchoredProof C) : Prop :=
  ∃ proof service, findProof hash s.store = .ok (some proof) ∧
    s.process.anchor = some service ∧ service.anchorProof proof = .ok (some a)

/-- The reply says what the server has. -/
structure Reply.Answers (s : Server C B) (r : Reply C) : Prop where
  proof : ∀ hash p, r = (.getProof hash, .proof p) → findProof hash s.store = .ok p
  anchored : ∀ hash a, r = (.getAnchoredProof hash, .anchoredProof a) →
    ∀ a', s.Anchors hash a' ↔ a = some a'
  tip : ∀ height tip, r.2.tip? = some (height, tip) → storeTip s.store = (tip, height)

/-- What the reply found is still there, and the tip it named was passed. -/
structure Reply.Stands (s : Server C B) (r : Reply C) : Prop where
  proof : ∀ hash p, r = (.getProof hash, .proof (some p)) →
    findProof hash s.store = .ok (some p)
  anchored : ∀ hash a, r = (.getAnchoredProof hash, .anchoredProof (some a)) → s.Anchors hash a
  tip : ∀ height tip, r.2.tip? = some (height, tip) →
    ∃ before, before <+: s.store ∧ storeTip before = (tip, height)

/-- A later reply `r'` takes back nothing of `r`: a proof, anchored or not, is
served again as it was, the tip does not move back, and it is not below the
block of a served proof. -/
structure Reply.Agrees (r r' : Reply C) : Prop where
  proof : ∀ hash p p', r = (.getProof hash, .proof (some p)) → r' = (.getProof hash, .proof p') →
    p' = some p
  anchored : ∀ hash a a', r = (.getAnchoredProof hash, .anchoredProof (some a)) →
    r' = (.getAnchoredProof hash, .anchoredProof a') → a' = some a
  wrapped : ∀ hash a p', r = (.getAnchoredProof hash, .anchoredProof (some a)) →
    r' = (.getProof hash, .proof p') → p' = some a.notarization
  tip : ∀ height tip height' tip', r.2.tip? = some (height, tip) →
    r'.2.tip? = some (height', tip') → height ≤ height' ∧ (height = height' → tip = tip')
  sealed : ∀ hash p height tip, r = (.getProof hash, .proof (some p)) →
    r'.2.tip? = some (height, tip) → p.header.height ≤ height

theorem AnchorService.anchorProof_notarization {service : AnchorService B}
    {proof : NotarizationProof C} {a : AnchoredProof C}
    (h : service.anchorProof proof = .ok (some a)) : a.notarization = proof := by
  unfold AnchorService.anchorProof at h
  rw [Exec.bind_eq_ok] at h
  rcases h with ⟨found, _, h⟩
  cases found with
  | none => cases Except.ok.inj h
  | some found =>
      rw [← Option.some.inj (Except.ok.inj h)]

/-- There is one anchored proof of a document at most. -/
theorem Server.Anchors.unique {hash : Hash} {a a' : AnchoredProof C} (h : s.Anchors hash a)
    (h' : s.Anchors hash a') : a = a' := by
  rcases h with ⟨proof, service, hproof, hservice, ha⟩
  rcases h' with ⟨proof', service', hproof', hservice', ha'⟩
  obtain rfl : proof = proof' := Option.some.inj (Except.ok.inj (hproof.symm.trans hproof'))
  obtain rfl : service = service' := Option.some.inj (hservice.symm.trans hservice')
  exact Option.some.inj (Except.ok.inj (ha.symm.trans ha'))

theorem Server.Anchors.grow {hash : Hash} {a : AnchoredProof C} (h : s.Anchors hash a)
    (hgrows : s.process.Grows s'.process) : s'.Anchors hash a := by
  rcases h with ⟨proof, service, hproof, hservice, ha⟩
  rcases hgrows.store with ⟨fresh, hstore⟩
  rcases hgrows.anchor service hservice with ⟨service', hservice', hhistory⟩
  refine ⟨proof, service', ?_, hservice', AnchorService.anchorProof_append hhistory ha⟩
  unfold Server.store
  rw [hstore]
  exact findProof_append hproof fresh

namespace Reply

/-- What stood stands when the process grows. -/
theorem Stands.grow (h : r.Stands s) (hgrows : s.process.Grows s'.process) : r.Stands s' := by
  rcases hgrows.store with ⟨fresh, hstore⟩
  constructor
  · intro hash p hr
    unfold Server.store
    rw [hstore]
    exact findProof_append (h.proof hash p hr) fresh
  · intro hash a hr
    exact (h.anchored hash a hr).grow hgrows
  · intro height tip hr
    rcases h.tip height tip hr with ⟨before, hpre, htip⟩
    refine ⟨before, hpre.trans ?_, htip⟩
    unfold Server.store
    rw [hstore]
    exact List.prefix_append _ _

theorem Answers.stands (h : r.Answers s) : r.Stands s := by
  constructor
  · intro hash p hr
    exact h.proof hash _ hr
  · intro hash a hr
    exact (h.anchored hash _ hr a).mpr rfl
  · intro height tip hr
    exact ⟨s.store, List.prefix_refl _, h.tip height tip hr⟩

/-- What stands agrees with what is answered now. -/
theorem Stands.agrees (hnumbered : Numbered s.store) (h : r.Stands s) (h' : r'.Answers s) :
    r.Agrees r' := by
  constructor
  · intro hash p p' hr hr'
    have hfound := (h.proof hash p hr).symm.trans (h'.proof hash p' hr')
    exact (Except.ok.inj hfound).symm
  · intro hash a a' hr hr'
    exact (h'.anchored hash a' hr' a).mp (h.anchored hash a hr)
  · intro hash a p' hr hr'
    rcases h.anchored hash a hr with ⟨proof, service, hproof, _, ha⟩
    have hfound := hproof.symm.trans (h'.proof hash p' hr')
    rw [← Except.ok.inj hfound, AnchorService.anchorProof_notarization ha]
  · intro height tip height' tip' hr hr'
    rcases h.tip height tip hr with ⟨before, hpre, htip⟩
    have htip' := h'.tip height' tip' hr'
    have hcount := (hnumbered.prefix_of hpre).storeTip_height
    have hcount' := hnumbered.storeTip_height
    rw [htip] at hcount
    rw [htip'] at hcount'
    dsimp only at hcount hcount'
    have hle := hpre.length_le
    constructor
    · rw [UInt64.le_iff_toNat_le]
      omega
    · rintro rfl
      -- as many blocks, so the same chain
      have hsame : before = s.store := hpre.eq_of_length (by omega)
      rw [hsame, htip', Prod.mk.injEq] at htip
      exact htip.1.symm
  · intro hash p height tip hr hr'
    rcases findProof_spec hash s.store with ⟨found, hfind, _, hspec⟩
    rw [h.proof hash p hr] at hfind
    rcases hspec p (Except.ok.inj hfind).symm with ⟨_, b, hb, _, hheader, _⟩
    have hcount := hnumbered.storeTip_height
    rw [h'.tip height tip hr'] at hcount
    dsimp only at hcount
    have hle := hnumbered.height_le hb
    rw [hheader, UInt64.le_iff_toNat_le]
    omega

/-- A reply about a submission says nothing about the chain. -/
theorem Answers.of_submitted {accepted : Bool} (hr : r.2 = .submitted accepted) : r.Answers s := by
  constructor
  · rintro hash p rfl
    cases hr
  · rintro hash a rfl
    cases hr
  · intro height tip htip
    rw [hr] at htip
    cases htip

theorem Answers.of_error {message : String} (hr : r.2 = .error message) : r.Answers s := by
  constructor
  · rintro hash p rfl
    cases hr
  · rintro hash a rfl
    cases hr
  · intro height tip htip
    rw [hr] at htip
    cases htip

/-- An answer that is only read off. -/
theorem Answers.of_read {req : RpcRequest C} {resp : RpcResponse C} {now : UInt64}
    (hreads : req.reads = true) (h : s.answer chainId pubkey now req = .ok (resp, s)) :
    Reply.Answers s (req, resp) := by
  cases req with
  | getProof hash =>
      rw [Server.answer, Exec.bind_eq_ok] at h
      rcases h with ⟨found, hfound, h⟩
      rcases Exec.ok_pair h with ⟨rfl, _⟩
      constructor
      · rintro hash' p ⟨⟩
        exact hfound
      · rintro hash' a ⟨⟩
      · rintro height tip ⟨⟩
  | status =>
      rcases Exec.ok_pair h with ⟨rfl, _⟩
      constructor
      · rintro hash p ⟨⟩
      · rintro hash a ⟨⟩
      · rintro height tip ⟨⟩
        rfl
  | nodeInfo =>
      rcases Exec.ok_pair h with ⟨rfl, _⟩
      constructor
      · rintro hash p ⟨⟩
      · rintro hash a ⟨⟩
      · rintro height tip ⟨⟩
        rfl
  | usage =>
      -- the meter says nothing about the chain
      have hresp : resp.tip? = none := by
        cases hmeter : s.meter with
        | none =>
            simp only [Server.answer, hmeter] at h
            rw [(Exec.ok_pair h).1]
            rfl
        | some m =>
            simp only [Server.answer, hmeter] at h
            rw [(Exec.ok_pair h).1]
            rfl
      constructor
      · rintro hash p ⟨⟩
      · rintro hash a ⟨⟩
      · intro height tip htip
        cases hresp.symm.trans htip
  | submit | submitGovernance | addPeer | getAnchoredProof => cases hreads

/-- A document that is in no block is not anchored. -/
theorem Answers.of_unknown {hash : Hash} (h : findProof hash s.store = .ok none) :
    Reply.Answers s (.getAnchoredProof hash, .anchoredProof none) := by
  constructor
  · rintro hash' p ⟨⟩
  · rintro hash' a ⟨⟩ a'
    constructor
    · rintro ⟨proof, service, hproof, _⟩
      cases Except.ok.inj (h.symm.trans hproof)
    · rintro ⟨⟩
  · rintro height tip ⟨⟩

theorem Answers.of_anchored {hash : Hash} {proof : NotarizationProof C}
    {result : Option (AnchoredProof C)} (hproof : findProof hash s.store = .ok (some proof))
    (h : anchoredFor s.process.anchor proof = .ok result) :
    Reply.Answers s (.getAnchoredProof hash, .anchoredProof result) := by
  constructor
  · rintro hash' p ⟨⟩
  · rintro hash' a ⟨⟩ a'
    constructor
    · rintro ⟨proof', service, hproof', hservice, ha⟩
      obtain rfl := Option.some.inj (Except.ok.inj (hproof.symm.trans hproof'))
      rw [hservice] at h
      exact Except.ok.inj (h.symm.trans ha)
    · rintro rfl
      cases hservice : s.process.anchor with
      | none =>
          rw [hservice] at h
          cases Except.ok.inj h
      | some service =>
          rw [hservice] at h
          exact ⟨proof, service, hproof, hservice, h⟩
  · rintro height tip ⟨⟩

end Reply

/-- All replies so far stand, the proofs that wait for their anchoring are
there, and each reply agrees with those after it. -/
structure Server.Served (R : List (Reply C)) (s : Server C B) : Prop where
  stands : ∀ r ∈ R, r.Stands s
  located : ∀ hash proof, .located hash proof ∈ s.tasks →
    findProof hash s.store = .ok (some proof)
  agree : R.Pairwise Reply.Agrees

namespace Server.Served

theorem grow (h : s.Served R) (hgrows : s.process.Grows s'.process)
    (htasks : ∀ hash proof, .located hash proof ∈ s'.tasks →
      findProof hash s.store = .ok (some proof)) : s'.Served R where
  stands r hr := (h.stands r hr).grow hgrows
  located hash proof hmem := by
    rcases hgrows.store with ⟨fresh, hstore⟩
    unfold Server.store
    rw [hstore]
    exact findProof_append (htasks hash proof hmem) fresh
  agree := h.agree

/-- One more reply, about what is there. -/
theorem answer (h : s.Served R) (hnumbered : Numbered s.store) (hr : r.Answers s) :
    s.Served (R ++ [r]) where
  stands r' hmem := by
    rcases List.mem_append.mp hmem with hold | hnew
    · exact h.stands r' hold
    · rw [List.mem_singleton.mp hnew]
      exact hr.stands
  located := h.located
  agree := by
    rw [List.pairwise_append]
    refine ⟨h.agree, List.pairwise_singleton _ _, ?_⟩
    intro r' hold r'' hnew
    rw [List.mem_singleton.mp hnew]
    exact (h.stands r' hold).agrees hnumbered hr

/-- A task is done. -/
theorem dropTask (h : s.Served R) {task : RpcTask C} {before after : List (RpcTask C)}
    (htasks : s.tasks = before ++ task :: after) :
    ∀ hash proof, .located hash proof ∈ before ++ after →
      findProof hash s.store = .ok (some proof) := by
  intro hash proof hmem
  apply h.located
  rw [htasks, List.mem_append, List.mem_cons]
  rcases List.mem_append.mp hmem with hbefore | hafter
  · exact Or.inl hbefore
  · exact Or.inr (Or.inr hafter)

/-- One step of the server. -/
theorem step (h : s.Served R) (hnumbered : Numbered s'.store)
    (hstep : ServerStep chainId pubkey (H, R, s) (H', R', s')) : s'.Served R' := by
  have hgrows := hstep.grows
  cases hstep with
  | inner => exact h.grow hgrows h.located
  | read hreads hanswer => exact h.answer hnumbered (Reply.Answers.of_read hreads hanswer)
  | invalid => exact h.answer hnumbered (Reply.Answers.of_submitted rfl)
  | exceeded => exact (h.grow hgrows h.located).answer hnumbered (Reply.Answers.of_error rfl)
  | metered =>
      apply h.grow hgrows
      intro hash proof hmem
      rcases List.mem_append.mp hmem with hold | hnew
      · exact h.located hash proof hold
      · cases List.mem_singleton.mp hnew
  | submitted htasks =>
      exact (h.grow hgrows (h.dropTask htasks)).answer hnumbered (Reply.Answers.of_submitted rfl)
  | lost htasks =>
      exact (h.grow hgrows (h.dropTask htasks)).answer hnumbered (Reply.Answers.of_submitted rfl)
  | forwarded =>
      exact (h.grow hgrows h.located).answer hnumbered (Reply.Answers.of_submitted rfl)
  | refused => exact h.answer hnumbered (Reply.Answers.of_submitted rfl)
  | unknown hfind => exact h.answer hnumbered (Reply.Answers.of_unknown hfind)
  | @located _ _ _ hash proof hfind =>
      apply h.grow hgrows
      intro hash' proof' hmem
      rcases List.mem_append.mp hmem with hold | hnew
      · exact h.located hash' proof' hold
      · obtain ⟨rfl, rfl⟩ := RpcTask.located.inj (List.mem_singleton.mp hnew)
        exact hfind
  | anchored htasks hresult =>
      -- the store may have grown since the proof was located
      refine (h.grow hgrows (h.dropTask htasks)).answer hnumbered
        (Reply.Answers.of_anchored (h.located _ _ ?_) hresult)
      rw [htasks]
      exact List.mem_append_right _ List.mem_cons_self

end Server.Served

/-! ## Over a run -/

variable {n₀ : Node C} {anchor : Option (AnchorService B)} {meter : Option Meter}
  {files : Files} {now : Nat}

/-- What the server reads is a chain from the genesis. -/
theorem ServerRun.numbered {genesis : List C.VerifyingKey} {meSk : C.SigningKey}
    {mePk : C.VerifyingKey} {store : List (Block C)} {baseTimeout : Nat}
    (hstore : Chain (genesisState genesis) store)
    (hnew : Node.new genesis meSk mePk store baseTimeout = .ok n₀)
    (h : ServerRun chainId pubkey n₀ anchor meter files now (H, R, s)) : Numbered s.store := by
  rcases Node.new_eq_ok hnew with ⟨hbuild, hsame⟩
  have hon := OnChain.rebuild hstore hbuild
  rw [← hsame] at hon
  have hstored := h.process.stored hon (fun _ _ _ => trivial)
  exact (Numbered.of_chain hstored.chain).prefix_of (List.prefix_append _ _)

/-- Whatever the threads do, and however the connections take turns: no reply
takes back what an earlier one said. -/
theorem replies_agree {genesis : List C.VerifyingKey} {meSk : C.SigningKey}
    {mePk : C.VerifyingKey} {store : List (Block C)} {baseTimeout : Nat}
    (hstore : Chain (genesisState genesis) store)
    (hnew : Node.new genesis meSk mePk store baseTimeout = .ok n₀)
    (h : ServerRun chainId pubkey n₀ anchor meter files now (H, R, s)) :
    R.Pairwise Reply.Agrees := by
  have hall : ∀ x, ServerRun chainId pubkey n₀ anchor meter files now x →
      x.2.2.Served x.2.1 := by
    intro x hx
    induction hx with
    | refl => exact ⟨by simp, by simp, List.Pairwise.nil⟩
    | tail hprev hstep ih =>
        exact ih.step (ServerRun.numbered hstore hnew (hprev.tail hstep)) hstep
  exact (hall _ h).agree

/-- One client is told of the heights 0, 1 and 2, and finds its document twice
after it was sealed, anchored and not. -/
theorem replies_agree_client :
    ∃ (n₀ : Node sample) (service : Option (AnchorService mockAnchor)) (meter : Option Meter)
      (H : History sample) (R : List (Reply sample)) (s : Server sample mockAnchor),
      ServerRun "test" (1 : UInt8) n₀ service meter (fun _ => none) 0 (H, R, s) ∧
      R.filterMap (fun r => r.2.tip?.map Prod.fst) = [0, 1, 2] ∧
      (R.filter fun r => r.2.found).length = 4 ∧ R.Pairwise Reply.Agrees := by
  have hholds : (sampleServed sampleClient).holds (fun r =>
      decide (r.2.2.1.filterMap (fun r => r.2.tip?.map Prod.fst) = [0, 1, 2] ∧
        (r.2.2.1.filter fun r => r.2.found).length = 4)) = true := by
    decide +kernel
  rcases ServerRun.of_sampleServed (p := fun x =>
    decide (x.2.1.filterMap (fun r => r.2.tip?.map Prod.fst) = [0, 1, 2] ∧
      (x.2.1.filter fun r => r.2.found).length = 4)) hholds with
    ⟨n₀, service, meter, H, R, s, hnew, hrun, hp⟩
  rcases of_decide_eq_true hp with ⟨htips, hfound⟩
  have hstore : Chain (genesisState (C := sample) [1]) [] := trivial
  exact ⟨n₀, service, meter, H, R, s, hrun, htips, hfound, replies_agree hstore hnew hrun⟩

/-! ## Accepted submissions -/

/-- The submission waits for the loop, it waits in the mempool, or its leaf is
in a block that is stored or about to be. -/
def Process.Keeps (p : Process C B) (att : Attestation C) : Prop :=
  .event (.submit att) ∈ p.inbox ∨ att ∈ p.node.engine.mempool ∨
    ∃ b ∈ p.ledger, ∃ a ∈ b.attestations, a.leafHash = att.leafHash

section Keeps

variable {guard : List (Output C) → Engine C → Event C → Prop} {p p' : Process C B}
  {att : Attestation C}

/-- A loop that is gone stays gone. -/
theorem ProcessStep.up (hstep : ProcessStep guard (H, p) (H', p')) (hup : p'.phase ≠ .gone) :
    p.phase ≠ .gone := by
  cases hstep with
  | tick => exact hup
  | timer => exact hup
  | arrive => exact hup
  | start hphase => simp [hphase]
  | receive hphase => simp [hphase]
  | broadcast hphase => simp [hphase]
  | schedule hphase => simp [hphase]
  | committed hphase => simp [hphase]
  | shutdown => exact absurd rfl hup
  | panicStart => exact absurd rfl hup
  | panicReceive => exact absurd rfl hup
  | panicSchedule => exact absurd rfl hup

/-- A submission that the loop takes is pooled, or sealed at once. -/
theorem Node.dispatch_submit {n n' : Node C} {ord : IterOrder} {out : List (Effect C)}
    {sent : List (Action C)} (h : n.dispatch ord (.submit att) = .ok (n', out, sent)) :
    att ∈ n'.engine.mempool ∨
      ∃ b ∈ finalized (effects out), ∃ a ∈ b.attestations, a.leafHash = att.leafHash := by
  simp only [Node.dispatch, Exec.bind_eq_ok] at h
  rcases h with ⟨⟨engine, o⟩, hadd, h⟩
  rcases Exec.ok_triple h with ⟨rfl, rfl, rfl⟩
  have hhandle : n.engine.handle ord (.attestation att) = .ok (engine, effects out) := by
    simp only [Engine.handle, hadd]
    rfl
  have hrun : Run anyEvent engine [] [] engine := Run.init
  have hkept := (hrun.attestation_kept hhandle).1
  rwa [List.append_nil] at hkept

/-- What happens in the engine keeps what is pooled. -/
theorem Process.Keeps.pooled {evs : List (Event C)} {log : List (Output C)}
    (hatt : att ∈ p.node.engine.mempool) (htrace : Trace anyEvent p.node.engine evs log p'.node.engine)
    (hledger : ∀ b ∈ finalized log, b ∈ p'.ledger) : p'.Keeps att := by
  rcases htrace.mempool_kept hatt with hpool | hsealed
  · exact Or.inr (Or.inl hpool)
  · rcases mem_sealedBy_leaf.mp hsealed with ⟨b, hb, ha⟩
    exact Or.inr (Or.inr ⟨b, hledger b hb, ha⟩)

/-- One step of the process keeps what was submitted: queued, pooled or sealed. -/
theorem Process.Keeps.step (h : p.Keeps att) (hstep : ProcessStep guard (H, p) (H', p'))
    (hup : p'.phase ≠ .gone) : p'.Keeps att := by
  cases hstep with
  | tick => exact h
  | timer => exact h.imp_left (List.mem_append_left _)
  | arrive => exact h.imp_left (List.mem_append_left _)
  | @start _ _ ord now engine out hphase hstart =>
      have hset : Trace anyEvent p.node.engine [.setTime now] [] (p.node.engine.setTime now) :=
        Engine.Enter.setTime.trace
      have hhandle : (p.node.engine.setTime now).handle ord .start = .ok (engine, effects out) := by
        simp only [Engine.handle, hstart]
        rfl
      rcases h with hwaits | hpool | ⟨b, hb, ha⟩
      · exact Or.inl hwaits
      · apply Process.Keeps.pooled hpool (hset.trans (Engine.handle_trace hhandle))
        intro b hb
        exact List.mem_append_right _ hb
      · refine Or.inr (Or.inr ⟨b, ?_, ha⟩)
        unfold Process.ledger at hb
        rw [hphase] at hb
        rcases List.mem_append.mp hb with hstored | hnone
        · exact List.mem_append_left _ hstored
        · cases hnone
  | @receive _ _ ord now ev rest node out sent hphase hinbox hguard hdispatch =>
      have hboots := Node.dispatch_boots (fun ev' hfeeds _ => hguard ev' hfeeds) hdispatch
      rcases hboots.store with ⟨applied, hstore, hfinal⟩
      have hset : Trace anyEvent p.node.engine [.setTime now] [] (p.node.engine.setTime now) :=
        Engine.Enter.setTime.trace
      rcases h with hwaits | hpool | ⟨b, hb, ha⟩
      · rw [hinbox] at hwaits
        rcases List.mem_cons.mp hwaits with hhead | hrest
        -- the loop takes the submission itself
        · obtain rfl := (Incoming.event.inj hhead).symm
          refine Or.inr ((Node.dispatch_submit hdispatch).imp_right ?_)
          rintro ⟨b, hb, ha⟩
          exact ⟨b, List.mem_append_right _ hb, ha⟩
        · exact Or.inl hrest
      · rcases hboots.steps.trace with ⟨evs, htrace⟩
        apply Process.Keeps.pooled hpool (hset.trans htrace)
        intro b hb
        -- what the pass sealed is stored now or carried out next
        show b ∈ node.store ++ finalized (effects out)
        rw [hstore, List.append_assoc, ← hfinal]
        exact List.mem_append_right _ hb
      · refine Or.inr (Or.inr ⟨b, ?_, ha⟩)
        unfold Process.ledger at hb
        rw [hphase] at hb
        show b ∈ node.store ++ finalized (effects out)
        rw [hstore]
        rcases List.mem_append.mp hb with hstored | hnone
        · exact List.mem_append_left _ (List.mem_append_left _ hstored)
        · cases hnone
  | @broadcast _ _ msg todo hphase =>
      unfold Process.Keeps Process.ledger at h
      rw [hphase] at h
      exact h
  | @schedule _ _ height round kind todo delay hphase =>
      unfold Process.Keeps Process.ledger at h
      rw [hphase] at h
      exact h
  | @committed _ _ b todo hphase =>
      refine h.imp_right (Or.imp_right ?_)
      rintro ⟨b', hb', ha⟩
      refine ⟨b', ?_, ha⟩
      unfold Process.ledger at hb'
      rw [hphase] at hb'
      show b' ∈ p.node.store ++ [b] ++ finalized (effects todo)
      rw [List.append_assoc]
      exact hb'
  | shutdown => exact absurd rfl hup
  | panicStart => exact absurd rfl hup
  | panicReceive => exact absurd rfl hup
  | panicSchedule => exact absurd rfl hup

end Keeps

/-- The replies that are no acceptance of a submission. -/
theorem mem_of_mem_reply {att : Attestation C} (h : (.submit att, .submitted true) ∈ R ++ [r])
    (hr : r ≠ (.submit att, .submitted true)) : (.submit att, .submitted true) ∈ R := by
  rcases List.mem_append.mp h with hold | hnew
  · exact hold
  · exact absurd (List.mem_singleton.mp hnew).symm hr

/-- What was accepted is kept while the loop is up. -/
theorem ServerStep.keeps {att : Attestation C}
    (h : s.process.phase ≠ .gone → (.submit att, .submitted true) ∈ R → s.process.Keeps att)
    (hstep : ServerStep chainId pubkey (H, R, s) (H', R', s')) (hup : s'.process.phase ≠ .gone)
    (hr : (.submit att, .submitted true) ∈ R') : s'.process.Keeps att := by
  cases hstep with
  | inner hinner => exact (h (hinner.up hup) hr).step hinner hup
  | read hreads =>
      apply h hup (mem_of_mem_reply hr _)
      rintro ⟨⟩
      cases hreads
  | invalid => exact h hup (mem_of_mem_reply hr (by simp))
  | exceeded => exact h hup (mem_of_mem_reply hr (by simp))
  | metered => exact h hup hr
  | @submitted _ _ _ att' =>
      by_cases hsame : att' = att
      · rw [hsame]
        exact Or.inl (List.mem_append_right _ List.mem_cons_self)
      · have hold : (.submit att, .submitted true) ∈ R := mem_of_mem_reply hr (by simp [hsame])
        exact (h hup hold).imp_left (List.mem_append_left _)
  | lost => exact h hup (mem_of_mem_reply hr (by simp))
  | @forwarded _ _ _ req ev hreq =>
      -- what is only handed on is no submission of an attestation
      have hold : (.submit att, .submitted true) ∈ R := by
        apply mem_of_mem_reply hr
        rintro ⟨⟩
        cases hreq
      exact (h hup hold).imp_left (List.mem_append_left _)
  | refused => exact h hup (mem_of_mem_reply hr (by simp))
  | unknown => exact h hup (mem_of_mem_reply hr (by simp))
  | located => exact h hup hr
  | anchored => exact h hup (mem_of_mem_reply hr (by simp))

/-- For as long as the loop is up, no accepted submission is lost. -/
theorem submissions_kept (h : ServerRun chainId pubkey n₀ anchor meter files now (H, R, s))
    (hup : s.process.phase ≠ .gone) {att : Attestation C}
    (hr : (.submit att, .submitted true) ∈ R) : s.process.Keeps att := by
  have hall : ∀ x, ServerRun chainId pubkey n₀ anchor meter files now x →
      x.2.2.process.phase ≠ .gone → (.submit att, .submitted true) ∈ x.2.1 →
        x.2.2.process.Keeps att := by
    intro x hx
    induction hx with
    | refl => simp
    | tail _ hstep ih => exact ServerStep.keeps ih hstep
  exact hall _ h hup hr

/-- One submission is sealed, the next waits for the loop. -/
theorem submissions_kept_client :
    ∃ (n₀ : Node sample) (service : Option (AnchorService mockAnchor)) (meter : Option Meter)
      (H : History sample) (R : List (Reply sample)) (s : Server sample mockAnchor),
      ServerRun "test" (1 : UInt8) n₀ service meter (fun _ => none) 0 (H, R, s) ∧
      s.store.length = 1 ∧ s.process.inbox.length = 1 ∧
      s.process.Keeps (sampleAttestation 9 7) ∧ s.process.Keeps (sampleAttestation 9 8) := by
  have hholds : (sampleServed (sampleClient.take 20)).holds (fun r =>
      decide (r.2.2.2.store.length = 1 ∧ r.2.2.2.process.inbox.length = 1 ∧
        r.2.2.2.up = true ∧
        r.2.2.1.filterMap Reply.accepted? = [sampleAttestation 9 7, sampleAttestation 9 8])) =
      true := by decide +kernel
  rcases ServerRun.of_sampleServed (p := fun x => decide (x.2.2.store.length = 1 ∧
      x.2.2.process.inbox.length = 1 ∧ x.2.2.up = true ∧
      x.2.1.filterMap Reply.accepted? = [sampleAttestation 9 7, sampleAttestation 9 8])) hholds with
    ⟨n₀, service, meter, H, R, s, _, hrun, hp⟩
  rcases of_decide_eq_true hp with ⟨hstore, hinbox, hup, haccepted⟩
  have hkept : ∀ att ∈ R.filterMap Reply.accepted?, s.process.Keeps att := by
    intro att hatt
    rcases List.mem_filterMap.mp hatt with ⟨r, hr, hsome⟩
    rw [Reply.eq_of_accepted hsome] at hr
    exact submissions_kept hrun (s.up_eq_true.mp hup) hr
  rw [haccepted] at hkept
  exact ⟨n₀, service, meter, H, R, s, hrun, hstore, hinbox,
    hkept _ List.mem_cons_self, hkept _ (List.mem_cons_of_mem _ List.mem_cons_self)⟩

end SmartLedger
