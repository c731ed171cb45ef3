import Mathlib.Data.List.TakeWhile
import Mathlib.Data.Nat.Digits.Defs
import Mathlib.Logic.Encodable.Basic
import Mathlib.Logic.Equiv.List
import SmartLedger.Lib.Lines
import SmartLedger.Node.Client

/-! # The block store on disk

The store appends each finalized block to a file, one JSON text per line, and
a reopened store keeps every line that parses. The file is a byte string
here; a crash keeps any prefix of the bytes of the append in progress.

`serde_json` enters as `BlockJson`, with what the store relies on. A missing
file is the empty one, and a file that cannot be opened for writing, which
the store ignores, is not modelled.

`store_survives_iff`: a run loses no completed block as long as no append
starts behind a torn one, and that is exactly when.
-/

namespace SmartLedger

variable {C : Crypto}

/-! ## Lines -/

/-- `\n`. -/
def newline : UInt8 := 0x0a

/-- `\r`. -/
def carriageReturn : UInt8 := 0x0d

/-- `std::str::from_utf8` accepts the bytes. -/
def isUtf8 (bytes : List UInt8) : Bool := (ByteArray.mk bytes.toArray).validateUTF8

/-- A line without its `\n` or `\r\n`. -/
def trimLine (line : List UInt8) : List UInt8 :=
  if line.getLast? = some newline then
    if line.dropLast.getLast? = some carriageReturn then line.dropLast.dropLast
    else line.dropLast
  else line

/-- Bytes that are plain ASCII are valid UTF-8. -/
theorem isUtf8_of_ascii {bytes : List UInt8} (h : ∀ x ∈ bytes, x < 0x80) : isUtf8 bytes = true := by
  unfold isUtf8
  rw [ByteArray.validateUTF8_eq_true_iff]
  induction bytes using List.reverseRecOn with
  | nil => exact ByteArray.isValidUTF8_empty
  | append_singleton bytes x ih =>
      have hx : x.toNat < 128 := UInt8.lt_iff_toNat_lt.mp (h x (by simp))
      have hsize : (Char.ofUInt8 x).utf8Size = 1 := by
        have hle : (Char.ofUInt8 x).val ≤ 0x7f := by
          show x.toUInt32 ≤ 0x7f
          rw [UInt32.le_iff_toNat_le, UInt8.toNat_toUInt32]
          exact Nat.le_of_lt_succ hx
        exact if_pos hle
      have hbyte : (Char.ofUInt8 x).toUInt8 = x := by
        show x.toUInt32.toUInt8 = x
        simp
      have hpush := (ih fun y hy => h y (List.mem_append_left _ hy)).push hsize
      rw [hbyte] at hpush
      have happend : ByteArray.mk (bytes ++ [x]).toArray = (ByteArray.mk bytes.toArray).push x :=
        ByteArray.ext (List.push_toArray bytes x).symm
      rw [happend]
      exact hpush

/-! ## The text form of blocks -/

/-- `serde_json` on blocks, as the store uses it: what is written is
printable, reads back, and neither a strict prefix of a text nor several
(prefixes of) texts in a row are read as a block. -/
structure BlockJson (C : Crypto) where
  /-- `serde_json::to_string`. -/
  encode : Block C → List UInt8
  /-- `serde_json::from_str`. -/
  decode : List UInt8 → Option (Block C)
  printable : ∀ b, ∀ x ∈ encode b, 0x20 ≤ x ∧ x < 0x7f
  decode_encode : ∀ b, decode (encode b) = some b
  decode_prefix : ∀ b part, part <+: encode b → part ≠ encode b → decode part = none
  decode_glued : ∀ parts : List (List UInt8), 2 ≤ parts.length →
    (∀ part ∈ parts, part ≠ [] ∧ ∃ b, part <+: encode b) → decode parts.flatten = none

namespace BlockJson

variable (J : BlockJson C)

/-- What `append` writes for a block. -/
def record (b : Block C) : List UInt8 := J.encode b ++ [newline]

/-- `BlockStore::open`: the blocks of the lines that parse, up to the first
line that is not text. -/
def openBlocks (file : List UInt8) : List (Block C) :=
  ((Lines.lines newline file).takeWhile isUtf8).filterMap fun line => J.decode (trimLine line)

/-- A part of one text, or of several in a row. -/
def Printable (bytes : List UInt8) : Prop := ∀ x ∈ bytes, 0x20 ≤ x ∧ x < 0x7f

variable {J}

/-- No text is empty: it would be a strict prefix of any other. -/
theorem encode_ne_nil (b : Block C) : J.encode b ≠ [] := by
  intro hnil
  have hdecode : J.decode [] = some b := by
    rw [← hnil]
    exact J.decode_encode b
  let other : Block C := { b with header := { b.header with height := b.header.height + 1 } }
  have hne : [] ≠ J.encode other := by
    intro hnil'
    have hother : J.decode [] = some other := by
      rw [hnil']
      exact J.decode_encode other
    rw [hdecode, Option.some.injEq] at hother
    have hheight : b.header.height = b.header.height + 1 := congrArg (·.header.height) hother
    simp at hheight
  have hreject := J.decode_prefix other [] List.nil_prefix hne
  rw [hdecode] at hreject
  cases hreject

theorem newline_notMem {bytes : List UInt8} (h : Printable bytes) : newline ∉ bytes := by
  intro hmem
  exact absurd (h _ hmem).1 (by decide)

theorem carriageReturn_notMem {bytes : List UInt8} (h : Printable bytes) :
    carriageReturn ∉ bytes := by
  intro hmem
  exact absurd (h _ hmem).1 (by decide)

theorem isUtf8_printable {bytes : List UInt8} (h : Printable bytes) : isUtf8 bytes = true := by
  apply isUtf8_of_ascii
  intro x hx
  have hlt := (h x hx).2
  rw [UInt8.lt_iff_toNat_lt] at hlt ⊢
  exact hlt.trans (by decide)

theorem isUtf8_line {bytes : List UInt8} (h : Printable bytes) :
    isUtf8 (bytes ++ [newline]) = true := by
  apply isUtf8_of_ascii
  intro x hx
  rcases List.mem_append.mp hx with hx | hx
  · have hlt := (h x hx).2
    rw [UInt8.lt_iff_toNat_lt] at hlt ⊢
    exact hlt.trans (by decide)
  · rw [List.mem_singleton.mp hx]
    decide

theorem trimLine_line {bytes : List UInt8} (h : Printable bytes) :
    trimLine (bytes ++ [newline]) = bytes := by
  have hcr : bytes.getLast? ≠ some carriageReturn := by
    intro hlast
    exact carriageReturn_notMem h (List.mem_of_getLast? hlast)
  simp [trimLine, hcr]

theorem trimLine_tail {bytes : List UInt8} (h : Printable bytes) : trimLine bytes = bytes := by
  have hnl : bytes.getLast? ≠ some newline := by
    intro hlast
    exact newline_notMem h (List.mem_of_getLast? hlast)
  simp [trimLine, hnl]

/-- Reopening a file of complete lines and an unterminated rest. -/
theorem openBlocks_eq {texts : List (List UInt8)} {tail : List UInt8}
    (htexts : ∀ text ∈ texts, Printable text) (htail : Printable tail) :
    J.openBlocks (texts.flatMap (fun text => text ++ [newline]) ++ tail) =
      texts.filterMap J.decode ++ if tail = [] then [] else (J.decode tail).toList := by
  unfold openBlocks
  rw [Lines.lines_records fun text h => newline_notMem (htexts text h),
    Lines.lines_tail (newline_notMem htail)]
  -- every line is text, so reading does not stop early
  have hall : ∀ line ∈ texts.map (fun text => text ++ [newline]) ++
      (if tail = [] then [] else [tail]), isUtf8 line = true := by
    intro line hline
    rcases List.mem_append.mp hline with hline | hline
    · rcases List.mem_map.mp hline with ⟨text, htext, rfl⟩
      exact isUtf8_line (htexts text htext)
    · split at hline
      · cases hline
      · rw [List.mem_singleton.mp hline]
        exact isUtf8_printable htail
  rw [List.takeWhile_eq_self_iff.mpr hall, List.filterMap_append, List.filterMap_map]
  congr 1
  · apply List.filterMap_congr
    intro text htext
    show J.decode (trimLine (text ++ [newline])) = J.decode text
    rw [trimLine_line (htexts text htext)]
  · by_cases hnil : tail = []
    · simp [hnil]
    · rw [if_neg hnil, if_neg hnil]
      cases hdec : J.decode tail with
      | none => simp [trimLine_tail htail, hdec]
      | some b => simp [trimLine_tail htail, hdec]

end BlockJson

/-! ## Appends, crashes and reopenings -/

/-- The store: its file, its copy in memory, and the blocks whose append has
completed since the file was created. -/
structure StoreState (C : Crypto) where
  file : List UInt8
  blocks : List (Block C)
  completed : List (Block C)

/-- What happens to a store. -/
inductive StoreOp (C : Crypto) where
  | append (b : Block C)
  /-- The append of `b` is cut short after `kept` bytes, and the store is
  reopened. -/
  | crash (b : Block C) (kept : Nat)
  | reopen

/-- `b` is the next block after the stored ones. -/
def Extends (blocks : List (Block C)) (b : Block C) : Prop :=
  b.header.prevHash = (storeTip blocks).1 ∧
    b.header.height.toNat = (storeTip blocks).2.toNat + 1

/-- Consecutive blocks from height 1 on. -/
inductive Consecutive : List (Block C) → Prop where
  | nil : Consecutive []
  | snoc {bs : List (Block C)} {b : Block C} (h : Consecutive bs) (hb : Extends bs b) :
      Consecutive (bs ++ [b])

namespace StoreState

variable (J : BlockJson C)

/-- An empty file. -/
def fresh : StoreState C := ⟨[], [], []⟩

def apply (s : StoreState C) : StoreOp C → StoreState C
  | .append b => {
      file := s.file ++ J.record b
      blocks := s.blocks ++ [b]
      completed := s.completed ++ [b] }
  | .crash b kept =>
      let file := s.file ++ (J.record b).take kept
      { file, blocks := J.openBlocks file, completed := s.completed }
  | .reopen => { s with blocks := J.openBlocks s.file }

/-- Appends are of the next block, and a crash keeps less than all of its
bytes. -/
def Admits (s : StoreState C) : StoreOp C → Prop
  | .append b => Extends s.blocks b
  | .crash b kept => Extends s.blocks b ∧ kept < (J.record b).length
  | .reopen => True

/-- The file is empty or its last line is complete. -/
def Terminated (s : StoreState C) : Prop := s.file = [] ∨ s.file.getLast? = some newline

/-- No append starts behind a torn line, and no crash keeps all of a text but
not its newline. -/
def Safe (s : StoreState C) : StoreOp C → Prop
  | .append _ => s.Terminated
  | .crash b kept => s.Terminated → kept ≠ (J.encode b).length
  | .reopen => True

end StoreState

/-- The runs of a store from the empty file. -/
inductive StoreRun (J : BlockJson C) (guard : StoreState C → StoreOp C → Prop) :
    List (StoreOp C) → StoreState C → Prop where
  | init : StoreRun J guard [] StoreState.fresh
  | step {ops : List (StoreOp C)} {s : StoreState C} {op : StoreOp C}
      (h : StoreRun J guard ops s) (hadmits : s.Admits J op) (hguard : guard s op) :
      StoreRun J guard (ops ++ [op]) (s.apply J op)

/-- The file holds the completed blocks, and behind them the prefixes of
texts that crashes have left; a single one is not a whole text. -/
structure Recoverable (J : BlockJson C) (s : StoreState C) (torn : List (List UInt8)) : Prop where
  file : s.file = s.completed.flatMap J.record ++ torn.flatten
  parts : ∀ part ∈ torn, part ≠ [] ∧ ∃ b, part <+: J.encode b
  single : ∀ part, torn = [part] → ∀ b, part ≠ J.encode b
  blocks : s.blocks = s.completed
  consecutive : Consecutive s.completed

namespace Recoverable

variable {J : BlockJson C} {s : StoreState C} {torn : List (List UInt8)}

theorem printable_flatten (hparts : ∀ part ∈ torn, part ≠ [] ∧ ∃ b, part <+: J.encode b) :
    BlockJson.Printable torn.flatten := by
  intro x hx
  rcases List.mem_flatten.mp hx with ⟨part, hpart, hx⟩
  rcases (hparts part hpart).2 with ⟨b, hpre⟩
  exact J.printable b x (hpre.subset hx)

theorem fresh : Recoverable J StoreState.fresh [] where
  file := rfl
  parts := by simp
  single := by simp
  blocks := rfl
  consecutive := Consecutive.nil

/-- What the file is, apart from newlines. -/
theorem openBlocks_append (blocks : List (Block C)) {tail : List UInt8}
    (htail : BlockJson.Printable tail) :
    J.openBlocks (blocks.flatMap J.record ++ tail) =
      blocks ++ if tail = [] then [] else (J.decode tail).toList := by
  have hprint : ∀ text ∈ blocks.map J.encode, BlockJson.Printable text := by
    intro text htext
    rcases List.mem_map.mp htext with ⟨b, _, rfl⟩
    exact J.printable b
  have hopen := BlockJson.openBlocks_eq (J := J) hprint htail
  have hflat : (blocks.map J.encode).flatMap (fun text => text ++ [newline]) =
      blocks.flatMap J.record := by
    rw [List.flatMap_map]
    rfl
  have hdecode : (blocks.map J.encode).filterMap J.decode = blocks := by
    rw [List.filterMap_map]
    have hsome : J.decode ∘ J.encode = some := funext J.decode_encode
    rw [hsome, List.filterMap_some]
  rw [hflat, hdecode] at hopen
  exact hopen

/-- Torn prefixes are not read as a block. -/
theorem decode_torn (hparts : ∀ part ∈ torn, part ≠ [] ∧ ∃ b, part <+: J.encode b)
    (hsingle : ∀ part, torn = [part] → ∀ b, part ≠ J.encode b) (hne : torn ≠ []) :
    J.decode torn.flatten = none := by
  match torn, hne with
  | [part], _ =>
      rcases (hparts part List.mem_cons_self).2 with ⟨b, hpre⟩
      rw [List.flatten_singleton]
      exact J.decode_prefix b part hpre (hsingle part rfl b)
  | part :: part' :: rest, _ =>
      apply J.decode_glued _ _ hparts
      simp

/-- The completed blocks are what a reopened store finds. -/
theorem openBlocks (h : Recoverable J s torn) : J.openBlocks s.file = s.completed := by
  rw [h.file, openBlocks_append _ (printable_flatten h.parts)]
  by_cases hnil : torn = []
  · simp [hnil]
  · rw [decode_torn h.parts h.single hnil]
    simp

/-- The file ends in a newline exactly when nothing is torn. -/
theorem terminated_iff (h : Recoverable J s torn) : s.Terminated ↔ torn = [] := by
  constructor
  · intro hterm
    by_contra hne
    have hflat : torn.flatten ≠ [] := by
      intro hnil
      rcases List.exists_mem_of_ne_nil torn hne with ⟨part, hpart⟩
      exact (h.parts part hpart).1 (List.flatten_eq_nil_iff.mp hnil part hpart)
    rcases hterm with hnil | hlast
    · rw [h.file, List.append_eq_nil_iff] at hnil
      exact hflat hnil.2
    · rw [h.file, List.getLast?_append_of_ne_nil _ hflat] at hlast
      exact BlockJson.newline_notMem (printable_flatten h.parts) (List.mem_of_getLast? hlast)
  · intro hnil
    unfold StoreState.Terminated
    rw [h.file, hnil, List.flatten_nil, List.append_nil]
    rcases List.eq_nil_or_concat s.completed with hc | ⟨bs, b, hc⟩
    · simp [hc]
    · right
      rw [hc, List.concat_eq_append, List.flatMap_append]
      simp [BlockJson.record]

/-- An append onto a complete line leaves nothing torn. -/
theorem append (h : Recoverable J s []) {b : Block C} (hb : Extends s.blocks b) :
    Recoverable J (s.apply J (.append b)) [] where
  file := by
    show s.file ++ J.record b = (s.completed ++ [b]).flatMap J.record ++ _
    rw [h.file]
    simp
  parts := by simp
  single := by simp
  blocks := by
    show s.blocks ++ [b] = s.completed ++ [b]
    rw [h.blocks]
  consecutive := Consecutive.snoc h.consecutive (h.blocks ▸ hb)

theorem take_record {b : Block C} {kept : Nat} (hkept : kept < (J.record b).length) :
    (J.record b).take kept = (J.encode b).take kept := by
  have hle : kept ≤ (J.encode b).length := by
    rw [BlockJson.record, List.length_append, List.length_singleton] at hkept
    omega
  exact List.take_append_of_le_length hle

/-- A crash adds a torn prefix, or nothing at all. -/
theorem crash (h : Recoverable J s torn) {b : Block C} {kept : Nat}
    (hkept : kept < (J.record b).length) (hsafe : s.Safe J (.crash b kept)) :
    ∃ torn', Recoverable J (s.apply J (.crash b kept)) torn' := by
  have hopen : ∀ torn', (s.apply J (.crash b kept)).file =
      s.completed.flatMap J.record ++ torn'.flatten →
      (∀ part ∈ torn', part ≠ [] ∧ ∃ b, part <+: J.encode b) →
      (∀ part, torn' = [part] → ∀ b, part ≠ J.encode b) →
      Recoverable J (s.apply J (.crash b kept)) torn' := by
    intro torn' hfile hparts hsingle
    refine ⟨hfile, hparts, hsingle, ?_, h.consecutive⟩
    show J.openBlocks (s.apply J (.crash b kept)).file = s.completed
    rw [hfile, openBlocks_append _ (printable_flatten hparts)]
    by_cases hnil : torn' = []
    · simp [hnil]
    · rw [decode_torn hparts hsingle hnil]
      simp
  have hfile : (s.apply J (.crash b kept)).file =
      s.completed.flatMap J.record ++ (torn.flatten ++ (J.encode b).take kept) := by
    show s.file ++ (J.record b).take kept = _
    rw [take_record hkept, h.file, List.append_assoc]
  by_cases hnone : (J.encode b).take kept = []
  · refine ⟨torn, hopen torn ?_ h.parts h.single⟩
    rw [hfile, hnone, List.append_nil]
  · refine ⟨torn ++ [(J.encode b).take kept], hopen _ ?_ ?_ ?_⟩
    · rw [hfile]
      simp
    · intro part hpart
      rcases List.mem_append.mp hpart with hold | hnew
      · exact h.parts part hold
      · rw [List.mem_singleton.mp hnew]
        exact ⟨hnone, b, List.take_prefix _ _⟩
    · intro part hpart b' heq
      -- a lone part is what this crash has kept, and it is not all of the text
      rcases List.append_eq_singleton_iff.mp hpart with ⟨htorn, hlast⟩ | ⟨_, hbad⟩
      · have hpart' : (J.encode b).take kept = part := by simpa using hlast
        have hkept' : kept ≠ (J.encode b).length := hsafe (h.terminated_iff.mpr htorn)
        have hne : (J.encode b).take kept ≠ J.encode b := by
          intro hall
          have hlen := congrArg List.length hall
          rw [List.length_take] at hlen
          rw [BlockJson.record, List.length_append, List.length_singleton] at hkept
          omega
        have hreject := J.decode_prefix b _ (List.take_prefix kept _) hne
        rw [hpart', heq, J.decode_encode] at hreject
        cases hreject
      · simp at hbad

/-- A run of safe steps keeps the file recoverable. -/
theorem run {ops : List (StoreOp C)} (h : StoreRun J (fun s op => s.Safe J op) ops s) :
    ∃ torn, Recoverable J s torn := by
  induction h with
  | init => exact ⟨[], fresh⟩
  | @step ops s op _ hadmits hsafe ih =>
      rcases ih with ⟨torn, ih⟩
      cases op with
      | append b =>
          have hnil := ih.terminated_iff.mp hsafe
          rw [hnil] at ih
          exact ⟨[], ih.append hadmits⟩
      | crash b kept => exact ih.crash hadmits.2 hsafe
      | reopen =>
          refine ⟨torn, ih.file, ih.parts, ih.single, ?_, ih.consecutive⟩
          exact ih.openBlocks

/-- Behind a torn line an append is lost. -/
theorem append_lost (h : Recoverable J s torn) (hne : torn ≠ []) (b : Block C) :
    J.openBlocks (s.apply J (.append b)).file = s.completed := by
  have hparts : ∀ part ∈ torn ++ [J.encode b], part ≠ [] ∧ ∃ b, part <+: J.encode b := by
    intro part hpart
    rcases List.mem_append.mp hpart with hold | hnew
    · exact h.parts part hold
    · rw [List.mem_singleton.mp hnew]
      exact ⟨J.encode_ne_nil b, b, List.prefix_refl _⟩
  -- the record is glued to the rest, and together they are no block
  have hglued : J.decode (torn ++ [J.encode b]).flatten = none := by
    apply J.decode_glued _ _ hparts
    have hpos := List.length_pos_iff.mpr hne
    rw [List.length_append, List.length_singleton]
    omega
  have hprint : ∀ text ∈ s.completed.map J.encode ++ [(torn ++ [J.encode b]).flatten],
      BlockJson.Printable text := by
    intro text htext
    rcases List.mem_append.mp htext with htext | htext
    · rcases List.mem_map.mp htext with ⟨b, _, rfl⟩
      exact J.printable b
    · rw [List.mem_singleton.mp htext]
      exact printable_flatten hparts
  have hempty : BlockJson.Printable [] := by
    intro x hx
    cases hx
  have hopen := BlockJson.openBlocks_eq (J := J) hprint hempty
  -- so the file is that of complete lines, the last of them glued
  have hfile : (s.completed.map J.encode ++ [(torn ++ [J.encode b]).flatten]).flatMap
      (fun text => text ++ [newline]) ++ [] = (s.apply J (.append b)).file := by
    show _ = s.file ++ J.record b
    rw [h.file]
    simp only [List.flatMap_append, List.flatMap_map, List.flatten_append, List.flatMap_cons,
      List.flatMap_nil, List.flatten_singleton, List.append_nil, List.append_assoc]
    rfl
  have hsome : J.decode ∘ J.encode = some := funext J.decode_encode
  rw [hfile, List.filterMap_append, List.filterMap_map, hsome, List.filterMap_some] at hopen
  rw [hopen, List.filterMap_cons, hglued]
  simp

/-- A crash that keeps a whole text at the start of a line leaves a block
whose append never completed. -/
theorem crash_unfinished (h : Recoverable J s []) (b : Block C) :
    J.openBlocks (s.apply J (.crash b (J.encode b).length)).file = s.completed ++ [b] := by
  have hlt : (J.encode b).length < (J.record b).length := by simp [BlockJson.record]
  show J.openBlocks (s.file ++ (J.record b).take (J.encode b).length) = _
  rw [take_record hlt, h.file, List.take_length, List.flatten_nil, List.append_nil,
    openBlocks_append _ (J.printable b), J.decode_encode]
  rw [if_neg (J.encode_ne_nil b)]
  rfl

end Recoverable

/-- In every run in which no append starts behind a torn line and no crash
keeps a text without its newline, a reopened store finds exactly the blocks
whose append completed: consecutive, with the newest at the tip and none of
their governance missed. And the first step that is not of this kind is the
first after which it does not. -/
theorem store_survives_iff (J : BlockJson C) :
    (∀ ops s, StoreRun J (fun s op => s.Safe J op) ops s →
      J.openBlocks s.file = s.completed ∧ Consecutive s.completed ∧
      storeTip (J.openBlocks s.file) = storeTip s.completed ∧
      ∀ genesis, replayGovernance genesis (J.openBlocks s.file) =
        replayGovernance genesis s.completed) ∧
    ∀ ops s op, StoreRun J (fun s op => s.Safe J op) ops s → s.Admits J op →
      (J.openBlocks (s.apply J op).file = (s.apply J op).completed ↔ s.Safe J op) := by
  constructor
  · intro ops s hrun
    rcases Recoverable.run hrun with ⟨torn, hrec⟩
    have hopen := hrec.openBlocks
    exact ⟨hopen, hrec.consecutive, congrArg storeTip hopen,
      fun genesis => congrArg (replayGovernance genesis) hopen⟩
  · intro ops s op hrun hadmits
    constructor
    · intro hopen
      rcases Recoverable.run hrun with ⟨torn, hrec⟩
      cases op with
      | append b =>
          -- the block is in the count of those completed, but not read
          by_contra hunsafe
          have htorn : torn ≠ [] := fun hnil => hunsafe (hrec.terminated_iff.mpr hnil)
          rw [hrec.append_lost htorn b] at hopen
          have hlen : s.completed.length = (s.completed ++ [b]).length := congrArg List.length hopen
          simp at hlen
      | crash b kept =>
          -- the whole text without its newline is read, yet was not completed
          intro hterm hkept
          rw [hrec.terminated_iff.mp hterm] at hrec
          rw [hkept, hrec.crash_unfinished b] at hopen
          have hlen : (s.completed ++ [b]).length = s.completed.length := congrArg List.length hopen
          simp at hlen
      | reopen => trivial
    · intro hsafe
      rcases Recoverable.run (StoreRun.step hrun hadmits hsafe) with ⟨torn, hrec⟩
      exact hrec.openBlocks

/-! ## A text form for the sample chain -/

instance Hash.encodable : Encodable Hash :=
  Encodable.ofLeftInverse Hash.rank (fun n => ⟨BitVec.ofNat 256 n⟩) fun h => by
    rw [Hash.rank, BitVec.ofNat_toNat, BitVec.setWidth_eq]

instance encodableSampleKey : Encodable sample.VerifyingKey :=
  Encodable.ofLeftInverse UInt8.toNat UInt8.ofNat fun k => UInt8.ofNat_toNat (x := k)

instance encodableSampleSignature : Encodable sample.Signature := inferInstanceAs (Encodable Hash)

instance encodableSampleSig : Encodable (ValidatorSig sample) :=
  Encodable.ofLeftInverse (fun vs => (vs.validator, vs.signature)) (fun p => ⟨p.1, p.2⟩)
    fun _ => rfl

instance encodableSampleAttestation : Encodable (Attestation sample) :=
  Encodable.ofLeftInverse (fun a => (a.pubkey, a.hash, a.signature))
    (fun p => ⟨p.1, p.2.1, p.2.2⟩) fun _ => rfl

instance encodableSampleChange : Encodable (SignedValidatorChange sample) :=
  Encodable.ofLeftInverse
    (fun s => (s.change.adds, s.change.removes, s.change.activationHeight.toNat, s.approvals))
    (fun p => ⟨⟨p.1, p.2.1, UInt64.ofNat p.2.2.1⟩, p.2.2.2⟩) fun s => by
      rw [UInt64.ofNat_toNat]

instance BlockHeader.encodable : Encodable BlockHeader :=
  Encodable.ofLeftInverse
    (fun h => (h.height.toNat, h.prevHash, h.merkleRoot, h.txCount.toNat, h.timestamp.toNat,
      h.govRoot))
    (fun p => {
      height := UInt64.ofNat p.1
      prevHash := p.2.1
      merkleRoot := p.2.2.1
      txCount := UInt32.ofNat p.2.2.2.1
      timestamp := UInt64.ofNat p.2.2.2.2.1
      govRoot := p.2.2.2.2.2 }) fun h => by
      rw [UInt64.ofNat_toNat, UInt64.ofNat_toNat, UInt32.ofNat_toNat]

instance encodableSampleBlock : Encodable (Block sample) :=
  Encodable.ofLeftInverse
    (fun b => (b.header, b.attestations, b.governance, b.qc.blockId, b.qc.signatures))
    (fun p => ⟨p.1, p.2.1, p.2.2.1, ⟨p.2.2.2.1, p.2.2.2.2⟩⟩) fun _ => rfl

/-- The decimal digits of a number, the lowest first. -/
def digitChars (n : Nat) : List UInt8 := (Nat.digits 10 n).map fun d => UInt8.ofNat (0x30 + d)

/-- A number between brackets. -/
def bracketed (n : Nat) : List UInt8 := 0x5b :: (digitChars n ++ [0x5d])

/-- The number between the brackets of a text. -/
def numberIn (text : List UInt8) : Nat :=
  Nat.ofDigits 10 ((text.drop 1).dropLast.map fun x => x.toNat - 0x30)

theorem digit_toNat {d : Nat} (hd : d < 10) : (UInt8.ofNat (0x30 + d)).toNat = 0x30 + d := by
  rw [UInt8.toNat_ofNat']
  exact Nat.mod_eq_of_lt (by omega)

theorem mem_digitChars {n : Nat} {x : UInt8} (h : x ∈ digitChars n) :
    0x30 ≤ x.toNat ∧ x.toNat < 0x3a := by
  rcases List.mem_map.mp h with ⟨d, hd, rfl⟩
  have hlt := Nat.digits_lt_base (by decide) hd
  rw [digit_toNat hlt]
  omega

theorem numberIn_bracketed (n : Nat) : numberIn (bracketed n) = n := by
  have hdigits : (digitChars n).map (fun x => x.toNat - 0x30) = Nat.digits 10 n := by
    unfold digitChars
    rw [List.map_map]
    conv_rhs => rw [← List.map_id (Nat.digits 10 n)]
    apply List.map_congr_left
    intro d hd
    have hlt := Nat.digits_lt_base (by decide) hd
    show (UInt8.ofNat (0x30 + d)).toNat - 0x30 = d
    rw [digit_toNat hlt]
    omega
  unfold numberIn bracketed
  rw [List.drop_one, List.tail_cons, List.dropLast_concat, hdigits, Nat.ofDigits_digits]

theorem count_digitChars {n : Nat} {x : UInt8} (h : 0x3a ≤ x.toNat) :
    (digitChars n).count x = 0 := by
  rw [List.count_eq_zero]
  intro hmem
  have hdigit := mem_digitChars hmem
  omega

/-- A bracketed text opens once. -/
theorem count_open (n : Nat) : (bracketed n).count 0x5b = 1 := by
  simp [bracketed, count_digitChars]

/-- And it closes once, at its end. -/
theorem count_close (n : Nat) : (bracketed n).count 0x5d = 1 := by
  simp [bracketed, count_digitChars]

theorem bracketed_inj_of_le {n m : Nat} (h : bracketed n <+: bracketed m) :
    bracketed n = bracketed m := by
  rcases h with ⟨rest, hrest⟩
  rcases List.eq_nil_or_concat rest with rfl | ⟨rest', x, rfl⟩
  · rw [← hrest, List.append_nil]
  · -- the close at the end would be a second one
    rw [List.concat_eq_append] at hrest
    have hsnoc : (bracketed n ++ rest') ++ [x] = (0x5b :: digitChars m) ++ [0x5d] := by
      rw [List.append_assoc, hrest]
      rfl
    have hlast : x = 0x5d := List.singleton_injective (List.append_inj' hsnoc rfl).2
    have hcount := congrArg (List.count 0x5d) hrest
    rw [hlast, List.count_append, count_close, count_close, List.count_append] at hcount
    simp at hcount

theorem glued_ne_bracketed {parts : List (List UInt8)} (hlen : 2 ≤ parts.length)
    (hparts : ∀ part ∈ parts, part ≠ [] ∧ ∃ m, part <+: bracketed m) (n : Nat) :
    parts.flatten ≠ bracketed n := by
  intro h
  -- every part opens
  have hopens : ∀ part ∈ parts, 1 ≤ part.count 0x5b := by
    intro part hpart
    rcases hparts part hpart with ⟨hne, m, hpre⟩
    rw [List.one_le_count_iff]
    match part, hne, hpre with
    | x :: rest, _, hpre =>
        have hx := (List.cons_prefix_cons.mp hpre).1
        rw [hx]
        exact List.mem_cons_self
  have hcount := congrArg (List.count 0x5b) h
  rw [count_open, List.count_flatten] at hcount
  have hsum : (parts.map fun _ => 1).sum ≤ (parts.map (List.count 0x5b)).sum :=
    List.sum_le_sum hopens
  simp only [List.map_const', List.sum_replicate, smul_eq_mul, mul_one] at hsum
  omega

/-- Blocks as bracketed numbers; what is not the text of its number is not
read. -/
def sampleJson : BlockJson sample where
  encode b := bracketed (Encodable.encode b)
  decode line :=
    if bracketed (numberIn line) = line then Encodable.decode (numberIn line) else none
  printable := by
    intro b x hx
    rw [bracketed, List.mem_cons, List.mem_append, List.mem_singleton] at hx
    rcases hx with rfl | hdigit | rfl
    · decide
    · have hrange := mem_digitChars hdigit
      rw [UInt8.le_iff_toNat_le, UInt8.lt_iff_toNat_lt]
      exact ⟨Nat.le_trans (by decide) hrange.1, Nat.lt_trans hrange.2 (by decide)⟩
    · decide
  decode_encode := by
    intro b
    rw [numberIn_bracketed, if_pos rfl, Encodable.encodek]
  decode_prefix := by
    intro b part hpre hne
    apply if_neg
    intro hpart
    rw [← hpart] at hpre hne
    exact hne (bracketed_inj_of_le hpre)
  decode_glued := by
    intro parts hlen hparts
    apply if_neg
    intro hflat
    refine glued_ne_bracketed hlen ?_ _ hflat.symm
    intro part hpart
    rcases hparts part hpart with ⟨hne, b, hpre⟩
    exact ⟨hne, _, hpre⟩

theorem extends_first : Extends [] handoverFirst := ⟨rfl, rfl⟩

theorem one_lt_record (b : Block sample) : 1 < (sampleJson.record b).length := by
  simp [BlockJson.record, sampleJson, bracketed]

theorem safe_crash_one (s : StoreState sample) (b : Block sample) :
    s.Safe sampleJson (.crash b 1) := by
  intro _
  simp [sampleJson, bracketed]

/-- The second block is cut short after one byte: the reopened store finds
the first. -/
theorem store_survives_handover :
    ∃ s, StoreRun sampleJson (fun s op => s.Safe sampleJson op)
        [.append handoverFirst, .crash handoverSecond 1] s ∧
      s.completed = [handoverFirst] ∧ sampleJson.openBlocks s.file = [handoverFirst] := by
  have hfirst : StoreRun sampleJson (fun s op => s.Safe sampleJson op)
      ([] ++ [.append handoverFirst])
      (StoreState.fresh.apply sampleJson (.append handoverFirst)) :=
    StoreRun.step StoreRun.init extends_first (Or.inl rfl)
  have hadmits : (StoreState.fresh.apply sampleJson (.append handoverFirst)).Admits sampleJson
      (.crash handoverSecond 1) := ⟨⟨rfl, rfl⟩, one_lt_record handoverSecond⟩
  have hrun := StoreRun.step hfirst hadmits (safe_crash_one _ handoverSecond)
  exact ⟨_, hrun, rfl, ((store_survives_iff sampleJson).1 _ _ hrun).1⟩

/-- In any text form: behind one byte of a torn record, the next block is not
found again. -/
theorem torn_append_unread {J : BlockJson sample}
    (hlong : 1 < (J.record handoverFirst).length)
    (hsafe : StoreState.fresh.Safe J (.crash handoverFirst 1)) :
    ∃ s, StoreRun J (fun _ _ => True) [.crash handoverFirst 1, .append handoverFirst, .reopen] s ∧
      s.completed = [handoverFirst] ∧ J.openBlocks s.file = [] ∧
      storeTip s.blocks = (Hash.zero, 0) := by
  let s₁ : StoreState sample := StoreState.fresh.apply J (.crash handoverFirst 1)
  have hcrash : StoreRun J (fun _ _ => True) ([] ++ [.crash handoverFirst 1]) s₁ :=
    StoreRun.step StoreRun.init ⟨extends_first, hlong⟩ trivial
  rcases Recoverable.fresh.crash hlong hsafe with ⟨torn, hrec⟩
  -- one byte is on disk, and a completed line would be longer
  have htorn : torn ≠ [] := by
    intro hnil
    have hfile := hrec.file
    rw [hnil] at hfile
    have hlen : ([] ++ (J.record handoverFirst).take 1).length = 0 := congrArg List.length hfile
    rw [List.nil_append, List.length_take] at hlen
    omega
  have hnext : s₁.Admits J (.append handoverFirst) := by
    show Extends s₁.blocks handoverFirst
    rw [hrec.blocks]
    exact extends_first
  have hlost := hrec.append_lost htorn handoverFirst
  have hreopen : (s₁.apply J (.append handoverFirst)).Admits J .reopen := trivial
  have hrun := StoreRun.step (StoreRun.step hcrash hnext trivial) hreopen trivial
  exact ⟨_, hrun, rfl, hlost, congrArg storeTip hlost⟩

/-- One byte of the first block survives a crash; the store is reopened, the
block is appended in full, and the next reopening finds nothing at all. -/
theorem torn_append_loses_block :
    ∃ s, StoreRun sampleJson (fun _ _ => True)
        [.crash handoverFirst 1, .append handoverFirst, .reopen] s ∧
      s.completed = [handoverFirst] ∧ sampleJson.openBlocks s.file = [] ∧
      storeTip s.blocks = (Hash.zero, 0) :=
  torn_append_unread (one_lt_record handoverFirst) (safe_crash_one _ handoverFirst)

end SmartLedger
