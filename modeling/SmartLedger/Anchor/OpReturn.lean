import SmartLedger.Crypto

/-! # The script of an anchored root

A checkpoint root goes out as `OP_FALSE OP_RETURN <push(payload)>`, the payload
being a magic tag, a version and the 32 bytes of the root. Parsing takes the
script apart by slice operations that may each fail; it accepts what begins
with the script of a root, and nothing else (`parseRoot_eq_some_iff`).
-/

namespace SmartLedger

namespace OpReturn

def opFalse : UInt8 := 0x00
def opReturn : UInt8 := 0x6a

/-- The tag of a checkpoint in the sea of `OP_RETURN` data. -/
def magic : List UInt8 := Bytes.ascii ['S', 'L', 'C', '1']

/-- The format version. -/
def version : UInt8 := 1

/-- The payload after `OP_RETURN`. -/
def payload (root : Hash) : List UInt8 := magic ++ version :: root.asBytes

/-- The whole script; the payload is short enough for a direct push. -/
def script (root : Hash) : List UInt8 :=
  [opFalse, opReturn, UInt8.ofNat (payload root).length] ++ payload root

/-- `split_first` of a slice. -/
def splitFirst : List UInt8 → Option (UInt8 × List UInt8)
  | [] => none
  | b :: rest => some (b, rest)

/-- `get(..n)` of a slice. -/
def upTo (n : Nat) (s : List UInt8) : Option (List UInt8) :=
  if n ≤ s.length then some (s.take n) else none

/-- The root in a committing script, if it is one. -/
def parseRoot (script : List UInt8) : Option Hash := do
  let rest ← script.dropPrefix? [opFalse, opReturn]
  let (len, rest) ← splitFirst rest
  let data ← upTo len.toNat rest
  let data ← data.dropPrefix? magic
  let (v, data) ← splitFirst data
  if v ≠ version ∨ data.length ≠ Hash.len then none else some (Hash.ofBytes data)

/-! ## The operations on slices -/

theorem dropPrefix_eq_some_iff {s pre rest : List UInt8} :
    s.dropPrefix? pre = some rest ↔ s = pre ++ rest := by
  simp [List.dropPrefix?_eq_some_iff]

theorem splitFirst_eq_some_iff {s rest : List UInt8} {b : UInt8} :
    splitFirst s = some (b, rest) ↔ s = b :: rest := by
  cases s with
  | nil => simp [splitFirst]
  | cons c s => simp [splitFirst]

theorem upTo_eq_some_iff {n : Nat} {s data : List UInt8} :
    upTo n s = some data ↔ ∃ rest, s = data ++ rest ∧ data.length = n := by
  unfold upTo
  constructor
  · intro h
    split at h
    · next hle =>
        obtain rfl := Option.some.inj h
        exact ⟨s.drop n, (List.take_append_drop n s).symm, List.length_take_of_le hle⟩
    · cases h
  · rintro ⟨rest, rfl, rfl⟩
    simp

/-! ## What is accepted -/

theorem length_payload (root : Hash) : (payload root).length = 37 := by
  simp [payload, magic, Bytes.ascii, Hash.len]

theorem script_eq (root : Hash) :
    script root = [opFalse, opReturn] ++ 37 :: (magic ++ version :: root.asBytes) := by
  unfold script
  rw [length_payload]
  rfl

/-- What parses: a push of a payload, whatever comes after it. -/
theorem parseRoot_eq_some_iff {s : List UInt8} {root : Hash} :
    parseRoot s = some root ↔ script root <+: s := by
  rw [script_eq]
  constructor
  · intro h
    simp only [parseRoot, Option.bind_eq_bind, Option.bind_eq_some_iff] at h
    rcases h with ⟨rest, hrest, ⟨len, rest'⟩, hlen, data, hdata, data', hmagic, ⟨v, bytes⟩,
      hversion, hroot⟩
    dsimp only at hdata hroot
    rcases upTo_eq_some_iff.mp hdata with ⟨after, hafter, hpush⟩
    split at hroot
    · cases hroot
    · next hok =>
        rw [not_or, not_not, not_not] at hok
        obtain rfl := Option.some.inj hroot
        have hbody : data = magic ++ version :: bytes := by
          rw [dropPrefix_eq_some_iff.mp hmagic, splitFirst_eq_some_iff.mp hversion, hok.1]
        -- the length byte is that of a payload
        have hlen37 : len = 37 := by
          apply UInt8.toNat_inj.mp
          rw [← hpush, hbody, List.length_append, List.length_cons, hok.2]
          rfl
        refine ⟨after, ?_⟩
        rw [dropPrefix_eq_some_iff.mp hrest, splitFirst_eq_some_iff.mp hlen, hafter, hbody, hlen37,
          Hash.asBytes_ofBytes hok.2]
        simp
  · rintro ⟨after, rfl⟩
    have hpush : upTo (37 : UInt8).toNat (magic ++ version :: root.asBytes ++ after) =
        some (magic ++ version :: root.asBytes) :=
      upTo_eq_some_iff.mpr ⟨after, rfl, length_payload root⟩
    have hmagic : (magic ++ version :: root.asBytes).dropPrefix? magic =
        some (version :: root.asBytes) := dropPrefix_eq_some_iff.mpr rfl
    have hrest : ([opFalse, opReturn] ++ 37 :: (magic ++ version :: root.asBytes) ++
        after).dropPrefix? [opFalse, opReturn] =
          some (37 :: (magic ++ version :: root.asBytes ++ after)) :=
      dropPrefix_eq_some_iff.mpr (by simp)
    simp only [parseRoot, hrest, splitFirst, hpush, hmagic, Option.bind_eq_bind, Option.bind_some]
    rw [if_neg (by simp [Hash.length_asBytes]), Hash.ofBytes_asBytes]

theorem script_injective : Function.Injective script := by
  intro a b h
  have ha : parseRoot (script a) = some a := parseRoot_eq_some_iff.mpr (List.prefix_refl _)
  have hb : parseRoot (script b) = some b := parseRoot_eq_some_iff.mpr (List.prefix_refl _)
  rw [h, hb] at ha
  exact (Option.some.inj ha).symm

end OpReturn

open OpReturn

/-- The parser accepts exactly what begins with the script of a root, and finds
that root; scripts come back, they are all different, no script cut short
parses, and neither does a push with another length, magic or version. -/
theorem op_return_exact :
    (∀ s root, parseRoot s = some root ↔ script root <+: s) ∧
    (∀ root, parseRoot (script root) = some root) ∧
    Function.Injective script ∧
    (∀ root s, s <+: script root → s ≠ script root → parseRoot s = none) ∧
    ∀ len body, (parseRoot (opFalse :: opReturn :: len :: body)).isSome = true →
      len = 37 ∧ 37 ≤ body.length ∧ magic ++ [version] <+: body := by
  refine ⟨fun _ _ => parseRoot_eq_some_iff, ?_, script_injective, ?_, ?_⟩
  · intro root
    exact parseRoot_eq_some_iff.mpr (List.prefix_refl _)
  · intro root s hcut hne
    cases hparse : parseRoot s with
    | none => rfl
    | some root' =>
        -- scripts have one length, so none fits into a part of another
        have hbegins := parseRoot_eq_some_iff.mp hparse
        have hlen : ∀ r, (script r).length = 40 := fun r => by simp [script, length_payload]
        have hle := hbegins.length_le
        rw [hlen, ← hlen root] at hle
        exact absurd (hcut.eq_of_length_le hle) hne
  · intro len body hsome
    rcases Option.isSome_iff_exists.mp hsome with ⟨root, hparse⟩
    rcases parseRoot_eq_some_iff.mp hparse with ⟨after, hafter⟩
    rw [script_eq] at hafter
    simp only [List.cons_append, List.nil_append, List.cons.injEq, true_and] at hafter
    rcases hafter with ⟨hlen, hbody⟩
    refine ⟨hlen.symm, ?_, ?_⟩
    · rw [← hbody]
      simp [magic, Bytes.ascii, Hash.len]
    · exact ⟨root.asBytes ++ after, by rw [← hbody]; simp⟩

end SmartLedger
