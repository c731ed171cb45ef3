import Mathlib.Tactic
import Mathlib.Data.List.Basic

/-! # Fixed-width big-endian encodings

`be w x` is the `w`-byte big-endian encoding of `x`, most significant byte
first; digits beyond the width are dropped, as a fixed-width machine word
drops them. On numbers that fit in the width the encoding is injective
(`be_inj`), which is what every "canonical bytes" argument comes down to.
-/

namespace Bytes

/-- The `w`-byte big-endian encoding of `x`. -/
def be : Nat → Nat → List UInt8
  | 0, _ => []
  | w + 1, x => UInt8.ofNat (x / 256 ^ w) :: be w x

@[simp] theorem length_be (w x : Nat) : (be w x).length = w := by
  induction w with
  | zero => rfl
  | succ w ih => simp [be, ih]

/-- Only the low `w` digits matter. -/
theorem be_mod (w v x : Nat) (h : w ≤ v) : be w (x % 256 ^ v) = be w x := by
  induction w with
  | zero => rfl
  | succ w ih =>
      have hdigit : x % 256 ^ v / 256 ^ w % 256 = x / 256 ^ w % 256 := by
        obtain ⟨d, rfl⟩ : ∃ d, v = w + 1 + d := ⟨v - (w + 1), by omega⟩
        rw [Nat.pow_add, Nat.pow_succ, Nat.mul_assoc, Nat.mod_mul_right_div_self,
          Nat.mod_mul_right_mod]
      have hhead : UInt8.ofNat (x % 256 ^ v / 256 ^ w) = UInt8.ofNat (x / 256 ^ w) := by
        apply UInt8.toNat_inj.mp
        simpa [UInt8.toNat_ofNat'] using hdigit
      rw [be, be, hhead, ih (by omega)]

/-- Numbers that fit in `w` bytes have different encodings. -/
theorem be_inj {w x y : Nat} (hx : x < 256 ^ w) (hy : y < 256 ^ w) (h : be w x = be w y) :
    x = y := by
  induction w generalizing x y with
  | zero => simp at hx hy; omega
  | succ w ih =>
      rw [be, be, List.cons.injEq] at h
      obtain ⟨hhead, htail⟩ := h
      have hpos : 0 < 256 ^ w := Nat.pow_pos (by omega)
      -- the leading digits are below 256, so equal bytes are equal digits
      have hxd : x / 256 ^ w < 256 := Nat.div_lt_of_lt_mul (by rwa [Nat.pow_succ] at hx)
      have hyd : y / 256 ^ w < 256 := Nat.div_lt_of_lt_mul (by rwa [Nat.pow_succ] at hy)
      have hdiv : x / 256 ^ w = y / 256 ^ w := by
        have hbyte := congrArg UInt8.toNat hhead
        rwa [UInt8.toNat_ofNat', UInt8.toNat_ofNat', Nat.mod_eq_of_lt hxd,
          Nat.mod_eq_of_lt hyd] at hbyte
      have hmod : x % 256 ^ w = y % 256 ^ w := by
        apply ih (Nat.mod_lt _ hpos) (Nat.mod_lt _ hpos)
        rw [be_mod w w x le_rfl, be_mod w w y le_rfl]
        exact htail
      rw [← Nat.div_add_mod x (256 ^ w), ← Nat.div_add_mod y (256 ^ w), hdiv, hmod]

/-- The number that big-endian digits spell. -/
def ofBe (bytes : List UInt8) : Nat := bytes.foldl (fun acc b => acc * 256 + b.toNat) 0

theorem foldl_digits_be (w x acc : Nat) :
    (be w x).foldl (fun acc b => acc * 256 + b.toNat) acc = acc * 256 ^ w + x % 256 ^ w := by
  induction w generalizing acc with
  | zero => simp [be, Nat.mod_one]
  | succ w ih =>
      have hdigit : (UInt8.ofNat (x / 256 ^ w)).toNat = x / 256 ^ w % 256 := by simp
      have hsplit : x % 256 ^ (w + 1) = x % 256 ^ w + 256 ^ w * (x / 256 ^ w % 256) := by
        rw [Nat.pow_succ, Nat.mod_mul]
      rw [be, List.foldl_cons, ih, hdigit, hsplit, Nat.pow_succ]
      ring

/-- Reading back what fits in the width. -/
theorem ofBe_be (w x : Nat) : ofBe (be w x) = x % 256 ^ w := by
  unfold ofBe
  rw [foldl_digits_be, Nat.zero_mul, Nat.zero_add]

theorem foldl_digits (bytes : List UInt8) (acc : Nat) :
    bytes.foldl (fun acc b => acc * 256 + b.toNat) acc = acc * 256 ^ bytes.length + ofBe bytes := by
  induction bytes generalizing acc with
  | nil => simp [ofBe]
  | cons b bytes ih =>
      have hhead : ofBe (b :: bytes) = (0 * 256 + b.toNat) * 256 ^ bytes.length + ofBe bytes := ih _
      rw [List.foldl_cons, ih, hhead, List.length_cons, Nat.pow_succ]
      ring

theorem ofBe_cons (b : UInt8) (bytes : List UInt8) :
    ofBe (b :: bytes) = b.toNat * 256 ^ bytes.length + ofBe bytes := by
  have hfold : ofBe (b :: bytes) = (0 * 256 + b.toNat) * 256 ^ bytes.length + ofBe bytes :=
    foldl_digits bytes _
  rwa [Nat.zero_mul, Nat.zero_add] at hfold

theorem ofBe_lt (bytes : List UInt8) : ofBe bytes < 256 ^ bytes.length := by
  induction bytes with
  | nil => simp [ofBe]
  | cons b bytes ih =>
      have hb : b.toNat < 256 := b.toNat_lt
      calc ofBe (b :: bytes) = b.toNat * 256 ^ bytes.length + ofBe bytes := ofBe_cons b bytes
        _ < b.toNat * 256 ^ bytes.length + 256 ^ bytes.length := by omega
        _ = (b.toNat + 1) * 256 ^ bytes.length := (Nat.succ_mul _ _).symm
        _ ≤ 256 * 256 ^ bytes.length := Nat.mul_le_mul_right _ hb
        _ = 256 ^ (b :: bytes).length := by rw [List.length_cons, Nat.pow_succ, Nat.mul_comm]

/-- Digits are those of the number they spell. -/
theorem be_ofBe (bytes : List UInt8) : be bytes.length (ofBe bytes) = bytes := by
  induction bytes with
  | nil => rfl
  | cons b bytes ih =>
      have hpos : 0 < 256 ^ bytes.length := Nat.pow_pos (by omega)
      have hlt := ofBe_lt bytes
      have hhead : (b.toNat * 256 ^ bytes.length + ofBe bytes) / 256 ^ bytes.length = b.toNat := by
        rw [Nat.add_comm, Nat.add_mul_div_right _ _ hpos, Nat.div_eq_of_lt hlt, Nat.zero_add]
      have htail : be bytes.length (b.toNat * 256 ^ bytes.length + ofBe bytes) = bytes := by
        rw [← be_mod bytes.length bytes.length _ le_rfl, Nat.add_comm, Nat.add_mul_mod_self_right,
          Nat.mod_eq_of_lt hlt]
        exact ih
      rw [List.length_cons, be, ofBe_cons, hhead, htail, UInt8.ofNat_toNat]

/-- Chunks of one width are determined by their number and concatenation. -/
theorem flatten_inj {β : Type} {w : Nat} {l l' : List (List β)} (hl : ∀ x ∈ l, x.length = w)
    (hl' : ∀ x ∈ l', x.length = w) (hlen : l.length = l'.length) (h : l.flatten = l'.flatten) :
    l = l' := by
  induction l generalizing l' with
  | nil => exact (List.eq_nil_of_length_eq_zero hlen.symm).symm
  | cons x l ih =>
      match l', hlen with
      | x' :: l', hlen =>
          rw [List.flatten_cons, List.flatten_cons] at h
          have hwidth : x.length = x'.length :=
            (hl x List.mem_cons_self).trans (hl' x' List.mem_cons_self).symm
          rcases List.append_inj h hwidth with ⟨hx, hrest⟩
          rw [hx, ih (fun y hy => hl y (List.mem_cons_of_mem _ hy))
            (fun y hy => hl' y (List.mem_cons_of_mem _ hy)) (by simpa using hlen) hrest]

theorem length_flatten_width {β : Type} {w : Nat} {l : List (List β)}
    (hl : ∀ x ∈ l, x.length = w) : l.flatten.length = l.length * w := by
  induction l with
  | nil => simp
  | cons x l ih =>
      rw [List.flatten_cons, List.length_append, hl x List.mem_cons_self,
        ih fun y hy => hl y (List.mem_cons_of_mem _ hy), List.length_cons, Nat.succ_mul]
      omega

/-- The bytes of a list of ASCII characters. -/
def ascii (s : List Char) : List UInt8 := s.map fun c => UInt8.ofNat c.toNat

end Bytes
