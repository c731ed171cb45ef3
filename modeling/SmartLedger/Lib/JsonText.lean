import Mathlib.Data.Nat.Digits.Defs
import SmartLedger.Lib.Bytes

/-! # Compact JSON texts and their lengths

A writer for the JSON that a serializer without whitespace produces, for data
whose strings need no escapes. Every form comes with the length of its text,
so that the size of a message is arithmetic over the sizes of its parts.
-/

namespace JsonText

/-- A string without characters that need an escape. -/
def str (s : List UInt8) : List UInt8 := 0x22 :: (s ++ [0x22])

/-- One hex digit, lowercase. -/
def hexDigit (n : Nat) : UInt8 := UInt8.ofNat (if n < 10 then 48 + n else 87 + n)

/-- Bytes as a string of hex digits. -/
def hex (bytes : List UInt8) : List UInt8 :=
  str (bytes.flatMap fun b => [hexDigit (b.toNat / 16), hexDigit (b.toNat % 16)])

def num (n : Nat) : List UInt8 := Bytes.ascii (Nat.toDigits 10 n)

def null : List UInt8 := Bytes.ascii "null".toList

/-- Texts with commas between them. -/
def join : List (List UInt8) → List UInt8
  | [] => []
  | [x] => x
  | x :: y :: rest => x ++ 0x2c :: join (y :: rest)

def arr (items : List (List UInt8)) : List UInt8 := 0x5b :: (join items ++ [0x5d])

/-- A member of an object. -/
def field (name : String) (value : List UInt8) : List UInt8 :=
  str (Bytes.ascii name.toList) ++ 0x3a :: value

def obj (fields : List (List UInt8)) : List UInt8 := 0x7b :: (join fields ++ [0x7d])

/-- An enumeration's variant with its data. -/
def variant (name : String) (value : List UInt8) : List UInt8 := obj [field name value]

/-! ## Lengths -/

/-- The number of decimal digits. -/
def digits (n : Nat) : Nat := (Nat.toDigits 10 n).length

theorem digits_le {n k : Nat} (hk : 0 < k) (h : n < 10 ^ k) : digits n ≤ k :=
  (Nat.length_toDigits_le_iff (by omega) hk).mpr h

@[simp] theorem length_ascii (s : List Char) : (Bytes.ascii s).length = s.length :=
  List.length_map _

@[simp] theorem length_str (s : List UInt8) : (str s).length = s.length + 2 := by
  simp [str]

@[simp] theorem length_hex (bytes : List UInt8) : (hex bytes).length = 2 * bytes.length + 2 := by
  simp [hex, List.length_flatMap, Nat.mul_comm]

@[simp] theorem length_num (n : Nat) : (num n).length = digits n := by simp [num, digits]

@[simp] theorem length_null : null.length = 4 := by simp [null]

/-- The length of texts with commas between them. -/
def joined (sizes : List Nat) : Nat := sizes.sum + (sizes.length - 1)

theorem length_join (items : List (List UInt8)) :
    (join items).length = joined (items.map List.length) := by
  induction items using join.induct with
  | case1 => rfl
  | case2 x => simp [join, joined]
  | case3 x y rest ih =>
      simp only [join, List.length_append, List.length_cons, ih, joined, List.map_cons,
        List.sum_cons]
      omega

/-- An array, by the sizes of its items. -/
theorem length_arr {α : Type} {json : α → List UInt8} {size : α → Nat}
    (h : ∀ a, (json a).length = size a) (l : List α) :
    (arr (l.map json)).length = joined (l.map size) + 2 := by
  have hmap : (l.map json).map List.length = l.map size := by
    rw [List.map_map]
    apply List.map_congr_left
    intro a _
    exact h a
  simp [arr, length_join, hmap]

@[simp] theorem length_field (name : String) (value : List UInt8) :
    (field name value).length = name.toList.length + 3 + value.length := by
  simp [field]
  omega

@[simp] theorem length_obj (fields : List (List UInt8)) :
    (obj fields).length = joined (fields.map List.length) + 2 := by
  simp [obj, length_join]

/-- Items of one size. -/
theorem joined_replicate (n size : Nat) (h : 0 < n) :
    joined (List.replicate n size) + 1 = n * (size + 1) := by
  unfold joined
  rw [List.sum_replicate, List.length_replicate, smul_eq_mul, Nat.mul_succ]
  omega

end JsonText
