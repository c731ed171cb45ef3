import Mathlib.Tactic

/-! # Records in a line-oriented file

A file is a list over some alphabet, and a line ends with a separator or with
the file. `lines` returns the lines with their separators, as a buffered
reader does. A file of terminated records reads back as those records
(`lines_records`), and whatever follows them without a separator is one more
line (`lines_tail`).
-/

namespace Lines

variable {α : Type} [DecidableEq α] {sep : α}

/-- The lines of a file, given what was read of the current one. -/
def linesFrom (sep : α) (current : List α) : List α → List (List α)
  | [] => if current = [] then [] else [current]
  | x :: rest =>
      if x = sep then (current ++ [x]) :: linesFrom sep [] rest
      else linesFrom sep (current ++ [x]) rest

/-- The lines of a file, each with its separator if it has one. -/
def lines (sep : α) (file : List α) : List (List α) := linesFrom sep [] file

theorem linesFrom_terminated {record : List α} (hsep : sep ∉ record) (current rest : List α) :
    linesFrom sep current (record ++ sep :: rest) =
      (current ++ record ++ [sep]) :: linesFrom sep [] rest := by
  induction record generalizing current with
  | nil => simp [linesFrom]
  | cons x record ih =>
      have hx : x ≠ sep := fun h => hsep (h ▸ List.mem_cons_self)
      have hrest : sep ∉ record := fun h => hsep (List.mem_cons_of_mem _ h)
      rw [List.cons_append, linesFrom, if_neg hx, ih hrest]
      simp

theorem linesFrom_unterminated {tail : List α} (hsep : sep ∉ tail) (current : List α) :
    linesFrom sep current tail = if current ++ tail = [] then [] else [current ++ tail] := by
  induction tail generalizing current with
  | nil => simp [linesFrom]
  | cons x tail ih =>
      have hx : x ≠ sep := fun h => hsep (h ▸ List.mem_cons_self)
      have hrest : sep ∉ tail := fun h => hsep (List.mem_cons_of_mem _ h)
      rw [linesFrom, if_neg hx, ih hrest]
      simp

/-- An unterminated file is one line, unless it is empty. -/
theorem lines_tail {tail : List α} (hsep : sep ∉ tail) :
    lines sep tail = if tail = [] then [] else [tail] :=
  linesFrom_unterminated hsep []

/-- Terminated records read back one by one. -/
theorem lines_records {records : List (List α)} (hsep : ∀ r ∈ records, sep ∉ r)
    (tail : List α) :
    lines sep (records.flatMap (fun r => r ++ [sep]) ++ tail) =
      records.map (fun r => r ++ [sep]) ++ lines sep tail := by
  induction records with
  | nil => rfl
  | cons r records ih =>
      have hr := linesFrom_terminated (hsep r List.mem_cons_self) []
        (records.flatMap (fun r => r ++ [sep]) ++ tail)
      have hrest := ih fun r hr => hsep r (List.mem_cons_of_mem _ hr)
      unfold lines at hrest ⊢
      rw [List.flatMap_cons, List.append_assoc, List.append_assoc, List.singleton_append, hr,
        hrest]
      rfl

end Lines
