import Mathlib

/-!
# Rows stored back to back

Rows of different lengths in one array, one behind the other, and the offsets at which they start
and the last one ends.
-/

namespace Rows

variable {α : Type} {rows : List (List α)} {row : List α} {l : Nat}

/-- Where row `l` starts. -/
def start (rows : List (List α)) (l : Nat) : Nat := ((rows.map List.length).take l).sum

/-- The starts of the rows, and the end of the last one. -/
def offsets (rows : List (List α)) : List Nat := (List.range (rows.length + 1)).map (start rows)

@[simp] theorem start_zero : start rows 0 = 0 := rfl

@[simp] theorem length_offsets : (offsets rows).length = rows.length + 1 := by simp [offsets]

theorem getElem?_offsets (h : l ≤ rows.length) : (offsets rows)[l]? = some (start rows l) := by
  simp [offsets, List.getElem?_range (Nat.lt_succ_of_le h)]

theorem start_length : start rows rows.length = rows.flatten.length := by
  rw [start, ← List.length_map List.length, List.take_length, List.length_flatten]

/-- A row starts where it did when another one is stored behind it. -/
theorem start_concat (h : l ≤ rows.length) : start (rows ++ [row]) l = start rows l := by
  rw [start, start, List.map_append, List.take_append_of_le_length (by simpa using h)]

theorem offsets_concat :
    offsets (rows ++ [row]) = offsets rows ++ [(rows ++ [row]).flatten.length] := by
  have hlen : (rows ++ [row]).length = rows.length + 1 := List.length_append
  have hstarts : (List.range (rows.length + 1)).map (start (rows ++ [row])) = offsets rows := by
    refine List.map_congr_left fun l hl => start_concat ?_
    exact Nat.le_of_lt_succ (List.mem_range.mp hl)
  rw [offsets, List.range_succ, List.map_append, List.map_singleton, start_length, hlen, hstarts]

theorem drop_start : rows.flatten.drop (start rows l) = (rows.drop l).flatten :=
  List.drop_sum_flatten rows l

/-- What is stored from the start of a row on. -/
theorem drop_start_of_getElem? (h : rows[l]? = some row) :
    rows.flatten.drop (start rows l) = row ++ (rows.drop (l + 1)).flatten := by
  obtain ⟨hl, rfl⟩ := List.getElem?_eq_some_iff.mp h
  rw [drop_start, List.drop_eq_getElem_cons hl, List.flatten_cons]

/-- The elements of a row. -/
theorem getElem?_flatten {i : Nat} (h : rows[l]? = some row) (hi : i < row.length) :
    rows.flatten[start rows l + i]? = row[i]? := by
  rw [← List.getElem?_drop, drop_start_of_getElem? h, List.getElem?_append_left hi]

end Rows
