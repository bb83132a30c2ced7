import PrefetchBench.Prog.Basic

/-!
# Copying parts of arrays

`std::copy` and `std::copy_backward` on arrays, with the bounds that the standard asks for, and what
the usual way to make room for a new element leaves: the elements behind its place are moved back by
one, and it is written there (`copyBackward_returns`, `take_set_spread`).
-/

namespace Prog

variable {α : Type}

/-- `xs[n - 1]` -/
def back (xs : List α) : Nat → Prog α
  | 0 => fail
  | n + 1 => read xs n

/-- `std::copy(xs + first, xs + last, ys)` -/
def copy (xs : List α) (first last : Nat) (ys : List α) : Prog (List α) :=
  ofOption (if first ≤ last ∧ last ≤ xs.length ∧ last - first ≤ ys.length then
    some ((xs.drop first).take (last - first) ++ ys.drop (last - first)) else none)

/-- `std::copy_backward(xs + first, xs + last, xs + dLast)` -/
def copyBackward (xs : List α) (first last dLast : Nat) : Prog (List α) :=
  ofOption (if first ≤ last ∧ last ≤ dLast ∧ dLast ≤ xs.length then
    some (xs.take (dLast - (last - first)) ++ (xs.drop first).take (last - first) ++ xs.drop dLast)
    else none)

variable {xs ys : List α} {a : α} {first last place n : Nat}

theorem returns_back (hn : 0 < n) : (back xs n).Returns a ↔ xs[n - 1]? = some a := by
  obtain ⟨m, rfl⟩ : ∃ m, n = m + 1 := ⟨n - 1, by omega⟩
  rw [back, returns_read, Nat.add_sub_cancel]

theorem copy_returns (h : first ≤ last) (hxs : last ≤ xs.length) (hys : last - first ≤ ys.length) :
    (copy xs first last ys).Returns
      ((xs.drop first).take (last - first) ++ ys.drop (last - first)) := by
  rw [copy, if_pos ⟨h, hxs, hys⟩]
  exact returns_ofOption.mpr rfl

/-- The first elements of the target. -/
theorem take_copied (hxs : last ≤ xs.length) :
    ((xs.drop first).take (last - first) ++ ys.drop (last - first)).take (last - first) =
      (xs.take last).drop first := by
  rw [List.take_append_of_le_length (by rw [List.length_take, List.length_drop]; omega),
    List.take_take, Nat.min_self, List.drop_take]

theorem length_copied (h : first ≤ last) (hxs : last ≤ xs.length) (hys : last - first ≤ ys.length) :
    ((xs.drop first).take (last - first) ++ ys.drop (last - first)).length = ys.length := by
  rw [List.length_append, List.length_take, List.length_drop, List.length_drop]
  omega

/-- The array after the elements from `place` on have been moved back by one. -/
def spread (xs : List α) (place n : Nat) : List α :=
  xs.take (place + 1) ++ (xs.drop place).take (n - place) ++ xs.drop (n + 1)

theorem copyBackward_returns (h : place ≤ n) (hn : n < xs.length) :
    (copyBackward xs place n (n + 1)).Returns (spread xs place n) := by
  rw [copyBackward, if_pos ⟨h, Nat.le_succ n, hn⟩, spread,
    show n + 1 - (n - place) = place + 1 by omega]
  exact returns_ofOption.mpr rfl

theorem length_spread (h : place ≤ n) (hn : n < xs.length) :
    (spread xs place n).length = xs.length := by
  simp only [spread, List.length_append, List.length_take, List.length_drop]
  omega

theorem getElem?_spread (h : place ≤ n) (hn : n < xs.length) {i : Nat} (hi : i ≤ n)
    (hne : i ≠ place) : (spread xs place n)[i]? = if i < place then xs[i]? else xs[i - 1]? := by
  rw [spread, List.append_assoc]
  rcases Nat.lt_or_gt_of_ne hne with hlt | hgt
  · rw [if_pos hlt, List.getElem?_append_left (by rw [List.length_take]; omega),
      List.getElem?_take_of_lt (by omega)]
  · rw [if_neg (by omega), List.getElem?_append_right (by rw [List.length_take]; omega),
      List.length_take,
      List.getElem?_append_left (by rw [List.length_take, List.length_drop]; omega),
      List.getElem?_take_of_lt (by omega), List.getElem?_drop]
    congr 1
    omega

/-- Writing to the place that is free now inserts an element. -/
theorem take_set_spread (h : place ≤ n) (hn : n < xs.length) (a : α) :
    ((spread xs place n).set place a).take (n + 1) = (xs.take n).insertIdx place a := by
  have hlen := length_spread h hn
  apply List.ext_getElem?
  intro i
  rw [List.getElem?_insertIdx]
  rcases Nat.lt_or_ge i (n + 1) with hi | hi
  · rw [List.getElem?_take_of_lt hi, List.getElem?_set]
    by_cases hplace : place = i
    · rw [if_pos hplace, if_pos (by omega), if_neg (by omega), if_pos hplace.symm,
        if_pos (by rw [List.length_take]; omega)]
    · rw [if_neg hplace, getElem?_spread h hn (by omega) (Ne.symm hplace)]
      split
      · rw [List.getElem?_take_of_lt (by omega)]
      · rw [if_neg (Ne.symm hplace), List.getElem?_take_of_lt (by omega)]
  · rw [List.getElem?_eq_none (by rw [List.length_take]; omega), if_neg (by omega),
      if_neg (by omega), List.getElem?_eq_none (by rw [List.length_take]; omega)]

theorem getElem?_spread_place (hn : place < xs.length) :
    (spread xs place n)[place]? = xs[place]? := by
  rw [spread, List.append_assoc, List.getElem?_append_left (by rw [List.length_take]; omega),
    List.getElem?_take_of_lt (by omega)]

/-- So does writing behind it, since the element that was there still is. -/
theorem take_set_spread_succ (h : place < n) (hn : n < xs.length) (a : α) :
    ((spread xs place n).set (place + 1) a).take (n + 1) = (xs.take n).insertIdx (place + 1) a := by
  have hlen := length_spread h.le hn
  apply List.ext_getElem?
  intro i
  rw [List.getElem?_insertIdx]
  rcases Nat.lt_or_ge i (n + 1) with hi | hi
  · rw [List.getElem?_take_of_lt hi, List.getElem?_set]
    rcases Nat.lt_trichotomy i (place + 1) with hlt | rfl | hgt
    · rw [if_neg (by omega), if_pos hlt, List.getElem?_take_of_lt (by omega)]
      rcases Nat.lt_or_eq_of_le (Nat.le_of_lt_succ hlt) with hlt | rfl
      · rw [getElem?_spread h.le hn (by omega) (by omega), if_pos hlt]
      · exact getElem?_spread_place (by omega)
    · rw [if_pos rfl, if_pos (by omega), if_neg (by omega), if_pos rfl,
        if_pos (by rw [List.length_take]; omega)]
    · rw [if_neg (by omega), if_neg (by omega), if_neg (by omega),
        getElem?_spread h.le hn (by omega) (by omega), if_neg (by omega),
        List.getElem?_take_of_lt (by omega)]
  · rw [List.getElem?_eq_none (by rw [List.length_take]; omega), if_neg (by omega),
      if_neg (by omega), List.getElem?_eq_none (by rw [List.length_take]; omega)]

/-! ## Filling an array -/

/-- One more element behind those that are written already. -/
theorem take_set_next (hn : n < xs.length) (a : α) :
    (xs.set n a).take (n + 1) = xs.take n ++ [a] := by
  rw [List.take_add_one, List.take_set_of_le (Nat.le_refl n), List.getElem?_set_self hn,
    Option.toList_some]

/-! ## Inserting into a sequence -/

theorem insertIdx_eq {i : Nat} (h : i ≤ xs.length) (a : α) :
    xs.insertIdx i a = xs.take i ++ a :: xs.drop i := by
  induction xs generalizing i with
  | nil =>
      obtain rfl : i = 0 := Nat.le_zero.mp h
      rfl
  | cons x xs ih =>
      cases i with
      | zero => rfl
      | succ i => rw [List.insertIdx_succ_cons, ih (Nat.le_of_succ_le_succ h)]; rfl

theorem insertIdx_append (xs ys : List α) (a : α) :
    (xs ++ ys).insertIdx xs.length a = xs ++ a :: ys := by
  rw [insertIdx_eq (by simp), List.take_left, List.drop_left]

/-- Cutting behind the new element. -/
theorem take_insertIdx_of_le {i : Nat} (h : i ≤ n) (hn : n ≤ xs.length) (a : α) :
    (xs.insertIdx i a).take (n + 1) = (xs.take n).insertIdx i a := by
  apply List.ext_getElem?
  intro j
  grind

theorem drop_insertIdx_of_le {i : Nat} (h : i ≤ n) (hn : n ≤ xs.length) (a : α) :
    (xs.insertIdx i a).drop (n + 1) = xs.drop n := by
  apply List.ext_getElem?
  intro j
  grind

/-- Cutting in front of it. -/
theorem drop_insertIdx_of_ge {i : Nat} (h : n ≤ i) (hi : i ≤ xs.length) (a : α) :
    (xs.insertIdx i a).drop n = (xs.drop n).insertIdx (i - n) a := by
  apply List.ext_getElem?
  intro j
  grind

end Prog
