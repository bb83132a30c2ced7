import PrefetchBench.PGM.Answers

/-!
# The height of the PGM index

Every segment but the last one of a level stands for more than `2 * epsilon` keys of the level below
it, so the levels shrink by a factor from the bottom to the root (`Tower.count_ge`).  The height of
an index is then at most logarithmic in the number of keys (`height_le`).
-/

namespace PGM

open Prog KeyArray

variable {S : Type} {f : Quotients S} {epsilon : Nat} {last : Key} {keys : List Key}
  {levels : List (Storey S)}

/-- `height()` -/
def PGMIndex.height (idx : PGMIndex S) : Nat := idx.levelsOffsets.length - 1

/-- A level that is so many levels below the root has many segments. -/
theorem Tower.count_ge (h : Tower f epsilon last keys levels) {j l : Nat} {storey : Storey S}
    (hl : levels[l]? = some storey) (hj : l + 2 + j = levels.length) :
    (2 * epsilonRecursive) ^ j + 1 ≤ storey.count := by
  obtain ⟨upper, hupper⟩ := exists_getElem? levels (i := l + 1) (by omega)
  induction j generalizing l storey upper with
  | zero => exact h.several l storey upper hl hupper
  | succ j ih =>
      obtain ⟨next, hnext⟩ := exists_getElem? levels (i := l + 1 + 1) (by omega)
      have hcount := ih hupper (by omega) next hnext
      have hbelow : ∃ epsilon' keys', storey.Over f epsilon' last keys' := h.over hl
      obtain ⟨_, _, hbelow⟩ := hbelow
      have hfewer := (h.above l storey upper hl hupper).fewer
      rw [hbelow.length_firstKeys] at hfewer
      have hpos : 0 < (2 * epsilonRecursive) ^ j := Nat.pow_pos (by decide)
      calc (2 * epsilonRecursive) ^ (j + 1) + 1
          ≤ (2 * epsilonRecursive) ^ j * (2 * epsilonRecursive) +
              (2 * epsilonRecursive) ^ j := by
            rw [Nat.pow_succ]
            exact Nat.add_le_add_left hpos _
        _ = (2 * epsilonRecursive + 1) * (2 * epsilonRecursive) ^ j := by ring
        _ ≤ (2 * epsilonRecursive + 1) * (upper.count - 1) :=
            Nat.mul_le_mul_left _ (Nat.le_sub_one_of_lt hcount)
        _ ≤ storey.count := hfewer

/-- The levels are at most logarithmically many. -/
theorem Tower.length_le (h : Tower f epsilon last keys levels) :
    levels.length ≤ Nat.log (2 * epsilonRecursive) (keys.length / (2 * epsilon + 1)) + 2 := by
  obtain ⟨bottom, hbottom, hover, _⟩ := h.bottom
  have hpos := (List.getElem?_eq_some_iff.mp hbottom).1
  cases hlength : levels.length with
  | zero => exact Nat.zero_le _
  | succ n =>
      cases n with
      | zero => exact Nat.succ_le_succ (Nat.zero_le _)
      | succ j =>
          have hcount := h.count_ge hbottom (j := j) (by omega)
          have hfewer := hover.fewer
          apply Nat.succ_le_succ
          apply Nat.succ_le_succ
          apply Nat.le_log_of_pow_le (by decide)
          rw [Nat.le_div_iff_mul_le (Nat.succ_pos _), Nat.mul_comm]
          exact (Nat.mul_le_mul_left _ (Nat.le_sub_one_of_lt hcount)).trans hfewer

/-- The constructor builds an index whose height is at most logarithmic in the number of keys. -/
theorem height_le (h : Fits f epsilon keys) :
    (PGMIndex.new f.toFloating f.segmentation.uncaught epsilon keys).Ensures fun idx =>
      idx.height ≤
        Nat.log (2 * epsilonRecursive) (keys.length / (2 * epsilon + 1)) + 2 := by
  apply (new_built h).mono
  rintro idx ⟨levels, hbuilt⟩
  have hlength : idx.height = levels.length := by
    rw [PGMIndex.height, hbuilt.offsets, Rows.length_offsets, List.length_map, Nat.add_sub_cancel]
  rw [hlength]
  exact hbuilt.tower.length_le

theorem height_le_three :
    (PGMIndex.new quotients.toFloating quotients.segmentation.uncaught 1 [1, 11, 11]).Ensures
      fun idx => idx.height ≤ Nat.log 8 (3 / 3) + 2 := height_le fits_three

end PGM
