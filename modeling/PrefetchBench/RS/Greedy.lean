import PrefetchBench.RS.Window

/-!
# Greedy spline points

The first step of `rs::RadixSplineIndex::build`: the spline points are chosen so that the lines
between them stay within `Error` of the positions.  The loop draws a line from the last spline
point to the current key and checks it against all keys in between.  When the line leaves the
corridor, the previous key becomes a spline point and the current key is looked at again.

The line that is kept is one that was checked: at the head of the loop the line to the previous
key has passed (`Selecting.passed`).  A spline point is never added twice in a row, since the line
from the previous key to the current one has no keys in between (`passes_next`), and so the loop
ends.
-/

namespace RS

open Prog

variable {w : Nat}

/-- `std::pair<K, size_t>`: a key and its position. -/
abbrev SplinePoint (w : Nat) := Key w × Nat

/-! ## The loops -/

namespace RadixSplineIndex

/-- The state of the selection loop. -/
structure Selection (w : Nat) where
  /-- The spline points so far. -/
  splinePoints : List (SplinePoint w)
  /-- The position of the last one. -/
  lastIdx : Nat
  /-- Its key. -/
  lastKey : Key w
  /-- Its position again. -/
  lastPos : Nat
  /-- The current position. -/
  i : Nat

/-- The line from the last spline point to the current key, at a key. -/
def predicted (last curr : SplinePoint w) (key : Key w) : ℚ :=
  last.2 + subToDouble key last.1 / subToDouble curr.1 last.1 * ((curr.2 - last.2 : Nat) : ℚ)

/-- `std::fabs(predicted - j) > Error`.  Between equal keys the quotient is infinite, or it is 0/0
and the comparison is false. -/
def exceeds (error : Nat) (last curr : SplinePoint w) (key : Key w) (j : Nat) : Bool :=
  if curr.1 = last.1 then decide (key ≠ last.1)
  else decide ((error : ℚ) < |predicted last curr key - j|)

/-- The inner loop: can the segment be extended to the current key? -/
def canExtend (error : Nat) (keys : List (Key w)) (lastIdx : Nat) (last curr : SplinePoint w) :
    Prog Bool :=
  loop (fun j =>
    if j ≤ curr.2 then do
      let key ← read keys j
      if exceeds error last curr key j then pure (.inr false) else pure (.inl (j + 1))
    else pure (.inr true)) (lastIdx + 1)

/-- The body of the selection loop. -/
def extend (error : Nat) (keys : List (Key w)) (r : Selection w) : Prog (Selection w) := do
  let currKey ← read keys r.i
  let canExtend ← canExtend error keys r.lastIdx (r.lastKey, r.lastPos) (currKey, r.i)
  if canExtend then pure { r with i := r.i + 1 } else do
    let key ← read keys (r.i - 1)
    -- `--i` here and `++i` in the loop head: the same position again
    pure ⟨r.splinePoints ++ [(key, r.i - 1)], r.i - 1, key, r.i - 1, r.i⟩

/-- The first step of `build`. -/
def selectPoints (error : Nat) (keys : List (Key w)) : Prog (List (SplinePoint w)) := do
  let n := keys.length
  let minKey ← read keys 0
  let maxKey ← read keys (n - 1)
  let r ← whileM (fun r => pure (decide (r.i < n))) (extend error keys)
    ⟨[(minKey, 0)], 0, minKey, 0, 1⟩
  let back ← read r.splinePoints (r.splinePoints.length - 1)
  if back.1 ≠ maxKey ∨ back.2 ≠ n - 1 then pure (r.splinePoints ++ [(maxKey, n - 1)])
  else pure r.splinePoints

/-! ## One segment -/

section Segment

variable {error : Nat} {keys : List (Key w)} {last curr : SplinePoint w}

/-- No key of a segment exceeds the error. -/
def Passes (error : Nat) (keys : List (Key w)) (last curr : SplinePoint w) : Prop :=
  ∀ (j : Nat) x, last.2 < j → j ≤ curr.2 → keys[j]? = some x →
    exceeds error last curr x j = false

/-- The inner loop decides whether the segment passes. -/
theorem canExtend_ensures (hcurr : curr.2 < keys.length) :
    (canExtend error keys last.2 last curr).Ensures fun b =>
      b = true ↔ Passes error keys last curr := by
  refine Ensures.loop (fun m j => m = curr.2 + 1 - j ∧ last.2 < j ∧
    ∀ (i : Nat) x, last.2 < i → i < j → keys[i]? = some x →
      exceeds error last curr x i = false) ?_ _ _ ⟨rfl, Nat.lt_succ_self _, ?_⟩
  · rintro m j ⟨rfl, hj, hpassed⟩
    split
    · rename_i hle
      obtain ⟨x, hx⟩ := KeyArray.exists_getElem? keys (hle.trans_lt hcurr)
      apply (returns_read.mpr hx).seq
      cases hexc : exceeds error last curr x j with
      | true =>
          apply Ensures.pure
          constructor
          · intro h
            cases h
          · intro hpass
            exact (hpass j x hj hle hx).symm.trans hexc
      | false =>
          refine Ensures.pure ⟨_, ?_, rfl, hj.trans (Nat.lt_succ_self j), ?_⟩
          · omega
          · intro i y hi hij hy
            rcases Nat.lt_succ_iff_lt_or_eq.mp hij with hlt | rfl
            · exact hpassed i y hi hlt hy
            · cases hx.symm.trans hy
              exact hexc
    · rename_i hgt
      apply Ensures.pure
      constructor
      · intro _ i x hi hic hx
        exact hpassed i x hi (hic.trans_lt (not_le.mp hgt)) hx
      · intro _
        rfl
  · intro i x hi hij
    exact absurd hij (not_lt.mpr hi)

/-- The line from a key to the next one passes: it goes through both. -/
theorem passes_next {key : Key w} {i : Nat} (hcurr : keys[i + 1]? = some curr.1)
    (hi : curr.2 = i + 1) (hle : key ≤ curr.1) : Passes error keys (key, i) curr := by
  intro j x hij hji hx
  obtain rfl : j = i + 1 := le_antisymm (hi ▸ hji) hij
  cases hcurr.symm.trans hx
  rw [exceeds]
  split
  · rename_i heq
    simp [heq]
  · rename_i hne
    have hrun : subToDouble curr.1 key ≠ 0 := by
      rw [subToDouble_of_le hle, sub_ne_zero]
      exact fun h => hne (Fin.ext (Nat.cast_injective h))
    have hpred : predicted (key, i) curr curr.1 = ((i + 1 : Nat) : ℚ) := by
      rw [predicted, div_self hrun, hi, Nat.add_sub_cancel_left]
      push_cast
      ring
    rw [hpred, sub_self, abs_zero, decide_eq_false_iff_not, not_lt]
    exact Nat.cast_nonneg error

end Segment

/-! ## The loop -/

section Loop

variable {error : Nat} {keys : List (Key w)} {r : Selection w}

/-- A closed segment. -/
def Closed (error : Nat) (keys : List (Key w)) (p q : SplinePoint w) : Prop :=
  p.2 < q.2 ∧ Passes error keys p q

/-- The invariant at the head of the loop. -/
structure Selecting (error : Nat) (keys : List (Key w)) (r : Selection w) : Prop where
  /-- Spline points are keys. -/
  onKeys : ∀ p ∈ r.splinePoints, keys[p.2]? = some p.1
  /-- The first point is the first key. -/
  head : r.splinePoints.head? = keys.head?.map fun k => (k, 0)
  /-- The last point is where the current segment starts. -/
  last : r.splinePoints.getLast? = some (r.lastKey, r.lastIdx)
  /-- The two copies of its position agree. -/
  lastPos_eq : r.lastPos = r.lastIdx
  /-- All segments but the current one are closed. -/
  closed : r.splinePoints.IsChain (Closed error keys)
  /-- The segment to the previous key passes. -/
  passed : ∀ k, keys[r.i - 1]? = some k → Passes error keys (r.lastKey, r.lastIdx) (k, r.i - 1)
  /-- The current key is behind the last point. -/
  lt : r.lastIdx < r.i
  /-- The loop stays inside the keys. -/
  le : r.i ≤ keys.length

/-- Iterations left: a position is looked at a second time only when the current segment is more
than one key long, and the segment is empty then. -/
def Selection.left (keys : List (Key w)) (r : Selection w) : Nat :=
  2 * (keys.length - r.i) + if r.lastIdx + 1 < r.i then 1 else 0

theorem Selecting.ne_nil (h : Selecting error keys r) : r.splinePoints ≠ [] := by
  intro hnil
  have hlast := h.last
  rw [hnil] at hlast
  cases hlast

theorem Selecting.getElem?_last (h : Selecting error keys r) :
    keys[r.lastIdx]? = some r.lastKey :=
  h.onKeys _ (List.mem_of_getLast? h.last)

/-- The invariant holds before the loop. -/
theorem Selecting.first {k : Key w} (hk : keys[0]? = some k) :
    Selecting error keys ⟨[(k, 0)], 0, k, 0, 1⟩ := by
  refine ⟨?_, ?_, rfl, rfl, List.isChain_singleton _, ?_, Nat.zero_lt_one,
    (List.getElem?_eq_some_iff.mp hk).1⟩
  · intro p hp
    cases List.mem_singleton.mp hp
    exact hk
  · rw [List.head?_eq_getElem?, List.head?_eq_getElem?, hk]
    rfl
  · intro k' _ j x hj hji
    exact absurd hj (not_lt.mpr hji)

/-- The segment is extended. -/
theorem Selecting.extended (h : Selecting error keys r) {k : Key w} (hk : keys[r.i]? = some k)
    (hpass : Passes error keys (r.lastKey, r.lastIdx) (k, r.i)) :
    Selecting error keys { r with i := r.i + 1 } := by
  refine ⟨h.onKeys, h.head, h.last, h.lastPos_eq, h.closed, ?_, ?_, ?_⟩
  · intro k' hk'
    simp only [Nat.add_sub_cancel] at hk' ⊢
    cases hk.symm.trans hk'
    exact hpass
  · exact h.lt.trans (Nat.lt_succ_self _)
  · exact (List.getElem?_eq_some_iff.mp hk).1

/-- The segment is closed at the previous key. -/
theorem Selecting.close (h : Selecting error keys r) (hi : r.i < keys.length) {k : Key w}
    (hk : keys[r.i - 1]? = some k) (hlong : r.lastIdx < r.i - 1) :
    Selecting error keys ⟨r.splinePoints ++ [(k, r.i - 1)], r.i - 1, k, r.i - 1, r.i⟩ := by
  refine ⟨?_, ?_, List.getLast?_concat, rfl, ?_, ?_, ?_, hi.le⟩
  · intro p hp
    rcases List.mem_append.mp hp with hp | hp
    · exact h.onKeys p hp
    · cases List.mem_singleton.mp hp
      exact hk
  · rw [List.head?_append_of_ne_nil _ h.ne_nil]
    exact h.head
  · exact isChain_concat h.closed h.last ⟨hlong, h.passed k hk⟩
  · intro k' _ j x hj hji
    exact absurd hj (not_lt.mpr hji)
  · dsimp only
    omega

/-- A segment of one key passes. -/
theorem Selecting.passes_one (hsorted : keys.Pairwise (· ≤ ·)) (h : Selecting error keys r)
    {k : Key w} (hk : keys[r.i]? = some k) (hone : r.i = r.lastIdx + 1) :
    Passes error keys (r.lastKey, r.lastIdx) (k, r.i) := by
  have hnext : keys[r.lastIdx + 1]? = some k := hone ▸ hk
  have hle : r.lastKey ≤ k :=
    KeyArray.getElem?_mono hsorted (Nat.le_succ _) h.getElem?_last hnext
  exact passes_next hnext hone hle

theorem Selecting.canExtend (h : Selecting error keys r) {k : Key w} (hi : r.i < keys.length) :
    (canExtend error keys r.lastIdx (r.lastKey, r.lastPos) (k, r.i)).Ensures fun b =>
      b = true ↔ Passes error keys (r.lastKey, r.lastIdx) (k, r.i) := by
  rw [h.lastPos_eq]
  exact canExtend_ensures hi

/-- One iteration keeps the invariant, and leaves fewer of them.  A segment of one key is never
closed, as it passes. -/
theorem extend_ensures (hsorted : keys.Pairwise (· ≤ ·)) (h : Selecting error keys r)
    (hi : r.i < keys.length) :
    (extend error keys r).Ensures fun r' =>
      Selecting error keys r' ∧ r'.left keys < r.left keys := by
  obtain ⟨k, hk⟩ := KeyArray.exists_getElem? keys hi
  obtain ⟨k', hk'⟩ := KeyArray.exists_getElem? keys ((Nat.sub_le r.i 1).trans_lt hi)
  have hlt := h.lt
  apply (returns_read.mpr hk).seq
  apply Ensures.bind (h.canExtend hi)
  intro b hb
  cases b with
  | true =>
      refine Ensures.pure ⟨h.extended hk (hb.mp rfl), ?_⟩
      simp only [Selection.left]
      split_ifs <;> omega
  | false =>
      have hlong : r.lastIdx < r.i - 1 := by
        by_contra hshort
        obtain hone : r.i = r.lastIdx + 1 := by omega
        cases hb.mpr (h.passes_one hsorted hk hone)
      refine (returns_read.mpr hk').seq (Ensures.pure ⟨h.close hi hk' hlong, ?_⟩)
      simp only [Selection.left]
      split_ifs <;> omega

end Loop

/-! ## The selected points -/

/-- Points of the keys, from the first to the last, with closed segments in between. -/
structure Selected (error : Nat) (keys : List (Key w)) (points : List (SplinePoint w)) : Prop where
  /-- A point is a key and its position. -/
  onKeys : ∀ p ∈ points, keys[p.2]? = some p.1
  /-- The first point is the first key. -/
  head : points.head? = keys.head?.map fun k => (k, 0)
  /-- The last point is the last key. -/
  last : points.getLast? = keys.getLast?.map fun k => (k, keys.length - 1)
  /-- The segments. -/
  closed : points.IsChain (Closed error keys)

section Selected

variable {error : Nat} {keys : List (Key w)}

/-- The loop ends, with all keys looked at. -/
theorem selectLoop_ensures (hsorted : keys.Pairwise (· ≤ ·)) {k : Key w} (hk : keys[0]? = some k) :
    (whileM (fun r => pure (decide (r.i < keys.length))) (extend error keys)
      ⟨[(k, 0)], 0, k, 0, 1⟩).Ensures fun r => Selecting error keys r ∧ r.i = keys.length := by
  refine Ensures.whileM (fun m r => m = r.left keys ∧ Selecting error keys r) ?_ _ _
    ⟨rfl, .first hk⟩
  rintro m r ⟨rfl, h⟩
  refine ⟨_, returns_pure.mpr rfl, ?_, ?_⟩
  · intro hi
    apply (extend_ensures hsorted h (of_decide_eq_true hi)).mono
    intro r' hr'
    exact ⟨_, hr'.2, rfl, hr'.1⟩
  · intro hi
    exact ⟨h, le_antisymm h.le (not_lt.mp (of_decide_eq_false hi))⟩

/-- What is left after the loop is the segment to the last key, if it is not empty. -/
theorem Selecting.finish {r : Selection w} (h : Selecting error keys r) (hi : r.i = keys.length)
    {k : Key w} (hk : keys[keys.length - 1]? = some k) :
    Selected error keys (if r.lastKey ≠ k ∨ r.lastIdx ≠ keys.length - 1
      then r.splinePoints ++ [(k, keys.length - 1)] else r.splinePoints) := by
  have hlast : keys.getLast? = some k := List.getLast?_eq_getElem?.trans hk
  have hlt := h.lt
  have hpassed := h.passed k (hi.symm ▸ hk)
  rw [hi] at hpassed hlt
  split
  · rename_i hne
    have hbehind : r.lastIdx < keys.length - 1 := by
      rcases hne with hkey | hidx
      · rcases Nat.lt_or_ge r.lastIdx (keys.length - 1) with hlt' | hge
        · exact hlt'
        · have hidx : r.lastIdx = keys.length - 1 := by omega
          rw [← hidx] at hk
          exact absurd (Option.some.inj (h.getElem?_last.symm.trans hk)) hkey
      · omega
    refine ⟨?_, ?_, ?_, ?_⟩
    · intro p hp
      rcases List.mem_append.mp hp with hp | hp
      · exact h.onKeys p hp
      · cases List.mem_singleton.mp hp
        exact hk
    · rw [List.head?_append_of_ne_nil _ h.ne_nil]
      exact h.head
    · rw [List.getLast?_concat, hlast]
      rfl
    · exact isChain_concat h.closed h.last ⟨hbehind, hpassed⟩
  · rename_i heq
    obtain ⟨rfl, hidx⟩ : r.lastKey = k ∧ r.lastIdx = keys.length - 1 := by tauto
    refine ⟨h.onKeys, h.head, ?_, h.closed⟩
    rw [h.last, hlast, hidx]
    rfl

/-- The first step of `build` makes spline points of the keys. -/
theorem selectPoints_ensures (hkeys : keys ≠ []) (hsorted : keys.Pairwise (· ≤ ·)) :
    (selectPoints error keys).Ensures (Selected error keys) := by
  have hn : 0 < keys.length := List.length_pos_iff.mpr hkeys
  obtain ⟨minKey, hmin⟩ := KeyArray.exists_getElem? keys hn
  obtain ⟨maxKey, hmax⟩ := KeyArray.exists_getElem? keys (Nat.sub_lt hn Nat.zero_lt_one)
  apply (returns_read.mpr hmin).seq
  apply (returns_read.mpr hmax).seq
  apply Ensures.bind (selectLoop_ensures hsorted hmin)
  intro r hr
  obtain ⟨hr, hi⟩ := hr
  have hback : r.splinePoints[r.splinePoints.length - 1]? = some (r.lastKey, r.lastIdx) :=
    List.getLast?_eq_getElem?.symm.trans hr.last
  apply (returns_read.mpr hback).seq
  have hfinish := hr.finish hi hmax
  split
  · rename_i hne
    rw [if_pos hne] at hfinish
    exact Ensures.pure hfinish
  · rename_i heq
    rw [if_neg heq] at hfinish
    exact Ensures.pure hfinish

end Selected

/-! ## The corridor -/

/-- The line through two points, at a key. -/
def chord (p q : SplinePoint w) (key : Key w) : ℚ :=
  p.2 + (((key : Nat) : ℚ) - (p.1 : Nat)) / (((q.1 : Nat) : ℚ) - (p.1 : Nat)) * ((q.2 : ℚ) - p.2)

/-- A spline through some keys, from the first to the last, whose lines between different keys are
no more than `error` away from the positions. -/
structure Corridor (error : Nat) (keys : List (Key w)) (points : List (SplinePoint w)) : Prop where
  /-- A point is a key and its position. -/
  onKeys : ∀ p ∈ points, keys[p.2]? = some p.1
  /-- The first point is the first key. -/
  head : points.head? = keys.head?.map fun k => (k, 0)
  /-- The last point is the last key. -/
  last : points.getLast? = keys.getLast?.map fun k => (k, keys.length - 1)
  /-- The positions increase. -/
  increasing : points.IsChain fun p q => p.2 < q.2
  /-- The lines are near. -/
  near : points.IsChain fun p q => p.1 < q.1 → ∀ (j : Nat) x, p.2 < j → j ≤ q.2 →
    keys[j]? = some x → |chord p q x - j| ≤ error

section Corridor

variable {error : Nat} {keys : List (Key w)} {p q : SplinePoint w}

/-- What the code computes is the line. -/
theorem predicted_eq_chord {key : Key w} (hle : p.1 ≤ q.1) (hkey : p.1 ≤ key) (hpq : p.2 ≤ q.2) :
    predicted p q key = chord p q key := by
  rw [predicted, chord, subToDouble_of_le hkey, subToDouble_of_le hle, Nat.cast_sub hpq]

/-- A closed segment stays in the corridor. -/
theorem Closed.near (h : Closed error keys p q) (hsorted : keys.Pairwise (· ≤ ·))
    (hp : keys[p.2]? = some p.1) (hlt : p.1 < q.1) {j : Nat} {x : Key w} (hj : p.2 < j)
    (hjq : j ≤ q.2) (hx : keys[j]? = some x) : |chord p q x - j| ≤ error := by
  have hpx : p.1 ≤ x := KeyArray.getElem?_mono hsorted hj.le hp hx
  have hexc := h.2 j x hj hjq hx
  rw [exceeds, if_neg hlt.ne', decide_eq_false_iff_not, not_lt] at hexc
  rwa [predicted_eq_chord hlt.le hpx h.1.le] at hexc

end Corridor

/-- The spline points that `build` selects make a corridor. -/
theorem selectPoints_corridor (error : Nat) {keys : List (Key w)} (hkeys : keys ≠ [])
    (hsorted : keys.Pairwise (· ≤ ·)) :
    (selectPoints error keys).Ensures (Corridor error keys) := by
  apply (selectPoints_ensures hkeys hsorted).mono
  intro points h
  refine ⟨h.onKeys, h.head, h.last, h.closed.imp fun p q hpq => hpq.1, ?_⟩
  apply h.closed.imp_of_mem_imp
  intro p q hp _ hpq hlt j x hj hjq hx
  exact hpq.near hsorted (h.onKeys p hp) hlt hj hjq hx

theorem selectPoints_corridor_copies :
    (selectPoints 1 ([1, 2, 3, 9, 9, 10] : List (Key 8))).Ensures
      (Corridor 1 [1, 2, 3, 9, 9, 10]) :=
  selectPoints_corridor 1 (by decide) (by decide)

end RadixSplineIndex

end RS
