import PrefetchBench.Prog.Iterations
import PrefetchBench.RS.Greedy

/-!
# Looking at a position again

The selection loop of `rs::RadixSplineIndex::build` decrements its counter when it closes a
segment, so that the counter alone does not show that the loop ends.  After a segment was closed
the current one is one key long, and such a segment passes: the next iteration moves on.  A
position is looked at twice at most, and the measure `Selection.left` counts the iterations.
-/

namespace RS.RadixSplineIndex

open Prog

variable {w : Nat} {error : Nat} {keys : List (Key w)} {r r' : Selection w}

/-- The state in which the selection loop evaluates its condition after `k` iterations. -/
def SelectingAt (error : Nat) (keys : List (Key w)) (k : Nat) (r : Selection w) : Prop :=
  ∃ minKey, keys[0]? = some minKey ∧
    AtHead (fun r => pure (decide (r.i < keys.length))) (extend error keys)
      ⟨[(minKey, 0)], 0, minKey, 0, 1⟩ k r

/-! ## One iteration -/

/-- An iteration extends the segment, or it closes the segment at the previous key. -/
theorem extend_returns (h : (extend error keys r).Returns r') :
    r' = { r with i := r.i + 1 } ∨
      ∃ key, keys[r.i - 1]? = some key ∧
        r' = ⟨r.splinePoints ++ [(key, r.i - 1)], r.i - 1, key, r.i - 1, r.i⟩ := by
  obtain ⟨k, _, h⟩ := returns_bind.mp h
  obtain ⟨b, _, h⟩ := returns_bind.mp h
  cases b with
  | true =>
      cases returns_pure.mp h
      exact Or.inl rfl
  | false =>
      obtain ⟨key, hkey, h⟩ := returns_bind.mp h
      cases returns_pure.mp h
      exact Or.inr ⟨key, returns_read.mp hkey, rfl⟩

/-- A segment of one key is extended. -/
theorem Selecting.extend_one (hsorted : keys.Pairwise (· ≤ ·)) (h : Selecting error keys r)
    (hi : r.i < keys.length) (hone : r.i = r.lastIdx + 1) :
    (extend error keys r).Returns { r with i := r.i + 1 } := by
  obtain ⟨k, hk⟩ := KeyArray.exists_getElem? keys hi
  obtain ⟨b, hb, hpass⟩ := h.canExtend hi
  cases hpass.mpr (h.passes_one hsorted hk hone)
  exact (returns_read.mpr hk).bind (hb.bind (returns_pure.mpr rfl))

/-- Iterations left, with those behind the current position: at most one of them is at it. -/
theorem Selection.left_bounds (keys : List (Key w)) (r : Selection w) :
    2 * (keys.length - r.i) ≤ r.left keys ∧ r.left keys ≤ 2 * (keys.length - r.i) + 1 := by
  rw [left]
  split <;> omega

/-! ## The whole loop -/

section Loop

variable (hsorted : keys.Pairwise (· ≤ ·))

include hsorted

theorem Selecting.next (h : Selecting error keys r)
    (hi : (pure (decide (r.i < keys.length)) : Prog Bool).Returns true)
    (hr : (extend error keys r).Returns r') :
    Selecting error keys r' ∧ r'.left keys < r.left keys :=
  (extend_ensures hsorted h (of_decide_eq_true (returns_pure.mp hi))).of_returns hr

/-- Every state at the head of the loop keeps the invariant. -/
theorem SelectingAt.selecting {k : Nat} (h : SelectingAt error keys k r) :
    Selecting error keys r := by
  obtain ⟨minKey, hmin, h⟩ := h
  apply h.keeps (P := fun _ r => Selecting error keys r)
  · exact .first hmin
  · intro _ t t' ht hc hb
    exact (ht.next hsorted hc hb).1

/-- The states at one position follow each other. -/
theorem SelectingAt.same_position {k m : Nat} (h : SelectingAt error keys k r)
    (h' : SelectingAt error keys (k + m) r') (hi : r'.i = r.i) : m ≤ 1 := by
  have hr := h.selecting hsorted
  obtain ⟨minKey, hmin, h⟩ := h
  obtain ⟨minKey', hmin', h'⟩ := h'
  cases hmin.symm.trans hmin'
  obtain ⟨u, hu, hm⟩ := h'.split m
  cases h.det hu
  have hfalls := hm.falls hr fun t t' ht hc hb => ht.next hsorted hc hb
  have hlow := (r'.left_bounds keys).1
  have hhigh := (r.left_bounds keys).2
  rw [hi] at hlow
  omega

/-- A turn of the loop: the condition, and the iterations left after the body. -/
theorem selecting_turn {m : Nat} (hm : m = r.left keys) (h : Selecting error keys r) :
    ∃ b, (pure (decide (r.i < keys.length)) : Prog Bool).Returns b ∧
      (b = true → (extend error keys r).Ensures fun r' =>
        ∃ m' < m, m' = r'.left keys ∧ Selecting error keys r') := by
  refine ⟨_, returns_pure.mpr rfl, ?_⟩
  intro hi
  apply (extend_ensures hsorted h (of_decide_eq_true hi)).mono
  intro r' hr'
  exact ⟨_, hm ▸ hr'.2, rfl, hr'.1⟩

/-- The loop ends: every iteration leaves fewer of them. -/
theorem selecting_ends (hkeys : keys ≠ []) :
    ∃ k ≤ 2 * (keys.length - 1), ∃ r, SelectingAt error keys k r ∧ r.i = keys.length := by
  obtain ⟨minKey, hmin⟩ := KeyArray.exists_getElem? keys (List.length_pos_iff.mpr hkeys)
  have hends := AtHead.ends (fun m r (h : m = r.left keys ∧ Selecting error keys r) =>
    selecting_turn hsorted h.1 h.2) (2 * (keys.length - 1)) ⟨[(minKey, 0)], 0, minKey, 0, 1⟩
      ⟨rfl, .first hmin⟩
  obtain ⟨k, hk, r, hr, hc⟩ := hends
  have hat : SelectingAt error keys k r := ⟨minKey, hmin, hr⟩
  have hge := not_lt.mp (of_decide_eq_false (returns_pure.mp hc))
  exact ⟨k, hk, r, hat, le_antisymm (hat.selecting hsorted).le hge⟩

end Loop

/-- The selection loop of `build` ends, for nonempty sorted keys with any copies among them.  Its
counter stands at a position for two evaluations of the condition at most, one after the other:
directly after a segment was closed, the extension to the current key succeeds. -/
theorem selection_ends (error : Nat) {keys : List (Key w)} (hkeys : keys ≠ [])
    (hsorted : keys.Pairwise (· ≤ ·)) :
    (selectPoints error keys).Ensures (fun _ => True) ∧
      (∃ k ≤ 2 * (keys.length - 1), ∃ r, SelectingAt error keys k r ∧ r.i = keys.length) ∧
      (∀ k k' r r', SelectingAt error keys k r → SelectingAt error keys k' r' → k ≤ k' →
        r'.i = r.i → k' ≤ k + 1) ∧
      ∀ k r r', SelectingAt error keys k r → r.i < keys.length →
        (extend error keys r).Returns r' → r'.i ≠ r.i + 1 →
        r'.i = r.i ∧ r'.lastIdx = r.i - 1 ∧
          (extend error keys r').Returns { r' with i := r'.i + 1 } := by
  refine ⟨(selectPoints_ensures hkeys hsorted).mono fun _ _ => trivial,
    selecting_ends hsorted hkeys, ?_, ?_⟩
  · intro k k' r r' hr hr' hle hi
    obtain ⟨m, rfl⟩ := Nat.exists_eq_add_of_le hle
    exact Nat.add_le_add_left (hr.same_position hsorted hr' hi) k
  · intro k r r' hr hi hext hclosed
    have h := hr.selecting hsorted
    have h' := (extend_ensures hsorted h hi).of_returns hext
    have hlt := h.lt
    rcases extend_returns hext with rfl | ⟨key, _, rfl⟩
    · exact absurd rfl hclosed
    · refine ⟨rfl, rfl, h'.1.extend_one hsorted hi ?_⟩
      dsimp only
      omega

theorem selection_ends_copies :
    (selectPoints 1 ([1, 2, 3, 9, 9, 10] : List (Key 8))).Ensures (fun _ => True) ∧
      (∃ k ≤ 2 * (([1, 2, 3, 9, 9, 10] : List (Key 8)).length - 1), ∃ r,
        SelectingAt 1 ([1, 2, 3, 9, 9, 10] : List (Key 8)) k r ∧
          r.i = ([1, 2, 3, 9, 9, 10] : List (Key 8)).length) :=
  have h := selection_ends 1 (by decide : ([1, 2, 3, 9, 9, 10] : List (Key 8)) ≠ []) (by decide)
  ⟨h.1, h.2.1⟩

end RS.RadixSplineIndex
