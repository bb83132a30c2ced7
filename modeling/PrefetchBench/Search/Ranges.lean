import PrefetchBench.Prog.Basic
import PrefetchBench.Search.Bisect

/-!
# Partition points of a range

`std::upper_bound` on part of an array, as a position.  The library promises the partition point
when the range has one (`upperBound_eq`); halving a window finds it, and stays inside the range
in any case (`upperBound_ensures`).
-/

namespace Ranges

open Prog

variable {α : Type} {above : α → Bool} {xs : List α} {lo hi r : Nat}

/-- `std::upper_bound(first + lo, first + hi, ..) - first`, where `above x` says that the sought
value is below `x`. -/
def upperBound (above : α → Bool) (xs : List α) (lo hi : Nat) : Prog Nat := do
  assert (decide (lo ≤ hi) && decide (hi ≤ xs.length))
  pure (Window.bisect (fun i => (xs[i]?).any above) ⟨lo, hi⟩)

theorem upperBound_returns (h : lo ≤ hi) (hlen : hi ≤ xs.length) :
    (upperBound above xs lo hi).Returns (Window.bisect (fun i => (xs[i]?).any above) ⟨lo, hi⟩) :=
  returns_assert_bind.mpr ⟨by simp [h, hlen], returns_pure.mpr rfl⟩

theorem upperBound_ensures (h : lo ≤ hi) (hlen : hi ≤ xs.length) :
    (upperBound above xs lo hi).Ensures fun r => lo ≤ r ∧ r ≤ hi :=
  (upperBound_returns h hlen).ensures
    ⟨Window.lo_le_bisect _ ⟨lo, hi⟩, Window.bisect_le_hi (w := ⟨lo, hi⟩) h⟩

/-- The partition point of the range. -/
theorem upperBound_eq (hlo : lo ≤ r) (hhi : r ≤ hi) (hlen : hi ≤ xs.length)
    (hbelow : ∀ i x, lo ≤ i → i < r → xs[i]? = some x → above x = false)
    (habove : ∀ i x, r ≤ i → i < hi → xs[i]? = some x → above x = true) :
    (upperBound above xs lo hi).Returns r := by
  have hget : ∀ i, i < hi → ∃ x, xs[i]? = some x := fun i hi =>
    ⟨_, List.getElem?_eq_getElem (hi.trans_le hlen)⟩
  have hsplit : Window.bisect (fun i => (xs[i]?).any above) ⟨lo, hi⟩ = r := by
    refine Window.bisect_eq_of_split hlo hhi (fun i h1 h2 => ?_) fun i h1 h2 => ?_
    · obtain ⟨x, hx⟩ := hget i (h2.trans_le hhi)
      rw [hx]
      exact hbelow i x h1 h2 hx
    · obtain ⟨x, hx⟩ := hget i h2
      rw [hx]
      exact habove i x h1 h2 hx
  exact hsplit ▸ upperBound_returns (hlo.trans hhi) hlen

/-! ## The first element above a value -/

section Above

variable {β κ : Type} [LinearOrder κ] {f : β → κ} {points : List β} {key : κ} {i : Nat} {c : β}

/-- The elements before the first one above a value are not above it. -/
theorem le_of_lt_findIdx (hi : i < points.findIdx fun c => decide (key < f c))
    (hc : points[i]? = some c) : f c ≤ key := by
  obtain ⟨_, rfl⟩ := List.getElem?_eq_some_iff.mp hc
  exact not_lt.mp (of_decide_eq_false (List.not_of_lt_findIdx hi))

/-- In order, the others are. -/
theorem lt_of_findIdx_le (hsorted : points.Pairwise fun c d => f c ≤ f d)
    (hi : points.findIdx (fun c => decide (key < f c)) ≤ i) (hc : points[i]? = some c) :
    key < f c := by
  obtain ⟨hlt, rfl⟩ := List.getElem?_eq_some_iff.mp hc
  have hub := hi.trans_lt hlt
  have hfirst := of_decide_eq_true
    (List.findIdx_getElem (p := fun c => decide (key < f c)) (w := hub))
  rcases Nat.eq_or_lt_of_le hi with rfl | hi
  · exact hfirst
  · exact hfirst.trans_le (List.pairwise_iff_getElem.mp hsorted _ i hub hlt hi)

/-- What holds of the first elements of a list only holds of as many as there are before the first
failure. -/
theorem countP_eq_findIdx {p : β → Bool} :
    ∀ {xs : List β}, xs.Pairwise (fun a b => p b = true → p a = true) →
      xs.countP p = xs.findIdx fun x => !p x
  | [], _ => rfl
  | x :: xs, h => by
      obtain ⟨hx, hxs⟩ := List.pairwise_cons.mp h
      cases hp : p x with
      | true =>
          rw [List.countP_cons_of_pos hp, List.findIdx_cons, hp, countP_eq_findIdx hxs]
          rfl
      | false =>
          have hnone : xs.countP p = 0 := List.countP_eq_zero.mpr fun y hy hpy => by
            rw [hx y hy hpy] at hp
            cases hp
          rw [List.countP_cons_of_neg (by simp [hp]), List.findIdx_cons, hp, hnone]
          rfl

end Above

end Ranges
