import PrefetchBench.Prog.Basic

/-!
# Halving a window

The arithmetic of binary search, over an arbitrary test `p : Nat → Bool`.  A `Window` is the pair
`[lo, hi)`.  One guarded round (`halve`) keeps one half of a nonempty window and leaves an empty
one alone.  `bisect p w` is where the rounds end up, and every schedule of rounds long enough for
the width of the window ends up there (`iterate_halve`), with no assumption on `p`.  When `p` is
monotone on the window the end is the first place where `p` holds (`bisect_spec`).
-/

/-- A half-open range `[lo, hi)` of positions. -/
structure Window where
  /-- Inclusive lower end. -/
  lo : Nat
  /-- Exclusive upper end. -/
  hi : Nat
deriving DecidableEq, Repr

namespace Window

variable {p : Nat → Bool}

/-- The number of positions of a window. -/
def width (w : Window) : Nat := w.hi - w.lo

/-- One guarded halving round. -/
def halve (p : Nat → Bool) (w : Window) : Window :=
  if w.lo < w.hi then
    if p ((w.lo + w.hi) / 2) then ⟨w.lo, (w.lo + w.hi) / 2⟩ else ⟨(w.lo + w.hi) / 2 + 1, w.hi⟩
  else w

/-- The end of binary search: as many rounds as the window has positions. -/
def bisect (p : Nat → Bool) (w : Window) : Nat := ((halve p)^[w.width] w).lo

theorem halve_of_not_lt {w : Window} (h : ¬ w.lo < w.hi) : w.halve p = w := by
  rw [halve, if_neg h]

theorem halve_of_true {w : Window} (h : w.lo < w.hi) (hp : p ((w.lo + w.hi) / 2) = true) :
    w.halve p = ⟨w.lo, (w.lo + w.hi) / 2⟩ := by
  rw [halve, if_pos h, if_pos hp]

theorem halve_of_false {w : Window} (h : w.lo < w.hi) (hp : p ((w.lo + w.hi) / 2) = false) :
    w.halve p = ⟨(w.lo + w.hi) / 2 + 1, w.hi⟩ := by
  rw [halve, if_pos h, if_neg (by simp [hp])]

/-- What one round does, said once: the window is empty and stays, or the test at the midpoint
picks a half. -/
theorem halve_cases (p : Nat → Bool) (w : Window) :
    (w.hi ≤ w.lo ∧ w.halve p = w) ∨
    (w.lo < w.hi ∧ p ((w.lo + w.hi) / 2) = true ∧ w.halve p = ⟨w.lo, (w.lo + w.hi) / 2⟩) ∨
    (w.lo < w.hi ∧ p ((w.lo + w.hi) / 2) = false ∧
      w.halve p = ⟨(w.lo + w.hi) / 2 + 1, w.hi⟩) := by
  by_cases h : w.lo < w.hi
  · cases hp : p ((w.lo + w.hi) / 2) with
    | true => exact Or.inr (Or.inl ⟨h, rfl, halve_of_true h hp⟩)
    | false => exact Or.inr (Or.inr ⟨h, rfl, halve_of_false h hp⟩)
  · exact Or.inl ⟨by omega, halve_of_not_lt h⟩

theorem halve_lo_le (p : Nat → Bool) (w : Window) : w.lo ≤ (w.halve p).lo := by
  obtain ⟨_, he⟩ | ⟨h, _, he⟩ | ⟨h, _, he⟩ := halve_cases p w <;> rw [he]
  show w.lo ≤ (w.lo + w.hi) / 2 + 1
  omega

theorem halve_hi_le (p : Nat → Bool) (w : Window) : (w.halve p).hi ≤ w.hi := by
  obtain ⟨_, he⟩ | ⟨h, _, he⟩ | ⟨h, _, he⟩ := halve_cases p w <;> rw [he]
  show (w.lo + w.hi) / 2 ≤ w.hi
  omega

theorem halve_ordered {w : Window} (h : w.lo ≤ w.hi) : (w.halve p).lo ≤ (w.halve p).hi := by
  obtain ⟨_, he⟩ | ⟨hlt, _, he⟩ | ⟨hlt, _, he⟩ := halve_cases p w <;> rw [he]
  · exact h
  · show w.lo ≤ (w.lo + w.hi) / 2
    omega
  · show (w.lo + w.hi) / 2 + 1 ≤ w.hi
    omega

/-- A round leaves at most half of the positions. -/
theorem halve_width (p : Nat → Bool) (w : Window) : (w.halve p).width ≤ w.width / 2 := by
  obtain ⟨h, he⟩ | ⟨h, _, he⟩ | ⟨h, _, he⟩ := halve_cases p w <;> rw [he] <;>
    simp only [width] <;> omega

/-! ## Many rounds -/

theorem iterate_halve_hi_le (p : Nat → Bool) (w : Window) :
    ∀ s, ((halve p)^[s] w).hi ≤ w.hi
  | 0 => Nat.le_refl _
  | s + 1 => by
      rw [Function.iterate_succ_apply']
      exact (halve_hi_le p _).trans (iterate_halve_hi_le p w s)

theorem iterate_halve_lo_le (p : Nat → Bool) (w : Window) :
    ∀ s, w.lo ≤ ((halve p)^[s] w).lo
  | 0 => Nat.le_refl _
  | s + 1 => by
      rw [Function.iterate_succ_apply']
      exact (iterate_halve_lo_le p w s).trans (halve_lo_le p _)

theorem iterate_halve_ordered {w : Window} (h : w.lo ≤ w.hi) :
    ∀ s, ((halve p)^[s] w).lo ≤ ((halve p)^[s] w).hi
  | 0 => h
  | s + 1 => by
      rw [Function.iterate_succ_apply']
      exact halve_ordered (iterate_halve_ordered h s)

/-- `s` rounds use up every window of fewer than `2 ^ s` positions. -/
theorem iterate_halve_width (p : Nat → Bool) (w : Window) :
    ∀ s, w.width < 2 ^ s → ((halve p)^[s] w).width = 0
  | 0, h => by
      rw [Function.iterate_zero_apply]
      omega
  | s + 1, h => by
      rw [Function.iterate_succ_apply]
      refine iterate_halve_width p (w.halve p) s ?_
      have := halve_width p w
      rw [Nat.pow_succ] at h
      omega

/-- Once a window is used up, further rounds change nothing. -/
theorem iterate_halve_stable {w : Window} {s : Nat} (h : ((halve p)^[s] w).width = 0) :
    ∀ k, (halve p)^[s + k] w = (halve p)^[s] w
  | 0 => rfl
  | k + 1 => by
      rw [← Nat.add_assoc, Function.iterate_succ_apply', iterate_halve_stable h k]
      refine halve_of_not_lt ?_
      simp only [width] at h
      omega

/-- Two schedules that both use up the window end at the same place. -/
theorem iterate_halve_eq {w : Window} {s t : Nat} (hs : ((halve p)^[s] w).width = 0)
    (ht : ((halve p)^[t] w).width = 0) : (halve p)^[s] w = (halve p)^[t] w := by
  rcases Nat.le_total s t with h | h
  · obtain ⟨k, rfl⟩ := Nat.exists_eq_add_of_le h
    exact (iterate_halve_stable hs k).symm
  · obtain ⟨k, rfl⟩ := Nat.exists_eq_add_of_le h
    exact iterate_halve_stable ht k

/-- Any number of rounds that is enough for the width ends at `bisect`. -/
theorem iterate_halve {w : Window} {s : Nat} (h : w.width < 2 ^ s) :
    ((halve p)^[s] w).lo = bisect p w := by
  rw [bisect, iterate_halve_eq (iterate_halve_width p w s h)
    (iterate_halve_width p w w.width Nat.lt_two_pow_self)]

theorem bisect_of_not_lt {w : Window} (h : ¬ w.lo < w.hi) : bisect p w = w.lo := by
  rw [bisect, width, show w.hi - w.lo = 0 by omega]
  rfl

/-- A round does not move the end. -/
theorem bisect_halve (p : Nat → Bool) (w : Window) : bisect p (w.halve p) = bisect p w := by
  have hw : (w.halve p).width < 2 ^ w.width := by
    have h1 := halve_width p w
    have h2 : w.width < 2 ^ w.width := Nat.lt_two_pow_self
    omega
  rw [← iterate_halve hw, ← Function.iterate_succ_apply]
  refine iterate_halve ?_
  have h2 : w.width < 2 ^ w.width := Nat.lt_two_pow_self
  rw [Nat.pow_succ]
  omega

theorem bisect_iterate (p : Nat → Bool) (w : Window) :
    ∀ s, bisect p ((halve p)^[s] w) = bisect p w
  | 0 => rfl
  | s + 1 => by
      rw [Function.iterate_succ_apply', bisect_halve, bisect_iterate p w s]

theorem lo_le_bisect (p : Nat → Bool) (w : Window) : w.lo ≤ bisect p w :=
  iterate_halve_lo_le p w _

theorem bisect_le_hi {w : Window} (h : w.lo ≤ w.hi) : bisect p w ≤ w.hi :=
  (iterate_halve_ordered h _).trans (iterate_halve_hi_le p w _)

/-! ## Where the rounds end -/

/-- The rounds end where `p` changes from false to true, seen from inside the window: whatever is
known of the positions outside it stays true. -/
theorem bisect_spec {w : Window} (h : w.lo ≤ w.hi)
    (hmono : ∀ i j, w.lo ≤ i → i ≤ j → j < w.hi → p i = true → p j = true) :
    (∀ i, w.lo ≤ i → i < bisect p w → p i = false) ∧
      ∀ i, bisect p w ≤ i → i < w.hi → p i = true := by
  induction hn : w.width using Nat.strongRecOn generalizing w with
  | _ n ih =>
    obtain ⟨hle, _⟩ | ⟨hlt, hp, he⟩ | ⟨hlt, hp, he⟩ := halve_cases p w
    · rw [bisect_of_not_lt (by omega)]
      exact ⟨fun i h1 h2 => by omega, fun i h1 h2 => by omega⟩
    · have ih' := ih (w.halve p).width
        (by have := halve_width p w; simp only [width] at this hn ⊢; omega)
        (w := w.halve p) (halve_ordered h)
        (by rw [he]; exact fun i j hi hij hj => hmono i j hi hij (by simp only at hj; omega)) rfl
      rw [bisect_halve] at ih'
      rw [he] at ih'
      refine ⟨ih'.1, fun i hi hih => ?_⟩
      by_cases hm : i < (w.lo + w.hi) / 2
      · exact ih'.2 i hi hm
      · exact hmono _ i (by omega) (by omega) hih hp
    · have ih' := ih (w.halve p).width
        (by have := halve_width p w; simp only [width] at this hn ⊢; omega)
        (w := w.halve p) (halve_ordered h)
        (by rw [he]; exact fun i j hi hij hj => hmono i j (by simp only at hi; omega) hij hj) rfl
      rw [bisect_halve] at ih'
      rw [he] at ih'
      refine ⟨fun i hi hlt' => ?_, ih'.2⟩
      by_cases hm : i < (w.lo + w.hi) / 2 + 1
      · by_contra hc
        have := hmono i ((w.lo + w.hi) / 2) hi (by omega) (by omega) (by simpa using hc)
        simp [hp] at this
      · exact ih'.1 i (by simp only; omega) hlt'

/-- A position that separates the window's false tests from its true ones is the end. -/
theorem bisect_eq_of_split {w : Window} {r : Nat} (hlo : w.lo ≤ r) (hhi : r ≤ w.hi)
    (hfalse : ∀ i, w.lo ≤ i → i < r → p i = false) (htrue : ∀ i, r ≤ i → i < w.hi → p i = true) :
    bisect p w = r := by
  have hmono : ∀ i j, w.lo ≤ i → i ≤ j → j < w.hi → p i = true → p j = true := by
    intro i j hi hij hj hp
    by_cases hr : i < r
    · rw [hfalse i hi hr] at hp
      cases hp
    · exact htrue j (by omega) hj
  obtain ⟨h1, h2⟩ := bisect_spec (hlo.trans hhi) hmono
  have hb := bisect_le_hi (p := p) (hlo.trans hhi)
  rcases Nat.lt_trichotomy (bisect p w) r with hlt | heq | hgt
  · have ht := h2 (bisect p w) (Nat.le_refl _) (by omega)
    rw [hfalse _ (lo_le_bisect p w) hlt] at ht
    cases ht
  · exact heq
  · have hf := h1 r hlo hgt
    rw [htrue r (Nat.le_refl _) (by omega)] at hf
    cases hf

/-! ## Too few rounds -/

/-- The positions that `k` rounds from `[lo, hi)` can compare: the midpoints of the first `k`
levels of halving. -/
def midpointWithin : Nat → Nat → Nat → Nat → Bool
  | 0, _, _, _ => false
  | k + 1, lo, hi, j =>
      if lo < hi then
        if j < (lo + hi) / 2 then midpointWithin k lo ((lo + hi) / 2) j
        else if (lo + hi) / 2 < j then midpointWithin k ((lo + hi) / 2 + 1) hi j
        else true
      else false

/-- After `k` rounds the window has not passed the separating position `r`, and has reached it
exactly if the last false test, at `r - 1`, is among the positions that can be compared. -/
theorem iterate_halve_split {r : Nat} : ∀ (k : Nat) {w : Window}, w.lo ≤ r → r ≤ w.hi →
    (∀ i, w.lo ≤ i → i < r → p i = false) → (∀ i, r ≤ i → i < w.hi → p i = true) →
    ((halve p)^[k] w).lo ≤ r ∧
      (((halve p)^[k] w).lo = r ↔ r = w.lo ∨ midpointWithin k w.lo w.hi (r - 1) = true)
  | 0, w, hlo, _, _, _ => by
      rw [Function.iterate_zero_apply, midpointWithin]
      exact ⟨hlo, by simp [eq_comm]⟩
  | k + 1, w, hlo, hhi, hfalse, htrue => by
      rw [Function.iterate_succ_apply, midpointWithin]
      obtain ⟨hle, he⟩ | ⟨hlt, hp, he⟩ | ⟨hlt, hp, he⟩ := halve_cases p w
      · obtain ⟨h1, h2⟩ := iterate_halve_split k (w := w) hlo hhi hfalse htrue
        have hr : r = w.lo := by omega
        rw [he, if_neg (by omega)]
        exact ⟨h1, by rw [h2]; simp [hr]⟩
      · have hr : r ≤ (w.lo + w.hi) / 2 := by
          by_contra hc
          rw [hfalse _ (by omega) (by omega)] at hp
          cases hp
        obtain ⟨h1, h2⟩ := iterate_halve_split (r := r) k (w := w.halve p) (by rw [he]; exact hlo)
          (by rw [he]; exact hr) (by rw [he]; exact hfalse)
          (by rw [he]; exact fun i hi hlt' => htrue i hi (by simp only at hlt'; omega))
        refine ⟨h1, h2.trans ?_⟩
        rw [he, if_pos hlt]
        by_cases hr0 : r = w.lo
        · simp [hr0]
        · rw [if_pos (by omega)]
      · have hr : (w.lo + w.hi) / 2 + 1 ≤ r := by
          by_contra hc
          rw [htrue _ (by omega) (by omega)] at hp
          cases hp
        obtain ⟨h1, h2⟩ := iterate_halve_split (r := r) k (w := w.halve p) (by rw [he]; exact hr)
          (by rw [he]; exact hhi)
          (by rw [he]; exact fun i hi => hfalse i (by simp only at hi; omega))
          (by rw [he]; exact htrue)
        refine ⟨h1, h2.trans ?_⟩
        rw [he, if_pos hlt, if_neg (by omega)]
        by_cases hr1 : r = (w.lo + w.hi) / 2 + 1
        · rw [if_neg (by omega)]
          simp [hr1]
        · rw [if_pos (by omega)]
          simp [show r ≠ w.lo by omega, hr1]

/-- The rounds that always suffice reach every position. -/
theorem midpointWithin_of_width : ∀ (k : Nat) {lo hi j : Nat}, hi - lo < 2 ^ k → lo ≤ j → j < hi →
    midpointWithin k lo hi j = true
  | 0, lo, hi, j, h, hlo, hhi => by omega
  | k + 1, lo, hi, j, h, hlo, hhi => by
      rw [midpointWithin, if_pos (by omega)]
      rw [Nat.pow_succ] at h
      by_cases hj : j < (lo + hi) / 2
      · rw [if_pos hj]
        exact midpointWithin_of_width k (by omega) hlo hj
      · rw [if_neg hj]
        by_cases hj' : (lo + hi) / 2 < j
        · rw [if_pos hj']
          exact midpointWithin_of_width k (by omega) hj' hhi
        · rw [if_neg hj']

end Window
