import PrefetchBench.Search.KeyArray

/-!
# The number of rounds

Several strategies replace `while (lo < hi)` by a fixed number of guarded rounds, computed by
`calc_steps` from a bound on the width of the window.  It is the bit length of the bound, the
least number of rounds that always empties the window (`calcSteps_returns`, `Window.iterate_halve`).
The code has it over `int` capacities, whose overflow is undefined, and over `size_t` capacities,
which wrap; the bound has to be below the largest power of two for either.
-/

namespace KeyArray

open Prog

/-- `while (capacity <= max) { capacity *= 2; steps++; }`, with the doubling of the capacity as it
is in the type of the capacity. -/
def calcStepsBy (double : Nat → Prog Nat) (maxRange : Nat) : Prog Nat := do
  let r ← whileM (fun r => pure (decide (r.2 ≤ maxRange))) (fun r => do
    let capacity ← double r.2
    pure (r.1 + 1, capacity)) (0, 1)
  pure r.1

/-- `calc_steps(size_t max_range)` -/
def calcSteps (maxRange : Nat) : Prog Nat :=
  calcStepsBy (fun capacity => pure (capacity * 2 % 2 ^ 64)) maxRange

/-- `calc_steps(int max_slots)` -/
def calcStepsInt (maxSlots : Nat) : Prog Nat :=
  calcStepsBy (fun capacity => do
    assert (decide (capacity * 2 < 2 ^ 31))
    pure (capacity * 2)) maxSlots

theorem calcStepsBy_returns {double : Nat → Prog Nat} {maxRange : Nat}
    (hd : ∀ c, c ≤ maxRange → (double c).Returns (c * 2)) :
    (calcStepsBy double maxRange).Returns maxRange.size := by
  refine Ensures.returns (Ensures.bind (P := fun r => r.1 = maxRange.size) ?_
    fun r hr => Ensures.pure hr)
  refine Ensures.whileM (fun m r => m = maxRange.size - r.1 ∧ r.1 ≤ maxRange.size ∧
    r.2 = 2 ^ r.1) ?_ _ (0, 1) ⟨rfl, Nat.zero_le _, rfl⟩
  rintro m ⟨steps, capacity⟩ ⟨rfl, hle, hcap⟩
  simp only at hle hcap
  subst hcap
  refine ⟨_, returns_pure.mpr rfl, fun hlt => ?_, fun hge => ?_⟩
  · have hlt' : 2 ^ steps ≤ maxRange := by simpa using hlt
    have hsize : steps < maxRange.size := Nat.lt_size.mpr hlt'
    refine (hd _ hlt').seq (Ensures.pure ⟨_, ?_, rfl, hsize, (Nat.pow_succ ..).symm⟩)
    simp only
    omega
  · have hge' : ¬ 2 ^ steps ≤ maxRange := by simpa using hge
    have hsize : ¬ steps < maxRange.size := fun h => hge' (Nat.lt_size.mp h)
    exact Nat.le_antisymm hle (not_lt.mp hsize)

/-- The steps for a bound whose capacities do not wrap. -/
theorem calcSteps_returns {maxRange : Nat} (h : maxRange < 2 ^ 63) :
    (calcSteps maxRange).Returns maxRange.size :=
  calcStepsBy_returns fun c hc => returns_pure.mpr (Nat.mod_eq_of_lt (by omega))

theorem calcStepsInt_returns {maxSlots : Nat} (h : maxSlots < 2 ^ 30) :
    (calcStepsInt maxSlots).Returns maxSlots.size :=
  calcStepsBy_returns fun c hc =>
    returns_assert_bind.mpr ⟨by simpa using by omega, returns_pure.mpr rfl⟩

/-- That many rounds end where the serial loop does, for every window within the bound. -/
theorem iterate_size {p : Nat → Bool} {w : Window} {maxRange : Nat}
    (h : w.width ≤ maxRange) : ((Window.halve p)^[maxRange.size] w).lo = w.bisect p :=
  Window.iterate_halve (h.trans_lt (Nat.lt_size_self maxRange))

end KeyArray
