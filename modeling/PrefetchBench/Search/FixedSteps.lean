import PrefetchBench.Batch.Lanes
import PrefetchBench.Prog.Iterations
import PrefetchBench.Search.Steps

/-!
# A fixed number of rounds

The strategies that search in lockstep run `calc_steps(M)` guarded rounds where `find_lower` runs
`while (lo < hi)`.  Both go through the same windows, the midpoints they compare included, until
the window is empty; the loop stops there and the rounds change nothing any more.  Some strategies
merge the last round with another loop over the lanes, and run one round less before it.

Nothing is assumed of the order of the keys.
-/

namespace KeyArray

open Prog Batch

variable {K : Type} [LinearOrder K]

/-! ## The rounds of one lane -/

/-- `for (step = 0; step < steps; ++step)` one round. -/
def fixedSteps (round : Window → Prog Window) (steps : Nat) (w : Window) : Prog Window :=
  forRange steps (fun _ => round) w

/-- The same with the last round apart: `steps` is an `int`, and `steps - 1` rounds are none for
0 steps. -/
def mergedSteps (round : Window → Prog Window) (steps : Nat) (w : Window) : Prog Window := do
  let w ← fixedSteps round (steps - 1) w
  round w

/-- The window in which `find_lower` evaluates `lo < hi` after `j` rounds. -/
def SearchAt (keys : List K) (key : K) (w : Window) (j : Nat) (v : Window) : Prop :=
  AtHead (fun w => pure (decide (w.lo < w.hi))) (round keys key) w j v

/-- A round in either order of updates. -/
def IsRound (keys : List K) (key : K) (r : Window → Prog Window) : Prop :=
  r = guardedRound keys key ∨ r = branchlessRound keys key

section Rounds

variable {keys : List K} {key : K} {r : Window → Prog Window} {w v : Window}

theorem IsRound.returns (hr : IsRound keys key r) (h : w.hi ≤ keys.length) :
    (r w).Returns (w.halve (probe keys key)) := by
  cases hr with
  | inl hr =>
      rw [hr]
      exact guardedRound_returns h
  | inr hr =>
      rw [hr]
      exact branchlessRound_returns h

theorem fixedSteps_returns (hr : IsRound keys key r) (h : w.hi ≤ keys.length) (steps : Nat) :
    (fixedSteps r steps w).Returns ((Window.halve (probe keys key))^[steps] w) := by
  apply Ensures.returns
  apply Ensures.forRange (fun j v => v = (Window.halve (probe keys key))^[j] w) rfl
  intro j _ v hv
  have hhi := (Window.iterate_halve_hi_le (probe keys key) w j).trans h
  rw [hv, Function.iterate_succ_apply']
  exact (hr.returns hhi).ensures rfl

theorem mergedSteps_returns (hr : IsRound keys key r) (h : w.hi ≤ keys.length) (steps : Nat) :
    (mergedSteps r steps w).Returns ((Window.halve (probe keys key))^[steps - 1 + 1] w) := by
  have hhi := (Window.iterate_halve_hi_le (probe keys key) w (steps - 1)).trans h
  rw [Function.iterate_succ_apply']
  exact (fixedSteps_returns hr h (steps - 1)).bind (hr.returns hhi)

/-- The loop goes through the windows of the rounds. -/
theorem SearchAt.eq (h : w.hi ≤ keys.length) {j : Nat} (hv : SearchAt keys key w j v) :
    v = (Window.halve (probe keys key))^[j] w := by
  induction hv with
  | start => rfl
  | @next k t t' _ hc hb ih =>
      have hlt : t.lo < t.hi := of_decide_eq_true (returns_pure.mp hc)
      have hhi : t.hi ≤ keys.length := by
        rw [ih]
        exact (Window.iterate_halve_hi_le _ w k).trans h
      rw [Function.iterate_succ_apply', ← ih]
      exact hb.det (round_returns hlt hhi)

/-- The rounds go through the windows of the loop until the window is empty. -/
theorem searchAt_of_lt (h : w.hi ≤ keys.length) :
    ∀ j, ((Window.halve (probe keys key))^[j] w).lo < ((Window.halve (probe keys key))^[j] w).hi →
      SearchAt keys key w j ((Window.halve (probe keys key))^[j] w) := by
  intro j
  induction j with
  | zero =>
      intro _
      exact .start
  | succ j ih =>
      have hhi := (Window.iterate_halve_hi_le (probe keys key) w j).trans h
      rw [Function.iterate_succ_apply']
      intro hlt
      rcases Nat.lt_or_ge ((Window.halve (probe keys key))^[j] w).lo
        ((Window.halve (probe keys key))^[j] w).hi with hopen | hempty
      · exact (ih hopen).next (returns_pure.mpr (decide_eq_true hopen)) (round_returns hopen hhi)
      · rw [Window.halve_of_not_lt hempty.not_gt] at hlt
        exact absurd hlt hempty.not_gt

end Rounds

/-- Enough rounds leave the empty window at the end of the search. -/
theorem iterate_halve_eq_bisect {p : Nat → Bool} {w : Window} (hw : w.lo ≤ w.hi) {s : Nat}
    (hs : w.width < 2 ^ s) : (Window.halve p)^[s] w = ⟨w.bisect p, w.bisect p⟩ := by
  have hlo := Window.iterate_halve (p := p) hs
  have hempty := Window.iterate_halve_width p w s hs
  have hordered := Window.iterate_halve_ordered (p := p) hw s
  generalize (Window.halve p)^[s] w = v at hlo hempty hordered
  cases v
  simp only [Window.width] at hlo hempty hordered
  simp only [Window.mk.injEq]
  omega

/-! ## The number of rounds is exact -/

/-- `calc_steps(M)` is the least `s` with `M < 2 ^ s`, and that many rounds over any window of at
most `M` slots of any array end with `lo = hi` at the slot that the serial search returns.  So do
`calc_steps(M) - 1` rounds and one more, in either order of updates.  The slots that the rounds
compare are those that the loop compares, all inside the window.

`calc_steps` over `int` gives the same number for the bounds whose capacities `int` can hold. -/
theorem fixed_steps_converge {M : Nat} (hM : M < 2 ^ 63) (keys : List K) (key : K) {w : Window}
    (hw : w.lo ≤ w.hi) (hlen : w.hi ≤ keys.length) (hwidth : w.width ≤ M) :
    ∃ s slot, (calcSteps M).Returns s ∧ IsLeast {s | M < 2 ^ s} s ∧
      (M < 2 ^ 30 → (calcStepsInt M).Returns s) ∧ (search keys key w).Returns slot ∧
      ∀ r, IsRound keys key r → (fixedSteps r s w).Returns ⟨slot, slot⟩ ∧
        (mergedSteps r s w).Returns ⟨slot, slot⟩ ∧
        ∀ j, ∃ v, (fixedSteps r j w).Returns v ∧ (∀ u, SearchAt keys key w j u → u = v) ∧
          (v.lo < v.hi → SearchAt keys key w j v ∧
            w.lo ≤ (v.lo + v.hi) / 2 ∧ (v.lo + v.hi) / 2 < w.hi) := by
  refine ⟨M.size, w.bisect (probe keys key), calcSteps_returns hM, ?_, calcStepsInt_returns,
    search_returns hlen, ?_⟩
  · constructor
    · exact Nat.lt_size_self M
    · intro s hs
      exact Nat.size_le.mpr hs
  · intro r hr
    refine ⟨?_, ?_, ?_⟩
    · rw [← iterate_halve_eq_bisect hw (hwidth.trans_lt (Nat.lt_size_self M))]
      exact fixedSteps_returns hr hlen M.size
    · have hmerged : w.width < 2 ^ (M.size - 1 + 1) :=
        Nat.size_le.mp ((Nat.size_le_size hwidth).trans (by omega))
      rw [← iterate_halve_eq_bisect hw hmerged]
      exact mergedSteps_returns hr hlen M.size
    · intro j
      have hlo := Window.iterate_halve_lo_le (probe keys key) w j
      have hhi := Window.iterate_halve_hi_le (probe keys key) w j
      refine ⟨_, fixedSteps_returns hr hlen j, fun u hu => hu.eq hlen, ?_⟩
      intro hlt
      refine ⟨searchAt_of_lt hlen j hlt, ?_, ?_⟩
      · omega
      · omega

theorem fixed_steps_converge_unsorted :
    ∃ s slot, (calcSteps 3).Returns s ∧ IsLeast {s | 3 < 2 ^ s} s ∧
      (3 < 2 ^ 30 → (calcStepsInt 3).Returns s) ∧ (search [5, 1, 4] 3 ⟨0, 3⟩).Returns slot ∧
      ∀ r, IsRound [5, 1, 4] 3 r → (fixedSteps r s ⟨0, 3⟩).Returns ⟨slot, slot⟩ ∧
        (mergedSteps r s ⟨0, 3⟩).Returns ⟨slot, slot⟩ ∧
        ∀ j, ∃ v, (fixedSteps r j ⟨0, 3⟩).Returns v ∧
          (∀ u, SearchAt [5, 1, 4] 3 ⟨0, 3⟩ j u → u = v) ∧
          (v.lo < v.hi → SearchAt [5, 1, 4] 3 ⟨0, 3⟩ j v ∧
            0 ≤ (v.lo + v.hi) / 2 ∧ (v.lo + v.hi) / 2 < 3) :=
  fixed_steps_converge (by decide) [5, 1, 4] 3 (by decide) (by decide) (by decide)

end KeyArray
