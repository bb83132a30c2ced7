import PrefetchBench.Search.Bisect

/-!
# Searching an array of keys

The loops that look for the first key of an array at or above a sought key: the serial
`while (lo < hi)` (`search`), its guarded single round (`guardedRound`), the same round with its
updates selected instead of branched on (`branchlessRound`), and the scan from the left
(`scan`).  Each is related to `Window.bisect` over the test `probe`, or to `List.findIdx`, and on
a nondecreasing array the two agree (`bisect_eq_lowerBound`).
-/

namespace KeyArray

open Prog

theorem exists_getElem? {K : Type} (keys : List K) {i : Nat} (h : i < keys.length) :
    ∃ x, keys[i]? = some x := ⟨keys[i], List.getElem?_eq_getElem h⟩

theorem mid_lt {w : Window} {n : Nat} (hw : w.lo < w.hi) (h : w.hi ≤ n) :
    (w.lo + w.hi) / 2 < n := by omega

variable {K : Type} [LinearOrder K]

/-! ## The loops -/

/-- The test of binary search: is the sought key at or below the key in slot `i`? -/
def probe (keys : List K) (key : K) (i : Nat) : Bool :=
  match keys[i]? with
  | some x => decide (key ≤ x)
  | none => true

/-- Compare with the middle key and keep one half. -/
def round (keys : List K) (key : K) (w : Window) : Prog Window := do
  let mid := (w.lo + w.hi) >>> 1
  let x ← read keys mid
  if key ≤ x then pure ⟨w.lo, mid⟩ else pure ⟨mid + 1, w.hi⟩

/-- `if (lo < hi)` and then a round. -/
def guardedRound (keys : List K) (key : K) (w : Window) : Prog Window :=
  if w.lo < w.hi then round keys key w else pure w

/-- A guarded round that selects both new ends by one comparison. -/
def branchlessRound (keys : List K) (key : K) (w : Window) : Prog Window :=
  if w.lo < w.hi then do
    let mid := (w.lo + w.hi) >>> 1
    let x ← read keys mid
    let cmp := decide (x < key)
    let lo := if cmp then mid + 1 else w.lo
    let hi := if cmp then w.hi else mid
    pure ⟨lo, hi⟩
  else pure w

/-- `while (lo < hi)` rounds, and the slot they end at. -/
def search (keys : List K) (key : K) (w : Window) : Prog Nat := do
  let w ← whileM (fun w => pure (decide (w.lo < w.hi))) (round keys key) w
  pure w.lo

/-- `for (; s < n; ++s) if (key <= keys[s]) return s; return n;` -/
def scanFrom (keys : List K) (key : K) (n s : Nat) : Prog Nat :=
  loop (fun s =>
    if s < n then do
      let x ← read keys s
      if key ≤ x then pure (.inr s) else pure (.inl (s + 1))
    else pure (.inr n)) s

/-- `for (s = 0; s < n; ++s) if (key <= keys[s]) return s; return n;` -/
def scan (keys : List K) (key : K) (n : Nat) : Prog Nat := scanFrom keys key n 0

/-! ## What the rounds compute -/

theorem probe_of_getElem? {keys : List K} {key x : K} {i : Nat} (h : keys[i]? = some x) :
    probe keys key i = decide (key ≤ x) := by
  rw [probe, h]

theorem probe_eq_true_iff {keys : List K} {key x : K} {i : Nat} (h : keys[i]? = some x) :
    probe keys key i = true ↔ key ≤ x := by
  rw [probe_of_getElem? h, decide_eq_true_iff]

theorem probe_eq_false_iff {keys : List K} {key x : K} {i : Nat} (h : keys[i]? = some x) :
    probe keys key i = false ↔ x < key := by
  rw [probe_of_getElem? h, decide_eq_false_iff_not, not_le]

theorem round_returns {keys : List K} {key : K} {w : Window} (hw : w.lo < w.hi)
    (h : w.hi ≤ keys.length) :
    (round keys key w).Returns (w.halve (probe keys key)) := by
  obtain ⟨x, hx⟩ := exists_getElem? keys (mid_lt hw h)
  simp only [round, Nat.shiftRight_one]
  refine Returns.bind (returns_read.mpr hx) ?_
  by_cases hk : key ≤ x
  · rw [if_pos hk, returns_pure,
      Window.halve_of_true hw ((probe_eq_true_iff hx).mpr hk)]
  · rw [if_neg hk, returns_pure,
      Window.halve_of_false hw ((probe_eq_false_iff hx).mpr (not_le.mp hk))]

theorem guardedRound_returns {keys : List K} {key : K} {w : Window} (h : w.hi ≤ keys.length) :
    (guardedRound keys key w).Returns (w.halve (probe keys key)) := by
  by_cases hw : w.lo < w.hi
  · rw [guardedRound, if_pos hw]
    exact round_returns hw h
  · rw [guardedRound, if_neg hw, returns_pure, Window.halve_of_not_lt hw]

/-- Selecting the new ends is the same round: `x < key` is the negation of `key ≤ x`. -/
theorem branchlessRound_returns {keys : List K} {key : K} {w : Window}
    (h : w.hi ≤ keys.length) :
    (branchlessRound keys key w).Returns (w.halve (probe keys key)) := by
  by_cases hw : w.lo < w.hi
  · obtain ⟨x, hx⟩ := exists_getElem? keys (mid_lt hw h)
    rw [branchlessRound, if_pos hw]
    simp only [Nat.shiftRight_one]
    refine Returns.bind (returns_read.mpr hx) ?_
    rw [returns_pure]
    by_cases hk : x < key
    · simp [hk, Window.halve_of_false hw ((probe_eq_false_iff hx).mpr hk)]
    · simp [hk, Window.halve_of_true hw ((probe_eq_true_iff hx).mpr (not_lt.mp hk))]
  · rw [branchlessRound, if_neg hw, returns_pure, Window.halve_of_not_lt hw]

/-- The serial loop ends, reads only inside the window, and returns `bisect`. -/
theorem search_returns {keys : List K} {key : K} {w : Window} (h : w.hi ≤ keys.length) :
    (search keys key w).Returns (w.bisect (probe keys key)) := by
  refine Ensures.returns (Ensures.bind (P := fun w' => w'.lo = w.bisect (probe keys key)) ?_ ?_)
  · refine Ensures.whileM
      (fun m w' => m = w'.width ∧ w'.hi ≤ keys.length ∧
        w'.bisect (probe keys key) = w.bisect (probe keys key)) ?_ w.width w ⟨rfl, h, rfl⟩
    rintro m w' ⟨rfl, hle, hb⟩
    refine ⟨_, returns_pure.mpr rfl, fun hlt => ?_, fun hge => ?_⟩
    · have hlt' : w'.lo < w'.hi := by simpa using hlt
      refine (round_returns hlt' hle).ensures ⟨(w'.halve (probe keys key)).width, ?_, rfl, ?_, ?_⟩
      · have := Window.halve_width (probe keys key) w'
        have hpos : 0 < w'.width := by simp only [Window.width]; omega
        omega
      · exact (Window.halve_hi_le _ _).trans hle
      · rw [Window.bisect_halve, hb]
    · have hge' : ¬ w'.lo < w'.hi := by simpa using hge
      rw [← hb, Window.bisect_of_not_lt hge']
  · intro w' hw'
    exact Ensures.pure hw'

/-! ## Nondecreasing arrays -/

/-- The slot `std::lower_bound` returns on the first `n` keys. -/
def lowerBound (keys : List K) (key : K) (n : Nat) : Nat :=
  (keys.take n).findIdx fun x => decide (key ≤ x)

theorem lowerBound_le (keys : List K) (key : K) (n : Nat) : lowerBound keys key n ≤ n := by
  have h : lowerBound keys key n ≤ (keys.take n).length := List.findIdx_le_length
  rw [List.length_take] at h
  exact h.trans (Nat.min_le_left n keys.length)

theorem lt_of_lt_lowerBound {keys : List K} {key x : K} {n i : Nat}
    (hi : i < lowerBound keys key n) (hx : keys[i]? = some x) : x < key := by
  obtain ⟨hlen, rfl⟩ := List.getElem?_eq_some_iff.mp hx
  have h := List.not_of_lt_findIdx hi
  rw [List.getElem_take] at h
  simpa using h

theorem le_of_lowerBound {keys : List K} {key x : K} {n : Nat}
    (hi : lowerBound keys key n < n) (hx : keys[lowerBound keys key n]? = some x) : key ≤ x := by
  rw [← List.getElem?_take_of_lt hi] at hx
  obtain ⟨hlen, hget⟩ := List.getElem?_eq_some_iff.mp hx
  have h : decide (key ≤ (keys.take n)[lowerBound keys key n]) = true :=
    List.findIdx_getElem (w := hlen)
  rwa [hget, decide_eq_true_iff] at h

/-- The first `n` keys are there and nondecreasing. -/
structure SortedTo (keys : List K) (n : Nat) : Prop where
  /-- The array has that many keys. -/
  le_length : n ≤ keys.length
  /-- They do not decrease. -/
  pairwise : (keys.take n).Pairwise (· ≤ ·)

instance (keys : List K) (n : Nat) : Decidable (SortedTo keys n) :=
  decidable_of_iff (n ≤ keys.length ∧ (keys.take n).Pairwise (· ≤ ·))
    ⟨fun h => ⟨h.1, h.2⟩, fun h => ⟨h.1, h.2⟩⟩

theorem SortedTo.le {keys : List K} {n i j : Nat} {x y : K} (h : SortedTo keys n) (hij : i ≤ j)
    (hj : j < n) (hx : keys[i]? = some x) (hy : keys[j]? = some y) : x ≤ y := by
  rcases Nat.eq_or_lt_of_le hij with rfl | hlt
  · exact le_of_eq (Option.some.inj (hx.symm.trans hy))
  · have hlen := h.le_length
    have hp := List.pairwise_iff_getElem.mp h.pairwise i j
      (by rw [List.length_take]; omega) (by rw [List.length_take]; omega) hlt
    rw [List.getElem_take, List.getElem_take] at hp
    rwa [(List.getElem?_eq_some_iff.mp hx).2, (List.getElem?_eq_some_iff.mp hy).2] at hp

theorem sortedTo_of_pairwise {keys : List K} (h : keys.Pairwise (· ≤ ·)) :
    SortedTo keys keys.length :=
  ⟨Nat.le_refl _, by rwa [List.take_length]⟩

theorem getElem?_mono {keys : List K} (h : keys.Pairwise (· ≤ ·)) {i j : Nat} {x y : K}
    (hij : i ≤ j) (hx : keys[i]? = some x) (hy : keys[j]? = some y) : x ≤ y :=
  (sortedTo_of_pairwise h).le hij (List.getElem?_eq_some_iff.mp hy).1 hx hy

/-- Only the first `n` keys matter. -/
theorem SortedTo.of_take_eq {keys cells : List K} {n : Nat} (hs : SortedTo keys n)
    (h : cells.take n = keys.take n) : SortedTo cells n := by
  have hlen := congrArg List.length h
  rw [List.length_take, List.length_take, Nat.min_eq_left hs.le_length] at hlen
  exact ⟨by omega, h ▸ hs.pairwise⟩

/-- The test is false before the lower bound and true from there on. -/
theorem SortedTo.probe_split {keys : List K} {n : Nat} (hs : SortedTo keys n) (key : K) :
    (∀ i, i < lowerBound keys key n → probe keys key i = false) ∧
      ∀ i, lowerBound keys key n ≤ i → i < n → probe keys key i = true := by
  have hlen := hs.le_length
  have hle := lowerBound_le keys key n
  refine ⟨fun i hi => ?_, fun i hi hlt => ?_⟩
  · obtain ⟨x, hx⟩ := exists_getElem? keys (i := i) (by omega)
    exact (probe_eq_false_iff hx).mpr (lt_of_lt_lowerBound hi hx)
  · obtain ⟨x, hx⟩ := exists_getElem? keys (i := i) (by omega)
    obtain ⟨y, hy⟩ := exists_getElem? keys (i := lowerBound keys key n) (by omega)
    rw [probe_eq_true_iff hx]
    exact (le_of_lowerBound (by omega) hy).trans (hs.le hi (by omega) hy hx)

/-- Over a nondecreasing array binary search finds the lower bound of every window that the lower
bound lies in. -/
theorem bisect_eq_lowerBound {keys : List K} {key : K} {n : Nat} {w : Window}
    (hs : SortedTo keys n) (hlo : w.lo ≤ lowerBound keys key n)
    (hhi : lowerBound keys key n ≤ w.hi) (hw : w.hi ≤ n) :
    w.bisect (probe keys key) = lowerBound keys key n :=
  Window.bisect_eq_of_split hlo hhi (fun i _ hi => (hs.probe_split key).1 i hi)
    fun i hi hlt => (hs.probe_split key).2 i hi (by omega)

theorem bisect_zero_eq_lowerBound {keys : List K} {key : K} {n : Nat} (hs : SortedTo keys n) :
    Window.bisect (probe keys key) ⟨0, n⟩ = lowerBound keys key n :=
  bisect_eq_lowerBound hs (Nat.zero_le _) (lowerBound_le keys key n) (Nat.le_refl n)

/-- A slot whose key is not below the sought one, after slots that all are. -/
theorem lowerBound_eq {keys : List K} {key : K} {n r : Nat} (hr : r ≤ n) (hn : n ≤ keys.length)
    (hlt : ∀ i x, i < r → keys[i]? = some x → x < key)
    (hle : ∀ x, r < n → keys[r]? = some x → key ≤ x) : lowerBound keys key n = r := by
  rcases Nat.lt_trichotomy (lowerBound keys key n) r with h | h | h
  · obtain ⟨x, hx⟩ := exists_getElem? keys (i := lowerBound keys key n) (by omega)
    exact absurd (le_of_lowerBound (by omega) hx) (not_le.mpr (hlt _ x h hx))
  · exact h
  · have hb := lowerBound_le keys key n
    obtain ⟨x, hx⟩ := exists_getElem? keys (i := r) (by omega)
    exact absurd (hle x (by omega) hx) (not_le.mpr (lt_of_lt_lowerBound h hx))

/-- The lower bound is the least slot whose key is not below the sought one. -/
theorem lowerBound_isLeast {keys : List K} (key : K) {n : Nat} (hn : n ≤ keys.length) :
    IsLeast {s | s = n ∨ s < n ∧ ∃ x ∈ keys[s]?, key ≤ x} (lowerBound keys key n) := by
  have hle := lowerBound_le keys key n
  constructor
  · rcases Nat.eq_or_lt_of_le hle with heq | hlt
    · exact Or.inl heq
    · obtain ⟨x, hx⟩ := exists_getElem? keys (hlt.trans_le hn)
      exact Or.inr ⟨hlt, x, hx, le_of_lowerBound hlt hx⟩
  · rintro s (rfl | ⟨_, x, hx, hkx⟩)
    · exact hle
    · by_contra hc
      exact (lt_of_lt_lowerBound (not_le.mp hc) hx).not_ge hkx

/-- A scan from a slot at or before the lower bound reads below `n` only and returns the lower
bound, sorted or not. -/
theorem scanFrom_returns {keys : List K} {key : K} {n s : Nat} (hn : n ≤ keys.length)
    (hs : s ≤ lowerBound keys key n) :
    (scanFrom keys key n s).Returns (lowerBound keys key n) := by
  refine Ensures.returns (Ensures.loop
    (fun m s => m = n - s ∧ s ≤ lowerBound keys key n) ?_ (n - s) s ⟨rfl, hs⟩)
  rintro m s ⟨rfl, hs⟩
  have hle := lowerBound_le keys key n
  by_cases hlt : s < n
  · obtain ⟨x, hx⟩ := exists_getElem? keys (i := s) (by omega)
    rw [if_pos hlt]
    refine (returns_read.mpr hx).seq ?_
    by_cases hk : key ≤ x
    · rw [if_pos hk]
      refine Ensures.pure ?_
      by_contra hne
      have hlt' : s < lowerBound keys key n := by omega
      exact absurd hk (not_le.mpr (lt_of_lt_lowerBound hlt' hx))
    · rw [if_neg hk]
      refine Ensures.pure ⟨n - (s + 1), by omega, rfl, ?_⟩
      by_contra hc
      have heq : lowerBound keys key n = s := by omega
      rw [← heq] at hx
      exact hk (le_of_lowerBound (by omega) hx)
  · rw [if_neg hlt]
    exact Ensures.pure (by omega)

theorem scan_returns {keys : List K} {key : K} {n : Nat} (hn : n ≤ keys.length) :
    (scan keys key n).Returns (lowerBound keys key n) := scanFrom_returns hn (Nat.zero_le _)

end KeyArray
