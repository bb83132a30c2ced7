import PrefetchBench.RS.Strategies

/-!
# Which copy a lookup finds

A key may occur several times.  The sort of `RSWrapper::build` is stable, so the first copy in the
arrays is the one that came first in the input (`sortByKey_find?`), and the slot of
`std::lower_bound` is that copy.  `find_lower` returns it when it is in the window.

The window ends behind the first copy, but it may start behind it too: the estimate of a key is
the last spline point among its copies, if there is one, and the window starts `max_error` before
the estimate.  So a lookup finds the first copy exactly when the last spline point among the
copies is at most `max_error` behind the first, or the key is the smallest, whose estimate is its
first copy (`build_first_iff`).
-/

namespace RS

open Prog KeyArray Windowed Batch

variable {w : Nat} {V : Type}

/-! ## The stable sort -/

section SortByKey

variable {keys : List (Key w)} {values : List V} (h : keys.length = values.length)

/-- The copies of a key stay in the order of the input. -/
theorem filter_sortedOrder (q : Key w) :
    (sortedOrder keys).filter (fun i => keys.get i == q) =
      (List.finRange keys.length).filter fun i => keys.get i == q := by
  have hcopies : ((List.finRange keys.length).filter fun i => keys.get i == q).Pairwise
      fun a b => decide (keys[a] ≤ keys[b]) = true := by
    refine List.pairwise_of_forall_mem_list fun a ha b hb => decide_eq_true (le_of_eq ?_)
    have h1 := beq_iff_eq.mp (List.mem_filter.mp ha).2
    have h2 := beq_iff_eq.mp (List.mem_filter.mp hb).2
    exact h1.trans h2.symm
  have hsub := List.sublist_mergeSort
    (fun a b c hab hbc => decide_eq_true ((of_decide_eq_true hab).trans (of_decide_eq_true hbc)))
    (fun a b => by
      rw [Bool.or_eq_true, decide_eq_true_iff, decide_eq_true_iff]
      exact le_total _ _) hcopies List.filter_sublist
  have hfilter := hsub.filter fun i => keys.get i == q
  simp only [List.filter_filter, Bool.and_self] at hfilter
  exact (hfilter.eq_of_length ((List.mergeSort_perm _ _).filter _).length_eq.symm).symm

/-- The first copy of a key in the arrays is its first one in the input. -/
theorem sortByKey_find? (q : Key w) :
    ((sortByKey keys values h).keys.zip (sortByKey keys values h).values).find?
        (fun e => e.1 == q) = (keys.zip values).find? fun e => e.1 == q := by
  rw [sortByKey]
  split
  · rfl
  · rw [List.zip_map', zip_eq_map_finRange h, List.find?_map, List.find?_map]
    simp only [Function.comp_def]
    rw [← List.head?_filter, ← List.head?_filter, filter_sortedOrder]

end SortByKey

/-! ## The slot of a lookup -/

/-- `find_lower` on the window of `GetSearchBound`: the slot that `NoPrefetch` looks at. -/
def NoPrefetch.slot (rs : RSWrapper w V) (key : Key w) : Prog Nat := do
  let bound ← rs.index.getSearchBound key
  search rs.keys key ⟨min bound.lo rs.keys.length, min bound.hi rs.keys.length⟩

/-- The lookup of `q` finds the first copy: the slot is that of `std::lower_bound` over all keys,
and the value the one that the input pairs with the first occurrence of the key. -/
structure RSWrapper.FindsFirst (rs : RSWrapper w V) (keys : List (Key w)) (values : List V)
    (q : Key w) : Prop where
  /-- The slot. -/
  slot : (NoPrefetch.slot rs q).Returns (lowerBound rs.keys q rs.keys.length)
  /-- The value. -/
  value : ∀ (queries : List (Key w)) (results : List V) (dflt : V) (i : Nat),
    queries[i]? = some q → ∃ out v,
    (NoPrefetch.batchLookup rs queries results dflt).Returns out ∧ out.found[i]? = some true ∧
      ((keys.zip values).find? fun e => e.1 == q) = some (q, v) ∧ out.results[i]? = some v

section Slot

variable {keys : List (Key w)} {maxError : Nat} {bucket : Key w → Nat} {s : RadixSpline w}
  {rs : RSWrapper w V} {key : Key w} {f l : Nat}

theorem Run.lowerBound_eq (h : Run keys key f l) : lowerBound keys key keys.length = f := by
  have hf := (List.getElem?_eq_some_iff.mp h.first).1
  refine KeyArray.lowerBound_eq hf.le (Nat.le_refl _) h.before fun x _ hx => ?_
  exact le_of_eq (Option.some.inj (h.first.symm.trans hx))

/-- The window of a stored key ends behind its first copy, and starts at or before it exactly when
the last spline point among the copies is not too far behind it. -/
theorem Fitted.getSearchBound_first (h : Fitted keys maxError bucket s) (hmono : Monotone bucket)
    (hsorted : keys.Pairwise (· ≤ ·)) (hwrap : keys.length + maxError + 2 < 2 ^ 64)
    (hrun : Run keys key f l) :
    (s.getSearchBound key).Ensures fun b => f < b.hi ∧
      (b.lo ≤ f ↔ f = 0 ∨ lastSampled keys.length (max 1 maxError) l ≤ f + maxError) := by
  have hf := (List.getElem?_eq_some_iff.mp hrun.first).1
  have hn : s.numKeys ≠ 0 := by
    rw [h.numKeys_eq]
    omega
  rw [RadixSpline.getSearchBound, if_neg (not_or.mpr ⟨hn, h.splinePoints_ne_nil⟩)]
  refine Ensures.bind ((h.getEstimatedPosition key).and
    (h.getEstimatedPosition_run hmono hsorted hrun)) ?_
  intro pos hpos
  obtain ⟨hle, hpos⟩ := hpos
  apply Ensures.pure
  rw [h.maxError_eq, h.numKeys_eq] at *
  rw [Nat.mod_eq_of_lt (by omega)]
  cases hpos with
  | smallest h0 =>
      subst h0
      dsimp only
      rw [if_neg (Nat.not_lt_zero maxError)]
      constructor
      · split_ifs <;> omega
      · simp
  | onSpline h0 hfa =>
      dsimp only
      constructor
      · split_ifs <;> omega
      · split_ifs <;> omega
  | between h0 haf h1 h2 =>
      dsimp only
      constructor
      · split_ifs <;> omega
      · split_ifs <;> omega

/-- Searching a window that ends behind the first copy of a key finds that copy exactly when the
window does not start behind it. -/
theorem Run.bisect_iff (h : Run keys key f l) (hsorted : keys.Pairwise (· ≤ ·)) {win : Window}
    (hhi : win.hi ≤ keys.length) (hf : f < win.hi) :
    win.bisect (probe keys key) = f ↔ win.lo ≤ f := by
  constructor
  · intro heq
    exact heq ▸ Window.lo_le_bisect _ win
  · intro hlo
    have hlb := h.lowerBound_eq
    rw [bisect_eq_lowerBound (sortedTo_of_pairwise hsorted) (hlb.symm ▸ hlo)
      (hlb.symm ▸ hf.le) hhi, hlb]

theorem NoPrefetch.slot_returns {win : Key w → Window} (h : rs.Ready win) (key : Key w) :
    (NoPrefetch.slot rs key).Returns ((win key).bisect (probe rs.keys key)) := by
  refine (h.getSearchBound key).bind ?_
  rw [Nat.min_eq_left (h.hi_le key), Nat.min_eq_left ((h.ordered key).trans (h.hi_le key))]
  exact search_returns (h.hi_le key)

/-- The pair in the first slot with a key is the first pair with that key. -/
theorem Run.find? {values : List V} {v : V} (h : Run keys key f l) (hv : values[f]? = some v) :
    ((keys.zip values).find? fun e => e.1 == key) = some (key, v) := by
  obtain ⟨hf, hkey⟩ := List.getElem?_eq_some_iff.mp h.first
  obtain ⟨hfv, hval⟩ := List.getElem?_eq_some_iff.mp hv
  refine List.find?_eq_some_iff_getElem.mpr ⟨beq_self_eq_true key, f, ?_, ?_, fun j hj => ?_⟩
  · rw [List.length_zip]
    exact Nat.lt_min.mpr ⟨hf, hfv⟩
  · rw [List.getElem_zip, hkey, hval]
  · rw [List.getElem_zip, Bool.not_eq_true', beq_eq_false_iff_ne]
    exact (h.before j _ hj (List.getElem?_eq_getElem (hj.trans hf))).ne

end Slot

/-! ## The first copy -/

section Build

variable {numRadixBits maxError : Nat} {keys : List (Key w)} {values : List V}

/-- A wrapper over some keys finds the first copy of a key exactly when its window does not start
behind it. -/
theorem RSWrapper.findsFirst_iff {rs : RSWrapper w V} {win : Key w → Window} {q : Key w}
    {f l : Nat} (h : rs.Ready win) (hsorted : rs.keys.Pairwise (· ≤ ·))
    (hrun : Run rs.keys q f l) (hf : f < (win q).hi)
    (hfirst : ((rs.keys.zip rs.values).find? fun e => e.1 == q) =
      (keys.zip values).find? fun e => e.1 == q) :
    rs.FindsFirst keys values q ↔ (win q).lo ≤ f := by
  have hiff := hrun.bisect_iff hsorted (h.hi_le q) hf
  rw [← hiff]
  constructor
  · intro hfinds
    rw [(NoPrefetch.slot_returns h q).det hfinds.slot, hrun.lowerBound_eq]
  · intro hslot
    obtain ⟨v, hv⟩ := exists_getElem? rs.values (i := f) (by
      rw [← h.paired]
      exact (List.getElem?_eq_some_iff.mp hrun.first).1)
    refine ⟨?_, fun queries results dflt i hi => ?_⟩
    · rw [hrun.lowerBound_eq, ← hslot]
      exact NoPrefetch.slot_returns h q
    · have hanswer : rs.answer win q = some v := by
        rw [RSWrapper.answer, hslot, Columns.valueAt, if_pos hrun.first, hv]
      refine ⟨_, v, NoPrefetch.batchLookup_returns h, ?_, ?_, ?_⟩
      · rw [found_lookupAll hi, hanswer]
        rfl
      · rw [← hfirst]
        exact hrun.find? hv
      · rw [results_lookupAll hi, hanswer]
        rfl

/-- What `build` makes of some keys finds the first copy of a key exactly when the last spline
point among its copies is not too far behind. -/
theorem RSWrapper.build_findsFirst (hbits : numRadixBits < 64) (hw : numRadixBits ≤ w)
    (hlen : keys.length = values.length) (hkeys : keys ≠ [])
    (hwrap : keys.length + maxError + 2 < 2 ^ 64) :
    (RSWrapper.build numRadixBits maxError keys values).Ensures fun rs => ∀ q ∈ keys,
      rs.FindsFirst keys values q ↔ keys.countP (fun x => decide (x < q)) = 0 ∨
        lastSampled keys.length (max 1 maxError) (keys.countP (fun x => decide (x ≤ q)) - 1) ≤
          keys.countP (fun x => decide (x < q)) + maxError := by
  refine (RSWrapper.build_ensures hbits hw hlen hkeys).mono fun rs ⟨hcols, bucket, hmono, hindex⟩
    q hq => ?_
  have hperm := sortByKey_keys_perm hlen
  have hsorted := sortByKey_sorted hlen
  have hfirst := sortByKey_find? hlen q
  obtain ⟨win, hready⟩ := RSWrapper.ready_of_fitted (hcols ▸ sortByKey_paired hlen) hindex
  rw [← hcols] at hperm hsorted hfirst
  rw [← hperm.countP_eq, ← hperm.countP_eq, ← hperm.length_eq]
  rw [← hperm.length_eq] at hwrap
  have hrun := run_of_mem hsorted (hperm.mem_iff.mpr hq)
  obtain ⟨hf, hiff⟩ := (hindex.getSearchBound_first hmono hsorted hwrap hrun).of_returns
    (hready.getSearchBound q)
  exact (RSWrapper.findsFirst_iff hready hsorted hrun hf hfirst).trans hiff

end Build

/-- A lookup finds the first copy of a stored key if and only if the key is the smallest, or the
last spline point among its copies is at most `max_error` behind the first copy.  The copies are
behind the keys below the sought one, and there are spline points at the multiples of
`max(1, max_error)` and at the last key. -/
theorem build_first_iff {numRadixBits maxError : Nat} (hbits : numRadixBits < 64)
    (hw : numRadixBits ≤ w) {keys : List (Key w)} {values : List V}
    (hlen : keys.length = values.length) (hwrap : keys.length + maxError + 2 < 2 ^ 64) :
    ∃ rs, (RSWrapper.build numRadixBits maxError keys values).Returns rs ∧ ∀ q ∈ keys,
      rs.FindsFirst keys values q ↔ keys.countP (fun x => decide (x < q)) = 0 ∨
        lastSampled keys.length (max 1 maxError) (keys.countP (fun x => decide (x ≤ q)) - 1) ≤
          keys.countP (fun x => decide (x < q)) + maxError := by
  by_cases hkeys : keys = []
  · subst hkeys
    obtain rfl := List.length_eq_zero_iff.mp hlen.symm
    exact ⟨_, RSWrapper.build_nil, fun q hq => by cases hq⟩
  · exact RSWrapper.build_findsFirst hbits hw hlen hkeys hwrap

theorem build_first_iff_unsorted :
    ∃ rs, (RSWrapper.build 2 1 ([3, 1, 3] : List (Key 8)) [30, 10, 31]).Returns rs ∧
      ∀ q ∈ ([3, 1, 3] : List (Key 8)), rs.FindsFirst [3, 1, 3] [30, 10, 31] q ↔
        ([3, 1, 3] : List (Key 8)).countP (fun x => decide (x < q)) = 0 ∨
          lastSampled 3 (max 1 1)
              (([3, 1, 3] : List (Key 8)).countP (fun x => decide (x ≤ q)) - 1) ≤
            ([3, 1, 3] : List (Key 8)).countP (fun x => decide (x < q)) + 1 :=
  build_first_iff (by decide) (by decide) rfl (by decide)

/-- Seventy copies of a key between two others, with the default parameters: the lookup finds copy
number 32. -/
theorem build_misses_first :
    ∃ rs, (RSWrapper.build 18 32 (1 :: List.replicate 70 2 ++ [3] : List (Key 64))
      (List.range 72)).Returns rs ∧
        ¬ rs.FindsFirst (1 :: List.replicate 70 2 ++ [3]) (List.range 72) 2 := by
  obtain ⟨rs, hrs, hiff⟩ := @RSWrapper.build_findsFirst 64 Nat 18 32
    (1 :: List.replicate 70 2 ++ [3]) (List.range 72) (by decide) (by decide) (by decide)
    (by decide) (by decide)
  refine ⟨rs, hrs, fun hfinds => ?_⟩
  have hcond := (hiff 2 (by decide +kernel)).mp hfinds
  exact absurd hcond (by decide +kernel)

end RS
