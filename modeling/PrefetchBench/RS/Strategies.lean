import PrefetchBench.RS.Window
import PrefetchBench.Windowed.Interleaved

/-!
# The RadixSpline strategies

The five strategies over an `RSWrapper`.  All of them look in the window of `GetSearchBound`, cut
off at the number of keys.  `NoPrefetch` and `GroupPrefetch` search it until it is empty, the
others take the number of rounds that `calc_steps` gives for the widest window.

They agree on every wrapper that `build` returns (`strategies_agree`), and what they return is
right: a query is found if and only if it is one of the keys, with a value that the input pairs
with it (`build_lookup`).
-/

namespace RS

open Prog KeyArray Windowed Batch

variable {w : Nat} {V : Type}

/-! ## The strategies -/

/-- The window of a key in the arrays: `lo` and `hi` of the search bound, cut off at the number of
keys, and `if (lo > hi) lo = hi;` -/
def RSWrapper.window (rs : RSWrapper w V) (key : Key w) : Prog Window := do
  let bound ← rs.index.getSearchBound key
  let lo := min bound.lo rs.keys.length
  let hi := min bound.hi rs.keys.length
  pure ⟨if hi < lo then hi else lo, hi⟩

/-- `NoPrefetch::batch_lookup`, which does without the last correction of the window. -/
def NoPrefetch.batchLookup (rs : RSWrapper w V) (queries : List (Key w)) (results : List V)
    (dflt : V) : Prog (Out V) :=
  serialLookup (fun key => do
    let bound ← rs.index.getSearchBound key
    pure ⟨min bound.lo rs.keys.length, min bound.hi rs.keys.length⟩) rs.toColumns queries results
    dflt

/-- `GroupPrefetch::batch_lookup` -/
def GroupPrefetch.batchLookup (N : Nat) (rs : RSWrapper w V) (queries : List (Key w))
    (results : List V) (dflt : V) : Prog (Out V) :=
  onData rs.toColumns queries results dflt
    (groupLoop N (windowsOf rs.window queries) converge guardedRound rs.toColumns queries)

/-- `calc_steps(2 * error + 2)` -/
def RSWrapper.steps (rs : RSWrapper w V) : Prog Nat :=
  calcSteps ((2 * rs.index.maxError + 2) % 2 ^ 64)

/-- `StaticSPP::batch_lookup` -/
def StaticSPP.batchLookup (N : Nat) (rs : RSWrapper w V) (queries : List (Key w))
    (results : List V) (dflt : V) : Prog (Out V) :=
  onData rs.toColumns queries results dflt fun out => do
    let H ← rs.steps
    if H = 0 then pure out else do
      let st ← staticSPP N H rs.window rs.toColumns queries out
      pure st.out

/-- `VectorizedSearch::batch_lookup` -/
def VectorizedSearch.batchLookup (N : Nat) (rs : RSWrapper w V) (queries : List (Key w))
    (results : List V) (dflt : V) : Prog (Out V) :=
  onData rs.toColumns queries results dflt fun out => do
    let steps ← rs.steps
    groupLoop N (windowsOf rs.window queries) (fixedRounds steps) branchlessRound rs.toColumns
      queries out

/-- `RANGE_SEARCH` is a single step. -/
def RSWrapper.rangeSearch (rs : RSWrapper w V) : RangeSearch (Key w) Unit where
  start := ⟨⟩
  step _ key := do
    let window ← rs.window key
    pure (.inr window)

/-- `AMACSearch::batch_lookup` -/
def AMACSearch.batchLookup (N : Nat) (rs : RSWrapper w V) (queries : List (Key w))
    (results : List V) (dflt : V) : Prog (Out V) :=
  onData rs.toColumns queries results dflt fun out => do
    let steps ← rs.steps
    let st ← amacSearch N rs.rangeSearch ⟨.done, 0, 1, 0, 0, ⟨⟩⟩
      (fun _ i => ⟨.init, i, 1, 0, 0, ⟨⟩⟩) steps rs.toColumns queries out
    pure st.out

/-! ## Wrappers that are ready -/

/-- What the strategies rely on. -/
structure RSWrapper.Ready (rs : RSWrapper w V) (win : Key w → Window) : Prop where
  /-- Every key has a value. -/
  paired : rs.keys.length = rs.values.length
  /-- Every query has a window. -/
  getSearchBound : ∀ key, (rs.index.getSearchBound key).Returns (win key)
  /-- It is not reversed. -/
  ordered : ∀ key, (win key).lo ≤ (win key).hi
  /-- It is within the keys. -/
  hi_le : ∀ key, (win key).hi ≤ rs.keys.length
  /-- It is not too wide. -/
  width_le : ∀ key, (win key).width ≤ 2 * rs.index.maxError + 2

/-- What all strategies return. -/
def RSWrapper.answer (rs : RSWrapper w V) (win : Key w → Window) (q : Key w) : Option V :=
  rs.valueAt ((win q).bisect (probe rs.keys q)) q

section Ready

variable {rs : RSWrapper w V} {win : Key w → Window} {queries : List (Key w)} {results : List V}
  {dflt : V} {N : Nat}

theorem RSWrapper.Ready.window (h : rs.Ready win) (key : Key w) :
    (rs.window key).Returns (win key) := by
  have hle := h.ordered key
  have hhi := h.hi_le key
  refine (h.getSearchBound key).bind ?_
  simp only [Nat.min_eq_left hhi, Nat.min_eq_left (hle.trans hhi), if_neg (not_lt.mpr hle)]
  exact returns_pure.mpr rfl

theorem RSWrapper.Ready.steps (h : rs.index.maxError < 2 ^ 62 - 1) :
    rs.steps.Returns (2 * rs.index.maxError + 2).size := by
  rw [RSWrapper.steps, Nat.mod_eq_of_lt (by omega)]
  exact calcSteps_returns (by omega)

/-- As many rounds as `calc_steps` gives end where the search of the window ends. -/
theorem RSWrapper.Ready.fixed (h : rs.Ready win) (queries : List (Key w)) (results : List V)
    (dflt : V) :
    lookupAll (fun q => rs.valueAt
      ((Window.halve (probe rs.keys q))^[(2 * rs.index.maxError + 2).size] (win q)).lo q) queries
      results dflt = lookupAll (rs.answer win) queries results dflt := by
  refine lookupAll_congr fun q _ => ?_
  rw [iterate_size (h.width_le q), RSWrapper.answer]

theorem NoPrefetch.batchLookup_returns (h : rs.Ready win) :
    (NoPrefetch.batchLookup rs queries results dflt).Returns
      (lookupAll (rs.answer win) queries results dflt) := by
  refine serialLookup_returns h.paired fun q _ => ⟨?_, h.hi_le q⟩
  refine (h.getSearchBound q).bind ?_
  rw [Nat.min_eq_left (h.hi_le q), Nat.min_eq_left ((h.ordered q).trans (h.hi_le q))]
  exact returns_pure.mpr rfl

theorem GroupPrefetch.batchLookup_returns (h : rs.Ready win) (hN : 1 ≤ N) :
    (GroupPrefetch.batchLookup N rs queries results dflt).Returns
      (lookupAll (rs.answer win) queries results dflt) :=
  onData_returns fun _ _ => groupLoop_converge h.paired hN guardedRound_halves
    (fun q _ => h.hi_le q) fun _ _ hsize => windowsOf_ensures hsize fun q _ => h.window q

theorem StaticSPP.batchLookup_returns (h : rs.Ready win)
    (hE : rs.index.maxError < 2 ^ 62 - 1) (hN : 1 ≤ N) :
    (StaticSPP.batchLookup N rs queries results dflt).Returns
      (lookupAll (rs.answer win) queries results dflt) := by
  refine onData_returns fun _ _ => (RSWrapper.Ready.steps hE).bind ?_
  have hH : 0 < (2 * rs.index.maxError + 2).size := Nat.size_pos.mpr (Nat.succ_pos _)
  rw [if_neg hH.ne']
  obtain ⟨st, hst, hout, _⟩ := staticSPP_ensures h.paired hN
    (fun q _ => ⟨h.window q, h.hi_le q⟩) (fun q _ => h.ordered q)
  exact hst.bind (returns_pure.mpr (hout.trans (h.fixed queries results dflt)))

theorem VectorizedSearch.batchLookup_returns (h : rs.Ready win)
    (hE : rs.index.maxError < 2 ^ 62 - 1) (hN : 1 ≤ N) :
    (VectorizedSearch.batchLookup N rs queries results dflt).Returns
      (lookupAll (rs.answer win) queries results dflt) := by
  refine onData_returns fun _ _ => (RSWrapper.Ready.steps hE).bind ?_
  exact h.fixed queries results dflt ▸
    groupLoop_fixed h.paired hN branchlessRound_halves (fun q _ => h.hi_le q)
      (fun _ _ hsize => windowsOf_ensures hsize fun q _ => h.window q) _

theorem AMACSearch.batchLookup_returns (h : rs.Ready win)
    (hE : rs.index.maxError < 2 ^ 62 - 1) (hN : 1 ≤ N) :
    (AMACSearch.batchLookup N rs queries results dflt).Returns
      (lookupAll (rs.answer win) queries results dflt) := by
  refine onData_returns fun _ _ => (RSWrapper.Ready.steps hE).bind ?_
  have hrs : rs.rangeSearch.Sound queries win (fun _ _ _ => True) 0 :=
    ⟨fun _ _ => trivial, fun key _ _ _ _ => (h.window key).seq (Ensures.pure rfl)⟩
  obtain ⟨st, hst, hout, _⟩ := amacSearch_ensures ⟨.done, 0, 1, 0, 0, ⟨⟩⟩
    (fun _ i => ⟨.init, i, 1, 0, 0, ⟨⟩⟩) h.paired hN hrs rfl (fun _ _ => ⟨rfl, rfl⟩)
    fun q _ => h.hi_le q
  exact hst.bind (returns_pure.mpr (hout.trans (h.fixed queries results dflt)))

/-- All strategies return the same on a wrapper that is ready. -/
theorem RSWrapper.Ready.agree (h : rs.Ready win) (hE : rs.index.maxError < 2 ^ 62 - 1)
    (hN : 1 ≤ N) (queries : List (Key w)) (results : List V) (dflt : V) :
    (NoPrefetch.batchLookup rs queries results dflt).Returns
        (lookupAll (rs.answer win) queries results dflt) ∧
      (GroupPrefetch.batchLookup N rs queries results dflt).Returns
        (lookupAll (rs.answer win) queries results dflt) ∧
      (StaticSPP.batchLookup N rs queries results dflt).Returns
        (lookupAll (rs.answer win) queries results dflt) ∧
      (VectorizedSearch.batchLookup N rs queries results dflt).Returns
        (lookupAll (rs.answer win) queries results dflt) ∧
      (AMACSearch.batchLookup N rs queries results dflt).Returns
        (lookupAll (rs.answer win) queries results dflt) :=
  ⟨NoPrefetch.batchLookup_returns h, GroupPrefetch.batchLookup_returns h hN,
    StaticSPP.batchLookup_returns h hE hN, VectorizedSearch.batchLookup_returns h hE hN,
    AMACSearch.batchLookup_returns h hE hN⟩

end Ready

/-! ## Wrappers that are built -/

section Build

variable {numRadixBits maxError : Nat} {keys : List (Key w)} {values : List V}
  {rs : RSWrapper w V}

theorem RSWrapper.length_eq_of_build
    (h : (RSWrapper.build numRadixBits maxError keys values).Returns rs) :
    keys.length = values.length := by
  by_contra hc
  rw [RSWrapper.build, dif_neg hc] at h
  obtain ⟨_, hn⟩ := h
  cases hn

theorem RSWrapper.build_nil :
    (RSWrapper.build numRadixBits maxError ([] : List (Key w)) ([] : List V)).Returns
      ⟨⟨[], []⟩, RadixSpline.empty⟩ := by
  rw [RSWrapper.build]
  simp only [if_true]
  exact returns_pure.mpr rfl

/-- A wrapper over some keys is ready, with windows that fit its index. -/
theorem RSWrapper.ready_of_fitted {bucket : Key w → Nat}
    (hpaired : rs.keys.length = rs.values.length)
    (hindex : Fitted rs.keys maxError bucket rs.index) : ∃ win, rs.Ready win := by
  have hbound := fun key => hindex.getSearchBound key
  rw [← hindex.maxError_eq] at hbound
  choose win hwin hprops using hbound
  exact ⟨win, hpaired, hwin, fun key => (hprops key).1, fun key => (hprops key).2.1,
    fun key => (hprops key).2.2⟩

theorem sortByKey_ne_nil (h : keys.length = values.length) (hkeys : keys ≠ []) :
    (sortByKey keys values h).keys ≠ [] := fun hc =>
  hkeys (List.perm_nil.mp (hc ▸ (sortByKey_keys_perm h).symm))

/-- Every wrapper that `build` returns is ready. -/
theorem RSWrapper.build_ready
    (h : (RSWrapper.build numRadixBits maxError keys values).Returns rs) :
    rs.index.maxError ≤ maxError ∧ ∃ win, rs.Ready win := by
  have hlen := RSWrapper.length_eq_of_build h
  by_cases hkeys : keys = []
  · subst hkeys
    obtain rfl := List.length_eq_zero_iff.mp hlen.symm
    cases h.det RSWrapper.build_nil
    exact ⟨Nat.zero_le _, fun _ => ⟨0, 0⟩, rfl, getSearchBound_empty, fun _ => Nat.le_refl _,
      fun _ => Nat.le_refl _, fun _ => Nat.zero_le _⟩
  · obtain ⟨hbits, index, hindex, rfl⟩ := (RSWrapper.build_iff hlen hkeys).mp h
    have hne := sortByKey_ne_nil hlen hkeys
    have hlast := getElem?_getLastD (List.length_pos_iff.mpr hne)
    have hle := headD_le_getLastD (sortByKey_sorted hlen) _ (List.mem_of_getElem? hlast)
    obtain ⟨bucket, hfitted⟩ := Builder.finalize_fitted hindex hne hbits hle.1
    exact ⟨hfitted.maxError_eq.le, ready_of_fitted (sortByKey_paired hlen) hfitted⟩

/-- With no more prefix bits than a key has, `build` returns, and the prefixes are monotone. -/
theorem RSWrapper.build_ensures (hbits : numRadixBits < 64) (hw : numRadixBits ≤ w)
    (h : keys.length = values.length) (hkeys : keys ≠ []) :
    (RSWrapper.build numRadixBits maxError keys values).Ensures fun rs =>
      rs.toColumns = sortByKey keys values h ∧
        ∃ bucket, Monotone bucket ∧ Fitted rs.keys maxError bucket rs.index := by
  have hne := sortByKey_ne_nil h hkeys
  have hlast := getElem?_getLastD (List.length_pos_iff.mpr hne)
  have hle := headD_le_getLastD (sortByKey_sorted h) _ (List.mem_of_getElem? hlast)
  obtain ⟨index, hindex, hfitted⟩ := Builder.finalize_ensures
    (b := sortedBuilder numRadixBits maxError (sortByKey keys values h).keys) hne hbits
    (fun _ _ key _ => getPrefix_returns hw hle.1 key) fun key => bucketOf_lt _ _ _ key
  exact ⟨_, (RSWrapper.build_iff h hkeys).mpr ⟨hbits, index, hindex, rfl⟩, rfl, _,
    bucketOf_mono _ _ _, hfitted⟩

/-- The answers of a built wrapper: a value is stored with the query, and there is one if the
query is stored. -/
theorem RSWrapper.answer_spec {bucket : Key w → Nat} {win : Key w → Window} (h : rs.Ready win)
    (hsorted : rs.keys.Pairwise (· ≤ ·)) (hmono : Monotone bucket)
    (hindex : Fitted rs.keys maxError bucket rs.index)
    (hwrap : rs.keys.length + maxError + 2 < 2 ^ 64) (q : Key w) :
    (∀ v, rs.answer win q = some v → (q, v) ∈ rs.keys.zip rs.values) ∧
      (q ∈ rs.keys → (rs.answer win q).isSome = true) := by
  refine ⟨fun v hv => Columns.mem_of_valueAt hv, fun hmem => ?_⟩
  obtain ⟨j, hj, hlo, hhi⟩ :=
    (hindex.getSearchBound_hits hmono hsorted hwrap hmem).of_returns (h.getSearchBound q)
  have hslot := Columns.bisect_hits hsorted (h.hi_le q) hj hlo hhi
  have hlt := (List.getElem?_eq_some_iff.mp hslot).1
  rw [RSWrapper.answer, Columns.valueAt, if_pos hslot,
    List.getElem?_eq_getElem (by rw [← h.paired]; exact hlt)]
  rfl

end Build

/-- The five strategies agree on every wrapper that `build` returns, and leave the result of a
query that is not found as it was. -/
theorem strategies_agree {numRadixBits maxError : Nat} (hE : 2 * maxError + 2 < 2 ^ 63)
    {keys : List (Key w)} {values : List V} {rs : RSWrapper w V}
    (h : (RSWrapper.build numRadixBits maxError keys values).Returns rs) {N : Nat} (hN : 1 ≤ N)
    (queries : List (Key w)) (results : List V) (dflt : V) :
    ∃ out, (NoPrefetch.batchLookup rs queries results dflt).Returns out ∧
      (GroupPrefetch.batchLookup N rs queries results dflt).Returns out ∧
      (StaticSPP.batchLookup N rs queries results dflt).Returns out ∧
      (VectorizedSearch.batchLookup N rs queries results dflt).Returns out ∧
      (AMACSearch.batchLookup N rs queries results dflt).Returns out ∧
      ∀ i, i < queries.length → out.found[i]? = some false →
        out.results[i]? = some (results[i]?.getD dflt) := by
  obtain ⟨hle, win, hready⟩ := RSWrapper.build_ready h
  obtain ⟨h1, h2, h3, h4, h5⟩ := hready.agree (by omega) hN queries results dflt
  refine ⟨_, h1, h2, h3, h4, h5, fun i hi hfalse => ?_⟩
  have hq := List.getElem?_eq_getElem hi
  rw [found_lookupAll hq] at hfalse
  rw [results_lookupAll hq]
  cases hans : rs.answer win queries[i] with
  | none => rfl
  | some v =>
      rw [hans] at hfalse
      cases hfalse

theorem strategies_agree_unsorted :
    ∃ rs, (RSWrapper.build 2 1 ([3, 1, 3] : List (Key 8)) [30, 10, 31]).Returns rs ∧
      ∃ out, (NoPrefetch.batchLookup rs [3, 4] [7] 0).Returns out ∧
        (GroupPrefetch.batchLookup 2 rs [3, 4] [7] 0).Returns out ∧
        (StaticSPP.batchLookup 2 rs [3, 4] [7] 0).Returns out ∧
        (VectorizedSearch.batchLookup 2 rs [3, 4] [7] 0).Returns out ∧
        (AMACSearch.batchLookup 2 rs [3, 4] [7] 0).Returns out ∧
        ∀ i, i < [3, 4].length → out.found[i]? = some false →
          out.results[i]? = some ([7][i]?.getD 0) := by
  obtain ⟨rs, hrs, _⟩ := @RSWrapper.build_ensures 8 Nat 2 1 [3, 1, 3] [30, 10, 31] (by decide)
    (by decide) rfl (by decide)
  exact ⟨rs, hrs, strategies_agree (by decide) hrs (by decide) [3, 4] [7] 0⟩

/-- What a lookup has to return: whether the query is one of the keys, and then a value that the
input has for it. -/
structure Finds (keys : List (Key w)) (values : List V) (queries : List (Key w)) (out : Out V) :
    Prop where
  /-- One flag for each query. -/
  length_found : out.found.length = queries.length
  /-- One value for each query. -/
  length_results : out.results.length = queries.length
  /-- The flags. -/
  found : ∀ (i : Nat) (q : Key w), queries[i]? = some q → out.found[i]? = some (decide (q ∈ keys))
  /-- The values. -/
  results : ∀ (i : Nat) (q : Key w), queries[i]? = some q → q ∈ keys →
    ∃ v, (q, v) ∈ keys.zip values ∧ out.results[i]? = some v

/-- RadixSpline end to end: `build` returns on every input, in any order, and every lookup in what
it returns finds exactly the keys of the input, with their values.  A vector has fewer than `2^63`
elements. -/
theorem build_lookup {numRadixBits maxError : Nat} (hbits : numRadixBits < 64)
    (hw : numRadixBits ≤ w) (hE : 2 * maxError + 2 < 2 ^ 63) {keys : List (Key w)}
    {values : List V} (hlen : keys.length = values.length) (hn : keys.length < 2 ^ 63) :
    ∃ rs, (RSWrapper.build numRadixBits maxError keys values).Returns rs ∧
      ∀ queries results dflt, ∃ out,
        (NoPrefetch.batchLookup rs queries results dflt).Returns out ∧
          Finds keys values queries out := by
  obtain ⟨rs, win, hrs, hready, hsome, hmiss⟩ : ∃ rs win,
      (RSWrapper.build numRadixBits maxError keys values).Returns rs ∧ rs.Ready win ∧
        (∀ q v, rs.answer win q = some v → (q, v) ∈ keys.zip values) ∧
          ∀ q, q ∈ keys → (rs.answer win q).isSome = true := by
    by_cases hkeys : keys = []
    · subst hkeys
      obtain rfl := List.length_eq_zero_iff.mp hlen.symm
      have hnil := @RSWrapper.build_nil w V numRadixBits maxError
      obtain ⟨_, win, hready⟩ := RSWrapper.build_ready hnil
      refine ⟨_, win, hnil, hready, fun q v hv => ?_, fun q hq => by cases hq⟩
      exact Columns.mem_of_valueAt hv
    · obtain ⟨rs, hrs, hcols, bucket, hmono, hindex⟩ :=
        RSWrapper.build_ensures hbits hw hlen hkeys
      have hperm := sortByKey_perm hlen
      have hkperm := sortByKey_keys_perm hlen
      have hsorted := sortByKey_sorted hlen
      obtain ⟨win, hready⟩ := RSWrapper.ready_of_fitted (hcols ▸ sortByKey_paired hlen) hindex
      rw [← hcols] at hperm hkperm hsorted
      have hwrap : rs.keys.length + maxError + 2 < 2 ^ 64 := by
        rw [hkperm.length_eq]
        omega
      have hspec := RSWrapper.answer_spec hready hsorted hmono hindex hwrap
      exact ⟨rs, win, hrs, hready, fun q v hv => hperm.mem_iff.mp ((hspec q).1 v hv),
        fun q hq => (hspec q).2 (hkperm.mem_iff.mpr hq)⟩
  refine ⟨rs, hrs, fun queries results dflt => ⟨_, NoPrefetch.batchLookup_returns hready,
    length_found_lookupAll, length_results_lookupAll, fun i q hq => ?_, fun i q hq hmem => ?_⟩⟩
  · rw [found_lookupAll hq]
    congr 1
    rw [Bool.eq_iff_iff, decide_eq_true_iff]
    refine ⟨fun h => ?_, hmiss q⟩
    obtain ⟨v, hv⟩ := Option.isSome_iff_exists.mp h
    exact (List.of_mem_zip (hsome q v hv)).1
  · obtain ⟨v, hv⟩ := Option.isSome_iff_exists.mp (hmiss q hmem)
    exact ⟨v, hsome q v hv, by rw [results_lookupAll hq, hv, Option.getD_some]⟩

theorem build_lookup_unsorted :
    ∃ rs, (RSWrapper.build 2 1 ([3, 1, 3] : List (Key 8)) [30, 10, 31]).Returns rs ∧
      ∀ queries results dflt, ∃ out,
        (NoPrefetch.batchLookup rs queries results dflt).Returns out ∧
          Finds [3, 1, 3] [30, 10, 31] queries out :=
  build_lookup (by decide) (by decide) (by decide) rfl (by decide)

end RS
