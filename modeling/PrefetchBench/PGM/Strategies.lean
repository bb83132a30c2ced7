import PrefetchBench.PGM.Levels
import PrefetchBench.Windowed.Interleaved

/-!
# The PGM strategies

The five strategies over a `PGMWrapper`.  `NoPrefetch`, `StaticSPP` and `VectorizedSearch` take the
window from `search` of the library.  `GroupPrefetch` and `AMACSearch` go down the levels on their
own, with an `upper_bound` on each level, and take the window around the prediction of the segment
they end at.  All of them but `NoPrefetch` halve the window a fixed number of times.

The three that use `search` return the same on every loaded wrapper (`searching_agree`), unless
`Epsilon` is so large that the number of rounds is computed from a sum that wraps
(`staticSPP_misses`).
-/

namespace PGM

open Prog KeyArray Ranges Windowed Batch

variable {S V : Type}

/-! ## The strategies -/

/-- The window around a position: `lo = (pos < EPS) ? 0 : pos - EPS` and
`hi = min(pos + EPS + 2, data_size)`. -/
def windowAround (epsilon dataSize pos : Nat) : Window :=
  ⟨if pos < epsilon then 0 else pos - epsilon, min ((pos + epsilon + 2) % 2 ^ 64) dataSize⟩

/-- The range of `search`, cut off at the number of keys. -/
def PGMWrapper.window (f : Floating S) (epsilon : Nat) (pgm : PGMWrapper S V) (key : Key) :
    Prog Window := do
  let range ← pgm.index.search f epsilon key
  pure ⟨range.lo, min range.hi pgm.keys.length⟩

/-- The window around the position of `search`. -/
def PGMWrapper.posWindow (f : Floating S) (epsilon : Nat) (pgm : PGMWrapper S V) (key : Key) :
    Prog Window := do
  let range ← pgm.index.search f epsilon key
  pure (windowAround epsilon pgm.keys.length range.pos)

/-- The prediction of the segment that `upper_bound` finds on a level: the one before, or the first
of the level. -/
def PGMIndex.positionOnLevel (f : Floating S) (idx : PGMIndex S) (l : Nat) (key : Key) :
    Prog Nat := do
  let levelStart ← read idx.levelsOffsets l
  let levelEnd ← read idx.levelsOffsets (l + 1)
  let it ← upperBound (fun s => decide (key < s.key)) idx.segments levelStart levelEnd
  let segment ← read idx.segments (if it = levelStart then it else it - 1)
  pure (segment.position f key)

/-- `calc_steps(2 * EPS + 2)` -/
def bsearchSteps (epsilon : Nat) : Prog Nat := calcSteps ((2 * epsilon + 2) % 2 ^ 64)

/-- `NoPrefetch::batch_lookup` -/
def NoPrefetch.batchLookup (f : Floating S) (epsilon : Nat) (pgm : PGMWrapper S V)
    (queries : List Key) (results : List V) (dflt : V) : Prog (Out V) :=
  serialLookup (pgm.window f epsilon) pgm.toColumns queries results dflt

/-- `StaticSPP::batch_lookup` -/
def StaticSPP.batchLookup (N : Nat) (f : Floating S) (epsilon : Nat) (pgm : PGMWrapper S V)
    (queries : List Key) (results : List V) (dflt : V) : Prog (Out V) :=
  onData pgm.toColumns queries results dflt fun out => do
    let H ← bsearchSteps epsilon
    if H = 0 then pure out else do
      let st ← staticSPP N H (pgm.window f epsilon) pgm.toColumns queries out
      pure st.out

/-- `VectorizedSearch::batch_lookup` -/
def VectorizedSearch.batchLookup (N : Nat) (f : Floating S) (epsilon : Nat)
    (pgm : PGMWrapper S V) (queries : List Key) (results : List V) (dflt : V) : Prog (Out V) :=
  onData pgm.toColumns queries results dflt fun out => do
    let steps ← bsearchSteps epsilon
    groupLoop N (windowsOf (pgm.posWindow f epsilon) queries) (fixedRounds steps) branchlessRound
      pgm.toColumns queries out

/-- Phase 1 of `GroupPrefetch`: the levels above the bottom one, from the top.  The positions are
what the prefetches are for. -/
def GroupPrefetch.navigate (f : Floating S) (idx : PGMIndex S) (queries : List Key)
    (start size : Nat) : Prog (List Nat) :=
  forRange (idx.levelsOffsets.length - 2) (fun j => lanes fun i _ => do
    let l := idx.levelsOffsets.length - 2 - j
    let key ← read queries (start + i)
    let approxPos ← idx.positionOnLevel f l key
    let _nextLevelStart ← read idx.levelsOffsets (l - 1)
    pure approxPos) (List.replicate size 0)

/-- `GroupPrefetch::batch_lookup` -/
def GroupPrefetch.batchLookup (N : Nat) (f : Floating S) (epsilon : Nat)
    (pgm : PGMWrapper S V) (queries : List Key) (results : List V) (dflt : V) : Prog (Out V) :=
  onData pgm.toColumns queries results dflt fun out => do
    let steps ← bsearchSteps epsilon
    groupLoop N (fun start size => do
      let _approxPos ← GroupPrefetch.navigate f pgm.index queries start size
      windowsOf (fun key => do
        let pos ← pgm.index.positionOnLevel f 0 key
        pure (windowAround epsilon pgm.keys.length pos)) queries start size)
      (fixedRounds steps) guardedRound pgm.toColumns queries out

/-- The part of `fsm_shared_t` for `INTERNAL_SEARCH`. -/
structure Descent where
  /-- `current_level` -/
  currentLevel : Int
  /-- `approx_pos` -/
  approxPos : Nat

/-- `INTERNAL_SEARCH`: one level each time. -/
def PGMWrapper.internalSearch (f : Floating S) (epsilon : Nat) (pgm : PGMWrapper S V) :
    RangeSearch Key Descent where
  start := ⟨(pgm.index.levelsOffsets.length : Int) - 2, 0⟩
  step r key :=
    if 0 ≤ r.currentLevel then do
      let pos ← pgm.index.positionOnLevel f r.currentLevel.toNat key
      if 0 < r.currentLevel then do
        let _nextLevelStart ← read pgm.index.levelsOffsets (r.currentLevel.toNat - 1)
        pure (.inl ⟨r.currentLevel - 1, pos⟩)
      else pure (.inr (windowAround epsilon pgm.keys.length pos))
    else pure (.inl r)

/-- `AMACSearch::batch_lookup` -/
def AMACSearch.batchLookup (N : Nat) (f : Floating S) (epsilon : Nat)
    (pgm : PGMWrapper S V) (queries : List Key) (results : List V) (dflt : V) : Prog (Out V) :=
  onData pgm.toColumns queries results dflt fun out => do
    let steps ← bsearchSteps epsilon
    let st ← amacSearch N (pgm.internalSearch f epsilon) ⟨.done, 0, 0, 0, 0, ⟨0, 0⟩⟩
      (fun s i => { s with state := .init, i := i }) steps pgm.toColumns queries out
    pure st.out

/-! ## Windows -/

section Windows

variable {f : Floating S} {epsilon n pos : Nat}

theorem windowAround_hi_le : (windowAround epsilon n pos).hi ≤ n := Nat.min_le_right _ _

theorem windowAround_width_le : (windowAround epsilon n pos).width ≤ 2 * epsilon + 2 := by
  have hmod := Nat.mod_le (pos + epsilon + 2) (2 ^ 64)
  have hhi : (windowAround epsilon n pos).hi ≤ pos + epsilon + 2 := (Nat.min_le_left ..).trans hmod
  have hlo : pos ≤ (windowAround epsilon n pos).lo + epsilon := by
    rw [windowAround]
    split <;> simp only <;> omega
  rw [Window.width]
  omega

theorem windowAround_lo_le {r : Nat} (h : pos ≤ r + epsilon) :
    (windowAround epsilon n pos).lo ≤ r := by
  rw [windowAround]
  split <;> simp only <;> omega

theorem lt_windowAround_hi {r : Nat} (hr : r < n) (h : r ≤ pos + epsilon + 1)
    (hwrap : pos + epsilon + 2 < 2 ^ 64) : r < (windowAround epsilon n pos).hi := by
  rw [windowAround, Nat.mod_eq_of_lt hwrap]
  exact lt_min (by omega) hr

theorem windowAround_ordered (h : pos ≤ n + epsilon) (hpos : pos < 2 ^ 32) :
    (windowAround epsilon n pos).lo ≤ (windowAround epsilon n pos).hi := by
  rcases Nat.lt_or_ge pos epsilon with hlt | hge
  · rw [windowAround, if_pos hlt]
    exact Nat.zero_le _
  · -- the sum does not wrap
    have hhi : (windowAround epsilon n pos).hi = min (pos + epsilon + 2) n := by
      rw [windowAround, Nat.mod_eq_of_lt (by omega)]
    have hlo : (windowAround epsilon n pos).lo = pos - epsilon := if_neg (not_lt.mpr hge)
    rw [hhi, hlo]
    exact le_min (by omega) (by omega)

/-- The range of `search` is the window around its position. -/
theorem range_eq_windowAround (epsilon n pos : Nat) :
    (⟨subEps pos epsilon, min (addEps pos epsilon n) n⟩ : Window) =
      windowAround epsilon n pos := by
  rw [windowAround, subEps, addEps]
  congr 1
  · split <;> split <;> omega
  · split <;> omega

/-- `search` gives the clamped prediction of a segment, a position that fits 32 bits. -/
theorem PGMIndex.search_inv {idx : PGMIndex S} {key : Key} {range : ApproxPos}
    (h : (idx.search f epsilon key).Returns range) :
    range.pos < 2 ^ 32 ∧ range.lo = subEps range.pos epsilon ∧
      range.hi = addEps range.pos epsilon idx.n := by
  obtain ⟨it, _, h⟩ := returns_bind.mp h
  obtain ⟨pos, hpos, h⟩ := returns_bind.mp h
  obtain rfl := returns_pure.mp h
  obtain ⟨segment, _, hpos⟩ := returns_bind.mp hpos
  obtain ⟨next, _, hpos⟩ := returns_bind.mp hpos
  obtain rfl := returns_pure.mp hpos
  exact ⟨(Nat.min_le_right _ _).trans_lt next.intercept.isLt, rfl, rfl⟩

/-- The window of a key is the one around the position of `search`. -/
theorem PGMWrapper.window_returns {pgm : PGMWrapper S V} {key : Key} {range : ApproxPos}
    (hn : pgm.index.n = pgm.keys.length) (h : (pgm.index.search f epsilon key).Returns range) :
    (pgm.window f epsilon key).Returns (windowAround epsilon pgm.keys.length range.pos) := by
  obtain ⟨_, hlo, hhi⟩ := PGMIndex.search_inv h
  refine h.bind (returns_pure.mpr ?_)
  rw [hlo, hhi, hn]
  exact range_eq_windowAround ..

theorem bsearchSteps_returns (h : 2 * epsilon + 2 < 2 ^ 63) :
    (bsearchSteps epsilon).Returns (2 * epsilon + 2).size := by
  rw [bsearchSteps, Nat.mod_eq_of_lt (by omega)]
  exact calcSteps_returns h

end Windows

/-! ## The strategies over `search` -/

section Searching

variable {f : Floating S} {epsilon N : Nat} {pgm : PGMWrapper S V} {queries : List Key}
  {results : List V} {dflt : V} {pos : Key → Nat}

/-- `search` finds a position for every query, at most `epsilon` behind the last key. -/
structure PGMWrapper.Searchable (f : Floating S) (epsilon : Nat) (pgm : PGMWrapper S V)
    (queries : List Key) (pos : Key → Nat) : Prop where
  /-- Every key has a value. -/
  paired : pgm.keys.length = pgm.values.length
  /-- The index is over the keys. -/
  size : pgm.index.n = pgm.keys.length
  /-- The positions. -/
  search : ∀ q ∈ queries, ∃ range, (pgm.index.search f epsilon q).Returns range ∧ range.pos = pos q
  /-- They are not too far behind the last key. -/
  pos_le : ∀ q ∈ queries, pos q ≤ pgm.keys.length + epsilon

/-- Where `search` finds such positions. -/
theorem PGMWrapper.exists_searchable (hpaired : pgm.keys.length = pgm.values.length)
    (hsize : pgm.index.n = pgm.keys.length)
    (hsearch : ∀ q ∈ queries, (pgm.index.search f epsilon q).Ensures fun range =>
      range.pos ≤ pgm.keys.length + epsilon) :
    ∃ pos, pgm.Searchable f epsilon queries pos := by
  have hpos : ∀ q, ∃ p, q ∈ queries →
      (∃ range, (pgm.index.search f epsilon q).Returns range ∧ range.pos = p) ∧
        p ≤ pgm.keys.length + epsilon := by
    intro q
    by_cases hq : q ∈ queries
    · obtain ⟨range, hrange, hle⟩ := hsearch q hq
      exact ⟨range.pos, fun _ => ⟨⟨range, hrange, rfl⟩, hle⟩⟩
    · exact ⟨0, fun h => absurd h hq⟩
  choose pos hpos using hpos
  exact ⟨pos, hpaired, hsize, fun q hq => (hpos q hq).1, fun q hq => (hpos q hq).2⟩

theorem PGMWrapper.Searchable.window (h : pgm.Searchable f epsilon queries pos) {q : Key}
    (hq : q ∈ queries) :
    (pgm.window f epsilon q).Returns (windowAround epsilon pgm.keys.length (pos q)) := by
  obtain ⟨range, hrange, hpos⟩ := h.search q hq
  rw [← hpos]
  exact PGMWrapper.window_returns h.size hrange

theorem PGMWrapper.Searchable.posWindow (h : pgm.Searchable f epsilon queries pos) {q : Key}
    (hq : q ∈ queries) :
    (pgm.posWindow f epsilon q).Returns (windowAround epsilon pgm.keys.length (pos q)) := by
  obtain ⟨range, hrange, hpos⟩ := h.search q hq
  exact hrange.bind (returns_pure.mpr (by rw [hpos]))

theorem PGMWrapper.Searchable.ordered (h : pgm.Searchable f epsilon queries pos) {q : Key}
    (hq : q ∈ queries) :
    (windowAround epsilon pgm.keys.length (pos q)).lo ≤
      (windowAround epsilon pgm.keys.length (pos q)).hi := by
  obtain ⟨range, hrange, hpos⟩ := h.search q hq
  exact windowAround_ordered (h.pos_le q hq) (hpos ▸ (PGMIndex.search_inv hrange).1)

/-- The answers of the strategies over `search`. -/
def PGMWrapper.searchAnswer (epsilon : Nat) (pgm : PGMWrapper S V) (pos : Key → Nat) (q : Key) :
    Option V :=
  pgm.valueAt
    ((windowAround epsilon pgm.keys.length (pos q)).bisect (probe pgm.keys q)) q

/-- As many rounds as `calc_steps` gives end where the search of the window ends. -/
theorem PGMWrapper.fixed_eq_searchAnswer (pgm : PGMWrapper S V) (pos : Key → Nat)
    (queries : List Key) (results : List V) (dflt : V) :
    lookupAll (fun q => pgm.valueAt ((Window.halve (probe pgm.keys q))^[(2 * epsilon + 2).size]
      (windowAround epsilon pgm.keys.length (pos q))).lo q) queries results dflt =
      lookupAll (pgm.searchAnswer epsilon pos) queries results dflt := by
  refine lookupAll_congr fun q _ => ?_
  rw [iterate_size windowAround_width_le, PGMWrapper.searchAnswer]

theorem NoPrefetch.batchLookup_returns (h : pgm.Searchable f epsilon queries pos) :
    (NoPrefetch.batchLookup f epsilon pgm queries results dflt).Returns
      (lookupAll (pgm.searchAnswer epsilon pos) queries results dflt) :=
  serialLookup_returns h.paired fun _ hq => ⟨h.window hq, windowAround_hi_le⟩

/-- The pipeline ends where `H` rounds on the windows end, and each query enters once, takes `H`
rounds and leaves once. -/
theorem PGMWrapper.Searchable.staticSPP (h : pgm.Searchable f epsilon queries pos) (hN : 1 ≤ N)
    (H : Nat) :
    (staticSPP N H (pgm.window f epsilon) pgm.toColumns queries
      (Out.fresh queries.length results dflt)).Ensures fun st =>
        st.out = lookupAll (fun q => pgm.valueAt ((Window.halve (probe pgm.keys q))^[H]
          (windowAround epsilon pgm.keys.length (pos q))).lo q) queries results dflt ∧
          ∀ q, q < queries.length → st.log.count (.dispatch q) = 1 ∧
            st.log.count (.advance q) = H ∧ st.log.count (.finish q) = 1 :=
  staticSPP_ensures h.paired hN (fun _ hq => ⟨h.window hq, windowAround_hi_le⟩)
    fun _ hq => h.ordered hq

/-- The groups end there too. -/
theorem PGMWrapper.Searchable.groupLoop (h : pgm.Searchable f epsilon queries pos) (hN : 1 ≤ N)
    (steps : Nat) :
    (groupLoop N (windowsOf (pgm.posWindow f epsilon) queries) (fixedRounds steps) branchlessRound
      pgm.toColumns queries (Out.fresh queries.length results dflt)).Returns
      (lookupAll (fun q => pgm.valueAt ((Window.halve (probe pgm.keys q))^[steps]
        (windowAround epsilon pgm.keys.length (pos q))).lo q) queries results dflt) :=
  @groupLoop_fixed _ _ _ pgm.toColumns queries results dflt N
    (fun q => windowAround epsilon pgm.keys.length (pos q)) _ h.paired hN branchlessRound_halves _
    (fun _ _ => windowAround_hi_le)
    (fun _ _ hsize => windowsOf_ensures hsize fun _ hq => h.posWindow hq) steps

/-- The pipeline answers the queries. -/
theorem StaticSPP.pipeline_ensures (h : pgm.Searchable f epsilon queries pos) (hN : 1 ≤ N) :
    (staticSPP N (2 * epsilon + 2).size (pgm.window f epsilon) pgm.toColumns queries
      (Out.fresh queries.length results dflt)).Ensures fun st =>
        st.out = lookupAll (pgm.searchAnswer epsilon pos) queries results dflt ∧
          ∀ q, q < queries.length → st.log.count (.dispatch q) = 1 ∧
            st.log.count (.advance q) = (2 * epsilon + 2).size ∧
              st.log.count (.finish q) = 1 := by
  refine (h.staticSPP hN _).mono ?_
  intro st hst
  exact ⟨hst.1.trans (pgm.fixed_eq_searchAnswer pos queries results dflt), hst.2⟩

theorem StaticSPP.batchLookup_returns (h : pgm.Searchable f epsilon queries pos)
    (hE : 2 * epsilon + 2 < 2 ^ 63) (hN : 1 ≤ N) :
    (StaticSPP.batchLookup N f epsilon pgm queries results dflt).Returns
      (lookupAll (pgm.searchAnswer epsilon pos) queries results dflt) := by
  refine onData_returns fun _ _ => (bsearchSteps_returns hE).bind ?_
  have hH : 0 < (2 * epsilon + 2).size := Nat.size_pos.mpr (Nat.succ_pos _)
  rw [if_neg hH.ne']
  obtain ⟨st, hst, hout, _⟩ := StaticSPP.pipeline_ensures h hN
  exact hst.bind (returns_pure.mpr hout)

theorem VectorizedSearch.batchLookup_returns (h : pgm.Searchable f epsilon queries pos)
    (hE : 2 * epsilon + 2 < 2 ^ 63) (hN : 1 ≤ N) :
    (VectorizedSearch.batchLookup N f epsilon pgm queries results dflt).Returns
      (lookupAll (pgm.searchAnswer epsilon pos) queries results dflt) := by
  refine onData_returns fun _ _ => (bsearchSteps_returns hE).bind ?_
  have hgroups := @PGMWrapper.Searchable.groupLoop _ _ f epsilon N pgm queries results dflt pos h
    hN (2 * epsilon + 2).size
  rw [pgm.fixed_eq_searchAnswer pos queries results dflt] at hgroups
  exact hgroups

end Searching

/-! ## Loaded wrappers -/

/-- The strategies that take their window from `search` agree on every loaded wrapper, when the
position of `search` is at most `epsilon` behind the last key.  In `StaticSPP` every query enters
the pipeline once, takes `H` rounds and leaves it once. -/
theorem searching_agree {f : Floating S} {segmentation : Segmentation S} {epsilon : Nat}
    (hE : 2 * epsilon + 2 < 2 ^ 63) {inputData : List (Key × V)} {pgm : PGMWrapper S V}
    (hload : (PGMWrapper.empty.bulkLoad f segmentation epsilon inputData).Returns pgm)
    (hsearch : ∀ k, k < sentinel → (pgm.index.search f epsilon k).Ensures fun range =>
      range.pos ≤ pgm.keys.length + epsilon) {N : Nat} (hN : 1 ≤ N) {queries : List Key}
    (hqueries : ∀ q ∈ queries, q < sentinel) (results : List V) (dflt : V) :
    ∃ out H, (NoPrefetch.batchLookup f epsilon pgm queries results dflt).Returns out ∧
      (StaticSPP.batchLookup N f epsilon pgm queries results dflt).Returns out ∧
      (VectorizedSearch.batchLookup N f epsilon pgm queries results dflt).Returns out ∧
      (bsearchSteps epsilon).Returns H ∧
      (staticSPP N H (pgm.window f epsilon) pgm.toColumns queries
        (Out.fresh queries.length results dflt)).Ensures fun st => st.out = out ∧
          ∀ q, q < queries.length → st.log.count (.dispatch q) = 1 ∧
            st.log.count (.advance q) = H ∧ st.log.count (.finish q) = 1 := by
  obtain ⟨hkeys, hvalues, hn, _⟩ := PGMWrapper.bulkLoad_inv hload
  obtain ⟨pos, h⟩ := PGMWrapper.exists_searchable
    (by rw [hkeys, hvalues, List.length_map, List.length_map]) hn
    fun q hq => hsearch q (hqueries q hq)
  exact ⟨_, _, NoPrefetch.batchLookup_returns h, StaticSPP.batchLookup_returns h hE hN,
    VectorizedSearch.batchLookup_returns h hE hN, bsearchSteps_returns hE,
    StaticSPP.pipeline_ensures h hN⟩

/-! ## Two keys in one segment -/

/-- Slopes that are fractions, with exact products. -/
def fractions : Floating (Nat × Nat) := ⟨(0, 1), fun s x => s.1 * x / s.2⟩

/-- One segment with a slope, from the first key on. -/
def oneSegment (slope : Nat × Nat) : Segmentation (Nat × Nat) where
  segments _ keys := pure [⟨keys.headD 0, slope, 0⟩]
  ne_nil h := by
    rw [← returns_pure.mp h]
    exact List.cons_ne_nil _ _

/-- A wrapper over the keys 1 and `b`, with a segment and the sentinel segment. -/
def twoKeys (slope : Nat × Nat) (b : Key) : PGMWrapper (Nat × Nat) Nat :=
  ⟨⟨[1, b], [10, 20]⟩, ⟨2, 1, [⟨1, slope, 0⟩, ⟨sentinel, (0, 1), 2⟩], [0, 2]⟩⟩

/-- The index over keys that the segmentation puts into one segment, when that segment does not
predict a position of a key for the last words. -/
theorem oneSegment_new {segmentation : Segmentation (Nat × Nat)} {epsilon : Nat} {keys : List Key}
    {last : Key} {s : Segment (Nat × Nat)} (hlast : keys.getLast? = some last)
    (hb : last ≠ sentinel) (hE : epsilon * epsilon % 2 ^ 64 ≠ 0)
    (hsegments : (segmentation.segments epsilon keys).Returns [s]) (hs : s.key ≠ sentinel)
    (hpos : keys.length ≤ s.position fractions (sentinel - 1)) :
    (PGMIndex.new fractions segmentation epsilon keys).Returns
      ⟨keys.length, keys.headD 0, [s, flatSegment fractions sentinel keys.length], [0, 2]⟩ := by
  have hclose : closeLevel fractions last keys.length 1 s =
      ([flatSegment fractions sentinel keys.length], 1) := by
    rw [closeLevel, if_neg hs, if_neg (not_lt.mpr hpos)]
  have hlevel : (buildLevel fractions segmentation epsilon last keys
      ⟨[], [0], keys.length⟩).Returns
      ⟨[s, flatSegment fractions sentinel keys.length], [0, 2], 1⟩ := by
    refine hsegments.bind ((returns_ofOption.mpr rfl).bind ?_)
    exact returns_pure.mpr (by simp [hclose])
  refine Returns.bind (a := ([s, flatSegment fractions sentinel keys.length], [0, 2])) ?_
    (returns_pure.mpr rfl)
  rw [build, hlast]
  refine returns_assert_bind.mpr ⟨decide_eq_true hE, ?_⟩
  refine returns_assert_bind.mpr ⟨decide_eq_true hb, ?_⟩
  refine hlevel.bind (Returns.bind (a := ⟨_, [0, 2], 1⟩) ?_ (returns_pure.mpr rfl))
  exact (whileM_returns ..).mpr (Or.inl ⟨returns_pure.mpr rfl, rfl⟩)

theorem twoKeys_load {slope : Nat × Nat} {b : Key} {epsilon : Nat} (hb : b ≠ sentinel)
    (hE : epsilon * epsilon % 2 ^ 64 ≠ 0)
    (hslope : 2 ≤ Segment.position fractions ⟨1, slope, 0⟩ (sentinel - 1)) :
    (PGMWrapper.empty.bulkLoad fractions (oneSegment slope) epsilon [(1, 10), (b, 20)]).Returns
      (twoKeys slope b) :=
  Returns.bind (oneSegment_new rfl hb hE (returns_pure.mpr rfl)
    (by decide : (1 : Key) ≠ sentinel) hslope) (returns_pure.mpr rfl)

theorem twoKeys_search (slope : Nat × Nat) (b : Key) (epsilon : Nat) (k : Key) :
    ((twoKeys slope b).index.search fractions epsilon k).Ensures fun range =>
      range.pos = min (Segment.position fractions ⟨1, slope, 0⟩ (max 1 k)) 2 := by
  refine Returns.seq (a := 0) ?_ ?_
  · exact (returns_read.mpr rfl).bind (returns_pure.mpr rfl)
  · exact Returns.seq ((returns_read.mpr rfl).bind ((returns_read.mpr rfl).bind
      (returns_pure.mpr rfl))) (Ensures.pure rfl)

theorem searching_agree_twoKeys :
    ∃ out H, (NoPrefetch.batchLookup fractions 1 (twoKeys (1, 5) 11) [11, 5] [7] 0).Returns out ∧
      (StaticSPP.batchLookup 2 fractions 1 (twoKeys (1, 5) 11) [11, 5] [7] 0).Returns out ∧
      (VectorizedSearch.batchLookup 2 fractions 1 (twoKeys (1, 5) 11) [11, 5] [7] 0).Returns out ∧
      (bsearchSteps 1).Returns H ∧
      (staticSPP 2 H ((twoKeys (1, 5) 11).window fractions 1) (twoKeys (1, 5) 11).toColumns [11, 5]
        (Out.fresh 2 [7] 0)).Ensures fun st => st.out = out ∧
          ∀ q, q < 2 → st.log.count (.dispatch q) = 1 ∧
            st.log.count (.advance q) = H ∧ st.log.count (.finish q) = 1 :=
  searching_agree (by decide) (twoKeys_load (by decide) (by decide) (by decide))
    (fun k _ => (twoKeys_search _ _ _ k).mono fun range h => by
      rw [h]
      exact (Nat.min_le_right _ _).trans (Nat.le_add_right 2 _)) (by decide)
    (fun q hq => lt_sentinel_iff.mpr fun hc => absurd (hc ▸ hq) (by decide)) [7] 0

/-- For `Epsilon = 2^63 - 1` the sum `2 * EPS + 2` wraps to zero, and so the number of rounds is
zero: `NoPrefetch` finds the second key, `StaticSPP` returns at once. -/
theorem staticSPP_misses :
    (PGMWrapper.empty.bulkLoad fractions (oneSegment (5, 8)) (2 ^ 63 - 1)
        [(1, 10), (14757395258967638017, 20)]).Returns (twoKeys (5, 8) 14757395258967638017) ∧
      (∀ k, k < sentinel → ((twoKeys (5, 8) 14757395258967638017).index.search fractions
        (2 ^ 63 - 1) k).Ensures fun range => range.pos ≤ 2 + (2 ^ 63 - 1)) ∧
      (NoPrefetch.batchLookup fractions (2 ^ 63 - 1) (twoKeys (5, 8) 14757395258967638017)
        [14757395258967638017] [] 0).Returns ⟨[true], [20]⟩ ∧
      (StaticSPP.batchLookup 1 fractions (2 ^ 63 - 1) (twoKeys (5, 8) 14757395258967638017)
        [14757395258967638017] [] 0).Returns ⟨[false], [0]⟩ := by
  refine ⟨twoKeys_load (by decide) (by decide) (by decide), fun k _ => ?_, ⟨5, by rfl⟩,
    ⟨5, by rfl⟩⟩
  refine (twoKeys_search _ _ _ k).mono fun range h => ?_
  rw [h]
  exact (Nat.min_le_right _ _).trans (Nat.le_add_right 2 _)

end PGM
