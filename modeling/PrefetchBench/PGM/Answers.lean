import PrefetchBench.PGM.Tower

/-!
# Lookups in a wrapper that was loaded

The whole way of `PGMWrapper`, with the segmentation of the library: `bulk_load` returns for every
data in order without the sentinel, and all five strategies then give the same answers
(`bulkLoad_answers`).  A query is found if and only if it is a key, with the value at its first
rank.

For a query that is not a key, the segment that `search` ends with and the one that `upper_bound`
finds need not be the same, but no window holds the query.
-/

namespace PGM

open Prog KeyArray Ranges Windowed Batch

variable {S V : Type} {f : Quotients S} {epsilon : Nat} {last : Key} {keys : List Key}

/-! ## Positions -/

namespace PGMIndex.Built

variable {idx : PGMIndex S} {levels : List (Storey S)} {q : Key}

theorem firstKey_le (hkeys : Indexable keys) (hq : q ∈ keys) : keyAt keys 0 ≤ q := by
  obtain ⟨hlt, hkey⟩ := hkeys.lowerBound_lt hq
  rw [← hkey]
  exact hkeys.keyAt_le (Nat.zero_le _) hlt

/-- The position of `search` is within the error of the first rank of a stored key. -/
theorem search (h : idx.Built f epsilon last keys levels) (hkeys : Indexable keys)
    (hq : q < sentinel) : (idx.search f.toFloating epsilon q).Ensures fun range =>
      range.pos ≤ keys.length + epsilon ∧
        (q ∈ keys → lowerBound keys q keys.length ≤ range.pos + epsilon + 1 ∧
          range.pos ≤ lowerBound keys q keys.length + epsilon) := by
  have hfirst : keyAt keys 0 < sentinel := hkeys.below _ (keyAt_mem hkeys.size.1)
  have hk : max idx.firstKey q < sentinel := by
    rw [h.firstKey]
    exact max_lt hfirst hq
  have hge : keyAt keys 0 ≤ max idx.firstKey q := by
    rw [h.firstKey]
    exact le_max_left _ _
  apply (h.segmentForKey hge hk).bind
  rintro it ⟨storey, s, t, hl, hat⟩
  have hclamped : (idx.clampedPosition f.toFloating it (max idx.firstKey q)).Returns
      (min (s.position f.toFloating (max idx.firstKey q)) t.intercept) := by
    have hs := h.read hl hat.this
    have ht := h.read hl hat.next
    rw [Rows.start_zero, Nat.zero_add] at hs ht
    exact hs.bind (ht.bind (returns_pure.mpr rfl))
  apply hclamped.seq
  apply Ensures.pure
  obtain ⟨bottom, hget, hover, hfinds⟩ := h.tower.bottom
  cases hget.symm.trans hl
  constructor
  · obtain ⟨p, hle, hp, _⟩ := hover.clamped _ it s t hk hat.this hat.next hat.le hat.lt
    exact hle.trans (Nat.add_le_add_right hp epsilon)
  · intro hmem
    have hmax : max idx.firstKey q = q := by
      rw [h.firstKey]
      exact max_eq_right (firstKey_le hkeys hmem)
    rw [hmax] at hat ⊢
    have hposition := hfinds.position q hmem it s t hat
    have hintercept := hfinds.intercept q hmem it s t hat
    dsimp only
    omega

/-- So is the position of the segment that `upper_bound` finds on the bottom level. -/
theorem positionOnBottom (h : idx.Built f epsilon last keys levels) (hkeys : Indexable keys)
    (hq : q ∈ keys) : (idx.positionOnLevel f.toFloating 0 q).Ensures fun pos =>
      lowerBound keys q keys.length ≤ pos + epsilon + 1 ∧
        pos ≤ lowerBound keys q keys.length + epsilon := by
  obtain ⟨it, _, storey, s, t, hl, hat⟩ :=
    h.segmentForKey (firstKey_le hkeys hq) (hkeys.below q hq)
  obtain ⟨bottom, hget, _, hfinds⟩ := h.tower.bottom
  cases hget.symm.trans hl
  obtain ⟨hlt, _⟩ := List.getElem?_eq_some_iff.mp hat.next
  -- the bottom level comes first
  have hrows : (levels.map Storey.segments)[0]? = some storey.segments := by
    rw [List.getElem?_map, hl]
    rfl
  have hlen : 0 < levels.length := (List.getElem?_eq_some_iff.mp hl).1
  have hsegments : ∀ i, i < storey.segments.length → idx.segments[i]? = storey.segments[i]? := by
    intro i hi
    rw [h.segments, ← Rows.getElem?_flatten hrows hi, Rows.start_zero, Nat.zero_add]
  have hbegin : (Prog.read idx.levelsOffsets 0).Returns 0 := by
    rw [returns_read, h.offsets, Rows.getElem?_offsets (Nat.zero_le _), Rows.start_zero]
  have hend : (Prog.read idx.levelsOffsets 1).Returns storey.segments.length := by
    rw [returns_read, h.offsets, Rows.getElem?_offsets (by rw [List.length_map]; exact hlen)]
    cases hd : levels.map Storey.segments with
    | nil =>
        rw [hd] at hrows
        cases hrows
    | cons row rest =>
        rw [hd] at hrows
        cases hrows
        simp [Rows.start]
  have hub : (upperBound (fun s => decide (q < s.key)) idx.segments 0
      storey.segments.length).Returns (it + 1) := by
    apply upperBound_eq (Nat.zero_le _) hlt.le
    · rw [h.segments]
      cases hd : levels.map Storey.segments with
      | nil =>
          rw [hd] at hrows
          cases hrows
      | cons row rest =>
          rw [hd] at hrows
          cases hrows
          simp
    · intro i x _ hi hx
      rw [hsegments i (by omega)] at hx
      exact decide_eq_false (not_lt.mpr (hfinds.before q hq it s t hat i x (by omega) hx))
    · intro i x hi hie hx
      rw [hsegments i hie] at hx
      exact decide_eq_true (hfinds.after q hq it s t hat i x (by omega) hx)
  have hthis : (Prog.read idx.segments it).Returns s := by
    rw [returns_read, hsegments it (by omega)]
    exact hat.this
  apply hbegin.seq
  apply hend.seq
  apply hub.seq
  rw [if_neg (Nat.succ_ne_zero it), Nat.add_sub_cancel]
  apply hthis.seq
  exact Ensures.pure (hfinds.position q hq it s t hat)

end PGMIndex.Built

/-- The constructor builds an index that finds every key: the range of `search` has its first rank,
and at most `2 * epsilon + 2` ranks. -/
theorem search_covers (h : Fits f epsilon keys) :
    (PGMIndex.new f.toFloating f.segmentation.uncaught epsilon keys).Ensures fun idx =>
      ∀ q ∈ keys, (idx.search f.toFloating epsilon q).Ensures fun range =>
        range.lo ≤ lowerBound keys q keys.length ∧ lowerBound keys q keys.length < range.hi ∧
          range.hi ≤ keys.length ∧ range.hi ≤ range.lo + (2 * epsilon + 2) := by
  apply (new_built h).mono
  rintro idx ⟨levels, hbuilt⟩ q hq
  obtain ⟨range, hrange, hle, hnear⟩ :=
    hbuilt.search h.indexable (h.indexable.below q hq)
  obtain ⟨_, hlo, hhi⟩ := PGMIndex.search_inv hrange
  obtain ⟨hlow, hhigh⟩ := hnear hq
  obtain ⟨hlt, _⟩ := h.indexable.lowerBound_lt hq
  have hwide := h.wide
  rw [hbuilt.size] at hhi
  refine ⟨range, hrange, ?_, ?_, ?_, ?_⟩
  · rw [hlo, subEps]
    split <;> omega
  · rw [hhi, addEps]
    split <;> omega
  · rw [hhi, addEps]
    split <;> omega
  · rw [hlo, hhi, subEps, addEps]
    split <;> split <;> omega

/-! ## Answers -/

section Wrapper

variable {pgm : PGMWrapper S V} {queries : List Key} {results : List V} {dflt : V} {N : Nat}

/-- The wrapper over keys that fit. -/
structure PGMWrapper.Over (f : Quotients S) (epsilon : Nat) (data : List (Key × V))
    (pgm : PGMWrapper S V) : Prop where
  /-- The keys. -/
  keys_eq : pgm.keys = data.map Prod.fst
  /-- The values. -/
  values_eq : pgm.values = data.map Prod.snd
  /-- The keys fit. -/
  fits : Fits f epsilon pgm.keys
  /-- The index is built over them. -/
  index : ∃ last levels, pgm.index.Built f epsilon last pgm.keys levels
  /-- Its levels lie back to back. -/
  leveled : pgm.index.Leveled

namespace PGMWrapper.Over

variable {data : List (Key × V)}

theorem paired (h : pgm.Over f epsilon data) : pgm.keys.length = pgm.values.length := by
  rw [h.keys_eq, h.values_eq, List.length_map, List.length_map]

theorem twice_lt (h : pgm.Over f epsilon data) : 2 * epsilon + 2 < 2 ^ 63 := by
  have hpos := h.fits.indexable.size.1
  have hwide := h.fits.wide
  omega

/-- A window around a good position leads to the answer. -/
theorem bisect (h : pgm.Over f epsilon data) {q : Key} {pos : Nat}
    (hpos : pgm.Near epsilon q pos) :
    pgm.valueAt ((windowAround epsilon pgm.keys.length pos).bisect (probe pgm.keys q)) q =
      pgm.answer q := by
  rw [PGMWrapper.answer]
  by_cases hq : q ∈ pgm.keys
  · obtain ⟨hlow, hhigh⟩ := hpos hq
    obtain ⟨hlt, _⟩ := h.fits.indexable.lowerBound_lt hq
    have hwide := h.fits.wide
    rw [bisect_eq_lowerBound (sortedTo_of_pairwise h.fits.indexable.sorted)
      (windowAround_lo_le hhigh) (lt_windowAround_hi hlt hlow (by omega)).le windowAround_hi_le]
  · rw [Columns.valueAt_of_notMem hq, Columns.valueAt_of_notMem hq]

/-- The strategies over `search`, where it stays within the segments. -/
theorem searchable (h : pgm.Over f epsilon data)
    (hqueries : ∀ q ∈ queries, (pgm.index.search f.toFloating epsilon q).Ensures fun range =>
      range.pos ≤ pgm.keys.length + epsilon) :
    ∃ pos, pgm.Searchable f.toFloating epsilon queries pos ∧
      lookupAll (pgm.searchAnswer epsilon pos) queries results dflt =
        lookupAll pgm.answer queries results dflt := by
  obtain ⟨last, levels, hbuilt⟩ := h.index
  obtain ⟨pos, hpos⟩ := PGMWrapper.exists_searchable h.paired hbuilt.size hqueries
  refine ⟨pos, hpos, lookupAll_congr ?_⟩
  intro q hq
  apply h.bisect
  intro hmem
  obtain ⟨range, hrange, hrangePos⟩ := hpos.search q hq
  obtain ⟨range', hrange', _, hnear⟩ :=
    hbuilt.search h.fits.indexable (h.fits.indexable.below q hmem)
  cases Returns.det hrange hrange'
  rw [← hrangePos]
  exact hnear hmem

/-- The strategies that go down the levels by hand. -/
theorem navigable (h : pgm.Over f epsilon data) :
    ∃ pos : Key → Nat, (∀ q, (pgm.index.positionOnLevel f.toFloating 0 q).Returns (pos q)) ∧
      lookupAll (fun q => pgm.valueAt ((Window.halve (probe pgm.keys q))^[(2 * epsilon + 2).size]
        (windowAround epsilon pgm.keys.length (pos q))).lo q) queries results dflt =
        lookupAll pgm.answer queries results dflt := by
  obtain ⟨last, levels, hbuilt⟩ := h.index
  have hpos : ∀ q, ∃ pos, (pgm.index.positionOnLevel f.toFloating 0 q).Returns pos ∧
      pgm.Near epsilon q pos := by
    intro q
    by_cases hq : q ∈ pgm.keys
    · obtain ⟨pos, hreturns, hnear⟩ := hbuilt.positionOnBottom h.fits.indexable hq
      exact ⟨pos, hreturns, fun _ => hnear⟩
    · obtain ⟨pos, hreturns, _⟩ :=
        h.leveled.positionOnLevel (f := f.toFloating) h.leveled.two_le q
      exact ⟨pos, hreturns, fun hc => absurd hc hq⟩
  choose pos hreturns hnear using hpos
  refine ⟨pos, hreturns, lookupAll_congr ?_⟩
  intro q _
  rw [iterate_size windowAround_width_le]
  exact h.bisect (hnear q)

/-- All strategies return the answers. -/
theorem answers (h : pgm.Over f epsilon data) (hN : 1 ≤ N)
    (hqueries : ∀ q ∈ queries, (pgm.index.search f.toFloating epsilon q).Ensures fun range =>
      range.pos ≤ pgm.keys.length + epsilon) :
    (NoPrefetch.batchLookup f.toFloating epsilon pgm queries results dflt).Returns
        (lookupAll pgm.answer queries results dflt) ∧
      (StaticSPP.batchLookup N f.toFloating epsilon pgm queries results dflt).Returns
        (lookupAll pgm.answer queries results dflt) ∧
      (VectorizedSearch.batchLookup N f.toFloating epsilon pgm queries results dflt).Returns
        (lookupAll pgm.answer queries results dflt) ∧
      (GroupPrefetch.batchLookup N f.toFloating epsilon pgm queries results dflt).Returns
        (lookupAll pgm.answer queries results dflt) ∧
      (AMACSearch.batchLookup N f.toFloating epsilon pgm queries results dflt).Returns
        (lookupAll pgm.answer queries results dflt) := by
  obtain ⟨pos, hsearch, heq⟩ := @searchable _ _ _ _ _ _ results dflt _ h hqueries
  obtain ⟨pos', hbottom, heq'⟩ :=
    @navigable _ _ _ _ _ queries results dflt _ h
  refine ⟨?_, ?_, ?_, ?_, ?_⟩
  · rw [← heq]
    exact NoPrefetch.batchLookup_returns hsearch
  · rw [← heq]
    exact StaticSPP.batchLookup_returns hsearch h.twice_lt hN
  · rw [← heq]
    exact VectorizedSearch.batchLookup_returns hsearch h.twice_lt hN
  · rw [← heq']
    refine onData_returns fun _ _ => (bsearchSteps_returns h.twice_lt).bind ?_
    exact PGMIndex.Leveled.groupLoop h.leveled h.paired hN hbottom _
  · rw [← heq']
    refine onData_returns fun _ _ => (bsearchSteps_returns h.twice_lt).bind ?_
    obtain ⟨st, hst, hout⟩ := h.leveled.amacSearch h.paired hN hbottom (2 * epsilon + 2).size
    exact hst.bind (returns_pure.mpr hout)

/-- The answer of a key is the value at its first rank. -/
theorem answer_of_mem (h : pgm.Over f epsilon data) {q : Key} (hq : q ∈ pgm.keys) :
    ∃ v, pgm.values[lowerBound pgm.keys q pgm.keys.length]? = some v ∧ pgm.answer q = some v := by
  obtain ⟨hlt, hkey⟩ := h.fits.indexable.lowerBound_lt hq
  obtain ⟨v, hv⟩ := exists_getElem? pgm.values (hlt.trans_eq h.paired)
  have hslot := getElem?_keyAt hlt
  rw [hkey] at hslot
  exact ⟨v, hv, by rw [PGMWrapper.answer, Columns.valueAt, if_pos hslot, hv]⟩

/-- A query is answered if and only if it is a key. -/
theorem isSome_answer (h : pgm.Over f epsilon data) (q : Key) :
    (pgm.answer q).isSome = decide (q ∈ data.map Prod.fst) := by
  rw [← h.keys_eq]
  by_cases hmem : q ∈ pgm.keys
  · obtain ⟨v, _, hanswer⟩ := h.answer_of_mem hmem
    rw [hanswer, decide_eq_true hmem, Option.isSome_some]
  · rw [PGMWrapper.answer, Columns.valueAt_of_notMem hmem, decide_eq_false hmem,
      Option.isSome_none]

end PGMWrapper.Over

/-- `bulk_load` returns a wrapper over its data. -/
theorem bulkLoad_over {data : List (Key × V)} (h : Fits f epsilon (data.map Prod.fst)) :
    (PGMWrapper.empty.bulkLoad f.toFloating f.segmentation.uncaught epsilon data).Ensures
      (·.Over f epsilon data) := by
  obtain ⟨idx, hidx, levels, hbuilt⟩ := new_built h
  have hload : (PGMWrapper.empty.bulkLoad f.toFloating f.segmentation.uncaught epsilon
      data).Returns ⟨⟨data.map Prod.fst, data.map Prod.snd⟩, idx⟩ :=
    hidx.bind (returns_pure.mpr rfl)
  apply hload.ensures
  obtain ⟨_, _, _, _, hleveled⟩ := PGMWrapper.bulkLoad_inv hload
  refine ⟨rfl, rfl, h, ⟨_, levels, hbuilt⟩, hleveled ?_⟩
  intro hnil
  have hpos := h.indexable.size.1
  rw [hnil] at hpos
  exact absurd hpos (Nat.lt_irrefl 0)

/-- With the segmentation of the library, `bulk_load` returns, and all strategies then give the same
answers: a query is found if and only if it is a key, with the value at its first rank, and the
place of any other query keeps what it had. -/
theorem bulkLoad_answers (dflt : V) {data : List (Key × V)}
    (h : Fits f epsilon (data.map Prod.fst)) :
    (PGMWrapper.empty.bulkLoad f.toFloating f.segmentation.uncaught epsilon data).Ensures
      fun pgm => ∀ N queries results, 1 ≤ N → (∀ q ∈ queries, q < sentinel) → ∃ out,
        (NoPrefetch.batchLookup f.toFloating epsilon pgm queries results dflt).Returns out ∧
        (StaticSPP.batchLookup N f.toFloating epsilon pgm queries results dflt).Returns out ∧
        (VectorizedSearch.batchLookup N f.toFloating epsilon pgm queries results dflt).Returns out ∧
        (GroupPrefetch.batchLookup N f.toFloating epsilon pgm queries results dflt).Returns out ∧
        (AMACSearch.batchLookup N f.toFloating epsilon pgm queries results dflt).Returns out ∧
        ∀ (i : Nat) (q : Key), queries[i]? = some q →
          out.found[i]? = some (decide (q ∈ data.map Prod.fst)) ∧
          (q ∈ data.map Prod.fst → out.results[i]? =
            (data.map Prod.snd)[lowerBound (data.map Prod.fst) q data.length]?) ∧
          (q ∉ data.map Prod.fst → out.results[i]? = some (results[i]?.getD dflt)) := by
  apply (bulkLoad_over h).mono
  intro pgm hpgm N queries results hN hqueries
  obtain ⟨last, levels, hbuilt⟩ := hpgm.index
  have hsearch : ∀ q ∈ queries, (pgm.index.search f.toFloating epsilon q).Ensures fun range =>
      range.pos ≤ pgm.keys.length + epsilon := fun q hq =>
    (hbuilt.search hpgm.fits.indexable (hqueries q hq)).mono fun _ hrange => hrange.1
  obtain ⟨hno, hspp, hvectorized, hgroup, hamac⟩ :=
    @PGMWrapper.Over.answers _ _ _ _ _ _ results dflt _ _ hpgm hN hsearch
  refine ⟨_, hno, hspp, hvectorized, hgroup, hamac, ?_⟩
  intro i q hq
  have hlen : data.length = (data.map Prod.fst).length := (List.length_map _).symm
  rw [found_lookupAll hq, hpgm.isSome_answer, results_lookupAll hq, hlen, ← hpgm.keys_eq,
    ← hpgm.values_eq]
  refine ⟨rfl, ?_, ?_⟩
  · intro hmem
    obtain ⟨v, hv, hanswer⟩ := hpgm.answer_of_mem hmem
    rw [hanswer, hv, Option.getD_some]
  · intro hmem
    rw [PGMWrapper.answer, Columns.valueAt_of_notMem hmem, Option.getD_none]

end Wrapper

/-! ## Three keys -/

theorem fits_three : Fits quotients 1 [1, 11, 11] where
  indexable := indexable_three
  square := by decide
  size := by decide
  wide := by decide
  accurate := quotients_accurate _

theorem search_covers_three :
    (PGMIndex.new quotients.toFloating quotients.segmentation.uncaught 1 [1, 11, 11]).Ensures
      fun idx => ∀ q ∈ [(1 : Key), 11, 11], (idx.search quotients.toFloating 1 q).Ensures
        fun range => range.lo ≤ lowerBound [(1 : Key), 11, 11] q 3 ∧
          lowerBound [(1 : Key), 11, 11] q 3 < range.hi ∧ range.hi ≤ 3 ∧
            range.hi ≤ range.lo + (2 * 1 + 2) := search_covers fits_three

theorem bulkLoad_answers_three :
    (PGMWrapper.empty.bulkLoad quotients.toFloating quotients.segmentation.uncaught 1
      [((1 : Key), 10), (11, 20), (11, 30)]).Ensures
      fun pgm => ∀ N queries results, 1 ≤ N → (∀ q ∈ queries, q < sentinel) → ∃ out,
        (NoPrefetch.batchLookup quotients.toFloating 1 pgm queries results 0).Returns out ∧
        (StaticSPP.batchLookup N quotients.toFloating 1 pgm queries results 0).Returns out ∧
        (VectorizedSearch.batchLookup N quotients.toFloating 1 pgm queries results 0).Returns out ∧
        (GroupPrefetch.batchLookup N quotients.toFloating 1 pgm queries results 0).Returns out ∧
        (AMACSearch.batchLookup N quotients.toFloating 1 pgm queries results 0).Returns out ∧
        ∀ (i : Nat) (q : Key), queries[i]? = some q →
          out.found[i]? = some (decide (q ∈ [1, 11, 11])) ∧
          (q ∈ [1, 11, 11] → out.results[i]? =
            [10, 20, 30][lowerBound [(1 : Key), 11, 11] q 3]?) ∧
          (q ∉ [1, 11, 11] → out.results[i]? = some (results[i]?.getD 0)) :=
  bulkLoad_answers 0 fits_three

end PGM
