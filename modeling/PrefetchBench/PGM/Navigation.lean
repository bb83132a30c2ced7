import PrefetchBench.PGM.Strategies

/-!
# Going down the levels by hand

`GroupPrefetch` and `AMACSearch` do not call `search`.  They look up the segment of the bottom level
with `upper_bound`, and take its prediction as it is, while `search` goes down the levels with
predictions and caps what it ends with by the intercept of the next segment.

What the library promises about its bottom level is `PGMIndex.Promises`.  For a stored key both
windows then have its first rank in them (`PGMWrapper.Near`), and the searches end there.  For
other keys the windows may differ, and be reversed or wrapped, but every slot holds a key that is
not the query (`navigating_agree`).
-/

namespace PGM

open Prog KeyArray Ranges Windowed Batch

variable {S V : Type}

/-! ## Promises of the library -/

/-- The segments of the bottom level. -/
def PGMIndex.bottom (idx : PGMIndex S) : List (Segment S) :=
  idx.segments.take (idx.levelsOffsets.getD 1 0)

/-- Segment `it` is the rightmost of the bottom level with `key <= k`. -/
def PGMIndex.Responsible (idx : PGMIndex S) (k : Key) (it : Nat) : Prop :=
  ∃ s, idx.bottom[it]? = some s ∧ s.key ≤ k ∧
    ∀ j t, it < j → idx.bottom[j]? = some t → k < t.key

/-- What the library promises about an index over nondecreasing keys. -/
structure PGMIndex.Promises (f : Floating S) (epsilon : Nat) (idx : PGMIndex S)
    (keys : List Key) : Prop where
  /-- The keys of the segments increase. -/
  increasing : (idx.bottom.map Segment.key).Pairwise (· < ·)
  /-- The last one is the sentinel. -/
  last : (idx.bottom.map Segment.key).getLast? = some sentinel
  /-- `segment_for_key` gives the responsible segment. -/
  segmentForKey : ∀ k, idx.firstKey ≤ k → k < sentinel →
    (idx.segmentForKey f k).Ensures (idx.Responsible k)
  /-- The segment predicts the first rank of a stored key. -/
  position : ∀ k ∈ keys, ∀ it s, idx.Responsible k it → idx.bottom[it]? = some s →
    lowerBound keys k keys.length ≤ s.position f k + epsilon + 1 ∧
      s.position f k ≤ lowerBound keys k keys.length + epsilon
  /-- The next segment does not start before it. -/
  intercept : ∀ k ∈ keys, ∀ it t, idx.Responsible k it → idx.bottom[it + 1]? = some t →
    lowerBound keys k keys.length ≤ t.intercept + epsilon

section Bottom

variable {f : Floating S} {epsilon : Nat} {idx : PGMIndex S} {keys : List Key} {k : Key} {it : Nat}

theorem PGMIndex.getElem?_bottom {i : Nat} {s : Segment S} (h : idx.bottom[i]? = some s) :
    idx.segments[i]? = some s := by
  rw [PGMIndex.bottom, List.getElem?_take] at h
  split at h
  · exact h
  · cases h

theorem PGMIndex.Leveled.bottom (h : idx.Leveled) : ∃ e, idx.levelsOffsets[1]? = some e ∧ 0 < e ∧
    e ≤ idx.segments.length ∧ idx.bottom = idx.segments.take e := by
  obtain ⟨e, he⟩ := exists_getElem? idx.levelsOffsets (i := 1) (by have := h.two_le; omega)
  obtain ⟨hpos, hle⟩ := h.level 0 0 e h.head he
  refine ⟨e, he, hpos, hle, ?_⟩
  rw [PGMIndex.bottom, List.getD_eq_getElem?_getD, he, Option.getD_some]

/-- On any level there is a segment for the key. -/
theorem PGMIndex.Leveled.positionOnLevel (h : idx.Leveled) {l : Nat}
    (hl : l + 1 < idx.levelsOffsets.length) (key : Key) :
    (idx.positionOnLevel f l key).Ensures fun _ => True := by
  obtain ⟨a, ha⟩ := exists_getElem? idx.levelsOffsets (i := l) (by omega)
  obtain ⟨b, hb⟩ := exists_getElem? idx.levelsOffsets hl
  obtain ⟨hlt, hle⟩ := h.level l a b ha hb
  refine (returns_read.mpr ha).seq ((returns_read.mpr hb).seq ?_)
  refine (upperBound_ensures hlt.le hle).bind ?_
  intro r hr
  obtain ⟨s, hs⟩ := exists_getElem? idx.segments (i := if r = a then r else r - 1) (by
    split <;> omega)
  exact (returns_read.mpr hs).seq (Ensures.pure trivial)

theorem PGMIndex.Promises.get (hp : idx.Promises f epsilon keys) {i j : Nat} {s t : Segment S}
    (hij : i < j) (hs : idx.bottom[i]? = some s) (ht : idx.bottom[j]? = some t) :
    s.key < t.key := by
  obtain ⟨hi, rfl⟩ := List.getElem?_eq_some_iff.mp hs
  obtain ⟨hj, rfl⟩ := List.getElem?_eq_some_iff.mp ht
  have h := List.pairwise_iff_getElem.mp hp.increasing i j (by rwa [List.length_map])
    (by rwa [List.length_map]) hij
  rwa [List.getElem_map, List.getElem_map] at h

/-- The responsible segment of a key below the sentinel is not the last one. -/
theorem PGMIndex.Promises.next (hp : idx.Promises f epsilon keys) (hk : k < sentinel)
    (h : idx.Responsible k it) : ∃ t, idx.bottom[it + 1]? = some t := by
  obtain ⟨s, hs, hle, _⟩ := h
  have hlt := (List.getElem?_eq_some_iff.mp hs).1
  refine exists_getElem? _ ?_
  by_contra hc
  have hlast := hp.last
  rw [List.getLast?_eq_getElem?, List.length_map, List.getElem?_map,
    show idx.bottom.length - 1 = it by omega, hs, Option.map_some, Option.some.injEq] at hlast
  exact absurd (hlast ▸ hle) (not_le.mpr hk)

/-- On the bottom level `upper_bound` leads to the responsible segment. -/
theorem PGMIndex.Promises.positionOnBottom (hp : idx.Promises f epsilon keys) (h : idx.Leveled)
    {s : Segment S} (hit : idx.Responsible k it) (hs : idx.bottom[it]? = some s) :
    (idx.positionOnLevel f 0 k).Returns (s.position f k) := by
  obtain ⟨e, he, hpos, hle, hbottom⟩ := h.bottom
  obtain ⟨t, ht, hkey, hafter⟩ := hit
  cases hs.symm.trans ht
  have hget : ∀ i x, i < e → idx.segments[i]? = some x → idx.bottom[i]? = some x := by
    intro i x hi hx
    rwa [hbottom, List.getElem?_take_of_lt hi]
  have hlt : it < e := by
    have hlt := (List.getElem?_eq_some_iff.mp hs).1
    rw [hbottom, List.length_take] at hlt
    omega
  have hub : (upperBound (fun s => decide (k < s.key)) idx.segments 0 e).Returns (it + 1) := by
    refine upperBound_eq (Nat.zero_le _) hlt hle (fun i x _ hi hx => ?_) fun i x hi hie hx => ?_
    · have hx := hget i x (by omega) hx
      refine decide_eq_false (not_lt.mpr (le_trans ?_ hkey))
      rcases Nat.eq_or_lt_of_le (Nat.le_of_lt_succ hi) with rfl | hi
      · exact le_of_eq (congrArg Segment.key (Option.some.inj (hx.symm.trans hs)))
      · exact (hp.get hi hx hs).le
    · exact decide_eq_true (hafter i x hi (hget i x hie hx))
  refine (returns_read.mpr h.head).bind ((returns_read.mpr he).bind (hub.bind ?_))
  rw [if_neg (Nat.succ_ne_zero it), Nat.add_sub_cancel]
  exact (returns_read.mpr (PGMIndex.getElem?_bottom hs)).bind (returns_pure.mpr rfl)

/-- What `search` finds. -/
theorem PGMIndex.Promises.search (hp : idx.Promises f epsilon keys)
    (hk : max idx.firstKey k < sentinel) :
    (idx.search f epsilon k).Ensures fun range => ∃ it s t,
      idx.Responsible (max idx.firstKey k) it ∧ idx.bottom[it]? = some s ∧
        idx.bottom[it + 1]? = some t ∧
          range.pos = min (s.position f (max idx.firstKey k)) t.intercept := by
  obtain ⟨it, hit, hresp⟩ := hp.segmentForKey _ (le_max_left _ k) hk
  obtain ⟨t, ht⟩ := hp.next hk hresp
  obtain ⟨s, hs, hrest⟩ := id hresp
  refine hit.seq (Returns.seq (a := min (s.position f (max idx.firstKey k)) t.intercept) ?_ ?_)
  · exact (returns_read.mpr (PGMIndex.getElem?_bottom hs)).bind
      ((returns_read.mpr (PGMIndex.getElem?_bottom ht)).bind (returns_pure.mpr rfl))
  · exact Ensures.pure ⟨it, s, t, hresp, hs, ht, rfl⟩

end Bottom

/-! ## The first rank -/

/-- The value at the first rank of a query. -/
def PGMWrapper.answer (pgm : PGMWrapper S V) (q : Key) : Option V :=
  pgm.valueAt (lowerBound pgm.keys q pgm.keys.length) q

section FirstRank

variable {f : Floating S} {epsilon N : Nat} {pgm : PGMWrapper S V} {queries : List Key}
  {results : List V} {dflt : V}

/-- What both ways to the window rely on. -/
structure PGMWrapper.Loaded (f : Floating S) (epsilon : Nat) (pgm : PGMWrapper S V) : Prop where
  /-- Every key has a value. -/
  paired : pgm.keys.length = pgm.values.length
  /-- The keys do not decrease. -/
  sorted : pgm.keys.Pairwise (· ≤ ·)
  /-- No key is the sentinel. -/
  below : ∀ k ∈ pgm.keys, k < sentinel
  /-- There is a key. -/
  ne_nil : pgm.keys ≠ []
  /-- A vector is not longer. -/
  length_lt : pgm.keys.length < 2 ^ 63
  /-- The index is over the keys. -/
  size : pgm.index.n = pgm.keys.length
  /-- It starts with the first one. -/
  firstKey : pgm.index.firstKey = pgm.keys.headD 0
  /-- It has levels. -/
  leveled : pgm.index.Leveled
  /-- The bottom one is as the library promises. -/
  promises : pgm.index.Promises f epsilon pgm.keys

/-- A position is good for a query if it is within `epsilon` of the first rank of the query, or
the query is not stored. -/
def PGMWrapper.Near (epsilon : Nat) (pgm : PGMWrapper S V) (q : Key) (pos : Nat) : Prop :=
  q ∈ pgm.keys → lowerBound pgm.keys q pgm.keys.length ≤ pos + epsilon + 1 ∧
    pos ≤ lowerBound pgm.keys q pgm.keys.length + epsilon

theorem PGMWrapper.Loaded.sortedTo (h : pgm.Loaded f epsilon) :
    SortedTo pgm.keys pgm.keys.length :=
  sortedTo_of_pairwise h.sorted

theorem PGMWrapper.Loaded.firstKey_le (h : pgm.Loaded f epsilon) {q : Key} (hq : q ∈ pgm.keys) :
    pgm.index.firstKey ≤ q := by
  rw [h.firstKey]
  obtain ⟨k, ks, hk⟩ := List.exists_cons_of_ne_nil h.ne_nil
  have hsorted := h.sorted
  rw [hk] at hq hsorted ⊢
  rcases List.mem_cons.mp hq with rfl | hq
  · exact le_refl q
  · exact (List.pairwise_cons.mp hsorted).1 q hq

theorem PGMWrapper.Loaded.firstKey_lt (h : pgm.Loaded f epsilon) :
    pgm.index.firstKey < sentinel := by
  rw [h.firstKey]
  obtain ⟨k, ks, hk⟩ := List.exists_cons_of_ne_nil h.ne_nil
  exact h.below _ (by rw [hk]; exact List.mem_cons_self)

/-- The bisection of a window around a good position ends at the first rank of a stored query. -/
theorem PGMWrapper.Loaded.bisect (h : pgm.Loaded f epsilon) (hE : 2 * epsilon + 2 < 2 ^ 63)
    {q : Key} {pos : Nat} (hpos : pgm.Near epsilon q pos) :
    pgm.valueAt ((windowAround epsilon pgm.keys.length pos).bisect (probe pgm.keys q)) q =
      pgm.answer q := by
  rw [PGMWrapper.answer]
  by_cases hq : q ∈ pgm.keys
  · obtain ⟨h1, h2⟩ := hpos hq
    have hlt : lowerBound pgm.keys q pgm.keys.length < pgm.keys.length := by
      rw [lowerBound, List.take_length]
      exact List.findIdx_lt_length_of_exists ⟨q, hq, decide_eq_true (le_refl q)⟩
    have hlen := h.length_lt
    rw [bisect_eq_lowerBound h.sortedTo (windowAround_lo_le h2)
      (lt_windowAround_hi hlt h1 (by omega)).le windowAround_hi_le]
  · rw [Columns.valueAt_of_notMem hq, Columns.valueAt_of_notMem hq]

/-- The first rank of a stored query holds the query. -/
theorem PGMWrapper.Loaded.answer_of_mem (h : pgm.Loaded f epsilon) {q : Key}
    (hq : q ∈ pgm.keys) :
    ∃ v, pgm.values[lowerBound pgm.keys q pgm.keys.length]? = some v ∧ pgm.answer q = some v := by
  obtain ⟨j, hj⟩ := List.mem_iff_getElem?.mp hq
  have hlt := (List.getElem?_eq_some_iff.mp hj).1
  have hslot := Columns.bisect_hits h.sorted (w := ⟨0, pgm.keys.length⟩) (Nat.le_refl _) hj
    (Nat.zero_le j) hlt
  rw [bisect_zero_eq_lowerBound h.sortedTo] at hslot
  obtain ⟨v, hv⟩ := exists_getElem? pgm.values
    ((List.getElem?_eq_some_iff.mp hslot).1.trans_eq h.paired)
  exact ⟨v, hv, by rw [PGMWrapper.answer, Columns.valueAt, if_pos hslot, hv]⟩

/-- The answer says whether the query is a key. -/
theorem PGMWrapper.Loaded.isSome_answer (h : pgm.Loaded f epsilon) (q : Key) :
    (pgm.answer q).isSome = decide (q ∈ pgm.keys) := by
  by_cases hq : q ∈ pgm.keys
  · obtain ⟨v, _, hanswer⟩ := h.answer_of_mem hq
    simp [hanswer, hq]
  · rw [PGMWrapper.answer, Columns.valueAt_of_notMem hq]
    simp [hq]

/-- As many rounds as `calc_steps` gives end there too. -/
theorem PGMWrapper.Loaded.fixed (h : pgm.Loaded f epsilon) (hE : 2 * epsilon + 2 < 2 ^ 63)
    {pos : Key → Nat} (hpos : ∀ q ∈ queries, pgm.Near epsilon q (pos q)) (results : List V)
    (dflt : V) :
    lookupAll (fun q => pgm.valueAt ((Window.halve (probe pgm.keys q))^[(2 * epsilon + 2).size]
      (windowAround epsilon pgm.keys.length (pos q))).lo q) queries results dflt =
      lookupAll pgm.answer queries results dflt := by
  refine lookupAll_congr fun q hq => ?_
  rw [iterate_size windowAround_width_le]
  exact h.bisect hE (hpos q hq)

/-- The position of `search` is good. -/
theorem PGMWrapper.Loaded.search (h : pgm.Loaded f epsilon) {q : Key} (hq : q < sentinel) :
    (pgm.index.search f epsilon q).Ensures fun range => pgm.Near epsilon q range.pos := by
  refine (h.promises.search (max_lt h.firstKey_lt hq)).mono ?_
  rintro range ⟨it, s, t, hit, hs, ht, hpos⟩ hmem
  rw [max_eq_right (h.firstKey_le hmem)] at hit hpos
  have hposition := h.promises.position q hmem it s hit hs
  have hintercept := h.promises.intercept q hmem it t hit ht
  omega

/-- The position on the bottom level is good. -/
theorem PGMWrapper.Loaded.positionOnBottom (h : pgm.Loaded f epsilon) (q : Key) :
    (pgm.index.positionOnLevel f 0 q).Ensures (pgm.Near epsilon q) := by
  by_cases hq : q ∈ pgm.keys
  · obtain ⟨it, _, hit⟩ := h.promises.segmentForKey q (h.firstKey_le hq) (h.below q hq)
    obtain ⟨s, hs, hrest⟩ := id hit
    exact (h.promises.positionOnBottom h.leveled hit hs).ensures fun _ =>
      h.promises.position q hq it s hit hs
  · exact (h.leveled.positionOnLevel h.leveled.two_le q).mono fun _ _ hc => absurd hc hq

/-! ## The strategies -/

theorem PGMWrapper.Loaded.noPrefetch (h : pgm.Loaded f epsilon) (hE : 2 * epsilon + 2 < 2 ^ 63)
    (hqueries : ∀ q ∈ queries, q < sentinel) :
    (NoPrefetch.batchLookup f epsilon pgm queries results dflt).Returns
      (lookupAll pgm.answer queries results dflt) := by
  have hpos : ∀ q, ∃ pos, q < sentinel → pgm.Near epsilon q pos ∧
      (pgm.window f epsilon q).Returns (windowAround epsilon pgm.keys.length pos) := by
    intro q
    by_cases hq : q < sentinel
    · obtain ⟨range, hrange, hnear⟩ := h.search hq
      exact ⟨range.pos, fun _ => ⟨hnear, PGMWrapper.window_returns h.size hrange⟩⟩
    · exact ⟨0, fun hc => absurd hc hq⟩
  choose pos hpos using hpos
  have hserial := @serialLookup_returns _ _ _ pgm.toColumns queries results dflt _ _ h.paired
    fun q hq => ⟨(hpos q (hqueries q hq)).2, windowAround_hi_le⟩
  have hanswer : lookupAll (fun q => pgm.valueAt
      ((windowAround epsilon pgm.keys.length (pos q)).bisect (probe pgm.keys q)) q) queries results
        dflt = lookupAll pgm.answer queries results dflt :=
    lookupAll_congr fun q hq => h.bisect hE (hpos q (hqueries q hq)).1
  rw [hanswer] at hserial
  exact hserial

/-- Going down the levels does not leave them. -/
theorem PGMIndex.Leveled.navigate {idx : PGMIndex S} (h : idx.Leveled) {start size : Nat}
    (hsize : start + size ≤ queries.length) :
    (GroupPrefetch.navigate f idx queries start size).Ensures fun _ => True := by
  refine Ensures.mono (Ensures.forRange (fun _ => AllLanes size fun _ (_ : Nat) => True)
    (allLanes_replicate (a := 0) fun _ _ => trivial) fun j hj as has => ?_) fun _ _ => trivial
  refine Ensures.lanes has fun i _ hi _ => ?_
  obtain ⟨key, hkey⟩ := exists_getElem? queries (i := start + i) (by omega)
  obtain ⟨pos, hpos, _⟩ := h.positionOnLevel (f := f)
    (l := idx.levelsOffsets.length - 2 - j) (by omega) key
  obtain ⟨a, ha⟩ := exists_getElem? idx.levelsOffsets
    (i := idx.levelsOffsets.length - 2 - j - 1) (by omega)
  exact (returns_read.mpr hkey).seq (hpos.seq ((returns_read.mpr ha).seq (Ensures.pure trivial)))

/-- The groups end where the rounds on the windows of the bottom level end. -/
theorem PGMIndex.Leveled.groupLoop (h : pgm.index.Leveled)
    (hpaired : pgm.keys.length = pgm.values.length) (hN : 1 ≤ N) {pos : Key → Nat}
    (hpos : ∀ q, (pgm.index.positionOnLevel f 0 q).Returns (pos q)) (steps : Nat) :
    (groupLoop N (fun start size => do
      let _approxPos ← GroupPrefetch.navigate f pgm.index queries start size
      windowsOf (fun key => do
        let pos ← pgm.index.positionOnLevel f 0 key
        pure (windowAround epsilon pgm.keys.length pos)) queries start size)
      (fixedRounds steps) guardedRound pgm.toColumns queries
      (Out.fresh queries.length results dflt)).Returns
      (lookupAll (fun q => pgm.valueAt ((Window.halve (probe pgm.keys q))^[steps]
        (windowAround epsilon pgm.keys.length (pos q))).lo q) queries results dflt) := by
  refine @groupLoop_fixed _ _ _ pgm.toColumns queries results dflt N
    (fun q => windowAround epsilon pgm.keys.length (pos q)) _ hpaired hN guardedRound_halves _
    (fun _ _ => windowAround_hi_le) (fun start size hsize => ?_) steps
  refine (h.navigate hsize).bind fun _ _ => ?_
  exact windowsOf_ensures hsize fun q _ => (hpos q).bind (returns_pure.mpr rfl)

theorem PGMWrapper.Loaded.groupPrefetch (h : pgm.Loaded f epsilon)
    (hE : 2 * epsilon + 2 < 2 ^ 63) (hN : 1 ≤ N) :
    (GroupPrefetch.batchLookup N f epsilon pgm queries results dflt).Returns
      (lookupAll pgm.answer queries results dflt) := by
  choose pos hreturns hnear using h.positionOnBottom
  refine onData_returns fun _ _ => (bsearchSteps_returns hE).bind ?_
  have hgroups := @PGMIndex.Leveled.groupLoop _ _ f epsilon N pgm queries results dflt h.leveled
    h.paired hN pos hreturns (2 * epsilon + 2).size
  rw [h.fixed hE fun q _ => hnear q] at hgroups
  exact hgroups

/-- The descent of a slot: `d` levels are left below this one. -/
def PGMIndex.Toward (idx : PGMIndex S) (_key : Key) (d : Nat) (r : Descent) : Prop :=
  r.currentLevel = d ∧ d + 1 < idx.levelsOffsets.length

theorem PGMIndex.Leveled.internalSearch (h : pgm.index.Leveled) {pos : Key → Nat}
    (hpos : ∀ q, (pgm.index.positionOnLevel f 0 q).Returns (pos q)) :
    (pgm.internalSearch f epsilon).Sound queries
      (fun q => windowAround epsilon pgm.keys.length (pos q)) pgm.index.Toward
        (pgm.index.levelsOffsets.length - 2) where
  start key _ := by
    have hlen := h.two_le
    refine ⟨?_, by omega⟩
    show (pgm.index.levelsOffsets.length : Int) - 2 = _
    omega
  step key _ d r hr := by
    obtain ⟨level, approxPos⟩ := r
    obtain ⟨rfl, hlt⟩ : level = d ∧ d + 1 < pgm.index.levelsOffsets.length := hr
    simp only [PGMWrapper.internalSearch]
    rw [if_pos (Int.natCast_nonneg d), Int.toNat_natCast]
    cases d with
    | zero => exact (hpos key).seq (Ensures.pure rfl)
    | succ d =>
        obtain ⟨p, hp, _⟩ := h.positionOnLevel (f := f) hlt key
        obtain ⟨a, ha⟩ := exists_getElem? pgm.index.levelsOffsets (i := d) (by omega)
        refine hp.seq ?_
        rw [if_pos (Int.natCast_pos.mpr (Nat.succ_pos d))]
        refine (returns_read.mpr ha).seq (Ensures.pure ⟨d, Nat.lt_succ_self d, ?_, by omega⟩)
        show ((d + 1 : Nat) : Int) - 1 = d
        omega

/-- The state machines end where the rounds on the windows of the bottom level end. -/
theorem PGMIndex.Leveled.amacSearch (h : pgm.index.Leveled)
    (hpaired : pgm.keys.length = pgm.values.length) (hN : 1 ≤ N) {pos : Key → Nat}
    (hpos : ∀ q, (pgm.index.positionOnLevel f 0 q).Returns (pos q)) (steps : Nat) :
    (amacSearch N (pgm.internalSearch f epsilon) ⟨.done, 0, 0, 0, 0, ⟨0, 0⟩⟩
      (fun s i => { s with state := .init, i := i }) steps pgm.toColumns queries
      (Out.fresh queries.length results dflt)).Ensures fun st =>
        st.out = lookupAll (fun q => pgm.valueAt ((Window.halve (probe pgm.keys q))^[steps]
          (windowAround epsilon pgm.keys.length (pos q))).lo q) queries results dflt := by
  refine Ensures.mono (amacSearch_ensures _ _ hpaired hN (h.internalSearch hpos) rfl
    (fun _ _ => ⟨rfl, rfl⟩) fun _ _ => windowAround_hi_le) ?_
  intro st hst
  exact hst.1

theorem PGMWrapper.Loaded.amacSearch (h : pgm.Loaded f epsilon) (hE : 2 * epsilon + 2 < 2 ^ 63)
    (hN : 1 ≤ N) :
    (AMACSearch.batchLookup N f epsilon pgm queries results dflt).Returns
      (lookupAll pgm.answer queries results dflt) := by
  choose pos hreturns hnear using h.positionOnBottom
  refine onData_returns fun _ _ => (bsearchSteps_returns hE).bind ?_
  obtain ⟨st, hst, hout⟩ := h.leveled.amacSearch h.paired hN hreturns (2 * epsilon + 2).size
  exact hst.bind (returns_pure.mpr (hout.trans (h.fixed hE (fun q _ => hnear q) results dflt)))

end FirstRank

/-! ## Loaded wrappers -/

/-- The strategies that go down the levels by hand return what `NoPrefetch` returns: a query is
found if and only if it is a key, and then with the value at its first rank. -/
theorem navigating_agree {f : Floating S} {segmentation : Segmentation S} {epsilon : Nat}
    (hE : 2 * epsilon + 2 < 2 ^ 63) {inputData : List (Key × V)} (hne : inputData ≠ [])
    (hsorted : (inputData.map Prod.fst).Pairwise (· ≤ ·))
    (hbelow : ∀ k ∈ inputData.map Prod.fst, k < sentinel) (hlen : inputData.length < 2 ^ 63)
    {pgm : PGMWrapper S V}
    (hload : (PGMWrapper.empty.bulkLoad f segmentation epsilon inputData).Returns pgm)
    (hindex : pgm.index.Promises f epsilon pgm.keys) {N : Nat} (hN : 1 ≤ N) {queries : List Key}
    (hqueries : ∀ q ∈ queries, q < sentinel) (results : List V) (dflt : V) :
    ∃ out, (NoPrefetch.batchLookup f epsilon pgm queries results dflt).Returns out ∧
      (GroupPrefetch.batchLookup N f epsilon pgm queries results dflt).Returns out ∧
      (AMACSearch.batchLookup N f epsilon pgm queries results dflt).Returns out ∧
      out.found.length = queries.length ∧ out.results.length = queries.length ∧
      ∀ (i : Nat) (q : Key), queries[i]? = some q → out.found[i]? = some (decide (q ∈ pgm.keys)) ∧
        (q ∈ pgm.keys → out.results[i]? = pgm.values[lowerBound pgm.keys q pgm.keys.length]?) ∧
        (q ∉ pgm.keys → out.results[i]? = some (results[i]?.getD dflt)) := by
  obtain ⟨hkeys, hvalues, hn, hfirst, hleveled⟩ := PGMWrapper.bulkLoad_inv hload
  have h : pgm.Loaded f epsilon :=
    ⟨by rw [hkeys, hvalues, List.length_map, List.length_map], hkeys ▸ hsorted, hkeys ▸ hbelow,
      by rw [hkeys]; simpa using hne, by rw [hkeys, List.length_map]; exact hlen, hn, hfirst,
      hleveled hne, hindex⟩
  refine ⟨_, h.noPrefetch hE hqueries, h.groupPrefetch hE hN, h.amacSearch hE hN,
    length_found_lookupAll, length_results_lookupAll, fun i q hq => ?_⟩
  rw [found_lookupAll hq, results_lookupAll hq, h.isSome_answer]
  refine ⟨rfl, fun hmem => ?_, fun hmem => ?_⟩
  · obtain ⟨v, hv, hanswer⟩ := h.answer_of_mem hmem
    rw [hanswer, hv, Option.getD_some]
  · rw [PGMWrapper.answer, Columns.valueAt_of_notMem hmem, Option.getD_none]

/-! ## Two keys in one segment -/

theorem twoKeys_responsible {slope : Nat × Nat} {b k : Key} {it : Nat} (hk : k < sentinel)
    (h : (twoKeys slope b).index.Responsible k it) : it = 0 := by
  obtain ⟨s, hs, hle, _⟩ := h
  match it, hs with
  | 0, _ => rfl
  | 1, hs =>
      cases hs
      exact absurd hle (not_le.mpr hk)

theorem twoKeys_promises {slope : Nat × Nat} {b : Key} {epsilon : Nat} (hb : 1 < b)
    (hlt : b < sentinel) (hE : 1 ≤ epsilon)
    (hpos : Segment.position fractions ⟨1, slope, 0⟩ b ≤ 1 + epsilon) :
    (twoKeys slope b).index.Promises fractions epsilon [1, b] := by
  have hbelow : ∀ k ∈ [1, b], k < sentinel := by
    intro k hk
    rcases List.mem_pair.mp hk with rfl | rfl
    · exact hb.trans hlt
    · exact hlt
  have hrank : ∀ k, lowerBound [1, b] k 2 ≤ 2 := fun k => lowerBound_le _ _ _
  have hrankb : lowerBound [1, b] b 2 = 1 := by
    simp [lowerBound, List.findIdx_cons, decide_eq_false (not_le.mpr hb)]
  refine ⟨?_, rfl, fun k hk hlt => ?_, fun k hk it s hit hs => ?_, fun k hk it t hit ht => ?_⟩
  · exact List.pairwise_pair.mpr (hb.trans hlt)
  · refine Returns.ensures (a := 0) ((returns_read.mpr rfl).bind (returns_pure.mpr rfl)) ?_
    refine ⟨⟨1, slope, 0⟩, rfl, hk, fun j t hj ht => ?_⟩
    match j, hj, ht with
    | 1, _, ht =>
        cases ht
        exact hlt
  · obtain rfl := twoKeys_responsible (hbelow k hk) hit
    cases hs
    refine ⟨(hrank k).trans (by omega), ?_⟩
    rcases List.mem_pair.mp hk with rfl | rfl
    · have hzero : Segment.position fractions ⟨1, slope, 0⟩ 1 = 0 := by
        simp [Segment.position, fractions]
      rw [hzero]
      exact Nat.zero_le _
    · exact hpos.trans_eq (congrArg (· + epsilon) hrankb.symm)
  · obtain rfl := twoKeys_responsible (hbelow k hk) hit
    cases ht
    exact (hrank k).trans (Nat.le_add_right 2 epsilon)

theorem navigating_agree_twoKeys :
    ∃ out, (NoPrefetch.batchLookup fractions 1 (twoKeys (1, 5) 11) [11, 5] [7] 0).Returns out ∧
      (GroupPrefetch.batchLookup 2 fractions 1 (twoKeys (1, 5) 11) [11, 5] [7] 0).Returns out ∧
      (AMACSearch.batchLookup 2 fractions 1 (twoKeys (1, 5) 11) [11, 5] [7] 0).Returns out ∧
      out.found.length = 2 ∧ out.results.length = 2 ∧
      ∀ (i : Nat) (q : Key), [11, 5][i]? = some q →
        out.found[i]? = some (decide (q ∈ [1, 11])) ∧
        (q ∈ [1, 11] → out.results[i]? = [10, 20][lowerBound [1, 11] q 2]?) ∧
        (q ∉ [1, 11] → out.results[i]? = some ([7][i]?.getD 0)) :=
  navigating_agree (by decide) (by decide) (by decide)
    (fun k hk => lt_sentinel_iff.mpr fun hc => absurd (hc ▸ hk) (by decide)) (by decide)
    (twoKeys_load (by decide) (by decide) (by decide))
    (twoKeys_promises (by decide) (lt_sentinel_iff.mpr (by decide)) (by decide) (by decide))
    (by decide) (fun q hq => lt_sentinel_iff.mpr fun hc => absurd (hc ▸ hq) (by decide)) [7] 0

/-- For `Epsilon = 2^63 - 1` the number of rounds is zero: `GroupPrefetch` and `AMACSearch` look at
the lower end of the window only, and miss the second key. -/
theorem navigating_misses :
    (PGMWrapper.empty.bulkLoad fractions (oneSegment (5, 8)) (2 ^ 63 - 1)
        [(1, 10), (14757395258967638017, 20)]).Returns (twoKeys (5, 8) 14757395258967638017) ∧
      (twoKeys (5, 8) 14757395258967638017).index.Promises fractions (2 ^ 63 - 1)
        [1, 14757395258967638017] ∧
      (NoPrefetch.batchLookup fractions (2 ^ 63 - 1) (twoKeys (5, 8) 14757395258967638017)
        [14757395258967638017] [] 0).Returns ⟨[true], [20]⟩ ∧
      (GroupPrefetch.batchLookup 1 fractions (2 ^ 63 - 1) (twoKeys (5, 8) 14757395258967638017)
        [14757395258967638017] [] 0).Returns ⟨[false], [0]⟩ ∧
      (AMACSearch.batchLookup 1 fractions (2 ^ 63 - 1) (twoKeys (5, 8) 14757395258967638017)
        [14757395258967638017] [] 0).Returns ⟨[false], [0]⟩ := by
  refine ⟨twoKeys_load (by decide) (by decide) (by decide),
    twoKeys_promises (by decide) (lt_sentinel_iff.mpr (by decide)) (by decide) (by decide),
    ⟨9, by rfl⟩, ⟨9, by rfl⟩, ⟨9, by rfl⟩⟩

end PGM
