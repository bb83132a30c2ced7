import PrefetchBench.Memory.Rows
import PrefetchBench.PGM.Navigation

/-!
# Reads of the PGM lookups

`segment_for_key` scans a level without looking at where it ends: it relies on the sentinel key of
the last segment, and on a start of the scan that is not behind it.  Both follow from how `build`
closes a level (`Closed`) and from how the intercepts of a level are bounded by the number of
segments of the level below (`Stacked`).  A query that is the sentinel itself is not stopped.

So the strategies read existing elements only, if and only if the wrapper has keys or there are no
queries, and no query is the sentinel where there is a level to scan (`lookups_safe_iff`).
-/

namespace PGM

open Prog KeyArray Ranges Windowed Batch

variable {S V : Type}

/-! ## Levels -/

/-- What the library documents about `make_segmentation`: the first segment starts with the first
key, and a segment starts at most `epsilon` above the rank of its first key. -/
structure Segmentation.Documented (segmentation : Segmentation S) : Prop where
  /-- The key of the first segment. -/
  head : ∀ {epsilon key keys out}, (segmentation.segments epsilon (key :: keys)).Returns out →
    (out.map Segment.key).head? = some key
  /-- The intercepts, where some error is allowed. -/
  intercept_le : ∀ {epsilon keys out}, 0 < epsilon →
    (segmentation.segments epsilon keys).Returns out →
      ∀ s ∈ out, s.intercept.val ≤ keys.length + epsilon

/-- A level of `count` segments, and the one or two that close it. -/
structure Closed (first : Key) (bound count : Nat) (level : List (Segment S)) : Prop where
  /-- There is a segment. -/
  pos : 1 ≤ count
  /-- Behind the segments there is another one. -/
  room : count < level.length
  /-- The first segment starts with the first key. -/
  head : (level.map Segment.key).head? = some first
  /-- The last one is the sentinel. -/
  last : (level.map Segment.key).getLast? = some sentinel
  /-- The intercepts. -/
  intercept_le : ∀ s ∈ level, s.intercept.val ≤ bound

/-- The levels of an index from the bottom up; the intercepts of a level are bounded by the number
of segments below.  `count` is the number of segments of the root level. -/
inductive Stacked (first : Key) (bottom : Nat) : Nat → List (List (Segment S)) → Prop where
  | bottom {count : Nat} {level : List (Segment S)} :
      Closed first bottom count level → Stacked first bottom count [level]
  | above {count count' : Nat} {levels : List (List (Segment S))} {level : List (Segment S)} :
      Stacked first bottom count levels → Closed first (count + epsilonRecursive) count' level →
      Stacked first bottom count' (levels ++ [level])

section Building

variable {f : Floating S} {segmentation : Segmentation S} {epsilon : Nat} {first last : Key}

theorem closeLevel_sentinel {lastN nSegments : Nat} {back : Segment S} (h : back.key = sentinel) :
    closeLevel f last lastN nSegments back = ([], nSegments - 1) := if_pos h

/-- Otherwise flat segments are added, the sentinel last. -/
theorem closeLevel_flat {lastN nSegments : Nat} {back : Segment S} (h : back.key ≠ sentinel) :
    ∃ flat, closeLevel f last lastN nSegments back =
      (flat ++ [flatSegment f sentinel lastN], nSegments) ∧
        ∀ s ∈ flat, ∃ key, s = flatSegment f key lastN := by
  rw [closeLevel, if_neg h]
  split
  · refine ⟨[flatSegment f (last + 1) lastN], rfl, fun s hs => ?_⟩
    exact ⟨last + 1, List.mem_singleton.mp hs⟩
  · exact ⟨[], rfl, fun s hs => absurd hs List.not_mem_nil⟩

theorem flatSegment_intercept_le (key : Key) (lastN : Nat) :
    (flatSegment f key lastN).intercept.val ≤ lastN := Nat.mod_le lastN (2 ^ 32)

/-- A level that is built is closed. -/
theorem buildLevel_closed (hlib : segmentation.Documented) (hε : 0 < epsilon)
    (hfirst : first ≠ sentinel) {keys : List Key} {st st' : Levels S}
    (h : (buildLevel f segmentation epsilon last (first :: keys) st).Returns st') :
    ∃ level, Closed first ((first :: keys).length + epsilon) st'.lastN level ∧
      st'.segments = st.segments ++ level ∧
      st'.levelsOffsets = st.levelsOffsets ++ [(st.segments ++ level).length] := by
  obtain ⟨out, hout, h⟩ := returns_bind.mp h
  obtain ⟨back, hback, h⟩ := returns_bind.mp h
  obtain rfl := returns_pure.mp h
  refine ⟨_, ?_, rfl, rfl⟩
  have hhead := hlib.head hout
  have hintercept := hlib.intercept_le hε hout
  obtain ⟨s, tail, rfl⟩ := List.exists_cons_of_ne_nil (segmentation.ne_nil hout)
  have hlast : (s :: tail).getLast? = some back := by
    rw [returns_ofOption, List.getLast?_append, List.getLast?_cons] at hback
    rw [List.getLast?_cons]
    exact hback
  by_cases hsentinel : back.key = sentinel
  · -- the segmentation has handed out the sentinel itself, behind the first segment
    rw [closeLevel_sentinel hsentinel, List.append_nil]
    cases tail with
    | nil =>
        obtain rfl : s = back := by simpa using hlast
        exact absurd (Option.some.inj hhead).symm (hsentinel ▸ hfirst)
    | cons t tail =>
        refine ⟨Nat.succ_pos _, Nat.lt_succ_self _, hhead, ?_, hintercept⟩
        rw [List.getLast?_map, hlast, Option.map_some, hsentinel]
  · obtain ⟨flat, hclose, hflat⟩ := @closeLevel_flat _ f last (first :: keys).length
      (s :: tail).length back hsentinel
    rw [hclose]
    refine ⟨Nat.succ_pos _, ?_, hhead, ?_, fun t ht => ?_⟩
    · simp only [List.length_append, List.length_singleton]
      omega
    · rw [← List.append_assoc, List.map_append, List.map_singleton, List.getLast?_concat]
      rfl
    · have hle : ∀ key, (flatSegment f key (first :: keys).length).intercept.val ≤
          (first :: keys).length + epsilon :=
        fun key => (flatSegment_intercept_le key _).trans (Nat.le_add_right _ _)
      rcases List.mem_append.mp ht with ht | ht
      · exact hintercept t ht
      · rcases List.mem_append.mp ht with ht | ht
        · obtain ⟨key, rfl⟩ := hflat t ht
          exact hle key
        · rw [List.mem_singleton.mp ht]
          exact hle sentinel

/-- The root level. -/
theorem Stacked.root {bottom count : Nat} {levels : List (List (Segment S))}
    (h : Stacked first bottom count levels) :
    ∃ lower level bound, levels = lower ++ [level] ∧ Closed first bound count level := by
  cases h with
  | bottom hlevel => exact ⟨[], _, _, rfl, hlevel⟩
  | above _ hlevel => exact ⟨_, _, _, rfl, hlevel⟩

/-- The bottom level. -/
theorem Stacked.bottom_closed {bottom count : Nat} {levels : List (List (Segment S))}
    (h : Stacked first bottom count levels) :
    ∃ level count', levels[0]? = some level ∧ Closed first bottom count' level := by
  induction h with
  | bottom hlevel => exact ⟨_, _, rfl, hlevel⟩
  | above _ _ ih =>
      obtain ⟨level, count', hget, hlevel⟩ := ih
      exact ⟨level, count', by rw [List.getElem?_append_left (by grind), hget], hlevel⟩

/-- A level and the one above it. -/
theorem Stacked.closed {bottom count : Nat} {levels : List (List (Segment S))}
    (h : Stacked first bottom count levels) {l : Nat} {lower upper : List (Segment S)}
    (hlower : levels[l]? = some lower) (hupper : levels[l + 1]? = some upper) :
    ∃ bound count count', Closed first bound count lower ∧
      Closed first (count + epsilonRecursive) count' upper := by
  induction h with
  | bottom => cases hupper
  | @above count count' levels level h hlevel ih =>
      rcases Nat.lt_trichotomy (l + 1) levels.length with hlt | heq | hgt
      · rw [List.getElem?_append_left (by omega)] at hlower
        rw [List.getElem?_append_left hlt] at hupper
        exact ih hlower hupper
      · -- the new level and the root below it
        obtain ⟨below, root, bound, rfl, hroot⟩ := h.root
        have hl : l = below.length := by simpa using heq
        rw [List.getElem?_append_left (by omega), hl, List.getElem?_concat_length] at hlower
        rw [heq, List.getElem?_concat_length] at hupper
        cases hlower
        cases hupper
        exact ⟨_, _, _, hroot, hlevel⟩
      · rw [List.getElem?_eq_none (by simp; omega)] at hupper
        cases hupper

/-- The levels that `build` has stored so far. -/
structure Levels.Storing (first : Key) (bottom : Nat) (st : Levels S)
    (levels : List (List (Segment S))) : Prop where
  /-- How they lie on each other. -/
  stacked : Stacked first bottom st.lastN levels
  /-- They are stored back to back. -/
  segments : st.segments = levels.flatten
  /-- Where they start. -/
  offsets : st.levelsOffsets = Rows.offsets levels

theorem Levels.Storing.buildLevel {bottom : Nat} {st st' : Levels S}
    {levels : List (List (Segment S))} (hst : st.Storing first bottom levels)
    (hlib : segmentation.Documented) (hfirst : first ≠ sentinel) {offset : Nat}
    (hoffset : (read st.levelsOffsets (st.levelsOffsets.length - 2)).Returns offset)
    (h : (buildLevel f segmentation epsilonRecursive last
      (((st.segments.drop offset).take st.lastN).map Segment.key) st).Returns st') :
    ∃ level, st'.Storing first bottom (levels ++ [level]) := by
  obtain ⟨below, root, bound, rfl, hroot⟩ := hst.stacked.root
  -- the keys are those of the root level
  have hget : (below ++ [root])[below.length]? = some root := List.getElem?_concat_length
  have hstart : offset = Rows.start (below ++ [root]) below.length := by
    have hindex : (below ++ [root]).length + 1 - 2 = below.length := by simp
    rw [returns_read, hst.offsets, Rows.length_offsets, hindex,
      Rows.getElem?_offsets (by simp)] at hoffset
    exact (Option.some.inj hoffset).symm
  have hkeys : (st.segments.drop offset).take st.lastN = root.take st.lastN := by
    rw [hst.segments, hstart, Rows.drop_start_of_getElem? hget,
      List.take_append_of_le_length hroot.room.le]
  obtain ⟨s, rest, rfl⟩ := List.exists_cons_of_ne_nil
    (List.length_pos_iff.mp (Nat.zero_lt_of_lt hroot.room))
  obtain rfl : s.key = first := Option.some.inj hroot.head
  obtain ⟨n, hn⟩ := Nat.exists_eq_succ_of_ne_zero (Nat.one_le_iff_ne_zero.mp hroot.pos)
  rw [hkeys, hn, Nat.succ_eq_add_one, List.take_succ_cons, List.map_cons] at h
  obtain ⟨level, hlevel, hsegments, hoffsets⟩ := buildLevel_closed hlib (by decide) hfirst h
  have hflat : (below ++ [s :: rest] ++ [level]).flatten = st.segments ++ level := by
    rw [hst.segments]
    exact List.flatten_concat
  refine ⟨level, .above hst.stacked ?_, hsegments.trans hflat.symm, ?_⟩
  · have hlen : (s.key :: (rest.take n).map Segment.key).length = st.lastN := by
      have hroom := hroot.room
      rw [List.length_cons] at hroom
      rw [List.length_cons, List.length_map, List.length_take, hn]
      omega
    rw [← hlen]
    exact hlevel
  · rw [hoffsets, hst.offsets, ← hflat, ← Rows.offsets_concat]

/-- The levels of an index. -/
structure PGMIndex.Layered (first : Key) (bottom : Nat) (idx : PGMIndex S)
    (levels : List (List (Segment S))) : Prop where
  /-- How they lie on each other. -/
  stacked : ∃ count, Stacked first bottom count levels
  /-- They are stored back to back. -/
  segments : idx.segments = levels.flatten
  /-- Where they start. -/
  offsets : idx.levelsOffsets = Rows.offsets levels

/-- The room that `build` reserves is a quotient by the square of the error. -/
theorem build_epsilon_pos {data : List Key} (hdata : data ≠ []) {r : List (Segment S) × List Nat}
    (h : (build f segmentation epsilon data).Returns r) : 0 < epsilon := by
  rw [build, List.getLast?_eq_some_getLast hdata] at h
  obtain ⟨hsquare, _⟩ := returns_assert_bind.mp h
  apply Nat.pos_of_ne_zero
  rintro rfl
  exact absurd hsquare (by decide)

theorem build_layered (hlib : segmentation.Documented) {keys : List Key}
    (hfirst : first ≠ sentinel) {r : List (Segment S) × List Nat}
    (h : (build f segmentation epsilon (first :: keys)).Returns r) {n : Nat} {firstKey : Key} :
    ∃ levels, (⟨n, firstKey, r.1, r.2⟩ : PGMIndex S).Layered first
      ((first :: keys).length + epsilon) levels := by
  have hinv : ∃ st : Levels S,
      (∃ levels, st.Storing first ((first :: keys).length + epsilon) levels) ∧
        r = (st.segments, st.levelsOffsets) := by
    have hε := build_epsilon_pos (List.cons_ne_nil first keys) h
    refine build_inv (List.cons_ne_nil first keys) ?_ ?_ h
    · intro st hst
      obtain ⟨level, hlevel, hsegments, hoffsets⟩ := buildLevel_closed hlib hε hfirst hst
      refine ⟨[level], .bottom hlevel, by simpa using hsegments, ?_⟩
      rw [hoffsets, ← List.nil_append [level], Rows.offsets_concat]
      simp [Rows.offsets]
    · rintro st st' offset ⟨levels, hst⟩ hoffset hbody
      obtain ⟨level, hlevel⟩ := hst.buildLevel hlib hfirst hoffset hbody
      exact ⟨_, hlevel⟩
  obtain ⟨st, ⟨levels, hlevels⟩, rfl⟩ := hinv
  exact ⟨levels, ⟨_, hlevels.stacked⟩, hlevels.segments, hlevels.offsets⟩

end Building

/-! ## Searching -/

/-- Segment `it` is on level `l`, and not the last one there. -/
def OnLevel (levels : List (List (Segment S))) (l it : Nat) : Prop :=
  ∃ level i, levels[l]? = some level ∧ i + 1 < level.length ∧ it = Rows.start levels l + i

section Searching

variable {f : Floating S} {idx : PGMIndex S} {first : Key} {bottom : Nat}
  {levels : List (List (Segment S))} {epsilon l : Nat} {k : Key}

theorem PGMIndex.Layered.read (h : idx.Layered first bottom levels) {level : List (Segment S)}
    (hlevel : levels[l]? = some level) {i : Nat} (hi : i < level.length) :
    (Prog.read idx.segments (Rows.start levels l + i)).Returns level[i] := by
  rw [returns_read, h.segments, Rows.getElem?_flatten hlevel hi, List.getElem?_eq_getElem hi]

/-- On a level the clamped prediction is within the bound of its intercepts. -/
theorem PGMIndex.Layered.clampedPosition (h : idx.Layered first bottom levels)
    {level : List (Segment S)} (hlevel : levels[l]? = some level) {bound count i : Nat}
    (hclosed : Closed first bound count level) (hi : i + 1 < level.length) (k : Key) :
    (idx.clampedPosition f (Rows.start levels l + i) k).Ensures (· ≤ bound) := by
  refine (h.read hlevel (Nat.lt_of_succ_lt hi)).seq ((h.read hlevel hi).seq (Ensures.pure ?_))
  exact (Nat.min_le_right _ _).trans (hclosed.intercept_le _ (List.getElem_mem hi))

/-- The scan of a level ends at the sentinel of the level. -/
theorem PGMIndex.Layered.scanLevel (h : idx.Layered first bottom levels)
    {level : List (Segment S)} (hlevel : levels[l]? = some level) {bound count i : Nat}
    (hclosed : Closed first bound count level) (hi : i + 1 < level.length) (hk : k < sentinel) :
    (idx.scanLevel k (Rows.start levels l + i)).Ensures (OnLevel levels l) := by
  refine Ensures.loop (fun m it => ∃ i, i + 1 < level.length ∧ m = level.length - i ∧
    it = Rows.start levels l + i) ?_ _ _ ⟨i, hi, rfl, rfl⟩
  rintro m it ⟨i, hi, rfl, rfl⟩
  refine (h.read hlevel hi).seq ?_
  split
  · rename_i hle
    refine Ensures.pure ⟨_, ?_, i + 1, ?_, rfl, rfl⟩
    · omega
    · -- the segment behind the last one would be the sentinel
      refine lt_of_le_of_ne hi fun hc => ?_
      have hlast := hclosed.last
      rw [List.getLast?_eq_getElem?, List.length_map, List.getElem?_map,
        show level.length - 1 = i + 1 by omega, List.getElem?_eq_getElem hi, Option.map_some,
        Option.some.injEq] at hlast
      exact absurd (hlast ▸ hle) (not_le.mpr hk)
  · exact Ensures.pure ⟨level, i, hlevel, hi, rfl⟩

/-- Going down one level. -/
theorem PGMIndex.Layered.descend (h : idx.Layered first bottom levels) (hk : k < sentinel)
    {it : Nat} (hit : OnLevel levels (l + 1) it) :
    (do
      let levelBegin ← Prog.read idx.levelsOffsets l
      let pos ← idx.clampedPosition f it k
      idx.scanLevel k (levelBegin + subEps pos (epsilonRecursive + 1))).Ensures
        (OnLevel levels l) := by
  obtain ⟨upper, i, hupper, hi, rfl⟩ := hit
  have hlt := (List.getElem?_eq_some_iff.mp hupper).1
  obtain ⟨lower, hlower⟩ := exists_getElem? levels (i := l) (by omega)
  obtain ⟨_, hstacked⟩ := h.stacked
  obtain ⟨bound, count, count', hclosed, habove⟩ := hstacked.closed hlower hupper
  have hbegin : (Prog.read idx.levelsOffsets l).Returns (Rows.start levels l) := by
    rw [returns_read, h.offsets, Rows.getElem?_offsets (by omega)]
  refine hbegin.seq ((h.clampedPosition hupper habove hi k).bind fun pos hpos => ?_)
  refine h.scanLevel hlower hclosed ?_ hk
  -- the scan starts at one of the segments in front of the closing ones
  have hcount := hclosed.pos
  have hroom := hclosed.room
  rw [epsilonRecursive] at hpos ⊢
  rw [subEps]
  split <;> omega

theorem PGMIndex.Layered.segmentForKey (h : idx.Layered first bottom levels)
    (hk : 2 < idx.levelsOffsets.length → k < sentinel) :
    (idx.segmentForKey f k).Ensures (OnLevel levels 0) := by
  obtain ⟨_, hstacked⟩ := h.stacked
  obtain ⟨below, root, bound, rfl, hclosed⟩ := hstacked.root
  have hlen : idx.levelsOffsets.length = below.length + 2 := by
    rw [h.offsets, Rows.length_offsets, List.length_append, List.length_singleton]
  have hroot : (Prog.read idx.levelsOffsets (idx.levelsOffsets.length - 2)).Returns
      (Rows.start (below ++ [root]) below.length) := by
    rw [returns_read, hlen, Nat.add_sub_cancel, h.offsets, Rows.getElem?_offsets (by simp)]
  refine hroot.seq ?_
  rw [hlen, Nat.add_sub_cancel]
  refine Ensures.mono (Ensures.forRange
    (fun j it => OnLevel (below ++ [root]) (below.length - j) it) ?_ ?_) fun it hit => ?_
  · refine ⟨root, 0, List.getElem?_concat_length, ?_, rfl⟩
    exact Nat.lt_of_le_of_lt hclosed.pos hclosed.room
  · intro j hj it hit
    have hlevel : below.length - j = below.length - (j + 1) + 1 := by omega
    have hoffset : below.length + 2 - 3 - j = below.length - (j + 1) := by omega
    rw [hlevel] at hit
    rw [hoffset]
    exact h.descend (hk (by omega)) hit
  · rwa [Nat.sub_self] at hit

theorem PGMIndex.Layered.search (h : idx.Layered first bottom levels)
    (hk : 2 < idx.levelsOffsets.length → max idx.firstKey k < sentinel) :
    (idx.search f epsilon k).Ensures fun range => range.pos ≤ bottom := by
  refine (h.segmentForKey hk).bind ?_
  rintro it ⟨level, i, hlevel, hi, rfl⟩
  obtain ⟨_, hstacked⟩ := h.stacked
  obtain ⟨_, _, hget, hclosed⟩ := hstacked.bottom_closed
  cases hget.symm.trans hlevel
  refine (h.clampedPosition hlevel hclosed hi _).bind fun pos hpos => ?_
  exact Ensures.pure hpos

/-- The sentinel does not stop the scan for itself. -/
theorem PGMIndex.not_scanLevel_sentinel (idx : PGMIndex S) (lo it : Nat) :
    ¬ (idx.scanLevel sentinel lo).Returns it := by
  intro h
  refine Returns.loop_inv (P := fun _ => True) (Q := fun _ => False) (fun _ _ _ _ => trivial)
    (fun lo it _ hit => ?_) trivial h
  obtain ⟨next, _, hit⟩ := returns_bind.mp hit
  rw [if_pos (le_sentinel next.key)] at hit
  cases returns_pure.mp hit

theorem PGMIndex.not_search_sentinel (hlen : 2 < idx.levelsOffsets.length) (range : ApproxPos) :
    ¬ (idx.search f epsilon sentinel).Returns range := by
  intro h
  obtain ⟨it, hit, _⟩ := returns_bind.mp h
  rw [max_eq_right (le_sentinel idx.firstKey)] at hit
  obtain ⟨root, _, hit⟩ := returns_bind.mp hit
  obtain ⟨t, t', ht⟩ := hit.forRange_inv 0 (by omega)
  obtain ⟨levelBegin, _, ht⟩ := returns_bind.mp ht
  obtain ⟨pos, _, ht⟩ := returns_bind.mp ht
  exact idx.not_scanLevel_sentinel _ _ ht

/-- An index that has not been built has no level to start at. -/
theorem PGMIndex.not_search_empty (hoffsets : idx.levelsOffsets = []) (range : ApproxPos) :
    ¬ (idx.search f epsilon k).Returns range := by
  intro h
  obtain ⟨it, hit, _⟩ := returns_bind.mp h
  obtain ⟨root, hroot, _⟩ := returns_bind.mp hit
  rw [hoffsets] at hroot
  cases returns_read.mp hroot

end Searching

/-! ## The strategies -/

/-- A lookup reads existing elements only, and without keys it finds nothing. -/
def Safe (pgm : PGMWrapper S V) (queries : List Key) (lookup : Prog (Out V)) : Prop :=
  lookup.Ensures fun out => pgm.keys = [] → out.found = List.replicate queries.length false

/-- All strategies do. -/
structure AllSafe (N : Nat) (f : Floating S) (epsilon : Nat) (pgm : PGMWrapper S V)
    (queries : List Key) (results : List V) (dflt : V) : Prop where
  /-- `NoPrefetch` -/
  noPrefetch : Safe pgm queries (NoPrefetch.batchLookup f epsilon pgm queries results dflt)
  /-- `StaticSPP` -/
  staticSPP : Safe pgm queries (StaticSPP.batchLookup N f epsilon pgm queries results dflt)
  /-- `VectorizedSearch` -/
  vectorizedSearch :
    Safe pgm queries (VectorizedSearch.batchLookup N f epsilon pgm queries results dflt)
  /-- `GroupPrefetch` -/
  groupPrefetch :
    Safe pgm queries (GroupPrefetch.batchLookup N f epsilon pgm queries results dflt)
  /-- `AMACSearch` -/
  amacSearch : Safe pgm queries (AMACSearch.batchLookup N f epsilon pgm queries results dflt)

section Strategies

variable {f : Floating S} {epsilon N : Nat} {pgm : PGMWrapper S V} {queries : List Key}
  {results : List V} {dflt : V} {pos : Key → Nat}

/-- The strategies that check for it return at once without keys. -/
theorem Safe.onData {body : Out V → Prog (Out V)}
    (hbody : pgm.keys ≠ [] → (body (Out.fresh queries.length results dflt)).Ensures
      fun _ => True) : Safe pgm queries (onData pgm.toColumns queries results dflt body) := by
  rw [Safe, Windowed.onData]
  split
  · exact Ensures.pure fun _ => rfl
  · rename_i hdata
    have hkeys : pgm.keys ≠ [] := by
      intro hc
      rw [hc] at hdata
      exact hdata rfl
    exact (hbody hkeys).mono fun _ _ hc => absurd hc hkeys

theorem PGMWrapper.Searchable.noPrefetch_safe (h : pgm.Searchable f epsilon queries pos)
    (hkeys : pgm.keys = [] → queries = []) :
    Safe pgm queries (NoPrefetch.batchLookup f epsilon pgm queries results dflt) := by
  refine (NoPrefetch.batchLookup_returns h).ensures fun hempty => ?_
  rw [hkeys hempty]
  rfl

theorem PGMWrapper.Searchable.staticSPP_safe (h : pgm.Searchable f epsilon queries pos)
    (hsteps : (bsearchSteps epsilon).Ensures fun _ => True) (hN : 1 ≤ N) :
    Safe pgm queries (StaticSPP.batchLookup N f epsilon pgm queries results dflt) := by
  refine Safe.onData fun _ => hsteps.bind fun H _ => ?_
  split
  · exact Ensures.pure trivial
  · exact (h.staticSPP hN H).bind fun _ _ => Ensures.pure trivial

theorem PGMWrapper.Searchable.vectorizedSearch_safe (h : pgm.Searchable f epsilon queries pos)
    (hsteps : (bsearchSteps epsilon).Ensures fun _ => True) (hN : 1 ≤ N) :
    Safe pgm queries (VectorizedSearch.batchLookup N f epsilon pgm queries results dflt) := by
  refine Safe.onData fun _ => hsteps.bind fun steps _ => ?_
  exact (h.groupLoop hN steps).ensures trivial

/-- The position that the strategies without `search` find. -/
theorem PGMIndex.Leveled.exists_position {idx : PGMIndex S} (h : idx.Leveled) :
    ∃ pos : Key → Nat, ∀ q, (idx.positionOnLevel f 0 q).Returns (pos q) := by
  choose pos hpos using h.positionOnLevel (f := f) h.two_le
  exact ⟨pos, fun q => (hpos q).1⟩

/-- `upper_bound` stays on its level, for every query. -/
theorem groupPrefetch_safe (hpaired : pgm.keys.length = pgm.values.length)
    (hleveled : pgm.keys ≠ [] → pgm.index.Leveled)
    (hsteps : (bsearchSteps epsilon).Ensures fun _ => True) (hN : 1 ≤ N) :
    Safe pgm queries (GroupPrefetch.batchLookup N f epsilon pgm queries results dflt) := by
  refine Safe.onData fun hkeys => hsteps.bind fun steps _ => ?_
  obtain ⟨pos, hpos⟩ := (hleveled hkeys).exists_position (f := f)
  exact ((hleveled hkeys).groupLoop hpaired hN hpos steps).ensures trivial

theorem amacSearch_safe (hpaired : pgm.keys.length = pgm.values.length)
    (hleveled : pgm.keys ≠ [] → pgm.index.Leveled)
    (hsteps : (bsearchSteps epsilon).Ensures fun _ => True) (hN : 1 ≤ N) :
    Safe pgm queries (AMACSearch.batchLookup N f epsilon pgm queries results dflt) := by
  refine Safe.onData fun hkeys => hsteps.bind fun steps _ => ?_
  obtain ⟨pos, hpos⟩ := (hleveled hkeys).exists_position (f := f)
  exact ((hleveled hkeys).amacSearch hpaired hN hpos steps).bind fun _ _ => Ensures.pure trivial

/-- `NoPrefetch` calls `search` for every query. -/
theorem NoPrefetch.exists_search {P : Out V → Prop} {q : Key}
    (h : (NoPrefetch.batchLookup f epsilon pgm queries results dflt).Ensures P)
    (hq : q ∈ queries) : ∃ range, (pgm.index.search f epsilon q).Returns range := by
  obtain ⟨out, hout, _⟩ := h
  obtain ⟨i, hi⟩ := List.mem_iff_getElem?.mp hq
  obtain ⟨t, t', ht⟩ := Returns.forRange_inv hout i (List.getElem?_eq_some_iff.mp hi).1
  obtain ⟨key, hkey, ht⟩ := returns_bind.mp ht
  cases hi.symm.trans (returns_read.mp hkey)
  obtain ⟨w, hw, _⟩ := returns_bind.mp ht
  obtain ⟨range, hrange, _⟩ := returns_bind.mp hw
  exact ⟨range, hrange⟩

end Strategies

/-! ## Wrappers -/

section Wrappers

variable {f : Floating S} {segmentation : Segmentation S} {epsilon : Nat}

/-- What the lookups rely on. -/
structure PGMWrapper.Ready (epsilon : Nat) (pgm : PGMWrapper S V) : Prop where
  /-- Every key has a value. -/
  paired : pgm.keys.length = pgm.values.length
  /-- The index is over the keys. -/
  size : pgm.index.n = pgm.keys.length
  /-- Without keys there is no level. -/
  empty : pgm.keys = [] → pgm.index.levelsOffsets = []
  /-- No level is empty. -/
  leveled : pgm.keys ≠ [] → pgm.index.Leveled
  /-- The levels are closed. -/
  layered : pgm.keys ≠ [] → ∃ first levels,
    pgm.index.Layered first (pgm.keys.length + epsilon) levels
  /-- The first key is not the sentinel. -/
  firstKey : pgm.index.firstKey < sentinel

theorem PGMWrapper.empty_ready : (PGMWrapper.empty : PGMWrapper S V).Ready epsilon :=
  ⟨rfl, rfl, fun _ => rfl, fun h => absurd rfl h, fun h => absurd rfl h,
    lt_sentinel_iff.mpr (by decide : (0 : Key) ≠ sentinel)⟩

theorem PGMWrapper.bulkLoad_ready (hlib : segmentation.Documented)
    {inputData : List (Key × V)} (hbelow : ∀ k ∈ inputData.map Prod.fst, k < sentinel)
    {pgm : PGMWrapper S V}
    (h : (PGMWrapper.empty.bulkLoad f segmentation epsilon inputData).Returns pgm) :
    pgm.Ready epsilon := by
  obtain ⟨hkeys, hvalues, hn, hfirst, hleveled⟩ := PGMWrapper.bulkLoad_inv h
  cases inputData with
  | nil =>
      obtain rfl : PGMWrapper.empty = pgm :=
        Returns.det (returns_pure.mpr rfl : (pure PGMWrapper.empty : Prog _).Returns _) h
      exact PGMWrapper.empty_ready
  | cons kv rest =>
      have hlt : kv.1 < sentinel := hbelow kv.1 List.mem_cons_self
      refine ⟨by simp [hkeys, hvalues], hn, fun hc => ?_, fun _ => hleveled (List.cons_ne_nil _ _),
        fun _ => ?_, ?_⟩
      · rw [hkeys] at hc
        cases hc
      · obtain ⟨index, hindex, h⟩ := returns_bind.mp h
        obtain ⟨r, hr, hindex⟩ := returns_bind.mp hindex
        obtain rfl := returns_pure.mp hindex
        obtain rfl := returns_pure.mp h
        obtain ⟨levels, hlevels⟩ := build_layered hlib hlt.ne hr
        exact ⟨kv.1, levels, hlevels⟩
      · rw [hfirst, hkeys]
        exact hlt

/-- `search` stays within the segments, for queries that the scans stop for. -/
theorem PGMWrapper.Ready.search {pgm : PGMWrapper S V} (h : pgm.Ready epsilon)
    (hne : pgm.keys ≠ []) {q : Key}
    (hq : 2 < pgm.index.levelsOffsets.length → q ≠ sentinel) :
    (pgm.index.search f epsilon q).Ensures fun range =>
      range.pos ≤ pgm.keys.length + epsilon := by
  obtain ⟨first, levels, hlevels⟩ := h.layered hne
  refine hlevels.search fun hlen => ?_
  exact max_lt h.firstKey (lt_sentinel_iff.mpr (hq hlen))

theorem PGMWrapper.Ready.exists_searchable {pgm : PGMWrapper S V} (h : pgm.Ready epsilon)
    {queries : List Key} (hkeys : pgm.keys = [] → queries = [])
    (hqueries : 2 < pgm.index.levelsOffsets.length → sentinel ∉ queries) :
    ∃ pos, pgm.Searchable f epsilon queries pos := by
  refine PGMWrapper.exists_searchable h.paired h.size fun q hq => h.search ?_ ?_
  · intro hempty
    rw [hkeys hempty] at hq
    cases hq
  · intro hlen hc
    exact hqueries hlen (hc ▸ hq)

end Wrappers

/-- The lookups on a wrapper that was never loaded, or loaded once, read existing elements only, if
and only if the wrapper has keys or there are no queries, and no query is the sentinel where the
index has more than one level. -/
theorem lookups_safe_iff {f : Floating S} {segmentation : Segmentation S}
    (hlib : segmentation.Documented) {epsilon : Nat}
    (hsteps : (bsearchSteps epsilon).Ensures fun _ => True) {N : Nat} (hN : 1 ≤ N)
    {pgm : PGMWrapper S V}
    (hpgm : pgm = PGMWrapper.empty ∨ ∃ inputData : List (Key × V),
      (inputData.map Prod.fst).Pairwise (· ≤ ·) ∧
        (∀ k ∈ inputData.map Prod.fst, k < sentinel) ∧
          (PGMWrapper.empty.bulkLoad f segmentation epsilon inputData).Returns pgm)
    (queries : List Key) (results : List V) (dflt : V) :
    AllSafe N f epsilon pgm queries results dflt ↔
      (pgm.keys = [] → queries = []) ∧
        (2 < pgm.index.levelsOffsets.length → sentinel ∉ queries) := by
  have h : pgm.Ready epsilon := by
    rcases hpgm with rfl | ⟨inputData, _, hbelow, hload⟩
    · exact PGMWrapper.empty_ready
    · exact PGMWrapper.bulkLoad_ready hlib hbelow hload
  constructor
  · intro hsafe
    constructor
    · intro hempty
      refine List.eq_nil_iff_forall_not_mem.mpr fun q hq => ?_
      obtain ⟨range, hrange⟩ := NoPrefetch.exists_search hsafe.noPrefetch hq
      exact PGMIndex.not_search_empty (h.empty hempty) range hrange
    · intro hlen hq
      obtain ⟨range, hrange⟩ := NoPrefetch.exists_search hsafe.noPrefetch hq
      exact PGMIndex.not_search_sentinel hlen range hrange
  · rintro ⟨hkeys, hqueries⟩
    obtain ⟨pos, hpos⟩ := h.exists_searchable hkeys hqueries
    exact ⟨hpos.noPrefetch_safe hkeys, hpos.staticSPP_safe hsteps hN,
      hpos.vectorizedSearch_safe hsteps hN, groupPrefetch_safe h.paired h.leveled hsteps hN,
      amacSearch_safe h.paired h.leveled hsteps hN⟩

theorem oneSegment_documented (slope : Nat × Nat) : (oneSegment slope).Documented where
  head h := by
    rw [← returns_pure.mp h]
    rfl
  intercept_le _ h s hs := by
    rw [← returns_pure.mp h] at hs
    rw [List.mem_singleton.mp hs]
    exact Nat.zero_le _

theorem lookups_safe_iff_twoKeys :
    AllSafe 2 fractions 1 (twoKeys (1, 5) 11) [11, sentinel] [7] 0 ↔
      ((twoKeys (1, 5) 11).keys = [] → [11, sentinel] = []) ∧
        (2 < (twoKeys (1, 5) 11).index.levelsOffsets.length → sentinel ∉ [11, sentinel]) :=
  lookups_safe_iff (oneSegment_documented (1, 5))
    ((bsearchSteps_returns (by decide)).ensures trivial) (by decide)
    (Or.inr ⟨[(1, 10), (11, 20)], by decide, by
      intro k hk
      exact lt_sentinel_iff.mpr fun hc => absurd (hc ▸ hk) (by decide),
      twoKeys_load (by decide) (by decide) (by decide)⟩) [11, sentinel] [7] 0

/-! ## Five keys in two segments -/

/-- What the library makes of the keys 1, 2, 3, 4 and 100 with an error of 1, and of the keys 1 and
100 of the two segments with an error of 4. -/
def twoSegments : Segmentation (Nat × Nat) where
  segments epsilon _ :=
    pure (if epsilon = 1 then [⟨1, (4, 3), 0⟩, ⟨100, (3, 1), 3⟩] else [⟨1, (5, 99), 0⟩])
  ne_nil {epsilon _ _} h := by
    rw [← returns_pure.mp h]
    split <;> exact List.cons_ne_nil _ _

/-- A wrapper with two levels. -/
def fiveKeys : PGMWrapper (Nat × Nat) Nat :=
  ⟨⟨[1, 2, 3, 4, 100], [10, 20, 30, 40, 50]⟩,
    ⟨5, 1, [⟨1, (4, 3), 0⟩, ⟨100, (3, 1), 3⟩, ⟨sentinel, (0, 1), 5⟩, ⟨1, (5, 99), 0⟩,
      ⟨sentinel, (0, 1), 2⟩], [0, 3, 5]⟩⟩

/-- `NoPrefetch` reads a level of an index that has none, and a scan for the sentinel leaves the
segments. -/
theorem lookups_leave :
    ¬ AllSafe 1 fractions 1 (PGMWrapper.empty : PGMWrapper (Nat × Nat) Nat) [0] [] 0 ∧
      (PGMWrapper.empty.bulkLoad fractions twoSegments 1
        [(1, 10), (2, 20), (3, 30), (4, 40), (100, 50)]).Returns fiveKeys ∧
        ¬ AllSafe 1 fractions 1 fiveKeys [sentinel] [] 0 := by
  refine ⟨fun h => ?_, ⟨3, by rfl⟩, fun h => ?_⟩
  · obtain ⟨range, hrange⟩ := NoPrefetch.exists_search h.noPrefetch (List.mem_singleton_self 0)
    exact PGMIndex.not_search_empty rfl range hrange
  · obtain ⟨range, hrange⟩ :=
      NoPrefetch.exists_search h.noPrefetch (List.mem_singleton_self sentinel)
    exact PGMIndex.not_search_sentinel (by decide) range hrange

end PGM
