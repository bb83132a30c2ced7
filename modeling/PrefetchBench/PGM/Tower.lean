import PrefetchBench.Memory.Rows
import PrefetchBench.PGM.Navigation
import PrefetchBench.PGM.Storeys

/-!
# Building and searching an index

With the segmentation of the library, `build` returns: every level has fewer segments than the one
below (`Tower`).  `segment_for_key` then goes down from the root: on every level it finds a segment
whose key is not above the one that is looked up, and whose next one is (`Tower.segmentForKey`).  So
`search` ends with a range around the first rank of a stored key (`search_covers`).
-/

namespace PGM

open Prog KeyArray

variable {S V : Type} {f : Quotients S} {epsilon : Nat} {last : Key} {keys : List Key}

/-! ## Levels on levels -/

/-- The levels of an index over some keys. -/
structure Tower (f : Quotients S) (epsilon : Nat) (last : Key) (keys : List Key)
    (levels : List (Storey S)) : Prop where
  /-- The bottom level is over the keys. -/
  bottom : ∃ storey, levels[0]? = some storey ∧ storey.Over f epsilon last keys ∧
    storey.Finds f epsilon keys
  /-- The others are over the level below. -/
  above : ∀ l lower upper, levels[l]? = some lower → levels[l + 1]? = some upper →
    upper.Over f epsilonRecursive last lower.firstKeys
  /-- Only the last one may have a single segment. -/
  several : ∀ l lower upper, levels[l]? = some lower → levels[l + 1]? = some upper →
    1 < lower.count

/-- The levels that `build` has stored so far. -/
structure Levels.Stores (st : Levels S) (levels : List (Storey S)) (root : Storey S) : Prop where
  /-- They are stored back to back. -/
  segments : st.segments = (levels.map Storey.segments).flatten
  /-- Where they start. -/
  offsets : st.levelsOffsets = Rows.offsets (levels.map Storey.segments)
  /-- The last one. -/
  last : levels.getLast? = some root
  /-- The number of its segments. -/
  lastN : st.lastN = root.count

/-- What a segmentation makes of keys that fit. -/
structure Fits (f : Quotients S) (epsilon : Nat) (keys : List Key) : Prop where
  /-- The keys are in order. -/
  indexable : Indexable keys
  /-- The square of the error is not zero as a `size_t`. -/
  square : epsilon * epsilon % 2 ^ 64 ≠ 0
  /-- The number of keys fits into an intercept. -/
  size : keys.length < 2 ^ 32
  /-- The cross products of the points fit into 128 bits. -/
  wide : keys.length + epsilon < 2 ^ 62
  /-- The arithmetic is good up to there. -/
  accurate : f.Accurate (keys.length + epsilon + epsilonRecursive)

theorem Fits.pos (h : Fits f epsilon keys) : 0 < epsilon := by
  apply Nat.pos_of_ne_zero
  rintro rfl
  exact absurd h.square (by decide)

theorem Storey.Over.length_firstKeys {storey : Storey S} (h : storey.Over f epsilon last keys) :
    storey.firstKeys.length = storey.count := by
  rw [Storey.firstKeys, List.length_map, List.length_take, min_eq_left h.room.le]

/-- A level that is built. -/
theorem buildLevel_over {bound : ℚ} (hkeys : Indexable keys) (hε : 0 < epsilon)
    (htailed : Tailed last keys) (hlast : last < sentinel) (hf : f.Accurate bound)
    (hbound : (keys.length : ℚ) + epsilon ≤ bound) (hsize : keys.length < 2 ^ 32)
    (hwide : keys.length + epsilon < 2 ^ 64) (st : Levels S) :
    (buildLevel f.toFloating f.segmentation.uncaught epsilon last keys st).Ensures fun st' =>
      ∃ storey : Storey S, storey.Over f epsilon last keys ∧
        (last = keyAt keys (keys.length - 1) → storey.Finds f epsilon keys) ∧
        st'.segments = st.segments ++ storey.segments ∧
        st'.levelsOffsets = st.levelsOffsets ++ [(st.segments ++ storey.segments).length] ∧
        st'.lastN = storey.count := by
  have hval : (rank epsilon).val = epsilon := Nat.mod_eq_of_lt (by omega)
  apply (buildLevel_closing (f := f) (segmentation_ensures hkeys hε (by omega) hsize) st).mono
  rintro st' ⟨out, storey, ⟨pieces, hcut⟩, hclosing, hsegments, hoffsets, hlastN⟩
  refine ⟨storey, ?_, ?_, hsegments, hoffsets, hlastN⟩
  · have hover := hclosing.over hkeys hcut (by rw [hval]; exact hε) htailed hlast hf
      (by rw [hval]; exact hbound) hsize
    rw [hval] at hover
    exact hover
  · rintro rfl
    have hfinds := hclosing.finds hkeys hcut hf (by rw [hval]; exact hbound) hsize
      (by rw [hval]; exact hwide)
    rw [hval] at hfinds
    exact hfinds

/-- The first keys of a level are in order again. -/
theorem Storey.Over.indexable {storey : Storey S} (h : storey.Over f epsilon last keys)
    (hsize : storey.count < 2 ^ 64) : Indexable storey.firstKeys where
  sorted := h.increasing.imp le_of_lt
  below := h.below
  size := by
    rw [h.length_firstKeys]
    exact ⟨h.pos, hsize⟩

/-- There are fewer segments than keys, or there is one. -/
theorem Storey.Over.count_le {storey : Storey S} (h : storey.Over f epsilon last keys)
    (hε : 0 < epsilon) (hkeys : 0 < keys.length) : storey.count ≤ keys.length := by
  have hfewer := h.fewer
  have hpos := h.pos
  have hthree : 3 * (storey.count - 1) ≤ (2 * epsilon + 1) * (storey.count - 1) :=
    Nat.mul_le_mul_right _ (by omega)
  omega

namespace Levels.Stores

variable {st : Levels S} {levels : List (Storey S)} {root : Storey S}

/-- One level more. -/
theorem concat {st' : Levels S} (h : st.Stores levels root) {storey : Storey S}
    (hsegments : st'.segments = st.segments ++ storey.segments)
    (hoffsets : st'.levelsOffsets =
      st.levelsOffsets ++ [(st.segments ++ storey.segments).length])
    (hlastN : st'.lastN = storey.count) : st'.Stores (levels ++ [storey]) storey where
  segments := by
    rw [hsegments, h.segments, List.map_append, List.map_singleton, List.flatten_concat]
  offsets := by
    rw [hoffsets, h.offsets, h.segments, List.map_append, List.map_singleton, Rows.offsets_concat,
      List.flatten_concat]
  last := List.getLast?_concat
  lastN := hlastN

/-- The first level. -/
theorem first {st' : Levels S} {n : Nat} {storey : Storey S}
    (hsegments : st'.segments = (⟨[], [0], n⟩ : Levels S).segments ++ storey.segments)
    (hoffsets : st'.levelsOffsets = (⟨[], [0], n⟩ : Levels S).levelsOffsets ++
      [((⟨[], [0], n⟩ : Levels S).segments ++ storey.segments).length])
    (hlastN : st'.lastN = storey.count) : st'.Stores [storey] storey where
  segments := by
    rw [hsegments]
    simp
  offsets := by
    rw [hoffsets, List.map_singleton, ← List.nil_append [storey.segments], Rows.offsets_concat]
    simp [Rows.offsets]
  last := rfl
  lastN := hlastN

/-- The keys that the next level is built over. -/
theorem read_keys (h : st.Stores levels root) (hroom : root.count < root.segments.length) :
    ∃ offset, (read st.levelsOffsets (st.levelsOffsets.length - 2)).Returns offset ∧
      ((st.segments.drop offset).take st.lastN).map Segment.key = root.firstKeys := by
  obtain ⟨below, hbelow⟩ := List.getLast?_eq_some_iff.mp h.last
  have hget : (levels.map Storey.segments)[below.length]? = some root.segments := by
    rw [hbelow, List.map_append, List.map_singleton,
      show below.length = (below.map Storey.segments).length from (List.length_map _).symm,
      List.getElem?_concat_length]
  refine ⟨Rows.start (levels.map Storey.segments) below.length, ?_, ?_⟩
  · have hindex : (levels.map Storey.segments).length + 1 - 2 = below.length := by
      rw [hbelow]
      simp
    rw [returns_read, h.offsets, Rows.length_offsets, hindex, Rows.getElem?_offsets]
    rw [hbelow]
    simp
  · rw [h.segments, Rows.drop_start_of_getElem? hget, h.lastN,
      List.take_append_of_le_length hroom.le, Storey.firstKeys]

end Levels.Stores

theorem Tower.single {storey : Storey S} (hover : storey.Over f epsilon last keys)
    (hfinds : storey.Finds f epsilon keys) : Tower f epsilon last keys [storey] where
  bottom := ⟨storey, rfl, hover, hfinds⟩
  above l lower upper _ hupper := by cases hupper
  several l lower upper _ hupper := by cases hupper

/-- Two levels of a tower with one more on top. -/
theorem Tower.getElem?_concat {levels : List (Storey S)} {root storey lower upper : Storey S}
    (hroot : levels.getLast? = some root) {l : Nat}
    (hlower : (levels ++ [storey])[l]? = some lower)
    (hupper : (levels ++ [storey])[l + 1]? = some upper) :
    levels[l]? = some lower ∧ levels[l + 1]? = some upper ∨ lower = root ∧ upper = storey := by
  have hlt := (List.getElem?_eq_some_iff.mp hupper).1
  rw [List.length_append, List.length_singleton] at hlt
  rw [List.getElem?_append_left (by omega)] at hlower
  rcases Nat.lt_or_ge (l + 1) levels.length with hin | hout
  · rw [List.getElem?_append_left hin] at hupper
    exact Or.inl ⟨hlower, hupper⟩
  · have hend : l + 1 = levels.length := by omega
    rw [hend, List.getElem?_concat_length] at hupper
    rw [List.getLast?_eq_getElem?, ← hend, Nat.add_sub_cancel] at hroot
    cases hupper
    cases hlower.symm.trans hroot
    exact Or.inr ⟨rfl, rfl⟩

/-- A level over the root of a tower. -/
theorem Tower.concat {levels : List (Storey S)} {root storey : Storey S}
    (h : Tower f epsilon last keys levels) (hroot : levels.getLast? = some root)
    (hmore : 1 < root.count) (hover : storey.Over f epsilonRecursive last root.firstKeys) :
    Tower f epsilon last keys (levels ++ [storey]) where
  bottom := by
    obtain ⟨bottom, hget, hrest⟩ := h.bottom
    refine ⟨bottom, ?_, hrest⟩
    rw [List.getElem?_append_left (List.getElem?_eq_some_iff.mp hget).1]
    exact hget
  above l lower upper hlower hupper := by
    rcases Tower.getElem?_concat hroot hlower hupper with ⟨hlower, hupper⟩ | ⟨rfl, rfl⟩
    · exact h.above l lower upper hlower hupper
    · exact hover
  several l lower upper hlower hupper := by
    rcases Tower.getElem?_concat hroot hlower hupper with ⟨hlower, hupper⟩ | ⟨rfl, rfl⟩
    · exact h.several l lower upper hlower hupper
    · exact hmore

/-- `build` returns, with levels on levels. -/
theorem build_tower (h : Fits f epsilon keys) :
    (build f.toFloating f.segmentation.uncaught epsilon keys).Ensures fun r =>
      ∃ levels st root, Tower f epsilon (keyAt keys (keys.length - 1)) keys levels ∧
        Levels.Stores st levels root ∧ root.count = 1 ∧
          r = (st.segments, st.levelsOffsets) := by
  have hkeys := h.indexable
  have hn := hkeys.size.1
  have hsize := h.size
  have hwide := h.wide
  have hend : keys.getLast? = some (keyAt keys (keys.length - 1)) := by
    rw [List.getLast?_eq_getElem?, getElem?_keyAt (by omega)]
  generalize hlastKey : keyAt keys (keys.length - 1) = last at *
  have hlast : last < sentinel := by
    rw [← hlastKey]
    exact hkeys.below _ (keyAt_mem (by omega))
  rw [build, hend]
  apply Ensures.assert_bind (decide_eq_true h.square)
  apply Ensures.assert_bind (decide_eq_true (lt_sentinel_iff.mp hlast))
  have htailed : Tailed last keys := by
    intro i hi
    rw [← hlastKey]
    exact hkeys.keyAt_le (by omega) (by omega)
  apply (buildLevel_over hkeys h.pos htailed hlast h.accurate
    (by push_cast [epsilonRecursive]; linarith) hsize (by omega) _).bind
  rintro st ⟨storey, hover, hfinds, hsegments, hoffsets, hlastN⟩
  apply Ensures.bind (P := fun st => ∃ levels root, Tower f epsilon last keys levels ∧
    Levels.Stores st levels root ∧ root.count = 1)
  · apply Ensures.whileM (fun m (st : Levels S) => ∃ levels root epsilon' keys',
      Tower f epsilon last keys levels ∧ st.Stores levels root ∧
        root.Over f epsilon' last keys' ∧ root.count ≤ keys.length ∧ m = root.count)
    · rintro m st ⟨levels, root, epsilon', keys', htower, hst, hroot, hcount, rfl⟩
      refine ⟨_, returns_pure.mpr rfl, ?_, ?_⟩
      · intro hmore
        have hmore' : 1 < root.count := by
          rw [← hst.lastN]
          exact of_decide_eq_true hmore
        obtain ⟨offset, hoffset, hfirst⟩ := hst.read_keys hroot.room
        apply hoffset.seq
        rw [hfirst]
        have hlen := hroot.length_firstKeys
        have hcountq : (root.count : ℚ) ≤ keys.length := Nat.cast_le.mpr hcount
        apply (buildLevel_over (hroot.indexable (by omega)) (by decide) hroot.tailed hlast
          h.accurate (by rw [hlen]; linarith [(Nat.cast_nonneg epsilon : (0 : ℚ) ≤ epsilon)])
          (by omega) (by rw [hlen, epsilonRecursive]; omega) st).mono
        rintro st' ⟨storey', hover', _, hsegments', hoffsets', hlastN'⟩
        have hfewer := hover'.fewer
        rw [hlen, epsilonRecursive] at hfewer
        refine ⟨storey'.count, by omega, levels ++ [storey'], storey', _, _,
          htower.concat hst.last hmore' hover', hst.concat hsegments' hoffsets' hlastN', hover',
          by omega, rfl⟩
      · intro hdone
        have hle : ¬ 1 < root.count := by
          rw [← hst.lastN]
          exact of_decide_eq_false hdone
        have hpos := hroot.pos
        exact ⟨levels, root, htower, hst, by omega⟩
    · exact ⟨[storey], storey, epsilon, keys, .single hover (hfinds hlastKey.symm),
        .first hsegments hoffsets hlastN, hover, hover.count_le h.pos hn, rfl⟩
  · rintro st ⟨levels, root, htower, hst, hroot⟩
    exact Ensures.pure ⟨levels, st, root, htower, hst, hroot, rfl⟩

/-! ## Going down -/

/-- An index over some keys. -/
structure PGMIndex.Built (f : Quotients S) (epsilon : Nat) (last : Key) (keys : List Key)
    (idx : PGMIndex S) (levels : List (Storey S)) : Prop where
  /-- The levels. -/
  tower : Tower f epsilon last keys levels
  /-- They are stored back to back. -/
  segments : idx.segments = (levels.map Storey.segments).flatten
  /-- Where they start. -/
  offsets : idx.levelsOffsets = Rows.offsets (levels.map Storey.segments)
  /-- The root level has one segment. -/
  root : ∃ root, levels.getLast? = some root ∧ root.count = 1
  /-- The number of keys. -/
  size : idx.n = keys.length
  /-- The first key. -/
  firstKey : idx.firstKey = keyAt keys 0

/-- The constructor returns. -/
theorem new_built (h : Fits f epsilon keys) :
    (PGMIndex.new f.toFloating f.segmentation.uncaught epsilon keys).Ensures fun idx =>
      ∃ levels, idx.Built f epsilon (keyAt keys (keys.length - 1)) keys levels := by
  apply (build_tower h).bind
  rintro r ⟨levels, st, root, htower, hst, hroot, rfl⟩
  apply Ensures.pure
  refine ⟨levels, htower, hst.segments, hst.offsets, ⟨root, hst.last, hroot⟩, rfl, ?_⟩
  rw [keyAt, List.headD_eq_head?_getD, List.getD_eq_getElem?_getD, List.head?_eq_getElem?]

/-- Every level starts with the first key. -/
theorem Tower.head {levels : List (Storey S)} (h : Tower f epsilon last keys levels) {l : Nat}
    {storey : Storey S} (hl : levels[l]? = some storey) :
    (storey.segments.map Segment.key).head? = keys.head? := by
  induction l generalizing storey with
  | zero =>
      obtain ⟨bottom, hget, hover, _⟩ := h.bottom
      cases hget.symm.trans hl
      exact hover.head
  | succ l ih =>
      have hlt := (List.getElem?_eq_some_iff.mp hl).1
      obtain ⟨lower, hlower⟩ := exists_getElem? levels (i := l) (by omega)
      have hover := h.above l lower storey hlower hl
      have hpos : 0 < lower.count := by
        cases l with
        | zero =>
            obtain ⟨bottom, hget, hbottom, _⟩ := h.bottom
            cases hget.symm.trans hlower
            exact hbottom.pos
        | succ l =>
            obtain ⟨below, hbelow⟩ := exists_getElem? levels (i := l) (by omega)
            exact (h.above l below lower hbelow hlower).pos
      rw [hover.head, ← ih hlower, Storey.firstKeys, List.map_take, List.head?_take,
        if_neg hpos.ne']

theorem Tower.key_of_head {levels : List (Storey S)} (h : Tower f epsilon last keys levels)
    {l : Nat} {storey : Storey S} (hl : levels[l]? = some storey) {s : Segment S}
    (hs : storey.segments[0]? = some s) : keyAt keys 0 = s.key := by
  have hhead := h.head hl
  rw [List.head?_map, List.head?_eq_getElem?, hs, Option.map_some] at hhead
  rw [keyAt, List.getD_eq_getElem?_getD, ← List.head?_eq_getElem?, ← hhead, Option.getD_some]

/-- Every level is over something. -/
theorem Tower.over {levels : List (Storey S)} (h : Tower f epsilon last keys levels) {l : Nat}
    {storey : Storey S} (hl : levels[l]? = some storey) :
    ∃ epsilon' keys', storey.Over f epsilon' last keys' := by
  cases l with
  | zero =>
      obtain ⟨bottom, hget, hover, _⟩ := h.bottom
      cases hget.symm.trans hl
      exact ⟨_, _, hover⟩
  | succ l =>
      have hlt := (List.getElem?_eq_some_iff.mp hl).1
      obtain ⟨lower, hlower⟩ := exists_getElem? levels (i := l) (by omega)
      exact ⟨_, _, h.above l lower storey hlower hl⟩

namespace PGMIndex.Built

variable {idx : PGMIndex S} {levels : List (Storey S)} {storey : Storey S} {k : Key} {i l : Nat}
  {s t : Segment S}

theorem read (h : idx.Built f epsilon last keys levels) (hl : levels[l]? = some storey)
    (hs : storey.segments[i]? = some s) :
    (Prog.read idx.segments (Rows.start (levels.map Storey.segments) l + i)).Returns s := by
  have hget : (levels.map Storey.segments)[l]? = some storey.segments := by
    rw [List.getElem?_map, hl]
    rfl
  rw [returns_read, h.segments, Rows.getElem?_flatten hget (List.getElem?_eq_some_iff.mp hs).1, hs]

/-- The scan of a level ends at the segment that it is looking for. -/
theorem scanLevel (h : idx.Built f epsilon last keys levels) (hl : levels[l]? = some storey)
    (hk : k < sentinel) (hs : storey.segments[i]? = some s) (hle : s.key ≤ k) :
    (idx.scanLevel k (Rows.start (levels.map Storey.segments) l + i)).Ensures fun it =>
      ∃ j s t, it = Rows.start (levels.map Storey.segments) l + j ∧ storey.At k j s t := by
  obtain ⟨epsilon', keys', hover⟩ := h.tower.over hl
  -- the sentinel is not reached
  have hroom : ∀ i s, storey.segments[i]? = some s → s.key ≤ k →
      i + 1 < storey.segments.length := by
    intro i s hs hle
    have hlt := (List.getElem?_eq_some_iff.mp hs).1
    by_contra hge
    have hlast := hover.last_eq
    rw [List.getLast?_map, List.getLast?_eq_getElem?,
      show storey.segments.length - 1 = i by omega, hs] at hlast
    rw [Option.some.inj hlast] at hle
    exact absurd hle (not_le.mpr hk)
  apply Ensures.loop (fun m it => ∃ i s, storey.segments[i]? = some s ∧ s.key ≤ k ∧
    m = storey.segments.length - i ∧ it = Rows.start (levels.map Storey.segments) l + i)
  · rintro m it ⟨i, s, hs, hle, rfl, rfl⟩
    obtain ⟨t, ht⟩ := exists_getElem? storey.segments (hroom i s hs hle)
    apply (h.read hl ht).seq
    split
    · rename_i hnext
      apply Ensures.pure
      have hlt := hroom i s hs hle
      exact ⟨_, by omega, i + 1, t, ht, hnext, rfl, rfl⟩
    · rename_i hnext
      exact Ensures.pure ⟨i, s, t, rfl, hs, ht, hle, fun _ => not_le.mp hnext⟩
  · exact ⟨i, s, hs, hle, rfl, rfl⟩

/-- From a segment to the level below. -/
theorem descend (h : idx.Built f epsilon last keys levels) (hfirst : keyAt keys 0 ≤ k)
    (hk : k < sentinel) {lower upper : Storey S} (hlower : levels[l]? = some lower)
    (hupper : levels[l + 1]? = some upper) (hat : upper.At k i s t) :
    (do
      let levelBegin ← Prog.read idx.levelsOffsets l
      let pos ← idx.clampedPosition f.toFloating
        (Rows.start (levels.map Storey.segments) (l + 1) + i) k
      idx.scanLevel k (levelBegin + subEps pos (epsilonRecursive + 1))).Ensures fun it =>
        ∃ j s t, it = Rows.start (levels.map Storey.segments) l + j ∧ lower.At k j s t := by
  obtain ⟨hl, _⟩ := List.getElem?_eq_some_iff.mp hlower
  have hbegin : (Prog.read idx.levelsOffsets l).Returns
      (Rows.start (levels.map Storey.segments) l) := by
    rw [returns_read, h.offsets, Rows.getElem?_offsets]
    rw [List.length_map]
    exact hl.le
  have hclamped : (idx.clampedPosition f.toFloating
      (Rows.start (levels.map Storey.segments) (l + 1) + i) k).Returns
        (min (s.position f.toFloating k) t.intercept) :=
    (h.read hupper hat.this).bind ((h.read hupper hat.next).bind (returns_pure.mpr rfl))
  apply hbegin.seq
  apply hclamped.seq
  obtain ⟨epsilon', keys', hover⟩ := h.tower.over hlower
  have hlen := hover.length_firstKeys
  have hroom := hover.room
  have hpos := hover.pos
  obtain ⟨p, hle, hp, hkeys⟩ :=
    (h.tower.above l lower upper hlower hupper).clamped k i s t hk hat.this hat.next hat.le hat.lt
  rw [hlen] at hp hkeys
  have hsegment : ∀ j, j < lower.count → ∃ u, lower.segments[j]? = some u ∧
      u.key = keyAt lower.firstKeys j := by
    intro j hj
    obtain ⟨u, hu⟩ := exists_getElem? lower.segments (i := j) (by omega)
    refine ⟨u, hu, ?_⟩
    rw [keyAt, List.getD_eq_getElem?_getD, Storey.firstKeys, List.getElem?_map,
      List.getElem?_take_of_lt hj, hu]
    rfl
  -- the scan starts at a segment whose key is not above
  have hstart : subEps (min (s.position f.toFloating k) t.intercept) (epsilonRecursive + 1) <
      lower.count ∧ keyAt lower.firstKeys
        (subEps (min (s.position f.toFloating k) t.intercept) (epsilonRecursive + 1)) ≤ k := by
    rw [epsilonRecursive] at hle ⊢
    rw [subEps]
    split
    · obtain ⟨u, hu, hkey⟩ := hsegment 0 (by omega)
      refine ⟨by omega, ?_⟩
      rw [← hkey, ← h.tower.key_of_head hlower hu]
      exact hfirst
    · exact ⟨by omega, hkeys _ (by omega) (by omega)⟩
  obtain ⟨u, hu, hkey⟩ := hsegment _ hstart.1
  apply h.scanLevel hlower hk hu
  rw [hkey]
  exact hstart.2

/-- `segment_for_key` goes down to the bottom level. -/
theorem segmentForKey (h : idx.Built f epsilon last keys levels) (hfirst : keyAt keys 0 ≤ k)
    (hk : k < sentinel) :
    (idx.segmentForKey f.toFloating k).Ensures fun it =>
      ∃ storey s t, levels[0]? = some storey ∧ storey.At k it s t := by
  obtain ⟨root, hroot, hcount⟩ := h.root
  obtain ⟨below, hbelow⟩ := List.getLast?_eq_some_iff.mp hroot
  have hlen : idx.levelsOffsets.length = below.length + 2 := by
    rw [h.offsets, Rows.length_offsets, hbelow]
    simp
  have hget : levels[below.length]? = some root := by
    rw [hbelow, List.getElem?_concat_length]
  have hbegin : (Prog.read idx.levelsOffsets (idx.levelsOffsets.length - 2)).Returns
      (Rows.start (levels.map Storey.segments) below.length) := by
    rw [returns_read, hlen, Nat.add_sub_cancel, h.offsets, Rows.getElem?_offsets]
    rw [hbelow]
    simp
  apply hbegin.seq
  rw [hlen, Nat.add_sub_cancel]
  have hroot : ∃ s t, root.At k 0 s t := by
    obtain ⟨epsilon', keys', hover⟩ := h.tower.over hget
    have hroom := hover.room
    obtain ⟨s, hs⟩ := exists_getElem? root.segments (i := 0) (by omega)
    obtain ⟨t, ht⟩ := exists_getElem? root.segments (i := 1) (by omega)
    refine ⟨s, t, hs, ht, ?_, ?_⟩
    · rw [← h.tower.key_of_head hget hs]
      exact hfirst
    · intro hlt
      omega
  obtain ⟨s, t, hroot⟩ := hroot
  apply Ensures.mono (Ensures.forRange (fun j it => ∃ storey i s t,
    levels[below.length - j]? = some storey ∧
      it = Rows.start (levels.map Storey.segments) (below.length - j) + i ∧ storey.At k i s t) _ _)
  · rintro it ⟨storey, i, s, t, hl, rfl, hat⟩
    rw [Nat.sub_self] at hl ⊢
    rw [Rows.start_zero, Nat.zero_add]
    exact ⟨storey, s, t, hl, hat⟩
  · exact ⟨root, 0, s, t, hget, rfl, hroot⟩
  · rintro j hj it ⟨upper, i, s, t, hupper, rfl, hat⟩
    have hlevel : below.length - j = below.length - (j + 1) + 1 := by omega
    have hoffset : below.length + 2 - 3 - j = below.length - (j + 1) := by omega
    have hlt := (List.getElem?_eq_some_iff.mp hupper).1
    obtain ⟨lower, hlower⟩ := exists_getElem? levels (i := below.length - (j + 1)) (by omega)
    rw [hlevel] at hupper ⊢
    rw [hoffset]
    apply (h.descend hfirst hk hlower hupper hat).mono
    rintro it ⟨j', s', t', rfl, hat'⟩
    exact ⟨lower, j', s', t', hlower, rfl, hat'⟩

end PGMIndex.Built

end PGM
