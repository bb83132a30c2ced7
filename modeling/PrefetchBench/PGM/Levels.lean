import PrefetchBench.PGM.Index

/-!
# The levels of a built PGM-index

Whatever the segmentation hands out, a level that is built is not empty: the levels of an index lie
back to back, the bottom one at the start, and there is at least one (`build_leveled`).
-/

namespace PGM

open Prog

variable {S V : Type} {f : Floating S} {segmentation : Segmentation S} {epsilon : Nat}

/-- What `build` keeps: the offsets so far, with the end of the last level. -/
structure Levels.WellFormed (st : Levels S) : Prop where
  /-- No level is empty. -/
  increasing : st.levelsOffsets.Pairwise (· < ·)
  /-- The first level starts at the bottom. -/
  head : st.levelsOffsets[0]? = some 0
  /-- The last one ends at the end. -/
  last : st.levelsOffsets.getLast? = some st.segments.length

theorem Levels.WellFormed.start (lastN : Nat) :
    (⟨[], [0], lastN⟩ : Levels S).WellFormed := ⟨List.pairwise_singleton .., rfl, rfl⟩

/-- A level adds segments behind the ones that are there, and the offset behind them. -/
theorem buildLevel_inv {last : Key} {keys : List Key} {st st' : Levels S}
    (h : (buildLevel f segmentation epsilon last keys st).Returns st') :
    ∃ level, level ≠ [] ∧ st'.segments = st.segments ++ level ∧
      st'.levelsOffsets = st.levelsOffsets ++ [(st.segments ++ level).length] := by
  obtain ⟨out, hout, h⟩ := returns_bind.mp h
  obtain ⟨back, _, h⟩ := returns_bind.mp h
  obtain rfl := returns_pure.mp h
  exact ⟨_, List.append_ne_nil_of_left_ne_nil (segmentation.ne_nil hout) _, rfl, rfl⟩

theorem Levels.WellFormed.buildLevel {last : Key} {keys : List Key} {st st' : Levels S}
    (hst : st.WellFormed) (h : (buildLevel f segmentation epsilon last keys st).Returns st') :
    st'.WellFormed ∧ st'.levelsOffsets.length = st.levelsOffsets.length + 1 := by
  obtain ⟨level, hne, hsegments, hoffsets⟩ := buildLevel_inv h
  have hlevel := List.length_pos_iff.mpr hne
  have hpos : st.levelsOffsets ≠ [] := by
    intro hc
    have := hst.head
    rw [hc] at this
    cases this
  refine ⟨⟨?_, ?_, ?_⟩, by rw [hoffsets, List.length_append]; rfl⟩
  · rw [hoffsets, List.pairwise_append]
    refine ⟨hst.increasing, List.pairwise_singleton .., fun a ha b hb => ?_⟩
    have hle : a ≤ st.segments.length := by
      obtain ⟨front, hfront⟩ := List.getLast?_eq_some_iff.mp hst.last
      have hincreasing := hst.increasing
      rw [hfront] at ha hincreasing
      rcases List.mem_append.mp ha with ha | ha
      · exact ((List.pairwise_append.mp hincreasing).2.2 a ha _ (List.mem_singleton_self _)).le
      · exact (List.mem_singleton.mp ha).le
    rw [List.mem_singleton.mp hb, List.length_append]
    omega
  · rw [hoffsets, List.getElem?_append_left (List.length_pos_iff.mpr hpos), hst.head]
  · rw [hoffsets, List.getLast?_append, hsegments]
    rfl

/-- The levels of an index lie back to back from the bottom level up, and none is empty. -/
structure PGMIndex.Leveled (idx : PGMIndex S) : Prop where
  /-- There is a level. -/
  two_le : 2 ≤ idx.levelsOffsets.length
  /-- The bottom level comes first. -/
  head : idx.levelsOffsets[0]? = some 0
  /-- Where a level starts and ends. -/
  level : ∀ l a b, idx.levelsOffsets[l]? = some a → idx.levelsOffsets[l + 1]? = some b →
    a < b ∧ b ≤ idx.segments.length

theorem Levels.WellFormed.leveled {st : Levels S} (hst : st.WellFormed)
    (hlen : 2 ≤ st.levelsOffsets.length) {n : Nat} {firstKey : Key} :
    (⟨n, firstKey, st.segments, st.levelsOffsets⟩ : PGMIndex S).Leveled := by
  refine ⟨hlen, hst.head, fun l a b ha hb => ?_⟩
  obtain ⟨hla, rfl⟩ := List.getElem?_eq_some_iff.mp (show st.levelsOffsets[l]? = some a from ha)
  obtain ⟨hlb, rfl⟩ :=
    List.getElem?_eq_some_iff.mp (show st.levelsOffsets[l + 1]? = some b from hb)
  refine ⟨List.pairwise_iff_getElem.mp hst.increasing l (l + 1) hla hlb (Nat.lt_succ_self l), ?_⟩
  have hlast := hst.last
  rw [List.getLast?_eq_getElem?] at hlast
  obtain ⟨hlt, hlast⟩ := List.getElem?_eq_some_iff.mp hlast
  show _ ≤ st.segments.length
  rw [← hlast]
  rcases Nat.eq_or_lt_of_le (show l + 1 ≤ st.levelsOffsets.length - 1 by omega) with heq | hlt'
  · simp only [heq, le_refl]
  · exact (List.pairwise_iff_getElem.mp hst.increasing _ _ hlb hlt hlt').le

/-- What holds of the bottom level and is kept by every level above holds of the index. -/
theorem build_inv {P : Levels S → Prop} {data : List Key} (hdata : data ≠ [])
    (hbottom : ∀ st, (buildLevel f segmentation epsilon (data.getLast hdata) data
      ⟨[], [0], data.length⟩).Returns st → P st)
    (hstep : ∀ st st' offset, P st →
      (read st.levelsOffsets (st.levelsOffsets.length - 2)).Returns offset →
      (buildLevel f segmentation epsilonRecursive (data.getLast hdata)
        (((st.segments.drop offset).take st.lastN).map Segment.key) st).Returns st' → P st')
    {r : List (Segment S) × List Nat} (h : (build f segmentation epsilon data).Returns r) :
    ∃ st, P st ∧ r = (st.segments, st.levelsOffsets) := by
  rw [build, List.getLast?_eq_some_getLast hdata] at h
  obtain ⟨_, h⟩ := returns_assert_bind.mp h
  obtain ⟨_, h⟩ := returns_assert_bind.mp h
  obtain ⟨st, hst, h⟩ := returns_bind.mp h
  obtain ⟨st', hst', h⟩ := returns_bind.mp h
  refine ⟨st', (Returns.whileM_inv (P := P) ?_ (hbottom st hst) hst').1, (returns_pure.mp h).symm⟩
  intro s s' hs _ hbody
  obtain ⟨offset, hoffset, hbody⟩ := returns_bind.mp hbody
  exact hstep s s' offset hs hoffset hbody

theorem build_leveled {data : List Key} (hdata : data ≠ []) {r : List (Segment S) × List Nat}
    (h : (build f segmentation epsilon data).Returns r) {n : Nat} {firstKey : Key} :
    (⟨n, firstKey, r.1, r.2⟩ : PGMIndex S).Leveled := by
  have hinv : ∃ st : Levels S, (st.WellFormed ∧ 2 ≤ st.levelsOffsets.length) ∧
      r = (st.segments, st.levelsOffsets) := by
    refine build_inv hdata ?_ ?_ h
    · intro st hst
      obtain ⟨hwf, hlen⟩ := (Levels.WellFormed.start data.length).buildLevel hst
      exact ⟨hwf, by rw [hlen]; rfl⟩
    · intro st st' offset hst _ hbody
      obtain ⟨hwf, hlen⟩ := hst.1.buildLevel hbody
      exact ⟨hwf, by omega⟩
  obtain ⟨st, ⟨hwf, hlen⟩, rfl⟩ := hinv
  exact hwf.leveled hlen

/-- The index of a loaded wrapper, and the columns next to it. -/
theorem PGMWrapper.bulkLoad_inv {inputData : List (Key × V)} {pgm : PGMWrapper S V}
    (h : (PGMWrapper.empty.bulkLoad f segmentation epsilon inputData).Returns pgm) :
    pgm.keys = inputData.map Prod.fst ∧ pgm.values = inputData.map Prod.snd ∧
      pgm.index.n = pgm.keys.length ∧ pgm.index.firstKey = pgm.keys.headD 0 ∧
      (inputData ≠ [] → pgm.index.Leveled) := by
  obtain ⟨index, hindex, h⟩ := returns_bind.mp h
  obtain ⟨r, hr, hindex⟩ := returns_bind.mp hindex
  obtain rfl := returns_pure.mp hindex
  obtain rfl := returns_pure.mp h
  refine ⟨rfl, rfl, rfl, rfl, fun hne => build_leveled ?_ hr⟩
  simpa [PGMWrapper.empty] using hne

end PGM
