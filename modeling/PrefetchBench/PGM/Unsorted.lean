import PrefetchBench.PGM.Segmentation

/-!
# Keys that are out of order

The knots of a sequence of keys increase only if the keys do not decrease (`pairwise_of_knots`).  At
the first knot that does not, `add_point` throws, since the model is never empty after the first
point.  So loading keys that are out of order throws, and leaves the new columns next to the old
index (`tryBulkLoad_unsorted`).
-/

namespace PGM

open Prog Corridor OptimalPiecewiseLinearModel

variable {S V : Type} {f : Quotients S} {epsilon : Size} {keys : List Key} {i j : Nat}

/-! ## Exceptions of a sequence -/

theorem returns_bind_error {α β : Type} {x : Throwing Exception α} {e : Exception}
    (hx : x.run.Returns (.error e)) (g : α → Throwing Exception β) :
    (x >>= g).run.Returns (.error e) := Returns.bind hx (returns_pure.mpr rfl)

theorem returns_bind_ok {α β : Type} {x : Throwing Exception α} {a : α}
    {r : Except Exception β} (hx : x.run.Returns (.ok a)) {g : α → Throwing Exception β}
    (hg : (g a).run.Returns r) : (x >>= g).run.Returns r := Returns.bind hx hg

/-! ## Knots -/

/-- In front of a rank there is a knot that is not below its key. -/
theorem exists_knotsAt (keys : List Key) (j : Nat) :
    ∃ i ≤ j, ∃ k ∈ knotsAt keys i, keyAt keys j ≤ k.1 := by
  induction j with
  | zero =>
      refine ⟨0, Nat.le_refl 0, (keyAt keys 0, rank 0), ?_, le_rfl⟩
      rw [knotsAt, if_pos (Or.inl rfl)]
      exact List.mem_singleton_self _
  | succ j ih =>
      by_cases heq : keyAt keys (j + 1) = keyAt keys j
      · obtain ⟨i, hi, k, hk, hle⟩ := ih
        exact ⟨i, by omega, k, hk, by rw [heq]; exact hle⟩
      · refine ⟨j + 1, Nat.le_refl _, (keyAt keys (j + 1), rank (j + 1)), ?_, le_rfl⟩
        rw [knotsAt, Nat.add_sub_cancel, if_pos (Or.inr heq)]
        exact List.mem_singleton_self _

/-- The knots increase only over keys that do not decrease. -/
theorem pairwise_of_knots (h : (knots keys).Pairwise fun a b => a.1 < b.1) :
    keys.Pairwise (· ≤ ·) := by
  have hacross := (List.pairwise_flatMap.mp (List.pairwise_append.mp h).1).2
  have hstep : ∀ j, j + 1 < keys.length → keyAt keys j ≤ keyAt keys (j + 1) := by
    intro j hj
    by_contra hlt
    obtain ⟨i, hi, k, hk, hle⟩ := exists_knotsAt keys j
    have hmem : (keyAt keys (j + 1), rank (j + 1)) ∈ knotsAt keys (j + 1) := by
      rw [knotsAt, Nat.add_sub_cancel, if_pos (Or.inr (not_le.mp hlt).ne)]
      exact List.mem_singleton_self _
    have hpair := List.pairwise_iff_getElem.mp hacross i (j + 1) (by simp; omega)
      (by simpa using hj) (by omega)
    simp only [List.getElem_range] at hpair
    exact hlt (hle.trans (hpair k hk _ hmem).le)
  apply List.isChain_iff_pairwise.mp
  apply List.isChain_iff_getElem.mpr
  intro j hj
  have hle := hstep j hj
  have hkey : ∀ i (hi : i < keys.length), keyAt keys i = keys[i] := fun i hi =>
    Option.some.inj ((getElem?_keyAt hi).symm.trans (List.getElem?_eq_getElem hi))
  rw [hkey j (by omega), hkey (j + 1) hj] at hle
  exact hle

/-! ## Feeding them -/

/-- The knot that is not behind the last one is not taken. -/
theorem Segmented.feed_throws {ks last : List Knot} {pieces : List (List Knot)} {s : Segmenting S}
    (h : Segmented f epsilon ks pieces last s) (hrising : Rising ks) {k k' : Knot}
    (hk' : k' ∈ ks) (hle : k.1 ≤ k'.1) :
    (PGM.feed f k.1 k.2 s).run.Returns (.error notIncreasing) := by
  have hne := h.last_ne_nil
  have hcount : 0 < s.opt.pointsInHull := by
    rw [h.holding.count]
    exact List.length_pos_iff.mpr hne
  have hend : ks.getLast? = some (last.getLast hne) := by
    rw [← h.flatten, List.flatten_append, List.flatten_singleton, List.getLast?_append,
      List.getLast?_eq_some_getLast hne]
    rfl
  obtain ⟨front, hfront⟩ := List.getLast?_eq_some_iff.mp hend
  have hlast : k'.1 ≤ s.opt.lastX := by
    rw [h.holding.last _ (List.getLast?_eq_some_getLast hne)]
    rw [hfront] at hk' hrising
    rcases List.mem_append.mp hk' with hk' | hk'
    · exact ((List.pairwise_append.mp hrising).2.2 k' hk' _ (List.mem_singleton_self _)).1.le
    · rw [List.mem_singleton.mp hk']
  apply returns_bind_error
  rw [addPoint, if_pos ⟨hcount, hle.trans hlast⟩]
  exact returns_pure.mpr rfl

/-- Knots that do not increase are not taken. -/
theorem Segmented.feedKnots_throws {ks last more : List Knot} {pieces : List (List Knot)}
    {s : Segmenting S} (h : Segmented f epsilon ks pieces last s) (hε : 0 < epsilon.val)
    (hrising : Rising ks) (hranks : (ks ++ more).Pairwise fun a b => a.2 ≤ b.2)
    (hsize : ∀ k ∈ ks ++ more, k.2.val < 2 ^ 32)
    (hbad : ¬ (ks ++ more).Pairwise fun a b => a.1 < b.1) :
    (PGM.feedKnots f more s).run.Returns (.error notIncreasing) := by
  induction more generalizing ks pieces last s with
  | nil =>
      rw [List.append_nil] at hbad
      exact absurd (hrising.imp fun hab => hab.1) hbad
  | cons k more ih =>
      rw [← List.singleton_append, feedKnots_append, feedKnots_singleton]
      by_cases hk : ∀ k' ∈ ks, k'.1 < k.1
      · obtain ⟨s', hs', pieces', last', h'⟩ := h.feed hε hrising
          (fun k' hk' => hsize k' (List.mem_append_left _ hk')) hk
        apply returns_bind_ok (returns_orFail.mp hs')
        have hassoc : ks ++ k :: more = ks ++ [k] ++ more := List.append_cons ..
        rw [hassoc] at hranks hsize hbad
        apply ih h' _ hranks hsize hbad
        apply List.pairwise_append.mpr
        refine ⟨hrising, List.pairwise_singleton .., ?_⟩
        intro a ha b hb
        have hrank := (List.pairwise_append.mp (List.pairwise_append.mp hranks).1).2.2 a ha b hb
        rw [List.mem_singleton.mp hb] at hrank ⊢
        exact ⟨hk a ha, hrank⟩
      · push Not at hk
        obtain ⟨k', hk', hle⟩ := hk
        exact returns_bind_error (h.feed_throws hrising hk' hle) _

/-- The ranks of the knots do not decrease. -/
theorem knots_ranks (hsize : keys.length < 2 ^ 64) :
    (knots keys).Pairwise fun a b => a.2 ≤ b.2 := by
  rw [knots, List.pairwise_append, List.pairwise_flatMap]
  refine ⟨⟨?_, ?_⟩, List.pairwise_singleton .., ?_⟩
  · intro i _
    rw [knotsAt]
    split
    · exact List.pairwise_singleton ..
    · split
      · exact List.pairwise_singleton ..
      · exact List.Pairwise.nil
  · apply List.pairwise_lt_range.imp_of_mem
    intro i j _ hj hij a ha b hb
    rw [(mem_knotsAt ha).1, (mem_knotsAt hb).1]
    exact rank_le_rank hij.le ((List.mem_range.mp hj).trans hsize)
  · intro a ha b hb
    obtain ⟨i, hi, ha⟩ := List.mem_flatMap.mp ha
    rw [List.mem_singleton.mp hb, (mem_knotsAt ha).1]
    exact rank_le_rank (List.mem_range.mp hi).le hsize

/-- `make_segmentation` throws where the knots do not increase. -/
theorem makeSegmentation_throws (hne : keys ≠ []) (hε : 0 < epsilon.val)
    (hsize : keys.length < 2 ^ 32)
    (hbad : ¬ (knots keys).Pairwise fun a b => a.1 < b.1) :
    (makeSegmentationPar f keys.length epsilon keys).run.Returns (.error notIncreasing) := by
  have hranks := @knots_ranks keys (by omega)
  have hbound : ∀ k ∈ knots keys, k.2.val < 2 ^ 32 := fun k hk =>
    (rank_le_length hk).trans_lt hsize
  obtain ⟨k, more, hknots⟩ : ∃ k more, knots keys = k :: more := by
    rw [knots_split (List.length_pos_iff.mpr hne)]
    exact ⟨_, _, rfl⟩
  rw [makeSegmentation_eq hne]
  apply returns_bind_error
  rw [hknots] at hranks hbad hbound ⊢
  rw [← List.singleton_append, feedKnots_append, feedKnots_singleton]
  obtain ⟨s, hs, hsegmented⟩ := Segmented.first f hε k
  apply returns_bind_ok (returns_orFail.mp hs)
  exact hsegmented.feedKnots_throws hε (List.pairwise_singleton ..) hranks hbound hbad

/-- So it throws for keys that are out of order. -/
theorem makeSegmentation_unsorted (hε : 0 < epsilon.val)
    (hsize : keys.length < 2 ^ 32) (hunsorted : ¬ keys.Pairwise (· ≤ ·)) :
    (makeSegmentationPar f keys.length epsilon keys).run.Returns (.error notIncreasing) := by
  refine makeSegmentation_throws ?_ hε hsize fun h => hunsorted (pairwise_of_knots h)
  rintro rfl
  exact hunsorted List.Pairwise.nil

/-! ## Loading them -/

/-- The assertion of `build`. -/
theorem square_ne_zero {epsilon : Nat} (hε : 0 < epsilon) (hlt : epsilon < 2 ^ 32) :
    epsilon * epsilon % 2 ^ 64 ≠ 0 := by
  have hmul : epsilon * epsilon < 2 ^ 32 * 2 ^ 32 := Nat.mul_lt_mul'' hlt hlt
  rw [Nat.mod_eq_of_lt (by omega)]
  exact (Nat.mul_pos hε hε).ne'

theorem tryNew_unsorted {epsilon : Nat} (hε : 0 < epsilon)
    (hsize : keys.length + epsilon < 2 ^ 32) (hlast : keys.getLast? ≠ some sentinel)
    (hunsorted : ¬ keys.Pairwise (· ≤ ·)) :
    (PGMIndex.tryNew f.toFloating f.segmentation epsilon keys).run.Returns
      (.error notIncreasing) := by
  apply returns_bind_error
  cases hback : keys.getLast? with
  | none =>
      rw [List.getLast?_eq_none_iff.mp hback] at hunsorted
      exact absurd List.Pairwise.nil hunsorted
  | some last =>
      rw [tryBuild, hback]
      have hassert : (assert (decide (epsilon * epsilon % 2 ^ 64 ≠ 0))).Returns ⟨⟩ :=
        returns_assert.mpr (decide_eq_true (square_ne_zero hε (by omega)))
      apply returns_bind_ok (Returns.map _ hassert)
      rw [if_neg fun h => hlast (hback.trans (congrArg some h))]
      -- The first level, its segmentation, and the knots are one sequence of calls.
      apply returns_bind_error
      apply returns_bind_error
      apply returns_bind_error
      have hrank : (rank epsilon).val = epsilon := Nat.mod_eq_of_lt (by omega)
      exact makeSegmentation_unsorted (hrank.symm ▸ hε) (by omega) hunsorted

/-- Loading a vector after which the keys are out of order throws.  The vector is added to the
columns all the same, and the index is the old one. -/
theorem tryBulkLoad_unsorted {epsilon : Nat} (hε : 0 < epsilon) (pgm : PGMWrapper S V)
    {data : List (Key × V)}
    (hsize : (pgm.keys ++ data.map Prod.fst).length + epsilon < 2 ^ 32)
    (hlast : (pgm.keys ++ data.map Prod.fst).getLast? ≠ some sentinel)
    (hunsorted : ¬ (pgm.keys ++ data.map Prod.fst).Pairwise (· ≤ ·)) :
    (pgm.tryBulkLoad f.toFloating f.segmentation epsilon data).Returns
      (⟨⟨pgm.keys ++ data.map Prod.fst, pgm.values ++ data.map Prod.snd⟩, pgm.index⟩,
        .error notIncreasing) := by
  exact Returns.bind (tryNew_unsorted hε hsize hlast hunsorted) (returns_pure.mpr rfl)

/-- A second load that goes back. -/
theorem tryBulkLoad_unsorted_two :
    ((⟨⟨[11], [0]⟩, ⟨1, 11, [], []⟩⟩ : PGMWrapper (Nat × Nat) Nat).tryBulkLoad
      quotients.toFloating quotients.segmentation 64 [(10, 1)]).Returns
        (⟨⟨[11, 10], [0, 1]⟩, ⟨1, 11, [], []⟩⟩, .error notIncreasing) :=
  tryBulkLoad_unsorted (by decide) ⟨⟨[11], [0]⟩, ⟨1, 11, [], []⟩⟩ (by decide) (by decide)
    (by decide)

end PGM
