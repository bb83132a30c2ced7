import PrefetchBench.RS.Window

/-!
# Every index, every query

What holds of an index that is default-constructed or comes from a builder (`Made`), whatever its
smallest and largest key and its number of prefix bits are, for every query.

`GetSearchBound` is safe (`Made.getSearchBound_safe`).  With no more prefix bits than a key has,
the radix table loses nothing: the segment is the one that the search of the whole spline finds
(`ofKeys_getSplineSegment`).
-/

namespace RS

open Prog Ranges

variable {w : Nat}

/-! ## What a builder was given -/

section OfKeys

variable {minKey maxKey : Key w} {numRadixBits maxError : Nat} {keys : List (Key w)}
  {s : RadixSpline w}

/-- An index that was made from keys is what the builder with these keys makes. -/
theorem RadixSpline.ofKeys_finalize
    (h : (RadixSpline.ofKeys minKey maxKey numRadixBits maxError keys).Returns s) :
    minKey ≤ maxKey ∧ numRadixBits < 64 ∧
      (⟨minKey, maxKey, numRadixBits, maxError, keys⟩ : Builder w).finalize.Returns s := by
  obtain ⟨b, hb, h⟩ := returns_bind.mp h
  obtain ⟨b', hb', h⟩ := returns_bind.mp h
  obtain ⟨_, hle, hb⟩ := returns_bind.mp hb
  obtain ⟨_, hbits, hb⟩ := returns_bind.mp hb
  cases returns_pure.mp hb
  have hkeys := hb'.forRange_keeps
    (fun i b => b = ⟨minKey, maxKey, numRadixBits, maxError, keys.take i⟩) rfl
    (fun i b b' hi hb hstep => by
      subst hb
      obtain ⟨key, hkey, hstep⟩ := returns_bind.mp hstep
      obtain ⟨_, _, hstep⟩ := returns_bind.mp hstep
      obtain ⟨_, _, hstep⟩ := returns_bind.mp hstep
      cases returns_pure.mp hstep
      have hget := returns_read.mp hkey
      rw [List.getElem?_eq_getElem hi, Option.some.injEq] at hget
      rw [List.take_succ_eq_append_getElem hi, hget])
  rw [List.take_length] at hkeys
  subst hkeys
  exact ⟨of_decide_eq_true (returns_assert.mp hle), of_decide_eq_true (returns_assert.mp hbits), h⟩

/-- Keys in order and within the bounds of the builder can be added. -/
theorem RadixSpline.ofKeys_iff (hle : minKey ≤ maxKey) (hbits : numRadixBits < 64)
    (hsorted : keys.Pairwise (· ≤ ·)) (hbounds : ∀ k ∈ keys, minKey ≤ k ∧ k ≤ maxKey) :
    (RadixSpline.ofKeys minKey maxKey numRadixBits maxError keys).Returns s ↔
      (⟨minKey, maxKey, numRadixBits, maxError, keys⟩ : Builder w).finalize.Returns s := by
  have hnew : (Builder.new minKey maxKey numRadixBits maxError).Returns
      ⟨minKey, maxKey, numRadixBits, maxError, []⟩ :=
    returns_assert_bind.mpr ⟨decide_eq_true hle,
      returns_assert_bind.mpr ⟨decide_eq_true hbits, returns_pure.mpr rfl⟩⟩
  rw [RadixSpline.ofKeys, hnew.bind_iff,
    (addKeys_returns numRadixBits maxError hsorted hbounds).bind_iff]

end OfKeys

/-- The constructor takes over what the builder was made with. -/
theorem Builder.finalize_eq {b : Builder w} {s : RadixSpline w} (h : b.finalize.Returns s) :
    ∃ splinePoints radixTable, s = ⟨b.minKey, b.maxKey, b.keys.length, b.numRadixBits, b.maxError,
      splinePoints, radixTable⟩ := by
  obtain ⟨points, _, h⟩ := returns_bind.mp h
  obtain ⟨table, _, h⟩ := returns_bind.mp h
  obtain ⟨_, _, h⟩ := returns_bind.mp h
  obtain ⟨_, _, h⟩ := returns_bind.mp h
  exact ⟨points, table, (returns_pure.mp h).symm⟩

/-- Without keys the window of every query is empty. -/
theorem Builder.finalize_nil {b : Builder w} {s : RadixSpline w} (hkeys : b.keys = [])
    (h : b.finalize.Returns s) (key : Key w) : (s.getSearchBound key).Returns ⟨0, 0⟩ := by
  have hn : b.keys.length = 0 := List.length_eq_zero_iff.mpr hkeys
  obtain ⟨points, table, rfl⟩ := Builder.finalize_eq h
  rw [RadixSpline.getSearchBound, if_pos (Or.inl hn)]
  exact returns_pure.mpr rfl

/-! ## Safety of GetSearchBound -/

/-- The indexes that the program can hold. -/
inductive Made : RadixSpline w → Prop
/-- The default constructor. -/
| empty : Made RadixSpline.empty
/-- A builder. -/
| ofKeys {minKey maxKey : Key w} {numRadixBits maxError : Nat} {keys : List (Key w)}
    {s : RadixSpline w} :
    (RadixSpline.ofKeys minKey maxKey numRadixBits maxError keys).Returns s → Made s

/-- A window of the keys that is not too wide. -/
structure RadixSpline.BoundOk (s : RadixSpline w) (b : Window) : Prop where
  /-- The window is not reversed. -/
  ordered : b.lo ≤ b.hi
  /-- It is within the keys. -/
  hi_le : b.hi ≤ s.numKeys
  /-- It is not too wide. -/
  width_le : b.hi - b.lo ≤ 2 * s.maxError + 2

/-- Every query gets a window, without a read outside the spline or the table, and without a
division by zero. -/
theorem Made.getSearchBound_safe {s : RadixSpline w} (h : Made s) (key : Key w) :
    (s.getSearchBound key).Ensures s.BoundOk := by
  cases h with
  | empty =>
      exact (getSearchBound_empty key).ensures ⟨Nat.le_refl _, Nat.le_refl _, Nat.zero_le _⟩
  | @ofKeys minKey maxKey numRadixBits maxError keys _ h =>
      obtain ⟨hle, hbits, hfin⟩ := RadixSpline.ofKeys_finalize h
      rcases Decidable.em (keys = []) with hkeys | hkeys
      · exact (Builder.finalize_nil hkeys hfin key).ensures
          ⟨Nat.le_refl _, Nat.zero_le _, Nat.zero_le _⟩
      · obtain ⟨bucket, hfitted⟩ := Builder.finalize_fitted hfin hkeys hbits hle
        refine (hfitted.getSearchBound key).mono fun b hb => ⟨hb.1, ?_, ?_⟩
        · rw [hfitted.numKeys_eq]
          exact hb.2.1
        · rw [hfitted.maxError_eq]
          exact hb.2.2

/-- An index over two equal keys and a larger one. -/
theorem getSearchBound_safe_twice :
    ∃ s, (RadixSpline.ofKeys 0 9 2 1 ([3, 3, 5] : List (Key 8))).Returns s ∧
      (s.getSearchBound 4).Ensures s.BoundOk := by
  obtain ⟨s, hs, _⟩ := @Builder.finalize_ensures 8 ⟨0, 9, 2, 1, [3, 3, 5]⟩ _ (by decide) (by decide)
    (fun _ _ key _ => getPrefix_returns (by decide) (by decide +kernel) key)
    fun key => bucketOf_lt _ _ _ key
  have hmade := (RadixSpline.ofKeys_iff (by decide +kernel) (by decide) (by decide)
    (by decide +kernel)).mpr hs
  exact ⟨s, hmade, (Made.ofKeys hmade).getSearchBound_safe 4⟩

/-! ## The segment of a query -/

/-- The last spline point at or below a key is the one before the first above it. -/
theorem findIdx_isGreatest {points : List (Coord w)}
    (hsorted : points.Pairwise fun c d => c.x ≤ d.x) (key : Key w) :
    IsGreatest (insert 0 {i | ∃ c ∈ points[i]?, c.x ≤ key})
      (points.findIdx (fun c => decide (key < c.x)) - 1) := by
  constructor
  · rcases Nat.eq_zero_or_pos (points.findIdx fun c => decide (key < c.x)) with h0 | hpos
    · rw [h0]
      exact Set.mem_insert 0 _
    · have hlt : points.findIdx (fun c => decide (key < c.x)) - 1 <
          points.findIdx (fun c => decide (key < c.x)) := Nat.sub_lt hpos Nat.zero_lt_one
      obtain ⟨c, hc⟩ := KeyArray.exists_getElem? points (hlt.trans_le List.findIdx_le_length)
      exact Set.mem_insert_of_mem 0 ⟨c, hc, le_of_lt_findIdx hlt hc⟩
  · rintro i (rfl | ⟨c, hc, hle⟩)
    · exact Nat.zero_le _
    · refine Nat.le_sub_one_of_lt (not_le.mp fun hge => ?_)
      exact absurd hle (not_le.mpr (lt_of_findIdx_le hsorted hge hc))

/-- The same spline without a table, so that the search is over all of it. -/
def RadixSpline.withoutTable (s : RadixSpline w) : RadixSpline w := { s with radixTable := [] }

theorem RadixSpline.getSplineSegment_whole {s : RadixSpline w} (key : Key w)
    (hsorted : s.splinePoints.Pairwise fun c d => c.x ≤ d.x) :
    (s.withoutTable.getSplineSegment key).Returns
      (segmentOf s.splinePoints key) := by
  rw [RadixSpline.getSplineSegment, RadixSpline.withoutTable, segmentOf]
  split
  · exact returns_pure.mpr (by simp only at *; omega)
  · have hlen : s.splinePoints.findIdx (fun c => decide (key < c.x)) ≤ s.splinePoints.length :=
      List.findIdx_le_length
    refine Returns.bind (a := ⟨0, s.splinePoints.length⟩) (returns_pure.mpr rfl) ?_
    refine Returns.bind
      (upperBound_points key hsorted (Nat.zero_le _) hlen (Nat.le_refl _)) ?_
    rw [returns_pure]
    simp only
    split <;> split <;> omega

/-- With no more prefix bits than a key has, an index can be made from every nonempty sequence of
keys in order, and for every query the segment is the last spline point at or below it, which is
what the search of the whole spline finds: the first point if there is none, and never the last
one. -/
theorem ofKeys_getSplineSegment {minKey maxKey : Key w} {numRadixBits : Nat}
    (hbits : numRadixBits < 64) (hw : numRadixBits ≤ w) (maxError : Nat) {keys : List (Key w)}
    (hkeys : keys ≠ []) (hsorted : keys.Pairwise (· ≤ ·))
    (hbounds : ∀ k ∈ keys, minKey ≤ k ∧ k ≤ maxKey) :
    (RadixSpline.ofKeys minKey maxKey numRadixBits maxError keys).Ensures fun s => ∀ key, ∃ i,
      IsGreatest (insert 0 {i | ∃ c ∈ s.splinePoints[i]?, c.x ≤ key}) i ∧
        (s.getSplineSegment key).Returns (min i (s.splinePoints.length - 2)) ∧
        (s.withoutTable.getSplineSegment key).Returns
          (min i (s.splinePoints.length - 2)) := by
  obtain ⟨k, hk⟩ := List.exists_mem_of_ne_nil keys hkeys
  have hle := (hbounds k hk).1.trans (hbounds k hk).2
  have hbucketOf := fun key => getPrefix_returns hw hle key
  obtain ⟨s, hs, hfitted⟩ := Builder.finalize_ensures
    (b := ⟨minKey, maxKey, numRadixBits, maxError, keys⟩) hkeys hbits
    (fun _ _ key _ => hbucketOf key) fun key => bucketOf_lt _ _ _ key
  refine ⟨s, (RadixSpline.ofKeys_iff hle hbits hsorted hbounds).mpr hs, fun key => ?_⟩
  have hspline := hfitted.sorted hkeys hsorted
  refine ⟨_, findIdx_isGreatest hspline key, ?_, RadixSpline.getSplineSegment_whole key hspline⟩
  rcases Nat.lt_or_ge 1 s.splinePoints.length with hn | hn
  · refine hfitted.indexed.segment (bucketOf_mono _ _ _) hspline hn ?_
    obtain ⟨points, table, rfl⟩ := Builder.finalize_eq hs
    exact hbucketOf key
  · rw [RadixSpline.getSplineSegment, if_pos hn]
    exact returns_pure.mpr (by omega)

/-- Queries below, between and above the keys, with fewer prefixes than keys. -/
theorem ofKeys_getSplineSegment_twice :
    (RadixSpline.ofKeys 0 9 2 1 ([3, 3, 5] : List (Key 8))).Ensures fun s => ∀ key, ∃ i,
      IsGreatest (insert 0 {i | ∃ c ∈ s.splinePoints[i]?, c.x ≤ key}) i ∧
        (s.getSplineSegment key).Returns (min i (s.splinePoints.length - 2)) ∧
        (s.withoutTable.getSplineSegment key).Returns
          (min i (s.splinePoints.length - 2)) :=
  ofKeys_getSplineSegment (by decide) (by decide) 1 (by decide) (by decide) (by decide +kernel)

end RS
