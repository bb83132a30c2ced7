import PrefetchBench.PGM.Pieces

/-!
# The knots of a sequence of keys

For nondecreasing keys, `make_segmentation` feeds the model with the first rank of every key, with
the key behind a run of equal keys where the next key leaves room for it, and with the key behind
the last one, which gets the rank `n` (`knots`).  So it feeds a rising sequence of knots
(`knots_rising`) in which every key has its first rank (`mem_knots`).
-/

namespace PGM

open Prog Corridor OptimalPiecewiseLinearModel

variable {S : Type} {f : Quotients S} {epsilon : Size} {keys : List Key} {i : Nat} {x : Key}

/-- The key at a rank. -/
def keyAt (keys : List Key) (i : Nat) : Key := keys.getD i 0

/-- A rank, as a `size_t`. -/
abbrev rank (i : Nat) : Size := Fin.ofNat (2 ^ 64) i

/-- The knots that are fed for the key at a rank. -/
def knotsAt (keys : List Key) (i : Nat) : List Knot :=
  if i = 0 ∨ keyAt keys i ≠ keyAt keys (i - 1) then [(keyAt keys i, rank i)]
  else if keyAt keys i + 1 < keyAt keys (i + 1) then [(keyAt keys i + 1, rank i)]
  else []

/-- All knots. -/
def knots (keys : List Key) : List Knot :=
  (List.range keys.length).flatMap (knotsAt keys) ++
    [(keyAt keys (keys.length - 1) + 1, rank keys.length)]

/-! ## Feeding them -/

theorem getElem?_keyAt (h : i < keys.length) : keys[i]? = some (keyAt keys i) := by
  rw [keyAt, List.getD_eq_getElem?_getD, List.getElem?_eq_getElem h, Option.getD_some]

theorem lift_read_bind {β : Type} (h : i < keys.length) (g : Key → Throwing Exception β) :
    (ExceptT.lift (read keys i) >>= g) = g (keyAt keys i) := by
  rw [Prog.read, getElem?_keyAt h]
  rfl

/-- Feeding the model with some knots. -/
def feedKnots (f : Quotients S) (more : List Knot) (s : Segmenting S) :
    Throwing Exception (Segmenting S) := more.foldlM (fun s k => feed f k.1 k.2 s) s

@[simp] theorem feedKnots_nil (f : Quotients S) (s : Segmenting S) :
    feedKnots f [] s = pure s := rfl

@[simp] theorem feedKnots_singleton (f : Quotients S) (k : Knot) (s : Segmenting S) :
    feedKnots f [k] s = feed f k.1 k.2 s := by
  simp only [feedKnots, List.foldlM_cons, List.foldlM_nil, bind_pure]

theorem feedKnots_append (f : Quotients S) (more more' : List Knot) (s : Segmenting S) :
    feedKnots f (more ++ more') s = feedKnots f more s >>= feedKnots f more' :=
  List.foldlM_append

theorem feedMiddle_eq (h : i + 2 < keys.length) (s : Segmenting S) :
    feedMiddle f keys s (i + 1) = feedKnots f (knotsAt keys (i + 1)) s := by
  rw [feedMiddle, lift_read_bind (by omega), Nat.add_sub_cancel, lift_read_bind (by omega),
    knotsAt, Nat.add_sub_cancel]
  by_cases heq : keyAt keys (i + 1) = keyAt keys i
  · have hno : ¬ (i + 1 = 0 ∨ keyAt keys (i + 1) ≠ keyAt keys i) := by simp [heq]
    rw [if_pos heq, lift_read_bind h, if_neg hno]
    split
    · rw [feedKnots_singleton]
    · rw [feedKnots_nil]
  · rw [if_neg heq, if_pos (Or.inr heq), feedKnots_singleton]

theorem feedMiddle_foldlM (m : Nat) (h : m + 2 ≤ keys.length) (s : Segmenting S) :
    (List.range' 1 m).foldlM (feedMiddle f keys) s =
      feedKnots f ((List.range' 1 m).flatMap (knotsAt keys)) s := by
  induction m generalizing s with
  | zero => rfl
  | succ m ih =>
      rw [List.range'_1_concat, List.foldlM_append, List.flatMap_append, feedKnots_append]
      rw [ih (by omega)]
      refine congrArg _ (funext fun s => ?_)
      rw [List.flatMap_singleton, Nat.add_comm 1 m, ← feedMiddle_eq (by omega)]
      simp only [List.foldlM_cons, List.foldlM_nil, bind_pure]

theorem feedLast_eq (h : 0 < keys.length) (s : Segmenting S) :
    feedLast f keys 0 keys.length s = feedKnots f
      (if 2 ≤ keys.length then knotsAt keys (keys.length - 1) else []) s := by
  rw [feedLast, Nat.zero_add]
  by_cases hlen : 2 ≤ keys.length
  · rw [if_pos hlen, if_pos hlen, lift_read_bind (by omega), lift_read_bind (by omega), knotsAt,
      show keys.length - 1 - 1 = keys.length - 2 by omega]
    by_cases heq : keyAt keys (keys.length - 1) = keyAt keys (keys.length - 2)
    · -- behind the last key there is no other one
      have hend : keyAt keys (keys.length - 1 + 1) = 0 := by
        rw [Nat.sub_add_cancel h, keyAt, List.getD_eq_getElem?_getD,
          List.getElem?_eq_none (Nat.le_refl _), Option.getD_none]
      have hno : ¬ (keys.length - 1 = 0 ∨
          keyAt keys (keys.length - 1) ≠ keyAt keys (keys.length - 2)) := by
        rintro (hzero | hne)
        · omega
        · exact hne heq
      rw [if_neg (not_not.mpr heq), if_neg hno, hend, if_neg (Fin.not_lt_zero _), feedKnots_nil]
    · rw [if_pos heq, if_pos (Or.inr heq), feedKnots_singleton]
  · rw [if_neg hlen, if_neg hlen, feedKnots_nil]

theorem knots_split (h : 0 < keys.length) : knots keys =
    [(keyAt keys 0, rank 0)] ++ (List.range' 1 (keys.length - 2)).flatMap (knotsAt keys) ++
      (if 2 ≤ keys.length then knotsAt keys (keys.length - 1) else []) ++
        [(keyAt keys (keys.length - 1) + 1, rank keys.length)] := by
  have hfirst : knotsAt keys 0 = [(keyAt keys 0, rank 0)] := if_pos (Or.inl rfl)
  rw [knots, ← hfirst]
  obtain ⟨n, hn⟩ := Nat.exists_eq_add_one.mpr h
  rw [hn, List.range_eq_range']
  cases n with
  | zero => simp
  | succ n =>
      rw [if_pos (by omega), List.range'_succ, List.flatMap_cons, List.range'_1_concat,
        List.flatMap_append, List.flatMap_singleton]
      simp [Nat.add_comm 1 n]

/-- `make_segmentation` feeds the knots, and hands out the segment of the last piece. -/
theorem makeSegmentation_eq (h : keys ≠ []) : makeSegmentationPar f keys.length epsilon keys =
    (do
      let s ← feedKnots f (knots keys) ⟨.new epsilon, [], 0⟩
      let segment ← Segment.ofCanonical f s.opt.getSegment
      pure ⟨s.opt, s.out ++ [segment], s.c + 1⟩) := by
  have hlen := List.length_pos_iff.mpr h
  rw [makeSegmentationPar, makeSegmentation, lift_read_bind hlen, knots_split hlen,
    feedKnots_append, feedKnots_append, feedKnots_append, feedKnots_singleton]
  simp only [bind_assoc]
  refine congrArg _ (funext fun s => ?_)
  have hmiddle : (List.range' (0 + 1) (keys.length - 1 - (0 + 1))).foldlM (feedMiddle f keys) s =
      feedKnots f ((List.range' 1 (keys.length - 2)).flatMap (knotsAt keys)) s := by
    rw [Nat.zero_add, show keys.length - 1 - 1 = keys.length - 2 by omega]
    cases hn : keys.length - 2 with
    | zero => rfl
    | succ n => exact feedMiddle_foldlM (n + 1) (by omega) s
  rw [hmiddle]
  refine congrArg _ (funext fun s => ?_)
  rw [feedLast_eq hlen]
  refine congrArg _ (funext fun s => ?_)
  rw [feedEnd, if_pos rfl, lift_read_bind (by omega), feedKnots_singleton]

/-! ## Nondecreasing keys -/

/-- Keys that the library takes. -/
structure Indexable (keys : List Key) : Prop where
  /-- The keys do not decrease. -/
  sorted : keys.Pairwise (· ≤ ·)
  /-- No key is the sentinel. -/
  below : ∀ k ∈ keys, k < sentinel
  /-- There are keys, and their number fits into a `size_t`. -/
  size : 0 < keys.length ∧ keys.length < 2 ^ 64

theorem keyAt_mem (h : i < keys.length) : keyAt keys i ∈ keys :=
  List.mem_of_getElem? (getElem?_keyAt h)

theorem mem_knotsAt {k : Knot} (h : k ∈ knotsAt keys i) : k.2 = rank i ∧
    ((k.1 = keyAt keys i ∧ (i = 0 ∨ keyAt keys i ≠ keyAt keys (i - 1))) ∨
      (k.1 = keyAt keys i + 1 ∧ keyAt keys i + 1 < keyAt keys (i + 1))) := by
  rw [knotsAt] at h
  split at h
  · rename_i hfirst
    rw [List.mem_singleton.mp h]
    exact ⟨rfl, Or.inl ⟨rfl, hfirst⟩⟩
  · split at h
    · rename_i hroom
      rw [List.mem_singleton.mp h]
      exact ⟨rfl, Or.inr ⟨rfl, hroom⟩⟩
    · cases h

theorem rank_le_rank {i j : Nat} (hij : i ≤ j) (hj : j < 2 ^ 64) : rank i ≤ rank j := by
  rw [Fin.le_def]
  show i % 2 ^ 64 ≤ j % 2 ^ 64
  rw [Nat.mod_eq_of_lt (hij.trans_lt hj), Nat.mod_eq_of_lt hj]
  exact hij

namespace Indexable

variable {j : Nat}

theorem keyAt_le (h : Indexable keys) (hij : i ≤ j) (hj : j < keys.length) :
    keyAt keys i ≤ keyAt keys j := by
  rcases Nat.eq_or_lt_of_le hij with rfl | hlt
  · exact le_rfl
  · obtain ⟨hi', hi⟩ := List.getElem?_eq_some_iff.mp (getElem?_keyAt (hij.trans_lt hj))
    obtain ⟨hj', hj⟩ := List.getElem?_eq_some_iff.mp (getElem?_keyAt hj)
    rw [← hi, ← hj]
    exact List.pairwise_iff_getElem.mp h.sorted i j hi' hj' hlt

theorem lt_succ (h : Indexable keys) (hi : i < keys.length) :
    keyAt keys i < keyAt keys i + 1 := by
  have hlt := h.below _ (keyAt_mem hi)
  exact Fin.lt_add_one_iff.mpr hlt

/-- The knots of a rank are in front of those of later ranks. -/
theorem knotsAt_lt (h : Indexable keys) (hij : i < j) (hj : j < keys.length) {a b : Knot}
    (ha : a ∈ knotsAt keys i) (hb : b ∈ knotsAt keys j) : a.1 < b.1 ∧ a.2 ≤ b.2 := by
  obtain ⟨harank, ha⟩ := mem_knotsAt ha
  obtain ⟨hbrank, hb⟩ := mem_knotsAt hb
  have hbelow : keyAt keys j ≤ b.1 := by
    rcases hb with ⟨hb, _⟩ | ⟨hb, _⟩
    · exact hb.ge
    · rw [hb]
      exact (h.lt_succ hj).le
  constructor
  · rcases ha with ⟨ha, _⟩ | ⟨ha, hroom⟩
    · rcases hb with ⟨hb, hfirst⟩ | ⟨hb, _⟩
      · -- the key in front of the later one is smaller
        have hne : keyAt keys j ≠ keyAt keys (j - 1) := hfirst.resolve_left (by omega)
        have hle := h.keyAt_le (i := i) (j := j - 1) (by omega) (by omega)
        have hle' := h.keyAt_le (i := j - 1) (j := j) (by omega) hj
        rw [ha, hb]
        exact hle.trans_lt (lt_of_le_of_ne hle' hne.symm)
      · rw [ha, hb]
        exact (h.keyAt_le hij.le hj).trans_lt (h.lt_succ hj)
    · rw [ha]
      exact hroom.trans_le ((h.keyAt_le hij hj).trans hbelow)
  · rw [harank, hbrank]
    exact rank_le_rank hij.le (hj.trans h.size.2)

/-- And at most at the last key. -/
theorem le_last (h : Indexable keys) (hi : i < keys.length) {a : Knot}
    (ha : a ∈ knotsAt keys i) : a.1 ≤ keyAt keys (keys.length - 1) := by
  have hn := h.size.1
  obtain ⟨_, ⟨ha, _⟩ | ⟨ha, hroom⟩⟩ := mem_knotsAt ha
  · rw [ha]
    exact h.keyAt_le (by omega) (by omega)
  · rcases Nat.lt_or_ge (i + 1) keys.length with hlt | hge
    · rw [ha]
      exact hroom.le.trans (h.keyAt_le (by omega) (by omega))
    · -- there is no key behind the last one
      rw [keyAt, keyAt, List.getD_eq_getElem?_getD (i := i + 1), List.getElem?_eq_none hge,
        Option.getD_none] at hroom
      exact absurd hroom (Fin.not_lt_zero _)

/-- The knots rise. -/
theorem knots_rising (h : Indexable keys) : Rising (knots keys) := by
  have hn := h.size.1
  rw [Rising, knots, List.pairwise_append, List.pairwise_flatMap]
  refine ⟨⟨?_, ?_⟩, List.pairwise_singleton .., ?_⟩
  · intro i _
    rw [knotsAt]
    split
    · exact List.pairwise_singleton ..
    · split
      · exact List.pairwise_singleton ..
      · exact List.Pairwise.nil
  · apply List.pairwise_lt_range.imp_of_mem
    intro i j _ hj hij a ha b hb
    exact h.knotsAt_lt hij (List.mem_range.mp hj) ha hb
  · intro a ha b hb
    obtain ⟨i, hi, ha⟩ := List.mem_flatMap.mp ha
    rw [List.mem_range] at hi
    rw [List.mem_singleton.mp hb]
    constructor
    · exact (h.le_last hi ha).trans_lt (h.lt_succ (by omega))
    · rw [(mem_knotsAt ha).1]
      exact rank_le_rank hi.le h.size.2

/-- The first rank of a key. -/
theorem lowerBound_lt (h : Indexable keys) {k : Key} (hk : k ∈ keys) :
    KeyArray.lowerBound keys k keys.length < keys.length ∧
      keyAt keys (KeyArray.lowerBound keys k keys.length) = k := by
  obtain ⟨i, hi, rfl⟩ := List.mem_iff_getElem.mp hk
  have hget : keys[i]? = some keys[i] := List.getElem?_eq_getElem hi
  have hle : KeyArray.lowerBound keys keys[i] keys.length ≤ i := by
    by_contra hlt
    exact absurd (KeyArray.lt_of_lt_lowerBound (not_le.mp hlt) hget) (lt_irrefl _)
  have hlt := hle.trans_lt hi
  have hkey : keyAt keys i = keys[i] := Option.some.inj ((getElem?_keyAt hi).symm.trans hget)
  refine ⟨hlt, le_antisymm ?_ ?_⟩
  · rw [← hkey]
    exact h.keyAt_le (by rw [hkey]; exact hle) hi
  · exact KeyArray.le_of_lowerBound hlt (getElem?_keyAt hlt)

/-- Every key has its first rank. -/
theorem mem_knots (h : Indexable keys) {k : Key} (hk : k ∈ keys) :
    (k, rank (KeyArray.lowerBound keys k keys.length)) ∈ knots keys := by
  obtain ⟨hlt, hkey⟩ := h.lowerBound_lt hk
  generalize hr : KeyArray.lowerBound keys k keys.length = r at *
  apply List.mem_append_left
  apply List.mem_flatMap.mpr
  refine ⟨r, List.mem_range.mpr hlt, ?_⟩
  have hfirst : r = 0 ∨ keyAt keys r ≠ keyAt keys (r - 1) := by
    rcases Nat.eq_zero_or_pos r with hzero | hpos
    · exact Or.inl hzero
    · have hbefore := KeyArray.lt_of_lt_lowerBound (i := r - 1) (by rw [hr]; omega)
        (getElem?_keyAt (by omega))
      rw [hkey]
      exact Or.inr hbefore.ne'
  rw [knotsAt, if_pos hfirst, hkey]
  exact List.mem_singleton_self _

end Indexable

/-- The ranks of the knots. -/
theorem rank_le_length {k : Knot} (hk : k ∈ knots keys) : k.2.val ≤ keys.length := by
  rcases List.mem_append.mp hk with hk | hk
  · obtain ⟨i, hi, hk⟩ := List.mem_flatMap.mp hk
    rw [(mem_knotsAt hk).1]
    exact (Nat.mod_le _ _).trans (List.mem_range.mp hi).le
  · rw [List.mem_singleton.mp hk]
    exact Nat.mod_le _ _

/-! ## Segmentation -/

/-- The segments of some keys, one for each piece of a greedy cut of the knots. -/
structure Cut (f : Quotients S) (epsilon : Size) (keys : List Key) (pieces : List (List Knot))
    (out : List (Segment S)) : Prop where
  /-- The knots are cut. -/
  flatten : pieces.flatten = knots keys
  /-- No piece could go on. -/
  greedy : Greedy (Fitting epsilon) pieces
  /-- Each segment is drawn for its piece. -/
  drawn : List.Forall₂ (fun piece segment => ∃ l, Drawn f epsilon piece segment l) pieces out
  /-- The first ranks of the pieces are more than `2 * epsilon` apart. -/
  spread : (2 * epsilon.val + 1) * (pieces.length - 1) ≤ keys.length

theorem two_le_length_knots (h : keys ≠ []) : 2 ≤ (knots keys).length := by
  rw [knots_split (List.length_pos_iff.mpr h)]
  simp only [List.length_append, List.length_singleton]
  omega

/-- `make_segmentation` returns, with the segments of a greedy cut and their number. -/
theorem makeSegmentation_ensures (h : Indexable keys) (hε : 0 < epsilon.val)
    (hsize : keys.length < 2 ^ 32) :
    (orFail (makeSegmentationPar f keys.length epsilon keys)).Ensures fun s =>
      s.c = s.out.length ∧ ∃ pieces, Cut f epsilon keys pieces s.out := by
  have hn := h.size.1
  have hrising := h.knots_rising
  have hranks : ∀ k ∈ knots keys, k.2.val < 2 ^ 32 := fun k hk =>
    (rank_le_length hk).trans_lt hsize
  rw [makeSegmentation_eq (List.length_pos_iff.mp hn), orFail_bind]
  have hfeed : (orFail (feedKnots f (knots keys) ⟨.new epsilon, [], 0⟩)).Ensures fun s =>
      ∃ pieces last, Segmented f epsilon (knots keys) pieces last s := by
    obtain ⟨k, more, hknots⟩ : ∃ k more, knots keys = k :: more := by
      rw [knots_split hn]
      exact ⟨_, _, rfl⟩
    rw [hknots] at hrising hranks ⊢
    rw [← List.singleton_append, feedKnots_append, feedKnots_singleton, orFail_bind]
    apply (Segmented.first f hε k).bind
    intro s hs
    exact hs.feedAll hε hrising hranks
  apply hfeed.bind
  rintro s ⟨pieces, last, hs⟩
  rw [orFail_bind]
  have hone : ∀ k, last = [k] → 2 * epsilon.val ≤ k.2.val := fun _ hlast =>
    hs.last_single hrising (two_le_length_knots (List.length_pos_iff.mp hn)) hlast
  apply (hs.draw hrising hranks hone).bind
  intro segment hsegment
  rw [orFail_pure]
  apply Ensures.pure
  refine ⟨?_, pieces ++ [last], hs.flatten, hs.greedy, ?_, ?_⟩
  · rw [hs.count, List.length_append, List.length_singleton]
  · exact List.rel_append hs.out (.cons hsegment .nil)
  · apply Rising.spread _ hs.greedy
    · intro k hk
      rw [hs.flatten] at hk
      exact rank_le_length hk
    · rw [hs.flatten]
      exact hrising

/-- `make_segmentation` cuts the knots into pieces that lines fit, one for each segment, and no
other cut into such pieces has fewer of them.  The first ranks of the pieces are more than
`2 * epsilon` apart, so there are not many. -/
theorem makeSegmentation_fewest (f : Quotients S) (h : Indexable keys) (hε : 0 < epsilon.val)
    (hsize : keys.length + epsilon.val < 2 ^ 32) :
    (orFail (makeSegmentationPar f keys.length epsilon keys)).Ensures fun s =>
      s.c = s.out.length ∧
        (∃ pieces : List (List Knot), pieces.flatten = knots keys ∧
          (∀ piece ∈ pieces, Fitting epsilon piece) ∧
          List.Forall₂ (fun piece segment => (piece.map Prod.fst).head? = some segment.key)
            pieces s.out ∧
          pieces.IsChain fun a b => firstRank a + (2 * epsilon.val + 1) ≤ firstRank b) ∧
        (∀ others : List (List Knot), others.flatten = knots keys →
          (∀ piece ∈ others, Fitting epsilon piece) → s.c ≤ others.length) ∧
        (2 * epsilon.val + 1) * (s.c - 1) ≤ keys.length := by
  apply (makeSegmentation_ensures h hε (by omega)).mono
  rintro s ⟨hcount, pieces, hcut⟩
  have hlength : pieces.length = s.c := by rw [hcount, hcut.drawn.length_eq]
  have hrising : Rising pieces.flatten := by
    rw [hcut.flatten]
    exact h.knots_rising
  refine ⟨hcount, ⟨pieces, hcut.flatten, hcut.greedy.holds, ?_, hrising.steps hcut.greedy⟩, ?_, ?_⟩
  · exact hcut.drawn.imp fun piece segment ⟨l, hl⟩ => hl.key
  · intro others hflatten hothers
    rw [← hlength]
    apply hcut.greedy.length_le _ hothers (hflatten.trans hcut.flatten.symm)
    intro a b hab hb
    exact hb.mono hab.subset
  · rw [← hlength]
    exact hcut.spread

theorem indexable_three : Indexable [1, 11, 11] where
  sorted := by decide
  below k hk := lt_sentinel_iff.mpr fun hc => absurd (hc ▸ hk) (by decide)
  size := by decide

theorem makeSegmentation_fewest_three :
    (orFail (makeSegmentationPar quotients 3 1 [1, 11, 11])).Ensures fun s =>
      s.c = s.out.length ∧
        (∃ pieces : List (List Knot), pieces.flatten = knots [1, 11, 11] ∧
          (∀ piece ∈ pieces, Fitting 1 piece) ∧
          List.Forall₂ (fun piece segment => (piece.map Prod.fst).head? = some segment.key)
            pieces s.out ∧
          pieces.IsChain fun a b => firstRank a + (2 * 1 + 1) ≤ firstRank b) ∧
        (∀ others : List (List Knot), others.flatten = knots [1, 11, 11] →
          (∀ piece ∈ others, Fitting 1 piece) → s.c ≤ others.length) ∧
        (2 * 1 + 1) * (s.c - 1) ≤ 3 :=
  makeSegmentation_fewest quotients indexable_three (by decide) (by decide)

end PGM
