import PrefetchBench.PGM.Segmentation

/-!
# Levels over nondecreasing keys

What a level of the index is good for.  A segment of the level whose key is not above `k`, clamped
by the intercept of the next one, is at most `epsilon` above the number of keys that are not above
`k` (`Storey.Over.clamped`): either the first knot that is not below `k` belongs to its piece, or it
is the first one of the next piece.  So a scan of the level below starts in front of where it has to
stop.

The segment that `build_level` may add behind the last one has the key behind the largest key of all
levels.  Where the keys of a level are themselves keys of segments, its last key can be larger than
that, but no other one (`Tailed`).
-/

namespace PGM

open Prog Corridor

variable {S : Type} {f : Quotients S} {epsilon : Size} {keys : List Key}
  {pieces : List (List Knot)} {out : List (Segment S)} {k : Key} {kn : Knot} {it i : Nat}
  {s t : Segment S}

/-! ## Where a knot is -/

/-- The segment at a position is drawn for the piece there. -/
theorem Drawn.of_forall₂
    (h : List.Forall₂ (fun piece segment => ∃ l, Drawn f epsilon piece segment l) pieces out)
    (hs : out[it]? = some s) :
    ∃ first rest l, pieces[it]? = some (first :: rest) ∧ Drawn f epsilon (first :: rest) s l ∧
      s.key = first.1 := by
  induction h generalizing it with
  | nil => cases hs
  | @cons piece segment pieces out hdrawn hrest ih =>
      cases it with
      | zero =>
          cases hs
          obtain ⟨l, hl⟩ := hdrawn
          obtain ⟨first, rest, rfl, hkey⟩ := hl.exists_head
          exact ⟨first, rest, l, rfl, hl, hkey⟩
      | succ it => exact ih hs

/-- A knot is in front of a piece, in it, or behind the start of the next one. -/
theorem Rising.locate (h : Rising pieces.flatten) (hne : ∀ piece ∈ pieces, piece ≠ [])
    {first : Knot} {rest : List Knot} (hpiece : pieces[it]? = some (first :: rest))
    (hkn : kn ∈ pieces.flatten) : kn.1 < first.1 ∨ kn ∈ first :: rest ∨
      ∃ next tail, pieces[it + 1]? = some (next :: tail) ∧
        (kn = next ∨ next.1 < kn.1) := by
  obtain ⟨hlt, hget⟩ := List.getElem?_eq_some_iff.mp hpiece
  have hsplit : pieces = pieces.take it ++ (first :: rest) :: pieces.drop (it + 1) := by
    rw [← hget, List.getElem_cons_drop, List.take_append_drop]
  rw [Rising, List.pairwise_flatten] at h
  obtain ⟨hinside, hacross⟩ := h
  rw [hsplit] at hkn hacross
  rw [List.flatten_append, List.flatten_cons, List.mem_append, List.mem_append] at hkn
  rw [List.pairwise_append, List.pairwise_cons] at hacross
  obtain ⟨_, ⟨_, hafter⟩, hbefore⟩ := hacross
  rcases hkn with hkn | hkn | hkn
  · obtain ⟨piece, hmem, hkn⟩ := List.mem_flatten.mp hkn
    exact Or.inl (hbefore piece hmem _ List.mem_cons_self kn hkn first List.mem_cons_self).1
  · exact Or.inr (Or.inl hkn)
  · right
    right
    have hnext : (pieces.drop (it + 1))[0]? = pieces[it + 1]? := by
      rw [List.getElem?_drop, Nat.add_zero]
    cases hdrop : pieces.drop (it + 1) with
    | nil =>
        rw [hdrop] at hkn
        cases hkn
    | cons piece more =>
        rw [hdrop] at hkn hnext hafter
        have hpiece : piece ∈ pieces := by
          apply List.mem_of_mem_drop (i := it + 1)
          rw [hdrop]
          exact List.mem_cons_self
        obtain ⟨next, tail, rfl⟩ := List.exists_cons_of_ne_nil (hne piece hpiece)
        refine ⟨next, tail, hnext.symm, ?_⟩
        rcases List.mem_append.mp hkn with hkn | hkn
        · rcases List.mem_cons.mp hkn with rfl | hkn
          · exact Or.inl rfl
          · have hpairs := hinside _ hpiece
            exact Or.inr (List.rel_of_pairwise_cons hpairs hkn).1
        · obtain ⟨piece', hmem, hkn⟩ := List.mem_flatten.mp hkn
          rw [List.pairwise_cons] at hafter
          exact Or.inr (hafter.1 piece' hmem next List.mem_cons_self kn hkn).1

/-- The first knot that is not below a key. -/
theorem Rising.exists_first {knots : List Knot} (h : Rising knots) (hx : ∃ x ∈ knots, k ≤ x.1) :
    ∃ kn ∈ knots, k ≤ kn.1 ∧ ∀ kn' ∈ knots, k ≤ kn'.1 → kn.1 ≤ kn'.1 := by
  induction knots with
  | nil =>
      obtain ⟨x, hx, _⟩ := hx
      cases hx
  | cons a rest ih =>
      rcases le_or_gt k a.1 with hle | hlt
      · refine ⟨a, List.mem_cons_self, hle, ?_⟩
        intro kn' hkn' _
        rcases List.mem_cons.mp hkn' with rfl | hkn'
        · exact le_rfl
        · exact (List.rel_of_pairwise_cons h hkn').1.le
      · have hin : ∀ kn' ∈ a :: rest, k ≤ kn'.1 → kn' ∈ rest := by
          intro kn' hkn' hk
          rcases List.mem_cons.mp hkn' with rfl | hkn'
          · exact absurd hk (not_le.mpr hlt)
          · exact hkn'
        obtain ⟨x, hx, hk⟩ := hx
        obtain ⟨kn, hkn, hle, hfirst⟩ := ih (List.Pairwise.of_cons h) ⟨x, hin x hx hk, hk⟩
        refine ⟨kn, List.mem_cons_of_mem _ hkn, hle, ?_⟩
        intro kn' hkn' hk
        exact hfirst kn' (hin kn' hkn' hk) hk

namespace Indexable

/-- The knot of a key. -/
theorem exists_knot (h : Indexable keys) (hi : i < keys.length) :
    ∃ r : Size, (keyAt keys i, r) ∈ knots keys ∧ r.val ≤ i := by
  refine ⟨_, h.mem_knots (keyAt_mem hi), ?_⟩
  apply (Nat.mod_le _ _).trans
  by_contra hlt
  exact absurd (KeyArray.lt_of_lt_lowerBound (not_le.mp hlt) (getElem?_keyAt hi)) (lt_irrefl _)

/-- In front of the first knot that is not below `k`, all keys are below it. -/
theorem lt_of_first (h : Indexable keys) (hkn : kn ∈ knots keys)
    (hfirst : ∀ kn' ∈ knots keys, k ≤ kn'.1 → kn.1 ≤ kn'.1) (hi : i < kn.2.val)
    (hlen : i < keys.length) : keyAt keys i < k := by
  obtain ⟨r, hr, hle⟩ := h.exists_knot hlen
  by_contra hk
  have hback := hfirst _ hr (not_lt.mp hk)
  rcases eq_or_lt_of_le hback with heq | hlt
  · -- the knots have different keys
    obtain ⟨a, ha, hget⟩ := List.mem_iff_getElem.mp hkn
    obtain ⟨b, hb, hget'⟩ := List.mem_iff_getElem.mp hr
    rcases Nat.lt_trichotomy a b with hab | rfl | hba
    · have hpair := (List.pairwise_iff_getElem.mp h.knots_rising a b ha hb hab).1
      rw [hget, hget', heq] at hpair
      exact absurd hpair (lt_irrefl _)
    · have hsame := congrArg Prod.snd (hget.symm.trans hget')
      rw [hsame] at hi
      exact absurd hi (not_lt.mpr hle)
    · have hpair := (List.pairwise_iff_getElem.mp h.knots_rising b a hb ha hba).1
      rw [hget, hget', heq] at hpair
      exact absurd hpair (lt_irrefl _)
  · have hrank := Fin.le_def.mp (h.knots_rising.le hkn hr hlt)
    exact absurd (hi.trans_le hrank) (not_lt.mpr hle)

/-- No key is behind the last one. -/
theorem le_last_key (h : Indexable keys) (hk : k ∈ keys) : k ≤ keyAt keys (keys.length - 1) := by
  obtain ⟨hlt, hkey⟩ := h.lowerBound_lt hk
  rw [← hkey]
  exact h.keyAt_le (by omega) (by omega)

theorem last_lt (h : Indexable keys) : keyAt keys (keys.length - 1) < sentinel :=
  h.below _ (keyAt_mem (Nat.sub_lt h.size.1 Nat.one_pos))

/-- The first rank of a key is a `size_t`. -/
theorem val_rank (h : Indexable keys) (k : Key) :
    (rank (KeyArray.lowerBound keys k keys.length)).val =
      KeyArray.lowerBound keys k keys.length :=
  Nat.mod_eq_of_lt ((KeyArray.lowerBound_le keys k keys.length).trans_lt h.size.2)

/-- Where all knots are below `k`, all keys are. -/
theorem lt_of_all (h : Indexable keys) (hall : ∀ kn ∈ knots keys, kn.1 < k)
    (hi : i < keys.length) : keyAt keys i < k := by
  obtain ⟨r, hr, _⟩ := h.exists_knot hi
  exact hall _ hr

end Indexable

/-! ## Predictions between the knots -/

namespace Cut

variable {bound : ℚ}

theorem rising (h : Cut f epsilon keys pieces out) (hkeys : Indexable keys) :
    Rising pieces.flatten := by
  rw [h.flatten]
  exact hkeys.knots_rising

/-- Up to a knot of its piece, a segment is at most `epsilon` above the rank. -/
theorem position_le (h : Cut f epsilon keys pieces out) (hf : f.Accurate bound)
    (hbound : (keys.length : ℚ) + epsilon.val ≤ bound) {piece : List Knot} {l : Line ℚ}
    (hpiece : pieces[it]? = some piece) (hs : Drawn f epsilon piece s l) (hk : s.key ≤ k)
    (hkn : kn ∈ piece) (hle : k ≤ kn.1) :
    s.position f.toFloating k ≤ kn.2.val + epsilon.val := by
  apply hs.position_le hf hk hkn hle
  have hmem : kn ∈ knots keys := by
    rw [← h.flatten]
    exact List.mem_flatten.mpr ⟨piece, List.mem_of_getElem? hpiece, hkn⟩
  have hrank : (kn.2.val : ℚ) ≤ keys.length := Nat.cast_le.mpr (rank_le_length hmem)
  linarith

/-- Between a segment and the next one. -/
theorem clamped_inner (h : Cut f epsilon keys pieces out) (hkeys : Indexable keys)
    (hf : f.Accurate bound) (hbound : (keys.length : ℚ) + epsilon.val ≤ bound)
    (hs : out[it]? = some s) (ht : out[it + 1]? = some t) (hk : s.key ≤ k) (hlt : k < t.key) :
    ∃ p, min (s.position f.toFloating k) t.intercept ≤ p + epsilon.val ∧ p ≤ keys.length ∧
      ∀ i, i < p → i < keys.length → keyAt keys i ≤ k := by
  obtain ⟨first, rest, l, hpiece, hdrawn, hfirst⟩ := Drawn.of_forall₂ h.drawn hs
  obtain ⟨next, tail, l', hpiece', hdrawn', hnext⟩ := Drawn.of_forall₂ h.drawn ht
  have hnextMem : next ∈ knots keys := by
    rw [← h.flatten]
    exact List.mem_flatten.mpr ⟨_, List.mem_of_getElem? hpiece', List.mem_cons_self⟩
  rw [hnext] at hlt
  obtain ⟨kn, hkn, hle, hmin⟩ := hkeys.knots_rising.exists_first ⟨next, hnextMem, hlt.le⟩
  refine ⟨kn.2.val, ?_, rank_le_length hkn, ?_⟩
  · have hflat : kn ∈ pieces.flatten := by
      rw [h.flatten]
      exact hkn
    rcases (h.rising hkeys).locate h.greedy.ne_nil hpiece hflat with hbefore | hin | hafter
    · rw [← hfirst] at hbefore
      exact absurd (hk.trans hle) (not_le.mpr hbefore)
    · exact (Nat.min_le_left _ _).trans (h.position_le hf hbound hpiece hdrawn hk hin hle)
    · obtain ⟨next', tail', hpiece'', hkn'⟩ := hafter
      cases hpiece'.symm.trans hpiece''
      rcases hkn' with rfl | hgt
      · exact (Nat.min_le_right _ _).trans hdrawn'.intercept_near.1
      · exact absurd (hmin next hnextMem hlt.le) (not_le.mpr hgt)
  · intro i hi hlen
    exact (hkeys.lt_of_first hkn hmin hi hlen).le

/-- Behind the last segment. -/
theorem clamped_last (h : Cut f epsilon keys pieces out) (hkeys : Indexable keys)
    (hf : f.Accurate bound) (hbound : (keys.length : ℚ) + epsilon.val ≤ bound)
    (hs : out[it]? = some s) (hend : it + 1 = out.length) (hk : s.key ≤ k) {c : Nat}
    (hc : c = keys.length) :
    ∃ p, min (s.position f.toFloating k) c ≤ p + epsilon.val ∧ p ≤ keys.length ∧
      ∀ i, i < p → i < keys.length → keyAt keys i ≤ k := by
  obtain ⟨first, rest, l, hpiece, hdrawn, hfirst⟩ := Drawn.of_forall₂ h.drawn hs
  by_cases hex : ∃ x ∈ knots keys, k ≤ x.1
  · obtain ⟨kn, hkn, hle, hmin⟩ := hkeys.knots_rising.exists_first hex
    refine ⟨kn.2.val, ?_, rank_le_length hkn, ?_⟩
    · have hflat : kn ∈ pieces.flatten := by
        rw [h.flatten]
        exact hkn
      rcases (h.rising hkeys).locate h.greedy.ne_nil hpiece hflat with hbefore | hin | hafter
      · rw [← hfirst] at hbefore
        exact absurd (hk.trans hle) (not_le.mpr hbefore)
      · exact (Nat.min_le_left _ _).trans (h.position_le hf hbound hpiece hdrawn hk hin hle)
      · -- there is no next piece
        obtain ⟨next, tail, hpiece', _⟩ := hafter
        have hlen := (List.getElem?_eq_some_iff.mp hpiece').1
        rw [h.drawn.length_eq] at hlen
        omega
    · intro i hi hlen
      exact (hkeys.lt_of_first hkn hmin hi hlen).le
  · refine ⟨keys.length, ?_, le_rfl, ?_⟩
    · rw [hc]
      exact (Nat.min_le_right _ _).trans (Nat.le_add_right _ _)
    · intro i _ hlen
      apply (hkeys.lt_of_all _ hlen).le
      intro kn hkn
      by_contra hle
      exact hex ⟨kn, hkn, not_lt.mp hle⟩

/-- The keys of the segments increase. -/
theorem increasing (h : Cut f epsilon keys pieces out) (hkeys : Indexable keys) :
    (out.map Segment.key).Pairwise (· < ·) := by
  rw [List.pairwise_map, List.pairwise_iff_getElem]
  intro i j hi hj hij
  obtain ⟨first, rest, l, hpiece, hdrawn, hfirst⟩ :=
    Drawn.of_forall₂ h.drawn (List.getElem?_eq_getElem hi)
  obtain ⟨first', rest', l', hpiece', hdrawn', hfirst'⟩ :=
    Drawn.of_forall₂ h.drawn (List.getElem?_eq_getElem hj)
  have hacross := (List.pairwise_flatten.mp (h.rising hkeys)).2
  obtain ⟨hi', hget⟩ := List.getElem?_eq_some_iff.mp hpiece
  obtain ⟨hj', hget'⟩ := List.getElem?_eq_some_iff.mp hpiece'
  have hpair := List.pairwise_iff_getElem.mp hacross i j hi' hj' hij
  rw [hget, hget'] at hpair
  rw [hfirst, hfirst']
  exact (hpair first List.mem_cons_self first' List.mem_cons_self).1

theorem key_lt (h : Cut f epsilon keys pieces out) (hkeys : Indexable keys) {j : Nat} (hij : i < j)
    (hs : out[i]? = some s) (ht : out[j]? = some t) : s.key < t.key := by
  obtain ⟨hi, rfl⟩ := List.getElem?_eq_some_iff.mp hs
  obtain ⟨hj, rfl⟩ := List.getElem?_eq_some_iff.mp ht
  have hpairs := List.pairwise_map.mp (h.increasing hkeys)
  exact List.pairwise_iff_getElem.mp hpairs i j hi hj hij

/-- The first segment starts with the first key. -/
theorem head (h : Cut f epsilon keys pieces out) (hkeys : Indexable keys) :
    (out.map Segment.key).head? = keys.head? := by
  have hn := hkeys.size.1
  have hflat := h.flatten
  rw [knots_split hn] at hflat
  cases hd : out with
  | nil =>
      have hlen := h.drawn.length_eq
      rw [hd, List.length_nil, List.length_eq_zero_iff] at hlen
      rw [hlen] at hflat
      cases hflat
  | cons segment rest =>
      have hs : out[0]? = some segment := by
        rw [hd]
        rfl
      obtain ⟨first, tail, l, hpiece, _, hkey⟩ := Drawn.of_forall₂ h.drawn hs
      cases pieces with
      | nil => cases hpiece
      | cons piece more =>
          cases hpiece
          have hfirst := congrArg List.head? hflat
          rw [List.map_cons, List.head?_cons, hkey, List.head?_eq_getElem?, getElem?_keyAt hn]
          exact congrArg (Option.map Prod.fst) hfirst

/-- The piece of a key. -/
theorem exists_piece (h : Cut f epsilon keys pieces out) (hkeys : Indexable keys)
    (hk : k ∈ keys) : ∃ it s piece l, out[it]? = some s ∧ pieces[it]? = some piece ∧
      Drawn f epsilon piece s l ∧
        (k, rank (KeyArray.lowerBound keys k keys.length)) ∈ piece ∧ s.key ≤ k ∧
          ∀ t, out[it + 1]? = some t → k < t.key := by
  have hmem := hkeys.mem_knots hk
  rw [← h.flatten] at hmem
  obtain ⟨piece, hpiece, hknot⟩ := List.mem_flatten.mp hmem
  obtain ⟨it, hit⟩ := List.mem_iff_getElem?.mp hpiece
  have hlt := (List.getElem?_eq_some_iff.mp hit).1
  rw [h.drawn.length_eq] at hlt
  obtain ⟨s, hs⟩ := KeyArray.exists_getElem? out hlt
  obtain ⟨first, rest, l, hpiece', hdrawn, hfirst⟩ := Drawn.of_forall₂ h.drawn hs
  cases hit.symm.trans hpiece'
  refine ⟨it, s, _, l, hs, hit, hdrawn, hknot, ?_, ?_⟩
  · have hpairs := (List.pairwise_flatten.mp (h.rising hkeys)).1 _ hpiece
    rw [hfirst]
    rcases List.mem_cons.mp hknot with heq | hknot
    · rw [← heq]
    · exact (List.rel_of_pairwise_cons hpairs hknot).1.le
  · intro t ht
    obtain ⟨next, tail, l', hnext, _, hkey⟩ := Drawn.of_forall₂ h.drawn ht
    have hacross := (List.pairwise_flatten.mp (h.rising hkeys)).2
    obtain ⟨hi, hget⟩ := List.getElem?_eq_some_iff.mp hit
    obtain ⟨hj, hget'⟩ := List.getElem?_eq_some_iff.mp hnext
    have hpair := List.pairwise_iff_getElem.mp hacross it (it + 1) hi hj (Nat.lt_succ_self it)
    rw [hget, hget'] at hpair
    rw [hkey]
    exact (hpair _ hknot next List.mem_cons_self).1

end Cut

/-- Where the arithmetic is off by less than half a rank, `make_segmentation` hands out segments
with increasing keys, and the last one whose key is not above a key predicts its first rank at most
`epsilon` too high and at most `epsilon + 1` too low. -/
theorem makeSegmentation_accurate {bound : ℚ} (hf : f.Accurate bound) (hkeys : Indexable keys)
    (hε : 0 < epsilon.val) (hsize : keys.length + epsilon.val < 2 ^ 32)
    (hbound : (keys.length : ℚ) + epsilon.val ≤ bound) :
    (orFail (makeSegmentationPar f keys.length epsilon keys)).Ensures fun st =>
      (st.out.map Segment.key).Pairwise (· < ·) ∧
        ∀ k ∈ keys, ∃ it s, st.out[it]? = some s ∧ s.key ≤ k ∧
          (∀ t, st.out[it + 1]? = some t → k < t.key) ∧
          KeyArray.lowerBound keys k keys.length ≤ s.position f.toFloating k + epsilon.val + 1 ∧
          s.position f.toFloating k ≤ KeyArray.lowerBound keys k keys.length + epsilon.val := by
  apply (makeSegmentation_ensures hkeys hε (by omega)).mono
  rintro st ⟨_, pieces, hcut⟩
  refine ⟨hcut.increasing hkeys, ?_⟩
  intro k hk
  obtain ⟨it, s, piece, l, hs, hpiece, hdrawn, hknot, hle, hnext⟩ := hcut.exists_piece hkeys hk
  have hlb := KeyArray.lowerBound_le keys k keys.length
  have hrank := hkeys.val_rank k
  have hlbq : ((KeyArray.lowerBound keys k keys.length : Nat) : ℚ) ≤ keys.length :=
    Nat.cast_le.mpr hlb
  have hlow := hdrawn.le_position hf hle hknot (by dsimp only; rw [hrank]; linarith)
    (by dsimp only; rw [hrank]; omega)
  have hhigh := hcut.position_le hf hbound hpiece hdrawn hle hknot le_rfl
  dsimp only at hlow hhigh
  rw [hrank] at hlow hhigh
  exact ⟨it, s, hs, hle, hnext, hlow, hhigh⟩

theorem makeSegmentation_accurate_three :
    (orFail (makeSegmentationPar quotients 3 1 [1, 11, 11])).Ensures fun st =>
      (st.out.map Segment.key).Pairwise (· < ·) ∧
        ∀ k ∈ [(1 : Key), 11, 11], ∃ it s, st.out[it]? = some s ∧ s.key ≤ k ∧
          (∀ t, st.out[it + 1]? = some t → k < t.key) ∧
          KeyArray.lowerBound [(1 : Key), 11, 11] k 3 ≤ s.position quotients.toFloating k + 1 + 1 ∧
          s.position quotients.toFloating k ≤ KeyArray.lowerBound [(1 : Key), 11, 11] k 3 + 1 :=
  makeSegmentation_accurate (quotients_accurate 4) indexable_three (by decide) (by decide)
    (by norm_num)

/-! ## Levels -/

/-- A level, and how many of its segments the level above is built over. -/
structure Storey (S : Type) where
  /-- The segments. -/
  segments : List (Segment S)
  /-- The number of segments that `build_level` returns. -/
  count : Nat

/-- The keys that the level above is built over. -/
def Storey.firstKeys (storey : Storey S) : List Key :=
  (storey.segments.take storey.count).map Segment.key

/-- All keys but the last one are at most `last`. -/
def Tailed (last : Key) (keys : List Key) : Prop :=
  ∀ i, i + 1 < keys.length → keyAt keys i ≤ last

/-- The knots, but those of the last ranks. -/
theorem Indexable.knot_le {last : Key} (h : Indexable keys) (htailed : Tailed last keys)
    (hkn : kn ∈ knots keys) (hrank : kn.2.val + 2 < keys.length) : kn.1 ≤ last := by
  have hsize := h.size.2
  rcases List.mem_append.mp hkn with hkn | hkn
  · obtain ⟨i, hi, hkn⟩ := List.mem_flatMap.mp hkn
    rw [List.mem_range] at hi
    obtain ⟨hr, hx⟩ := mem_knotsAt hkn
    have hval : (rank i).val = i := Nat.mod_eq_of_lt (by omega)
    rw [hr, hval] at hrank
    rcases hx with ⟨hx, _⟩ | ⟨hx, hroom⟩
    · rw [hx]
      exact htailed i (by omega)
    · rw [hx]
      exact hroom.le.trans (htailed (i + 1) (by omega))
  · rw [List.mem_singleton.mp hkn] at hrank
    have hval : (rank keys.length).val = keys.length := Nat.mod_eq_of_lt hsize
    rw [hval] at hrank
    omega

/-- The knots below the sentinel.  Behind a last key right in front of the sentinel, the last knot
is the sentinel itself. -/
def knotsBelow (keys : List Key) : List Knot := (knots keys).filter fun k => decide (k.1 < sentinel)

/-- What is known of a level that `build_level` makes of some keys. -/
structure Storey.Over (f : Quotients S) (epsilon : Nat) (last : Key) (keys : List Key)
    (storey : Storey S) : Prop where
  /-- There is a segment. -/
  pos : 1 ≤ storey.count
  /-- Behind the segments there is another one. -/
  room : storey.count < storey.segments.length
  /-- The first segment starts with the first key. -/
  head : (storey.segments.map Segment.key).head? = keys.head?
  /-- The last one is the sentinel. -/
  last_eq : (storey.segments.map Segment.key).getLast? = some sentinel
  /-- The keys increase. -/
  increasing : storey.firstKeys.Pairwise (· < ·)
  /-- No key is the sentinel. -/
  below : ∀ k ∈ storey.firstKeys, k < sentinel
  /-- All keys but the last one. -/
  tailed : Tailed last storey.firstKeys
  /-- There are fewer segments than keys. -/
  fewer : (2 * epsilon + 1) * (storey.count - 1) ≤ keys.length
  /-- There is one segment where one line is enough. -/
  single_iff : storey.count = 1 ↔ Fitting (rank epsilon) (knotsBelow keys)
  /-- A clamped prediction is at most `epsilon` above the number of keys that are not above. -/
  clamped : ∀ k it s t, k < sentinel → storey.segments[it]? = some s →
    storey.segments[it + 1]? = some t → s.key ≤ k → (it + 1 < storey.count → k < t.key) →
      ∃ p, min (s.position f.toFloating k) t.intercept ≤ p + epsilon ∧ p ≤ keys.length ∧
        ∀ i, i < p → i < keys.length → keyAt keys i ≤ k

/-! ## Closing a level -/

/-- How `build_level` ends a level behind the segments that are handed out. -/
inductive Closing (f : Quotients S) (last : Key) (n : Nat) (out : List (Segment S)) :
    Storey S → Prop
  /-- The last segment starts with the sentinel. -/
  | popped (front : List (Segment S)) (back : Segment S) (hout : out = front ++ [back])
      (hback : back.key = sentinel) : Closing f last n out ⟨out, front.length⟩
  /-- The sentinel is added. -/
  | capped (front : List (Segment S)) (back : Segment S) (hout : out = front ++ [back])
      (hback : back.key ≠ sentinel) :
      Closing f last n out ⟨out ++ [flatSegment f.toFloating sentinel n], out.length⟩
  /-- A segment behind the last key is added, and the sentinel. -/
  | extended (front : List (Segment S)) (back : Segment S) (hout : out = front ++ [back])
      (hback : back.key ≠ sentinel) (hshort : back.position f.toFloating (sentinel - 1) < n) :
      Closing f last n out ⟨out ++ [flatSegment f.toFloating (last + 1) n,
        flatSegment f.toFloating sentinel n], out.length⟩

/-- `build_level` closes the level of the segments that are handed out. -/
theorem buildLevel_closing {last : Key} {segmentation : PGM.Segmentation S} {epsilon : Nat}
    {P : List (Segment S) → Prop} (hout : (segmentation.segments epsilon keys).Ensures P)
    (st : Levels S) :
    (buildLevel f.toFloating segmentation epsilon last keys st).Ensures fun st' =>
      ∃ out storey, P out ∧ Closing f last keys.length out storey ∧
        st'.segments = st.segments ++ storey.segments ∧
        st'.levelsOffsets = st.levelsOffsets ++ [(st.segments ++ storey.segments).length] ∧
        st'.lastN = storey.count := by
  obtain ⟨out, hreturns, hP⟩ := hout
  apply hreturns.seq
  have hne := segmentation.ne_nil hreturns
  obtain ⟨front, back, rfl⟩ : ∃ front back, out = front ++ [back] :=
    ⟨out.dropLast, out.getLast hne, (List.dropLast_append_getLast hne).symm⟩
  have hback : (st.segments ++ (front ++ [back])).getLast? = some back := by
    rw [← List.append_assoc, List.getLast?_concat]
  apply (returns_ofOption.mpr hback).seq
  apply Ensures.pure
  rw [closeLevel]
  by_cases hsentinel : back.key = sentinel
  · rw [if_pos hsentinel]
    refine ⟨_, _, hP, .popped front back rfl hsentinel, ?_, ?_, ?_⟩
    · simp
    · simp
    · simp
  · rw [if_neg hsentinel]
    by_cases hshort : back.position f.toFloating (sentinel - 1) < keys.length
    · rw [if_pos hshort]
      exact ⟨_, _, hP, .extended front back rfl hsentinel hshort, rfl, rfl, rfl⟩
    · rw [if_neg hshort]
      exact ⟨_, _, hP, .capped front back rfl hsentinel, rfl, rfl, rfl⟩

theorem intercept_flatSegment (key : Key) {n : Nat} (hn : n < 2 ^ 32) :
    (flatSegment f.toFloating key n).intercept.val = n := Nat.mod_eq_of_lt hn

theorem position_flatSegment {bound : ℚ} (hf : f.Accurate bound) (key k : Key) {n : Nat}
    (hn : n < 2 ^ 32) : (flatSegment f.toFloating key n).position f.toFloating k = n := by
  have hscale : f.toFloating.scale (flatSegment f.toFloating key n).slope
      (k - (flatSegment f.toFloating key n).key) = 0 := hf.zero _
  rw [Segment.position, hscale, intercept_flatSegment key hn, Nat.zero_add,
    Nat.mod_eq_of_lt (by omega)]

namespace Closing

variable {last : Key} {n : Nat} {storey : Storey S}

/-- The segments that are handed out come first. -/
theorem getElem? (h : Closing f last n out storey) (hi : i < out.length) :
    storey.segments[i]? = out[i]? := by
  cases h with
  | popped => rfl
  | capped => exact List.getElem?_append_left hi
  | extended => exact List.getElem?_append_left hi

theorem count_le (h : Closing f last n out storey) : storey.count ≤ out.length := by
  cases h with
  | popped front back hout _ =>
      rw [hout, List.length_append]
      exact Nat.le_add_right _ _
  | capped => exact Nat.le_refl _
  | extended => exact Nat.le_refl _

/-- Only the sentinel is handed out and does not count. -/
theorem key_of_count_le (h : Closing f last n out storey) (hs : out[i]? = some s)
    (hi : storey.count ≤ i) : s.key = sentinel := by
  have hlt := (List.getElem?_eq_some_iff.mp hs).1
  cases h with
  | popped front back hout hback =>
      have hi : front.length ≤ i := hi
      rw [hout, List.length_append, List.length_singleton] at hlt
      rw [hout, show i = front.length by omega, List.getElem?_concat_length] at hs
      cases hs
      exact hback
  | capped => exact absurd hlt (not_lt.mpr hi)
  | extended => exact absurd hlt (not_lt.mpr hi)

theorem room (h : Closing f last n out storey) : storey.count < storey.segments.length := by
  cases h with
  | popped front back hout _ =>
      rw [hout, List.length_append]
      exact Nat.lt_succ_self _
  | capped => simp
  | extended => simp

/-- The last segment is the sentinel. -/
theorem last_eq (h : Closing f last n out storey) :
    (storey.segments.map Segment.key).getLast? = some sentinel := by
  cases h with
  | popped front back hout hback =>
      rw [hout, List.map_append, List.map_singleton, List.getLast?_concat, hback]
  | capped =>
      rw [List.map_append, List.map_singleton, List.getLast?_concat]
      rfl
  | extended =>
      rw [List.getLast?_map, List.getLast?_append]
      rfl

theorem firstKeys (h : Closing f last n out storey) :
    storey.firstKeys = (out.map Segment.key).take storey.count := by
  rw [Storey.firstKeys, List.map_take]
  cases h with
  | popped => rfl
  | capped =>
      rw [List.map_append, List.take_append_of_le_length (by simp)]
  | extended =>
      rw [List.map_append, List.take_append_of_le_length (by simp)]

/-- There is a segment in front of the last one, if that is the sentinel. -/
theorem pos (h : Closing f last n out storey) (hkeys : Indexable keys)
    (hcut : Cut f epsilon keys pieces out) : 1 ≤ storey.count := by
  cases h with
  | popped front back hout hback =>
      apply List.length_pos_iff.mpr
      intro hnil
      have hhead := hcut.head hkeys
      have hn := hkeys.size.1
      rw [hout, hnil, List.nil_append, List.map_singleton, List.head?_cons,
        List.head?_eq_getElem?, getElem?_keyAt hn, hback] at hhead
      have hlt := hkeys.below _ (keyAt_mem hn)
      rw [← Option.some.inj hhead] at hlt
      exact absurd hlt (lt_irrefl _)
  | capped front back hout _ =>
      rw [hout]
      simp
  | extended front back hout _ _ =>
      rw [hout]
      simp

/-- The keys that the level above is built over. -/
theorem below (h : Closing f last n out storey) (hkeys : Indexable keys)
    (hcut : Cut f epsilon keys pieces out) : ∀ k ∈ storey.firstKeys, k < sentinel := by
  have hincreasing := hcut.increasing hkeys
  have hlast : ∀ front back, out = front ++ [back] → back.key ≠ sentinel →
      ∀ k ∈ out.map Segment.key, k < sentinel := by
    intro front back hout hback k hk
    rw [hout, List.map_append, List.map_singleton] at hincreasing hk
    have hend : back.key < sentinel := lt_sentinel_iff.mpr hback
    rcases List.mem_append.mp hk with hk | hk
    · exact ((List.pairwise_append.mp hincreasing).2.2 k hk _ (List.mem_singleton_self _)).trans
        hend
    · rw [List.mem_singleton.mp hk]
      exact hend
  rw [h.firstKeys]
  cases h with
  | popped front back hout hback =>
      intro k hk
      rw [hout, List.map_append, List.map_singleton] at hincreasing hk
      rw [List.take_left' (by simp)] at hk
      have hlt := (List.pairwise_append.mp hincreasing).2.2 k hk _ (List.mem_singleton_self _)
      rw [hback] at hlt
      exact hlt
  | capped front back hout hback =>
      intro k hk
      exact hlast front back hout hback k (List.mem_of_mem_take hk)
  | extended front back hout hback _ =>
      intro k hk
      exact hlast front back hout hback k (List.mem_of_mem_take hk)

/-- All keys of segments but the last one are keys in front of the last one. -/
theorem tailed (h : Closing f last n out storey) (hkeys : Indexable keys)
    (hcut : Cut f epsilon keys pieces out) (hε : 0 < epsilon.val) (htailed : Tailed last keys) :
    Tailed last storey.firstKeys := by
  intro i hi
  have hlen : i + 1 < out.length := by
    rw [h.firstKeys, List.length_take, List.length_map] at hi
    omega
  have hcount : i < storey.count := by
    rw [h.firstKeys, List.length_take] at hi
    omega
  obtain ⟨first, rest, l, hpiece, _, hfirst⟩ :=
    Drawn.of_forall₂ hcut.drawn (List.getElem?_eq_getElem (l := out) (i := i) (by omega))
  obtain ⟨next, tail, l', hpiece', _, _⟩ :=
    Drawn.of_forall₂ hcut.drawn (List.getElem?_eq_getElem hlen)
  have hkey : keyAt storey.firstKeys i = first.1 := by
    rw [keyAt, List.getD_eq_getElem?_getD, h.firstKeys, List.getElem?_take_of_lt hcount,
      List.getElem?_map, List.getElem?_eq_getElem (l := out) (i := i) (by omega), ← hfirst]
    rfl
  rw [hkey]
  obtain ⟨hi', hget⟩ := List.getElem?_eq_some_iff.mp hpiece
  obtain ⟨hj', hget'⟩ := List.getElem?_eq_some_iff.mp hpiece'
  have hsteps := (hcut.rising hkeys).steps hcut.greedy
  have hstep := List.isChain_iff_getElem.mp hsteps i hj'
  rw [hget, hget'] at hstep
  have hnext : next ∈ knots keys := by
    rw [← hcut.flatten]
    exact List.mem_flatten.mpr ⟨_, List.mem_of_getElem? hpiece', List.mem_cons_self⟩
  have hmem : first ∈ knots keys := by
    rw [← hcut.flatten]
    exact List.mem_flatten.mpr ⟨_, List.mem_of_getElem? hpiece, List.mem_cons_self⟩
  apply hkeys.knot_le htailed hmem
  have hrank := rank_le_length hnext
  have hstep' : first.2.val + (2 * epsilon.val + 1) ≤ next.2.val := hstep
  omega

/-- With one segment, the knots below the sentinel are in its piece. -/
theorem fitting_of_count_eq_one (h : Closing f last n out storey) (hkeys : Indexable keys)
    (hcut : Cut f epsilon keys pieces out) (hone : storey.count = 1) :
    Fitting epsilon (knotsBelow keys) := by
  have hlen := hcut.drawn.length_eq
  have hle := h.count_le
  obtain ⟨piece, hpiece⟩ := KeyArray.exists_getElem? pieces (i := 0) (by omega)
  apply Fitting.mono _ (hcut.greedy.holds piece (List.mem_of_getElem? hpiece))
  intro kn hkn
  obtain ⟨hmem, hlt⟩ := List.mem_filter.mp hkn
  rw [← hcut.flatten] at hmem
  obtain ⟨piece', hpiece', hin⟩ := List.mem_flatten.mp hmem
  obtain ⟨it, hit⟩ := List.mem_iff_getElem?.mp hpiece'
  have hitlt := (List.getElem?_eq_some_iff.mp hit).1
  obtain ⟨segment, hsegment⟩ := KeyArray.exists_getElem? out (i := it) (by omega)
  -- any other piece begins with the sentinel
  have hzero : it = 0 := by
    by_contra hne
    obtain ⟨first, rest, l, hpiece'', _, hkey⟩ := Drawn.of_forall₂ hcut.drawn hsegment
    cases hit.symm.trans hpiece''
    have hsentinel := h.key_of_count_le hsegment (by omega)
    have hfirst : first.1 ≤ kn.1 := by
      rcases List.mem_cons.mp hin with rfl | hin
      · exact le_rfl
      · have hpairs := (List.pairwise_flatten.mp (hcut.rising hkeys)).1 _ hpiece'
        exact (List.rel_of_pairwise_cons hpairs hin).1.le
    rw [← hkey, hsentinel] at hfirst
    exact absurd (of_decide_eq_true hlt) (not_lt.mpr hfirst)
  subst hzero
  cases hpiece.symm.trans hit
  exact hin

/-- Where one line fits the knots below the sentinel, the first piece does not end before them. -/
theorem count_eq_one (h : Closing f last n out storey) (hkeys : Indexable keys)
    (hcut : Cut f epsilon keys pieces out) (hfit : Fitting epsilon (knotsBelow keys)) :
    storey.count = 1 := by
  have hpos := h.pos hkeys hcut
  have hle := h.count_le
  by_contra hne
  obtain ⟨s, hs⟩ := KeyArray.exists_getElem? out (i := 0) (by omega)
  obtain ⟨t, ht⟩ := KeyArray.exists_getElem? out (i := 1) (by omega)
  obtain ⟨first, rest, l, hpiece, _, _⟩ := Drawn.of_forall₂ hcut.drawn hs
  obtain ⟨next, tail, l', hpiece', _, hnext⟩ := Drawn.of_forall₂ hcut.drawn ht
  have hlt : next.1 < sentinel := by
    rw [← hnext]
    apply h.below hkeys hcut
    rw [h.firstKeys]
    apply List.mem_of_getElem? (i := 1)
    rw [List.getElem?_take_of_lt (by omega), List.getElem?_map, ht, Option.map_some]
  obtain ⟨more, rfl⟩ : ∃ more, pieces = (first :: rest) :: (next :: tail) :: more := by
    match pieces, hpiece, hpiece' with
    | _ :: _ :: more, hpiece, hpiece' =>
        cases hpiece
        cases hpiece'
        exact ⟨more, rfl⟩
  have hacross := (List.pairwise_flatten.mp (hcut.rising hkeys)).2
  rw [List.pairwise_cons] at hacross
  -- the first piece and the knot behind it
  refine (List.isChain_cons_cons.mp hcut.greedy.cut).1 next rfl (hfit.mono ?_)
  intro kn hkn
  apply List.mem_filter.mpr
  rw [← hcut.flatten, List.flatten_cons, List.flatten_cons]
  rcases List.mem_append.mp hkn with hkn | hkn
  · have hbefore := (hacross.1 _ List.mem_cons_self kn hkn next List.mem_cons_self).1
    exact ⟨List.mem_append_left _ hkn, decide_eq_true (hbefore.trans hlt)⟩
  · rw [List.mem_singleton.mp hkn]
    exact ⟨List.mem_append_right _ (List.mem_append_left _ List.mem_cons_self),
      decide_eq_true hlt⟩

/-- A level has one segment where one line fits the knots below the sentinel. -/
theorem count_eq_one_iff (h : Closing f last n out storey) (hkeys : Indexable keys)
    (hcut : Cut f epsilon keys pieces out) :
    storey.count = 1 ↔ Fitting epsilon (knotsBelow keys) :=
  ⟨h.fitting_of_count_eq_one hkeys hcut, h.count_eq_one hkeys hcut⟩

end Closing

/-- A level that is closed is good for the search. -/
theorem Closing.over {last : Key} {storey : Storey S} {bound : ℚ}
    (h : Closing f last keys.length out storey) (hkeys : Indexable keys)
    (hcut : Cut f epsilon keys pieces out) (hε : 0 < epsilon.val) (htailed : Tailed last keys)
    (hlast : last < sentinel) (hf : f.Accurate bound)
    (hbound : (keys.length : ℚ) + epsilon.val ≤ bound) (hsize : keys.length < 2 ^ 32) :
    storey.Over f epsilon.val last keys where
  pos := h.pos hkeys hcut
  room := h.room
  head := by
    rw [← hcut.head hkeys]
    have hne : out ≠ [] := by
      intro hnil
      have hpos := h.pos hkeys hcut
      have hle := h.count_le
      rw [hnil, List.length_nil] at hle
      omega
    rw [List.head?_map, List.head?_map, List.head?_eq_getElem?, List.head?_eq_getElem?,
      h.getElem? (List.length_pos_iff.mpr hne)]
  last_eq := h.last_eq
  increasing := by
    rw [h.firstKeys]
    exact List.Pairwise.sublist (List.take_sublist _ _) (hcut.increasing hkeys)
  below := h.below hkeys hcut
  tailed := h.tailed hkeys hcut hε htailed
  fewer := by
    have hle := h.count_le
    have hspread := hcut.spread
    rw [hcut.drawn.length_eq] at hspread
    exact (Nat.mul_le_mul_left _ (Nat.sub_le_sub_right hle 1)).trans hspread
  single_iff := by
    have hrank : rank epsilon.val = epsilon := Fin.ext (Nat.mod_eq_of_lt epsilon.isLt)
    rw [hrank]
    exact h.count_eq_one_iff hkeys hcut
  clamped := by
    intro k it s t hk hs ht hle hlt
    have hinner : it + 1 < out.length → k < t.key → _ := fun hit hkt =>
      hcut.clamped_inner hkeys hf hbound ((h.getElem? (by omega)).symm.trans hs)
        ((h.getElem? hit).symm.trans ht) hle hkt
    have hend : it + 1 = out.length → t.intercept.val = keys.length → _ := fun hit hc =>
      hcut.clamped_last hkeys hf hbound ((h.getElem? (by omega)).symm.trans hs) hit hle hc
    have hlength := (List.getElem?_eq_some_iff.mp ht).1
    cases h with
    | popped front back hout hback =>
        rw [hout, List.length_append, List.length_singleton] at hlength
        apply hinner (by rw [hout, List.length_append, List.length_singleton]; exact hlength)
        rcases Nat.lt_or_ge (it + 1) front.length with hin | hge
        · exact hlt hin
        · -- the next segment is the sentinel
          rw [hout, show it + 1 = front.length by omega, List.getElem?_concat_length] at ht
          cases ht
          rw [hback]
          exact hk
    | capped front back hout hback =>
        rw [List.length_append, List.length_singleton] at hlength
        rcases Nat.lt_or_ge (it + 1) out.length with hin | hge
        · exact hinner hin (hlt hin)
        · have hit : it + 1 = out.length := by omega
          apply hend hit
          rw [hit, List.getElem?_concat_length] at ht
          cases ht
          exact intercept_flatSegment sentinel hsize
    | extended front back hout hback _ =>
        rw [List.length_append, List.length_cons, List.length_singleton] at hlength
        rcases Nat.lt_trichotomy (it + 1) out.length with hin | hit | hgt
        · exact hinner hin (hlt hin)
        · apply hend hit
          rw [hit, List.getElem?_append_right (Nat.le_refl _), Nat.sub_self] at ht
          cases ht
          exact intercept_flatSegment (last + 1) hsize
        · -- the segment behind the last key
          have hit : it = out.length := by omega
          rw [hit, List.getElem?_append_right (Nat.le_refl _), Nat.sub_self] at hs
          cases hs
          refine ⟨keys.length - 1, ?_, Nat.sub_le _ _, ?_⟩
          · rw [position_flatSegment hf _ _ hsize]
            have hn := hkeys.size.1
            exact (Nat.min_le_left _ _).trans (by omega)
          · intro i hi hlen
            have hnext : last < last + 1 := Fin.lt_add_one_iff.mpr hlast
            exact (htailed i (by omega)).trans (hnext.le.trans hle)

/-! ## The bottom level -/

/-- Segment `it` is found for `k`: its key is not above, and the next one is not needed. -/
structure Storey.At (storey : Storey S) (k : Key) (it : Nat) (s t : Segment S) : Prop where
  /-- The segment. -/
  this : storey.segments[it]? = some s
  /-- The next one. -/
  next : storey.segments[it + 1]? = some t
  /-- Its key is not above. -/
  le : s.key ≤ k
  /-- That of the next one is, except for those that close the level. -/
  lt : it + 1 < storey.count → k < t.key

/-- The segment that is found for a stored key predicts its first rank. -/
structure Storey.Finds (f : Quotients S) (epsilon : Nat) (keys : List Key) (storey : Storey S) :
    Prop where
  /-- The prediction. -/
  position : ∀ k ∈ keys, ∀ it s t, storey.At k it s t →
    KeyArray.lowerBound keys k keys.length ≤ s.position f.toFloating k + epsilon + 1 ∧
      s.position f.toFloating k ≤ KeyArray.lowerBound keys k keys.length + epsilon
  /-- The next segment does not start before it. -/
  intercept : ∀ k ∈ keys, ∀ it s t, storey.At k it s t →
    KeyArray.lowerBound keys k keys.length ≤ t.intercept.val + epsilon
  /-- The segments up to there start at or in front of it. -/
  before : ∀ k ∈ keys, ∀ it s t, storey.At k it s t →
    ∀ j u, j ≤ it → storey.segments[j]? = some u → u.key ≤ k
  /-- The segments behind start behind it. -/
  after : ∀ k ∈ keys, ∀ it s t, storey.At k it s t →
    ∀ j u, it < j → storey.segments[j]? = some u → k < u.key

namespace Closing

variable {n : Nat} {storey : Storey S}

/-- The segments that close the level. -/
theorem flat_of_length_le {last : Key} (h : Closing f last n out storey) (hi : out.length ≤ i)
    (ht : storey.segments[i]? = some t) : t = flatSegment f.toFloating (last + 1) n ∨
      t = flatSegment f.toFloating sentinel n := by
  have hlength := (List.getElem?_eq_some_iff.mp ht).1
  cases h with
  | popped => exact absurd hlength (not_lt.mpr hi)
  | capped =>
      rw [List.getElem?_append_right hi] at ht
      exact Or.inr (List.mem_singleton.mp (List.mem_of_getElem? ht))
  | extended =>
      rw [List.getElem?_append_right hi] at ht
      exact (List.mem_cons.mp (List.mem_of_getElem? ht)).imp_right List.mem_singleton.mp

/-- They start behind the last key. -/
theorem lt_of_length_le {last : Key} (h : Closing f last n out storey) (hlast : last < sentinel)
    (hk : k ≤ last) (hi : out.length ≤ i) (ht : storey.segments[i]? = some t) : k < t.key := by
  rcases h.flat_of_length_le hi ht with rfl | rfl
  · exact hk.trans_lt (Fin.lt_add_one_iff.mpr hlast)
  · exact hk.trans_lt hlast

/-- Where the segment that is found for a stored key is. -/
theorem found {last : Key} (h : Closing f last n out storey) (hlast : last < sentinel)
    (hk : k ≤ last) (hat : storey.At k it s t) :
    out[it]? = some s ∧ k < t.key ∧ (it + 1 < out.length → out[it + 1]? = some t) := by
  have hit : it < out.length := by
    by_contra hge
    have hlt := h.lt_of_length_le hlast hk (not_lt.mp hge) hat.this
    exact absurd hat.le (not_le.mpr hlt)
  refine ⟨(h.getElem? hit).symm.trans hat.this, ?_, fun hlt => (h.getElem? hlt).symm.trans hat.next⟩
  rcases Nat.lt_or_ge (it + 1) storey.count with hlt | hge
  · exact hat.lt hlt
  · rcases Nat.lt_or_ge (it + 1) out.length with hlt | hout
    · -- only the sentinel is behind the segments that count
      have hnext := hat.next
      cases h with
      | popped front back hout hback =>
          have hge : front.length ≤ it + 1 := hge
          rw [hout, List.length_append, List.length_singleton] at hlt
          rw [hout, show it + 1 = front.length by omega, List.getElem?_concat_length] at hnext
          cases hnext
          rw [hback]
          exact hk.trans_lt hlast
      | capped => exact absurd hlt (not_lt.mpr hge)
      | extended => exact absurd hlt (not_lt.mpr hge)
    · exact h.lt_of_length_le hlast hk hout hat.next

section Bottom

variable {bound : ℚ}

/-- The segment that is found for a stored key is drawn for the piece of its knot. -/
theorem found_knot (h : Closing f (keyAt keys (keys.length - 1)) keys.length out storey)
    (hkeys : Indexable keys) (hcut : Cut f epsilon keys pieces out) (hk : k ∈ keys)
    (hat : storey.At k it s t) : ∃ piece l, pieces[it]? = some piece ∧
      Drawn f epsilon piece s l ∧ (k, rank (KeyArray.lowerBound keys k keys.length)) ∈ piece := by
  obtain ⟨hs, hkt, hnext⟩ := h.found hkeys.last_lt (hkeys.le_last_key hk) hat
  obtain ⟨first, rest, l, hpiece, hdrawn, hfirst⟩ := Drawn.of_forall₂ hcut.drawn hs
  refine ⟨_, l, hpiece, hdrawn, ?_⟩
  have hmem := hkeys.mem_knots hk
  rw [← hcut.flatten] at hmem
  rcases (hcut.rising hkeys).locate hcut.greedy.ne_nil hpiece hmem with hbefore | hin | hafter
  · rw [← hfirst] at hbefore
    exact absurd hat.le (not_le.mpr hbefore)
  · exact hin
  · obtain ⟨next, tail, hpiece', hkn⟩ := hafter
    have hlen := (List.getElem?_eq_some_iff.mp hpiece').1
    rw [hcut.drawn.length_eq] at hlen
    obtain ⟨next', tail', l', hpiece'', _, hkey⟩ := Drawn.of_forall₂ hcut.drawn (hnext hlen)
    cases hpiece'.symm.trans hpiece''
    rw [hkey] at hkt
    rcases hkn with heq | hgt
    · rw [← heq] at hkt
      exact absurd hkt (lt_irrefl _)
    · exact absurd hgt hkt.not_gt

/-- It predicts the first rank of the key. -/
theorem found_position (h : Closing f (keyAt keys (keys.length - 1)) keys.length out storey)
    (hkeys : Indexable keys) (hcut : Cut f epsilon keys pieces out) (hf : f.Accurate bound)
    (hbound : (keys.length : ℚ) + epsilon.val ≤ bound) (hwide : keys.length + epsilon.val < 2 ^ 64)
    (hk : k ∈ keys) (hat : storey.At k it s t) :
    KeyArray.lowerBound keys k keys.length ≤ s.position f.toFloating k + epsilon.val + 1 ∧
      s.position f.toFloating k ≤ KeyArray.lowerBound keys k keys.length + epsilon.val := by
  obtain ⟨piece, l, hpiece, hdrawn, hmem⟩ := h.found_knot hkeys hcut hk hat
  have hrank := hkeys.val_rank k
  have hlb := KeyArray.lowerBound_le keys k keys.length
  have hlbq : ((KeyArray.lowerBound keys k keys.length : Nat) : ℚ) ≤ keys.length :=
    Nat.cast_le.mpr hlb
  have hlow := hdrawn.le_position hf hat.le hmem (by dsimp only; rw [hrank]; linarith)
    (by dsimp only; rw [hrank]; omega)
  have hhigh := hcut.position_le hf hbound hpiece hdrawn hat.le hmem le_rfl
  dsimp only at hlow hhigh
  rw [hrank] at hlow hhigh
  exact ⟨hlow, hhigh⟩

/-- The next segment does not start before that. -/
theorem found_intercept (h : Closing f (keyAt keys (keys.length - 1)) keys.length out storey)
    (hkeys : Indexable keys) (hcut : Cut f epsilon keys pieces out) (hsize : keys.length < 2 ^ 32)
    (hk : k ∈ keys) (hat : storey.At k it s t) :
    KeyArray.lowerBound keys k keys.length ≤ t.intercept.val + epsilon.val := by
  obtain ⟨_, hkt, hnext⟩ := h.found hkeys.last_lt (hkeys.le_last_key hk) hat
  have hlb := KeyArray.lowerBound_le keys k keys.length
  rcases Nat.lt_or_ge (it + 1) out.length with hlt | hge
  · obtain ⟨next, tail, l, hpiece, hdrawn, hkey⟩ := Drawn.of_forall₂ hcut.drawn (hnext hlt)
    have hmem : next ∈ knots keys := by
      rw [← hcut.flatten]
      exact List.mem_flatten.mpr ⟨_, List.mem_of_getElem? hpiece, List.mem_cons_self⟩
    rw [hkey] at hkt
    have hranks := Fin.le_def.mp (hkeys.knots_rising.le (hkeys.mem_knots hk) hmem hkt)
    rw [hkeys.val_rank] at hranks
    exact hranks.trans hdrawn.intercept_near.2
  · have hcap : t.intercept.val = keys.length := by
      rcases h.flat_of_length_le hge hat.next with rfl | rfl
      · exact intercept_flatSegment _ hsize
      · exact intercept_flatSegment _ hsize
    omega

/-- The segments up to there start at or in front of the key. -/
theorem found_before {j : Nat} {u : Segment S}
    (h : Closing f (keyAt keys (keys.length - 1)) keys.length out storey) (hkeys : Indexable keys)
    (hcut : Cut f epsilon keys pieces out) (hk : k ∈ keys) (hat : storey.At k it s t) (hj : j ≤ it)
    (hu : storey.segments[j]? = some u) : u.key ≤ k := by
  obtain ⟨hs, _, _⟩ := h.found hkeys.last_lt (hkeys.le_last_key hk) hat
  have hit := (List.getElem?_eq_some_iff.mp hs).1
  rw [h.getElem? (by omega)] at hu
  rcases Nat.eq_or_lt_of_le hj with rfl | hlt
  · cases hs.symm.trans hu
    exact hat.le
  · exact (hcut.key_lt hkeys hlt hu hs).le.trans hat.le

/-- The segments behind start behind it. -/
theorem found_after {j : Nat} {u : Segment S}
    (h : Closing f (keyAt keys (keys.length - 1)) keys.length out storey) (hkeys : Indexable keys)
    (hcut : Cut f epsilon keys pieces out) (hk : k ∈ keys) (hat : storey.At k it s t) (hj : it < j)
    (hu : storey.segments[j]? = some u) : k < u.key := by
  obtain ⟨_, hkt, hnext⟩ := h.found hkeys.last_lt (hkeys.le_last_key hk) hat
  rcases Nat.lt_or_ge j out.length with hlt | hge
  · rw [h.getElem? hlt] at hu
    have ht := hnext (by omega)
    rcases Nat.eq_or_lt_of_le (Nat.succ_le_of_lt hj) with rfl | hlt'
    · cases ht.symm.trans hu
      exact hkt
    · exact hkt.trans (hcut.key_lt hkeys hlt' ht hu)
  · exact h.lt_of_length_le hkeys.last_lt (hkeys.le_last_key hk) hge hu

/-- The level over the keys themselves. -/
theorem finds (h : Closing f (keyAt keys (keys.length - 1)) keys.length out storey)
    (hkeys : Indexable keys) (hcut : Cut f epsilon keys pieces out) (hf : f.Accurate bound)
    (hbound : (keys.length : ℚ) + epsilon.val ≤ bound) (hsize : keys.length < 2 ^ 32)
    (hwide : keys.length + epsilon.val < 2 ^ 64) : storey.Finds f epsilon.val keys where
  position _ hk _ _ _ hat := h.found_position hkeys hcut hf hbound hwide hk hat
  intercept _ hk _ _ _ hat := h.found_intercept hkeys hcut hsize hk hat
  before _ hk _ _ _ hat _ _ hj hu := h.found_before hkeys hcut hk hat hj hu
  after _ hk _ _ _ hat _ _ hj hu := h.found_after hkeys hcut hk hat hj hu

end Bottom

end Closing

end PGM
