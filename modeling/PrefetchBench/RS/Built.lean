import PrefetchBench.RS.Segment

/-!
# What a builder makes

The spline points are sampled positions: the first, the last, and in between no two neighbours
further apart than the stride (`Knots`).  The table has the entry `firstAt` for every prefix: the
loop that fills it keeps that all entries below `table_pos` are final, and that the prefixes of
the spline points seen so far are all below it (`Builder.buildRadixTable_ensures`).

`RSWrapper::build` returns exactly when its builder does (`RSWrapper.build_iff`), since sorted
keys pass all the checks of `AddKey`.
-/

namespace RS

open Prog Windowed

variable {w : Nat} {V : Type}

/-! ## The spline -/

/-- The spline point of a position. -/
def knot (keys : List (Key w)) (p : Nat) : Coord w := ⟨keys.getD p 0, p⟩

/-- Positions of `n` keys from the first to the last, no two neighbours more than `gap` apart. -/
structure Knots (n gap : Nat) (ps : List Nat) : Prop where
  /-- They start at the first key. -/
  head : ps.head? = some 0
  /-- They end at the last key. -/
  last : ps.getLast? = some (n - 1)
  /-- They go up, by at most `gap`. -/
  chain : ps.IsChain fun a b => a < b ∧ b ≤ a + gap
  /-- All but the last key are sampled. -/
  sampled : ∀ p ∈ ps, p = n - 1 ∨ gap ∣ p

theorem isChain_concat {α : Type} {R : α → α → Prop} {xs : List α} {a b : α}
    (h : xs.IsChain R) (hlast : xs.getLast? = some a) (hab : R a b) : (xs ++ [b]).IsChain R := by
  refine List.isChain_append.mpr ⟨h, List.isChain_singleton b, fun x hx y hy => ?_⟩
  cases hlast.symm.trans hx
  cases hy
  exact hab

theorem knot_eq {keys : List (Key w)} {p : Nat} {x : Key w} (h : keys[p]? = some x) :
    knot keys p = ⟨x, p⟩ := by
  rw [knot, List.getD_eq_getElem?_getD, h, Option.getD_some]

/-- The loop over the strides. -/
structure SplineLoop.Valid (keys : List (Key w)) (stride : Nat) (r : SplineLoop w)
    (ps : List Nat) : Prop where
  /-- The points are those of the positions. -/
  points : r.splinePoints = ps.map (knot keys)
  /-- The first position. -/
  head : ps.head? = some 0
  /-- The last position so far. -/
  last : ps.getLast? = some r.lastAdded
  /-- The distances. -/
  chain : ps.IsChain fun a b => a < b ∧ b ≤ a + stride
  /-- The positions are sampled. -/
  sampled : ∀ p ∈ ps, stride ∣ p
  /-- The next position. -/
  next : r.i = r.lastAdded + stride
  /-- Positions are those of keys. -/
  lt : r.lastAdded < keys.length

theorem Builder.buildSplinePoints_ensures {b : Builder w} (hkeys : b.keys ≠ []) :
    b.buildSplinePoints.Ensures fun points =>
      ∃ ps, Knots b.keys.length (max 1 b.maxError) ps ∧ points = ps.map (knot b.keys) := by
  have hn : 0 < b.keys.length := List.length_pos_iff.mpr hkeys
  have hstride : 0 < max 1 b.maxError := Nat.lt_of_lt_of_le Nat.zero_lt_one (Nat.le_max_left _ _)
  obtain ⟨first, hfirst⟩ := KeyArray.exists_getElem? b.keys hn
  rw [Builder.buildSplinePoints, if_neg hn.ne']
  refine (returns_read.mpr hfirst).seq ?_
  refine Ensures.bind (P := fun r => (∃ ps, r.Valid b.keys (max 1 b.maxError) ps) ∧
    b.keys.length ≤ r.i) ?_ fun r hr => ?_
  · refine Ensures.whileM (fun m r => m = b.keys.length - r.i ∧
      ∃ ps, SplineLoop.Valid b.keys (max 1 b.maxError) r ps) ?_ _ _ ⟨rfl, [0], ?_⟩
    · rintro m r ⟨rfl, ps, h⟩
      refine ⟨_, returns_pure.mpr rfl, fun hlt => ?_, fun hge => ?_⟩
      · have hi : r.i < b.keys.length := of_decide_eq_true hlt
        obtain ⟨x, hx⟩ := KeyArray.exists_getElem? b.keys hi
        refine (returns_read.mpr hx).seq (Ensures.pure ⟨_, ?_, rfl, ps ++ [r.i], ?_⟩)
        · simp only
          omega
        · refine ⟨?_, ?_, List.getLast?_concat, isChain_concat h.chain h.last ?_, ?_, rfl, hi⟩
          · rw [List.map_append, h.points, List.map_singleton, knot_eq hx]
          · rw [List.head?_append, h.head]
            rfl
          · have := h.next
            omega
          · intro p hp
            rcases List.mem_append.mp hp with hp | hp
            · exact h.sampled p hp
            · cases List.mem_singleton.mp hp
              rw [h.next]
              exact Nat.dvd_add (h.sampled _ (List.mem_of_getLast? h.last)) (Nat.dvd_refl _)
      · exact ⟨⟨ps, h⟩, not_lt.mp (of_decide_eq_false hge)⟩
    · exact ⟨by rw [List.map_singleton, knot_eq hfirst]; rfl, rfl, rfl, List.isChain_singleton 0,
        fun p hp => by cases List.mem_singleton.mp hp; exact Nat.dvd_zero _,
        (Nat.zero_add _).symm, hn⟩
  · obtain ⟨⟨ps, h⟩, hi⟩ := hr
    have hnext := h.next
    have hlt := h.lt
    split
    · rename_i heq
      exact Ensures.pure
        ⟨ps, ⟨h.head, heq ▸ h.last, h.chain, fun p hp => Or.inr (h.sampled p hp)⟩, h.points⟩
    · rename_i hne
      obtain ⟨x, hx⟩ := KeyArray.exists_getElem? b.keys (i := b.keys.length - 1) (by omega)
      refine (returns_read.mpr hx).seq (Ensures.pure
        ⟨ps ++ [b.keys.length - 1],
          ⟨?_, List.getLast?_concat, isChain_concat h.chain h.last ?_, ?_⟩, ?_⟩)
      · rw [List.head?_append, h.head]
        rfl
      · omega
      · intro p hp
        rcases List.mem_append.mp hp with hp | hp
        · exact Or.inr (h.sampled p hp)
        · exact Or.inl (List.mem_singleton.mp hp)
      · rw [List.map_append, h.points, List.map_singleton, knot_eq hx]

/-! ## The table -/

/-- The entries below `table_pos` are final. -/
structure Filled (first : Nat → Nat) (limit : Nat) (r : List Nat × Nat) : Prop where
  /-- The size of the table. -/
  length_eq : r.1.length = limit + 1
  /-- The entries. -/
  entry : ∀ t, t < r.2 → r.1[t]? = some (first t)

section Table

variable {first : Nat → Nat} {limit i : Nat} {r : List Nat × Nat} {more : Nat → Bool}

/-- A loop that fills entries with their final value goes on until its condition fails. -/
theorem fillTable_ensures (h : Filled first limit r)
    (hmore : ∀ t, r.2 ≤ t → more t = true → t ≤ limit ∧ first t = i) :
    (Builder.fillTable more i r).Ensures fun r' =>
      Filled first limit r' ∧ r.2 ≤ r'.2 ∧ more r'.2 = false := by
  refine Ensures.whileM (fun m r' => m = limit + 1 - r'.2 ∧ Filled first limit r' ∧ r.2 ≤ r'.2)
    ?_ _ r ⟨rfl, h, Nat.le_refl _⟩
  rintro m ⟨table, tablePos⟩ ⟨rfl, hr, hle⟩
  refine ⟨_, returns_pure.mpr rfl, fun hgo => ?_, fun hstop => ⟨hr, hle, hstop⟩⟩
  obtain ⟨hlimit, hi⟩ := hmore tablePos hle hgo
  have hlen : table.length = limit + 1 := hr.length_eq
  refine Returns.seq (returns_write.mpr ⟨by simp only; omega, rfl⟩) ?_
  refine Ensures.pure ⟨limit + 1 - (tablePos + 1), ?_, rfl, ⟨?_, fun t ht => ?_⟩, ?_⟩
  · simp only
    omega
  · rw [List.length_set]
    exact hlen
  · rcases Nat.eq_or_lt_of_le (Nat.lt_succ_iff.mp ht) with rfl | hlt
    · rw [List.getElem?_set_self (by simp only; omega), hi]
    · rw [List.getElem?_set_ne (by omega)]
      exact hr.entry t hlt
  · exact hle.trans (Nat.le_succ _)

end Table

section BuildRadixTable

variable {b : Builder w} {bucket : Key w → Nat} {splinePoints : List (Coord w)}

theorem firstAt_eq {t i : Nat} {c : Coord w} (hi : splinePoints[i]? = some c)
    (ht : t ≤ bucket c.x)
    (hbefore : ∀ (j : Nat) (d : Coord w), j < i → splinePoints[j]? = some d → bucket d.x < t) :
    firstAt bucket splinePoints t = i := by
  obtain ⟨hlt, rfl⟩ := List.getElem?_eq_some_iff.mp hi
  refine (List.findIdx_eq hlt).mpr ⟨decide_eq_true ht, fun j hj => decide_eq_false ?_⟩
  exact not_le.mpr (hbefore j _ hj (List.getElem?_eq_getElem (hj.trans hlt)))

theorem firstAt_eq_length {t : Nat}
    (h : ∀ (j : Nat) (d : Coord w), splinePoints[j]? = some d → bucket d.x < t) :
    firstAt bucket splinePoints t = splinePoints.length := by
  refine List.findIdx_eq_length_of_false fun c hc => decide_eq_false ?_
  obtain ⟨j, hj⟩ := List.getElem?_of_mem hc
  exact not_le.mpr (h j c hj)

/-- The table after the first `i` spline points: their prefixes are all below `table_pos`. -/
structure Seen (b : Builder w) (bucket : Key w → Nat) (splinePoints : List (Coord w)) (i : Nat)
    (r : List Nat × Nat) : Prop where
  /-- The entries so far. -/
  filled : Filled (firstAt bucket splinePoints) (2 ^ b.numRadixBits) r
  /-- The prefixes so far. -/
  seen : ∀ (j : Nat) (d : Coord w), j < i → splinePoints[j]? = some d → bucket d.x < r.2

/-- One spline point fills the entries up to its prefix. -/
theorem Seen.next {i : Nat} {r : List Nat × Nat} (h : Seen b bucket splinePoints i r)
    {c : Coord w} (hc : splinePoints[i]? = some c) (hlt : bucket c.x < 2 ^ b.numRadixBits) :
    (Builder.fillTable (fun tablePos =>
      decide (tablePos ≤ bucket c.x) && decide (tablePos < 2 ^ b.numRadixBits)) i r).Ensures
      (Seen b bucket splinePoints (i + 1)) := by
  refine (fillTable_ensures h.filled fun t ht hgo => ?_).mono fun r' ⟨hr', hle, hstop⟩ =>
    ⟨hr', fun j d hj hd => ?_⟩
  · simp only [Bool.and_eq_true, decide_eq_true_iff] at hgo
    exact ⟨hgo.2.le, firstAt_eq hc hgo.1 fun j d hj hd => (h.seen j d hj hd).trans_le ht⟩
  · rcases Nat.eq_or_lt_of_le (Nat.lt_succ_iff.mp hj) with rfl | hji
    · cases hc.symm.trans hd
      simp only [Bool.and_eq_false_iff, decide_eq_false_iff_not] at hstop
      omega
    · exact (h.seen j d hji hd).trans_le hle

/-- The table is filled as `Indexed` asks for. -/
theorem Builder.buildRadixTable_ensures (hs : splinePoints ≠ [])
    (hbucket : ∀ c ∈ splinePoints, (b.getPrefix c.x).Returns (bucket c.x))
    (hlt : ∀ key, bucket key < 2 ^ b.numRadixBits) :
    (b.buildRadixTable splinePoints).Ensures fun table =>
      table.length = 2 ^ b.numRadixBits + 1 ∧ ∀ t, t ≤ 2 ^ b.numRadixBits →
        table[t]? = some (firstAt bucket splinePoints t) := by
  rw [Builder.buildRadixTable, if_neg hs]
  refine Ensures.bind (Ensures.forRange (Seen b bucket splinePoints) ?_ fun i hi r hr => ?_)
    fun r hr => ?_
  · exact ⟨⟨List.length_replicate, fun t ht => absurd ht (Nat.not_lt_zero t)⟩,
      fun j d hj => absurd hj (Nat.not_lt_zero j)⟩
  · obtain ⟨c, hc⟩ := KeyArray.exists_getElem? splinePoints hi
    exact (returns_read.mpr hc).seq
      ((hbucket c (List.mem_of_getElem? hc)).seq (hr.next hc (hlt c.x)))
  · have hall : ∀ (j : Nat) (d : Coord w), splinePoints[j]? = some d → bucket d.x < r.2 :=
      fun j d hd => hr.seen j d (List.getElem?_eq_some_iff.mp hd).1 hd
    refine Ensures.bind (fillTable_ensures hr.filled fun t ht hgo => ?_)
      fun r' ⟨hr', _, hstop⟩ => Ensures.pure ⟨hr'.length_eq, fun t ht => hr'.entry t ?_⟩
    · exact ⟨of_decide_eq_true hgo, firstAt_eq_length fun j d hd => (hall j d hd).trans_le ht⟩
    · have := of_decide_eq_false hstop
      omega

end BuildRadixTable

/-! ## The index -/

/-- The index belongs to these keys. -/
structure Fitted (keys : List (Key w)) (maxError : Nat) (bucket : Key w → Nat)
    (s : RadixSpline w) : Prop where
  /-- The table. -/
  indexed : Indexed s bucket
  /-- The number of keys. -/
  numKeys_eq : s.numKeys = keys.length
  /-- The error. -/
  maxError_eq : s.maxError = maxError
  /-- The spline. -/
  spline : ∃ ps, Knots keys.length (max 1 maxError) ps ∧ s.splinePoints = ps.map (knot keys)

section Finalize

variable {b : Builder w} {bucket : Key w → Nat}

theorem Knots.ne_nil {n gap : Nat} {ps : List Nat} (h : Knots n gap ps) : ps ≠ [] := by
  rintro rfl
  cases h.head

theorem Builder.finalize_ensures (hkeys : b.keys ≠ []) (hbits : b.numRadixBits < 64)
    (hbucket : ∀ points, b.buildSplinePoints.Returns points → ∀ key, (∃ c ∈ points, key ≤ c.x) →
      (b.getPrefix key).Returns (bucket key))
    (hlt : ∀ key, bucket key < 2 ^ b.numRadixBits) :
    b.finalize.Ensures (Fitted b.keys b.maxError bucket) := by
  obtain ⟨points, hret, ps, hps, hpoints⟩ := Builder.buildSplinePoints_ensures hkeys
  have hs : points ≠ [] := by
    rw [hpoints]
    exact fun hc => hps.ne_nil (List.map_eq_nil_iff.mp hc)
  have hpoint := hbucket points hret
  rw [Builder.finalize]
  refine hret.seq ?_
  refine Ensures.bind (Builder.buildRadixTable_ensures hs
    (fun c hc => hpoint c.x ⟨c, hc, le_refl _⟩) hlt) fun table ⟨hlen, htable⟩ => ?_
  refine Ensures.assert_bind (decide_eq_true hbits) ?_
  refine Ensures.assert_bind ?_ (Ensures.pure ?_)
  · rw [decide_eq_true hlen, Bool.or_true]
  · exact ⟨⟨hpoint, hlt, hlen, htable⟩, rfl, rfl, ps, hps, hpoints⟩

/-- When the builder returns, every spline point has a prefix. -/
theorem Builder.finalize_getPrefix {s : RadixSpline w} (h : b.finalize.Returns s)
    {points : List (Coord w)} (hret : b.buildSplinePoints.Returns points) {c : Coord w}
    (hc : c ∈ points) : ∃ bucket, (b.getPrefix c.x).Returns bucket := by
  obtain ⟨i, hi, hget⟩ := List.getElem_of_mem hc
  obtain ⟨table, htable, _⟩ := returns_bind.mp (hret.bind_iff.mp h)
  rw [Builder.buildRadixTable, if_neg (List.ne_nil_of_mem hc)] at htable
  obtain ⟨r, hr, _⟩ := returns_bind.mp htable
  obtain ⟨_, _, hstep⟩ := hr.forRange_inv i hi
  have hread : (read points i).Returns c :=
    returns_read.mpr (hget ▸ List.getElem?_eq_getElem hi)
  obtain ⟨bucket, hbucket, _⟩ := returns_bind.mp (hread.bind_iff.mp hstep)
  exact ⟨bucket, hbucket⟩

/-- When the builder returns, the keys that are not above the whole spline have prefixes, and the
index is fitted to the keys. -/
theorem Builder.finalize_fitted {s : RadixSpline w} (h : b.finalize.Returns s)
    (hkeys : b.keys ≠ []) (hbits : b.numRadixBits < 64) (hle : b.minKey ≤ b.maxKey) :
    ∃ bucket, Fitted b.keys b.maxError bucket s := by
  obtain ⟨points, hret, _⟩ := Builder.buildSplinePoints_ensures hkeys
  have hdef : ∀ key, ∃ bucket, bucket < 2 ^ b.numRadixBits ∧
      ((∃ c ∈ points, key ≤ c.x) → (b.getPrefix key).Returns bucket) := by
    intro key
    by_cases hkey : ∃ c ∈ points, key ≤ c.x
    · obtain ⟨c, hc, hkc⟩ := hkey
      obtain ⟨_, hc'⟩ := Builder.finalize_getPrefix h hret hc
      obtain ⟨bucket, hbucket, hlt⟩ := getPrefix_defined hle hc' hkc
      exact ⟨bucket, hlt, fun _ => hbucket⟩
    · exact ⟨0, Nat.two_pow_pos _, fun hc => absurd hc hkey⟩
  choose bucket hlt hbucket using hdef
  refine ⟨bucket, (Builder.finalize_ensures hkeys hbits (fun points' hret' key hkey => ?_)
    hlt).of_returns h⟩
  cases hret.det hret'
  exact hbucket key hkey

end Finalize

/-! ## The wrapper -/

section SortByKey

variable {keys : List (Key w)} {values : List V} (h : keys.length = values.length)

theorem sortByKey_sorted : (sortByKey keys values h).keys.Pairwise (· ≤ ·) := by
  rw [sortByKey]
  split
  · rename_i hs
    exact List.isChain_iff_pairwise.mp hs
  · refine List.pairwise_map.mpr ?_
    have hp : (sortedOrder keys).Pairwise fun a b => decide (keys[a] ≤ keys[b]) = true :=
      List.pairwise_mergeSort
        (fun a b c hab hbc => decide_eq_true
          ((of_decide_eq_true hab).trans (of_decide_eq_true hbc)))
        (fun a b => by
          rw [Bool.or_eq_true, decide_eq_true_iff, decide_eq_true_iff]
          exact le_total _ _) (List.finRange keys.length)
    exact hp.imp fun hab => of_decide_eq_true hab

theorem zip_eq_map_finRange : keys.zip values =
    (List.finRange keys.length).map fun i => (keys.get i, values.get (i.cast h)) := by
  refine List.ext_getElem ?_ fun i h1 h2 => ?_
  · rw [List.length_zip, List.length_map, List.length_finRange, h, Nat.min_self]
  · simp

/-- Sorting moves every value along with its key. -/
theorem sortByKey_perm :
    ((sortByKey keys values h).keys.zip (sortByKey keys values h).values).Perm
      (keys.zip values) := by
  rw [sortByKey]
  split
  · exact List.Perm.refl _
  · rw [List.zip_map', zip_eq_map_finRange h]
    exact (List.mergeSort_perm _ _).map _

theorem sortByKey_paired :
    (sortByKey keys values h).keys.length = (sortByKey keys values h).values.length := by
  rw [sortByKey]
  split
  · exact h
  · simp

theorem sortByKey_keys_perm : (sortByKey keys values h).keys.Perm keys := by
  have hp := (sortByKey_perm h).map Prod.fst
  rwa [List.map_fst_zip (sortByKey_paired h).le, List.map_fst_zip h.le] at hp

end SortByKey

/-- Sorted keys within the bounds of the builder pass all the checks. -/
theorem addKeys_returns {keys : List (Key w)} {minKey maxKey : Key w}
    (numRadixBits maxError : Nat) (hsorted : keys.Pairwise (· ≤ ·))
    (hbounds : ∀ k ∈ keys, minKey ≤ k ∧ k ≤ maxKey) :
    (forRange keys.length (fun i (builder : Builder w) => do
      let key ← read keys i
      builder.addKey key) ⟨minKey, maxKey, numRadixBits, maxError, []⟩).Returns
      ⟨minKey, maxKey, numRadixBits, maxError, keys⟩ := by
  refine Ensures.returns ((Ensures.forRange
    (fun i b => b = ⟨minKey, maxKey, numRadixBits, maxError, keys.take i⟩) rfl
    fun i hi b hb => ?_).mono fun b hb => ?_)
  · subst hb
    have hget := List.getElem?_eq_getElem hi
    have hbound := hbounds _ (List.getElem_mem hi)
    refine (returns_read.mpr hget).seq ?_
    refine Ensures.assert_bind ?_
      (Ensures.assert_bind (by simpa using hbound) (Ensures.pure ?_))
    · -- the last key so far is in front of this one
      rw [Option.all_eq_true]
      intro x hx
      obtain ⟨j, hj, hxj⟩ := List.getElem_of_mem (List.mem_of_getLast? hx)
      rw [List.length_take] at hj
      rw [List.getElem_take] at hxj
      rw [decide_eq_true_iff, ← hxj]
      exact List.pairwise_iff_getElem.mp hsorted j i _ hi (by omega)
    · rw [List.take_succ_eq_append_getElem hi]
  · rw [hb, List.take_length]

/-- The builder of a wrapper over sorted keys, with all keys added. -/
def sortedBuilder (numRadixBits maxError : Nat) (keys : List (Key w)) : Builder w :=
  ⟨keys.headD 0, keys.getLastD 0, numRadixBits, maxError, keys⟩

theorem getElem?_headD {keys : List (Key w)} (h : 0 < keys.length) :
    keys[0]? = some (keys.headD 0) := by
  rw [List.headD_eq_head?_getD, List.head?_eq_getElem?, List.getElem?_eq_getElem h,
    Option.getD_some]

theorem getElem?_getLastD {keys : List (Key w)} (h : 0 < keys.length) :
    keys[keys.length - 1]? = some (keys.getLastD 0) := by
  rw [List.getLastD_eq_getLast?, List.getLast?_eq_getElem?,
    List.getElem?_eq_getElem (by omega), Option.getD_some]

theorem headD_le_getLastD {keys : List (Key w)} (hsorted : keys.Pairwise (· ≤ ·))
    (k : Key w) (hk : k ∈ keys) : keys.headD 0 ≤ k ∧ k ≤ keys.getLastD 0 := by
  obtain ⟨i, hi, rfl⟩ := List.getElem_of_mem hk
  have hpos : 0 < keys.length := Nat.zero_lt_of_lt hi
  have hhead := (List.getElem?_eq_some_iff.mp (getElem?_headD hpos)).2
  obtain ⟨hlt, hlast⟩ := List.getElem?_eq_some_iff.mp (getElem?_getLastD hpos)
  have hle : ∀ i j (hi : i < keys.length) (hj : j < keys.length), i ≤ j → keys[i] ≤ keys[j] := by
    intro i j hi hj hij
    rcases Nat.eq_or_lt_of_le hij with rfl | hlt
    · exact le_refl _
    · exact List.pairwise_iff_getElem.mp hsorted i j hi hj hlt
  rw [← hhead, ← hlast]
  exact ⟨hle 0 i hpos hi (Nat.zero_le i), hle i _ hi (by omega) (by omega)⟩

/-- `build` on an input with keys does what the builder does. -/
theorem RSWrapper.build_iff {numRadixBits maxError : Nat} {keys : List (Key w)} {values : List V}
    {rs : RSWrapper w V} (h : keys.length = values.length) (hkeys : keys ≠ []) :
    (RSWrapper.build numRadixBits maxError keys values).Returns rs ↔ numRadixBits < 64 ∧
      ∃ index, (sortedBuilder numRadixBits maxError (sortByKey keys values h).keys).finalize.Returns
        index ∧ rs = ⟨sortByKey keys values h, index⟩ := by
  have hsorted := sortByKey_sorted h
  have hpos : 0 < (sortByKey keys values h).keys.length := by
    rw [(sortByKey_keys_perm h).length_eq]
    exact List.length_pos_iff.mpr hkeys
  rw [RSWrapper.build, dif_pos h, if_neg hkeys]
  generalize sortByKey keys values h = t at *
  have hfront := getElem?_headD hpos
  have hback := getElem?_getLastD hpos
  have hle := headD_le_getLastD hsorted _ (List.mem_of_getElem? hfront)
  rw [(returns_read.mpr hfront).bind_iff, (returns_read.mpr hback).bind_iff]
  have hnew : ∀ b : Builder w, (Builder.new (t.keys.headD 0) (t.keys.getLastD 0) numRadixBits
      maxError).Returns b ↔ numRadixBits < 64 ∧
        b = ⟨t.keys.headD 0, t.keys.getLastD 0, numRadixBits, maxError, []⟩ := by
    intro b
    rw [Builder.new, returns_assert_bind, returns_assert_bind, returns_pure,
      decide_eq_true_iff, decide_eq_true_iff]
    exact (and_iff_right hle.2).trans (and_congr_right fun _ => eq_comm)
  have hadd := addKeys_returns numRadixBits maxError hsorted (headD_le_getLastD hsorted)
  rw [returns_bind]
  constructor
  · rintro ⟨b, hb, hrest⟩
    obtain ⟨hbits, rfl⟩ := (hnew b).mp hb
    obtain ⟨index, hindex, hrs⟩ := returns_bind.mp (hadd.bind_iff.mp hrest)
    exact ⟨hbits, index, hindex, (returns_pure.mp hrs).symm⟩
  · rintro ⟨hbits, index, hindex, rfl⟩
    exact ⟨_, (hnew _).mpr ⟨hbits, rfl⟩, hadd.bind_iff.mpr (hindex.bind (returns_pure.mpr rfl))⟩

end RS
