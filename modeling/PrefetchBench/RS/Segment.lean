import PrefetchBench.RS.Builder

/-!
# The segment of a key

Why the radix table loses nothing.  `GetPrefix` scales the distance of a key from the smallest one
to `num_radix_bits` bits, so it is monotone in the key (`bucketOf_mono`); the table has, for every
prefix, the first spline point with that prefix or a larger one; so the points that the table
leaves for a key are those with its prefix, and the point in front of them and the one after them
are enough to find the last spline point at or below the key (`Indexed.segment`).

Safety does not need the monotonicity: whatever the prefixes are, the narrowed range is a range of
spline points that has at least one (`Indexed.radixRange`), and the segment has a point on either
side (`Indexed.getSplineSegment`).
-/

namespace RS

open Prog Ranges

variable {w : Nat}

/-! ## Prefixes -/

/-- What `BitWidth` returns. -/
def keyBits (x : Nat) : Nat := if x = 0 then 1 else x.size

theorem lt_two_pow_keyBits (x : Nat) : x < 2 ^ keyBits x := by
  rw [keyBits]
  split
  · rename_i h
    subst h
    exact Nat.two_pow_pos 1
  · exact Nat.lt_size_self x

theorem keyBits_pos (x : Nat) : 0 < keyBits x := by
  rw [keyBits]
  split
  · exact Nat.zero_lt_one
  · rename_i h
    exact Nat.size_pos.mpr (Nat.pos_of_ne_zero h)

theorem size_shiftRight_one {x : Nat} (h : 0 < x) : x.size = (x >>> 1).size + 1 := by
  conv_lhs => rw [← Nat.bit_testBit_zero_shiftRight_one x]
  refine Nat.size_bit ?_
  rw [Nat.bit_testBit_zero_shiftRight_one]
  exact h.ne'

theorem bitWidth_returns (x : Nat) : (bitWidth x).Returns (keyBits x) := by
  rw [bitWidth, keyBits]
  split
  · exact returns_pure.mpr rfl
  · refine Ensures.returns (Ensures.bind (P := fun r => r.1 = x.size) ?_ fun r hr =>
      Ensures.pure hr)
    -- the bits counted so far and those of the rest
    refine Ensures.whileM (fun m r => r.2 = m ∧ r.1 + r.2.size = x.size) ?_ x (0, x)
      ⟨rfl, Nat.zero_add _⟩
    rintro m ⟨bits, y⟩ ⟨rfl, hsum⟩
    refine ⟨_, returns_pure.mpr rfl, fun hpos => ?_, fun hzero => ?_⟩
    · have hy : 0 < y := of_decide_eq_true hpos
      have hhalf : y >>> 1 < y := by
        rw [Nat.shiftRight_one]
        omega
      have hsize := size_shiftRight_one hy
      refine Ensures.pure ⟨y >>> 1, hhalf, rfl, ?_⟩
      simp only at hsum ⊢
      omega
    · have h0 : y = 0 := Nat.eq_zero_of_not_pos (of_decide_eq_false hzero)
      subst h0
      simpa using hsum

/-- The distance of a key from the smallest one, cut off at both ends. -/
def clampedDiff (minKey maxKey key : Key w) : Nat :=
  min (key - minKey : Nat) (maxKey - minKey : Nat)

theorem clampedDiff_mono (minKey maxKey : Key w) {x y : Key w} (h : x ≤ y) :
    clampedDiff minKey maxKey x ≤ clampedDiff minKey maxKey y :=
  min_le_min (Nat.sub_le_sub_right h _) (Nat.le_refl _)

/-- The prefix of a key: its distance scaled to the bits of a prefix. -/
def bucketOf (numRadixBits : Nat) (minKey maxKey key : Key w) : Nat :=
  clampedDiff minKey maxKey key * 2 ^ numRadixBits / 2 ^ keyBits (maxKey - minKey : Nat)

theorem bucketOf_mono (numRadixBits : Nat) (minKey maxKey : Key w) :
    Monotone (bucketOf numRadixBits minKey maxKey) := by
  intro x y hxy
  have hdiff := clampedDiff_mono minKey maxKey hxy
  exact Nat.div_le_div_right (Nat.mul_le_mul_right _ hdiff)

theorem bucketOf_lt (numRadixBits : Nat) (minKey maxKey key : Key w) :
    bucketOf numRadixBits minKey maxKey key < 2 ^ numRadixBits := by
  have hlt : clampedDiff minKey maxKey key < 2 ^ keyBits (maxKey - minKey : Nat) :=
    (Nat.min_le_right _ _).trans_lt (lt_two_pow_keyBits _)
  refine Nat.div_lt_of_lt_mul ?_
  exact Nat.mul_lt_mul_of_pos_right hlt (Nat.two_pow_pos _)

/-- The distance as the code computes it. -/
theorem diff_eq {minKey maxKey : Key w} (h : minKey ≤ maxKey) (key : Key w) :
    ((if key ≤ minKey then 0 else if maxKey ≤ key then maxKey - minKey else key - minKey : Key w) :
      Nat) = clampedDiff minKey maxKey key := by
  rw [clampedDiff]
  split
  · rename_i hle
    have : (key : Nat) - minKey = 0 := Nat.sub_eq_zero_of_le hle
    simp [this]
  · split
    · rename_i hge
      rw [Fin.sub_val_of_le h]
      exact (Nat.min_eq_right (Nat.sub_le_sub_right hge _)).symm
    · rename_i hgt hlt
      rw [Fin.sub_val_of_le (not_le.mp hgt).le]
      exact (Nat.min_eq_left (Nat.sub_le_sub_right (not_le.mp hlt).le _)).symm

theorem shiftLeft_returns {x s : Nat} (hs : s < w) (hx : x * 2 ^ s < 2 ^ w) :
    (shiftLeft w x s).Returns (x * 2 ^ s) := by
  rw [shiftLeft]
  split
  · refine returns_assert_bind.mpr ⟨by simpa using hs, ?_⟩
    rw [Nat.mod_eq_of_lt hx]
    exact returns_pure.mpr rfl
  · have hw : 2 ^ w ≤ 2 ^ 31 := Nat.pow_le_pow_right Nat.zero_lt_two (by omega)
    refine returns_assert_bind.mpr ⟨?_, ?_⟩
    · rw [Bool.and_eq_true, decide_eq_true_iff, decide_eq_true_iff]
      omega
    · rw [if_pos (by omega)]
      exact returns_pure.mpr rfl

/-- A shift that is defined for a word is defined for the smaller ones. -/
theorem shiftLeft_defined {x y s r : Nat} (h : (shiftLeft w x s).Returns r) (hxy : y ≤ x) :
    ∃ r', (shiftLeft w y s).Returns r' := by
  rw [shiftLeft] at h ⊢
  by_cases hw : 32 ≤ w
  · rw [if_pos hw] at h ⊢
    obtain ⟨hs, _⟩ := returns_assert_bind.mp h
    exact ⟨_, returns_assert_bind.mpr ⟨hs, returns_pure.mpr rfl⟩⟩
  · rw [if_neg hw] at h ⊢
    obtain ⟨hs, _⟩ := returns_assert_bind.mp h
    rw [Bool.and_eq_true, decide_eq_true_iff, decide_eq_true_iff] at hs
    have hle : y * 2 ^ s ≤ x * 2 ^ s := Nat.mul_le_mul_right _ hxy
    refine ⟨_, returns_assert_bind.mpr ⟨?_, returns_pure.mpr rfl⟩⟩
    rw [Bool.and_eq_true, decide_eq_true_iff, decide_eq_true_iff]
    omega

section GetPrefix

variable {numRadixBits : Nat} {minKey maxKey : Key w}

/-- With no more bits than a key has, the prefix is the scaled distance. -/
theorem getPrefix_returns (hbits : numRadixBits ≤ w) (h : minKey ≤ maxKey) (key : Key w) :
    (getPrefix numRadixBits minKey maxKey key).Returns
      (bucketOf numRadixBits minKey maxKey key) := by
  have hlt := bucketOf_lt numRadixBits minKey maxKey key
  have hpos := keyBits_pos (maxKey - minKey : Nat)
  rw [getPrefix]
  split
  · rename_i h0
    subst h0
    exact returns_pure.mpr (by omega)
  · simp only [diff_eq h, Fin.sub_val_of_le h]
    refine (bitWidth_returns _).bind ?_
    have hclamp : (if 2 ^ numRadixBits - 1 < bucketOf numRadixBits minKey maxKey key then
        2 ^ numRadixBits - 1 else bucketOf numRadixBits minKey maxKey key) =
        bucketOf numRadixBits minKey maxKey key := if_neg (by omega)
    split
    · rename_i hwide
      -- the prefix is the top bits of the distance
      have hsplit : 2 ^ keyBits (maxKey - minKey : Nat) =
          2 ^ numRadixBits * 2 ^ (keyBits (maxKey - minKey : Nat) - numRadixBits) := by
        rw [← Nat.pow_add, Nat.add_sub_cancel' hwide.le]
      have hvalue : clampedDiff minKey maxKey key >>>
          (keyBits (maxKey - minKey : Nat) - numRadixBits) =
          bucketOf numRadixBits minKey maxKey key := by
        rw [bucketOf, hsplit, Nat.mul_comm, Nat.mul_div_mul_left _ _ (Nat.two_pow_pos _),
          Nat.shiftRight_eq_div_pow]
      refine (returns_pure.mpr hvalue).bind ?_
      exact returns_pure.mpr hclamp
    · rename_i hnarrow
      -- the distance has fewer bits than a prefix
      have hsplit : 2 ^ numRadixBits = 2 ^ (numRadixBits - keyBits (maxKey - minKey : Nat)) *
          2 ^ keyBits (maxKey - minKey : Nat) := by
        rw [← Nat.pow_add, Nat.sub_add_cancel (not_lt.mp hnarrow)]
      have hvalue : clampedDiff minKey maxKey key *
          2 ^ (numRadixBits - keyBits (maxKey - minKey : Nat)) =
          bucketOf numRadixBits minKey maxKey key := by
        rw [bucketOf, hsplit, ← Nat.mul_assoc, Nat.mul_div_cancel _ (Nat.two_pow_pos _)]
      have hshift := shiftLeft_returns (w := w) (x := clampedDiff minKey maxKey key)
        (s := numRadixBits - keyBits (maxKey - minKey : Nat)) (by omega) (by
          rw [hvalue]
          exact hlt.trans_le (Nat.pow_le_pow_right Nat.zero_lt_two hbits))
      rw [hvalue] at hshift
      exact hshift.bind (returns_pure.mpr hclamp)

/-- Whatever the number of bits, if a key has a prefix then the keys below it have one. -/
theorem getPrefix_defined (h : minKey ≤ maxKey) {top : Key w} {bucket : Nat}
    (htop : (getPrefix numRadixBits minKey maxKey top).Returns bucket) {key : Key w}
    (hkey : key ≤ top) :
    (getPrefix numRadixBits minKey maxKey key).Ensures (· < 2 ^ numRadixBits) := by
  have hclamp : ∀ r : Nat, (if 2 ^ numRadixBits - 1 < r then 2 ^ numRadixBits - 1 else r) <
      2 ^ numRadixBits := by
    intro r
    have := Nat.two_pow_pos numRadixBits
    split <;> omega
  rw [getPrefix] at htop ⊢
  split
  · exact Ensures.pure (Nat.two_pow_pos _)
  · rename_i h0
    rw [if_neg h0] at htop
    simp only [diff_eq h, Fin.sub_val_of_le h] at htop ⊢
    obtain ⟨bits, hbits, htop⟩ := returns_bind.mp htop
    cases hbits.det (bitWidth_returns _)
    refine (bitWidth_returns _).seq ?_
    split
    · exact (returns_pure.mpr rfl).seq (Ensures.pure (hclamp _))
    · rename_i hnarrow
      rw [if_neg hnarrow] at htop
      obtain ⟨_, hshift, _⟩ := returns_bind.mp htop
      obtain ⟨r, hr⟩ := shiftLeft_defined hshift (clampedDiff_mono minKey maxKey hkey)
      exact hr.seq (Ensures.pure (hclamp r))

end GetPrefix

/-! ## The table -/

/-- The first spline point whose prefix is at least `t`. -/
def firstAt (bucket : Key w → Nat) (splinePoints : List (Coord w)) (t : Nat) : Nat :=
  splinePoints.findIdx fun c => decide (t ≤ bucket c.x)

/-- The table goes with the spline, for prefixes given by `bucket`. -/
structure Indexed (s : RadixSpline w) (bucket : Key w → Nat) : Prop where
  /-- Keys that are not above the whole spline have these prefixes. -/
  getPrefix : ∀ key, (∃ c ∈ s.splinePoints, key ≤ c.x) → (s.getPrefix key).Returns (bucket key)
  /-- Prefixes have no more bits than they should. -/
  bucket_lt : ∀ key, bucket key < 2 ^ s.numRadixBits
  /-- The table has one entry more than there are prefixes. -/
  table_length : s.radixTable.length = 2 ^ s.numRadixBits + 1
  /-- Its entries. -/
  table : ∀ t, t ≤ 2 ^ s.numRadixBits →
    s.radixTable[t]? = some (firstAt bucket s.splinePoints t)

section Indexed

variable {s : RadixSpline w} {bucket : Key w → Nat} {key : Key w}

theorem firstAt_le (bucket : Key w → Nat) (splinePoints : List (Coord w)) (t : Nat) :
    firstAt bucket splinePoints t ≤ splinePoints.length := List.findIdx_le_length

theorem firstAt_succ (bucket : Key w → Nat) (splinePoints : List (Coord w)) (t : Nat) :
    firstAt bucket splinePoints t ≤ firstAt bucket splinePoints (t + 1) := by
  refine List.findIdx_le_findIdx fun c _ h => ?_
  rw [decide_eq_true_iff] at h ⊢
  omega

/-- The range is that of the points with the key's prefix, with one more on either side. -/
theorem Indexed.radixRange (h : Indexed s bucket) (hs : s.splinePoints ≠ [])
    (hkey : (s.getPrefix key).Returns (bucket key)) :
    (s.radixRange key).Returns
      ⟨firstAt bucket s.splinePoints (bucket key) - 1,
        min s.splinePoints.length (firstAt bucket s.splinePoints (bucket key + 1) + 1)⟩ := by
  have hlt := h.bucket_lt key
  have hn : 0 < s.splinePoints.length := List.length_pos_iff.mpr hs
  have hle := firstAt_le bucket s.splinePoints (bucket key + 1)
  have hsucc := firstAt_succ bucket s.splinePoints (bucket key)
  have htable : s.radixTable.isEmpty = false := by
    rw [List.isEmpty_eq_false_iff, ← List.length_pos_iff, h.table_length]
    exact Nat.succ_pos _
  rw [RadixSpline.radixRange, htable, if_neg Bool.false_ne_true]
  refine hkey.bind ?_
  refine (returns_read.mpr (h.table _ hlt.le)).bind ?_
  refine (returns_read.mpr (h.table _ hlt)).bind ?_
  generalize firstAt bucket s.splinePoints (bucket key) = a at *
  generalize firstAt bucket s.splinePoints (bucket key + 1) = b at *
  generalize s.splinePoints.length = n at *
  have hbegin : (if 0 < a then a - 1 else a) = a - 1 := by
    split <;> omega
  have hend : (if b < n then b + 1 else b) = min n (b + 1) := by
    split <;> omega
  have hbegin' : (if n ≤ a - 1 then n - 1 else a - 1) = a - 1 := if_neg (by omega)
  have hend' : (if n < min n (b + 1) then n else min n (b + 1)) = min n (b + 1) :=
    if_neg (by omega)
  simp only [hbegin, hend, hbegin', hend']
  rw [if_neg (by omega)]
  exact returns_pure.mpr rfl

/-- The segment has a spline point on either side. -/
theorem Indexed.getSplineSegment (h : Indexed s bucket) (hn : 2 ≤ s.splinePoints.length)
    (hkey : (s.getPrefix key).Returns (bucket key)) :
    (s.getSplineSegment key).Ensures (· + 1 < s.splinePoints.length) := by
  have hs : s.splinePoints ≠ [] := List.length_pos_iff.mp (by omega)
  have hle := firstAt_le bucket s.splinePoints (bucket key)
  have hsucc := firstAt_succ bucket s.splinePoints (bucket key)
  rw [RadixSpline.getSplineSegment, if_neg (by omega)]
  refine (h.radixRange hs hkey).seq ?_
  refine Ensures.bind (upperBound_ensures (by simp only; omega) (Nat.min_le_left _ _)) ?_
  intro it _
  refine Ensures.pure ?_
  split <;> split <;> omega

/-- The last spline point at or below a key, but for the ends: the first one if there is none,
and the last but one if it is the last. -/
def segmentOf (splinePoints : List (Coord w)) (key : Key w) : Nat :=
  min (splinePoints.findIdx (fun c => decide (key < c.x)) - 1) (splinePoints.length - 2)

/-- The search in a part of the points that the first one above the key is in, or right behind. -/
theorem upperBound_points {points : List (Coord w)} (key : Key w)
    (hsorted : points.Pairwise fun c d => c.x ≤ d.x) {lo hi : Nat}
    (hlo : lo ≤ points.findIdx fun c => decide (key < c.x))
    (hhi : points.findIdx (fun c => decide (key < c.x)) ≤ hi) (hlen : hi ≤ points.length) :
    (upperBound (fun c : Coord w => decide (key < c.x)) points lo hi).Returns
      (points.findIdx fun c => decide (key < c.x)) := by
  refine upperBound_eq hlo hhi hlen ?_ ?_
  · intro i c _ hi hc
    exact decide_eq_false (not_lt.mpr (le_of_lt_findIdx hi hc))
  · intro i c hi _ hc
    exact decide_eq_true (lt_of_findIdx_le hsorted hi hc)

/-- Searching the range is searching the whole spline. -/
theorem Indexed.segment (h : Indexed s bucket) (hmono : Monotone bucket)
    (hsorted : s.splinePoints.Pairwise fun c d => c.x ≤ d.x)
    (hn : 2 ≤ s.splinePoints.length) (hkey : (s.getPrefix key).Returns (bucket key)) :
    (s.getSplineSegment key).Returns (segmentOf s.splinePoints key) := by
  have hs : s.splinePoints ≠ [] := List.length_pos_iff.mp (by omega)
  have hlen : s.splinePoints.findIdx (fun c => decide (key < c.x)) ≤ s.splinePoints.length :=
    List.findIdx_le_length
  -- a point above the key has its prefix or a larger one
  have hlo : firstAt bucket s.splinePoints (bucket key) ≤
      s.splinePoints.findIdx fun c => decide (key < c.x) := by
    refine List.findIdx_le_findIdx fun c _ hc => ?_
    rw [decide_eq_true_iff] at hc ⊢
    exact hmono hc.le
  -- a point with a larger prefix is above the key
  have hhi : s.splinePoints.findIdx (fun c => decide (key < c.x)) ≤
      firstAt bucket s.splinePoints (bucket key + 1) := by
    refine List.findIdx_le_findIdx fun c _ hc => ?_
    rw [decide_eq_true_iff] at hc ⊢
    by_contra hle
    exact absurd (hmono (not_lt.mp hle)) (by omega)
  rw [RadixSpline.getSplineSegment, if_neg (by omega), segmentOf]
  refine (h.radixRange hs hkey).bind ?_
  refine Returns.bind (upperBound_points key hsorted (by simp only; omega) (by simp only; omega)
    (Nat.min_le_left _ _)) ?_
  rw [returns_pure]
  split <;> split <;> omega

end Indexed

end RS
