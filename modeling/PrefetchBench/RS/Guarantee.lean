import PrefetchBench.RS.RadixTable

/-!
# What RadixSplineIndex::search promises

A lookup takes the spline points of two table entries, which need not be neighbours: when a prefix
has spline points of its own, they are skipped, and keys behind the second point are taken to be
at it.  So the window around a predicted position holds the key under a condition on the spline
and the prefixes only (`Fits`, `search_contains_iff`).

The code subtracts the key of the first point without comparing.  That key is at or below the
sought one unless the sought one is below all keys (`Built.left_le_iff`), and then the difference
wraps (`search_safe_iff`).
-/

namespace RS

open Prog

namespace RadixSplineIndex

/-! ## Predicted positions -/

section Predict

variable {p q : SplinePoint 64} {x : Key 64}

/-- The predicted position. -/
def position (p q : SplinePoint 64) (x : Key 64) : Nat :=
  if q.1 ≤ x then q.2 else ⌊chord p q x⌋.toNat

/-- Around a key, the line is between the positions of its ends. -/
theorem chord_between (hp : p.1 ≤ x) (hq : x < q.1) (hpq : p.2 ≤ q.2) :
    (p.2 : ℚ) ≤ chord p q x ∧ chord p q x ≤ q.2 := by
  have hrise : (0 : ℚ) ≤ (x : Nat) - (p.1 : Nat) := by
    rw [sub_nonneg]
    exact_mod_cast hp
  have hle : ((x : Nat) : ℚ) - (p.1 : Nat) ≤ (q.1 : Nat) - (p.1 : Nat) := by
    rw [sub_le_sub_iff_right]
    exact_mod_cast hq.le
  have hheight : (0 : ℚ) ≤ q.2 - p.2 := by
    rw [sub_nonneg]
    exact_mod_cast hpq
  have hpart : (((x : Nat) : ℚ) - (p.1 : Nat)) / ((q.1 : Nat) - (p.1 : Nat)) ≤ 1 :=
    div_le_one_of_le₀ hle (hrise.trans hle)
  rw [chord]
  constructor
  · have := mul_nonneg (div_nonneg hrise (hrise.trans hle)) hheight
    linarith only [this]
  · have := mul_le_of_le_one_left hheight hpart
    linarith only [this]

theorem position_le (hp : p.1 ≤ x) (hpq : p.2 ≤ q.2) : position p q x ≤ q.2 := by
  rw [position]
  split
  · exact Nat.le_refl _
  · rename_i hq
    have hfloor : ⌊chord p q x⌋ ≤ (q.2 : ℤ) := by
      have hle := Int.floor_mono (chord_between hp (not_le.mp hq) hpq).2
      rwa [Int.floor_natCast] at hle
    omega

theorem toSize_returns {d : ℚ} (h0 : 0 ≤ d) (hd : d < 2 ^ 64) : (toSize d).Returns ⌊d⌋.toNat := by
  have hfits : (decide (-1 < d) && decide (d < 2 ^ 64)) = true := by
    rw [Bool.and_eq_true, decide_eq_true_iff, decide_eq_true_iff]
    exact ⟨neg_one_lt_zero.trans_le h0, hd⟩
  exact returns_assert_bind.mpr ⟨hfits, returns_pure.mpr rfl⟩

/-- From a first point at or below the key, the prediction is defined. -/
theorem predict_returns (hp : p.1 ≤ x) (hpq : p.2 ≤ q.2) (hq : q.2 < 2 ^ 64) :
    (predict p q x).Returns (position p q x) := by
  rw [predict, position]
  split
  · exact returns_pure.mpr rfl
  · rename_i hx
    have hpx := hp.trans_lt (not_le.mp hx)
    obtain ⟨h1, h2⟩ := chord_between hp (not_le.mp hx) hpq
    have hline : (p.2 : ℚ) + ((q.2 - p.2 : Nat) : ℚ) / subToDouble q.1 p.1 * subToDouble x p.1 =
        chord p q x := by
      rw [chord, subToDouble_of_le hpx.le, subToDouble_of_le hp, Nat.cast_sub hpq,
        div_mul_eq_mul_div, div_mul_eq_mul_div, mul_comm]
    refine returns_assert_bind.mpr ⟨decide_eq_true hpx.ne', ?_⟩
    dsimp only
    rw [hline]
    have hfits : (q.2 : ℚ) < 2 ^ 64 := by exact_mod_cast hq
    exact toSize_returns ((Nat.cast_nonneg _).trans h1) (h2.trans_lt hfits)

end Predict

/-! ## The points around a key -/

section Around

variable {error radixBits : Nat} {keys : List (Key 64)} {s : RadixSplineIndex 64} {x : Key 64}

/-- The prefix of a key. -/
def prefixOf (radixBits : Nat) (x : Key 64) : Nat := (x : Nat) >>> (64 - radixBits)

/-- The points that `search` interpolates between. -/
structure Around (radixBits : Nat) (points : List (SplinePoint 64)) (x : Key 64)
    (p q : SplinePoint 64) : Prop where
  /-- The point of the prefix. -/
  left : points[entry radixBits points (prefixOf radixBits x)]? = some p
  /-- The point of the next prefix. -/
  right : points[entry radixBits points (prefixOf radixBits x + 1)]? = some q

theorem prefixOf_lt (hlt : radixBits < 64) (x : Key 64) : prefixOf radixBits x < 2 ^ radixBits := by
  rw [prefixOf, Nat.shiftRight_eq_div_pow, Nat.div_lt_iff_lt_mul (Nat.two_pow_pos _),
    ← Nat.pow_add, Nat.add_sub_cancel' hlt.le]
  exact x.isLt

/-- A lookup reads two spline points. -/
theorem Built.bracket (h : Built error radixBits keys s) (hbits : 1 ≤ radixBits)
    (hlt : radixBits < 64) (hkeys : keys ≠ []) (x : Key 64) :
    ∃ p q, Around radixBits s.splinePoints x p q ∧ (s.bracket x).Returns (p, q) := by
  have hpoints := h.selected.ne_nil hkeys
  have hbucket := prefixOf_lt hlt x
  obtain ⟨p, hp⟩ := KeyArray.exists_getElem? s.splinePoints
    (lastUpTo_lt hpoints (prefixOf radixBits x * 2 ^ (64 - radixBits)))
  obtain ⟨q, hq⟩ := KeyArray.exists_getElem? s.splinePoints
    (lastUpTo_lt hpoints ((prefixOf radixBits x + 1) * 2 ^ (64 - radixBits)))
  refine ⟨p, q, ⟨hp, hq⟩, ?_⟩
  have hshift : 64 - s.radixBits < max 32 64 := by
    rw [h.radixBits_eq]
    omega
  refine returns_assert_bind.mpr ⟨decide_eq_true hshift, ?_⟩
  rw [h.radixBits_eq]
  apply (returns_read.mpr (h.table _ hbucket.le)).bind
  apply (returns_read.mpr (h.table _ hbucket)).bind
  apply (returns_read.mpr hp).bind
  apply (returns_read.mpr hq).bind
  exact returns_pure.mpr rfl

theorem head_le (hkeys : keys ≠ []) (hsorted : keys.Pairwise (· ≤ ·)) {j : Nat} {x : Key 64}
    (hj : keys[j]? = some x) : keys.head hkeys ≤ x := by
  refine KeyArray.getElem?_mono hsorted (Nat.zero_le j) ?_ hj
  rw [← List.head?_eq_getElem?, List.head?_eq_some_head]

/-- Spline points are not below the first key. -/
theorem Selected.head_le {points : List (SplinePoint 64)} (h : Selected error keys points)
    (hkeys : keys ≠ []) (hsorted : keys.Pairwise (· ≤ ·)) {p : SplinePoint 64} (hp : p ∈ points) :
    keys.head hkeys ≤ p.1 := by
  exact RadixSplineIndex.head_le hkeys hsorted (h.onKeys p hp)

theorem Selected.front {points : List (SplinePoint 64)} (h : Selected error keys points)
    (hkeys : keys ≠ []) : points[0]? = some (keys.head hkeys, 0) := by
  rw [← List.head?_eq_getElem?, h.head, List.head?_eq_some_head hkeys]
  rfl

/-- The first point is at or below the key unless all keys are above it. -/
theorem Selected.left_le_iff {points : List (SplinePoint 64)} (h : Selected error keys points)
    (hkeys : keys ≠ []) (hsorted : keys.Pairwise (· ≤ ·)) {p q : SplinePoint 64}
    (ha : Around radixBits points x p q) : p.1 ≤ x ↔ keys.head hkeys ≤ x := by
  constructor
  · intro hle
    exact (h.head_le hkeys hsorted (List.mem_of_getElem? ha.left)).trans hle
  · intro hle
    have hleft := ha.left
    cases hentry : entry radixBits points (prefixOf radixBits x) with
    | zero =>
        rw [hentry, h.front hkeys] at hleft
        cases hleft
        exact hle
    | succ k =>
        rw [hentry] at hleft
        have hk : k < lastUpTo points (prefixOf radixBits x * 2 ^ (64 - radixBits)) := by
          rw [entry] at hentry
          rw [hentry]
          exact Nat.lt_succ_self k
        have hstart : prefixOf radixBits x * 2 ^ (64 - radixBits) ≤ x := by
          rw [prefixOf, Nat.shiftRight_eq_div_pow]
          exact Nat.div_mul_le_self _ _
        exact (le_of_le_lastUpTo hk hleft).trans hstart

/-- The positions of spline points go up. -/
theorem Selected.positions {points : List (SplinePoint 64)} (h : Selected error keys points) :
    points.Pairwise fun p q => p.2 < q.2 := by
  have hchain : (points.map Prod.snd).IsChain (· < ·) :=
    (List.isChain_map _).mpr (h.closed.imp fun p q hpq => hpq.1)
  exact List.pairwise_map.mp (List.isChain_iff_pairwise.mp hchain)

theorem Selected.right_le {points : List (SplinePoint 64)} (h : Selected error keys points)
    {p q : SplinePoint 64} (ha : Around radixBits points x p q) : p.2 ≤ q.2 := by
  have hle : entry radixBits points (prefixOf radixBits x) ≤
      entry radixBits points (prefixOf radixBits x + 1) := entry_mono (Nat.le_succ _)
  obtain ⟨h1, hp⟩ := List.getElem?_eq_some_iff.mp ha.left
  obtain ⟨h2, hq⟩ := List.getElem?_eq_some_iff.mp ha.right
  rcases Nat.lt_or_eq_of_le hle with hlt | heq
  · have hpos := List.pairwise_iff_getElem.mp h.positions _ _ h1 h2 hlt
    rw [hp, hq] at hpos
    exact hpos.le
  · have hleft := ha.left
    rw [heq, ha.right] at hleft
    cases hleft
    exact Nat.le_refl _

theorem Selected.position_lt {points : List (SplinePoint 64)} (h : Selected error keys points)
    {p : SplinePoint 64} (hp : p ∈ points) : p.2 < keys.length :=
  (List.getElem?_eq_some_iff.mp (h.onKeys p hp)).1

/-- The window around a position. -/
def windowAt (error n pos : Nat) : Window :=
  ⟨if error < pos then pos - error else 0, min ((pos + error + 1) % 2 ^ 64) n⟩

/-- A lookup for a key that is not below all keys. -/
theorem Built.search (h : Built error radixBits keys s) (hbits : 1 ≤ radixBits)
    (hlt : radixBits < 64) (hkeys : keys ≠ []) (hsorted : keys.Pairwise (· ≤ ·))
    (hlen : keys.length ≤ 2 ^ 64) (hx : keys.head hkeys ≤ x) :
    ∃ p q, Around radixBits s.splinePoints x p q ∧ (s.bracket x).Returns (p, q) ∧ p.1 ≤ x ∧
      (s.search x).Returns (windowAt error keys.length (position p q x)) := by
  obtain ⟨p, q, ha, hret⟩ := h.bracket hbits hlt hkeys x
  have hpx := (h.selected.left_le_iff hkeys hsorted ha).mpr hx
  have hq := (h.selected.position_lt (List.mem_of_getElem? ha.right)).trans_le hlen
  refine ⟨p, q, ha, hret, hpx, ?_⟩
  rw [RadixSplineIndex.search, h.keys_eq, if_neg hkeys, h.error_eq]
  apply hret.bind
  apply (predict_returns hpx (h.selected.right_le ha) hq).bind
  exact returns_pure.mpr rfl

end Around

/-! ## Safety -/

section Safety

variable {error radixBits : Nat} {keys : List (Key 64)} {vals : List Nat}

/-- A lookup is arithmetically safe: it reads inside the table and the spline, neither divides by
zero nor subtracts a larger key from a smaller one, and its window is one of the keys. -/
structure Safe (s : RadixSplineIndex 64) (x : Key 64) : Prop where
  /-- The reads, and the operands of the interpolation. -/
  operands : ∃ p q, (s.bracket x).Returns (p, q) ∧ (x < q.1 → q.1 ≠ p.1 ∧ p.1 ≤ x)
  /-- The window. -/
  window : (s.search x).Ensures fun b => b.lo ≤ b.hi ∧ b.hi ≤ s.keys.length

theorem windowAt_ordered {n pos : Nat} (herror : error < 2 ^ 64) (hn : n < 2 ^ 63)
    (hpos : pos < n) :
    (windowAt error n pos).lo ≤ (windowAt error n pos).hi ∧ (windowAt error n pos).hi ≤ n := by
  simp only [windowAt]
  split_ifs <;> omega

theorem Built.safe_iff {s : RadixSplineIndex 64} (h : Built error radixBits keys s)
    (herror : error < 2 ^ 64) (hbits : 1 ≤ radixBits) (hlt : radixBits < 64) (hkeys : keys ≠ [])
    (hsorted : keys.Pairwise (· ≤ ·)) (hlen : keys.length < 2 ^ 63) (x : Key 64) :
    s.Safe x ↔ keys.head hkeys ≤ x := by
  constructor
  · intro hsafe
    obtain ⟨p, q, hret, hoperands⟩ := hsafe.operands
    obtain ⟨p', q', ha, hret'⟩ := h.bracket hbits hlt hkeys x
    cases hret.det hret'
    by_contra hbelow
    have hright := (not_le.mp hbelow).trans_le
      (h.selected.head_le hkeys hsorted (List.mem_of_getElem? ha.right))
    exact hbelow ((h.selected.left_le_iff hkeys hsorted ha).mp (hoperands hright).2)
  · intro hx
    obtain ⟨p, q, ha, hret, hpx, hsearch⟩ :=
      h.search hbits hlt hkeys hsorted (hlen.le.trans (by decide)) hx
    refine ⟨⟨p, q, hret, ?_⟩, hsearch.ensures ?_⟩
    · intro hq
      exact ⟨(hpx.trans_lt hq).ne', hpx⟩
    · rw [h.keys_eq]
      exact windowAt_ordered herror hlen ((position_le hpx (h.selected.right_le ha)).trans_lt
        (h.selected.position_lt (List.mem_of_getElem? ha.right)))

/-- A lookup is safe if and only if its key is not below the smallest one.  A `std::vector` has
less than `2 ^ 63` elements. -/
theorem search_safe_iff (herror : error < 2 ^ 64) (hbits : 1 ≤ radixBits) (hlt : radixBits < 64)
    (hvals : vals = [] ∨ vals.length = keys.length) (hkeys : keys ≠ [])
    (hsorted : keys.Pairwise (· ≤ ·)) (hlen : keys.length < 2 ^ 63) :
    (new error radixBits keys vals).Ensures fun s => ∀ x, s.Safe x ↔ keys.head hkeys ≤ x :=
  (new_ensures hbits hlt hvals hkeys hsorted).mono
    fun _ h => h.safe_iff herror hbits hlt hkeys hsorted hlen

theorem search_safe_iff_copies :
    (new 64 16 ([10, 20, 20] : List (Key 64)) []).Ensures fun s => ∀ x, s.Safe x ↔
      ([10, 20, 20] : List (Key 64)).head (by decide) ≤ x :=
  search_safe_iff (by decide) (by decide) (by decide) (Or.inl rfl) (by decide)
    (by decide +kernel) (by decide)

/-- For a key below all keys the difference wraps. -/
theorem search_unsafe :
    ∃ s, (new 64 16 ([10, 20, 20] : List (Key 64)) []).Returns s ∧ ¬ s.Safe 3 := by
  obtain ⟨s, hs, h⟩ := @new_ensures 16 64 [10, 20, 20] [] (by decide) (by decide) (Or.inl rfl)
    (by decide) (by decide +kernel)
  refine ⟨s, hs, ?_⟩
  rw [h.safe_iff (by decide) (by decide) (by decide) (by decide) (by decide +kernel) (by decide)]
  decide +kernel

end Safety

/-! ## The guarantee -/

/-- The spline points around each key predict its position well enough.  Nothing is asked of
points that are neighbours, between which the spline is near. -/
structure Fits (error radixBits : Nat) (keys : List (Key 64)) (points : List (SplinePoint 64)) :
    Prop where
  /-- The ends of windows are representable. -/
  size : keys.length + error < 2 ^ 64
  /-- A key at or behind the second point is near it. -/
  behind : ∀ (j : Nat) x p q, keys[j]? = some x → Around radixBits points x p q → q.1 ≤ x →
    j ≤ q.2 + error
  /-- The line over skipped spline points is near. -/
  across : ∀ (j : Nat) x p q, keys[j]? = some x → Around radixBits points x p q → x < q.1 →
    entry radixBits points (prefixOf radixBits x + 1) ≠
      entry radixBits points (prefixOf radixBits x) + 1 →
    (j : ℚ) - error ≤ chord p q x ∧ chord p q x < j + error + 1

section Guarantee

variable {error radixBits n pos j : Nat} {keys : List (Key 64)} {vals : List Nat} {x : Key 64}
  {p q : SplinePoint 64} {points : List (SplinePoint 64)}

theorem windowAt_contains (hpos : pos + error + 1 < 2 ^ 64) (hj : j < n) :
    (windowAt error n pos).lo ≤ j ∧ j < (windowAt error n pos).hi ↔
      pos ≤ j + error ∧ j ≤ pos + error := by
  simp only [windowAt, Nat.mod_eq_of_lt hpos, Nat.lt_min]
  split_ifs <;> omega

/-- A rounded position is near when the exact one is. -/
theorem floor_near {c : ℚ} (h0 : 0 ≤ c) :
    ⌊c⌋.toNat ≤ j + error ∧ j ≤ ⌊c⌋.toNat + error ↔
      (j : ℚ) - error ≤ c ∧ c < j + error + 1 := by
  have hfloor : 0 ≤ ⌊c⌋ := Int.floor_nonneg.mpr h0
  have hbelow : (j : ℚ) - error ≤ c ↔ (j : ℤ) - error ≤ ⌊c⌋ := by
    rw [Int.le_floor]
    push_cast
    exact Iff.rfl
  have habove : c < (j : ℚ) + error + 1 ↔ ⌊c⌋ < (j : ℤ) + error + 1 := by
    rw [Int.floor_lt]
    push_cast
    exact Iff.rfl
  rw [hbelow, habove]
  omega

theorem length_le_of_increasing (hinc : keys.Pairwise (· < ·)) : keys.length ≤ 2 ^ 64 := by
  have hnodup : keys.Nodup := hinc.imp fun hab => hab.ne
  have hcard := hnodup.length_le_card
  rwa [Fintype.card_fin] at hcard

/-- Increasing keys are in the order of their positions. -/
theorem increasing_iff (hinc : keys.Pairwise (· < ·)) {i : Nat} {y : Key 64}
    (hi : keys[i]? = some y) (hj : keys[j]? = some x) : y < x ↔ i < j := by
  obtain ⟨hilt, rfl⟩ := List.getElem?_eq_some_iff.mp hi
  obtain ⟨hjlt, rfl⟩ := List.getElem?_eq_some_iff.mp hj
  have hpairs := List.pairwise_iff_getElem.mp hinc
  constructor
  · intro hlt
    by_contra hge
    rcases Nat.lt_or_eq_of_le (not_lt.mp hge) with hji | rfl
    · exact lt_asymm hlt (hpairs j i hjlt hilt hji)
    · exact lt_irrefl _ hlt
  · exact hpairs i j hilt hjlt

/-- Between neighbours the spline is near. -/
theorem Selected.near (h : Selected error keys points) (hinc : keys.Pairwise (· < ·))
    (hj : keys[j]? = some x) (ha : Around radixBits points x p q) (hp : p.1 ≤ x) (hq : x < q.1)
    (hnext : entry radixBits points (prefixOf radixBits x + 1) =
      entry radixBits points (prefixOf radixBits x) + 1) :
    (j : ℚ) - error ≤ chord p q x ∧ chord p q x < j + error + 1 := by
  have hsorted : keys.Pairwise (· ≤ ·) := hinc.imp fun hab => hab.le
  have hpkey := h.onKeys p (List.mem_of_getElem? ha.left)
  have hqkey := h.onKeys q (List.mem_of_getElem? ha.right)
  have hclosed : Closed error keys p q := by
    have hright := ha.right
    rw [hnext] at hright
    obtain ⟨h1, hp'⟩ := List.getElem?_eq_some_iff.mp ha.left
    obtain ⟨h2, hq'⟩ := List.getElem?_eq_some_iff.mp hright
    have hchain := List.isChain_iff_getElem.mp h.closed _ h2
    rwa [hp', hq'] at hchain
  have hjq := (increasing_iff hinc hj hqkey).mp hq
  have hpj : p.2 ≤ j := not_lt.mp fun hlt =>
    absurd ((increasing_iff hinc hj hpkey).mpr hlt) (not_lt.mpr hp)
  rcases Nat.lt_or_eq_of_le hpj with hlt | rfl
  · have hnear := abs_le.mp
      (hclosed.near hsorted hpkey (hp.trans_lt hq) hlt hjq.le hj)
    constructor
    · linarith only [hnear.1]
    · linarith only [hnear.2]
  · cases hpkey.symm.trans hj
    have hexact : chord p q p.1 = p.2 := by
      rw [chord, sub_self, zero_div, zero_mul, add_zero]
    have herror : (0 : ℚ) ≤ error := Nat.cast_nonneg error
    rw [hexact]
    constructor
    · linarith only [herror]
    · linarith only [herror]

/-- The prediction for a stored key is within the error if and only if the two points fit. -/
theorem Selected.position_near (h : Selected error keys points) (hinc : keys.Pairwise (· < ·))
    (hj : keys[j]? = some x) (ha : Around radixBits points x p q) (hp : p.1 ≤ x) :
    position p q x ≤ j + error ∧ j ≤ position p q x + error ↔
      (q.1 ≤ x → j ≤ q.2 + error) ∧
        (x < q.1 → entry radixBits points (prefixOf radixBits x + 1) ≠
          entry radixBits points (prefixOf radixBits x) + 1 →
          (j : ℚ) - error ≤ chord p q x ∧ chord p q x < j + error + 1) := by
  rcases le_or_gt q.1 x with hq | hq
  · have hqj : q.2 ≤ j := not_lt.mp fun hlt => absurd ((increasing_iff hinc hj
      (h.onKeys q (List.mem_of_getElem? ha.right))).mpr hlt) (not_lt.mpr hq)
    rw [position, if_pos hq]
    constructor
    · intro hnear
      exact ⟨fun _ => hnear.2, fun hlt => absurd hlt (not_lt.mpr hq)⟩
    · intro hfits
      exact ⟨hqj.trans (Nat.le_add_right j error), hfits.1 hq⟩
  · have hpos := (Nat.cast_nonneg p.2).trans (chord_between hp hq (h.right_le ha)).1
    rw [position, if_neg (not_le.mpr hq), floor_near hpos]
    constructor
    · intro hnear
      exact ⟨fun hle => absurd hq (not_lt.mpr hle), fun _ _ => hnear⟩
    · intro hfits
      by_cases hnext : entry radixBits points (prefixOf radixBits x + 1) =
          entry radixBits points (prefixOf radixBits x) + 1
      · exact h.near hinc hj ha hp hq hnext
      · exact hfits.2 hq hnext

theorem Around.det {p' q' : SplinePoint 64} (h : Around radixBits points x p q)
    (h' : Around radixBits points x p' q') : p = p' ∧ q = q' :=
  ⟨Option.some.inj (h.left.symm.trans h'.left), Option.some.inj (h.right.symm.trans h'.right)⟩

/-- The second point for the largest key is the last one. -/
theorem Selected.right_of_last (h : Selected error keys points)
    (hsorted : keys.Pairwise (· ≤ ·)) (hx : keys[keys.length - 1]? = some x)
    (ha : Around radixBits points x p q) : q = (x, keys.length - 1) := by
  have hend : (x : Nat) < (prefixOf radixBits x + 1) * 2 ^ (64 - radixBits) := by
    rw [prefixOf, Nat.shiftRight_eq_div_pow]
    exact Nat.lt_mul_of_div_lt (Nat.lt_succ_self _) (Nat.two_pow_pos _)
  have hentry : entry radixBits points (prefixOf radixBits x + 1) = points.tail.length := by
    apply List.findIdx_eq_length_of_false
    intro c hc
    have hkey := h.onKeys c (List.mem_of_mem_tail hc)
    have hcx : c.1 ≤ x := KeyArray.getElem?_mono hsorted
      (Nat.le_sub_one_of_lt (List.getElem?_eq_some_iff.mp hkey).1) hkey hx
    have hcx' : (c.1 : Nat) ≤ x := hcx
    exact decide_eq_false (by omega)
  have hright := ha.right
  rw [hentry, List.length_tail, ← List.getLast?_eq_getElem?, h.last, List.getLast?_eq_getElem?,
    hx] at hright
  exact (Option.some.inj hright).symm

/-- The window for every stored key holds it if and only if the spline fits. -/
theorem Built.contains_iff {s : RadixSplineIndex 64} (h : Built error radixBits keys s)
    (herror : error < 2 ^ 64) (hbits : 1 ≤ radixBits) (hlt : radixBits < 64) (hkeys : keys ≠ [])
    (hinc : keys.Pairwise (· < ·)) :
    (∀ (j : Nat) x, keys[j]? = some x → (s.search x).Ensures fun b => b.lo ≤ j ∧ j < b.hi) ↔
      Fits error radixBits keys s.splinePoints := by
  have hsorted : keys.Pairwise (· ≤ ·) := hinc.imp fun hab => hab.le
  have hlen := length_le_of_increasing hinc
  have hn := List.length_pos_iff.mpr hkeys
  have hnear : keys.length + error < 2 ^ 64 → ∀ (j : Nat) x p q, keys[j]? = some x →
      Around radixBits s.splinePoints x p q →
      ((s.search x).Ensures (fun b => b.lo ≤ j ∧ j < b.hi) ↔
        position p q x ≤ j + error ∧ j ≤ position p q x + error) := by
    intro hsize j x p q hj ha
    obtain ⟨p', q', ha', -, hpx, hsearch⟩ :=
      h.search hbits hlt hkeys hsorted hlen (head_le hkeys hsorted hj)
    obtain ⟨rfl, rfl⟩ := ha.det ha'
    have hpos := (position_le hpx (h.selected.right_le ha)).trans_lt
      (h.selected.position_lt (List.mem_of_getElem? ha.right))
    rw [← windowAt_contains (n := keys.length) (by omega) (List.getElem?_eq_some_iff.mp hj).1]
    constructor
    · intro hens
      exact hens.of_returns hsearch
    · intro hin
      exact hsearch.ensures hin
  have hfits := fun (j : Nat) x p q (hj : keys[j]? = some x)
      (ha : Around radixBits s.splinePoints x p q) => h.selected.position_near hinc hj ha
    ((h.selected.left_le_iff hkeys hsorted ha).mpr (head_le hkeys hsorted hj))
  constructor
  · intro hall
    have hsize : keys.length + error < 2 ^ 64 := by
      obtain ⟨x, hx⟩ := KeyArray.exists_getElem? keys (Nat.sub_lt hn Nat.zero_lt_one)
      obtain ⟨p, q, ha, -, -, hsearch⟩ :=
        h.search hbits hlt hkeys hsorted hlen (head_le hkeys hsorted hx)
      cases h.selected.right_of_last hsorted hx ha
      have hwindow := (hall _ x hx).of_returns hsearch
      rw [position, if_pos (le_refl x)] at hwindow
      simp only [windowAt, Nat.lt_min] at hwindow
      omega
    refine ⟨hsize, ?_, ?_⟩
    · intro j x p q hj ha
      exact ((hfits j x p q hj ha).mp ((hnear hsize j x p q hj ha).mp (hall j x hj))).1
    · intro j x p q hj ha
      exact ((hfits j x p q hj ha).mp ((hnear hsize j x p q hj ha).mp (hall j x hj))).2
  · intro hall j x hj
    obtain ⟨p, q, ha, -⟩ := h.bracket hbits hlt hkeys x
    rw [hnear hall.size j x p q hj ha, hfits j x p q hj ha]
    exact ⟨hall.behind j x p q hj ha, hall.across j x p q hj ha⟩

/-- The windows of all stored keys hold them if and only if the spline points that the table has
for each of them fit. -/
theorem search_contains_iff (herror : error < 2 ^ 64) (hbits : 1 ≤ radixBits)
    (hlt : radixBits < 64) (hvals : vals = [] ∨ vals.length = keys.length) (hkeys : keys ≠ [])
    (hinc : keys.Pairwise (· < ·)) :
    (new error radixBits keys vals).Ensures fun s =>
      (∀ (j : Nat) x, keys[j]? = some x →
        (s.search x).Ensures fun b => b.lo ≤ j ∧ j < b.hi) ↔
        Fits error radixBits keys s.splinePoints :=
  (new_ensures hbits hlt hvals hkeys (hinc.imp fun hab => hab.le)).mono
    fun _ h => h.contains_iff herror hbits hlt hkeys hinc

theorem search_contains_iff_five :
    (new 1 1 ([0, 1, 2, 3, 100] : List (Key 64)) []).Ensures fun s =>
      (∀ (j : Nat) x, ([0, 1, 2, 3, 100] : List (Key 64))[j]? = some x →
        (s.search x).Ensures fun b => b.lo ≤ j ∧ j < b.hi) ↔
        Fits 1 1 [0, 1, 2, 3, 100] s.splinePoints :=
  search_contains_iff (by decide) (by decide) (by decide) (Or.inl rfl) (by decide)
    (by decide +kernel)

/-- All five keys have the prefix 0, and the spline point at 3 is skipped. -/
theorem search_misses :
    ∃ s, (new 1 1 ([0, 1, 2, 3, 100] : List (Key 64)) []).Returns s ∧
      ¬ ∀ (j : Nat) x, ([0, 1, 2, 3, 100] : List (Key 64))[j]? = some x →
        (s.search x).Ensures fun b => b.lo ≤ j ∧ j < b.hi := by
  refine ⟨⟨1, 1, [0, 1, 2, 3, 100], [0, 1, 2, 3, 4], [(0, 0), (3, 3), (100, 4)], [0, 2, 2]⟩,
    ⟨10, by decide +kernel⟩, ?_⟩
  intro hall
  have hwindow := (hall 3 3 rfl).of_returns (a := ⟨0, 2⟩) ⟨0, by decide +kernel⟩
  exact absurd hwindow.2 (by decide)

end Guarantee

end RadixSplineIndex

end RS
