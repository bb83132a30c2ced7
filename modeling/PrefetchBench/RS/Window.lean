import PrefetchBench.RS.Built

/-!
# Search windows

`GetSearchBound` on an index fitted to its keys.  It never reads outside the spline or the table
and returns a window of the keys that is at most `2 * max_error + 2` wide, for every key
(`Fitted.getSearchBound`).  For a key that is stored the window has an occurrence of it
(`Fitted.getSearchBound_hits`): the segment of the key starts at or below its last occurrence and
ends above it, the two ends are at most `max_error` positions apart (or are neighbours when
`max_error` is zero), and both the estimate and that occurrence are in between.
-/

namespace RS

open Prog KeyArray Windowed

variable {w : Nat}

/-! ## Positions -/

section Position

variable {s : RadixSpline w} {pos : ℚ}

theorem clampPosition_le (s : RadixSpline w) (pos : ℚ) : s.clampPosition pos ≤ s.numKeys := by
  rw [RadixSpline.clampPosition]
  split
  · exact Nat.zero_le _
  · split
    · exact Nat.le_refl _
    · rename_i hlt
      have hfloor : ⌊pos⌋ < (s.numKeys : ℤ) := by
        rw [Int.floor_lt]
        exact_mod_cast not_le.mp hlt
      omega

/-- A position between two positions stays there. -/
theorem clampPosition_between {a b : Nat} (ha : (a : ℚ) ≤ pos) (hb : pos < b)
    (hn : b ≤ s.numKeys) : a ≤ s.clampPosition pos ∧ s.clampPosition pos < b := by
  have hbn : (b : ℚ) ≤ s.numKeys := by exact_mod_cast hn
  have hab : (a : ℚ) < b := ha.trans_lt hb
  have hab' : a < b := by exact_mod_cast hab
  rw [RadixSpline.clampPosition]
  split
  · rename_i h0
    have h0' : (a : ℚ) ≤ (0 : Nat) := by exact_mod_cast ha.trans h0
    have : a ≤ 0 := by exact_mod_cast h0'
    omega
  · rw [if_neg (not_le.mpr (hb.trans_le hbn))]
    have h1 : (a : ℤ) ≤ ⌊pos⌋ := Int.le_floor.mpr (by exact_mod_cast ha)
    have h2 : ⌊pos⌋ < (b : ℤ) := Int.floor_lt.mpr (by exact_mod_cast hb)
    omega

theorem clampPosition_natCast {p : Nat} (h : p < s.numKeys) :
    s.clampPosition (p : ℚ) = p := by
  have hb := clampPosition_between (s := s) (a := p) (b := p + 1) (le_refl (p : ℚ))
    (by exact_mod_cast Nat.lt_succ_self p) h
  omega

theorem subToDouble_of_le {a b : Key w} (h : b ≤ a) :
    subToDouble a b = (a : Nat) - (b : Nat) := by
  rw [subToDouble]
  split
  · rw [Fin.sub_val_of_le h, Nat.cast_sub h]
  · rfl

/-- Different keys have a difference, also where it is taken modulo the width of the word. -/
theorem subToDouble_ne_zero {a b : Key w} (h : a ≠ b) : subToDouble a b ≠ 0 := by
  rw [subToDouble]
  split
  · intro hc
    have hzero : a - b = 0 := by exact_mod_cast hc
    exact h (sub_eq_zero.mp hzero)
  · intro hc
    have hval : (a : Nat) = (b : Nat) := by exact_mod_cast sub_eq_zero.mp hc
    exact h (Fin.ext hval)

/-- The interpolation does not divide by zero, between whatever points. -/
theorem interpolate_ensures (s : RadixSpline w) (left right : Coord w) (key : Key w) :
    (s.interpolate left right key).Ensures (· ≤ s.numKeys) := by
  rw [RadixSpline.interpolate]
  split
  · exact Ensures.pure (clampPosition_le s _)
  · rename_i hne
    apply Ensures.assert_bind (decide_eq_true (subToDouble_ne_zero hne))
    exact Ensures.pure (clampPosition_le s _)

/-- On a segment around the key the estimate is between the ends. -/
theorem interpolate_between {x y key : Key w} {a b : Nat} (hx : x ≤ key) (hy : key < y)
    (hab : a < b) (hn : b ≤ s.numKeys) :
    (s.interpolate ⟨x, a⟩ ⟨y, b⟩ key).Ensures fun pos => a ≤ pos ∧ pos < b := by
  have hxy := hx.trans_lt hy
  rw [RadixSpline.interpolate, if_neg hxy.ne']
  apply Ensures.assert_bind (decide_eq_true (subToDouble_ne_zero hxy.ne'))
  simp only [subToDouble_of_le hxy.le, subToDouble_of_le hx]
  have hkey : (0 : ℚ) ≤ (key : Nat) - (x : Nat) := by
    rw [sub_nonneg]
    exact_mod_cast hx
  have hlt : ((key : Nat) : ℚ) - (x : Nat) < (y : Nat) - (x : Nat) := by
    rw [sub_lt_sub_iff_right]
    exact_mod_cast hy
  have hwidth := hkey.trans_lt hlt
  have hheight : (0 : ℚ) < b - a := by
    rw [sub_pos]
    exact_mod_cast hab
  have hrise : ((b : ℚ) - a) / ((y : Nat) - (x : Nat)) * ((key : Nat) - (x : Nat)) < b - a := by
    rw [div_mul_eq_mul_div, div_lt_iff₀ hwidth]
    exact mul_lt_mul_of_pos_left hlt hheight
  refine Ensures.pure (clampPosition_between ?_ ?_ hn)
  · have := mul_nonneg (div_nonneg hheight.le hwidth.le) hkey
    linarith only [this]
  · linarith only [hrise]

end Position

/-- The default index has an empty window for every key. -/
theorem getSearchBound_empty (key : Key w) :
    ((RadixSpline.empty : RadixSpline w).getSearchBound key).Returns ⟨0, 0⟩ := by
  rw [RadixSpline.getSearchBound]
  exact (if_pos (Or.inl rfl)) ▸ returns_pure.mpr rfl

/-! ## Knots -/

section Knots

variable {n gap : Nat} {ps : List Nat}

theorem Knots.pairwise (h : Knots n gap ps) : ps.Pairwise (· < ·) :=
  List.isChain_iff_pairwise.mp (h.chain.imp fun _ _ hab => hab.1)

/-- The neighbour of a knot. -/
theorem Knots.next (h : Knots n gap ps) {i a b : Nat} (ha : ps[i]? = some a)
    (hb : ps[i + 1]? = some b) : a < b ∧ b ≤ a + gap := by
  obtain ⟨_, rfl⟩ := List.getElem?_eq_some_iff.mp ha
  obtain ⟨hlt, rfl⟩ := List.getElem?_eq_some_iff.mp hb
  exact List.isChain_iff_getElem.mp h.chain i hlt

/-- No knot is after the last key. -/
theorem Knots.le_last (h : Knots n gap ps) {p : Nat} (hp : p ∈ ps) : p ≤ n - 1 := by
  obtain ⟨i, hi, rfl⟩ := List.getElem_of_mem hp
  have hlast := h.last
  rw [List.getLast?_eq_getElem?] at hlast
  obtain ⟨hlt, hget⟩ := List.getElem?_eq_some_iff.mp hlast
  rw [← hget]
  rcases Nat.eq_or_lt_of_le (Nat.le_sub_one_of_lt hi) with heq | hlt'
  · simp only [heq, le_refl]
  · exact (List.pairwise_iff_getElem.mp h.pairwise i _ hi hlt hlt').le

end Knots

/-! ## The estimate -/

section Estimate

variable {s : RadixSpline w} {keys : List (Key w)} {maxError : Nat} {bucket : Key w → Nat}

theorem Fitted.splinePoints_ne_nil (h : Fitted keys maxError bucket s) : s.splinePoints ≠ [] := by
  obtain ⟨ps, hps, hpoints⟩ := h.spline
  rw [hpoints]
  exact fun hc => hps.ne_nil (List.map_eq_nil_iff.mp hc)

/-- Every key has an estimate, within the keys. -/
theorem Fitted.getEstimatedPosition (h : Fitted keys maxError bucket s) (key : Key w) :
    (s.getEstimatedPosition key).Ensures (· ≤ s.numKeys) := by
  have hpos : 0 < s.splinePoints.length := List.length_pos_iff.mpr h.splinePoints_ne_nil
  obtain ⟨front, hfront⟩ := KeyArray.exists_getElem? s.splinePoints hpos
  obtain ⟨back, hback⟩ := KeyArray.exists_getElem? s.splinePoints
    (i := s.splinePoints.length - 1) (by omega)
  rw [RadixSpline.getEstimatedPosition, if_neg hpos.ne']
  refine (returns_read.mpr hfront).seq ?_
  split
  · exact Ensures.pure (clampPosition_le s _)
  · rename_i h1
    split
    · exact Ensures.pure (clampPosition_le s _)
    · refine (returns_read.mpr hback).seq ?_
      split
      · exact Ensures.pure (clampPosition_le s _)
      · rename_i hback'
        refine Ensures.bind (h.indexed.getSplineSegment (by omega) (h.indexed.getPrefix key
          ⟨back, List.mem_of_getElem? hback, (not_le.mp hback').le⟩)) fun i hi => ?_
        obtain ⟨left, hleft⟩ := KeyArray.exists_getElem? s.splinePoints (i := i) (by omega)
        obtain ⟨right, hright⟩ := KeyArray.exists_getElem? s.splinePoints hi
        apply (returns_read.mpr hleft).seq
        apply (returns_read.mpr hright).seq
        exact interpolate_ensures s left right key

/-- Every key has a window, within the keys, of bounded width. -/
theorem Fitted.getSearchBound (h : Fitted keys maxError bucket s) (key : Key w) :
    (s.getSearchBound key).Ensures fun b =>
      b.lo ≤ b.hi ∧ b.hi ≤ keys.length ∧ b.width ≤ 2 * maxError + 2 := by
  rw [← h.numKeys_eq, ← h.maxError_eq, RadixSpline.getSearchBound]
  split
  · exact Ensures.pure ⟨Nat.le_refl _, Nat.zero_le _, Nat.zero_le _⟩
  · refine Ensures.bind (h.getEstimatedPosition key) fun pos _ => Ensures.pure ?_
    simp only [Window.width]
    have hmod := Nat.mod_le (pos + s.maxError + 2) (2 ^ 64)
    generalize (pos + s.maxError + 2) % 2 ^ 64 = hi at *
    refine ⟨?_, ?_, ?_⟩ <;> split_ifs <;> omega

/-! ## Stored keys -/

theorem knot_le (hsorted : keys.Pairwise (· ≤ ·)) {p q : Nat} (hpq : p ≤ q)
    (hq : q < keys.length) : (knot keys p).x ≤ (knot keys q).x := by
  rw [knot_eq (List.getElem?_eq_getElem (hpq.trans_lt hq)), knot_eq (List.getElem?_eq_getElem hq)]
  rcases Nat.eq_or_lt_of_le hpq with rfl | hlt
  · exact le_refl _
  · exact List.pairwise_iff_getElem.mp hsorted p q _ hq hlt

theorem Knots.lt_length {n gap : Nat} {ps : List Nat} (h : Knots n gap ps) (hn : 0 < n) {p : Nat}
    (hp : p ∈ ps) : p < n := by
  have := h.le_last hp
  omega

/-- The spline does not go back. -/
theorem Fitted.sorted (h : Fitted keys maxError bucket s) (hkeys : keys ≠ [])
    (hsorted : keys.Pairwise (· ≤ ·)) :
    s.splinePoints.Pairwise fun c d => c.x ≤ d.x := by
  obtain ⟨ps, hps, hpoints⟩ := h.spline
  rw [hpoints, List.pairwise_map]
  refine hps.pairwise.imp_of_mem fun {p q} _ hq hpq => ?_
  exact knot_le hsorted hpq.le (hps.lt_length (List.length_pos_iff.mpr hkeys) hq)

/-- A segment around a key, between two neighbouring knots. -/
structure Brackets (keys : List (Key w)) (maxError : Nat) (key : Key w) (a b : Nat) : Prop where
  /-- The lower knot is not above the key. -/
  left : (knot keys a).x ≤ key
  /-- The upper knot is above it. -/
  right : key < (knot keys b).x
  /-- The knots are in order. -/
  lt : a < b
  /-- They are not further apart than the stride. -/
  near : b ≤ a + max 1 maxError
  /-- They are positions of keys. -/
  bound : b < keys.length
  /-- The lower knot is sampled. -/
  sampled : max 1 maxError ∣ a

/-- A key between the first and the last spline point is in the segment that the index finds. -/
theorem Fitted.brackets (h : Fitted keys maxError bucket s) (hmono : Monotone bucket)
    (hkeys : keys ≠ []) (hsorted : keys.Pairwise (· ≤ ·)) {key : Key w} {front back : Coord w}
    (hfront : s.splinePoints[0]? = some front) (hlt : front.x < key)
    (hback : s.splinePoints[s.splinePoints.length - 1]? = some back) (hgt : key < back.x) :
    ∃ i a b, (s.getSplineSegment key).Returns i ∧ s.splinePoints[i]? = some (knot keys a) ∧
      s.splinePoints[i + 1]? = some (knot keys b) ∧ Brackets keys maxError key a b := by
  obtain ⟨ps, hps, hpoints⟩ := h.spline
  have hpoint : ∀ i, s.splinePoints[i]? = (ps[i]?).map (knot keys) := fun i => by
    rw [hpoints, List.getElem?_map]
  have hlen : ps.length = s.splinePoints.length := by rw [hpoints, List.length_map]
  -- the first spline point above the key is neither the first one nor behind the last one
  have hub : s.splinePoints.findIdx (fun c => decide (key < c.x)) < s.splinePoints.length :=
    List.findIdx_lt_length.mpr ⟨back, List.mem_of_getElem? hback, decide_eq_true hgt⟩
  have habove := List.findIdx_getElem (p := fun c : Coord w => decide (key < c.x)) (w := hub)
  have hbelow : ∀ j, j < s.splinePoints.findIdx (fun c => decide (key < c.x)) →
      ∀ c, s.splinePoints[j]? = some c → ¬ key < c.x := by
    intro j hj c hc
    obtain ⟨_, rfl⟩ := List.getElem?_eq_some_iff.mp hc
    exact of_decide_eq_false (List.not_of_lt_findIdx hj)
  have hub0 : s.splinePoints.findIdx (fun c => decide (key < c.x)) ≠ 0 := by
    intro h0
    simp only [h0] at habove
    obtain ⟨_, hget⟩ := List.getElem?_eq_some_iff.mp hfront
    rw [hget, decide_eq_true_iff] at habove
    exact absurd hlt (not_lt.mpr habove.le)
  have hseg : (s.getSplineSegment key).Returns (segmentOf s.splinePoints key) :=
    h.indexed.segment hmono (h.sorted hkeys hsorted) (by omega) (h.indexed.getPrefix key
      ⟨back, List.mem_of_getElem? hback, hgt.le⟩)
  have hsegment : segmentOf s.splinePoints key =
      s.splinePoints.findIdx (fun c => decide (key < c.x)) - 1 := by
    rw [segmentOf]
    omega
  rw [hsegment] at hseg
  generalize s.splinePoints.findIdx (fun c => decide (key < c.x)) = ub at *
  obtain ⟨i, rfl⟩ : ∃ i, ub = i + 1 := Nat.exists_eq_succ_of_ne_zero hub0
  rw [Nat.add_sub_cancel] at hseg
  have ha : ps[i]? = some ps[i] := List.getElem?_eq_getElem (by omega)
  have hb : ps[i + 1]? = some ps[i + 1] := List.getElem?_eq_getElem (by omega)
  have hleft : s.splinePoints[i]? = some (knot keys ps[i]) := by rw [hpoint, ha, Option.map_some]
  have hright : s.splinePoints[i + 1]? = some (knot keys ps[i + 1]) := by
    rw [hpoint, hb, Option.map_some]
  obtain ⟨hab, hgap⟩ := hps.next ha hb
  have hbound := hps.lt_length (List.length_pos_iff.mpr hkeys) (List.mem_of_getElem? hb)
  refine ⟨i, ps[i], ps[i + 1], hseg, hleft, hright, not_lt.mp ?_, ?_, hab, hgap, hbound, ?_⟩
  · exact hbelow i (Nat.lt_succ_self i) _ hleft
  · rw [(List.getElem?_eq_some_iff.mp hright).2, decide_eq_true_iff] at habove
    exact habove
  · exact (hps.sampled _ (List.mem_of_getElem? ha)).resolve_left (by omega)

/-- The copies of a key are those from position `f` to position `l`. -/
structure Run (keys : List (Key w)) (key : Key w) (f l : Nat) : Prop where
  /-- The first copy. -/
  first : keys[f]? = some key
  /-- The last copy. -/
  last : keys[l]? = some key
  /-- The keys in front of them. -/
  before : ∀ (i : Nat) x, i < f → keys[i]? = some x → x < key
  /-- The keys behind them. -/
  after : ∀ (i : Nat) x, l < i → keys[i]? = some x → key < x

theorem Run.le {key : Key w} {f l : Nat} (h : Run keys key f l) : f ≤ l := by
  by_contra hc
  exact lt_irrefl _ (h.after f key (not_le.mp hc) h.first)

/-- A stored key has copies, after the keys below it. -/
theorem run_of_mem (hsorted : keys.Pairwise (· ≤ ·)) {key : Key w} (hmem : key ∈ keys) :
    Run keys key (keys.countP fun x => decide (x < key))
      (keys.countP (fun x => decide (x ≤ key)) - 1) := by
  have hbelow : keys.countP (fun x => decide (x < key)) =
      keys.findIdx fun x => decide (key ≤ x) := by
    rw [Ranges.countP_eq_findIdx (hsorted.imp fun hab hb =>
      decide_eq_true (hab.trans_lt (of_decide_eq_true hb)))]
    simp only [← decide_not, not_lt]
  have hupto : keys.countP (fun x => decide (x ≤ key)) =
      keys.findIdx fun x => decide (key < x) := by
    rw [Ranges.countP_eq_findIdx (hsorted.imp fun hab hb =>
      decide_eq_true (hab.trans (of_decide_eq_true hb)))]
    simp only [← decide_not, not_le]
  rw [hbelow, hupto]
  have hbefore : ∀ (i : Nat) x, i < keys.findIdx (fun x => decide (key ≤ x)) → keys[i]? = some x →
      x < key := by
    intro i x hi hx
    obtain ⟨_, rfl⟩ := List.getElem?_eq_some_iff.mp hx
    exact not_le.mp (of_decide_eq_false (List.not_of_lt_findIdx hi))
  have hafter : ∀ (i : Nat) x, keys.findIdx (fun x => decide (key < x)) ≤ i → keys[i]? = some x →
      key < x := fun i x hi hx => Ranges.lt_of_findIdx_le (f := id) hsorted hi hx
  obtain ⟨j, hj⟩ := List.getElem?_of_mem hmem
  have hfj : keys.findIdx (fun x => decide (key ≤ x)) ≤ j :=
    not_lt.mp fun hlt => lt_irrefl _ (hbefore j key hlt hj)
  have hjl : j < keys.findIdx fun x => decide (key < x) :=
    not_le.mp fun hle => lt_irrefl _ (hafter j key hle hj)
  have hlen := (List.getElem?_eq_some_iff.mp hj).1
  have hublen : keys.findIdx (fun x => decide (key < x)) ≤ keys.length := List.findIdx_le_length
  obtain ⟨x, hx⟩ := KeyArray.exists_getElem? keys (hfj.trans_lt hlen)
  obtain ⟨y, hy⟩ := KeyArray.exists_getElem? keys
    (i := keys.findIdx (fun x => decide (key < x)) - 1) (by omega)
  refine ⟨?_, ?_, hbefore, fun i z hi hz => hafter i z (by omega) hz⟩
  · have hkx : key ≤ x := by
      obtain ⟨_, rfl⟩ := List.getElem?_eq_some_iff.mp hx
      exact of_decide_eq_true
        (List.findIdx_getElem (p := fun x : Key w => decide (key ≤ x)))
    exact le_antisymm hkx (KeyArray.getElem?_mono hsorted hfj hx hj) ▸ hx
  · have hlt : keys.findIdx (fun x => decide (key < x)) - 1 <
        keys.findIdx fun x => decide (key < x) := by omega
    have hyk : y ≤ key := Ranges.le_of_lt_findIdx (f := id) hlt hy
    exact le_antisymm hyk (KeyArray.getElem?_mono hsorted (by omega) hj hy) ▸ hy

/-- Only the smallest key has a copy in front. -/
theorem Run.le_first_iff {key : Key w} {f l : Nat} (h : Run keys key f l) :
    key ≤ (knot keys 0).x ↔ f = 0 := by
  have hn : 0 < keys.length := Nat.zero_lt_of_lt (List.getElem?_eq_some_iff.mp h.first).1
  have hget := List.getElem?_eq_getElem hn
  constructor
  · intro hle
    by_contra hc
    rw [knot_eq hget] at hle
    exact absurd hle (not_le.mpr (h.before 0 _ (Nat.pos_of_ne_zero hc) hget))
  · rintro rfl
    rw [knot_eq h.first]

/-- The largest key has the last copy. -/
theorem Run.eq_of_last_le {key : Key w} {f l : Nat} (h : Run keys key f l)
    (hge : (knot keys (keys.length - 1)).x ≤ key) : l + 1 = keys.length := by
  have hlen := (List.getElem?_eq_some_iff.mp h.last).1
  by_contra hc
  have hget := List.getElem?_eq_getElem (l := keys) (i := keys.length - 1) (by omega)
  rw [knot_eq hget] at hge
  exact absurd hge (not_le.mpr (h.after _ _ (by omega) hget))

/-- The copies are all there is from the first to the last. -/
theorem Run.getElem? {key : Key w} {f l : Nat} (h : Run keys key f l)
    (hsorted : keys.Pairwise (· ≤ ·)) {i : Nat} (hfi : f ≤ i) (hil : i ≤ l) :
    keys[i]? = some key := by
  have hlen := (List.getElem?_eq_some_iff.mp h.last).1
  obtain ⟨x, hx⟩ := KeyArray.exists_getElem? keys (hil.trans_lt hlen)
  have h1 := KeyArray.getElem?_mono hsorted hfi h.first hx
  have h2 := KeyArray.getElem?_mono hsorted hil hx h.last
  exact le_antisymm h2 h1 ▸ hx

/-- The last spline point at or before position `l` of `n` keys. -/
def lastSampled (n stride l : Nat) : Nat := if l + 1 = n then l else l / stride * stride

theorem Brackets.lastSampled {key : Key w} {a b f l : Nat} (h : Brackets keys maxError key a b)
    (hsorted : keys.Pairwise (· ≤ ·)) (hrun : Run keys key f l) :
    a ≤ l ∧ l < b ∧ RS.lastSampled keys.length (max 1 maxError) l = a := by
  have hb := h.bound
  have hal : a ≤ l := by
    by_contra hc
    have hget := List.getElem?_eq_getElem (h.lt.trans hb)
    have hlt := hrun.after a _ (not_le.mp hc) hget
    have hle := h.left
    rw [knot_eq hget] at hle
    exact absurd hle (not_le.mpr hlt)
  have hlb : l < b := by
    by_contra hc
    have hlen := (List.getElem?_eq_some_iff.mp hrun.last).1
    have hle := knot_le hsorted (not_lt.mp hc) hlen
    rw [knot_eq hrun.last] at hle
    exact absurd h.right (not_lt.mpr hle)
  refine ⟨hal, hlb, ?_⟩
  obtain ⟨c, rfl⟩ := h.sampled
  have hnear := h.near
  have hpos : 0 < max 1 maxError := Nat.zero_lt_one.trans_le (Nat.le_max_left _ _)
  generalize max 1 maxError = stride at *
  rw [RS.lastSampled, if_neg (by omega)]
  have hdiv : l / stride = c :=
    Nat.div_eq_of_lt_le (by rw [Nat.mul_comm]; exact hal) (by
      rw [Nat.succ_mul, Nat.mul_comm c]
      omega)
  rw [hdiv, Nat.mul_comm]

/-- The estimate for a key with copies from `f` to `l`, where `a` is the last spline point at or
before `l`. -/
inductive Estimate (stride f a : Nat) : Nat → Prop
/-- The smallest key. -/
| smallest : f = 0 → Estimate stride f a 0
/-- A copy is a spline point. -/
| onSpline : 0 < f → f ≤ a → Estimate stride f a a
/-- No copy is. -/
| between {pos : Nat} : 0 < f → a < f → pos < f + stride → f < pos + stride →
    Estimate stride f a pos

/-- The estimate on a segment around a stored key. -/
theorem Brackets.estimate {key : Key w} {a b f l : Nat} (h : Brackets keys maxError key a b)
    (hnum : s.numKeys = keys.length) (hsorted : keys.Pairwise (· ≤ ·)) (hrun : Run keys key f l)
    (hf0 : 0 < f) :
    (s.interpolate (knot keys a) (knot keys b) key).Ensures (Estimate (max 1 maxError) f a) := by
  obtain ⟨hal, hlb, _⟩ := h.lastSampled hsorted hrun
  rcases Nat.lt_or_ge a f with haf | hfa
  · apply (interpolate_between (s := s) h.left h.right h.lt (by rw [hnum]; exact h.bound.le)).mono
    rintro pos ⟨hlow, hhigh⟩
    have hnear := h.near
    have hfl := hrun.le
    exact .between hf0 haf (by omega) (by omega)
  · -- the segment starts at a copy, and the estimate is that copy
    have hget := hrun.getElem? hsorted hfa hal
    have hne : (knot keys b).x ≠ (knot keys a).x := (h.left.trans_lt h.right).ne'
    rw [RadixSpline.interpolate, if_neg hne]
    apply Ensures.assert_bind (decide_eq_true (subToDouble_ne_zero hne))
    simp only [knot_eq hget, subToDouble_of_le (le_refl key), sub_self, mul_zero, add_zero]
    rw [clampPosition_natCast (by rw [hnum]; exact h.lt.trans h.bound)]
    exact Ensures.pure (.onSpline hf0 hfa)

/-- The estimate for a stored key. -/
theorem Fitted.getEstimatedPosition_run (h : Fitted keys maxError bucket s)
    (hmono : Monotone bucket) (hsorted : keys.Pairwise (· ≤ ·)) {key : Key w} {f l : Nat}
    (hrun : Run keys key f l) :
    (s.getEstimatedPosition key).Ensures
      (Estimate (max 1 maxError) f (lastSampled keys.length (max 1 maxError) l)) := by
  have hmem := List.mem_of_getElem? hrun.first
  have hkeys : keys ≠ [] := List.ne_nil_of_mem hmem
  have hn : 0 < keys.length := List.length_pos_iff.mpr hkeys
  have hflen := (List.getElem?_eq_some_iff.mp hrun.first).1
  have hpos : 0 < s.splinePoints.length := List.length_pos_iff.mpr h.splinePoints_ne_nil
  obtain ⟨ps, hps, hpoints⟩ := h.spline
  have hfront : s.splinePoints[0]? = some (knot keys 0) := by
    rw [hpoints, List.getElem?_map, ← List.head?_eq_getElem?, hps.head, Option.map_some]
  have hback : s.splinePoints[s.splinePoints.length - 1]? =
      some (knot keys (keys.length - 1)) := by
    rw [hpoints, List.length_map, List.getElem?_map, ← List.getLast?_eq_getElem?, hps.last,
      Option.map_some]
  have hclamp0 : s.clampPosition (knot keys 0).y = 0 :=
    clampPosition_natCast (by rw [h.numKeys_eq]; exact hn)
  rw [RadixSpline.getEstimatedPosition, if_neg hpos.ne']
  refine (returns_read.mpr hfront).seq ?_
  split
  · rename_i h1
    -- a single spline point is a single key
    rw [h1, Nat.sub_self] at hback
    have h0 := Option.some.inj (hfront.symm.trans hback)
    have hlast : keys.length - 1 = 0 := by
      have hy := congrArg Coord.y h0
      simp only [knot] at hy
      exact_mod_cast hy.symm
    rw [hclamp0]
    exact Ensures.pure (.smallest (by omega))
  · split
    · rename_i hle
      rw [hclamp0]
      exact Ensures.pure (.smallest (hrun.le_first_iff.mp hle))
    · rename_i hgt
      have hf0 : 0 < f := Nat.pos_of_ne_zero fun hc => hgt (hrun.le_first_iff.mpr hc)
      refine (returns_read.mpr hback).seq ?_
      split
      · rename_i hge
        -- the largest key: its last copy is the last spline point
        have hll := hrun.eq_of_last_le hge
        rw [RS.lastSampled, if_pos hll]
        have hclamp : s.clampPosition (knot keys (keys.length - 1)).y = l := by
          rw [show keys.length - 1 = l by omega]
          exact clampPosition_natCast (by rw [h.numKeys_eq]; omega)
        rw [hclamp]
        exact Ensures.pure (.onSpline hf0 (by omega))
      · rename_i hlt
        obtain ⟨i, a, b, hseg, hleft, hright, hb⟩ := h.brackets hmono hkeys hsorted hfront
          (not_le.mp hgt) hback (not_le.mp hlt)
        obtain ⟨_, _, ha⟩ := hb.lastSampled hsorted hrun
        rw [ha]
        apply hseg.seq
        apply (returns_read.mpr hleft).seq
        apply (returns_read.mpr hright).seq
        exact hb.estimate h.numKeys_eq hsorted hrun hf0

/-- The estimate for a stored key is less than `max 1 maxError` away from an occurrence. -/
theorem Fitted.getEstimatedPosition_near (h : Fitted keys maxError bucket s)
    (hmono : Monotone bucket) (hsorted : keys.Pairwise (· ≤ ·)) {key : Key w}
    (hmem : key ∈ keys) :
    (s.getEstimatedPosition key).Ensures fun pos => ∃ j, keys[j]? = some key ∧
      pos < j + max 1 maxError ∧ j < pos + max 1 maxError := by
  have hrun := run_of_mem hsorted hmem
  refine (h.getEstimatedPosition_run hmono hsorted hrun).mono fun pos hpos => ?_
  have hstride : 0 < max 1 maxError := Nat.zero_lt_one.trans_le (Nat.le_max_left _ _)
  generalize hl : keys.countP (fun x => decide (x ≤ key)) - 1 = l at *
  generalize hf : keys.countP (fun x => decide (x < key)) = f at *
  cases hpos with
  | smallest h0 => exact ⟨0, h0 ▸ hrun.first, by omega, by omega⟩
  | onSpline _ hfa =>
      have hal : lastSampled keys.length (max 1 maxError) l ≤ l := by
        rw [lastSampled]
        split
        · exact Nat.le_refl l
        · exact Nat.div_mul_le_self l _
      exact ⟨_, hrun.getElem? hsorted hfa hal, by omega, by omega⟩
  | between _ _ h1 h2 => exact ⟨f, hrun.first, h1, h2⟩

/-- The window of a stored key has an occurrence of it. -/
theorem Fitted.getSearchBound_hits (h : Fitted keys maxError bucket s) (hmono : Monotone bucket)
    (hsorted : keys.Pairwise (· ≤ ·)) (hwrap : keys.length + maxError + 2 < 2 ^ 64) {key : Key w}
    (hmem : key ∈ keys) :
    (s.getSearchBound key).Ensures fun b =>
      ∃ j, keys[j]? = some key ∧ b.lo ≤ j ∧ j < b.hi := by
  have hn : s.numKeys ≠ 0 := by
    rw [h.numKeys_eq]
    exact List.length_pos_iff.mpr (List.ne_nil_of_mem hmem) |>.ne'
  rw [RadixSpline.getSearchBound, if_neg (not_or.mpr ⟨hn, h.splinePoints_ne_nil⟩)]
  refine Ensures.bind ((h.getEstimatedPosition key).and
    (h.getEstimatedPosition_near hmono hsorted hmem)) fun pos ⟨hle, j, hj, h1, h2⟩ =>
      Ensures.pure ⟨j, hj, ?_⟩
  have hlt := (List.getElem?_eq_some_iff.mp hj).1
  rw [h.maxError_eq, h.numKeys_eq] at *
  rw [Nat.mod_eq_of_lt (by omega)]
  simp only
  constructor <;> split_ifs <;> omega

end Estimate

end RS
