import PrefetchBench.Corridor.Chains
import PrefetchBench.PGM.PiecewiseLinear

/-!
# The hulls of the piecewise linear model

A point with a rank stands for a bar, from `epsilon` below the rank to `epsilon` above it, cut off
at zero and at the largest value of the type.  The comparisons of slopes and the cross products, on
integers, are comparisons of slopes in the plane (`Slope.lt_sub_iff`, `cross_nonneg_iff`).  So the
search for an extreme slope ends at a valley of the slopes (`extremeSlope_ensures`), and the loop
over the end of a hull removes what may go (`hullEnd_ensures`).

Both hulls are roofs, `lower` of the bars and `upper` of their mirror images, so everything here is
said for a `View` of the points in the plane, which is mirrored or not.
-/

namespace PGM

open Prog Corridor

/-! ## Points in the plane -/

/-- A point in the plane. -/
def Point.plane (p : Point) : ℚ × ℚ := (p.x.val, p.y.val)

@[simp] theorem Point.plane_fst (p : Point) : p.plane.1 = p.x.val := rfl

@[simp] theorem Point.plane_snd (p : Point) : p.plane.2 = p.y.val := rfl

theorem Point.plane_lt {p q : Point} (h : p.x < q.x) : p.plane.1 < q.plane.1 := by
  simpa using h

theorem val_minusEpsilon (epsilon y : Size) :
    (minusEpsilon epsilon y).val = y.val - epsilon.val := by
  rw [minusEpsilon, zero_add]
  split
  · rename_i h
    exact (Nat.sub_eq_zero_of_le h).symm
  · rename_i h
    exact Fin.sub_val_of_le (not_le.mp h).le

theorem val_plusEpsilon (epsilon y : Size) :
    (plusEpsilon epsilon y).val = min (y.val + epsilon.val) (2 ^ 64 - 1) := by
  have hle : epsilon ≤ Fin.last (2 ^ 64 - 1) := Fin.le_last epsilon
  rw [plusEpsilon]
  split
  · rename_i h
    have hval := Fin.le_def.mp h
    rw [Fin.sub_val_of_le hle, Fin.val_last] at hval
    rw [Fin.val_last]
    omega
  · rename_i h
    have hval := Fin.lt_def.mp (not_le.mp h)
    rw [Fin.sub_val_of_le hle, Fin.val_last] at hval
    rw [Fin.val_add_eq_of_add_lt (by omega)]
    omega

theorem minusEpsilon_le (epsilon y : Size) :
    (minusEpsilon epsilon y).val ≤ (plusEpsilon epsilon y).val := by
  rw [val_minusEpsilon, val_plusEpsilon]
  omega

/-- Where some error is allowed, the ends of a bar differ. -/
theorem minusEpsilon_lt {epsilon : Size} (h : 0 < epsilon.val) (y : Size) :
    (minusEpsilon epsilon y).val < (plusEpsilon epsilon y).val := by
  rw [val_minusEpsilon, val_plusEpsilon]
  omega

/-- A key with its rank. -/
abbrev Knot := Key × Size

/-- The upper point of a knot. -/
def upperPoint (epsilon : Size) (k : Knot) : Point := ⟨k.1, plusEpsilon epsilon k.2⟩

/-- The lower point of a knot. -/
def lowerPoint (epsilon : Size) (k : Knot) : Point := ⟨k.1, minusEpsilon epsilon k.2⟩

/-- The bar of a knot. -/
def bar (epsilon : Size) (k : Knot) : Bar ℚ :=
  ⟨k.1.val, (minusEpsilon epsilon k.2).val, (plusEpsilon epsilon k.2).val,
    Nat.cast_le.mpr (minusEpsilon_le epsilon k.2)⟩

@[simp] theorem x_bar (epsilon : Size) (k : Knot) : (bar epsilon k).x = k.1.val := rfl

/-- The bars of some knots. -/
def bars (epsilon : Size) (knots : List Knot) : List (Bar ℚ) := knots.map (bar epsilon)

theorem bars_concat (epsilon : Size) (knots : List Knot) (k : Knot) :
    bars epsilon (knots ++ [k]) = bars epsilon knots ++ [bar epsilon k] := List.map_append

theorem plane_upperPoint (epsilon : Size) (k : Knot) :
    (upperPoint epsilon k).plane = (bar epsilon k).upperEnd := rfl

theorem plane_lowerPoint (epsilon : Size) (k : Knot) :
    (lowerPoint epsilon k).plane = (bar epsilon k).lowerEnd := rfl

/-- The bars are left of a later key. -/
theorem leftOf_bars {epsilon : Size} {knots : List Knot} {x : Key} (h : ∀ k ∈ knots, k.1 < x) :
    LeftOf (bars epsilon knots) (x.val : ℚ) := by
  intro b hb
  obtain ⟨k, hk, rfl⟩ := List.mem_map.mp hb
  exact Nat.cast_lt.mpr (h k hk)

/-! ## Comparing slopes -/

theorem slopeTo_comm (p q : ℚ × ℚ) : slopeTo p q = slopeTo q p := by
  rw [slopeTo, slopeTo, ← neg_sub, ← neg_sub p.1, neg_div_neg_eq]

/-- The quotient of a slope. -/
def Slope.value (s : Slope) : ℚ := s.dy / s.dx

/-- The products compare the quotients when the runs have the same sign. -/
theorem Slope.lt_iff {s t : Slope} (h : 0 < s.dx * t.dx) : s.lt t = true ↔ s.value < t.value := by
  have hs : (s.dx : ℚ) ≠ 0 := by
    intro hc
    simp [Int.cast_eq_zero.mp hc] at h
  have ht : (t.dx : ℚ) ≠ 0 := by
    intro hc
    simp [Int.cast_eq_zero.mp hc] at h
  have hpos : (0 : ℚ) < s.dx * t.dx := by exact_mod_cast h
  have hl : s.value * (s.dx * t.dx) = s.dy * t.dx := by
    rw [value]
    field_simp
  have hr : t.value * (s.dx * t.dx) = s.dx * t.dy := by
    rw [value]
    field_simp
  rw [Slope.lt, decide_eq_true_iff, ← mul_lt_mul_iff_left₀ hpos, hl, hr]
  norm_cast

theorem Slope.gt_eq_lt (s t : Slope) : s.gt t = t.lt s := by
  rw [Slope.gt, Slope.lt, mul_comm, mul_comm s.dy]

theorem Point.value_sub (a p : Point) : (a.sub p).value = slopeTo p.plane a.plane := by
  simp [Slope.value, Point.sub, slopeTo]

theorem Point.sub_pos {p a : Point} (h : p.x < a.x) : 0 < (a.sub p).dx := by
  have hlt := Fin.lt_def.mp h
  simp only [Point.sub]
  omega

theorem Point.sub_neg {p a : Point} (h : a.x < p.x) : (a.sub p).dx < 0 := by
  have hlt := Fin.lt_def.mp h
  simp only [Point.sub]
  omega

/-- The slopes of two steps to the right. -/
theorem Slope.lt_sub_iff {p q a b : Point} (hp : p.x < a.x) (hq : q.x < b.x) :
    (a.sub p).lt (b.sub q) = true ↔ slopeTo p.plane a.plane < slopeTo q.plane b.plane := by
  rw [Slope.lt_iff (mul_pos (Point.sub_pos hp) (Point.sub_pos hq)), Point.value_sub,
    Point.value_sub]

/-- The slopes at which two points to the left are seen. -/
theorem Slope.lt_sub_iff_left {p v w : Point} (hv : v.x < p.x) (hw : w.x < p.x) :
    (v.sub p).lt (w.sub p) = true ↔ slopeTo v.plane p.plane < slopeTo w.plane p.plane := by
  rw [Slope.lt_iff (mul_pos_of_neg_of_neg (Point.sub_neg hv) (Point.sub_neg hw)),
    Point.value_sub, Point.value_sub, slopeTo_comm, slopeTo_comm p.plane]

/-- The sign of a cross product. -/
theorem cross_nonneg_iff {o a b : Point} (ha : o.x < a.x) (hb : o.x < b.x) :
    0 ≤ cross o a b ↔ slopeTo o.plane a.plane ≤ slopeTo o.plane b.plane := by
  rw [← not_lt, ← not_lt, ← Slope.lt_sub_iff hb ha, Slope.lt, decide_eq_true_iff, cross, sub_neg,
    mul_comm (b.sub o).dx, mul_comm (b.sub o).dy]

theorem cross_nonpos_iff {o a b : Point} (ha : o.x < a.x) (hb : o.x < b.x) :
    cross o a b ≤ 0 ↔ slopeTo o.plane b.plane ≤ slopeTo o.plane a.plane := by
  rw [← not_lt, ← not_lt, ← Slope.lt_sub_iff ha hb, Slope.lt, decide_eq_true_iff, cross, sub_pos]

/-- For ranks of 62 bits the cross product fits into 128 bits. -/
theorem cross_inRange {o a b : Point} (ho : o.y.val < 2 ^ 62) (ha : a.y.val < 2 ^ 62)
    (hb : b.y.val < 2 ^ 62) : |cross o a b| < 2 ^ 127 := by
  have hbound : ∀ x y : Int, |x| < 2 ^ 64 → |y| < 2 ^ 62 → |x * y| < 2 ^ 126 := by
    intro x y hx hy
    rw [abs_mul]
    calc |x| * |y| ≤ 2 ^ 64 * |y| := by gcongr
      _ < 2 ^ 64 * 2 ^ 62 := by gcongr
      _ = 2 ^ 126 := by norm_num
  have hdx : ∀ p q : Point, |(p.sub q).dx| < 2 ^ 64 := by
    intro p q
    have hp := p.x.isLt
    have hq := q.x.isLt
    simp only [Point.sub, abs_lt]
    omega
  have hdy : ∀ p : Point, p.y.val < 2 ^ 62 → |(p.sub o).dy| < 2 ^ 62 := by
    intro p hp
    simp only [Point.sub, abs_lt]
    omega
  have h1 := abs_lt.mp (hbound _ _ (hdx a o) (hdy b hb))
  have h2 := abs_lt.mp (hbound _ _ (hdx b o) (hdy a ha))
  rw [mul_comm] at h2
  rw [cross, abs_lt]
  constructor
  · linarith
  · linarith

/-! ## The loops over a hull -/

namespace OptimalPiecewiseLinearModel

/-- The search of a hull ends at `j`: the slopes do not get worse up to there, and do so behind. -/
structure Valley (worse : Slope → Slope → Bool) (hull : List Point) (start : Nat) (p : Point)
    (j : Nat) : Prop where
  /-- It is not in front of the start. -/
  start_le : start ≤ j
  /-- It is in the hull. -/
  lt : j < hull.length
  /-- The slopes up to there. -/
  fall : ∀ i a b, start ≤ i → i < j → hull[i]? = some a → hull[i + 1]? = some b →
    worse (b.sub p) (a.sub p) = false
  /-- The slope behind. -/
  rise : ∀ a b, hull[j]? = some a → hull[j + 1]? = some b → worse (b.sub p) (a.sub p) = true

/-- A hull is cut at `e`: the points behind it are popped, and the last one is not. -/
structure Trimmed (pops : Int → Bool) (hull : List Point) (start : Nat) (p : Point) (e : Nat) :
    Prop where
  /-- The start stays. -/
  lt : start < e
  /-- It is in the hull. -/
  le : e ≤ hull.length
  /-- The last point. -/
  stop : ∀ a b, start + 2 ≤ e → hull[e - 2]? = some a → hull[e - 1]? = some b →
    pops (cross a b p) = false
  /-- The points behind. -/
  steps : ∀ i a b, e ≤ i + 1 → hull[i]? = some a → hull[i + 1]? = some b →
    pops (cross a b p) = true

section Loops

variable {worse : Slope → Slope → Bool} {pops : Int → Bool} {hull : List Point} {start : Nat}
  {p : Point}

theorem extremeSlope_ensures (hstart : start < hull.length) :
    (extremeSlope worse hull start p).Ensures (Valley worse hull start p) := by
  obtain ⟨first, hfirst⟩ := KeyArray.exists_getElem? hull hstart
  apply (returns_read.mpr hfirst).seq
  apply Ensures.loop (fun m (s : Extreme) => m = hull.length - s.i ∧ s.bestI + 1 = s.i ∧
    start ≤ s.bestI ∧ s.i ≤ hull.length ∧ (∀ v, hull[s.bestI]? = some v → s.best = v.sub p) ∧
    ∀ i a b, start ≤ i → i < s.bestI → hull[i]? = some a → hull[i + 1]? = some b →
      worse (b.sub p) (a.sub p) = false)
  · rintro m ⟨best, bestI, i⟩ ⟨rfl, hi, hle, hlen, hbest, hfall⟩
    dsimp only at hi hle hlen hbest hfall ⊢
    subst hi
    have hbestI : bestI < hull.length := hlen
    obtain ⟨v, hv⟩ := KeyArray.exists_getElem? hull hbestI
    rw [hbest v hv]
    split
    · rename_i hlt
      obtain ⟨w, hw⟩ := KeyArray.exists_getElem? hull hlt
      apply (returns_read.mpr hw).seq
      cases hworse : worse (w.sub p) (v.sub p) with
      | true =>
          apply Ensures.pure
          refine ⟨hle, hbestI, hfall, ?_⟩
          intro a b ha hb
          cases hv.symm.trans ha
          cases hw.symm.trans hb
          exact hworse
      | false =>
          apply Ensures.pure
          refine ⟨_, ?_, rfl, rfl, hle.trans (Nat.le_succ _), hlt, ?_, ?_⟩
          · dsimp only
            omega
          · intro u hu
            cases hw.symm.trans hu
            rfl
          · intro i a b hi hlt' ha hb
            rcases Nat.lt_succ_iff_lt_or_eq.mp hlt' with hlt' | rfl
            · exact hfall i a b hi hlt' ha hb
            · cases hv.symm.trans ha
              cases hw.symm.trans hb
              exact hworse
    · rename_i hge
      apply Ensures.pure
      refine ⟨hle, hbestI, hfall, ?_⟩
      intro a b _ hb
      exact absurd (List.getElem?_eq_some_iff.mp hb).1 hge
  · refine ⟨rfl, rfl, Nat.le_refl start, hstart, ?_, ?_⟩
    · intro v hv
      cases hfirst.symm.trans hv
      rfl
    · intro i a b hi hlt
      exact absurd hlt (not_lt.mpr hi)

theorem hullEnd_ensures (hstart : start < hull.length) :
    (hullEnd pops hull start p).Ensures (Trimmed pops hull start p) := by
  apply Ensures.loop (fun m e => m = e ∧ start < e ∧ e ≤ hull.length ∧
    ∀ i a b, e ≤ i + 1 → hull[i]? = some a → hull[i + 1]? = some b → pops (cross a b p) = true)
  · rintro m e ⟨rfl, hlt, hle, hsteps⟩
    split
    · rename_i hlong
      obtain ⟨a, ha⟩ := KeyArray.exists_getElem? hull (i := m - 2) (by omega)
      obtain ⟨b, hb⟩ := KeyArray.exists_getElem? hull (i := m - 1) (by omega)
      apply (returns_read.mpr ha).seq
      apply (returns_read.mpr hb).seq
      cases hpops : pops (cross a b p) with
      | true =>
          apply Ensures.pure
          refine ⟨m - 1, by omega, rfl, by omega, by omega, ?_⟩
          intro i a' b' hi ha' hb'
          rcases Nat.eq_or_lt_of_le hi with heq | hgt
          · have h2 : i = m - 2 := by omega
            rw [h2] at ha' hb'
            rw [show m - 2 + 1 = m - 1 by omega] at hb'
            cases ha.symm.trans ha'
            cases hb.symm.trans hb'
            exact hpops
          · exact hsteps i a' b' (by omega) ha' hb'
      | false =>
          apply Ensures.pure
          refine ⟨hlt, hle, ?_, hsteps⟩
          intro a' b' _ ha' hb'
          cases ha.symm.trans ha'
          cases hb.symm.trans hb'
          exact hpops
    · rename_i hshort
      apply Ensures.pure
      exact ⟨hlt, hle, fun _ _ hlong => absurd hlong hshort, hsteps⟩
  · refine ⟨rfl, hstart, Nat.le_refl _, ?_⟩
    intro i a b hi _ hb
    exact absurd (List.getElem?_eq_some_iff.mp hb).1 (by omega)

/-- The cut is one for every later start in front of it. -/
theorem Trimmed.mono {e j : Nat} (h : Trimmed pops hull start p e) (hle : start ≤ j) (hlt : j < e) :
    Trimmed pops hull j p e where
  lt := hlt
  le := h.le
  stop a b hlong := h.stop a b (by omega)
  steps := h.steps

end Loops

end OptimalPiecewiseLinearModel

/-! ## Views -/

/-- The points as they are or mirrored, and how the code compares slopes for such a hull. -/
structure View where
  /-- The point in the plane. -/
  of : Point → ℚ × ℚ
  /-- When a slope is worse than another one. -/
  worse : Slope → Slope → Bool
  /-- When a point of the hull is popped. -/
  pops : Int → Bool
  /-- The key stays. -/
  fst : ∀ p, (of p).1 = p.x.val
  /-- Worse slopes are larger. -/
  worse_iff : ∀ {p v w : Point}, v.x < p.x → w.x < p.x →
    (worse (v.sub p) (w.sub p) = true ↔ slopeTo (of w) (of p) < slopeTo (of v) (of p))
  /-- A point straight below is seen at a worse slope than every other one. -/
  worse_above : ∀ {c p v : Point}, v.x < p.x → c.x = p.x → (of c).2 < (of p).2 →
    worse (c.sub p) (v.sub p) = true
  /-- The points that are popped are not above the line. -/
  pops_iff : ∀ {a b c : Point}, a.x < b.x → a.x < c.x →
    (pops (cross a b c) = true ↔ slopeTo (of a) (of b) ≤ slopeTo (of a) (of c))

/-- The view of `lower`. -/
def View.plain : View where
  of := Point.plane
  worse := Slope.gt
  pops c := decide (0 ≤ c)
  fst _ := rfl
  worse_iff hv hw := by rw [Slope.gt_eq_lt, Slope.lt_sub_iff_left hw hv]
  worse_above := by
    intro c p v hv hc habove
    have hy : c.y.val < p.y.val := by simpa using habove
    have hneg := mul_pos_of_neg_of_neg (Point.sub_neg hv)
      (show ((c.y.val : Int) - p.y.val) < 0 by omega)
    rw [Slope.gt, decide_eq_true_iff, mul_comm (c.sub p).dy]
    simpa [Point.sub, hc] using hneg
  pops_iff ha hb := by rw [decide_eq_true_iff, cross_nonneg_iff ha hb]

/-- The view of `upper`. -/
def View.reflected : View where
  of p := mirror p.plane
  worse := Slope.lt
  pops c := decide (c ≤ 0)
  fst _ := rfl
  worse_iff hv hw := by
    rw [Slope.lt_sub_iff_left hv hw, slopeTo_mirror, slopeTo_mirror, neg_lt_neg_iff]
  worse_above := by
    intro c p v hv hc habove
    have hy : p.y.val < c.y.val := by simpa using habove
    have hneg := mul_neg_of_pos_of_neg (show 0 < ((c.y.val : Int) - p.y.val) by omega)
      (Point.sub_neg hv)
    rw [Slope.lt, decide_eq_true_iff]
    simpa [Point.sub, hc] using hneg
  pops_iff ha hb := by
    rw [decide_eq_true_iff, cross_nonpos_iff ha hb, slopeTo_mirror, slopeTo_mirror,
      neg_le_neg_iff]

namespace View

/-- The part of a hull that is looked at. -/
def chain (V : View) (hull : List Point) (start : Nat) : List (ℚ × ℚ) :=
  (hull.drop start).map V.of

theorem getElem?_chain (V : View) (hull : List Point) (start i : Nat) :
    (V.chain hull start)[i]? = hull[start + i]?.map V.of := by
  rw [chain, List.getElem?_map, List.getElem?_drop]

theorem of_lt (V : View) {p q : Point} (h : p.x < q.x) : (V.of p).1 < (V.of q).1 := by
  rw [V.fst, V.fst]
  exact Nat.cast_lt.mpr h

end View

end PGM
