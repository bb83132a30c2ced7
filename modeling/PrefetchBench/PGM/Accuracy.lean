import PrefetchBench.PGM.Accepting

/-!
# The accuracy of a segment

A segment stands for the knots that the model held when it was handed out.  Its line is the steepest
one through their bars, and its intercept is the value of the line at the first key, rounded to the
nearest integer (`Drawn`).  So where the product of the slope and a key difference is off by less
than half a rank before it is cut off (`Quotients.Accurate`), the segment predicts the rank of a
knot at most `epsilon` too high and at most `epsilon + 1` too low (`Drawn.position_le`,
`Drawn.le_position`).
-/

namespace PGM

open Prog Corridor OptimalPiecewiseLinearModel

variable {S : Type} {f : Quotients S} {epsilon : Size} {knots piece : List Knot} {k : Knot}
  {opt : OptimalPiecewiseLinearModel} {segment : Segment S}

/-! ## Rounding -/

/-- The nearest integer of a quotient of natural numbers. -/
theorem abs_div_sub_le (m : Int) {d : Int} (hd : 0 < d) :
    |(((m + d / 2) / d : Int) : ℚ) - (m : ℚ) / d| ≤ 1 / 2 := by
  have hdq : (0 : ℚ) < d := by exact_mod_cast hd
  have hhalf := Int.mul_ediv_add_emod d 2
  have hmod := Int.emod_two_eq_zero_or_one d
  have hdiv := Int.mul_ediv_add_emod (m + d / 2) d
  have hnonneg := Int.emod_nonneg (m + d / 2) hd.ne'
  have hlt := Int.emod_lt_of_pos (m + d / 2) hd
  generalize (m + d / 2) / d = q at *
  have hle : 2 * (d * q) ≤ 2 * m + d := by omega
  have hge : 2 * m ≤ 2 * (d * q) + d := by omega
  have hleq : 2 * ((d : ℚ) * q) ≤ 2 * m + d := by exact_mod_cast hle
  have hgeq : 2 * (m : ℚ) ≤ 2 * ((d : ℚ) * q) + d := by exact_mod_cast hge
  have hsplit : (q : ℚ) - m / d = (2 * (d * q) - 2 * m) / (2 * d) := by
    field_simp
  have habs : |2 * ((d : ℚ) * q) - 2 * m| ≤ d := abs_le.mpr ⟨by linarith, by linarith⟩
  rw [hsplit, abs_div, abs_of_pos (show (0 : ℚ) < 2 * d by linarith), div_le_div_iff₀
    (by linarith) two_pos]
  linarith

/-- The division of the intercept rounds to the nearest integer. -/
theorem abs_roundedQuotient_sub_le (n : Int) {d : Int} (hd : 0 < d) :
    |(roundedQuotient n d : ℚ) - (n : ℚ) / d| ≤ 1 / 2 := by
  have hhalf := Int.tdiv_eq_ediv_of_nonneg (b := 2) hd.le
  rw [roundedQuotient, decide_eq_false (not_lt.mpr hd.le)]
  rcases lt_or_ge n 0 with hn | hn
  · -- cut off towards zero: the mirror image
    rw [decide_eq_true hn]
    have hround : (n + (-1 * d).tdiv 2).tdiv d = -((-n + d / 2) / d) := by
      have hpos : 0 ≤ -n + d / 2 := by omega
      rw [neg_one_mul, Int.neg_tdiv, hhalf, show n + -(d / 2) = -(-n + d / 2) by ring,
        Int.neg_tdiv, Int.tdiv_eq_ediv_of_nonneg hpos]
    have hclose := abs_div_sub_le (-n) hd
    rw [if_pos (by rfl), hround, ← abs_neg]
    push_cast at hclose ⊢
    rw [show -(-(((-n + d / 2) / d : Int) : ℚ) - (n : ℚ) / d) =
      (((-n + d / 2) / d : Int) : ℚ) - -(n : ℚ) / d by ring]
    exact hclose
  · rw [decide_eq_false (not_lt.mpr hn), if_neg (by simp), one_mul, hhalf,
      Int.tdiv_eq_ediv_of_nonneg (by omega)]
    exact abs_div_sub_le n hd

/-! ## Segments -/

/-- The knots go to the right, and their ranks do not decrease. -/
def Rising (knots : List Knot) : Prop := knots.Pairwise fun a b => a.1 < b.1 ∧ a.2 ≤ b.2

/-- The arithmetic of slopes is off by less than half a rank before the product is cut off, as long
as the product is at most `bound`. -/
structure Quotients.Accurate (f : Quotients S) (bound : ℚ) : Prop where
  /-- The slope zero. -/
  zero : ∀ x, f.scale f.zero x = 0
  /-- The other slopes. -/
  close : ∀ (s : Slope) (x : Key), 0 < s.dx → 0 ≤ s.dy → s.value * x.val ≤ bound →
    s.value * x.val - 3 / 2 < f.scale (f.ofSlope s) x ∧
      f.scale (f.ofSlope s) x < s.value * x.val + 1 / 2

/-- The exact arithmetic, on quotients of natural numbers. -/
def quotients : Quotients (Nat × Nat) where
  toFloating := fractions
  ofSlope s := (s.dy.toNat, s.dx.toNat)

/-- It is off by less than one, when the product is cut off. -/
theorem quotients_accurate (bound : ℚ) : quotients.Accurate bound where
  zero x := by simp [quotients, fractions]
  close s x hdx hdy _ := by
    obtain ⟨dx, hdx'⟩ := Int.eq_ofNat_of_zero_le hdx.le
    obtain ⟨dy, hdy'⟩ := Int.eq_ofNat_of_zero_le hdy
    have hpos : 0 < dx := by omega
    have hscale : quotients.scale (quotients.ofSlope s) x = dy * x.val / dx := by
      simp [quotients, fractions, hdx', hdy']
    have hposq : (0 : ℚ) < dx := Nat.cast_pos.mpr hpos
    have hvalue : s.value * x.val = (dy * x.val : Nat) / (dx : ℚ) := by
      rw [Slope.value, hdx', hdy']
      push_cast
      ring
    have hfloor : ((dy * x.val / dx : Nat) : ℚ) ≤ (dy * x.val : Nat) / (dx : ℚ) := Nat.cast_div_le
    have hceil : ((dy * x.val : Nat) : ℚ) / dx < (dy * x.val / dx : Nat) + 1 := by
      rw [div_lt_iff₀ hposq]
      have hlt := Nat.lt_mul_of_div_lt (Nat.lt_succ_self (dy * x.val / dx)) hpos
      exact_mod_cast hlt
    rw [hscale, hvalue]
    constructor
    · linarith
    · linarith

/-- A segment is drawn for some knots: its line passes through their bars, and its intercept is the
value of the line at the first key, up to one half. -/
structure Drawn (f : Quotients S) (epsilon : Size) (piece : List Knot) (segment : Segment S)
    (l : Line ℚ) : Prop where
  /-- The key of the segment. -/
  key : (piece.map Prod.fst).head? = some segment.key
  /-- The line fits. -/
  fits : l.Fits (bars epsilon piece)
  /-- The intercept. -/
  intercept : |(segment.intercept.val : ℚ) - l.eval segment.key.val| ≤ 1 / 2
  /-- The slope. -/
  slope : (segment.slope = f.zero ∧ l.slope = 0) ∨
    ∃ s : Slope, 0 < s.dx ∧ 0 ≤ s.dy ∧ segment.slope = f.ofSlope s ∧ l.slope = s.value

/-- The constructor of a segment does not throw, where the intercept fits into 32 bits. -/
theorem ofCanonical_ensures {cs : CanonicalSegment} {y : Rat}
    (hclose : |((cs.getFloatingPointSegment f cs.first).2 : ℚ) - y| ≤ 1 / 2) (hnonneg : 0 ≤ y)
    {bound : Nat} (hle : y ≤ bound) (hbound : bound < 2 ^ 32) :
    (orFail (Segment.ofCanonical f cs)).Ensures fun segment => segment.key = cs.first ∧
      segment.slope = (cs.getFloatingPointSegment f cs.first).1 ∧
        |(segment.intercept.val : ℚ) - y| ≤ 1 / 2 := by
  rw [Segment.ofCanonical]
  generalize cs.getFloatingPointSegment f cs.first = r at *
  obtain ⟨slope, intercept⟩ := r
  dsimp only at hclose ⊢
  obtain ⟨hlow, hhigh⟩ := abs_le.mp hclose
  have hpos : 0 ≤ intercept := by
    have hlt : (-1 : ℚ) < intercept := by linarith
    have hlt' : -1 < intercept := by exact_mod_cast hlt
    omega
  have hup : intercept ≤ bound := by
    have hlt : (intercept : ℚ) < bound + 1 := by linarith
    have hlt' : intercept < bound + 1 := by exact_mod_cast hlt
    omega
  rw [if_neg (by omega), if_neg (by omega), orFail_pure]
  apply Ensures.pure
  refine ⟨rfl, rfl, ?_⟩
  have hval : (Fin.ofNat (2 ^ 32) intercept.toNat).val = intercept.toNat :=
    Nat.mod_eq_of_lt (by omega)
  have hcast : ((intercept.toNat : Nat) : ℚ) = intercept := by
    have hint : ((intercept.toNat : Nat) : Int) = intercept := Int.toNat_of_nonneg hpos
    exact_mod_cast congrArg (Int.cast (R := ℚ)) hint
  rw [hval, hcast]
  exact hclose

/-- The line of one knot, whose bar is not cut off. -/
theorem Holding.draw_one (h : Holding epsilon [k] opt) (hone : 2 * epsilon.val ≤ k.2.val)
    (hk : k.2.val < 2 ^ 32) :
    (orFail (Segment.ofCanonical f opt.getSegment)).Ensures fun segment =>
      ∃ l, Drawn f epsilon [k] segment l := by
  obtain ⟨hr0, hr1, _⟩ := h.one k rfl
  have hfirst := h.first k rfl
  have hcs : opt.getSegment = ⟨⟨upperPoint epsilon k, lowerPoint epsilon k, upperPoint epsilon k,
      lowerPoint epsilon k⟩, k.1⟩ := by
    have hcount : opt.pointsInHull = 1 := h.count
    rw [getSegment, if_pos hcount, hr0, hr1, hfirst]
  rw [hcs]
  have hsum : ((upperPoint epsilon k).y + (lowerPoint epsilon k).y).val =
      (plusEpsilon epsilon k.2).val + (minusEpsilon epsilon k.2).val := by
    apply Fin.val_add_eq_of_add_lt
    rw [upperPoint, lowerPoint, val_plusEpsilon, val_minusEpsilon]
    omega
  have hmid : (((upperPoint epsilon k).y + (lowerPoint epsilon k).y) / 2 : Size).val =
      ((plusEpsilon epsilon k.2).val + (minusEpsilon epsilon k.2).val) / 2 := by
    rw [Fin.div_val, hsum]
    rfl
  have hle := minusEpsilon_le epsilon k.2
  have hup := val_plusEpsilon epsilon k.2
  have hdown := val_minusEpsilon epsilon k.2
  generalize hmean : ((plusEpsilon epsilon k.2).val + (minusEpsilon epsilon k.2).val) / 2 = mid at *
  have hfloat : CanonicalSegment.getFloatingPointSegment f ⟨⟨upperPoint epsilon k,
      lowerPoint epsilon k, upperPoint epsilon k, lowerPoint epsilon k⟩, k.1⟩ k.1 =
        (f.zero, (mid : Int)) := by
    rw [CanonicalSegment.getFloatingPointSegment, if_pos (by simp [CanonicalSegment.onePoint]),
      hmid]
  apply (@ofCanonical_ensures _ f _ (mid : ℚ) _ (Nat.cast_nonneg _) mid le_rfl (by omega)).mono
  · rintro segment ⟨hkey, hslope, hintercept⟩
    rw [hfloat] at hslope
    refine ⟨⟨0, mid⟩, by rw [hkey]; rfl, ?_, ?_, Or.inl ⟨hslope, rfl⟩⟩
    · intro b hb
      obtain rfl : b = bar epsilon k := by simpa [bars] using hb
      rw [Line.eval, zero_mul, zero_add]
      exact ⟨Nat.cast_le.mpr (by omega), Nat.cast_le.mpr (by omega)⟩
    · rw [Line.eval, zero_mul, zero_add]
      exact hintercept
  · rw [hfloat]
    simp

theorem Rising.sublist (h : Rising knots) (hsub : piece.Sublist knots) : Rising piece :=
  List.Pairwise.sublist hsub h

/-- Later knots have larger ranks. -/
theorem Rising.le {a b : Knot} (h : Rising knots) (ha : a ∈ knots) (hb : b ∈ knots)
    (hlt : a.1 < b.1) : a.2 ≤ b.2 := by
  obtain ⟨i, hi, rfl⟩ := List.mem_iff_getElem.mp ha
  obtain ⟨j, hj, rfl⟩ := List.mem_iff_getElem.mp hb
  rcases Nat.lt_trichotomy i j with hij | rfl | hji
  · exact (List.pairwise_iff_getElem.mp h i j hi hj hij).2
  · exact absurd hlt (lt_irrefl _)
  · exact absurd hlt (List.pairwise_iff_getElem.mp h j i hj hi hji).1.not_gt

/-- The steepest line does not fall. -/
theorem Hull.dy_nonneg (h : Hull epsilon knots opt) (hrising : Rising knots) :
    0 ≤ (opt.rectangle.r3.sub opt.rectangle.r1).dy := by
  obtain ⟨b, hb, hlow⟩ := h.steepest.low
  obtain ⟨c, hc, hhigh⟩ := h.steepest.high
  obtain ⟨k, hk, rfl⟩ := List.mem_map.mp hb
  obtain ⟨k', hk', rfl⟩ := List.mem_map.mp hc
  have hx1 := congrArg Prod.fst hlow
  have hx3 := congrArg Prod.fst hhigh
  have hy1 := congrArg Prod.snd hlow
  have hy3 := congrArg Prod.snd hhigh
  simp only [Bar.lowerEnd, Bar.upperEnd, bar, Point.plane, Nat.cast_inj] at hx1 hx3 hy1 hy3
  have hlt : k.1 < k'.1 := by
    rw [Fin.lt_def, hx1, hx3]
    exact h.r1_lt
  have hrank := Fin.le_def.mp (hrising.le hk hk' hlt)
  rw [val_minusEpsilon] at hy1
  rw [val_plusEpsilon] at hy3
  have hlt64 := k.2.isLt
  simp only [Point.sub]
  omega

/-- At the first key, the steepest line is not above all ranks: it touches a lower end. -/
theorem Hull.steep_le (h : Hull epsilon (k :: knots) opt) (hrising : Rising (k :: knots)) :
    ∃ k' ∈ k :: knots, opt.rectangle.steep.eval k.1.val ≤ k'.2.val := by
  obtain ⟨b, hb, hlow⟩ := h.steepest.low
  obtain ⟨k', hk', rfl⟩ := List.mem_map.mp hb
  refine ⟨k', hk', ?_⟩
  have hx := congrArg Prod.fst hlow
  have hy := congrArg Prod.snd hlow
  simp only [Bar.lowerEnd, bar, Point.plane, Nat.cast_inj] at hx hy
  have hle : (k.1.val : ℚ) ≤ opt.rectangle.r1.x.val := by
    rw [← hx]
    apply Nat.cast_le.mpr
    rcases List.mem_cons.mp hk' with rfl | hk'
    · exact le_rfl
    · exact (List.rel_of_pairwise_cons hrising hk').1.le
  have hleft : opt.rectangle.steep.eval opt.rectangle.r1.x.val = opt.rectangle.r1.y.val :=
    Line.eval_through_left h.steepest.lt.ne
  have hslope : 0 ≤ opt.rectangle.steep.slope := by
    have hvalue : opt.rectangle.steep.slope = (opt.rectangle.r3.sub opt.rectangle.r1).value :=
      (Point.value_sub _ _).symm
    rw [hvalue, Slope.value]
    exact div_nonneg (Int.cast_nonneg (h.dy_nonneg hrising))
      (Int.cast_nonneg (Point.sub_pos h.r1_lt).le)
  have hend : ((minusEpsilon epsilon k'.2).val : ℚ) ≤ k'.2.val := by
    rw [val_minusEpsilon]
    exact Nat.cast_le.mpr (Nat.sub_le _ _)
  rw [Line.eval_eq _ (k.1.val : ℚ) (opt.rectangle.r1.x.val : ℚ)] at hleft
  have hrise := mul_nonneg hslope (sub_nonneg.mpr hle)
  rw [hy] at hend
  linarith

/-- The line of two or more knots. -/
theorem Holding.draw_hull (h : Holding epsilon (k :: knots) opt) (hne : knots ≠ [])
    (hrising : Rising (k :: knots)) (hranks : ∀ k' ∈ k :: knots, k'.2.val < 2 ^ 32) :
    (orFail (Segment.ofCanonical f opt.getSegment)).Ensures fun segment =>
      ∃ l, Drawn f epsilon (k :: knots) segment l := by
  have hlen := List.length_pos_iff.mpr hne
  have hhull := h.hull (by rw [List.length_cons]; omega)
  have hfirst := h.first k rfl
  have hcs : opt.getSegment = ⟨opt.rectangle, k.1⟩ := by
    have hcount := h.count
    rw [List.length_cons] at hcount
    rw [getSegment, if_neg (by omega), hfirst]
  have hdx := Point.sub_pos hhull.r1_lt
  have hdy := hhull.dy_nonneg hrising
  have honePoint : CanonicalSegment.onePoint ⟨opt.rectangle, k.1⟩ = false := by
    have hne : opt.rectangle.r0 ≠ opt.rectangle.r2 := by
      intro heq
      have hlt := hhull.r0_lt
      rw [heq] at hlt
      exact absurd hlt (lt_irrefl _)
    simp [CanonicalSegment.onePoint, hne]
  have hfits := hhull.steepest.fits
  have hbar := hfits (bar epsilon k) (List.mem_map_of_mem List.mem_cons_self)
  have hvalue : opt.rectangle.steep.slope = (opt.rectangle.r3.sub opt.rectangle.r1).value :=
    (Point.value_sub _ _).symm
  rw [hcs]
  -- the value of the line at the first key
  have heval : opt.rectangle.steep.eval k.1.val =
      (((opt.rectangle.r3.sub opt.rectangle.r1).dy * (k.1.val - opt.rectangle.r1.x.val) : Int) : ℚ)
        / (opt.rectangle.r3.sub opt.rectangle.r1).dx + opt.rectangle.r1.y.val := by
    have hleft : opt.rectangle.steep.eval opt.rectangle.r1.x.val = opt.rectangle.r1.y.val :=
      Line.eval_through_left hhull.steepest.lt.ne
    rw [Line.eval_eq _ (opt.rectangle.r1.x.val : ℚ) (k.1.val : ℚ), hleft, hvalue, Slope.value]
    push_cast
    ring
  have hfloat : CanonicalSegment.getFloatingPointSegment f ⟨opt.rectangle, k.1⟩ k.1 =
      (f.ofSlope (opt.rectangle.r3.sub opt.rectangle.r1),
        roundedQuotient ((opt.rectangle.r3.sub opt.rectangle.r1).dy *
          (k.1.val - opt.rectangle.r1.x.val)) (opt.rectangle.r3.sub opt.rectangle.r1).dx +
            opt.rectangle.r1.y.val) := by
    rw [CanonicalSegment.getFloatingPointSegment, if_neg (by simp [honePoint])]
  obtain ⟨k', hk', hupper⟩ := hhull.steep_le hrising
  apply (ofCanonical_ensures (f := f) (y := opt.rectangle.steep.eval k.1.val) _
    ((Nat.cast_nonneg _).trans hbar.1) hupper (hranks k' hk')).mono
  · rintro segment ⟨hkey, hslope, hintercept⟩
    rw [hfloat] at hslope
    refine ⟨opt.rectangle.steep, by rw [hkey]; rfl, hfits, ?_, ?_⟩
    · rw [hkey]
      exact hintercept
    · exact Or.inr ⟨_, hdx, hdy, hslope, hvalue⟩
  · rw [hfloat, heval]
    push_cast
    rw [add_sub_add_right_eq_sub]
    have hround := abs_roundedQuotient_sub_le ((opt.rectangle.r3.sub opt.rectangle.r1).dy *
      (k.1.val - opt.rectangle.r1.x.val)) hdx
    push_cast at hround
    exact hround

/-- What the segment of the knots that the model holds is drawn for. -/
theorem Holding.draw (h : Holding epsilon (k :: knots) opt) (hrising : Rising (k :: knots))
    (hone : knots = [] → 2 * epsilon.val ≤ k.2.val)
    (hranks : ∀ k' ∈ k :: knots, k'.2.val < 2 ^ 32) :
    (orFail (Segment.ofCanonical f opt.getSegment)).Ensures fun segment =>
      ∃ l, Drawn f epsilon (k :: knots) segment l := by
  cases knots with
  | nil => exact h.draw_one (hone rfl) (hranks k List.mem_cons_self)
  | cons k' knots => exact h.draw_hull (List.cons_ne_nil k' knots) hrising hranks

/-! ## Predictions -/

namespace Drawn

variable {l : Line ℚ} {bound : ℚ} {x : Key}

theorem slope_nonneg (h : Drawn f epsilon piece segment l) : 0 ≤ l.slope := by
  rcases h.slope with ⟨_, hl⟩ | ⟨s, hdx, hdy, _, hl⟩
  · exact hl.ge
  · rw [hl, Slope.value]
    exact div_nonneg (Int.cast_nonneg hdy) (Int.cast_nonneg hdx.le)

/-- The product of the slope and a key difference. -/
theorem scale (h : Drawn f epsilon piece segment l) (hf : f.Accurate bound)
    (hx : l.slope * x.val ≤ bound) : l.slope * x.val - 3 / 2 < f.scale segment.slope x ∧
      f.scale segment.slope x < l.slope * x.val + 1 / 2 := by
  rcases h.slope with ⟨hzero, hl⟩ | ⟨s, hdx, hdy, hslope, hl⟩
  · rw [hzero, hl, hf.zero]
    norm_num
  · rw [hslope, hl]
    rw [hl] at hx
    exact hf.close s x hdx hdy hx

/-- The bar of a knot, up to the width of the type. -/
theorem knot (h : Drawn f epsilon piece segment l) (hk : k ∈ piece) :
    0 ≤ l.eval k.1.val ∧ (k.2.val : ℚ) - epsilon.val ≤ l.eval k.1.val ∧
      l.eval k.1.val ≤ k.2.val + epsilon.val := by
  obtain ⟨hlower, hupper⟩ := h.fits (bar epsilon k) (List.mem_map_of_mem hk)
  have hlow : ((minusEpsilon epsilon k.2).val : ℚ) ≤ l.eval k.1.val := hlower
  have hhigh : l.eval k.1.val ≤ (plusEpsilon epsilon k.2).val := hupper
  have hcut : k.2.val ≤ (minusEpsilon epsilon k.2).val + epsilon.val := by
    rw [val_minusEpsilon]
    omega
  have hcap : (plusEpsilon epsilon k.2).val ≤ k.2.val + epsilon.val := by
    rw [val_plusEpsilon]
    exact Nat.min_le_left _ _
  have hcutq : (k.2.val : ℚ) ≤ (minusEpsilon epsilon k.2).val + epsilon.val := by
    exact_mod_cast hcut
  have hcapq : ((plusEpsilon epsilon k.2).val : ℚ) ≤ k.2.val + epsilon.val := by
    exact_mod_cast hcap
  refine ⟨(Nat.cast_nonneg _).trans hlow, ?_, hhigh.trans hcapq⟩
  linarith

/-- The first knot. -/
theorem exists_head (h : Drawn f epsilon piece segment l) :
    ∃ k rest, piece = k :: rest ∧ segment.key = k.1 := by
  have hkey := h.key
  cases piece with
  | nil => cases hkey
  | cons k rest => exact ⟨k, rest, rfl, (Option.some.inj hkey).symm⟩

/-- The intercept is within the error of the first rank. -/
theorem intercept_near (h : Drawn f epsilon (k :: knots) segment l) :
    segment.intercept.val ≤ k.2.val + epsilon.val ∧
      k.2.val ≤ segment.intercept.val + epsilon.val := by
  obtain ⟨_, hlow, hhigh⟩ := h.knot List.mem_cons_self
  obtain ⟨hleft, hright⟩ := abs_le.mp h.intercept
  have hkey : segment.key = k.1 := (Option.some.inj h.key).symm
  rw [hkey] at hleft hright
  constructor
  · have hlt : (segment.intercept.val : ℚ) < (k.2.val + epsilon.val : Nat) + 1 := by
      push_cast
      linarith
    exact Nat.lt_add_one_iff.mp (by exact_mod_cast hlt)
  · have hlt : (k.2.val : ℚ) < (segment.intercept.val + epsilon.val : Nat) + 1 := by
      push_cast
      linarith
    exact Nat.lt_add_one_iff.mp (by exact_mod_cast hlt)

/-- The sum behind a prediction, before it wraps. -/
theorem sum (h : Drawn f epsilon piece segment l) (hf : f.Accurate bound) (hx : segment.key ≤ x)
    (hk : k ∈ piece) (hxk : x ≤ k.1) (hbound : (k.2.val : ℚ) + epsilon.val ≤ bound) :
    l.eval x.val - 2 < (f.scale segment.slope (x - segment.key) + segment.intercept.val : Nat) ∧
      ((f.scale segment.slope (x - segment.key) + segment.intercept.val : Nat) : ℚ) <
        l.eval x.val + 1 := by
  obtain ⟨first, rest, rfl, hkey⟩ := h.exists_head
  obtain ⟨hfirst, _, _⟩ := h.knot (List.mem_cons_self (a := first) (l := rest))
  obtain ⟨_, _, hhigh⟩ := h.knot hk
  obtain ⟨hleft, hright⟩ := abs_le.mp h.intercept
  have hdiff : (((x - segment.key).val : Nat) : ℚ) = x.val - segment.key.val := by
    rw [Fin.sub_val_of_le hx, Nat.cast_sub hx]
  have hline : l.eval x.val = l.eval segment.key.val + l.slope * (x - segment.key).val := by
    rw [hdiff, ← Line.eval_eq]
  have hend : l.eval x.val ≤ l.eval k.1.val := by
    have hxkq : (x.val : ℚ) ≤ k.1.val := Nat.cast_le.mpr hxk
    rw [Line.eval_eq l x.val k.1.val]
    linarith [mul_nonneg h.slope_nonneg (sub_nonneg.mpr hxkq)]
  rw [hkey] at hline hleft hright ⊢
  obtain ⟨hlow, hup⟩ := h.scale (x := x - first.1) hf (by linarith)
  push_cast
  constructor
  · linarith
  · linarith

/-- Up to a knot, the prediction is at most `epsilon` above its rank. -/
theorem position_le (h : Drawn f epsilon piece segment l) (hf : f.Accurate bound)
    (hx : segment.key ≤ x) (hk : k ∈ piece) (hxk : x ≤ k.1)
    (hbound : (k.2.val : ℚ) + epsilon.val ≤ bound) :
    segment.position f.toFloating x ≤ k.2.val + epsilon.val := by
  obtain ⟨_, hup⟩ := h.sum hf hx hk hxk hbound
  obtain ⟨_, _, hhigh⟩ := h.knot hk
  have hend : l.eval x.val ≤ l.eval k.1.val := by
    have hxkq : (x.val : ℚ) ≤ k.1.val := Nat.cast_le.mpr hxk
    rw [Line.eval_eq l x.val k.1.val]
    linarith [mul_nonneg h.slope_nonneg (sub_nonneg.mpr hxkq)]
  apply (Nat.mod_le _ _).trans
  have hlt : ((f.scale segment.slope (x - segment.key) + segment.intercept.val : Nat) : ℚ) <
      (k.2.val + epsilon.val : Nat) + 1 := by
    push_cast at hup ⊢
    linarith
  exact Nat.lt_add_one_iff.mp (by exact_mod_cast hlt)

/-- At a knot, the prediction is at most `epsilon + 1` below its rank. -/
theorem le_position (h : Drawn f epsilon piece segment l) (hf : f.Accurate bound)
    (hx : segment.key ≤ k.1) (hk : k ∈ piece) (hbound : (k.2.val : ℚ) + epsilon.val ≤ bound)
    (hsize : k.2.val + epsilon.val < 2 ^ 64) :
    k.2.val ≤ segment.position f.toFloating k.1 + epsilon.val + 1 := by
  obtain ⟨hlow, hup⟩ := h.sum hf hx hk le_rfl hbound
  obtain ⟨_, hfloor, hhigh⟩ := h.knot hk
  have hlt : ((f.scale segment.slope (k.1 - segment.key) + segment.intercept.val : Nat) : ℚ) <
      (k.2.val + epsilon.val : Nat) + 1 := by
    push_cast at hup ⊢
    linarith
  have hwrap : f.scale segment.slope (k.1 - segment.key) + segment.intercept.val < 2 ^ 64 :=
    lt_of_le_of_lt (Nat.lt_add_one_iff.mp (by exact_mod_cast hlt)) hsize
  have hge : (k.2.val : ℚ) <
      (f.scale segment.slope (k.1 - segment.key) + segment.intercept.val : Nat) +
        (epsilon.val : Nat) + 2 := by
    linarith
  rw [Segment.position, Nat.mod_eq_of_lt hwrap]
  have hge' : k.2.val < f.scale segment.slope (k.1 - segment.key) + segment.intercept.val +
      epsilon.val + 2 := by exact_mod_cast hge
  omega

end Drawn

end PGM
