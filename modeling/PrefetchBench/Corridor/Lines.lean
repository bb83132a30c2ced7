import Mathlib

/-!
# Lines through bars

A bar is a vertical segment of the plane, and a line fits bars when it meets all of them.  Among
the lines that fit, the steepest one rests on the lower end of a bar and is held down by the upper
end of a later one (`Steepest`); to the right of these it is above every other line that fits
(`Steepest.eval_le`).  The flattest line is its mirror image (`Flattest`).

So a bar to the right can be added if and only if its upper end is not below the flattest line, and
its lower end not above the steepest (`Steepest.fits_concat_iff`).  What becomes of the steepest
line then is said by `Steepest.keep` and `Steepest.turn`.
-/

namespace Corridor

section Points

variable {K : Type*} [Field K]

/-! ## Points and slopes -/

/-- A point, with its mirror image at the horizontal axis. -/
def mirror (p : K × K) : K × K := (p.1, -p.2)

@[simp] theorem mirror_fst (p : K × K) : (mirror p).1 = p.1 := rfl

@[simp] theorem mirror_snd (p : K × K) : (mirror p).2 = -p.2 := rfl

@[simp] theorem mirror_mirror (p : K × K) : mirror (mirror p) = p := by
  simp [mirror]

/-- The slope from a point to another one. -/
def slopeTo (p q : K × K) : K := (q.2 - p.2) / (q.1 - p.1)

@[simp] theorem slopeTo_mirror (p q : K × K) : slopeTo (mirror p) (mirror q) = -slopeTo p q := by
  rw [slopeTo, slopeTo, ← neg_div]
  simp only [mirror_fst, mirror_snd]
  ring_nf

/-! ## Lines -/

/-- A line that is not vertical. -/
@[ext] structure Line (K : Type*) where
  /-- Its slope. -/
  slope : K
  /-- Its value at zero. -/
  intercept : K

namespace Line

/-- The value of a line. -/
def eval (l : Line K) (x : K) : K := l.slope * x + l.intercept

/-- The line with a slope through a point. -/
def withSlope (s : K) (p : K × K) : Line K := ⟨s, p.2 - s * p.1⟩

/-- The line through two points. -/
def through (p q : K × K) : Line K := withSlope (slopeTo p q) q

/-- The mirror image of a line. -/
def mirrored (l : Line K) : Line K := ⟨-l.slope, -l.intercept⟩

variable {p q : K × K}

@[simp] theorem slope_withSlope (s : K) (p : K × K) : (withSlope s p).slope = s := rfl

@[simp] theorem slope_through (p q : K × K) : (through p q).slope = slopeTo p q := rfl

theorem eval_withSlope (s : K) (p : K × K) (x : K) :
    (withSlope s p).eval x = p.2 + s * (x - p.1) := by
  simp only [eval, withSlope]
  ring

/-- From one place to another. -/
theorem eval_eq (l : Line K) (x y : K) : l.eval y = l.eval x + l.slope * (y - x) := by
  simp only [eval]
  ring

@[simp] theorem eval_through_right (p q : K × K) : (through p q).eval q.1 = q.2 := by
  simp [through, eval_withSlope]

theorem eval_through_left (h : p.1 ≠ q.1) : (through p q).eval p.1 = p.2 := by
  have hrun : q.1 - p.1 ≠ 0 := sub_ne_zero.mpr h.symm
  rw [through, eval_withSlope, slopeTo]
  field_simp
  ring

@[simp] theorem eval_mirrored (l : Line K) (x : K) : l.mirrored.eval x = -l.eval x := by
  simp only [eval, mirrored]
  ring

@[simp] theorem through_mirror (p q : K × K) :
    through (mirror p) (mirror q) = (through p q).mirrored := by
  ext
  · simp [through, withSlope, mirrored]
  · simp [through, withSlope, mirrored]
    ring

@[simp] theorem mirrored_mirrored (l : Line K) : l.mirrored.mirrored = l := by
  simp [mirrored]

end Line

end Points

namespace Line

variable {K : Type*} [Field K] [LinearOrder K] [IsStrictOrderedRing K] {k l : Line K} {p q : K × K}
  {a b x y : K}

/-- A line that comes from below and ends above is the steeper one. -/
theorem slope_le_slope (hab : a < b) (ha : l.eval a ≤ k.eval a) (hb : k.eval b ≤ l.eval b) :
    k.slope ≤ l.slope := by
  have hk := eval_eq k a b
  have hl := eval_eq l a b
  have hmul : k.slope * (b - a) ≤ l.slope * (b - a) := by linarith
  exact le_of_mul_le_mul_right hmul (sub_pos.mpr hab)

/-- It is above from there on. -/
theorem eval_le_eval (hab : a < b) (ha : l.eval a ≤ k.eval a) (hb : k.eval b ≤ l.eval b)
    (hx : b ≤ x) : k.eval x ≤ l.eval x := by
  have hslope := slope_le_slope hab ha hb
  have hmul := mul_le_mul_of_nonneg_right hslope (sub_nonneg.mpr hx)
  rw [eval_eq k b x, eval_eq l b x]
  linarith

/-- And below on the other side. -/
theorem eval_le_eval_left (hab : a < b) (ha : l.eval a ≤ k.eval a) (hb : k.eval b ≤ l.eval b)
    (hx : x ≤ a) : l.eval x ≤ k.eval x := by
  have hslope := slope_le_slope hab ha hb
  have hmul := mul_le_mul_of_nonneg_right hslope (sub_nonneg.mpr hx)
  rw [eval_eq k x a] at ha
  rw [eval_eq l x a] at ha
  linarith

/-- A point is below the line through another one that is at least as flat as its own. -/
theorem le_eval_withSlope_iff (h : p.1 < q.1) (s : K) :
    p.2 ≤ (withSlope s q).eval p.1 ↔ s ≤ slopeTo p q := by
  have hrun : 0 < q.1 - p.1 := sub_pos.mpr h
  rw [eval_withSlope, slopeTo, le_div_iff₀ hrun]
  constructor
  · intro hle
    linarith
  · intro hle
    linarith

/-- A point is below a line when it is seen from a point of it at a smaller slope. -/
theorem slopeTo_lt_slope_iff (hp : l.eval p.1 = p.2) (h : p.1 < q.1) :
    slopeTo p q < l.slope ↔ q.2 < l.eval q.1 := by
  have hrun : 0 < q.1 - p.1 := sub_pos.mpr h
  rw [slopeTo, div_lt_iff₀ hrun, eval_eq l p.1 q.1, hp]
  constructor
  · intro hlt
    linarith
  · intro hlt
    linarith

/-- And above it when it is seen at a larger one. -/
theorem slope_lt_slopeTo_iff (hp : l.eval p.1 = p.2) (h : p.1 < q.1) :
    l.slope < slopeTo p q ↔ l.eval q.1 < q.2 := by
  have hrun : 0 < q.1 - p.1 := sub_pos.mpr h
  rw [slopeTo, lt_div_iff₀ hrun, eval_eq l p.1 q.1, hp]
  constructor
  · intro hlt
    linarith
  · intro hlt
    linarith

/-- Between two lines there is one through every point between them. -/
theorem exists_between (hy : k.eval x ≤ y) (hy' : y ≤ l.eval x) :
    ∃ t, 0 ≤ t ∧ t ≤ 1 ∧ t * k.eval x + (1 - t) * l.eval x = y := by
  rcases eq_or_lt_of_le (hy.trans hy') with heq | hlt
  · refine ⟨0, le_refl 0, zero_le_one, ?_⟩
    have hyl : y = l.eval x := le_antisymm hy' (heq ▸ hy)
    rw [hyl]
    ring
  · have hgap : 0 < l.eval x - k.eval x := sub_pos.mpr hlt
    refine ⟨(l.eval x - y) / (l.eval x - k.eval x), ?_, ?_, ?_⟩
    · exact div_nonneg (sub_nonneg.mpr hy') hgap.le
    · rw [div_le_one hgap]
      linarith
    · field_simp
      ring

end Line

/-! ## Bars -/

/-- A vertical segment of the plane. -/
structure Bar (K : Type*) [LE K] where
  /-- Where it stands. -/
  x : K
  /-- Its lower end. -/
  lower : K
  /-- Its upper end. -/
  upper : K
  /-- The lower end is not above the upper one. -/
  lower_le : lower ≤ upper

namespace Bar

section Ends

variable {K : Type*} [LE K]

/-- The lower end, as a point. -/
def lowerEnd (b : Bar K) : K × K := (b.x, b.lower)

/-- The upper end, as a point. -/
def upperEnd (b : Bar K) : K × K := (b.x, b.upper)

@[simp] theorem lowerEnd_fst (b : Bar K) : b.lowerEnd.1 = b.x := rfl

@[simp] theorem lowerEnd_snd (b : Bar K) : b.lowerEnd.2 = b.lower := rfl

@[simp] theorem upperEnd_fst (b : Bar K) : b.upperEnd.1 = b.x := rfl

@[simp] theorem upperEnd_snd (b : Bar K) : b.upperEnd.2 = b.upper := rfl

end Ends

variable {K : Type*} [Field K] [LinearOrder K] [IsStrictOrderedRing K]

/-- The mirror image of a bar. -/
def mirrored (b : Bar K) : Bar K := ⟨b.x, -b.upper, -b.lower, neg_le_neg b.lower_le⟩

@[simp] theorem x_mirrored (b : Bar K) : b.mirrored.x = b.x := rfl

@[simp] theorem lower_mirrored (b : Bar K) : b.mirrored.lower = -b.upper := rfl

@[simp] theorem upper_mirrored (b : Bar K) : b.mirrored.upper = -b.lower := rfl

@[simp] theorem lowerEnd_mirrored (b : Bar K) : b.mirrored.lowerEnd = mirror b.upperEnd := rfl

@[simp] theorem upperEnd_mirrored (b : Bar K) : b.mirrored.upperEnd = mirror b.lowerEnd := rfl

end Bar

variable {K : Type*} [Field K] [LinearOrder K] [IsStrictOrderedRing K]

/-- A line meets all bars. -/
def Line.Fits (l : Line K) (bars : List (Bar K)) : Prop :=
  ∀ b ∈ bars, b.lower ≤ l.eval b.x ∧ l.eval b.x ≤ b.upper

/-- Some line meets all bars. -/
def Feasible (bars : List (Bar K)) : Prop := ∃ l : Line K, l.Fits bars

/-- All bars are to the left of a place. -/
def LeftOf (bars : List (Bar K)) (x : K) : Prop := ∀ b ∈ bars, b.x < x

section Fits

variable {k l : Line K} {bars : List (Bar K)} {b : Bar K} {x y : K}

omit [IsStrictOrderedRing K] in
theorem Line.fits_concat :
    l.Fits (bars ++ [b]) ↔ l.Fits bars ∧ b.lower ≤ l.eval b.x ∧ l.eval b.x ≤ b.upper := by
  rw [Fits, List.forall_mem_append, List.forall_mem_singleton]
  rfl

@[simp] theorem Line.fits_mirrored : l.mirrored.Fits (bars.map Bar.mirrored) ↔ l.Fits bars := by
  simp [Fits, and_comm]

theorem LeftOf.mirrored (h : LeftOf bars x) : LeftOf (bars.map Bar.mirrored) x := by
  simpa [LeftOf] using h

omit [IsStrictOrderedRing K] in
/-- Fewer bars are met by the same line. -/
theorem Feasible.mono {bars' : List (Bar K)} (h : Feasible bars) (hsub : bars' ⊆ bars) :
    Feasible bars' := by
  obtain ⟨l, hl⟩ := h
  exact ⟨l, fun b hb => hl b (hsub hb)⟩

/-- Between two lines that fit, a line through every point between them fits. -/
theorem Line.Fits.between (hk : k.Fits bars) (hl : l.Fits bars) (hy : k.eval x ≤ y)
    (hy' : y ≤ l.eval x) : ∃ m : Line K, m.Fits bars ∧ m.eval x = y := by
  obtain ⟨t, h0, h1, ht⟩ := exists_between hy hy'
  refine ⟨⟨t * k.slope + (1 - t) * l.slope, t * k.intercept + (1 - t) * l.intercept⟩, ?_, ?_⟩
  · intro b hb
    obtain ⟨hk1, hk2⟩ := hk b hb
    obtain ⟨hl1, hl2⟩ := hl b hb
    have heval : (⟨t * k.slope + (1 - t) * l.slope, t * k.intercept + (1 - t) * l.intercept⟩ :
        Line K).eval b.x = t * k.eval b.x + (1 - t) * l.eval b.x := by
      simp only [eval]
      ring
    have h1' : 0 ≤ 1 - t := sub_nonneg.mpr h1
    rw [heval]
    constructor
    · nlinarith
    · nlinarith
  · rw [← ht]
    simp only [eval]
    ring

end Fits

/-! ## The steepest and the flattest line -/

/-- The line through `p` and `q` fits, and rests on the lower end `p` of a bar and under the upper
end `q` of a later one: it is the steepest line that fits. -/
structure Steepest (bars : List (Bar K)) (p q : K × K) : Prop where
  /-- The lower end. -/
  low : ∃ b ∈ bars, b.lowerEnd = p
  /-- The upper end. -/
  high : ∃ b ∈ bars, b.upperEnd = q
  /-- Their order. -/
  lt : p.1 < q.1
  /-- The line fits. -/
  fits : (Line.through p q).Fits bars

/-- The line through the upper end `p` and the later lower end `q` is the flattest one that fits. -/
def Flattest (bars : List (Bar K)) (p q : K × K) : Prop :=
  Steepest (bars.map Bar.mirrored) (mirror p) (mirror q)

section Extreme

variable {bars : List (Bar K)} {p q p' q' v : K × K} {k : Line K} {b : Bar K} {x : K}

theorem Steepest.slope_le (h : Steepest bars p q) (hk : k.Fits bars) :
    k.slope ≤ (Line.through p q).slope := by
  obtain ⟨b, hb, rfl⟩ := h.low
  obtain ⟨c, hc, rfl⟩ := h.high
  apply Line.slope_le_slope h.lt
  · rw [Line.eval_through_left h.lt.ne]
    exact (hk b hb).1
  · rw [Line.eval_through_right]
    exact (hk c hc).2

/-- To the right of the bars, no line that fits is above the steepest one. -/
theorem Steepest.eval_le (h : Steepest bars p q) (hk : k.Fits bars) (hx : LeftOf bars x) :
    k.eval x ≤ (Line.through p q).eval x := by
  obtain ⟨b, hb, rfl⟩ := h.low
  obtain ⟨c, hc, rfl⟩ := h.high
  apply Line.eval_le_eval h.lt _ _ (hx c hc).le
  · rw [Line.eval_through_left h.lt.ne]
    exact (hk b hb).1
  · rw [Line.eval_through_right]
    exact (hk c hc).2

theorem Flattest.fits (h : Flattest bars p q) : (Line.through p q).Fits bars := by
  have hfits := Steepest.fits h
  rwa [Line.through_mirror, Line.fits_mirrored] at hfits

theorem Flattest.lt (h : Flattest bars p q) : p.1 < q.1 := by
  have hs : Steepest (bars.map Bar.mirrored) (mirror p) (mirror q) := h
  exact hs.lt

theorem Flattest.le_slope (h : Flattest bars p q) (hk : k.Fits bars) :
    (Line.through p q).slope ≤ k.slope := by
  have hle := Steepest.slope_le h (Line.fits_mirrored.mpr hk)
  rw [Line.through_mirror] at hle
  exact neg_le_neg_iff.mp hle

/-- To the right of the bars, no line that fits is below the flattest one. -/
theorem Flattest.le_eval (h : Flattest bars p q) (hk : k.Fits bars) (hx : LeftOf bars x) :
    (Line.through p q).eval x ≤ k.eval x := by
  have hle := Steepest.eval_le h (Line.fits_mirrored.mpr hk) hx.mirrored
  rw [Line.through_mirror, Line.eval_mirrored, Line.eval_mirrored] at hle
  exact neg_le_neg_iff.mp hle

theorem Steepest.mirrored (h : Steepest bars p q) :
    Flattest (bars.map Bar.mirrored) (mirror p) (mirror q) := by
  have hbars : (bars.map Bar.mirrored).map Bar.mirrored = bars := by
    rw [List.map_map, List.map_congr_left (g := id)]
    · simp
    · intro b _
      simp [Bar.mirrored]
  rw [Flattest, hbars, mirror_mirror, mirror_mirror]
  exact h

/-- A bar to the right can be added exactly when it is not below the flattest line and not above
the steepest one. -/
theorem Steepest.fits_concat_iff (hs : Steepest bars p q) (hf : Flattest bars p' q')
    (hb : LeftOf bars b.x) : Feasible (bars ++ [b]) ↔
      (Line.through p' q').eval b.x ≤ b.upper ∧ b.lower ≤ (Line.through p q).eval b.x := by
  constructor
  · rintro ⟨k, hk⟩
    obtain ⟨hfits, hlower, hupper⟩ := Line.fits_concat.mp hk
    exact ⟨(hf.le_eval hfits hb).trans hupper, hlower.trans (hs.eval_le hfits hb)⟩
  · rintro ⟨hupper, hlower⟩
    -- a point of the bar between the two lines
    have hlines := hf.le_eval hs.fits hb
    obtain ⟨k, hk, heval⟩ := hf.fits.between hs.fits
      (le_max_left ((Line.through p' q').eval b.x) b.lower) (max_le hlines hlower)
    refine ⟨k, Line.fits_concat.mpr ⟨hk, ?_, ?_⟩⟩
    · rw [heval]
      exact le_max_right _ _
    · rw [heval]
      exact max_le hupper b.lower_le

omit [IsStrictOrderedRing K] in
/-- The steepest line that meets the new bar stays the steepest. -/
theorem Steepest.keep (h : Steepest bars p q) (hlower : b.lower ≤ (Line.through p q).eval b.x)
    (hupper : (Line.through p q).eval b.x ≤ b.upper) : Steepest (bars ++ [b]) p q where
  low := by
    obtain ⟨c, hc, hp⟩ := h.low
    exact ⟨c, List.mem_append_left _ hc, hp⟩
  high := by
    obtain ⟨c, hc, hq⟩ := h.high
    exact ⟨c, List.mem_append_left _ hc, hq⟩
  lt := h.lt
  fits := Line.fits_concat.mpr ⟨h.fits, hlower, hupper⟩

/-- A new bar that ends below the steepest line turns it down: to the line through its upper end
and the lower end from where it is seen at the smallest slope. -/
theorem Steepest.turn (hs : Steepest bars p q) (hf : Flattest bars p' q')
    (hb : LeftOf bars b.x) (hupper : (Line.through p' q').eval b.x ≤ b.upper)
    (hbelow : b.upper ≤ (Line.through p q).eval b.x) (hv : ∃ c ∈ bars, c.lowerEnd = v)
    (hmin : ∀ c ∈ bars, slopeTo v b.upperEnd ≤ slopeTo c.lowerEnd b.upperEnd) :
    Steepest (bars ++ [b]) v b.upperEnd := by
  obtain ⟨c, hc, rfl⟩ := hv
  -- some line that fits goes through the upper end, and it is not steeper
  obtain ⟨k, hk, heval⟩ := hf.fits.between hs.fits hupper hbelow
  have hslope : k.slope ≤ slopeTo c.lowerEnd b.upperEnd := by
    have hle : k.eval c.x = (Line.withSlope k.slope b.upperEnd).eval c.x := by
      rw [Line.eval_withSlope, Line.eval_eq k b.x c.x, heval]
      rfl
    apply (Line.le_eval_withSlope_iff (hb c hc) _).mp
    rw [Bar.lowerEnd_fst, Bar.lowerEnd_snd, ← hle]
    exact (hk c hc).1
  refine ⟨⟨c, List.mem_append_left _ hc, rfl⟩, ⟨b, by simp, rfl⟩, hb c hc, ?_⟩
  refine Line.fits_concat.mpr ⟨?_, ?_, ?_⟩
  · intro d hd
    have hdx := hb d hd
    constructor
    · exact (Line.le_eval_withSlope_iff (q := b.upperEnd) (p := d.lowerEnd) hdx _).mpr (hmin d hd)
    · refine le_trans ?_ (hk d hd).2
      have hmul := mul_le_mul_of_nonneg_right hslope (sub_nonneg.mpr hdx.le)
      rw [Line.through, Line.eval_withSlope, Line.eval_eq k b.x d.x, heval]
      simp only [Bar.upperEnd_fst, Bar.upperEnd_snd]
      linarith
  · exact b.lower_le.trans (Line.eval_through_right _ b.upperEnd).ge
  · exact (Line.eval_through_right _ b.upperEnd).le

omit [IsStrictOrderedRing K] in
/-- Two bars: the diagonals. -/
theorem Steepest.pair {a b : Bar K} (h : a.x < b.x) :
    Steepest [a, b] a.lowerEnd b.upperEnd where
  low := ⟨a, by simp, rfl⟩
  high := ⟨b, by simp, rfl⟩
  lt := h
  fits := by
    have ha : (Line.through a.lowerEnd b.upperEnd).eval a.x = a.lower :=
      Line.eval_through_left (p := a.lowerEnd) (q := b.upperEnd) h.ne
    have hb : (Line.through a.lowerEnd b.upperEnd).eval b.x = b.upper :=
      Line.eval_through_right a.lowerEnd b.upperEnd
    simp [Line.Fits, ha, hb, a.lower_le, b.lower_le]

end Extreme

end Corridor
