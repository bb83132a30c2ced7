import PrefetchBench.PGM.Hulls

/-!
# Adding a point

What the model knows of two or more points (`Hull`): its rectangle has the steepest and the flattest
line through their bars, and its two hulls are roofs.  A point is taken if and only if some line
still passes through all bars, and then the model knows the same of one point more
(`Hull.extend`).

The two lines are updated in the same way, one after the other, with the two hulls mirrored
(`View.turn`, `View.push`).  The second search may see the point that the first update has put at
the end of the hull, but it never gets there, as long as the two ends of a bar are not the same
point (`View.valley_of_trimmed`).
-/

namespace PGM

open Prog Corridor OptimalPiecewiseLinearModel

/-! ## One hull -/

namespace View

variable {V : View} {B : List (Bar ℚ)} {b : Bar ℚ} {l l' m m' : Line ℚ} {hull : List Point}
  {start e i j : Nat} {p c v low : Point}

/-- The points of a roof are left of a new key. -/
theorem lt_of_getElem? (h : Roof B l m (V.chain hull start)) (hB : LeftOf B (p.x.val : ℚ))
    (hi : start ≤ i) (hv : hull[i]? = some v) : v.x < p.x := by
  have hmem : V.of v ∈ V.chain hull start := by
    apply List.mem_of_getElem? (i := i - start)
    rw [V.getElem?_chain, show start + (i - start) = i by omega, hv]
    rfl
  have hlt := h.fst_lt hB hmem
  rw [V.fst] at hlt
  exact Fin.lt_def.mpr (Nat.cast_lt.mp hlt)

/-- From left to right. -/
theorem lt_of_succ (h : Roof B l m (V.chain hull start)) (hi : start ≤ i)
    (hv : hull[i]? = some v) (hc : hull[i + 1]? = some c) : v.x < c.x := by
  have hlt := h.isChain.fst_lt (i := i - start) (j := i + 1 - start) (v := V.of v) (w := V.of c)
    (by omega) (by rw [V.getElem?_chain, show start + (i - start) = i by omega, hv]; rfl)
    (by rw [V.getElem?_chain, show start + (i + 1 - start) = i + 1 by omega, hc]; rfl)
  rw [V.fst, V.fst] at hlt
  exact Fin.lt_def.mpr (Nat.cast_lt.mp hlt)

theorem start_lt (h : Roof B l m (V.chain hull start)) : start < hull.length := by
  obtain ⟨w, hw, _⟩ := h.rests
  rw [V.getElem?_chain, Option.map_eq_some_iff] at hw
  obtain ⟨v, hv, _⟩ := hw
  exact (List.getElem?_eq_some_iff.mp hv).1

theorem chain_drop (V : View) (hull : List Point) (hj : start ≤ j) :
    (V.chain hull start).drop (j - start) = V.chain hull j := by
  rw [chain, chain, ← List.map_drop, List.drop_drop, show start + (j - start) = j by omega]

theorem chain_take_concat (V : View) (p : Point) (hlt : start < e) (hle : e ≤ hull.length) :
    V.chain (hull.take e ++ [p]) start = (V.chain hull start).take (e - start) ++ [V.of p] := by
  have hlen : start ≤ (hull.take e).length := by
    rw [List.length_take, min_eq_left hle]
    exact hlt.le
  rw [chain, chain, List.drop_append_of_le_length hlen, List.map_append, ← List.map_take,
    List.drop_take]
  rfl

/-- The search finds where the new line rests, and what is behind is the roof of the new line. -/
theorem turn (h : Roof B l m (V.chain hull start)) (hB : LeftOf B (p.x.val : ℚ))
    (hm : m.eval p.x.val ≤ (V.of p).2) (hl : (V.of p).2 ≤ l.eval p.x.val)
    (hj : Valley V.worse hull start p j) (hlow : hull[j]? = some low) :
    (∃ b ∈ B, b.lowerEnd = V.of low) ∧
      (∀ b ∈ B, slopeTo (V.of low) (V.of p) ≤ slopeTo b.lowerEnd (V.of p)) ∧
      ∀ l' : Line ℚ, l'.Fits B → l'.eval (V.of low).1 = (V.of low).2 →
        (∀ x, LeftOf B x → l'.eval x ≤ l.eval x) → Roof B l' m (V.chain hull j) := by
  have hget : (V.chain hull start)[j - start]? = some (V.of low) := by
    rw [V.getElem?_chain, show start + (j - start) = j by have := hj.start_le; omega, hlow]
    rfl
  refine ⟨h.ends _ (List.mem_of_getElem? hget), ?_, ?_⟩
  · apply h.tangent (j := j - start) (q := V.of p) (by rw [V.fst]; exact hB)
      (by rw [V.fst]; exact hm) (by rw [V.fst]; exact hl) hget
    · intro i a b hi ha hb
      rw [V.getElem?_chain, Option.map_eq_some_iff] at ha hb
      obtain ⟨a, ha, rfl⟩ := ha
      obtain ⟨b, hb, rfl⟩ := hb
      have hfall := hj.fall (start + i) a b (by omega) (by omega) ha hb
      have hax := lt_of_getElem? h hB (by omega) ha
      have hbx := lt_of_getElem? h hB (by omega) hb
      rw [← Bool.not_eq_true, V.worse_iff hbx hax] at hfall
      exact not_lt.mp hfall
    · intro w hw
      have hstart := hj.start_le
      rw [V.getElem?_chain, show start + (j - start + 1) = j + 1 by omega,
        Option.map_eq_some_iff] at hw
      obtain ⟨b, hb, rfl⟩ := hw
      have hax := lt_of_getElem? h hB hstart hlow
      have hbx := lt_of_getElem? h hB (by omega) hb
      exact (V.worse_iff hbx hax).mp (hj.rise low b hlow hb)
  · intro l' hfits hrest hle
    rw [← V.chain_drop hull hj.start_le]
    exact h.turn hfits hget hrest hle

/-- The end of the hull is cut, and the new point comes behind it. -/
theorem push (h : Roof B l m (V.chain hull start)) (hB : LeftOf B (p.x.val : ℚ))
    (he : Trimmed V.pops hull start p e) (hb : b.lowerEnd = V.of p)
    (hle : ∀ x, b.x < x → m.eval x ≤ m'.eval x) :
    Roof (B ++ [b]) l m' (V.chain (hull.take e ++ [p]) start) := by
  have hbx : b.x = p.x.val := by rw [← b.lowerEnd_fst, hb, V.fst]
  have hlt := he.lt
  have hlen := he.le
  have hlength : (V.chain hull start).length = hull.length - start := by
    rw [chain, List.length_map, List.length_drop]
  rw [V.chain_take_concat p hlt hlen, ← hb]
  apply h.push (by rw [hbx]; exact hB) hle (by omega) (by omega)
  · intro i a c ha hc hi
    rw [V.getElem?_chain, Option.map_eq_some_iff] at ha hc
    obtain ⟨a, ha, rfl⟩ := ha
    obtain ⟨c, hc, rfl⟩ := hc
    have hax := lt_of_getElem? h hB (by omega) ha
    have hac := lt_of_succ h (Nat.le_add_right start i) ha hc
    have hstop := he.stop a c (by omega)
      (by rw [show e - 2 = start + i by omega]; exact ha)
      (by rw [show e - 1 = start + (i + 1) by omega]; exact hc)
    rw [← Bool.not_eq_true, V.pops_iff hac hax] at hstop
    rw [hb]
    exact not_le.mp hstop
  · rw [hb]
    apply Chain.popped_of_steps h.isChain _ (by omega) (by omega)
    · intro i a c hi ha hc
      rw [V.getElem?_chain, Option.map_eq_some_iff] at ha hc
      obtain ⟨a, ha, rfl⟩ := ha
      obtain ⟨c, hc, rfl⟩ := hc
      have hax := lt_of_getElem? h hB (by omega) ha
      have hac := lt_of_succ h (Nat.le_add_right start i) ha hc
      exact (V.pops_iff hac hax).mp (he.steps (start + i) a c (by omega) ha hc)
    · intro v hv
      rw [V.fst]
      exact h.fst_lt hB hv

/-- The search over the new end of the hull ends in front of the point that was added there. -/
theorem valley_of_trimmed (h : Roof B l m (V.chain hull start)) (hB : LeftOf B (p.x.val : ℚ))
    (he : Trimmed V.pops hull start c e) (hx : c.x = p.x) (habove : (V.of c).2 < (V.of p).2)
    (hj : Valley V.worse (hull.take e ++ [c]) start p j) :
    Valley V.worse hull start p j ∧ j < e := by
  have hlt := he.lt
  have hlen := he.le
  have hstart := hj.start_le
  have hget : ∀ i, i < e → (hull.take e ++ [c])[i]? = hull[i]? := by
    intro i hi
    rw [List.getElem?_append_left (by rw [List.length_take]; omega), List.getElem?_take_of_lt hi]
  have hlast : (hull.take e ++ [c])[e]? = some c := by
    have hlength : (hull.take e).length = e := by rw [List.length_take, min_eq_left hlen]
    calc (hull.take e ++ [c])[e]? = (hull.take e ++ [c])[(hull.take e).length]? := by rw [hlength]
      _ = some c := List.getElem?_concat_length
  obtain ⟨a, ha⟩ := KeyArray.exists_getElem? hull (i := e - 1) (by omega)
  have hax := lt_of_getElem? h hB (by omega) ha
  have hje : j < e := by
    by_contra hnot
    have hjlen := hj.lt
    rw [List.length_append, List.length_take, List.length_singleton] at hjlen
    have hfall := hj.fall (e - 1) a c (by omega) (by omega) (by rw [hget _ (by omega)]; exact ha)
      (by rw [show e - 1 + 1 = e by omega]; exact hlast)
    rw [V.worse_above hax hx habove] at hfall
    cases hfall
  refine ⟨⟨hstart, by omega, ?_, ?_⟩, hje⟩
  · intro i u w hi hij hu hw
    apply hj.fall i u w hi hij
    · rw [hget i (by omega)]
      exact hu
    · rw [hget (i + 1) (by omega)]
      exact hw
  · intro u w hu hw
    have hux := lt_of_getElem? h hB hstart hu
    have hwx := lt_of_getElem? h hB (by omega) hw
    rcases Nat.lt_or_ge (j + 1) e with hin | hout
    · apply hj.rise u w
      · rw [hget j hje]
        exact hu
      · rw [hget (j + 1) hin]
        exact hw
    · -- the point behind was popped, and so it is not above the line to the new one
      have huw := lt_of_succ h hstart hu hw
      have hpops := he.steps j u w (by omega) hu hw
      rw [V.pops_iff huw (by rw [hx]; exact hux)] at hpops
      apply (V.worse_iff hwx hux).mpr
      apply slopeTo_lt_of_above (V.of_lt huw) (V.of_lt (by rw [hx]; exact hwx)) hpops _ habove
      rw [V.fst, V.fst, hx]

/-- The line that is turned to the new bar, and the roof behind where it rests. -/
theorem turned {low high low' high' : ℚ × ℚ} (hs : Steepest B low high)
    (hf : Flattest B low' high')
    (h : Roof B (.through low high) (.through low' high') (V.chain hull start))
    (hB : LeftOf B b.x) (hb : b.upperEnd = V.of p)
    (hupper : (Line.through low' high').eval b.x ≤ b.upper)
    (hbelow : b.upper ≤ (Line.through low high).eval b.x)
    (hj : Valley V.worse hull start p j) (hv : hull[j]? = some v) :
    Steepest (B ++ [b]) (V.of v) (V.of p) ∧
      Roof B (.through (V.of v) (V.of p)) (.through low' high') (V.chain hull j) := by
  have hx : b.x = p.x.val := by rw [← b.upperEnd_fst, hb, V.fst]
  have hp : (V.of p).2 = b.upper := by rw [← hb, b.upperEnd_snd]
  obtain ⟨hend, hmin, hroof⟩ := V.turn h (by rw [← hx]; exact hB) (by rw [hp, ← hx]; exact hupper)
    (by rw [hp, ← hx]; exact hbelow) hj hv
  rw [← hb] at hmin ⊢
  have hnew := hs.turn hf hB hupper hbelow hend hmin
  have hfits := (Line.fits_concat.mp hnew.fits).1
  refine ⟨hnew, hroof _ hfits (Line.eval_through_left hnew.lt.ne) ?_⟩
  intro x hx
  exact hs.eval_le hfits hx

/-- What becomes of a hull at its end: the new point comes behind a cut, or it is hidden by the line
on the other side, which stays. -/
inductive Ended (V : View) (hull : List Point) (start : Nat) (p : Point) (m : Line ℚ) :
    List Point → Line ℚ → Prop
  /-- The point is not above the line. -/
  | hidden (h : (V.of p).2 ≤ m.eval p.x.val) : Ended V hull start p m hull m
  /-- The point is the last one of the hull. -/
  | cut (m' : Line ℚ) {e : Nat} (he : Trimmed V.pops hull start p e) :
      Ended V hull start p m (hull.take e ++ [p]) m'

/-- The roof of one bar more. -/
theorem ended {low' high' : ℚ × ℚ} {hull' : List Point} (hf : Flattest B low' high')
    (h : Roof B l (.through low' high') (V.chain hull start)) (hB : LeftOf B b.x)
    (hb : b.lowerEnd = V.of p) (hm : m'.Fits B)
    (hend : V.Ended hull start p (.through low' high') hull' m') :
    Roof (B ++ [b]) l m' (V.chain hull' start) := by
  have hx : b.x = p.x.val := by rw [← b.lowerEnd_fst, hb, V.fst]
  cases hend with
  | hidden hle =>
      apply h.skip hB
      · rw [hx, ← b.lowerEnd_snd, hb]
        exact hle
      · obtain ⟨c, hc, hrest⟩ := Steepest.high hf
        obtain ⟨d, hd, rfl⟩ := List.mem_map.mp hc
        rw [Bar.upperEnd_mirrored] at hrest
        have hd' : d.lowerEnd = high' := by rw [← mirror_mirror d.lowerEnd, hrest, mirror_mirror]
        refine ⟨d, hd, ?_⟩
        rw [← hd']
        exact Line.eval_through_right _ d.lowerEnd
  | cut _ he =>
      apply V.push h (by rw [← hx]; exact hB) he hb
      intro x hlt
      exact hf.le_eval hm fun c hc => (hB c hc).trans hlt

theorem Ended.start_lt {hull' : List Point} (hend : V.Ended hull start c m hull' m')
    (hstart : start < hull.length) : start < hull'.length := by
  cases hend with
  | hidden _ => exact hstart
  | cut _ he =>
      have hlt := he.lt
      have hle := he.le
      rw [List.length_append, List.length_take]
      omega

/-- The search over such a hull ends where it does without the new point. -/
theorem Ended.valley {hull' : List Point} (hend : V.Ended hull start c m hull' m')
    (h : Roof B l m (V.chain hull start)) (hB : LeftOf B (p.x.val : ℚ)) (hx : c.x = p.x)
    (habove : (V.of c).2 < (V.of p).2) (hj : Valley V.worse hull' start p j) :
    Valley V.worse hull start p j ∧ hull'[j]? = hull[j]? ∧ V.Ended hull j c m hull' m' := by
  cases hend with
  | hidden hle => exact ⟨hj, rfl, .hidden hle⟩
  | cut _ he =>
      obtain ⟨hvalley, hlt⟩ := valley_of_trimmed h hB he hx habove hj
      have hlen := he.le
      refine ⟨hvalley, ?_, .cut _ (he.mono hj.start_le hlt)⟩
      rw [List.getElem?_append_left (by rw [List.length_take]; omega),
        List.getElem?_take_of_lt hlt]

end View

/-! ## Both hulls -/

/-- The line of the largest slope. -/
def Rectangle.steep (r : Rectangle) : Line ℚ := Line.through r.r1.plane r.r3.plane

/-- The line of the smallest slope. -/
def Rectangle.flat (r : Rectangle) : Line ℚ := Line.through r.r0.plane r.r2.plane

/-- What the model knows of two or more knots. -/
structure Hull (epsilon : Size) (knots : List Knot) (opt : OptimalPiecewiseLinearModel) :
    Prop where
  /-- The line of the largest slope. -/
  steepest : Steepest (bars epsilon knots) opt.rectangle.r1.plane opt.rectangle.r3.plane
  /-- The line of the smallest slope. -/
  flattest : Flattest (bars epsilon knots) opt.rectangle.r0.plane opt.rectangle.r2.plane
  /-- The lower hull. -/
  lower : Roof (bars epsilon knots) opt.rectangle.steep opt.rectangle.flat
    (View.plain.chain opt.lower opt.lowerStart)
  /-- The upper hull. -/
  upper : Roof ((bars epsilon knots).map Bar.mirrored) opt.rectangle.flat.mirrored
    opt.rectangle.steep.mirrored (View.reflected.chain opt.upper opt.upperStart)

namespace Rectangle

variable {a p q u : Point}

/-- The comparison of slopes that asks whether a point is below a line. -/
theorem lt_line_iff (hpq : p.x < q.x) (hu : u = p ∨ u = q) (ha : u.x < a.x) :
    (a.sub u).lt (q.sub p) = true ↔
      (a.y.val : ℚ) < (Line.through p.plane q.plane).eval a.x.val := by
  rw [Slope.lt_sub_iff ha hpq]
  apply Line.slopeTo_lt_slope_iff (l := .through p.plane q.plane) _ (Point.plane_lt ha)
  cases hu with
  | inl h => rw [h, Line.eval_through_left (Point.plane_lt hpq).ne]
  | inr h => rw [h, Line.eval_through_right]

/-- And whether it is above the line. -/
theorem line_lt_iff (hpq : p.x < q.x) (hu : u = p ∨ u = q) (ha : u.x < a.x) :
    (a.sub u).gt (q.sub p) = true ↔ (Line.through p.plane q.plane).eval a.x.val < a.y.val := by
  rw [Slope.gt_eq_lt, Slope.lt_sub_iff hpq ha]
  apply Line.slope_lt_slopeTo_iff (l := .through p.plane q.plane) _ (Point.plane_lt ha)
  cases hu with
  | inl h => rw [h, Line.eval_through_left (Point.plane_lt hpq).ne]
  | inr h => rw [h, Line.eval_through_right]

end Rectangle

/-- What the first update leaves: the line of the largest slope is the new one, and the lower hull
starts where it rests. -/
structure Turned (epsilon : Size) (knots : List Knot) (k : Knot)
    (opt opt1 : OptimalPiecewiseLinearModel) : Prop where
  /-- The new line of the largest slope. -/
  steepest : Steepest (bars epsilon (knots ++ [k])) opt1.rectangle.r1.plane
    opt1.rectangle.r3.plane
  /-- The lower hull, without the new point. -/
  lower : Roof (bars epsilon knots) opt1.rectangle.steep opt.rectangle.flat
    (View.plain.chain opt.lower opt1.lowerStart)
  /-- The end of the upper hull. -/
  ended : View.reflected.Ended opt.upper opt.upperStart (upperPoint epsilon k)
    opt.rectangle.steep.mirrored opt1.upper opt1.rectangle.steep.mirrored
  /-- All else stays. -/
  eq : opt1 = { opt with
    rectangle := { opt.rectangle with r1 := opt1.rectangle.r1, r3 := opt1.rectangle.r3 }
    lowerStart := opt1.lowerStart
    upper := opt1.upper }

namespace Hull

variable {epsilon : Size} {knots : List Knot} {k : Knot} {opt opt1 : OptimalPiecewiseLinearModel}

theorem r1_lt (h : Hull epsilon knots opt) : opt.rectangle.r1.x < opt.rectangle.r3.x := by
  have hlt := h.steepest.lt
  simpa using hlt

theorem r0_lt (h : Hull epsilon knots opt) : opt.rectangle.r0.x < opt.rectangle.r2.x := by
  have hlt := h.flattest.lt
  simpa using hlt

theorem r3_lt (h : Hull epsilon knots opt) (hk : ∀ k' ∈ knots, k'.1 < k.1) :
    opt.rectangle.r3.x < k.1 := by
  obtain ⟨b, hb, hend⟩ := h.steepest.high
  have hlt := leftOf_bars hk b hb
  rw [← b.upperEnd_fst, hend] at hlt
  simpa using hlt

theorem r2_lt (h : Hull epsilon knots opt) (hk : ∀ k' ∈ knots, k'.1 < k.1) :
    opt.rectangle.r2.x < k.1 := by
  obtain ⟨b, hb, hend⟩ := Steepest.high h.flattest
  have hlt := (leftOf_bars hk).mirrored b hb
  rw [← b.upperEnd_fst, hend] at hlt
  simpa using hlt

/-- A line through the old bars and the new one exists, unless the new one is outside of the two
lines. -/
theorem feasible_iff (h : Hull epsilon knots opt) (hk : ∀ k' ∈ knots, k'.1 < k.1) :
    Feasible (bars epsilon (knots ++ [k])) ↔
      opt.rectangle.flat.eval k.1.val ≤ (upperPoint epsilon k).y.val ∧
        ((lowerPoint epsilon k).y.val : ℚ) ≤ opt.rectangle.steep.eval k.1.val := by
  rw [bars_concat]
  exact h.steepest.fits_concat_iff h.flattest (leftOf_bars hk)

/-- The first update. -/
theorem turnDown (h : Hull epsilon knots opt) (hk : ∀ k' ∈ knots, k'.1 < k.1)
    (hflat : opt.rectangle.flat.eval k.1.val ≤ (upperPoint epsilon k).y.val)
    (hbelow : ((upperPoint epsilon k).y.val : ℚ) ≤ opt.rectangle.steep.eval k.1.val) :
    (OptimalPiecewiseLinearModel.turnDown (upperPoint epsilon k) opt).Ensures
      (Turned epsilon knots k opt) := by
  apply Ensures.bind (extremeSlope_ensures (View.start_lt h.lower))
  intro j hj
  obtain ⟨low, hlow⟩ := KeyArray.exists_getElem? opt.lower hj.lt
  apply (returns_read.mpr hlow).seq
  apply Ensures.bind (hullEnd_ensures (View.start_lt h.upper))
  intro e he
  apply Ensures.pure
  obtain ⟨hsteep, hroof⟩ := View.plain.turned h.steepest h.flattest h.lower
    (b := bar epsilon k) (p := upperPoint epsilon k) (leftOf_bars hk)
    (plane_upperPoint epsilon k).symm hflat hbelow hj hlow
  exact ⟨by rw [bars_concat]; exact hsteep, hroof, .cut _ he, rfl⟩

/-- Without the first update. -/
theorem keepDown (h : Hull epsilon knots opt)
    (hlower : ((lowerPoint epsilon k).y.val : ℚ) ≤ opt.rectangle.steep.eval k.1.val)
    (habove : opt.rectangle.steep.eval k.1.val ≤ (upperPoint epsilon k).y.val) :
    Turned epsilon knots k opt opt where
  steepest := by
    rw [bars_concat]
    exact h.steepest.keep (b := bar epsilon k) hlower habove
  lower := h.lower
  ended := by
    apply View.Ended.hidden
    rw [Line.eval_mirrored]
    exact neg_le_neg habove
  eq := rfl

/-- What the model knows of one knot more, from the line of the smallest slope and the two ends. -/
theorem concat {opt2 : OptimalPiecewiseLinearModel} (h : Hull epsilon knots opt)
    (hk : ∀ k' ∈ knots, k'.1 < k.1)
    (hsteepest : Steepest (bars epsilon (knots ++ [k])) opt2.rectangle.r1.plane
      opt2.rectangle.r3.plane)
    (hflattest : Flattest (bars epsilon (knots ++ [k])) opt2.rectangle.r0.plane
      opt2.rectangle.r2.plane)
    (hlower : Roof (bars epsilon knots) opt2.rectangle.steep opt.rectangle.flat
      (View.plain.chain opt.lower opt2.lowerStart))
    (hlowerEnd : View.plain.Ended opt.lower opt2.lowerStart (lowerPoint epsilon k)
      opt.rectangle.flat opt2.lower opt2.rectangle.flat)
    (hupper : Roof ((bars epsilon knots).map Bar.mirrored) opt2.rectangle.flat.mirrored
      opt.rectangle.steep.mirrored (View.reflected.chain opt.upper opt2.upperStart))
    (hupperEnd : View.reflected.Ended opt.upper opt2.upperStart (upperPoint epsilon k)
      opt.rectangle.steep.mirrored opt2.upper opt2.rectangle.steep.mirrored) :
    Hull epsilon (knots ++ [k]) opt2 where
  steepest := hsteepest
  flattest := hflattest
  lower := by
    have hfits := hflattest.fits
    rw [bars_concat] at hfits ⊢
    exact View.plain.ended h.flattest hlower (leftOf_bars hk) (plane_lowerPoint epsilon k).symm
      (Line.fits_concat.mp hfits).1 hlowerEnd
  upper := by
    have hfits := hsteepest.fits
    rw [bars_concat] at hfits
    have hflat := h.steepest.mirrored
    rw [bars_concat, List.map_append]
    apply View.reflected.ended hflat (b := (bar epsilon k).mirrored) (p := upperPoint epsilon k)
    · rw [Line.through_mirror]
      exact hupper
    · exact (leftOf_bars hk).mirrored
    · rfl
    · exact Line.fits_mirrored.mpr (Line.fits_concat.mp hfits).1
    · rw [Line.through_mirror]
      exact hupperEnd

/-- The second update. -/
theorem turnUp (h : Hull epsilon knots opt) (hε : 0 < epsilon.val) (hk : ∀ k' ∈ knots, k'.1 < k.1)
    (h1 : Turned epsilon knots k opt opt1)
    (hsteep : ((lowerPoint epsilon k).y.val : ℚ) ≤ opt.rectangle.steep.eval k.1.val)
    (habove : opt.rectangle.flat.eval k.1.val ≤ (lowerPoint epsilon k).y.val) :
    (OptimalPiecewiseLinearModel.turnUp (lowerPoint epsilon k) opt1).Ensures fun opt2 =>
      Hull epsilon (knots ++ [k]) opt2 ∧ opt2.epsilon = opt.epsilon ∧ opt2.firstX = opt.firstX ∧
        opt2.lastX = opt.lastX ∧ opt2.pointsInHull = opt.pointsInHull := by
  obtain ⟨hsteepest, hlower, hended, heq⟩ := h1
  have hB : LeftOf (bars epsilon knots) (k.1.val : ℚ) := leftOf_bars hk
  -- the upper point is above the lower one
  have hgap : (View.reflected.of (upperPoint epsilon k)).2 <
      (View.reflected.of (lowerPoint epsilon k)).2 :=
    neg_lt_neg (Nat.cast_lt.mpr (minusEpsilon_lt hε k.2))
  have hx : (upperPoint epsilon k).x = (lowerPoint epsilon k).x := rfl
  have hupperStart : opt1.upperStart = opt.upperStart := by rw [heq]
  have hopt1 : opt1.lower = opt.lower := by rw [heq]
  have hnonempty : opt1.upperStart < opt1.upper.length := by
    rw [hupperStart]
    exact hended.start_lt (View.start_lt h.upper)
  apply Ensures.bind (extremeSlope_ensures hnonempty)
  intro j hj
  rw [hupperStart] at hj
  obtain ⟨hvalley, hget, hended⟩ := hended.valley h.upper hB.mirrored hx hgap hj
  obtain ⟨high, hhigh⟩ := KeyArray.exists_getElem? opt1.upper hj.lt
  apply (returns_read.mpr hhigh).seq
  rw [hget] at hhigh
  have hlowerLt := View.start_lt hlower
  rw [← hopt1] at hlowerLt
  apply Ensures.bind (hullEnd_ensures hlowerLt)
  intro e he
  rw [hopt1] at he
  apply Ensures.pure
  -- the line of the smallest slope turns up
  have hupper := h.upper
  rw [Rectangle.flat, Rectangle.steep, ← Line.through_mirror, ← Line.through_mirror] at hupper
  obtain ⟨hflat, hroof⟩ := View.reflected.turned (b := (bar epsilon k).mirrored)
    (p := lowerPoint epsilon k) (v := high) h.flattest h.steepest.mirrored hupper hB.mirrored rfl
    (by rw [Line.through_mirror, Line.eval_mirrored]; exact neg_le_neg hsteep)
    (by rw [Line.through_mirror, Line.eval_mirrored]; exact neg_le_neg habove) hvalley hhigh
  have hframe : opt1.epsilon = opt.epsilon ∧ opt1.firstX = opt.firstX ∧ opt1.lastX = opt.lastX ∧
      opt1.pointsInHull = opt.pointsInHull := by
    rw [heq]
    exact ⟨rfl, rfl, rfl, rfl⟩
  refine ⟨h.concat hk hsteepest ?_ hlower ?_ ?_ hended, hframe⟩
  · rw [bars_concat, Flattest, List.map_append]
    exact hflat
  · rw [hopt1]
    exact .cut _ he
  · rw [Rectangle.steep, ← Line.through_mirror, Rectangle.flat, ← Line.through_mirror]
    exact hroof

/-- Without the second update. -/
theorem keepUp (h : Hull epsilon knots opt) (hk : ∀ k' ∈ knots, k'.1 < k.1)
    (h1 : Turned epsilon knots k opt opt1)
    (hupper : opt.rectangle.flat.eval k.1.val ≤ (upperPoint epsilon k).y.val)
    (hbelow : ((lowerPoint epsilon k).y.val : ℚ) ≤ opt.rectangle.flat.eval k.1.val) :
    Hull epsilon (knots ++ [k]) opt1 := by
  obtain ⟨hsteepest, hlower, hended, heq⟩ := h1
  have hopt1 : opt1.lower = opt.lower ∧ opt1.upperStart = opt.upperStart ∧
      opt1.rectangle.r0 = opt.rectangle.r0 ∧ opt1.rectangle.r2 = opt.rectangle.r2 := by
    rw [heq]
    exact ⟨rfl, rfl, rfl, rfl⟩
  obtain ⟨hlow, hstart, hr0, hr2⟩ := hopt1
  have hflat : opt1.rectangle.flat = opt.rectangle.flat := by
    rw [Rectangle.flat, Rectangle.flat, hr0, hr2]
  apply h.concat hk hsteepest _ hlower
  · rw [hlow, hflat]
    exact .hidden hbelow
  · rw [hflat, hstart]
    exact h.upper
  · rw [hstart]
    exact hended
  · rw [bars_concat, hr0, hr2, Flattest, List.map_append]
    apply Steepest.keep h.flattest
    · rw [Line.through_mirror, Line.eval_mirrored]
      exact neg_le_neg hupper
    · rw [Line.through_mirror, Line.eval_mirrored]
      exact neg_le_neg hbelow

/-- A point after two others is taken exactly when some line passes through all bars. -/
theorem extend (h : Hull epsilon knots opt) (hε : 0 < epsilon.val)
    (hk : ∀ k' ∈ knots, k'.1 < k.1) :
    (OptimalPiecewiseLinearModel.extend (upperPoint epsilon k) (lowerPoint epsilon k) opt).Ensures
      fun r =>
        (r = (false, { opt with pointsInHull := 0 }) ∧ ¬ Feasible (bars epsilon (knots ++ [k]))) ∨
        (r.1 = true ∧ Hull epsilon (knots ++ [k]) r.2 ∧ r.2.epsilon = opt.epsilon ∧
          r.2.firstX = opt.firstX ∧ r.2.lastX = opt.lastX ∧
          r.2.pointsInHull = opt.pointsInHull + 1) := by
  have h3 := h.r3_lt hk
  have h2 := h.r2_lt hk
  have hout1 := Rectangle.lt_line_iff (a := upperPoint epsilon k) h.r0_lt (Or.inr rfl) h2
  have hout2 := Rectangle.line_lt_iff (a := lowerPoint epsilon k) h.r1_lt (Or.inr rfl) h3
  have hdown := Rectangle.lt_line_iff (a := upperPoint epsilon k) h.r1_lt (Or.inl rfl)
    (h.r1_lt.trans h3)
  have hup := Rectangle.line_lt_iff (a := lowerPoint epsilon k) h.r0_lt (Or.inl rfl)
    (h.r0_lt.trans h2)
  rw [OptimalPiecewiseLinearModel.extend]
  split
  · rename_i hout
    apply Ensures.pure
    refine Or.inl ⟨rfl, ?_⟩
    rw [h.feasible_iff hk, not_and_or, not_le, not_le]
    rw [Bool.or_eq_true, hout1, hout2] at hout
    exact hout
  · rename_i hin
    rw [Bool.or_eq_true, hout1, hout2, not_or, not_lt, not_lt] at hin
    obtain ⟨hflat, hsteep⟩ := hin
    apply Ensures.bind (P := Turned epsilon knots k opt)
    · split
      · rename_i hlt
        exact h.turnDown hk hflat (hdown.mp hlt).le
      · rename_i hge
        rw [hdown, not_lt] at hge
        exact Ensures.pure (h.keepDown hsteep hge)
    · intro opt1 h1
      have hframe : opt1.epsilon = opt.epsilon ∧ opt1.firstX = opt.firstX ∧
          opt1.lastX = opt.lastX ∧ opt1.pointsInHull = opt.pointsInHull := by
        rw [h1.eq]
        exact ⟨rfl, rfl, rfl, rfl⟩
      have hr0 : opt1.rectangle.r0 = opt.rectangle.r0 := by rw [h1.eq]
      rw [hr0]
      apply Ensures.bind (P := fun opt2 => Hull epsilon (knots ++ [k]) opt2 ∧
        opt2.epsilon = opt.epsilon ∧ opt2.firstX = opt.firstX ∧ opt2.lastX = opt.lastX ∧
          opt2.pointsInHull = opt.pointsInHull)
      · split
        · rename_i hlt
          exact h.turnUp hε hk h1 hsteep (hup.mp hlt).le
        · rename_i hge
          rw [hup, not_lt] at hge
          exact Ensures.pure ⟨h.keepUp hk h1 hflat hge, hframe⟩
      · rintro opt2 ⟨hhull, heps, hfirst, hlast, hcount⟩
        apply Ensures.pure
        exact Or.inr ⟨rfl, ⟨hhull.steepest, hhull.flattest, hhull.lower, hhull.upper⟩, heps, hfirst,
          hlast, by rw [hcount]⟩

end Hull

end PGM
