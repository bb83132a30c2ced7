import PrefetchBench.Corridor.Lines

/-!
# Roofs

The roof of some bars is a chain of lower ends that turns to the right at every point.  It starts
where the steepest line rests, and it stands for all lower ends: seen from a place to the right,
between the flattest and the steepest line, one of its points is seen at the smallest slope of all
(`Roof.covers`).  The slopes at which the points of a roof are seen fall and then rise
(`Chain.le_of_ascent`), so the first point behind which they rise is that one (`Roof.tangent`).

A roof is kept when the steepest line turns down (`Roof.turn`) and when a bar is added, whose lower
end becomes the last point of the roof (`Roof.push`) or is hidden by the flattest line
(`Roof.skip`).
-/

namespace Corridor

variable {K : Type*} [Field K] [LinearOrder K] [IsStrictOrderedRing K]

/-! ## Three points -/

section Slopes

variable {p q r a b c : K × K}

/-- The slope over two steps is a mean of the slopes of the steps. -/
theorem slopeTo_mean (h : p.1 < q.1) (h' : q.1 < r.1) :
    ((q.1 - p.1) + (r.1 - q.1)) * slopeTo p r =
      (q.1 - p.1) * slopeTo p q + (r.1 - q.1) * slopeTo q r := by
  have h1 : q.1 - p.1 ≠ 0 := (sub_pos.mpr h).ne'
  have h2 : r.1 - q.1 ≠ 0 := (sub_pos.mpr h').ne'
  have h3 : r.1 - p.1 ≠ 0 := (sub_pos.mpr (h.trans h')).ne'
  simp only [slopeTo]
  field_simp
  ring

theorem slopeTo_lt_step_iff (h : p.1 < q.1) (h' : q.1 < r.1) :
    slopeTo p q < slopeTo p r ↔ slopeTo p q < slopeTo q r := by
  have hmean := slopeTo_mean h h'
  have h1 := sub_pos.mpr h
  have h2 := sub_pos.mpr h'
  constructor
  · intro hlt
    nlinarith
  · intro hlt
    nlinarith

theorem slopeTo_lt_last_iff (h : p.1 < q.1) (h' : q.1 < r.1) :
    slopeTo p r < slopeTo q r ↔ slopeTo p q < slopeTo q r := by
  have hmean := slopeTo_mean h h'
  have h1 := sub_pos.mpr h
  have h2 := sub_pos.mpr h'
  constructor
  · intro hlt
    nlinarith
  · intro hlt
    nlinarith

theorem slopeTo_last_lt_iff (h : p.1 < q.1) (h' : q.1 < r.1) :
    slopeTo q r < slopeTo p r ↔ slopeTo q r < slopeTo p q := by
  have hmean := slopeTo_mean h h'
  have h1 := sub_pos.mpr h
  have h2 := sub_pos.mpr h'
  constructor
  · intro hlt
    nlinarith
  · intro hlt
    nlinarith

theorem slopeTo_lt_first_iff (h : p.1 < q.1) (h' : q.1 < r.1) :
    slopeTo p r < slopeTo p q ↔ slopeTo q r < slopeTo p q := by
  have hmean := slopeTo_mean h h'
  have h1 := sub_pos.mpr h
  have h2 := sub_pos.mpr h'
  constructor
  · intro hlt
    nlinarith
  · intro hlt
    nlinarith

/-- Where a chain turns to the right, slopes that rise go on rising. -/
theorem slopeTo_ascent (hab : a.1 < b.1) (hbc : b.1 < c.1) (hcq : c.1 < q.1)
    (hturn : slopeTo a c < slopeTo a b) (hrise : slopeTo a q < slopeTo b q) :
    slopeTo b q < slopeTo c q := by
  have hstep : slopeTo b c < slopeTo a b := (slopeTo_lt_first_iff hab hbc).mp hturn
  have hab' : slopeTo a b < slopeTo b q :=
    (slopeTo_lt_last_iff hab (hbc.trans hcq)).mp hrise
  have hbq : slopeTo b c < slopeTo b q := hstep.trans hab'
  exact (slopeTo_lt_last_iff hbc hcq).mpr ((slopeTo_lt_step_iff hbc hcq).mp hbq)

/-- A point at or below the line between two others is seen at a slope that one of them is not
seen above. -/
theorem slopeTo_between (hab : a.1 < b.1) (hbc : b.1 < c.1) (hcq : c.1 < q.1)
    (hbelow : slopeTo a b ≤ slopeTo a c) :
    slopeTo a q ≤ slopeTo b q ∨ slopeTo c q ≤ slopeTo b q := by
  by_contra hnot
  obtain ⟨ha, hc⟩ := not_or.mp hnot
  have ha' := (slopeTo_last_lt_iff hab (hbc.trans hcq)).mp (not_le.mp ha)
  have hc' := (slopeTo_lt_step_iff hbc hcq).mpr
    ((slopeTo_lt_last_iff hbc hcq).mp (not_le.mp hc))
  exact absurd hbelow (not_le.mpr ((slopeTo_lt_first_iff hab hbc).mpr (hc'.trans ha')))

/-- Straight above a point, the points below the lines to it are seen at larger slopes. -/
theorem slopeTo_lt_of_above (hab : a.1 < b.1) (hbc : b.1 < c.1) (hbelow : slopeTo a b ≤ slopeTo a c)
    (hq : q.1 = c.1) (habove : c.2 < q.2) : slopeTo a q < slopeTo b q := by
  have hlast : slopeTo a c ≤ slopeTo b c := by
    by_contra hnot
    have hlt := (slopeTo_last_lt_iff hab hbc).mp (not_le.mp hnot)
    exact absurd hbelow (not_le.mpr ((slopeTo_lt_first_iff hab hbc).mpr hlt))
  have hsplit : ∀ v : K × K, slopeTo v q = slopeTo v c + (q.2 - c.2) / (c.1 - v.1) := by
    intro v
    rw [slopeTo, slopeTo, hq, ← add_div]
    ring_nf
  have hrise : (q.2 - c.2) / (c.1 - a.1) < (q.2 - c.2) / (c.1 - b.1) := by
    apply div_lt_div_of_pos_left (sub_pos.mpr habove) (sub_pos.mpr hbc)
    linarith
  rw [hsplit a, hsplit b]
  linarith

/-- A point below a line, left of a point of the line, is seen at a larger slope from below the
line. -/
theorem slopeTo_le_of_left {l : Line K} (hpr : p.1 < r.1) (hrq : r.1 < q.1)
    (hp : p.2 ≤ l.eval p.1) (hr : l.eval r.1 = r.2) (hq : q.2 ≤ l.eval q.1) :
    slopeTo r q ≤ slopeTo p q := by
  apply (Line.le_eval_withSlope_iff (hpr.trans hrq) _).mp
  refine hp.trans ?_
  have hthrough : (Line.withSlope (slopeTo r q) q).eval r.1 = r.2 :=
    Line.eval_through_left hrq.ne
  apply Line.eval_le_eval_left hrq
  · exact (hr.trans hthrough.symm).le
  · rw [Line.eval_withSlope, sub_self, mul_zero, add_zero]
    exact hq
  · exact hpr.le

/-- A point below a line, right of a point of the line, is seen at a larger slope from above the
line. -/
theorem slopeTo_le_of_right {l : Line K} (hrp : r.1 < p.1) (hpq : p.1 < q.1)
    (hp : p.2 ≤ l.eval p.1) (hr : l.eval r.1 = r.2) (hq : l.eval q.1 ≤ q.2) :
    slopeTo r q ≤ slopeTo p q := by
  have hrq := hrp.trans hpq
  apply (Line.le_eval_withSlope_iff hpq _).mp
  refine hp.trans ?_
  have hthrough : (Line.withSlope (slopeTo r q) q).eval r.1 = r.2 :=
    Line.eval_through_left hrq.ne
  have hend : (Line.withSlope (slopeTo r q) q).eval q.1 = q.2 := by
    rw [Line.eval_withSlope, sub_self, mul_zero, add_zero]
  have hslope : l.slope ≤ (Line.withSlope (slopeTo r q) q).slope := by
    apply Line.slope_le_slope hrq
    · exact (hthrough.trans hr.symm).le
    · exact hq.trans hend.ge
  have hmul := mul_le_mul_of_nonneg_right hslope (sub_nonneg.mpr hrp.le)
  rw [Line.eval_eq l r.1 p.1, Line.eval_eq _ r.1 p.1, hr, hthrough]
  linarith

end Slopes

/-! ## Chains -/

/-- Points from left to right that turn to the right. -/
structure Chain (chain : List (K × K)) : Prop where
  /-- From left to right. -/
  increasing : chain.Pairwise fun v w => v.1 < w.1
  /-- Every point is above the line from the one before it to the one behind it. -/
  turns : ∀ i a b c, chain[i]? = some a → chain[i + 1]? = some b → chain[i + 2]? = some c →
    slopeTo a c < slopeTo a b

namespace Chain

variable {chain : List (K × K)} {a b c q v w : K × K} {i j e : Nat}

omit [IsStrictOrderedRing K] in
theorem fst_lt (h : Chain chain) (hij : i < j) (hv : chain[i]? = some v) (hw : chain[j]? = some w) :
    v.1 < w.1 := by
  obtain ⟨hi, rfl⟩ := List.getElem?_eq_some_iff.mp hv
  obtain ⟨hj, rfl⟩ := List.getElem?_eq_some_iff.mp hw
  exact List.pairwise_iff_getElem.mp h.increasing i j hi hj hij

omit [IsStrictOrderedRing K] in
theorem take (h : Chain chain) (e : Nat) : Chain (chain.take e) where
  increasing := h.increasing.sublist (List.take_sublist e chain)
  turns i a b c ha hb hc := by
    have hlt := (List.getElem?_eq_some_iff.mp hc).1
    rw [List.length_take] at hlt
    rw [List.getElem?_take_of_lt (by omega)] at ha hb hc
    exact h.turns i a b c ha hb hc

omit [IsStrictOrderedRing K] in
theorem drop (h : Chain chain) (j : Nat) : Chain (chain.drop j) where
  increasing := h.increasing.sublist (List.drop_sublist j chain)
  turns i a b c ha hb hc := by
    rw [List.getElem?_drop] at ha hb hc
    exact h.turns (j + i) a b c ha hb hc

omit [IsStrictOrderedRing K] in
/-- A point can be added where the chain turns to the right. -/
theorem concat (h : Chain chain) (hright : ∀ v ∈ chain, v.1 < c.1)
    (hturn : ∀ i a b, chain[i]? = some a → chain[i + 1]? = some b → i + 2 = chain.length →
      slopeTo a c < slopeTo a b) : Chain (chain ++ [c]) where
  increasing := by
    rw [List.pairwise_append]
    refine ⟨h.increasing, List.pairwise_singleton .., ?_⟩
    intro v hv w hw
    rw [List.mem_singleton.mp hw]
    exact hright v hv
  turns i a b c' ha hb hc := by
    have hlt := (List.getElem?_eq_some_iff.mp hc).1
    rw [List.length_append, List.length_singleton] at hlt
    rw [List.getElem?_append_left (by omega)] at ha hb
    rcases Nat.lt_or_ge (i + 2) chain.length with hin | hout
    · rw [List.getElem?_append_left hin] at hc
      exact h.turns i a b c' ha hb hc
    · have hlen : i + 2 = chain.length := by omega
      rw [hlen, List.getElem?_concat_length] at hc
      cases hc
      exact hturn i a b ha hb hlen

/-- Behind a point where they rise, the slopes stay larger. -/
theorem le_of_ascent (h : Chain chain) (hright : ∀ v ∈ chain, v.1 < q.1) {k : Nat}
    (hv : chain[j]? = some v)
    (hrise : ∀ w, chain[j + 1]? = some w → slopeTo v q < slopeTo w q)
    (hw : chain[j + k]? = some w) : slopeTo v q ≤ slopeTo w q := by
  cases k with
  | zero =>
      cases hv.symm.trans hw
      exact le_refl _
  | succ k =>
      -- all steps behind `j` go up
      have hup : ∀ k a b, chain[j + k]? = some a → chain[j + k + 1]? = some b →
          slopeTo a q < slopeTo b q := by
        intro k
        induction k with
        | zero =>
            intro a b ha hb
            cases hv.symm.trans ha
            exact hrise b hb
        | succ k ih =>
            intro b c hb hc
            have hlt := (List.getElem?_eq_some_iff.mp hb).1
            have ha := List.getElem?_eq_getElem (l := chain) (i := j + k) (by omega)
            exact slopeTo_ascent (h.fst_lt (by omega) ha hb) (h.fst_lt (by omega) hb hc)
              (hright c (List.mem_of_getElem? hc)) (h.turns _ _ _ _ ha hb hc) (ih _ b ha hb)
      induction k generalizing w with
      | zero => exact (hrise w hw).le
      | succ k ih =>
          have hlt := (List.getElem?_eq_some_iff.mp hw).1
          have hb := List.getElem?_eq_getElem (l := chain) (i := j + (k + 1)) (by omega)
          exact (ih hb).trans (hup (k + 1) _ w hb hw).le

/-- The first point behind which the slopes rise is seen at the smallest one. -/
theorem le_of_valley (h : Chain chain) (hright : ∀ v ∈ chain, v.1 < q.1)
    (hv : chain[j]? = some v)
    (hfall : ∀ i a b, i < j → chain[i]? = some a → chain[i + 1]? = some b →
      slopeTo b q ≤ slopeTo a q)
    (hrise : ∀ w, chain[j + 1]? = some w → slopeTo v q < slopeTo w q) (hw : w ∈ chain) :
    slopeTo v q ≤ slopeTo w q := by
  obtain ⟨i, hi⟩ := List.mem_iff_getElem?.mp hw
  rcases Nat.lt_or_ge i j with hij | hji
  · -- going back from `j`
    have hback : ∀ k w, k ≤ j → chain[j - k]? = some w → slopeTo v q ≤ slopeTo w q := by
      intro k
      induction k with
      | zero =>
          intro w _ hw
          cases hv.symm.trans hw
          exact le_refl _
      | succ k ih =>
          intro a hk ha
          have hlt := (List.getElem?_eq_some_iff.mp hv).1
          have hb := List.getElem?_eq_getElem (l := chain) (i := j - k) (by omega)
          refine (ih _ (by omega) hb).trans (hfall (j - (k + 1)) a _ (by omega) ha ?_)
          rw [show j - (k + 1) + 1 = j - k by omega]
          exact hb
    exact hback (j - i) w (by omega) (by rw [show j - (j - i) = i by omega]; exact hi)
  · obtain ⟨k, rfl⟩ := Nat.exists_eq_add_of_le hji
    exact h.le_of_ascent hright hv hrise hi

/-- The points of a chain from `e` on may go when a new point comes: at any slope at which they are
seen, the last one in front of them or the new point is not seen above. -/
def Popped (chain : List (K × K)) (c : K × K) (e : Nat) : Prop :=
  ∀ q : K × K, c.1 < q.1 → ∀ i v, e ≤ i → chain[i]? = some v →
    (∃ w, chain[e - 1]? = some w ∧ slopeTo w q ≤ slopeTo v q) ∨ slopeTo c q ≤ slopeTo v q

omit [IsStrictOrderedRing K] in
/-- At first no point goes. -/
theorem popped_length (chain : List (K × K)) (c : K × K) : Popped chain c chain.length := by
  intro q _ i v hi hv
  exact absurd (List.getElem?_eq_some_iff.mp hv).1 (not_lt.mpr hi)

/-- The last point goes when it is not above the line to the new one. -/
theorem Popped.pop (h : Chain chain) (hright : ∀ v ∈ chain, v.1 < c.1)
    (hpopped : Popped chain c (e + 2)) (ha : chain[e]? = some a) (hb : chain[e + 1]? = some b)
    (hbelow : slopeTo a b ≤ slopeTo a c) : Popped chain c (e + 1) := by
  intro q hq i v hi hv
  have hbc := hright b (List.mem_of_getElem? hb)
  have hcover : slopeTo a q ≤ slopeTo b q ∨ slopeTo c q ≤ slopeTo b q :=
    slopeTo_between (h.fst_lt (Nat.lt_succ_self e) ha hb) hbc hq hbelow
  rcases Nat.eq_or_lt_of_le hi with rfl | hi
  · cases hb.symm.trans hv
    exact hcover.imp_left fun hle => ⟨a, ha, hle⟩
  · rcases hpopped q hq i v hi hv with ⟨w, hw, hle⟩ | hle
    · cases hb.symm.trans hw
      exact hcover.imp (fun ha' => ⟨a, ha, ha'.trans hle⟩) fun hc' => hc'.trans hle
    · exact Or.inr hle

/-- All points from `e` on go when each is not above the line from the one before it to the new
one. -/
theorem popped_of_steps (h : Chain chain) (hright : ∀ v ∈ chain, v.1 < c.1) (he : 0 < e)
    (hlen : e ≤ chain.length)
    (hsteps : ∀ i a b, e ≤ i + 1 → chain[i]? = some a → chain[i + 1]? = some b →
      slopeTo a b ≤ slopeTo a c) : Popped chain c e := by
  obtain ⟨k, hk⟩ := Nat.exists_eq_add_of_le hlen
  induction k generalizing e with
  | zero =>
      rw [add_zero] at hk
      rw [← hk]
      exact popped_length chain c
  | succ k ih =>
      obtain ⟨i, rfl⟩ := Nat.exists_eq_add_of_lt he
      rw [Nat.zero_add] at hk hsteps hlen ⊢
      have ha := List.getElem?_eq_getElem (l := chain) (i := i) (by omega)
      have hb := List.getElem?_eq_getElem (l := chain) (i := i + 1) (by omega)
      have hnext : Popped chain c (i + 2) :=
        ih (by omega) (by omega) (fun i' a b hi => hsteps i' a b (by omega)) (by omega)
      exact hnext.pop h hright ha hb (hsteps i _ _ (Nat.le_refl _) ha hb)

end Chain

/-! ## Roofs -/

/-- A chain of lower ends that starts on the line `l` and stands for all of them, seen from a place
to the right that is not below the line `m` and not above `l`. -/
structure Roof (bars : List (Bar K)) (l m : Line K) (chain : List (K × K)) : Prop where
  /-- It is a chain. -/
  isChain : Chain chain
  /-- It starts on the line. -/
  rests : ∃ v, chain[0]? = some v ∧ l.eval v.1 = v.2
  /-- Its points are lower ends. -/
  ends : ∀ v ∈ chain, ∃ b ∈ bars, b.lowerEnd = v
  /-- It stands for all lower ends. -/
  covers : ∀ b ∈ bars, ∀ q : K × K, LeftOf bars q.1 → m.eval q.1 ≤ q.2 → q.2 ≤ l.eval q.1 →
    ∃ v ∈ chain, slopeTo v q ≤ slopeTo b.lowerEnd q

namespace Roof

variable {bars : List (Bar K)} {l l' m m' : Line K} {chain : List (K × K)} {b : Bar K}
  {q v : K × K} {j e : Nat}

omit [IsStrictOrderedRing K] in
theorem fst_lt (h : Roof bars l m chain) {x : K} (hx : LeftOf bars x) (hv : v ∈ chain) :
    v.1 < x := by
  obtain ⟨b, hb, rfl⟩ := h.ends v hv
  exact hx b hb

/-- The first point behind which the slopes rise is seen at the smallest slope of all. -/
theorem tangent (h : Roof bars l m chain) (hq : LeftOf bars q.1) (hm : m.eval q.1 ≤ q.2)
    (hl : q.2 ≤ l.eval q.1) (hv : chain[j]? = some v)
    (hfall : ∀ i a b, i < j → chain[i]? = some a → chain[i + 1]? = some b →
      slopeTo b q ≤ slopeTo a q)
    (hrise : ∀ w, chain[j + 1]? = some w → slopeTo v q < slopeTo w q) :
    ∀ b ∈ bars, slopeTo v q ≤ slopeTo b.lowerEnd q := by
  intro b hb
  obtain ⟨w, hw, hle⟩ := h.covers b hb q hq hm hl
  exact (h.isChain.le_of_valley (fun v hv => h.fst_lt hq hv) hv hfall hrise hw).trans hle

/-- The steepest line turns down, and rests on a later point. -/
theorem turn (h : Roof bars l m chain) (hfits : l'.Fits bars) (hv : chain[j]? = some v)
    (hrest : l'.eval v.1 = v.2)
    (hle : ∀ x, LeftOf bars x → l'.eval x ≤ l.eval x) : Roof bars l' m (chain.drop j) where
  isChain := h.isChain.drop j
  rests := ⟨v, by rw [List.getElem?_drop]; exact hv, hrest⟩
  ends w hw := h.ends w (List.mem_of_mem_drop hw)
  covers b hb q hq hm hl := by
    obtain ⟨w, hw, hwle⟩ := h.covers b hb q hq hm (hl.trans (hle _ hq))
    obtain ⟨i, hi⟩ := List.mem_iff_getElem?.mp hw
    rcases Nat.lt_or_ge i j with hij | hji
    · -- the points in front of the new start are below the line
      refine ⟨v, List.mem_of_getElem? (i := 0) (by rw [List.getElem?_drop]; exact hv), ?_⟩
      obtain ⟨c, hc, rfl⟩ := h.ends w hw
      exact (slopeTo_le_of_left (h.isChain.fst_lt hij hi hv) (h.fst_lt hq (List.mem_of_getElem? hv))
        (hfits c hc).1 hrest hl).trans hwle
    · refine ⟨w, List.mem_of_getElem? (i := i - j) ?_, hwle⟩
      rw [List.getElem?_drop, show j + (i - j) = i by omega]
      exact hi

omit [IsStrictOrderedRing K] in
/-- The lower end of a new bar becomes the last point. -/
theorem push (h : Roof bars l m chain) (hb : LeftOf bars b.x)
    (hle : ∀ x, b.x < x → m.eval x ≤ m'.eval x) (he : 0 < e) (hlen : e ≤ chain.length)
    (hturn : ∀ i a c, chain[i]? = some a → chain[i + 1]? = some c → i + 2 = e →
      slopeTo a b.lowerEnd < slopeTo a c) (hpop : Chain.Popped chain b.lowerEnd e) :
    Roof (bars ++ [b]) l m' (chain.take e ++ [b.lowerEnd]) where
  isChain := by
    apply (h.isChain.take e).concat
    · intro v hv
      exact h.fst_lt hb (List.mem_of_mem_take hv)
    · intro i a c ha hc hi
      rw [List.length_take, min_eq_left hlen] at hi
      rw [List.getElem?_take_of_lt (by omega)] at ha hc
      exact hturn i a c ha hc hi
  rests := by
    obtain ⟨v, hv, hrest⟩ := h.rests
    refine ⟨v, ?_, hrest⟩
    rw [List.getElem?_append_left (by rw [List.length_take]; omega), List.getElem?_take_of_lt he]
    exact hv
  ends v hv := by
    rcases List.mem_append.mp hv with hv | hv
    · obtain ⟨c, hc, rfl⟩ := h.ends v (List.mem_of_mem_take hv)
      exact ⟨c, List.mem_append_left _ hc, rfl⟩
    · rw [List.mem_singleton.mp hv]
      exact ⟨b, by simp, rfl⟩
  covers c hc q hq hm hl := by
    have hbq : b.x < q.1 := hq b (by simp)
    rcases List.mem_append.mp hc with hc | hc
    · obtain ⟨v, hv, hvle⟩ := h.covers c hc q (fun d hd => hq d (List.mem_append_left _ hd))
        ((hle _ hbq).trans hm) hl
      obtain ⟨i, hi⟩ := List.mem_iff_getElem?.mp hv
      rcases Nat.lt_or_ge i e with hie | hei
      · refine ⟨v, List.mem_append_left _ (List.mem_of_getElem? (i := i) ?_), hvle⟩
        rw [List.getElem?_take_of_lt hie]
        exact hi
      · rcases hpop q hbq i v hei hi with ⟨w, hw, hwle⟩ | hwle
        · refine ⟨w, List.mem_append_left _ (List.mem_of_getElem? (i := e - 1) ?_),
            hwle.trans hvle⟩
          rw [List.getElem?_take_of_lt (by omega)]
          exact hw
        · exact ⟨b.lowerEnd, by simp, hwle.trans hvle⟩
    · rw [List.mem_singleton.mp hc]
      exact ⟨b.lowerEnd, by simp, le_refl _⟩

/-- The lower end of a new bar is below the flattest line, which goes through another one. -/
theorem skip (h : Roof bars l m chain) (hb : LeftOf bars b.x) (hbelow : b.lower ≤ m.eval b.x)
    (hrest : ∃ c ∈ bars, m.eval c.x = c.lower) : Roof (bars ++ [b]) l m chain where
  isChain := h.isChain
  rests := h.rests
  ends v hv := by
    obtain ⟨c, hc, rfl⟩ := h.ends v hv
    exact ⟨c, List.mem_append_left _ hc, rfl⟩
  covers c hc q hq hm hl := by
    have hold : LeftOf bars q.1 := fun d hd => hq d (List.mem_append_left _ hd)
    rcases List.mem_append.mp hc with hc | hc
    · exact h.covers c hc q hold hm hl
    · rw [List.mem_singleton.mp hc]
      obtain ⟨d, hd, hdrest⟩ := hrest
      obtain ⟨v, hv, hvle⟩ := h.covers d hd q hold hm hl
      refine ⟨v, hv, hvle.trans ?_⟩
      exact slopeTo_le_of_right (r := d.lowerEnd) (p := b.lowerEnd) (hb d hd) (hq b (by simp))
        hbelow hdrest hm

omit [IsStrictOrderedRing K] in
/-- The roof of two bars. -/
theorem pair {a b : Bar K} (h : a.x < b.x) (ha : l.eval a.x = a.lower) :
    Roof [a, b] l m [a.lowerEnd, b.lowerEnd] where
  isChain := by
    refine ⟨by simpa using h, ?_⟩
    intro i v w c _ _ hc
    cases hc
  rests := ⟨a.lowerEnd, rfl, ha⟩
  ends v hv := by
    rcases List.mem_cons.mp hv with rfl | hv
    · exact ⟨a, by simp, rfl⟩
    · exact ⟨b, by simp, (List.mem_singleton.mp hv).symm⟩
  covers c hc q _ _ _ := by
    rcases List.mem_cons.mp hc with rfl | hc
    · exact ⟨c.lowerEnd, by simp, le_refl _⟩
    · rw [List.mem_singleton.mp hc]
      exact ⟨b.lowerEnd, by simp, le_refl _⟩

end Roof

end Corridor
