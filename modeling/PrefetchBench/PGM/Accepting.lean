import PrefetchBench.Corridor.Greedy
import PrefetchBench.PGM.AddPoint

/-!
# The points that are taken

Between two segments the model holds the knots that it was given since the last one (`Holding`).
`add_point` takes a knot with a larger key if and only if some line passes through the bars of all
of them, and is empty otherwise (`Holding.addPoint`).  `make_segmentation` then hands out the
segment of the knots so far and starts again with the one that was not taken, so its segments are a
greedy cut of the knots (`Segmented.feed`).
-/

namespace PGM

open Prog Corridor OptimalPiecewiseLinearModel

variable {S : Type} {epsilon : Size} {knots : List Knot} {k : Knot}
  {opt opt' : OptimalPiecewiseLinearModel}

/-! ## The model between two segments -/

/-- What the model knows of the knots it was given since it was empty. -/
structure Holding (epsilon : Size) (knots : List Knot) (opt : OptimalPiecewiseLinearModel) :
    Prop where
  /-- The error that is allowed. -/
  epsilon_eq : opt.epsilon = epsilon
  /-- The number of points. -/
  count : opt.pointsInHull = knots.length
  /-- The keys increase. -/
  increasing : knots.Pairwise fun a b => a.1 < b.1
  /-- The first key. -/
  first : ∀ k ∈ knots.head?, opt.firstX = k.1
  /-- The last key. -/
  last : ∀ k ∈ knots.getLast?, opt.lastX = k.1
  /-- One point. -/
  one : ∀ k, knots = [k] → opt.rectangle.r0 = upperPoint epsilon k ∧
    opt.rectangle.r1 = lowerPoint epsilon k ∧ opt.upper = [upperPoint epsilon k] ∧
      opt.lower = [lowerPoint epsilon k] ∧ opt.upperStart = 0 ∧ opt.lowerStart = 0
  /-- Two points or more. -/
  hull : 2 ≤ knots.length → Hull epsilon knots opt

/-- One bar. -/
theorem feasible_singleton (epsilon : Size) (k : Knot) : Feasible (bars epsilon [k]) := by
  refine ⟨⟨0, (bar epsilon k).lower⟩, ?_⟩
  intro b hb
  obtain rfl : b = bar epsilon k := by simpa [bars] using hb
  simpa [Line.eval] using (bar epsilon k).lower_le

/-- Two bars. -/
theorem Hull.pair {a b : Knot} (h : a.1 < b.1)
    (hr : opt.rectangle = ⟨upperPoint epsilon a, lowerPoint epsilon a, lowerPoint epsilon b,
      upperPoint epsilon b⟩)
    (hlower : opt.lower = [lowerPoint epsilon a, lowerPoint epsilon b])
    (hupper : opt.upper = [upperPoint epsilon a, upperPoint epsilon b])
    (hlowerStart : opt.lowerStart = 0) (hupperStart : opt.upperStart = 0) :
    Hull epsilon [a, b] opt := by
  have hx : (bar epsilon a).x < (bar epsilon b).x := Nat.cast_lt.mpr h
  have hsteep : opt.rectangle.steep.eval (bar epsilon a).x = (bar epsilon a).lower := by
    rw [hr]
    exact Line.eval_through_left (p := (bar epsilon a).lowerEnd) (q := (bar epsilon b).upperEnd)
      hx.ne
  have hflat : opt.rectangle.flat.eval (bar epsilon a).x = (bar epsilon a).upper := by
    rw [hr]
    exact Line.eval_through_left (p := (bar epsilon a).upperEnd) (q := (bar epsilon b).lowerEnd)
      hx.ne
  refine ⟨?_, ?_, ?_, ?_⟩
  · rw [hr]
    exact Steepest.pair hx
  · rw [hr]
    exact Steepest.pair (a := (bar epsilon a).mirrored) (b := (bar epsilon b).mirrored) hx
  · rw [hlower, hlowerStart]
    exact Roof.pair hx hsteep
  · rw [hupper, hupperStart]
    apply Roof.pair (a := (bar epsilon a).mirrored) (b := (bar epsilon b).mirrored) hx
    rw [Line.eval_mirrored, Bar.x_mirrored, hflat]
    rfl

namespace Holding

theorem new (epsilon : Size) : Holding epsilon [] (.new epsilon) where
  epsilon_eq := rfl
  count := rfl
  increasing := List.Pairwise.nil
  first k hk := by cases hk
  last k hk := by cases hk
  one k hk := by cases hk
  hull hlen := by cases hlen

/-- The model was emptied. -/
theorem emptied (h : opt.epsilon = epsilon) (hcount : opt.pointsInHull = 0) :
    Holding epsilon [] opt where
  epsilon_eq := h
  count := hcount
  increasing := List.Pairwise.nil
  first k hk := by cases hk
  last k hk := by cases hk
  one k hk := by cases hk
  hull hlen := by cases hlen

/-- Some line passes through all bars. -/
theorem feasible (h : Holding epsilon knots opt) : Feasible (bars epsilon knots) := by
  cases hknots : knots with
  | nil => exact ⟨⟨0, 0⟩, fun b hb => absurd hb List.not_mem_nil⟩
  | cons k rest =>
      cases rest with
      | nil => exact feasible_singleton epsilon k
      | cons k' rest =>
          rw [← hknots]
          exact ⟨_, (h.hull (by rw [hknots]; simp)).steepest.fits⟩

/-- One knot more. -/
theorem concat (h : Holding epsilon knots opt) (hk : ∀ k' ∈ knots, k'.1 < k.1)
    (hepsilon : opt'.epsilon = epsilon) (hcount : opt'.pointsInHull = opt.pointsInHull + 1)
    (hfirst : ∀ k' ∈ (knots ++ [k]).head?, opt'.firstX = k'.1) (hlast : opt'.lastX = k.1)
    (hone : knots = [] → opt'.rectangle.r0 = upperPoint epsilon k ∧
      opt'.rectangle.r1 = lowerPoint epsilon k ∧ opt'.upper = [upperPoint epsilon k] ∧
        opt'.lower = [lowerPoint epsilon k] ∧ opt'.upperStart = 0 ∧ opt'.lowerStart = 0)
    (hhull : knots ≠ [] → Hull epsilon (knots ++ [k]) opt') :
    Holding epsilon (knots ++ [k]) opt' where
  epsilon_eq := hepsilon
  count := by rw [hcount, h.count, List.length_append, List.length_singleton]
  increasing := by
    rw [List.pairwise_append]
    refine ⟨h.increasing, List.pairwise_singleton .., ?_⟩
    intro a ha b hb
    rw [List.mem_singleton.mp hb]
    exact hk a ha
  first := hfirst
  last k' hk' := by
    obtain rfl : k = k' := by simpa using hk'
    exact hlast
  one k' hk' := by
    cases knots with
    | nil =>
        obtain rfl : k = k' := by simpa using hk'
        exact hone rfl
    | cons a rest => simp at hk'
  hull hlen := by
    apply hhull
    intro hnil
    rw [hnil] at hlen
    simp at hlen

/-- A knot with a larger key. -/
theorem place (h : Holding epsilon knots opt) (hε : 0 < epsilon.val)
    (hk : ∀ k' ∈ knots, k'.1 < k.1) :
    (opt.place k.1 k.2).Ensures fun r =>
      (r.1 = true ∧ Holding epsilon (knots ++ [k]) r.2) ∨
        (r = (false, { opt with lastX := k.1, pointsInHull := 0 }) ∧ 2 ≤ knots.length ∧
          ¬ Feasible (bars epsilon (knots ++ [k]))) := by
  have hcount := h.count
  obtain rfl := h.epsilon_eq
  rw [OptimalPiecewiseLinearModel.place]
  dsimp only
  cases hknots : knots with
  | nil =>
      subst hknots
      rw [if_pos (by simpa using hcount)]
      apply Ensures.pure
      refine Or.inl ⟨rfl, ?_⟩
      apply h.concat hk
      · rfl
      · rfl
      · intro k' hk'
        obtain rfl : k = k' := by simpa using hk'
        rfl
      · rfl
      · intro _
        exact ⟨rfl, rfl, rfl, rfl, rfl, rfl⟩
      · intro hne
        exact absurd rfl hne
  | cons a rest =>
      rw [if_neg (by rw [hcount, hknots]; simp)]
      have ha : a.1 < k.1 := hk a (by rw [hknots]; exact List.mem_cons_self)
      have hfirst : ∀ k' ∈ (knots ++ [k]).head?, opt.firstX = k'.1 := by
        intro k' hk'
        apply h.first
        rw [hknots] at hk' ⊢
        exact hk'
      have hne : knots ≠ [] := by
        rw [hknots]
        exact List.cons_ne_nil a rest
      cases rest with
      | nil =>
          rw [if_pos (by rw [hcount, hknots]; rfl)]
          obtain ⟨hr0, hr1, hupper, hlower, hupperStart, hlowerStart⟩ := h.one a hknots
          rw [← hknots]
          apply Ensures.pure
          refine Or.inl ⟨rfl, ?_⟩
          apply h.concat hk
          · rfl
          · rfl
          · exact hfirst
          · rfl
          · intro hnil
            exact absurd hnil hne
          · intro _
            rw [hknots]
            apply Hull.pair ha
            · rw [hr0, hr1]
              rfl
            · rw [hlower]
              rfl
            · rw [hupper]
              rfl
            · exact hlowerStart
            · exact hupperStart
      | cons b rest =>
          rw [if_neg (by rw [hcount, hknots]; simp), ← hknots]
          have hlen : 2 ≤ knots.length := by
            rw [hknots]
            simp
          have hhull := h.hull hlen
          have hhull' : Hull opt.epsilon knots { opt with lastX := k.1 } :=
            ⟨hhull.steepest, hhull.flattest, hhull.lower, hhull.upper⟩
          apply (hhull'.extend hε hk).mono
          intro r hr
          rcases hr with ⟨rfl, hnot⟩ | ⟨htaken, hnew, heps, hfirst', hlast, hcount'⟩
          · exact Or.inr ⟨rfl, hlen, hnot⟩
          · refine Or.inl ⟨htaken, h.concat hk heps hcount' ?_ hlast ?_ ?_⟩
            · intro k' hk'
              rw [hfirst']
              exact hfirst k' hk'
            · intro hnil
              exact absurd hnil hne
            · intro _
              exact hnew

/-- `add_point` takes a knot with a larger key exactly when some line passes through the bars of it
and of all knots before it. -/
theorem addPoint (h : Holding epsilon knots opt) (hε : 0 < epsilon.val)
    (hk : ∀ k' ∈ knots, k'.1 < k.1) :
    (orFail (opt.addPoint k.1 k.2)).Ensures fun r =>
      (r.1 = true ∧ Holding epsilon (knots ++ [k]) r.2) ∨
        (r = (false, { opt with lastX := k.1, pointsInHull := 0 }) ∧ 2 ≤ knots.length ∧
          ¬ Feasible (bars epsilon (knots ++ [k]))) := by
  have hlast : ¬ (0 < opt.pointsInHull ∧ k.1 ≤ opt.lastX) := by
    rintro ⟨hpos, hle⟩
    rw [h.count] at hpos
    have hne : knots ≠ [] := List.length_pos_iff.mp hpos
    have hend := h.last (knots.getLast hne) (List.getLast?_eq_some_getLast hne)
    rw [hend] at hle
    exact absurd (hk _ (List.getLast_mem hne)) (not_lt.mpr hle)
  rw [OptimalPiecewiseLinearModel.addPoint, if_neg hlast, orFail_lift]
  exact h.place hε hk

end Holding

/-! ## Runs -/

/-- A run of `add_point`, up to the first point that is not taken. -/
def addPoints : List Knot → OptimalPiecewiseLinearModel →
    Throwing Exception (Bool × OptimalPiecewiseLinearModel)
  | [], opt => pure (true, opt)
  | k :: more, opt => do
      let r ← opt.addPoint k.1 k.2
      if r.1 then addPoints more r.2 else pure r

theorem Holding.addPoints {more : List Knot} (h : Holding epsilon knots opt) (hε : 0 < epsilon.val)
    (hmore : (knots ++ more).Pairwise fun a b => a.1 < b.1) :
    (orFail (PGM.addPoints more opt)).Ensures fun r =>
      (r.1 = true ∧ Holding epsilon (knots ++ more) r.2) ∨
        (r.1 = false ∧ ¬ Feasible (bars epsilon (knots ++ more))) := by
  induction more generalizing knots opt with
  | nil =>
      rw [PGM.addPoints, orFail_pure, List.append_nil]
      exact Ensures.pure (Or.inl ⟨rfl, h⟩)
  | cons k more ih =>
      rw [PGM.addPoints, orFail_bind]
      have hk := (List.pairwise_append.mp hmore).2.2
      apply (h.addPoint hε fun k' hk' => hk k' hk' k List.mem_cons_self).bind
      have hassoc : knots ++ k :: more = knots ++ [k] ++ more := List.append_cons ..
      rw [hassoc] at hmore ⊢
      intro r hr
      rcases hr with ⟨htaken, hholding⟩ | ⟨rfl, _, hnot⟩
      · rw [if_pos htaken]
        exact ih hholding hmore
      · rw [if_neg (by simp), orFail_pure]
        apply Ensures.pure
        refine Or.inr ⟨rfl, fun hfit => hnot (hfit.mono ?_)⟩
        exact List.map_subset _ (List.subset_append_left _ _)

/-! ## The range of the products -/

/-- The points that a model holds. -/
def OptimalPiecewiseLinearModel.points (opt : OptimalPiecewiseLinearModel) : List Point :=
  opt.rectangle.r0 :: opt.rectangle.r1 :: opt.rectangle.r2 :: opt.rectangle.r3 ::
    (opt.lower ++ opt.upper)

/-- A model whose ranks have 62 bits. -/
structure OptimalPiecewiseLinearModel.Small (epsilon : Size) (opt : OptimalPiecewiseLinearModel) :
    Prop where
  /-- The error that is allowed. -/
  epsilon_eq : opt.epsilon = epsilon
  /-- The ranks. -/
  rank_lt : ∀ p ∈ opt.points, p.y.val < 2 ^ 62

theorem turnDown_points {p1 : Point} {opt' : OptimalPiecewiseLinearModel}
    (h : (OptimalPiecewiseLinearModel.turnDown p1 opt).Returns opt') :
    opt'.epsilon = opt.epsilon ∧ ∀ p ∈ opt'.points, p = p1 ∨ p ∈ opt.points := by
  obtain ⟨minI, _, h⟩ := returns_bind.mp h
  obtain ⟨low, hlow, h⟩ := returns_bind.mp h
  obtain ⟨last, _, h⟩ := returns_bind.mp h
  cases returns_pure.mp h
  have hmem := List.mem_of_getElem? (returns_read.mp hlow)
  refine ⟨rfl, fun p hp => ?_⟩
  have htake : p ∈ opt.upper.take last → p ∈ opt.upper := List.mem_of_mem_take
  simp only [OptimalPiecewiseLinearModel.points, List.mem_cons, List.mem_append,
    List.not_mem_nil, or_false] at hp ⊢
  grind

theorem turnUp_points {p2 : Point} {opt' : OptimalPiecewiseLinearModel}
    (h : (OptimalPiecewiseLinearModel.turnUp p2 opt).Returns opt') :
    opt'.epsilon = opt.epsilon ∧ ∀ p ∈ opt'.points, p = p2 ∨ p ∈ opt.points := by
  obtain ⟨maxI, _, h⟩ := returns_bind.mp h
  obtain ⟨high, hhigh, h⟩ := returns_bind.mp h
  obtain ⟨last, _, h⟩ := returns_bind.mp h
  cases returns_pure.mp h
  have hmem := List.mem_of_getElem? (returns_read.mp hhigh)
  refine ⟨rfl, fun p hp => ?_⟩
  have htake : p ∈ opt.lower.take last → p ∈ opt.lower := List.mem_of_mem_take
  simp only [OptimalPiecewiseLinearModel.points, List.mem_cons, List.mem_append,
    List.not_mem_nil, or_false] at hp ⊢
  grind

theorem extend_points {p1 p2 : Point} {r : Bool × OptimalPiecewiseLinearModel}
    (h : (opt.extend p1 p2).Returns r) :
    r.2.epsilon = opt.epsilon ∧ ∀ p ∈ r.2.points, p = p1 ∨ p = p2 ∨ p ∈ opt.points := by
  rw [OptimalPiecewiseLinearModel.extend] at h
  split at h
  · cases returns_pure.mp h
    exact ⟨rfl, fun p hp => Or.inr (Or.inr hp)⟩
  · obtain ⟨opt1, h1, h⟩ := returns_bind.mp h
    obtain ⟨opt2, h2, h⟩ := returns_bind.mp h
    cases returns_pure.mp h
    have hdown : opt1.epsilon = opt.epsilon ∧ ∀ p ∈ opt1.points, p = p1 ∨ p ∈ opt.points := by
      split at h1
      · exact turnDown_points h1
      · cases returns_pure.mp h1
        exact ⟨rfl, fun p hp => Or.inr hp⟩
    have hup : opt2.epsilon = opt1.epsilon ∧ ∀ p ∈ opt2.points, p = p2 ∨ p ∈ opt1.points := by
      split at h2
      · exact turnUp_points h2
      · cases returns_pure.mp h2
        exact ⟨rfl, fun p hp => Or.inr hp⟩
    refine ⟨hup.1.trans hdown.1, fun p hp => ?_⟩
    rcases hup.2 p hp with hp | hp
    · exact Or.inr (Or.inl hp)
    · exact (hdown.2 p hp).imp_right Or.inr

theorem place_points {x : Key} {y : Size} {r : Bool × OptimalPiecewiseLinearModel}
    (h : (opt.place x y).Returns r) :
    r.2.epsilon = opt.epsilon ∧ ∀ p ∈ r.2.points,
      p = ⟨x, plusEpsilon opt.epsilon y⟩ ∨ p = ⟨x, minusEpsilon opt.epsilon y⟩ ∨
        p ∈ opt.points := by
  rw [OptimalPiecewiseLinearModel.place] at h
  split at h
  · cases returns_pure.mp h
    refine ⟨rfl, fun p hp => ?_⟩
    simp only [OptimalPiecewiseLinearModel.points, List.mem_cons, List.mem_append,
      List.not_mem_nil, or_false] at hp ⊢
    grind
  · split at h
    · cases returns_pure.mp h
      refine ⟨rfl, fun p hp => ?_⟩
      simp only [OptimalPiecewiseLinearModel.points, List.mem_cons, List.mem_append,
        List.not_mem_nil, or_false] at hp ⊢
      grind
    · obtain ⟨heps, hpoints⟩ := extend_points h
      exact ⟨heps, hpoints⟩

/-- Taking a point keeps the ranks small. -/
theorem OptimalPiecewiseLinearModel.Small.addPoint {r : Bool × OptimalPiecewiseLinearModel}
    (h : opt.Small epsilon) (hk : k.2.val + epsilon.val < 2 ^ 62)
    (hr : (orFail (opt.addPoint k.1 k.2)).Returns r) : r.2.Small epsilon := by
  rw [OptimalPiecewiseLinearModel.addPoint] at hr
  split at hr
  · rw [orFail_throw] at hr
    cases hr with
    | intro n hn => cases hn
  · rw [orFail_lift] at hr
    obtain ⟨heps, hpoints⟩ := place_points hr
    refine ⟨heps.trans h.epsilon_eq, fun p hp => ?_⟩
    rw [h.epsilon_eq] at hpoints
    have hplus := val_plusEpsilon epsilon k.2
    have hminus := minusEpsilon_le epsilon k.2
    rcases hpoints p hp with rfl | rfl | hp
    · dsimp only
      omega
    · dsimp only
      omega
    · exact h.rank_lt p hp

theorem OptimalPiecewiseLinearModel.Small.addPoints {r : Bool × OptimalPiecewiseLinearModel}
    (h : opt.Small epsilon) (hknots : ∀ k ∈ knots, k.2.val + epsilon.val < 2 ^ 62)
    (hr : (orFail (PGM.addPoints knots opt)).Returns r) : r.2.Small epsilon := by
  induction knots generalizing opt with
  | nil =>
      rw [PGM.addPoints, orFail_pure] at hr
      cases returns_pure.mp hr
      exact h
  | cons k knots ih =>
      rw [PGM.addPoints, orFail_bind] at hr
      obtain ⟨r', hr', hr⟩ := returns_bind.mp hr
      have h' := h.addPoint (hknots k List.mem_cons_self) hr'
      split at hr
      · exact ih h' (fun k' hk' => hknots k' (List.mem_cons_of_mem _ hk')) hr
      · rw [orFail_pure] at hr
        cases returns_pure.mp hr
        exact h'

/-- A run of points with increasing keys is taken as a whole if and only if some line passes through
all their bars, which are cut off at zero, and the rectangle then has the extreme lines of this
kind.  The cross products of the points that are held fit into 128 bits. -/
theorem addPoints_extreme (hε : 0 < epsilon.val)
    (hknots : knots.Pairwise fun a b => a.1 < b.1)
    (hranks : ∀ k ∈ knots, k.2.val + epsilon.val < 2 ^ 62) :
    (orFail (addPoints knots (.new epsilon))).Ensures fun r =>
      (r.1 = true ↔ ∃ l : Line ℚ, l.Fits (bars epsilon knots)) ∧
        (r.1 = true → 2 ≤ knots.length →
          r.2.rectangle.steep.Fits (bars epsilon knots) ∧
            r.2.rectangle.flat.Fits (bars epsilon knots) ∧
              ∀ l : Line ℚ, l.Fits (bars epsilon knots) →
                r.2.rectangle.flat.slope ≤ l.slope ∧ l.slope ≤ r.2.rectangle.steep.slope) ∧
        ∀ o ∈ r.2.points, ∀ a ∈ r.2.points, ∀ b ∈ r.2.points, |cross o a b| < 2 ^ 127 := by
  have hrun := @Holding.addPoints _ _ _ knots (Holding.new epsilon) hε hknots
  obtain ⟨r, hreturns, hr⟩ := hrun
  have hnew : (OptimalPiecewiseLinearModel.new epsilon).Small epsilon :=
    ⟨rfl, by simp [OptimalPiecewiseLinearModel.points, OptimalPiecewiseLinearModel.new]⟩
  have hsmall := hnew.addPoints hranks hreturns
  have hcross : ∀ o ∈ r.2.points, ∀ a ∈ r.2.points, ∀ b ∈ r.2.points,
      |cross o a b| < 2 ^ 127 := fun o ho a ha b hb =>
    cross_inRange (hsmall.rank_lt o ho) (hsmall.rank_lt a ha) (hsmall.rank_lt b hb)
  apply hreturns.ensures
  rw [List.nil_append] at hr
  rcases hr with ⟨htaken, hholding⟩ | ⟨htaken, hnot⟩
  · refine ⟨⟨fun _ => hholding.feasible, fun _ => htaken⟩, ?_, hcross⟩
    intro _ hlen
    have hhull := hholding.hull hlen
    refine ⟨hhull.steepest.fits, hhull.flattest.fits, ?_⟩
    intro l hl
    exact ⟨hhull.flattest.le_slope hl, hhull.steepest.slope_le hl⟩
  · rw [htaken]
    refine ⟨⟨fun hc => absurd hc (by simp), fun hfit => absurd hfit hnot⟩, ?_, hcross⟩
    intro hc
    exact absurd hc (by simp)

theorem addPoints_extreme_three :
    (orFail (addPoints [(1, 0), (3, 1), (10, 2)] (.new 1))).Ensures fun r =>
      (r.1 = true ↔ ∃ l : Line ℚ, l.Fits (bars 1 [(1, 0), (3, 1), (10, 2)])) ∧
        (r.1 = true → 2 ≤ [((1 : Key), (0 : Size)), (3, 1), (10, 2)].length →
          r.2.rectangle.steep.Fits (bars 1 [(1, 0), (3, 1), (10, 2)]) ∧
            r.2.rectangle.flat.Fits (bars 1 [(1, 0), (3, 1), (10, 2)]) ∧
              ∀ l : Line ℚ, l.Fits (bars 1 [(1, 0), (3, 1), (10, 2)]) →
                r.2.rectangle.flat.slope ≤ l.slope ∧ l.slope ≤ r.2.rectangle.steep.slope) ∧
        ∀ o ∈ r.2.points, ∀ a ∈ r.2.points, ∀ b ∈ r.2.points, |cross o a b| < 2 ^ 127 :=
  addPoints_extreme (by decide) (by decide) (by simp)

end PGM
