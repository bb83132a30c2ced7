import PrefetchBench.PGM.Safety
import PrefetchBench.PGM.Storeys
import PrefetchBench.PGM.Unsorted

/-!
# The documented properties of the segmentation

`make_segmentation` has the two properties that the reads of the lookups rely on
(`Quotients.segmentation_documented`).  The first segment starts with the first key, since the model
keeps the key of its first point until a segment is handed out (`Opened`).  The intercept of a
segment is within the error of the rank of its first key, as its line is.

Where `make_segmentation` returns, its knots increase: it throws for those that do not.  So the keys
are in order and below the sentinel, and the ranks fit into the intercepts, or every intercept is
small enough in any case.
-/

namespace PGM

open Prog Corridor OptimalPiecewiseLinearModel

variable {S : Type} {f : Quotients S} {epsilon : Size} {keys : List Key} {key x : Key} {y : Size}

/-! ## The key of the first segment -/

section Opening

variable {opt opt' : OptimalPiecewiseLinearModel} {p : Point} {taken : Bool}

theorem turnDown_inv (h : (turnDown p opt).Returns opt') :
    opt'.firstX = opt.firstX ∧ opt'.pointsInHull = opt.pointsInHull := by
  obtain ⟨_, _, h⟩ := returns_bind.mp h
  obtain ⟨_, _, h⟩ := returns_bind.mp h
  obtain ⟨_, _, h⟩ := returns_bind.mp h
  rw [← returns_pure.mp h]
  exact ⟨rfl, rfl⟩

theorem turnUp_inv (h : (turnUp p opt).Returns opt') :
    opt'.firstX = opt.firstX ∧ opt'.pointsInHull = opt.pointsInHull := by
  obtain ⟨_, _, h⟩ := returns_bind.mp h
  obtain ⟨_, _, h⟩ := returns_bind.mp h
  obtain ⟨_, _, h⟩ := returns_bind.mp h
  rw [← returns_pure.mp h]
  exact ⟨rfl, rfl⟩

/-- A point after two others does not change the first one. -/
theorem extend_inv {p1 p2 : Point} (h : (extend p1 p2 opt).Returns (taken, opt')) :
    opt'.firstX = opt.firstX ∧ (taken = true → 0 < opt'.pointsInHull) := by
  rw [extend] at h
  split at h
  · cases returns_pure.mp h
    exact ⟨rfl, fun hc => by cases hc⟩
  · obtain ⟨opt1, h1, h⟩ := returns_bind.mp h
    obtain ⟨opt2, h2, h⟩ := returns_bind.mp h
    cases returns_pure.mp h
    have hdown : opt1.firstX = opt.firstX := by
      split at h1
      · exact (turnDown_inv h1).1
      · rw [returns_pure.mp h1]
    have hup : opt2.firstX = opt1.firstX := by
      split at h2
      · exact (turnUp_inv h2).1
      · rw [returns_pure.mp h2]
    exact ⟨hup.trans hdown, fun _ => Nat.succ_pos _⟩

/-- Nor does any other point but the first one itself, which is always taken. -/
theorem addPoint_inv (h : (orFail (opt.addPoint x y)).Returns (taken, opt')) :
    opt'.firstX = (if opt.pointsInHull = 0 then x else opt.firstX) ∧
      (taken = true → 0 < opt'.pointsInHull) ∧ (opt.pointsInHull = 0 → taken = true) := by
  rw [addPoint] at h
  split at h
  · cases returns_ofOption.mp h
  · rw [orFail_lift, place] at h
    by_cases hzero : opt.pointsInHull = 0
    · rw [if_pos hzero] at h ⊢
      cases returns_pure.mp h
      exact ⟨rfl, fun _ => Nat.succ_pos _, fun _ => rfl⟩
    · rw [if_neg hzero] at h ⊢
      split at h
      · cases returns_pure.mp h
        exact ⟨rfl, fun _ => Nat.succ_pos _, fun hc => absurd hc hzero⟩
      · obtain ⟨hfirst, hpos⟩ := extend_inv h
        exact ⟨hfirst, hpos, fun hc => absurd hc hzero⟩

end Opening

theorem firstX_getSegment (opt : OptimalPiecewiseLinearModel) :
    opt.getSegment.first = opt.firstX := by
  rw [getSegment]
  split <;> rfl

theorem ofCanonical_key {cs : CanonicalSegment} {segment : Segment S}
    (h : (orFail (Segment.ofCanonical f cs)).Returns segment) : segment.key = cs.first := by
  rw [Segment.ofCanonical] at h
  split at h
  · cases returns_ofOption.mp h
  · split at h
    · cases returns_ofOption.mp h
    · rw [orFail_pure] at h
      rw [← returns_pure.mp h]

/-- The first segment starts with `key`, or is still to come and will. -/
def Opened (key : Key) (s : Segmenting S) : Prop :=
  (s.out.map Segment.key).head? = some key ∨
    s.out = [] ∧ s.opt.firstX = key ∧ 0 < s.opt.pointsInHull

/-- A segment that is handed out. -/
theorem Opened.draw {s : Segmenting S} (h : Opened key s) {segment : Segment S}
    (hsegment : segment.key = s.opt.firstX) :
    ((s.out ++ [segment]).map Segment.key).head? = some key := by
  rw [List.map_append, List.head?_append]
  rcases h with hout | ⟨hout, hfirst, _⟩
  · rw [hout]
    rfl
  · rw [hout, List.map_singleton, hsegment, hfirst]
    rfl

/-- One knot more. -/
theorem Opened.feed {s s' : Segmenting S} (h : Opened key s)
    (hs' : (orFail (PGM.feed f x y s)).Returns s') : Opened key s' := by
  rw [PGM.feed, orFail_bind] at hs'
  obtain ⟨⟨taken, opt⟩, hadd, hs'⟩ := returns_bind.mp hs'
  obtain ⟨hfirst, hpos, hzero⟩ := addPoint_inv hadd
  cases taken with
  | true =>
      rw [if_pos rfl, orFail_pure] at hs'
      rw [← returns_pure.mp hs']
      rcases h with hout | ⟨hout, hkey, hcount⟩
      · exact Or.inl hout
      · refine Or.inr ⟨hout, ?_, hpos rfl⟩
        rw [hfirst, if_neg hcount.ne', hkey]
  | false =>
      rw [if_neg (by simp), orFail_bind] at hs'
      obtain ⟨segment, hsegment, hs'⟩ := returns_bind.mp hs'
      rw [orFail_bind] at hs'
      obtain ⟨r, _, hs'⟩ := returns_bind.mp hs'
      rw [orFail_pure] at hs'
      rw [← returns_pure.mp hs']
      have hne : s.opt.pointsInHull ≠ 0 := fun hc => absurd (hzero hc) (by simp)
      refine Or.inl (h.draw ?_)
      rw [ofCanonical_key hsegment, firstX_getSegment, hfirst, if_neg hne]

/-- All knots, after the first one. -/
theorem Opened.feedKnots {more : List Knot} {s s' : Segmenting S} (h : Opened key s)
    (hs' : (orFail (PGM.feedKnots f more s)).Returns s') : Opened key s' := by
  induction more generalizing s with
  | nil =>
      rw [feedKnots_nil, orFail_pure] at hs'
      rwa [← returns_pure.mp hs']
  | cons k more ih =>
      rw [← List.singleton_append, feedKnots_append, feedKnots_singleton, orFail_bind] at hs'
      obtain ⟨s₁, hs₁, hs'⟩ := returns_bind.mp hs'
      exact ih (h.feed hs₁) hs'

/-- The first knot. -/
theorem Opened.first {k : Knot} {s : Segmenting S}
    (h : (orFail (PGM.feed f k.1 k.2 ⟨.new epsilon, [], 0⟩)).Returns s) : Opened k.1 s := by
  rw [PGM.feed, orFail_bind] at h
  obtain ⟨⟨taken, opt⟩, hadd, h⟩ := returns_bind.mp h
  obtain ⟨hfirst, hpos, hzero⟩ := addPoint_inv hadd
  obtain rfl : taken = true := hzero rfl
  rw [if_pos rfl, orFail_pure] at h
  rw [← returns_pure.mp h]
  exact Or.inr ⟨rfl, hfirst, hpos rfl⟩

/-- An intercept is at most `epsilon` above the number of keys. -/
theorem Cut.intercept_le {pieces : List (List Knot)} {out : List (Segment S)}
    (h : Cut f epsilon keys pieces out) :
    ∀ s ∈ out, s.intercept.val ≤ keys.length + epsilon.val := by
  intro s hs
  obtain ⟨it, hit⟩ := List.mem_iff_getElem?.mp hs
  obtain ⟨first, rest, l, hpiece, hdrawn, _⟩ := Drawn.of_forall₂ h.drawn hit
  have hmem : first ∈ knots keys := by
    rw [← h.flatten]
    exact List.mem_flatten.mpr ⟨_, List.mem_of_getElem? hpiece, List.mem_cons_self⟩
  exact hdrawn.intercept_near.1.trans (Nat.add_le_add_right (rank_le_length hmem) _)

end PGM
