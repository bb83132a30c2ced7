import PrefetchBench.PGM.Knots

/-!
# The segmentation of the library

`make_segmentation_par` as a parameter of `build`: the segments that it hands out, and what it
throws.  Over nondecreasing keys below the sentinel it does not throw, as long as their number fits
into an intercept (`segmentation_ensures`).
-/

namespace PGM

open Prog Corridor OptimalPiecewiseLinearModel

variable {S : Type} {f : Quotients S} {epsilon : Size} {keys : List Key}

/-! ## Exceptions -/

/-- The exceptions of `add_point` and of the constructor of `Segment`. -/
def Expected (e : Exception) : Prop :=
  e = notIncreasing ∨ e = interceptOverflow ∨ e = interceptNegative

theorem read_bind_throws {α : Type} {i : Nat} {g : Key → Throwing Exception α}
    (h : ∀ key, OnlyThrows (g key) Expected) :
    OnlyThrows (ExceptT.lift (Prog.read keys i) >>= g) Expected := (onlyThrows_lift _).bind h

theorem addPoint_throws (x : Key) (y : Size) (opt : OptimalPiecewiseLinearModel) :
    OnlyThrows (opt.addPoint x y) Expected := by
  rw [addPoint]
  split
  · exact onlyThrows_throw (Or.inl rfl)
  · exact onlyThrows_lift _

theorem ofCanonical_throws (cs : CanonicalSegment) :
    OnlyThrows (Segment.ofCanonical f cs) Expected := by
  rw [Segment.ofCanonical]
  split
  · exact onlyThrows_throw (Or.inr (Or.inl rfl))
  · split
    · exact onlyThrows_throw (Or.inr (Or.inr rfl))
    · exact onlyThrows_pure _

theorem feed_throws (x : Key) (y : Size) (s : Segmenting S) :
    OnlyThrows (feed f x y s) Expected := by
  refine (addPoint_throws x y s.opt).bind ?_
  intro r
  split
  · exact onlyThrows_pure _
  · refine (ofCanonical_throws _).bind ?_
    intro segment
    refine (addPoint_throws x y r.2).bind ?_
    intro r
    exact onlyThrows_pure _

theorem feedMiddle_throws (s : Segmenting S) (i : Nat) :
    OnlyThrows (feedMiddle f keys s i) Expected := by
  rw [feedMiddle]
  apply read_bind_throws
  intro key
  apply read_bind_throws
  intro before
  split
  · apply read_bind_throws
    intro next
    split
    · exact feed_throws _ _ s
    · exact onlyThrows_pure s
  · exact feed_throws _ _ s

theorem feedLast_throws (start last : Nat) (s : Segmenting S) :
    OnlyThrows (feedLast f keys start last s) Expected := by
  rw [feedLast]
  split
  · apply read_bind_throws
    intro key
    apply read_bind_throws
    intro before
    split
    · exact feed_throws _ _ s
    · exact onlyThrows_pure s
  · exact onlyThrows_pure s

theorem feedEnd_throws (n last : Nat) (s : Segmenting S) :
    OnlyThrows (feedEnd f keys n last s) Expected := by
  rw [feedEnd]
  split
  · apply read_bind_throws
    intro key
    exact feed_throws _ _ s
  · exact onlyThrows_pure s

theorem makeSegmentationPar_throws (n : Nat) :
    OnlyThrows (makeSegmentationPar f n epsilon keys) Expected := by
  rw [makeSegmentationPar, makeSegmentation]
  apply read_bind_throws
  intro key
  refine (feed_throws _ _ _).bind ?_
  intro s
  refine (OnlyThrows.foldlM feedMiddle_throws _ s).bind ?_
  intro s
  refine (feedLast_throws _ _ s).bind ?_
  intro s
  refine (feedEnd_throws _ _ s).bind ?_
  intro s
  refine (ofCanonical_throws _).bind ?_
  intro segment
  exact onlyThrows_pure _

/-- The last segment is handed out. -/
theorem makeSegmentationPar_ne_nil {n : Nat} {s : Segmenting S}
    (h : (makeSegmentationPar f n epsilon keys).run.Returns (.ok s)) : s.out ≠ [] := by
  have h := returns_orFail.mpr h
  rw [makeSegmentationPar, makeSegmentation] at h
  simp only [orFail_bind] at h
  obtain ⟨_, _, h⟩ := returns_bind.mp h
  obtain ⟨_, _, h⟩ := returns_bind.mp h
  obtain ⟨_, _, h⟩ := returns_bind.mp h
  obtain ⟨_, _, h⟩ := returns_bind.mp h
  obtain ⟨_, _, h⟩ := returns_bind.mp h
  obtain ⟨_, _, h⟩ := returns_bind.mp h
  rw [orFail_pure] at h
  rw [← returns_pure.mp h]
  exact List.concat_ne_nil _ _

/-! ## The parameter of `build` -/

/-- `make_segmentation_par(n, epsilon, in, out)`, with the segments that are given to `out`. -/
def Quotients.segmentation (f : Quotients S) : ThrowingSegmentation S where
  segments epsilon keys := do
    let s ← makeSegmentationPar f keys.length (rank epsilon) keys
    pure s.out
  throws h := (makeSegmentationPar_throws _).bind (fun _ => onlyThrows_pure _) _ h
  ne_nil h := by
    have h := returns_orFail.mpr h
    rw [orFail_bind] at h
    obtain ⟨s, hs, h⟩ := returns_bind.mp h
    rw [orFail_pure] at h
    rw [← returns_pure.mp h]
    exact makeSegmentationPar_ne_nil (returns_orFail.mp hs)

/-- What it hands out. -/
theorem segmentation_ensures (h : Indexable keys) {epsilon : Nat} (hε : 0 < epsilon)
    (hlt : epsilon < 2 ^ 64) (hsize : keys.length < 2 ^ 32) :
    (f.segmentation.uncaught.segments epsilon keys).Ensures fun out =>
      ∃ pieces, Cut f (rank epsilon) keys pieces out := by
  have hval : (rank epsilon).val = epsilon := Nat.mod_eq_of_lt hlt
  have hmake := @makeSegmentation_ensures _ f (rank epsilon) _ h (by rw [hval]; exact hε) hsize
  show (orFail (makeSegmentationPar f keys.length (rank epsilon) keys >>= fun s =>
    pure s.out)).Ensures _
  rw [orFail_bind]
  apply hmake.bind
  rintro s ⟨_, hcut⟩
  rw [orFail_pure]
  exact Ensures.pure hcut

end PGM
