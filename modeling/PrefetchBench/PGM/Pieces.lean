import PrefetchBench.PGM.Accuracy

/-!
# The segments of a sequence of knots

`make_segmentation` feeds knots to the model, one after the other.  At any time the knots so far are
cut greedily: each segment that was handed out is drawn for a piece that no line fits any more with
the next knot, and the model holds the last piece (`Segmented`).  All pieces but the last one span
more than `2 * epsilon` ranks (`Rising.steps`).
-/

namespace PGM

open Prog Corridor OptimalPiecewiseLinearModel

variable {S : Type} {f : Quotients S} {epsilon : Size} {knots : List Knot} {k : Knot}
  {pieces : List (List Knot)} {last : List Knot} {s : Segmenting S}

/-- Some line passes through the bars of the knots. -/
def Fitting (epsilon : Size) (knots : List Knot) : Prop := Feasible (bars epsilon knots)

/-- Parts of knots that a line fits. -/
theorem Fitting.mono {part : List Knot} (h : part ⊆ knots) (hfit : Fitting epsilon knots) :
    Fitting epsilon part := Feasible.mono hfit (List.map_subset _ h)

/-- What `make_segmentation` has made of the knots so far. -/
structure Segmented (f : Quotients S) (epsilon : Size) (knots : List Knot)
    (pieces : List (List Knot)) (last : List Knot) (s : Segmenting S) : Prop where
  /-- The knots are cut. -/
  flatten : (pieces ++ [last]).flatten = knots
  /-- No piece could go on. -/
  greedy : Greedy (Fitting epsilon) (pieces ++ [last])
  /-- The model holds the last piece. -/
  holding : Holding epsilon last s.opt
  /-- The segments of the others were handed out. -/
  out : List.Forall₂ (fun piece segment => ∃ l, Drawn f epsilon piece segment l) pieces s.out
  /-- Their number. -/
  count : s.c = s.out.length

namespace Segmented

/-- The first knot. -/
theorem first (f : Quotients S) {epsilon : Size} (hε : 0 < epsilon.val) (k : Knot) :
    (orFail (feed f k.1 k.2 ⟨.new epsilon, [], 0⟩)).Ensures fun s =>
      Segmented f epsilon [k] [] [k] s := by
  rw [feed, orFail_bind]
  apply ((Holding.new epsilon).addPoint hε fun k' hk' => absurd hk' List.not_mem_nil).bind
  intro r hr
  rcases hr with ⟨htaken, hholding⟩ | ⟨_, hlen, _⟩
  · rw [if_pos htaken, orFail_pure]
    apply Ensures.pure
    exact ⟨rfl, .singleton (feasible_singleton epsilon k), hholding, .nil, rfl⟩
  · cases hlen

theorem mem_of_mem_last (h : Segmented f epsilon knots pieces last s) {k' : Knot}
    (hk' : k' ∈ last) : k' ∈ knots := by
  rw [← h.flatten]
  exact List.mem_flatten.mpr ⟨last, by simp, hk'⟩

theorem last_sublist (h : Segmented f epsilon knots pieces last s) : last.Sublist knots := by
  rw [← h.flatten]
  exact List.sublist_flatten_of_mem (by simp)

theorem last_ne_nil (h : Segmented f epsilon knots pieces last s) : last ≠ [] :=
  h.greedy.ne_nil last (by simp)

/-- The segment of the last piece. -/
theorem draw (h : Segmented f epsilon knots pieces last s) (hrising : Rising knots)
    (hsize : ∀ k ∈ knots, k.2.val < 2 ^ 32) (hone : ∀ k, last = [k] → 2 * epsilon.val ≤ k.2.val) :
    (orFail (Segment.ofCanonical f s.opt.getSegment)).Ensures fun segment =>
      ∃ l, Drawn f epsilon last segment l := by
  have hsub := h.last_sublist
  have hholding := h.holding
  obtain ⟨k', rest, rfl⟩ := List.exists_cons_of_ne_nil h.last_ne_nil
  apply hholding.draw (hrising.sublist hsub)
  · rintro rfl
    exact hone k' rfl
  · exact fun k hk => hsize k (hsub.subset hk)

/-- One knot more. -/
theorem feed (h : Segmented f epsilon knots pieces last s) (hε : 0 < epsilon.val)
    (hrising : Rising knots) (hsize : ∀ k ∈ knots, k.2.val < 2 ^ 32)
    (hk : ∀ k' ∈ knots, k'.1 < k.1) :
    (orFail (PGM.feed f k.1 k.2 s)).Ensures fun s' =>
      ∃ pieces' last', Segmented f epsilon (knots ++ [k]) pieces' last' s' := by
  rw [PGM.feed, orFail_bind]
  apply (h.holding.addPoint hε fun k' hk' => hk k' (h.mem_of_mem_last hk')).bind
  intro r hr
  rcases hr with ⟨htaken, hholding⟩ | ⟨rfl, hlen, hnot⟩
  · rw [if_pos htaken, orFail_pure]
    apply Ensures.pure
    refine ⟨pieces, last ++ [k], ?_, h.greedy.extend hholding.feasible, hholding, h.out, h.count⟩
    rw [← h.flatten]
    simp
  · -- the segment of the piece is handed out, and a new one begins
    rw [if_neg (by simp), orFail_bind]
    have hcs : ({ s.opt with lastX := k.1, pointsInHull := 0 } :
        OptimalPiecewiseLinearModel).getSegment = s.opt.getSegment := by
      have hcount := h.holding.count
      rw [getSegment, getSegment, if_neg (by simp), if_neg (by omega)]
    rw [hcs]
    have hmore : ∀ k', last = [k'] → 2 * epsilon.val ≤ k'.2.val := by
      rintro k' rfl
      exact absurd hlen (by simp)
    apply (h.draw hrising hsize hmore).bind
    intro segment hsegment
    rw [orFail_bind]
    have hempty : Holding epsilon [] { s.opt with lastX := k.1, pointsInHull := 0 } :=
      .emptied h.holding.epsilon_eq rfl
    apply (hempty.addPoint (k := k) hε fun k' hk' => absurd hk' List.not_mem_nil).bind
    intro r hr
    rcases hr with ⟨_, hholding⟩ | ⟨_, hlen, _⟩
    · rw [orFail_pure]
      apply Ensures.pure
      refine ⟨pieces ++ [last], [k], ?_, h.greedy.next hnot (feasible_singleton epsilon k),
        hholding, ?_, ?_⟩
      · rw [← h.flatten]
        simp
      · exact List.rel_append h.out (.cons hsegment .nil)
      · rw [h.count, List.length_append, List.length_singleton]
    · cases hlen

/-- All knots, after the first one. -/
theorem feedAll {more : List Knot} (h : Segmented f epsilon knots pieces last s)
    (hε : 0 < epsilon.val) (hrising : Rising (knots ++ more))
    (hsize : ∀ k ∈ knots ++ more, k.2.val < 2 ^ 32) :
    (orFail (more.foldlM (fun s k => PGM.feed f k.1 k.2 s) s)).Ensures fun s' =>
      ∃ pieces' last', Segmented f epsilon (knots ++ more) pieces' last' s' := by
  induction more generalizing knots pieces last s with
  | nil =>
      rw [List.append_nil, List.foldlM_nil, orFail_pure]
      exact Ensures.pure ⟨pieces, last, h⟩
  | cons k more ih =>
      rw [List.foldlM_cons, orFail_bind]
      have hparts := List.pairwise_append.mp hrising
      have hmem : ∀ k' ∈ knots, k' ∈ knots ++ k :: more := fun k' => List.mem_append_left _
      apply (h.feed hε hparts.1 (fun k' hk' => hsize k' (hmem k' hk'))
        fun k' hk' => (hparts.2.2 k' hk' k List.mem_cons_self).1).bind
      rintro s' ⟨pieces', last', h'⟩
      rw [List.append_cons] at hrising hsize ⊢
      exact ih h' hrising hsize

end Segmented

/-! ## Ranks -/

/-- A horizontal line fits knots whose ranks are at most `2 * epsilon` apart. -/
theorem fitting_of_ranks (first : Size) (hlow : ∀ k ∈ knots, first ≤ k.2)
    (hhigh : ∀ k ∈ knots, k.2.val ≤ first.val + 2 * epsilon.val) : Fitting epsilon knots := by
  refine ⟨⟨0, (plusEpsilon epsilon first).val⟩, ?_⟩
  intro b hb
  obtain ⟨k, hk, rfl⟩ := List.mem_map.mp hb
  have hle := Fin.le_def.mp (hlow k hk)
  have hup := hhigh k hk
  have hlt := k.2.isLt
  rw [Line.eval, zero_mul, zero_add]
  constructor
  · apply Nat.cast_le.mpr
    rw [val_minusEpsilon, val_plusEpsilon]
    omega
  · apply Nat.cast_le.mpr
    rw [val_plusEpsilon, val_plusEpsilon]
    omega

/-- The first rank of a piece. -/
def firstRank (piece : List Knot) : Nat := ((piece.map Prod.snd).headD 0).val

/-- A piece that a line fits no more with the next knot spans more than `2 * epsilon` ranks. -/
theorem Rising.firstRank_add_le {piece : List Knot} (hrising : Rising (piece ++ [k]))
    (hne : piece ≠ []) (hnot : ¬ Fitting epsilon (piece ++ [k])) :
    firstRank piece + (2 * epsilon.val + 1) ≤ k.2.val := by
  obtain ⟨a, rest, rfl⟩ := List.exists_cons_of_ne_nil hne
  have hbelow : ∀ b ∈ a :: rest ++ [k], a.2 ≤ b.2 := by
    intro b hb
    rcases List.mem_cons.mp hb with rfl | hb
    · exact le_rfl
    · exact (List.rel_of_pairwise_cons hrising hb).2
  have habove : ∀ b ∈ a :: rest ++ [k], b.2 ≤ k.2 := by
    intro b hb
    rcases List.mem_append.mp hb with hb | hb
    · exact ((List.pairwise_append.mp hrising).2.2 b hb k (by simp)).2
    · rw [List.mem_singleton.mp hb]
  by_contra hlt
  apply hnot
  apply fitting_of_ranks a.2 hbelow
  intro b hb
  have hle := Fin.le_def.mp (habove b hb)
  have hrank : firstRank (a :: rest) = a.2.val := rfl
  omega

/-- So do all pieces of a greedy cut but the last one. -/
theorem Rising.steps (hrising : Rising pieces.flatten) (hgreedy : Greedy (Fitting epsilon) pieces) :
    pieces.IsChain fun a b => firstRank a + (2 * epsilon.val + 1) ≤ firstRank b := by
  apply List.isChain_iff_forall_rel_of_append_cons_cons.mpr
  intro a b l1 l2 heq
  obtain ⟨k, rest, rfl⟩ := List.exists_cons_of_ne_nil (hgreedy.ne_nil b (by simp [heq]))
  have hinfix : a ++ [k] <:+: pieces.flatten := by
    rw [heq]
    exact ⟨l1.flatten, rest ++ l2.flatten, by simp⟩
  apply (hrising.sublist hinfix.sublist).firstRank_add_le
  · exact hgreedy.ne_nil a (by simp [heq])
  · exact List.isChain_iff_forall_rel_of_append_cons_cons.mp hgreedy.cut heq k rfl

/-- So the bar of a knot that makes up the last piece is not cut off. -/
theorem Segmented.last_single (h : Segmented f epsilon knots pieces last s)
    (hrising : Rising knots) (hmore : 2 ≤ knots.length) (hlast : last = [k]) :
    2 * epsilon.val ≤ k.2.val := by
  subst hlast
  have hflat := h.flatten
  rw [← hflat] at hrising
  rcases List.eq_nil_or_concat pieces with rfl | ⟨front, piece, rfl⟩
  · rw [← hflat] at hmore
    exact absurd hmore (by simp)
  · have hsteps := hrising.steps h.greedy
    have hassoc : front.concat piece ++ [[k]] = front ++ piece :: [k] :: [] := by simp
    have hstep := List.isChain_iff_forall_rel_of_append_cons_cons.mp hsteps hassoc
    have hrank : firstRank [k] = k.2.val := rfl
    omega

/-- Their number. -/
theorem Rising.spread (hrising : Rising pieces.flatten)
    (hgreedy : Greedy (Fitting epsilon) pieces) {n : Nat}
    (hn : ∀ k ∈ pieces.flatten, k.2.val ≤ n) :
    (2 * epsilon.val + 1) * (pieces.length - 1) ≤ n := by
  cases pieces with
  | nil => exact Nat.zero_le n
  | cons piece rest =>
      have hlast := List.getLast?_eq_some_getLast (List.cons_ne_nil piece rest)
      generalize (piece :: rest).getLast _ = last at hlast
      have hmem := List.mem_of_getLast? hlast
      obtain ⟨k, tail, rfl⟩ := List.exists_cons_of_ne_nil (hgreedy.ne_nil last hmem)
      have hspan := add_mul_le_of_isChain (hrising.steps hgreedy) hlast
      have hend : k.2.val ≤ n := hn k (List.mem_flatten.mpr ⟨_, hmem, List.mem_cons_self⟩)
      exact (Nat.le_add_left _ _).trans (hspan.trans hend)

end PGM
