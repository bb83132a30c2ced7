import Mathlib

/-!
# Greedy cuts

A list is cut greedily when every piece has a property that it has no longer with the next element
behind it.  If contiguous parts of a list inherit the property, no cut into pieces with the property
has fewer pieces (`Greedy.length_le`).
-/

namespace Corridor

variable {α : Type*} {P : List α → Prop}

/-- Pieces with a property, none of which has it with the first element of the next one. -/
structure Greedy (P : List α → Prop) (pieces : List (List α)) : Prop where
  /-- No piece is empty. -/
  ne_nil : ∀ piece ∈ pieces, piece ≠ []
  /-- Every piece has the property. -/
  holds : ∀ piece ∈ pieces, P piece
  /-- No piece could go on. -/
  cut : pieces.IsChain fun a b => ∀ x ∈ b.head?, ¬ P (a ++ [x])

namespace Greedy

variable {pieces : List (List α)} {piece last : List α} {x : α}

theorem singleton (h : P [x]) : Greedy P [[x]] where
  ne_nil piece hpiece := by
    rw [List.mem_singleton.mp hpiece]
    exact List.cons_ne_nil x []
  holds piece hpiece := by
    rw [List.mem_singleton.mp hpiece]
    exact h
  cut := List.isChain_singleton _

theorem tail (h : Greedy P (piece :: pieces)) : Greedy P pieces where
  ne_nil p hp := h.ne_nil p (List.mem_cons_of_mem _ hp)
  holds p hp := h.holds p (List.mem_cons_of_mem _ hp)
  cut := h.cut.tail

/-- The last piece goes on. -/
theorem extend (h : Greedy P (pieces ++ [last])) (hP : P (last ++ [x])) :
    Greedy P (pieces ++ [last ++ [x]]) where
  ne_nil p hp := by
    rcases List.mem_append.mp hp with hp | hp
    · exact h.ne_nil p (List.mem_append_left _ hp)
    · rw [List.mem_singleton.mp hp]
      exact List.concat_ne_nil x last
  holds p hp := by
    rcases List.mem_append.mp hp with hp | hp
    · exact h.holds p (List.mem_append_left _ hp)
    · rw [List.mem_singleton.mp hp]
      exact hP
  cut := by
    have hcut := List.isChain_append.mp h.cut
    apply List.isChain_append.mpr
    refine ⟨hcut.1, List.isChain_singleton _, ?_⟩
    intro a ha b hb y hy
    obtain rfl : last ++ [x] = b := by simpa using hb
    have hlast : last ≠ [] := h.ne_nil last (by simp)
    rw [List.head?_append_of_ne_nil _ hlast] at hy
    exact hcut.2.2 a ha last rfl y hy

/-- The last piece ends, and a new one begins. -/
theorem next (h : Greedy P (pieces ++ [last])) (hend : ¬ P (last ++ [x])) (hP : P [x]) :
    Greedy P (pieces ++ [last] ++ [[x]]) where
  ne_nil p hp := by
    rcases List.mem_append.mp hp with hp | hp
    · exact h.ne_nil p hp
    · rw [List.mem_singleton.mp hp]
      exact List.cons_ne_nil x []
  holds p hp := by
    rcases List.mem_append.mp hp with hp | hp
    · exact h.holds p hp
    · rw [List.mem_singleton.mp hp]
      exact hP
  cut := by
    apply List.isChain_append.mpr
    refine ⟨h.cut, List.isChain_singleton _, ?_⟩
    intro a ha b hb y hy
    obtain rfl : last = a := by simpa using ha
    obtain rfl : [x] = b := by simpa using hb
    obtain rfl : x = y := by simpa using hy
    exact hend

/-- No other cut has fewer pieces, even if it starts earlier. -/
theorem length_le_of_suffix (hP : ∀ a b, a <:+: b → P b → P a) {others : List (List α)}
    (hothers : ∀ piece ∈ others, P piece) {pre : List α} (h : Greedy P pieces)
    (heq : others.flatten = pre ++ pieces.flatten) : pieces.length ≤ others.length := by
  induction others generalizing pre pieces with
  | nil =>
      cases pieces with
      | nil => exact Nat.le_refl 0
      | cons piece rest =>
          rw [List.flatten_nil, List.flatten_cons] at heq
          have hnil := List.append_eq_nil_iff.mp (List.append_eq_nil_iff.mp heq.symm).2
          exact absurd hnil.1 (h.ne_nil piece List.mem_cons_self)
  | cons o others ih =>
      cases pieces with
      | nil => exact Nat.zero_le _
      | cons piece rest =>
          rw [List.flatten_cons, List.flatten_cons, ← List.append_assoc] at heq
          have htailP : ∀ p ∈ others, P p := fun p hp => hothers p (List.mem_cons_of_mem _ hp)
          rcases List.append_eq_append_iff.mp heq with ⟨mid, hmid, htail⟩ | ⟨mid, hmid, htail⟩
          · exact Nat.succ_le_succ (ih htailP h.tail htail)
          · cases mid with
            | nil =>
                rw [List.nil_append] at htail
                exact Nat.succ_le_succ (@ih rest htailP [] h.tail htail.symm)
            | cons x mid =>
                -- the first piece of the other cut goes on behind the greedy one
                exfalso
                cases rest with
                | nil => cases htail
                | cons next rest =>
                    obtain ⟨y, tail, rfl⟩ :=
                      List.exists_cons_of_ne_nil (h.ne_nil next (by simp))
                    rw [List.flatten_cons, List.cons_append, List.cons_append] at htail
                    obtain rfl : y = x := (List.cons.inj htail).1
                    apply (List.isChain_cons_cons.mp h.cut).1 y rfl
                    apply hP _ o _ (hothers o List.mem_cons_self)
                    exact ⟨pre, mid, by rw [hmid]; simp⟩

/-- No cut into pieces with the property has fewer pieces. -/
theorem length_le (hP : ∀ a b, a <:+: b → P b → P a) (h : Greedy P pieces)
    {others : List (List α)} (hothers : ∀ piece ∈ others, P piece)
    (heq : others.flatten = pieces.flatten) : pieces.length ≤ others.length :=
  @length_le_of_suffix _ _ _ hP _ hothers [] h heq

end Greedy

/-- Values that grow by `d` at every step. -/
theorem add_mul_le_of_isChain {f : α → Nat} {d : Nat} {l : List α} {a b : α}
    (h : (a :: l).IsChain fun a b => f a + d ≤ f b) (hb : (a :: l).getLast? = some b) :
    f a + d * l.length ≤ f b := by
  induction l generalizing a with
  | nil =>
      obtain rfl : a = b := by simpa using hb
      exact Nat.le_refl _
  | cons c l ih =>
      obtain ⟨hstep, hrest⟩ := List.isChain_cons_cons.mp h
      have hle := ih hrest (by simpa using hb)
      calc f a + d * (c :: l).length = f a + d + d * l.length := by
            rw [List.length_cons]
            ring
        _ ≤ f c + d * l.length := Nat.add_le_add_right hstep _
        _ ≤ f b := hle

end Corridor
