import PrefetchBench.LIPP.Strategies
import PrefetchBench.LIPP.Wrapper

/-!
# Trees that hold data

A node holds a list of keys and values when the item at each position stands for the part of the
data that is predicted there: nothing for no key, the key itself for one, and a child that holds
the part for more (`Holds`).

So the way down is the way to the part that the key is in, and a lookup finds exactly the keys of
the data (`Holds.descent`).  The sizes of the nodes add up (`Holds.verify`).
-/

namespace LIPP

open Prog

variable {K V : Type}

/-- The part of the data that is predicted to a position. -/
def Node.part (node : Node K V) (data : List (K × V)) (pos : Nat) : List (K × V) :=
  data.filter fun item => decide (node.predictPos item.1 = pos)

/-- Every item stands for the part of the data that is predicted to its position. -/
structure Node.Places (node : Node K V) (data : List (K × V)) : Prop where
  /-- No key. -/
  empty : ∀ pos, pos < node.numItems → node.part data pos = [] → node.entry pos = some .none
  /-- One key. -/
  single : ∀ pos key value, pos < node.numItems → node.part data pos = [(key, value)] →
    node.entry pos = some (.data key value)
  /-- More keys. -/
  many : ∀ pos, pos < node.numItems → 2 ≤ (node.part data pos).length →
    ∃ c, node.entry pos = some (.child c)

/-- A pointer to a tree that holds data. -/
inductive Holds (heap : Heap (Node K V)) : Nat → List (K × V) → Prop where
  /-- The node has the size of the data, and its children hold their parts. -/
  | node {p : Nat} {n : Node K V} {data : List (K × V)} (notNull : p ≠ 0)
      (content : heap.content p = some n) (size : n.size = data.length) (places : n.Places data)
      (children : ∀ pos c, pos < n.numItems → n.entry pos = some (.child c) →
        Holds heap c (n.part data pos)) : Holds heap p data

section Part

variable {node : Node K V} {data : List (K × V)} {pos : Nat} {key : K} {value : V}

theorem Node.mem_part {item : K × V} :
    item ∈ node.part data pos ↔ item ∈ data ∧ node.predictPos item.1 = pos := by
  rw [part, List.mem_filter, decide_eq_true_iff]

/-- The three cases of a part. -/
theorem Node.part_cases (node : Node K V) (data : List (K × V)) (pos : Nat) :
    node.part data pos = [] ∨ (∃ key value, node.part data pos = [(key, value)]) ∨
      2 ≤ (node.part data pos).length := by
  cases h : node.part data pos with
  | nil => exact Or.inl rfl
  | cons item rest =>
      cases rest with
      | nil => exact Or.inr (Or.inl ⟨item.1, item.2, rfl⟩)
      | cons item' rest => exact Or.inr (Or.inr (by simp))

/-- Every item is something. -/
theorem Node.Places.entry_isSome (h : node.Places data) (hpos : pos < node.numItems) :
    (node.entry pos).isSome = true := by
  rcases node.part_cases data pos with hp | ⟨key, value, hp⟩ | hp
  · rw [h.empty pos hpos hp]
    rfl
  · rw [h.single pos key value hpos hp]
    rfl
  · obtain ⟨c, hc⟩ := h.many pos hpos hp
    rw [hc]
    rfl

/-- The data that is predicted below a position. -/
def Node.below (node : Node K V) (data : List (K × V)) (pos : Nat) : List (K × V) :=
  data.filter fun item => decide (node.predictPos item.1 < pos)

theorem Node.below_zero (node : Node K V) (data : List (K × V)) : node.below data 0 = [] := by
  simp [below]

theorem Node.length_below_succ (node : Node K V) (data : List (K × V)) (pos : Nat) :
    (node.below data (pos + 1)).length =
      (node.below data pos).length + (node.part data pos).length := by
  induction data with
  | nil => rfl
  | cons item data ih =>
      simp only [below, part, List.filter_cons, decide_eq_true_iff] at ih ⊢
      rcases Nat.lt_trichotomy (node.predictPos item.1) pos with h | h | h
      · rw [if_pos (by omega), if_pos h, if_neg (by omega)]
        simp only [List.length_cons]
        omega
      · rw [if_pos (by omega), if_neg (by omega), if_pos h]
        simp only [List.length_cons]
        omega
      · rw [if_neg (by omega), if_neg (by omega), if_neg (by omega)]
        exact ih

/-- All of the data is predicted somewhere. -/
theorem Node.below_numItems (node : Node K V) (data : List (K × V)) :
    node.below data node.numItems = data := by
  rw [below, List.filter_eq_self]
  intro item _
  exact decide_eq_true (node.predictPos_lt item.1)

end Part

/-! ## Lookups -/

/-- It is a finite tree. -/
theorem Holds.tree {heap : Heap (Node K V)} {p : Nat} {data : List (K × V)}
    (h : Holds heap p data) : Tree heap p := by
  induction h with
  | node notNull content _ places _ ih =>
      refine .node notNull content ?_ ?_
      · intro pos hpos
        exact places.entry_isSome hpos
      · intro pos c hpos hentry
        exact ih pos c hpos hentry

/-- The value of a key in the data. -/
def valueOf [DecidableEq K] (data : List (K × V)) (key : K) : Option V :=
  (data.find? fun item => decide (item.1 = key)).map Prod.snd

section Lookup

variable [DecidableEq K] {heap : Heap (Node K V)} {p : Nat} {data : List (K × V)} {key : K}

theorem valueOf_part (node : Node K V) :
    valueOf (node.part data (node.predictPos key)) key = valueOf data key := by
  rw [valueOf, valueOf, Node.part, List.find?_filter]
  congr 2
  funext item
  by_cases h : item.1 = key
  · simp [h]
  · simp [h]

/-- A key comes to its value in the data. -/
theorem Holds.descent (h : Holds heap p data) (key : K) :
    ∃ d, Descent heap key p d (valueOf data key) := by
  induction h with
  | @node p n data _ content _ places _ ih =>
      have hlt := n.predictPos_lt key
      rw [← valueOf_part n]
      rcases n.part_cases data (n.predictPos key) with hp | ⟨k, v, hp⟩ | hp
      · rw [hp]
        exact ⟨0, .none content (places.empty _ hlt hp)⟩
      · rw [hp]
        have hvalue : valueOf [(k, v)] key = if k = key then some v else none := by
          by_cases hk : k = key
          · simp [valueOf, hk]
          · simp [valueOf, hk]
        rw [hvalue]
        exact ⟨0, .data content (places.single _ k v hlt hp)⟩
      · obtain ⟨c, hc⟩ := places.many _ hlt hp
        obtain ⟨d, hd⟩ := ih _ c hlt hc
        exact ⟨d + 1, .child content hc hd⟩

end Lookup

/-! ## Sizes -/

section Sizes

variable {heap : Heap (Node K V)} {p : Nat} {data : List (K × V)}

/-- A tree on the stack is verified on the way. -/
def Verified (heap : Heap (Node K V)) (p : Nat) : Prop :=
  ∀ rest, (whileM (fun s => pure (!s.isEmpty)) (verifyNode heap) rest).Returns [] →
    (whileM (fun s => pure (!s.isEmpty)) (verifyNode heap) (p :: rest)).Returns []

theorem verified_append {cs rest : List Nat} (h : ∀ c ∈ cs, Verified heap c)
    (hrest : (whileM (fun s => pure (!s.isEmpty)) (verifyNode heap) rest).Returns []) :
    (whileM (fun s => pure (!s.isEmpty)) (verifyNode heap) (cs ++ rest)).Returns [] := by
  induction cs with
  | nil => exact hrest
  | cons c cs ih =>
      apply h c (List.mem_cons_self ..)
      apply ih
      intro c' hc'
      exact h c' (List.mem_cons_of_mem c hc')

theorem Holds.size_eq (h : Holds heap p data) :
    ∃ n, heap.content p = some n ∧ n.size = data.length := by
  cases h with
  | node _ content size => exact ⟨_, content, size⟩

/-- The sum over the items of a node is the size of the data. -/
theorem Node.Places.sumSizes {n : Node K V} (places : n.Places data)
    (children : ∀ pos c, pos < n.numItems → n.entry pos = some (.child c) →
      Holds heap c (n.part data pos) ∧ Verified heap c) (stack : List Nat) :
    (sumSizes heap n stack).Ensures fun r =>
      r.1 = data.length ∧ ∃ cs, r.2 = cs ++ stack ∧ ∀ c ∈ cs, Verified heap c := by
  suffices hloop : (LIPP.sumSizes heap n stack).Ensures fun r =>
      r.1 = (n.below data n.numItems).length ∧
        ∃ cs, r.2 = cs ++ stack ∧ ∀ c ∈ cs, Verified heap c by
    rwa [n.below_numItems] at hloop
  refine Ensures.forRange (fun pos (r : Nat × List Nat) => r.1 = (n.below data pos).length ∧
    ∃ cs, r.2 = cs ++ stack ∧ ∀ c ∈ cs, Verified heap c) ?_ ?_
  · exact ⟨by rw [n.below_zero]; rfl, [], rfl, by simp⟩
  · rintro pos hpos ⟨sum, stack'⟩ ⟨hsum, cs, hcs, hall⟩
    rw [n.length_below_succ]
    rcases n.part_cases data pos with hp | ⟨key, value, hp⟩ | hp
    · obtain ⟨hnone, hchild⟩ := Node.entry_none_iff.mp (places.empty pos hpos hp)
      refine (Bitmap.returns_get.mpr hchild).seq ((Bitmap.returns_get.mpr hnone).seq ?_)
      rw [hp]
      exact Ensures.pure ⟨hsum, cs, hcs, hall⟩
    · obtain ⟨hnone, hchild, _⟩ := Node.entry_data_iff.mp (places.single pos key value hpos hp)
      refine (Bitmap.returns_get.mpr hchild).seq ((Bitmap.returns_get.mpr hnone).seq ?_)
      rw [hp]
      exact Ensures.pure ⟨by rw [hsum]; rfl, cs, hcs, hall⟩
    · obtain ⟨c, hc⟩ := places.many pos hpos hp
      obtain ⟨_, hchild, hitem⟩ := Node.entry_child_iff.mp hc
      obtain ⟨hholds, hverified⟩ := children pos c hpos hc
      obtain ⟨child, hcontent, hsize⟩ := hholds.size_eq
      refine (Bitmap.returns_get.mpr hchild).seq ((returns_read.mpr hitem).seq ?_)
      refine (returns_ofOption.mpr rfl).seq ((Heap.returns_get.mpr hcontent).seq ?_)
      refine Ensures.pure ⟨by rw [hsum, hsize], c :: cs, by rw [hcs]; rfl, ?_⟩
      intro c' hc'
      rcases List.mem_cons.mp hc' with rfl | hc'
      · exact hverified
      · exact hall c' hc'

theorem Holds.verified (h : Holds heap p data) : Verified heap p := by
  induction h with
  | @node p n data _ content size places children ih =>
      intro rest hrest
      obtain ⟨r, hr, hsum, cs, hcs, hall⟩ := places.sumSizes
        (fun pos c hpos hc => ⟨children pos c hpos hc, ih pos c hpos hc⟩) rest
      refine (whileM_returns _ _ _ _).mpr (Or.inr ⟨r.2, returns_pure.mpr rfl, ?_, ?_⟩)
      · refine (Heap.returns_get.mpr content).bind (hr.bind ?_)
        exact returns_assert_bind.mpr ⟨decide_eq_true (hsum.trans size.symm), returns_pure.mpr rfl⟩
      · rw [hcs]
        exact verified_append hall hrest

/-- The sizes of the nodes add up. -/
theorem Holds.verify (h : Holds heap p data) : (verify heap p).Returns ⟨⟩ := by
  refine (h.verified [] ?_).bind (returns_pure.mpr rfl)
  exact (whileM_returns _ _ _ _).mpr (Or.inl ⟨returns_pure.mpr rfl, rfl⟩)

end Sizes

end LIPP
