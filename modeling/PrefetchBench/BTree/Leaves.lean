import PrefetchBench.BTree.Splits

/-!
# Leaves in leaf order

The leaves of a tree, as an iterator passes them, and what it means for an iterator to be where a
key begins: all entries in front of it have smaller keys (`Located`).
-/

namespace BTree

open Ordered

variable {K D : Type} {tr : Traits} {l : Nat}

/-! ## Leaves -/

/-- The leaves below a node on level `l`, in leaf order. -/
def Node.leaves : Nat → Node K D → List (LeafNode K D)
  | _, .leaf n => [n]
  | 0, .inner _ => []
  | l + 1, .inner n => (n.childid.take (n.slotuse + 1)).flatMap (leaves l)

/-- The leaves below a sequence of nodes on level `l`. -/
def leavesOf (l : Nat) (children : List (Node K D)) : List (LeafNode K D) :=
  children.flatMap (Node.leaves l)

/-- The leaves of a tree, in leaf order. -/
def Tree.leaves (t : Tree K D) : List (LeafNode K D) :=
  match t.root with
  | none => []
  | some root => root.leaves root.level

theorem leavesOf_append (l : Nat) (xs ys : List (Node K D)) :
    leavesOf l (xs ++ ys) = leavesOf l xs ++ leavesOf l ys := List.flatMap_append ..

theorem leavesOf_cons (l : Nat) (c : Node K D) (cs : List (Node K D)) :
    leavesOf l (c :: cs) = c.leaves l ++ leavesOf l cs := List.flatMap_cons ..

theorem leavesOf_singleton (l : Nat) (c : Node K D) : leavesOf l [c] = c.leaves l :=
  List.flatMap_singleton _ _

theorem InnerNode.Holding.leaves_eq {inner : InnerNode K (Node K D)} {level : Nat} {keys : List K}
    {children : List (Node K D)} (h : inner.Holding tr level keys children) :
    (Node.inner inner).leaves (l + 1) = leavesOf l children := by
  rw [Node.leaves, h.children_eq]
  rfl

/-- The entries below a node are those of its leaves. -/
theorem entriesOf_leaves : ∀ (l : Nat) (n : Node K D),
    entriesOf 0 ((n.leaves l).map Node.leaf) = n.entries l
  | 0, .leaf n => by rw [Node.leaves, List.map_singleton, entriesOf_cons, entriesOf_nil,
      List.append_nil]
  | _ + 1, .leaf n => by
      rw [Node.leaves, List.map_singleton, entriesOf_cons, entriesOf_nil, List.append_nil]
      rfl
  | 0, .inner _ => rfl
  | l + 1, .inner n => by
      rw [Node.leaves, Node.entries]
      induction n.childid.take (n.slotuse + 1) with
      | nil => rfl
      | cons c cs ih =>
          rw [List.flatMap_cons, List.map_append, entriesOf_append, entriesOf_leaves l c, ih,
            List.flatMap_cons]

theorem entriesOf_leavesOf (l : Nat) (children : List (Node K D)) :
    entriesOf 0 ((leavesOf l children).map Node.leaf) = entriesOf l children := by
  induction children with
  | nil => rfl
  | cons c cs ih =>
      rw [leavesOf_cons, List.map_append, entriesOf_append, entriesOf_leaves, ih, entriesOf_cons]

/-! ## Iterators -/

variable [LinearOrder K] {leaves : List (LeafNode K D)} {key : K} {leaf : LeafNode K D} {slot : Nat}
  {es : List (K × D)}

/-- An iterator is in a sequence of leaves, and all entries in front of it have smaller keys. -/
def Located (leaves : List (LeafNode K D)) (key : K) (leaf : LeafNode K D) (slot : Nat) : Prop :=
  ∃ before behind, leaves = before ++ leaf :: behind ∧
    (∀ e ∈ entriesOf 0 (before.map Node.leaf), e.1 < key) ∧
      ∀ e ∈ ((Node.leaf leaf).entries 0).take slot, e.1 < key

/-- In front of the first entry that is not below a key. -/
theorem lt_of_mem_take_findIdx (key : K) (es : List (K × D)) :
    ∀ e ∈ es.take (es.findIdx fun e => decide (key ≤ e.1)), e.1 < key := by
  intro e he
  obtain ⟨i, hi, rfl⟩ := List.mem_iff_getElem.mp he
  rw [List.length_take, lt_min_iff] at hi
  rw [List.getElem_take]
  have hnot := List.not_of_lt_findIdx hi.1
  simpa using hnot

/-- In a leaf. -/
theorem Located.single (h : leaf.Holding tr es) (hslot : ∀ e ∈ es.take slot, e.1 < key) :
    Located (leavesOf 0 [.leaf leaf]) key leaf slot := by
  refine ⟨[], [], rfl, fun e he => absurd he List.not_mem_nil, ?_⟩
  rw [h.entries_eq]
  exact hslot

/-- In the halves of a leaf. -/
theorem Located.halves {left right : LeafNode K D} {m : Nat} {position : LeafNode K D × Nat}
    (hleft : left.Holding tr (es.take m)) (hright : right.Holding tr (es.drop m))
    (hslot : ∀ e ∈ es.take slot, e.1 < key)
    (hposition : position = (left, slot) ∧ slot < m ∨ position = (right, slot - m) ∧ m ≤ slot) :
    Located (leavesOf 0 [.leaf left, .leaf right]) key position.1 position.2 := by
  rcases hposition with ⟨rfl, hlt⟩ | ⟨rfl, hge⟩
  · refine ⟨[], [right], rfl, fun e he => absurd he List.not_mem_nil, ?_⟩
    rw [hleft.entries_eq, List.take_take, Nat.min_eq_left hlt.le]
    exact hslot
  · refine ⟨[left], [], rfl, fun e he => ?_, fun e he => ?_⟩
    · rw [List.map_singleton, entriesOf_cons, entriesOf_nil, List.append_nil,
        hleft.entries_eq] at he
      exact hslot e (List.take_subset_take_left _ hge he)
    · rw [hright.entries_eq, ← List.drop_take] at he
      exact hslot e (List.mem_of_mem_drop he)

/-- Among the nodes of a sequence, behind smaller keys. -/
theorem Located.append {cs xs : List (Node K D)} (h : Located (leavesOf l xs) key leaf slot)
    (hbefore : ∀ e ∈ entriesOf l cs, e.1 < key) (cs' : List (Node K D)) :
    Located (leavesOf l (cs ++ xs ++ cs')) key leaf slot := by
  obtain ⟨before, behind, heq, hin, hslot⟩ := h
  refine ⟨leavesOf l cs ++ before, behind ++ leavesOf l cs', ?_, ?_, hslot⟩
  · rw [leavesOf_append, leavesOf_append, heq]
    simp
  · intro e he
    rw [List.map_append, entriesOf_append, entriesOf_leavesOf] at he
    rcases List.mem_append.mp he with he | he
    · exact hbefore e he
    · exact hin e he

end BTree
