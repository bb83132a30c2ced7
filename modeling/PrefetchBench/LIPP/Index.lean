import PrefetchBench.Memory.Bitmap
import PrefetchBench.Memory.Heap

/-!
# LIPP trees

A node of a LIPP tree predicts a position for every key, and looks nowhere else.  Two bits say what
the item at a position is: nothing, a key with its value, or the pointer to a child.  The bits and
the items are read together as an `Entry` (`Node.entry`), and a key takes a single path down, the
`Descent`.

Nodes live in a heap, so nothing keeps a tree from running in circles.  `Tree` is the finite ones,
and there every descent ends (`Tree.descent`).
-/

namespace LIPP

open Prog

variable {K V : Type}

/-- `Item`, as what was last written to the union. -/
inductive Item (K V : Type) where
  /-- Nothing yet. -/
  | raw
  /-- `comp.data` -/
  | data (key : K) (value : V)
  /-- `comp.child` -/
  | child (ptr : Nat)

/-- `item.comp.data` -/
def Item.getData : Item K V → Option (K × V)
  | .data key value => some (key, value)
  | _ => none

/-- `item.comp.child` -/
def Item.getChild : Item K V → Option Nat
  | .child ptr => some ptr
  | _ => none

/-- `Node` -/
structure Node (K V : Type) where
  /-- The node is special for two keys. -/
  isTwo : Bool
  /-- The size of the tree when the node was created. -/
  buildSize : Nat
  /-- The size of the tree. -/
  size : Nat
  /-- A fixed node is not rebuilt. -/
  fixed : Bool
  /-- The insertions below the node. -/
  numInserts : Nat
  /-- Those of them that met a key. -/
  numInsertToData : Nat
  /-- The number of items. -/
  numItems : Nat
  /-- The model of the node, as what `PREDICT_POS` makes of it. -/
  predictPos : K → Nat
  /-- The items. -/
  items : List (Item K V)
  /-- 1 for an item that is nothing. -/
  noneBitmap : Bitmap
  /-- 1 for an item that is a child. -/
  childBitmap : Bitmap
  /-- The predictions are positions of items. -/
  predictPos_lt : ∀ key, predictPos key < numItems

/-! ## Positions -/

/-- `PREDICT_POS`, from what `predict_double` computes: 1073741823 is
`std::numeric_limits<int>::max() / 2`. -/
def clampPos (numItems : Nat) (v : ℚ) : Nat :=
  if 1073741823 < v then numItems - 1 else if v < 0 then 0 else min (numItems - 1) ⌊v⌋.toNat

/-- It is a position of an item. -/
theorem clampPos_lt {numItems : Nat} {v : ℚ} (h : 0 < numItems) :
    clampPos numItems v < numItems := by
  rw [clampPos]
  split
  · omega
  · split <;> omega

/-- It is monotone. -/
theorem clampPos_mono (numItems : Nat) : Monotone (clampPos numItems) := by
  intro v v' h
  have hfloor := Int.floor_mono h
  rw [clampPos, clampPos]
  split
  · rename_i hv
    rw [if_pos (hv.trans_le h)]
  · split
    · exact Nat.zero_le _
    · rename_i hv
      rw [if_neg (not_lt.mpr ((not_lt.mp hv).trans h))]
      split <;> omega

/-! ## The items of a node -/

/-- What an item is. -/
inductive Entry (K V : Type) where
  /-- Nothing. -/
  | none
  /-- A key with its value. -/
  | data (key : K) (value : V)
  /-- A child. -/
  | child (ptr : Nat)

/-- What the item at a position is.  The bit of a child is never set where the bit of nothing
is. -/
def Node.entry (node : Node K V) (pos : Nat) : Option (Entry K V) :=
  match node.noneBitmap.bit pos, node.childBitmap.bit pos, node.items[pos]? with
  | some true, some false, _ => some .none
  | some false, some false, some (.data key value) => some (.data key value)
  | some false, some true, some (.child ptr) => some (.child ptr)
  | _, _, _ => none

/-- The tests of the lookup loops at a position. -/
def Node.probe (node : Node K V) (pos : Nat) : Prog (Entry K V) := do
  if (← node.noneBitmap.get pos) then pure .none else do
    if (← node.childBitmap.get pos) then do
      let item ← read node.items pos
      let ptr ← ofOption item.getChild
      pure (.child ptr)
    else do
      let item ← read node.items pos
      let data ← ofOption item.getData
      pure (.data data.1 data.2)

section Entry

variable {node : Node K V} {pos ptr : Nat} {key : K} {value : V} {e : Entry K V}

theorem Node.entry_none_iff : node.entry pos = some .none ↔
    node.noneBitmap.bit pos = some true ∧ node.childBitmap.bit pos = some false := by
  rw [entry]
  split <;> simp_all

theorem Node.entry_data_iff : node.entry pos = some (.data key value) ↔
    node.noneBitmap.bit pos = some false ∧ node.childBitmap.bit pos = some false ∧
      node.items[pos]? = some (.data key value) := by
  rw [entry]
  split <;> simp_all

theorem Node.entry_child_iff : node.entry pos = some (.child ptr) ↔
    node.noneBitmap.bit pos = some false ∧ node.childBitmap.bit pos = some true ∧
      node.items[pos]? = some (.child ptr) := by
  rw [entry]
  split <;> simp_all

/-- The tests read the item as what it is. -/
theorem Node.probe_returns (h : node.entry pos = some e) : (node.probe pos).Returns e := by
  cases e with
  | none =>
      obtain ⟨hnone, _⟩ := entry_none_iff.mp h
      exact (Bitmap.returns_get.mpr hnone).bind (returns_pure.mpr rfl)
  | data key value =>
      obtain ⟨hnone, hchild, hitem⟩ := entry_data_iff.mp h
      refine (Bitmap.returns_get.mpr hnone).bind ((Bitmap.returns_get.mpr hchild).bind ?_)
      refine (returns_read.mpr hitem).bind ((returns_ofOption.mpr rfl).bind ?_)
      exact returns_pure.mpr rfl
  | child ptr =>
      obtain ⟨hnone, hchild, hitem⟩ := entry_child_iff.mp h
      refine (Bitmap.returns_get.mpr hnone).bind ((Bitmap.returns_get.mpr hchild).bind ?_)
      refine (returns_read.mpr hitem).bind ((returns_ofOption.mpr rfl).bind ?_)
      exact returns_pure.mpr rfl

end Entry

/-! ## Finite trees -/

/-- A pointer to a finite tree. -/
inductive Tree (heap : Heap (Node K V)) : Nat → Prop where
  /-- The pointer is not null, every item of its node is something, and every child is a tree. -/
  | node {p : Nat} {n : Node K V} (notNull : p ≠ 0) (content : heap.content p = some n)
      (entries : ∀ pos, pos < n.numItems → (n.entry pos).isSome = true)
      (children : ∀ pos c, pos < n.numItems → n.entry pos = some (.child c) → Tree heap c) :
      Tree heap p

/-- The way of a key down a tree: to the answer in so many steps. -/
inductive Descent [DecidableEq K] (heap : Heap (Node K V)) (key : K) :
    Nat → Nat → Option V → Prop where
  /-- Nothing there. -/
  | none {p : Nat} {n : Node K V} (content : heap.content p = some n)
      (entry : n.entry (n.predictPos key) = some .none) : Descent heap key p 0 none
  /-- The end of the way: the key may be another one. -/
  | data {p : Nat} {n : Node K V} {k : K} {v : V} (content : heap.content p = some n)
      (entry : n.entry (n.predictPos key) = some (.data k v)) :
      Descent heap key p 0 (if k = key then some v else none)
  /-- Down to a child. -/
  | child {p c d : Nat} {n : Node K V} {a : Option V} (content : heap.content p = some n)
      (entry : n.entry (n.predictPos key) = some (.child c)) (below : Descent heap key c d a) :
      Descent heap key p (d + 1) a

theorem Tree.ne_zero {heap : Heap (Node K V)} {p : Nat} (h : Tree heap p) : p ≠ 0 := by
  cases h with
  | node notNull => exact notNull

variable [DecidableEq K] {heap : Heap (Node K V)} {p d : Nat} {key : K} {a : Option V}

/-- In a finite tree every key comes to an answer. -/
theorem Tree.descent (h : Tree heap p) (key : K) : ∃ d a, Descent heap key p d a := by
  induction h with
  | @node p n _ content entries _ ih =>
      have hlt := n.predictPos_lt key
      obtain ⟨e, he⟩ := Option.isSome_iff_exists.mp (entries _ hlt)
      cases e with
      | none => exact ⟨0, _, .none content he⟩
      | data k v => exact ⟨0, _, .data content he⟩
      | child c =>
          obtain ⟨d, a, hd⟩ := ih _ c hlt he
          exact ⟨d + 1, a, .child content he hd⟩

/-! ## `exists` and `at` -/

/-- `LIPP::exists` -/
def existsKey (heap : Heap (Node K V)) (root : Nat) (key : K) : Prog Bool :=
  loop (fun p => do
    let node ← heap.get p
    match (← node.probe (node.predictPos key)) with
    | .none => pure (.inr false)
    | .data k _ => pure (.inr (decide (k = key)))
    | .child c => pure (.inl c)) root

/-- `LIPP::at`, which looks at the bit of a child first, and at the other one only if the check is
not to be skipped. -/
def atKey (heap : Heap (Node K V)) (root : Nat) (key : K) (skipExistenceCheck : Bool) : Prog V :=
  loop (fun p => do
    let node ← heap.get p
    let pos := node.predictPos key
    if (← node.childBitmap.get pos) then do
      let item ← read node.items pos
      let c ← ofOption item.getChild
      pure (.inl c)
    else if skipExistenceCheck then do
      let item ← read node.items pos
      let data ← ofOption item.getData
      pure (.inr data.2)
    else do
      assert (!(← node.noneBitmap.get pos))
      let item ← read node.items pos
      let data ← ofOption item.getData
      assert (decide (data.1 = key))
      pure (.inr data.2)) root

/-- `exists` tells whether there is an answer. -/
theorem Descent.existsKey (h : Descent heap key p d a) :
    (existsKey heap p key).Returns a.isSome := by
  induction h with
  | none content entry =>
      refine (loop_returns _ _ _).mpr (Or.inl ?_)
      refine (Heap.returns_get.mpr content).bind ((Node.probe_returns entry).bind ?_)
      exact returns_pure.mpr rfl
  | @data p n k v content entry =>
      refine (loop_returns _ _ _).mpr (Or.inl ?_)
      refine (Heap.returns_get.mpr content).bind ((Node.probe_returns entry).bind ?_)
      rw [returns_pure]
      by_cases hk : k = key
      · simp [hk]
      · simp [hk]
  | child content entry _ ih =>
      refine (loop_returns _ _ _).mpr (Or.inr ⟨_, ?_, ih⟩)
      refine (Heap.returns_get.mpr content).bind ((Node.probe_returns entry).bind ?_)
      exact returns_pure.mpr rfl

/-- `at` returns the answer if there is one. -/
theorem Descent.atKey {v : V} (h : Descent heap key p d a) (ha : a = some v)
    (skipExistenceCheck : Bool) : (atKey heap p key skipExistenceCheck).Returns v := by
  induction h with
  | none => cases ha
  | @data p n k v' content entry =>
      obtain ⟨hnone, hchild, hitem⟩ := Node.entry_data_iff.mp entry
      split at ha
      · rename_i hk
        cases ha
        refine (loop_returns _ _ _).mpr (Or.inl ?_)
        refine (Heap.returns_get.mpr content).bind ((Bitmap.returns_get.mpr hchild).bind ?_)
        cases skipExistenceCheck with
        | true =>
            refine (returns_read.mpr hitem).bind ((returns_ofOption.mpr rfl).bind ?_)
            exact returns_pure.mpr rfl
        | false =>
            refine (Bitmap.returns_get.mpr hnone).bind (returns_assert_bind.mpr ⟨rfl, ?_⟩)
            refine (returns_read.mpr hitem).bind ((returns_ofOption.mpr rfl).bind ?_)
            exact returns_assert_bind.mpr ⟨decide_eq_true hk, returns_pure.mpr rfl⟩
      · cases ha
  | child content entry _ ih =>
      obtain ⟨_, hchild, hitem⟩ := Node.entry_child_iff.mp entry
      refine (loop_returns _ _ _).mpr (Or.inr ⟨_, ?_, ih ha⟩)
      refine (Heap.returns_get.mpr content).bind ((Bitmap.returns_get.mpr hchild).bind ?_)
      refine (returns_read.mpr hitem).bind ((returns_ofOption.mpr rfl).bind ?_)
      exact returns_pure.mpr rfl

end LIPP
