import PrefetchBench.BTree.Store

/-!
# Bulk loading the B+ tree

`bulk_load` fills leaves with the items of a sorted range, puts inner nodes over the leaves, and
inner nodes over these until there is one node.  On every level it takes the least number of nodes
and gives each of them in turn its share of what is left.

The leaves are visited along their links, which is their order.  The inner nodes of a level, with
the last key below each, stand in an array `nextlevel`, in which those of the next level overwrite
the ones already used.
-/

namespace BTree

open Prog KeyArray Ordered

variable {K D : Type} [Inhabited K] [Inhabited D]

/-! ## The leaves -/

/-- The state of the loop over the leaves. -/
structure LeafLoad (K D : Type) where
  /-- The leaves so far, linked in this order. -/
  leaves : List (LeafNode K D)
  /-- The place of the iterator `it` in the range. -/
  it : Nat
  /-- `num_items` -/
  numItems : Nat
  /-- `m_stats` -/
  stats : TreeStats

/-- `leaf->set_slot(s, *it)` for the slots of a leaf. -/
def LeafNode.fill (items : List (K × D)) (it slotuse : Nat) (leaf : LeafNode K D) :
    Prog (LeafNode K D) :=
  forRange slotuse (fun s leaf => do
    let e ← read items (it + s)
    let slotkey ← write leaf.slotkey s e.1
    let slotdata ← write leaf.slotdata s e.2
    pure { leaf with slotkey := slotkey, slotdata := slotdata }) { leaf with slotuse := slotuse }

/-- One leaf. -/
def loadLeaf (tr : Traits) (items : List (K × D)) (numLeaves i : Nat) (st : LeafLoad K D) :
    Prog (LeafLoad K D) := do
  let (leaf, stats) := allocateLeaf tr st.stats
  let slotuse := st.numItems / (numLeaves - i)
  let leaf ← leaf.fill items st.it slotuse
  pure ⟨st.leaves ++ [leaf], st.it + slotuse, st.numItems - slotuse, stats⟩

/-- The loop over the leaves. -/
def loadLeaves (tr : Traits) (items : List (K × D)) (numLeaves : Nat) (stats : TreeStats) :
    Prog (LeafLoad K D) := do
  let st ← forRange numLeaves (loadLeaf tr items numLeaves) ⟨[], 0, items.length, stats⟩
  assert (st.it == items.length && st.numItems == 0)
  pure st

/-! ## A level of inner nodes -/

/-- The entries of the array `nextlevel`: a node, and the last key below it. -/
abbrev NextLevel (K D : Type) := List (Node K D × K)

/-- The state of the loop over the inner nodes of a level. -/
structure InnerLoad (K D : Type) where
  /-- `nextlevel` -/
  nextlevel : NextLevel K D
  /-- The place of the next child: `inner_index`, or that of `leaf`. -/
  index : Nat
  /-- `num_leaves`, `num_children` -/
  numChildren : Nat
  /-- `m_stats` -/
  stats : TreeStats

/-- Copy the keys and the children of an inner node. -/
def InnerNode.fill (child : Nat → Prog (Node K D × K)) (index slotuse : Nat)
    (n : InnerNode K (Node K D)) : Prog (InnerNode K (Node K D) × K) := do
  let n ← forRange slotuse (fun s n => do
    let c ← child (index + s)
    let slotkey ← write n.slotkey s c.2
    let childid ← write n.childid s c.1
    pure { n with slotkey := slotkey, childid := childid }) { n with slotuse := slotuse }
  let c ← child (index + slotuse)
  let childid ← write n.childid slotuse c.1
  pure ({ n with childid := childid }, c.2)

/-- One inner node. -/
def loadInner (tr : Traits) (level : Nat) (child : NextLevel K D → Nat → Prog (Node K D × K))
    (numParents i : Nat) (st : InnerLoad K D) : Prog (InnerLoad K D) := do
  let (n, stats) := allocateInner tr level st.stats
  let share := st.numChildren / (numParents - i)
  assert (decide (0 < share))
  let (n, key) ← n.fill (child st.nextlevel) st.index (share - 1)
  let nextlevel ← write st.nextlevel i (.inner n, key)
  pure ⟨nextlevel, st.index + share, st.numChildren - share, stats⟩

/-- The loop over the inner nodes of a level. -/
def loadLevel (tr : Traits) (level : Nat) (child : NextLevel K D → Nat → Prog (Node K D × K))
    (numParents numChildren : Nat) (nextlevel : NextLevel K D) (stats : TreeStats) :
    Prog (InnerLoad K D) := do
  let st ← forRange numParents (loadInner tr level child numParents)
    ⟨nextlevel, 0, numChildren, stats⟩
  assert (st.numChildren == 0)
  pure st

/-- The children of the first level of inner nodes are the leaves. -/
def leafChild (leaves : List (LeafNode K D)) (j : Nat) : Prog (Node K D × K) := do
  let leaf ← read leaves j
  let key ← back leaf.slotkey leaf.slotuse
  pure (.leaf leaf, key)

/-- `num_parents` -/
def numParents (tr : Traits) (numChildren : Nat) : Nat :=
  (numChildren + (tr.innerslotmax + 1) - 1) / (tr.innerslotmax + 1)

/-- The state of the loop over the levels. -/
structure LevelLoad (K D : Type) where
  /-- `level` -/
  level : Nat
  /-- `num_parents` -/
  width : Nat
  /-- `nextlevel` -/
  nextlevel : NextLevel K D
  /-- `m_stats` -/
  stats : TreeStats

/-- One level of inner nodes over inner nodes. -/
def loadUpper (tr : Traits) (st : LevelLoad K D) : Prog (LevelLoad K D) := do
  let width := numParents tr st.width
  let r ← loadLevel tr st.level read width st.width st.nextlevel st.stats
  pure ⟨st.level + 1, width, r.nextlevel, r.stats⟩

/-- The levels over the leaves: the root. -/
def loadInners (tr : Traits) (leaves : List (LeafNode K D)) (stats : TreeStats) :
    Prog (Node K D × TreeStats) := do
  let width := numParents tr leaves.length
  let r ← loadLevel tr 1 (fun _ => leafChild leaves) width leaves.length
    (List.replicate width default) stats
  assert (r.index == leaves.length)
  let st ← whileM (fun st => pure (st.width != 1)) (loadUpper tr) ⟨2, width, r.nextlevel, r.stats⟩
  let root ← read st.nextlevel 0
  pure (root.1, st.stats)

/-! ## bulk_load -/

/-- `bulk_load` -/
def Btree.bulkLoad [LinearOrder K] (p : Params) (t : Btree K D) (items : List (K × D)) :
    Prog (Btree K D) := do
  assert t.empty
  let stats := { t.stats with itemcount := items.length }
  let numLeaves := (items.length + p.leafslotmax - 1) / p.leafslotmax
  let st ← loadLeaves p.toTraits items numLeaves stats
  -- the head of the chain is its tail
  if st.leaves.length ≤ 1 then pure ⟨⟨st.leaves.head?.map .leaf⟩, st.stats⟩
  else do
    assert (st.stats.leaves == numLeaves)
    let (root, stats) ← loadInners p.toTraits st.leaves st.stats
    let t : Btree K D := ⟨⟨some root⟩, stats⟩
    (if p.selfverify then t.verify p.toTraits else pure ⟨⟩)
    pure t

end BTree
