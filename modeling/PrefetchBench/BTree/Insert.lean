import PrefetchBench.BTree.Store

/-!
# Insertion into the B+ tree

`insert_descend` goes down the search path of the key, inserts into the leaf, and splits full nodes
on the way back.  A call leaves its node changed, and hands the right half to its caller when it has
split it, with the key to go between them (`Inserted`).

A full leaf is cut in the middle, and the entry goes to one of the halves.  A full inner node is
cut so that both halves have the same size once the new child is in.  If the new child falls between
the halves, the key between them is its own, and the key at which the node was cut moves to the left
half.

`insert_descend` sets the split key also when it has not split a leaf.  Its caller then does not
read it, so it is not handed on here.
-/

namespace BTree

open Prog KeyArray Ordered

variable {K D : Type}

/-- What a call of `insert_descend` leaves and hands to its caller. -/
structure Inserted (K D : Type) where
  /-- The node of the call. -/
  node : Node K D
  /-- `*splitkey` and `*splitnode` -/
  split : Option (K × Node K D)
  /-- The iterator: a leaf and a slot. -/
  position : LeafNode K D × Nat
  /-- Is there a new entry? -/
  inserted : Bool
  /-- `m_stats` -/
  stats : TreeStats

/-- The two halves of a node, and the key between them. -/
structure Halves (N K : Type) where
  /-- The node that was split. -/
  left : N
  /-- `*_newkey` -/
  key : K
  /-- `*_newleaf`, `*_newinner` -/
  right : N
  /-- `m_stats` -/
  stats : TreeStats

/-! ## Leaves -/

/-- The move of the slots behind a place, and the entry written there. -/
def LeafNode.put (leaf : LeafNode K D) (slot : Nat) (key : K) (value : D) :
    Prog (LeafNode K D) := do
  assert (decide (slot ≤ leaf.slotuse))
  let slotkey ← copyBackward leaf.slotkey slot leaf.slotuse (leaf.slotuse + 1)
  let slotdata ← copyBackward leaf.slotdata slot leaf.slotuse (leaf.slotuse + 1)
  let slotkey ← write slotkey slot key
  let slotdata ← write slotdata slot value
  pure ⟨leaf.level, leaf.slotuse + 1, slotkey, slotdata⟩

/-- `split_leaf_node` -/
def splitLeafNode [Inhabited K] [Inhabited D] (tr : Traits) (leaf : LeafNode K D)
    (stats : TreeStats) : Prog (Halves (LeafNode K D) K) := do
  assert (leaf.slotuse == tr.leafslotmax)
  let mid := leaf.slotuse >>> 1
  let (newleaf, stats) := allocateLeaf tr stats
  let slotkey ← copy leaf.slotkey mid leaf.slotuse newleaf.slotkey
  let slotdata ← copy leaf.slotdata mid leaf.slotuse newleaf.slotdata
  let newkey ← back leaf.slotkey mid
  pure ⟨{ leaf with slotuse := mid }, newkey,
    ⟨newleaf.level, leaf.slotuse - mid, slotkey, slotdata⟩, stats⟩

/-! ## Inner nodes -/

/-- The move of the slots behind a place, and the key and the child written there. -/
def InnerNode.put (inner : InnerNode K (Node K D)) (slot : Nat) (newkey : K)
    (newchild : Node K D) : Prog (InnerNode K (Node K D)) := do
  assert (decide (slot ≤ inner.slotuse))
  let slotkey ← copyBackward inner.slotkey slot inner.slotuse (inner.slotuse + 1)
  let childid ← copyBackward inner.childid slot (inner.slotuse + 1) (inner.slotuse + 2)
  let slotkey ← write slotkey slot newkey
  let childid ← write childid (slot + 1) newchild
  pure ⟨inner.level, inner.slotuse + 1, slotkey, childid⟩

/-- `split_inner_node` -/
def splitInnerNode [Inhabited K] (tr : Traits) (inner : InnerNode K (Node K D)) (addslot : Nat)
    (stats : TreeStats) : Prog (Halves (InnerNode K (Node K D)) K) := do
  assert (inner.slotuse == tr.innerslotmax)
  let mid := inner.slotuse >>> 1
  -- the half that gets the new child is the smaller one
  let mid := if addslot ≤ mid ∧ inner.slotuse - (mid + 1) < mid then mid - 1 else mid
  let (newinner, stats) := allocateInner tr inner.level stats
  let slotkey ← copy inner.slotkey (mid + 1) inner.slotuse newinner.slotkey
  let childid ← copy inner.childid (mid + 1) (inner.slotuse + 1) newinner.childid
  let newkey ← read inner.slotkey mid
  pure ⟨{ inner with slotuse := mid }, newkey,
    ⟨newinner.level, inner.slotuse - (mid + 1), slotkey, childid⟩, stats⟩

/-- The new child falls between the halves: its key becomes the key between them. -/
def Halves.between (tr : Traits) (h : Halves (InnerNode K (Node K D)) K) (newkey : K)
    (newchild : Node K D) : Prog (Halves (InnerNode K (Node K D)) K) := do
  assert (decide (h.left.slotuse + 1 < tr.innerslotmax))
  let slotkey ← write h.left.slotkey h.left.slotuse h.key
  let first ← read h.right.childid 0
  let childid ← write h.left.childid (h.left.slotuse + 1) first
  let rest ← write h.right.childid 0 newchild
  pure ⟨⟨h.left.level, h.left.slotuse + 1, slotkey, childid⟩, newkey,
    { h.right with childid := rest }, h.stats⟩

/-- A full inner node takes a new child behind the one in `slot`. -/
def splitInnerNode.put [Inhabited K] (tr : Traits) (inner : InnerNode K (Node K D)) (slot : Nat)
    (newkey : K) (newchild : Node K D) (stats : TreeStats) :
    Prog (Halves (InnerNode K (Node K D)) K) := do
  let h ← splitInnerNode tr inner slot stats
  if slot = h.left.slotuse + 1 ∧ h.left.slotuse < h.right.slotuse then
    h.between tr newkey newchild
  else if h.left.slotuse + 1 ≤ slot then do
    let right ← h.right.put (slot - (h.left.slotuse + 1)) newkey newchild
    pure { h with right := right }
  else do
    let left ← h.left.put slot newkey newchild
    pure { h with left := left }

variable [LinearOrder K] [Inhabited K] [Inhabited D]

/-! ## insert_descend -/

/-- The entry goes to one of the halves of a full leaf.  If it is the last one of the left half, its
key goes between them. -/
def splitLeafNode.put (tr : Traits) (leaf : LeafNode K D) (slot : Nat) (key : K) (value : D)
    (stats : TreeStats) : Prog (Inserted K D) := do
  let h ← splitLeafNode tr leaf stats
  if h.left.slotuse ≤ slot then do
    let slot := slot - h.left.slotuse
    let right ← h.right.put slot key value
    pure ⟨.leaf h.left, some (h.key, .leaf right), (right, slot), true, h.stats⟩
  else do
    let left ← h.left.put slot key value
    let splitkey := if slot = left.slotuse - 1 then key else h.key
    pure ⟨.leaf left, some (splitkey, .leaf h.right), (left, slot), true, h.stats⟩

/-- `insert_descend` on a leaf. -/
def LeafNode.insert (p : Params) (leaf : LeafNode K D) (key : K) (value : D) (stats : TreeStats) :
    Prog (Inserted K D) := do
  let slot ← stxFindLower p.leafBinary leaf.slotuse leaf.slotkey key
  let present ← (if p.allowDuplicates then pure false else leaf.hasKey key slot)
  if present then
    pure ⟨.leaf leaf, none, (leaf, slot), false, stats⟩
  else if leaf.slotuse = p.leafslotmax then
    splitLeafNode.put p.toTraits leaf slot key value stats
  else do
    let leaf ← leaf.put slot key value
    pure ⟨.leaf leaf, none, (leaf, slot), true, stats⟩

/-- What an inner node does with the outcome of the call on the child in `slot`. -/
def InnerNode.receive (p : Params) (inner : InnerNode K (Node K D)) (slot : Nat)
    (r : Inserted K D) : Prog (Inserted K D) :=
  let inner := { inner with childid := inner.childid.set slot r.node }
  match r.split with
  | none => pure { r with node := .inner inner }
  | some (newkey, newchild) =>
      if inner.slotuse = p.innerslotmax then do
        let h ← splitInnerNode.put p.toTraits inner slot newkey newchild r.stats
        pure ⟨.inner h.left, some (h.key, .inner h.right), r.position, r.inserted, h.stats⟩
      else do
        let inner ← inner.put slot newkey newchild
        pure ⟨.inner inner, none, r.position, r.inserted, r.stats⟩

/-- `insert_descend` -/
def insertDescend (p : Params) (key : K) (value : D) (stats : TreeStats) :
    Node K D → Prog (Inserted K D)
  | .leaf leaf => if leaf.level = 0 then leaf.insert p key value stats else fail
  | .inner inner =>
      if inner.level = 0 then fail
      else do
        let slot ← stxFindLower p.innerBinary inner.slotuse inner.slotkey key
        match _hchild : inner.childid[slot]? with
        | none => fail
        | some child => do
            let r ← insertDescend p key value stats child
            inner.receive p slot r
termination_by n => sizeOf n
decreasing_by
  have hlt := List.sizeOf_lt_of_mem (List.mem_of_getElem? _hchild)
  cases inner
  simp only [Node.inner.sizeOf_spec, InnerNode.mk.sizeOf_spec] at hlt ⊢
  omega

/-- The root after a call of `insert_descend` on it. -/
def Inserted.grow (p : Params) (r : Inserted K D) : Prog (Node K D × TreeStats) :=
  match r.split with
  | none => pure (r.node, r.stats)
  | some (newkey, newchild) => do
      let (newroot, stats) := allocateInner p.toTraits (r.node.level + 1) r.stats
      let slotkey ← write newroot.slotkey 0 newkey
      let childid ← write newroot.childid 0 r.node
      let childid ← write childid 1 newchild
      pure (.inner ⟨newroot.level, 1, slotkey, childid⟩, stats)

/-- `if (m_root == NULL) m_root = allocate_leaf();` -/
def Btree.rooted (p : Params) (t : Btree K D) : Node K D × TreeStats :=
  match t.root with
  | none =>
      let (leaf, stats) := allocateLeaf p.toTraits t.stats
      (.leaf leaf, stats)
  | some root => (root, t.stats)

/-- `if (selfverify)`: the assertions at the end of `insert_start`. -/
def Btree.selfverified (p : Params) (t : Btree K D) (key : K) : Prog Unit :=
  if p.selfverify then do
    t.verify p.toTraits
    let stored ← t.contains p key
    assert stored
  else pure ⟨⟩

/-- `insert_start`, which is `insert`: the tree, the iterator, and whether there is a new entry. -/
def Btree.insert (p : Params) (t : Btree K D) (key : K) (value : D) :
    Prog (Btree K D × (LeafNode K D × Nat) × Bool) := do
  let (root, stats) := t.rooted p
  let r ← insertDescend p key value stats root
  let (root, stats) ← r.grow p
  let stats := if r.inserted then { stats with itemcount := stats.itemcount + 1 } else stats
  let t : Btree K D := ⟨⟨some root⟩, stats⟩
  t.selfverified p key
  pure (t, r.position, r.inserted)

end BTree
