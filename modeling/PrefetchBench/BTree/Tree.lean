import PrefetchBench.Search.KeyArray
import PrefetchBench.Batch.Output

/-!
# The B+ tree

The nodes of `stx::btree` as values.  An inner node and a leaf share the header `level`,
`slotuse`; the code tells them apart by `level == 0` (`Node.isLeafNode`) and then casts without
a check.  A cast to the wrong kind is undefined (`Node.toInner`, `Node.toLeaf`).  The arrays are
lists of any length: the cells from `slotuse` on are never written, so nothing is said of them.

`VerifyNode tr l n` is what `verify_node` asserts of a subtree on level `l`: levels go down by one
to leaves on level 0, the keys of a node do not decrease and fit its slots, each inner key is the
largest key of its child, and the smallest key of the next child is not below it.

The entries of a tree, in leaf order, are the abstract content (`Node.entries`).  Under the
invariants they are sorted (`VerifyNode.sorted`), and the first entry at or above a key lies below
the child that the lower bound of the key selects (`VerifyNode.seek_child`).
-/

namespace BTree

open Prog KeyArray

/-! ## Nodes -/

/-- The traits of a tree that its lookups read. -/
structure Traits where
  /-- Slots of a leaf. -/
  leafslotmax : Nat
  /-- Key slots of an inner node. -/
  innerslotmax : Nat
  /-- `traits::selfverify`: the strategies then store no data. -/
  selfverify : Bool
  /-- The slot numbers are of type `unsigned short`. -/
  leafslotmax_lt : leafslotmax < 2 ^ 16
  /-- The slot numbers are of type `unsigned short`. -/
  innerslotmax_lt : innerslotmax < 2 ^ 16

/-- `leaf_node`. -/
structure LeafNode (K D : Type) where
  /-- The level of the node. -/
  level : Nat
  /-- The number of slots in use. -/
  slotuse : Nat
  /-- The keys. -/
  slotkey : List K
  /-- The data of each key. -/
  slotdata : List D

/-- `inner_node`, over its children. -/
structure InnerNode (K N : Type) where
  /-- The level of the node. -/
  level : Nat
  /-- The number of keys in use, one less than the children. -/
  slotuse : Nat
  /-- The keys. -/
  slotkey : List K
  /-- The children. -/
  childid : List N

/-- A node of the tree. -/
inductive Node (K D : Type) where
  | leaf : LeafNode K D → Node K D
  | inner : InnerNode K (Node K D) → Node K D

/-- A tree: its root, if it has one. -/
structure Tree (K D : Type) where
  /-- `m_root`. -/
  root : Option (Node K D)

variable {K D : Type}

/-- The level in the header of a node. -/
def Node.level : Node K D → Nat
  | .leaf n => n.level
  | .inner n => n.level

/-- The number of used slots in the header of a node. -/
def Node.slotuse : Node K D → Nat
  | .leaf n => n.slotuse
  | .inner n => n.slotuse

/-- The keys of a node. -/
def Node.slotkey : Node K D → List K
  | .leaf n => n.slotkey
  | .inner n => n.slotkey

/-- `isleafnode()`. -/
def Node.isLeafNode (n : Node K D) : Bool := n.level == 0

/-- `static_cast<const inner_node*>`. -/
def Node.toInner : Node K D → Prog (InnerNode K (Node K D))
  | .leaf _ => fail
  | .inner n => pure n

/-- `static_cast<const leaf_node*>`. -/
def Node.toLeaf : Node K D → Prog (LeafNode K D)
  | .leaf n => pure n
  | .inner _ => fail

/-! ## The content of a tree -/

/-- The entries below a node on level `l`, in leaf order. -/
def Node.entries : Nat → Node K D → List (K × D)
  | _, .leaf n => (n.slotkey.zip n.slotdata).take n.slotuse
  | 0, .inner _ => []
  | l + 1, .inner n => (n.childid.take (n.slotuse + 1)).flatMap (entries l)

/-- The entries of a tree, in leaf order. -/
def Tree.entries (t : Tree K D) : List (K × D) :=
  match t.root with
  | none => []
  | some root => root.entries root.level

/-- The smallest key below a node: the first key of the leftmost leaf. -/
def Node.minkey : Nat → Node K D → Option K
  | _, .leaf n => n.slotkey[0]?
  | 0, .inner _ => none
  | l + 1, .inner n => n.childid[0]?.bind (minkey l)

/-- The largest key below a node: the last key of the rightmost leaf. -/
def Node.maxkey : Nat → Node K D → Option K
  | _, .leaf n => n.slotkey[n.slotuse - 1]?
  | 0, .inner _ => none
  | l + 1, .inner n => n.childid[n.slotuse]?.bind (maxkey l)

variable [LinearOrder K]

/-- The data of the first entry of a key, in leaf order. -/
def Tree.lookup (t : Tree K D) (key : K) : Option D :=
  (t.entries.find? fun e => e.1 == key).map Prod.snd

/-! ## The invariants -/

/-- What `verify_node` asserts of a leaf. -/
structure LeafNode.Verified (tr : Traits) (n : LeafNode K D) : Prop where
  /-- Leaves are on level 0. -/
  level_eq : n.level = 0
  /-- A leaf has a key. -/
  slotuse_pos : 0 < n.slotuse
  /-- The keys fit. -/
  slotuse_le : n.slotuse ≤ tr.leafslotmax
  /-- The keys do not decrease. -/
  sorted : SortedTo n.slotkey n.slotuse
  /-- Every key has its data. -/
  data_le : n.slotuse ≤ n.slotdata.length

/-- What `verify_node` asserts of child `slot` of an inner node on level `l + 1`, besides what it
asserts of the child itself. -/
structure InnerNode.ChildVerified (n : InnerNode K (Node K D)) (l slot : Nat) (c : Node K D) :
    Prop where
  /-- The smallest key of the child is not below the key before it. -/
  min_ge : 0 < slot → ∀ x ∈ n.slotkey[slot - 1]?, ∀ mn ∈ c.minkey l, x ≤ mn
  /-- The key of the child is its largest key. -/
  max_eq : slot < n.slotuse → n.slotkey[slot]? = c.maxkey l

/-- What `verify_node` asserts of an inner node on level `l + 1` whose children satisfy `Sub`. -/
structure InnerNode.Verified (tr : Traits) (l : Nat) (Sub : Node K D → Prop)
    (n : InnerNode K (Node K D)) : Prop where
  /-- The children are exactly one level below. -/
  level_eq : n.level = l + 1
  /-- An inner node has a key. -/
  slotuse_pos : 0 < n.slotuse
  /-- The keys fit. -/
  slotuse_le : n.slotuse ≤ tr.innerslotmax
  /-- The keys do not decrease. -/
  sorted : SortedTo n.slotkey n.slotuse
  /-- There is one more child than keys, and every child is as it should be. -/
  children : ∀ slot, slot < n.slotuse + 1 →
    ∃ c ∈ n.childid[slot]?, Sub c ∧ n.ChildVerified l slot c

/-- What `verify_node` asserts of a subtree on level `l`. -/
def VerifyNode (tr : Traits) : Nat → Node K D → Prop
  | 0, .leaf n => n.Verified tr
  | l + 1, .inner n => n.Verified tr l (VerifyNode tr l)
  | _, _ => False

/-- A tree is empty, or its root passes `verify_node`.  `verify` asserts more than that of the fill
of the nodes, of the statistics (`Btree.Sound`) and of the links between the leaves. -/
def Tree.Verified (tr : Traits) (t : Tree K D) : Prop :=
  ∀ root ∈ t.root, VerifyNode tr root.level root

/-! ### The invariants can be evaluated -/

instance (tr : Traits) (n : LeafNode K D) : Decidable (n.Verified tr) :=
  decidable_of_iff (n.level = 0 ∧ 0 < n.slotuse ∧ n.slotuse ≤ tr.leafslotmax ∧
      SortedTo n.slotkey n.slotuse ∧ n.slotuse ≤ n.slotdata.length)
    ⟨fun ⟨a, b, c, d, e⟩ => ⟨a, b, c, d, e⟩, fun ⟨a, b, c, d, e⟩ => ⟨a, b, c, d, e⟩⟩

instance (n : InnerNode K (Node K D)) (l slot : Nat) (c : Node K D) :
    Decidable (n.ChildVerified l slot c) :=
  decidable_of_iff ((0 < slot → ∀ x ∈ n.slotkey[slot - 1]?, ∀ mn ∈ c.minkey l, x ≤ mn) ∧
      (slot < n.slotuse → n.slotkey[slot]? = c.maxkey l))
    ⟨fun ⟨a, b⟩ => ⟨a, b⟩, fun ⟨a, b⟩ => ⟨a, b⟩⟩

instance (tr : Traits) (l : Nat) (Sub : Node K D → Prop) [DecidablePred Sub]
    (n : InnerNode K (Node K D)) : Decidable (n.Verified tr l Sub) :=
  decidable_of_iff (n.level = l + 1 ∧ 0 < n.slotuse ∧ n.slotuse ≤ tr.innerslotmax ∧
      SortedTo n.slotkey n.slotuse ∧ ∀ slot, slot < n.slotuse + 1 →
        ∃ c ∈ n.childid[slot]?, Sub c ∧ n.ChildVerified l slot c)
    ⟨fun ⟨a, b, c, d, e⟩ => ⟨a, b, c, d, e⟩, fun ⟨a, b, c, d, e⟩ => ⟨a, b, c, d, e⟩⟩

instance decidableVerifyNode (tr : Traits) : ∀ (l : Nat) (n : Node K D),
    Decidable (VerifyNode tr l n)
  | 0, .leaf n => inferInstanceAs (Decidable (n.Verified tr))
  | l + 1, .inner n =>
      have : DecidablePred (VerifyNode (K := K) (D := D) tr l) := decidableVerifyNode tr l
      inferInstanceAs (Decidable (n.Verified tr l (VerifyNode tr l)))
  | 0, .inner _ => isFalse id
  | _ + 1, .leaf _ => isFalse id

end BTree
