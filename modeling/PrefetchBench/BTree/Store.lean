import PrefetchBench.BTree.Siblings
import PrefetchBench.BTree.FindGroup
import PrefetchBench.Prog.Arrays

/-!
# The tree with its statistics

`btree` keeps its root and `m_stats`, which count the entries, the leaves and the inner nodes.  New
nodes have arrays of the full size.  `verify` asserts three things besides the order of the keys: no
node but the root has fewer slots in use than half of them (`Shaped`), and the statistics are those
of the tree (`Node.counted`).  `Btree.Sound` is all of it.

Nodes have no addresses here, so the links between leaves are left out: the next leaf of a leaf is
the one behind it in leaf order.  Levels and counts are natural numbers: the level of a tree exceeds
an `unsigned short` only with more than `2 ^ 65536` leaves.
-/

namespace BTree

open Prog KeyArray Ordered

variable {K D : Type}

/-! ## The fields of a tree -/

/-- `tree_stats` -/
@[ext] structure TreeStats where
  /-- The number of entries. -/
  itemcount : Nat
  /-- The number of leaves. -/
  leaves : Nat
  /-- The number of inner nodes. -/
  innernodes : Nat
deriving DecidableEq

namespace TreeStats

instance : Zero TreeStats := ⟨⟨0, 0, 0⟩⟩

instance : Add TreeStats :=
  ⟨fun a b => ⟨a.itemcount + b.itemcount, a.leaves + b.leaves, a.innernodes + b.innernodes⟩⟩

@[simp] theorem itemcount_zero : (0 : TreeStats).itemcount = 0 := rfl

@[simp] theorem leaves_zero : (0 : TreeStats).leaves = 0 := rfl

@[simp] theorem innernodes_zero : (0 : TreeStats).innernodes = 0 := rfl

@[simp] theorem itemcount_add (a b : TreeStats) :
    (a + b).itemcount = a.itemcount + b.itemcount := rfl

@[simp] theorem leaves_add (a b : TreeStats) : (a + b).leaves = a.leaves + b.leaves := rfl

@[simp] theorem innernodes_add (a b : TreeStats) :
    (a + b).innernodes = a.innernodes + b.innernodes := rfl

instance : AddCommMonoid TreeStats where
  add_assoc a b c := by ext <;> simp [Nat.add_assoc]
  zero_add a := by ext <;> simp
  add_zero a := by ext <;> simp
  add_comm a b := by ext <;> simp [Nat.add_comm]
  nsmul := nsmulRec

end TreeStats

/-- `btree` -/
structure Btree (K D : Type) extends Tree K D where
  /-- `m_stats` -/
  stats : TreeStats

/-- The default constructor. -/
def Btree.new : Btree K D := ⟨⟨none⟩, ⟨0, 0, 0⟩⟩

/-- `empty()` -/
def Btree.empty (t : Btree K D) : Bool := t.stats.itemcount == 0

/-- The template parameters that a change of the tree reads. -/
structure Params extends Traits where
  /-- `allow_duplicates` -/
  allowDuplicates : Bool
  /-- `sizeof(n->slotkey) > traits::binsearch_threshold` in a leaf. -/
  leafBinary : Bool
  /-- `sizeof(n->slotkey) > traits::binsearch_threshold` in an inner node. -/
  innerBinary : Bool

/-- `minleafslots` -/
def Traits.minleafslots (tr : Traits) : Nat := tr.leafslotmax / 2

/-- `mininnerslots` -/
def Traits.mininnerslots (tr : Traits) : Nat := tr.innerslotmax / 2

/-! ## New nodes -/

/-- The cells of a new array of children hold no node yet. -/
instance : Inhabited (Node K D) := ⟨.leaf ⟨0, 0, [], []⟩⟩

variable [Inhabited K] [Inhabited D]

/-- `allocate_leaf` -/
def allocateLeaf (tr : Traits) (stats : TreeStats) : LeafNode K D × TreeStats :=
  (⟨0, 0, List.replicate tr.leafslotmax default, List.replicate tr.leafslotmax default⟩,
    { stats with leaves := stats.leaves + 1 })

/-- `allocate_inner` -/
def allocateInner (tr : Traits) (level : Nat) (stats : TreeStats) :
    InnerNode K (Node K D) × TreeStats :=
  (⟨level, 0, List.replicate tr.innerslotmax default,
    List.replicate (tr.innerslotmax + 1) default⟩,
    { stats with innernodes := stats.innernodes + 1 })

omit [Inhabited K] [Inhabited D]

/-! ## Counting -/

/-- What `verify_node` counts below a node on level `l`. -/
def Node.counted : Nat → Node K D → TreeStats
  | _, .leaf n => ⟨n.slotuse, 1, 0⟩
  | 0, .inner _ => 0
  | l + 1, .inner n => ((n.childid.take (n.slotuse + 1)).map (counted l)).sum + ⟨0, 0, 1⟩

/-- The count of all nodes of a sequence on level `l`. -/
def countedOf (l : Nat) (children : List (Node K D)) : TreeStats :=
  (children.map (Node.counted l)).sum

/-- The count of a tree. -/
def Tree.counted (t : Tree K D) : TreeStats :=
  match t.root with
  | none => 0
  | some root => root.counted root.level

@[simp] theorem countedOf_nil (l : Nat) : countedOf l ([] : List (Node K D)) = 0 := rfl

@[simp] theorem countedOf_cons (l : Nat) (c : Node K D) (cs : List (Node K D)) :
    countedOf l (c :: cs) = c.counted l + countedOf l cs := List.sum_cons

@[simp] theorem countedOf_append (l : Nat) (xs ys : List (Node K D)) :
    countedOf l (xs ++ ys) = countedOf l xs + countedOf l ys := by
  rw [countedOf, List.map_append, List.sum_append]
  rfl

theorem counted_inner (l : Nat) (n : InnerNode K (Node K D)) :
    (Node.inner n).counted (l + 1) = countedOf l (n.childid.take (n.slotuse + 1)) + ⟨0, 0, 1⟩ :=
  rfl

theorem VerifyNode.itemcount [LinearOrder K] {tr : Traits} : ∀ {l : Nat} {n : Node K D},
    VerifyNode tr l n → (n.counted l).itemcount = (n.entries l).length
  | 0, .leaf _, h => (LeafNode.length_entries h 0).symm
  | l + 1, .inner n, h => by
      have hchildren := (InnerNode.verified_iff.mp h).2.2.2.2.verified
      rw [counted_inner, Node.entries]
      generalize n.childid.take (n.slotuse + 1) = children at hchildren ⊢
      induction children with
      | nil => rfl
      | cons c cs ih =>
          have hc := VerifyNode.itemcount (hchildren c List.mem_cons_self)
          have hcs := ih fun d hd => hchildren d (List.mem_cons_of_mem c hd)
          simp only [TreeStats.itemcount_add, countedOf_cons, List.flatMap_cons,
            List.length_append] at hcs ⊢
          omega

/-! ## Half full nodes -/

/-- `isunderflow()` -/
def Node.isUnderflow (tr : Traits) : Node K D → Bool
  | .leaf n => decide (n.slotuse < tr.minleafslots)
  | .inner n => decide (n.slotuse < tr.mininnerslots)

/-- The arrays of all nodes below and at a node on level `l` have the size of their type, and no
node below it has too few slots in use. -/
def Shaped (tr : Traits) : Nat → Node K D → Prop
  | _, .leaf n => n.slotkey.length = tr.leafslotmax ∧ n.slotdata.length = tr.leafslotmax
  | 0, .inner _ => False
  | l + 1, .inner n =>
      n.slotkey.length = tr.innerslotmax ∧ n.childid.length = tr.innerslotmax + 1 ∧
        ∀ c ∈ n.childid.take (n.slotuse + 1), c.isUnderflow tr = false ∧ Shaped tr l c

instance decidableShaped (tr : Traits) : ∀ (l : Nat) (n : Node K D), Decidable (Shaped tr l n)
  | 0, .leaf n => inferInstanceAs
      (Decidable (n.slotkey.length = tr.leafslotmax ∧ n.slotdata.length = tr.leafslotmax))
  | _ + 1, .leaf n => inferInstanceAs
      (Decidable (n.slotkey.length = tr.leafslotmax ∧ n.slotdata.length = tr.leafslotmax))
  | 0, .inner _ => isFalse id
  | l + 1, .inner n =>
      have : DecidablePred (Shaped (K := K) (D := D) tr l) := decidableShaped tr l
      inferInstanceAs (Decidable (n.slotkey.length = tr.innerslotmax ∧
        n.childid.length = tr.innerslotmax + 1 ∧
          ∀ c ∈ n.childid.take (n.slotuse + 1), c.isUnderflow tr = false ∧ Shaped tr l c))

/-! ## verify -/

variable [LinearOrder K]

/-- What `verify` asserts, the links between the leaves apart: neither the assertions of
`verify_node` on them nor `verify_leaflinks`, which also counts the entries in 32 bits. -/
structure Btree.Sound (tr : Traits) (t : Btree K D) : Prop where
  /-- The order of the keys, and the levels. -/
  verified : t.Verified tr
  /-- Only the root may be less than half full. -/
  shaped : ∀ root ∈ t.root, Shaped tr root.level root
  /-- The statistics are those of the tree. -/
  stats_eq : t.stats = t.counted

instance (tr : Traits) (t : Btree K D) : Decidable (t.Sound tr) :=
  decidable_of_iff ((∀ root ∈ t.root, VerifyNode tr root.level root) ∧
      (∀ root ∈ t.root, Shaped tr root.level root) ∧ t.stats = t.counted)
    ⟨fun ⟨a, b, c⟩ => ⟨a, b, c⟩, fun ⟨a, b, c⟩ => ⟨a, b, c⟩⟩

/-- `verify`, without what it asserts of the links between the leaves (`Btree.Sound`). -/
def Btree.verify (tr : Traits) (t : Btree K D) : Prog Unit :=
  match t.root with
  | none => pure ⟨⟩
  | some _ => assert (decide (t.Sound tr))

/-- `exists` -/
def Btree.contains (p : Params) (t : Btree K D) (key : K) : Prog Bool :=
  match t.root with
  | none => pure false
  | some root => do
      let n ← descend (stxFindLower p.innerBinary) key root
      let leaf ← n.toLeaf
      let slot ← stxFindLower p.leafBinary leaf.slotuse leaf.slotkey key
      leaf.hasKey key slot

theorem Btree.new_sound (tr : Traits) : (Btree.new : Btree K D).Sound tr where
  verified root hroot := by cases hroot
  shaped root hroot := by cases hroot
  stats_eq := rfl

/-- The statistics count the entries. -/
theorem Btree.Sound.itemcount {tr : Traits} {t : Btree K D} (h : t.Sound tr) :
    t.stats.itemcount = t.entries.length := by
  rw [h.stats_eq, Tree.counted, Tree.entries]
  cases hroot : t.root with
  | none => rfl
  | some root => exact (h.verified root hroot).itemcount

end BTree
