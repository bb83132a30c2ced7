import PrefetchBench.BTree.History
import PrefetchBench.BTree.Loaded

/-!
# The tree after bulk loading

`bulk_load` of a sorted range leaves a sound tree over its items, ready for further insertions and
lookups (`Btree.bulkLoad_strategies`).  It is the smallest one: no tree that passes `verify_node`
and has as many entries has fewer leaves, fewer inner nodes or fewer levels
(`Btree.bulkLoad_smallest`).
-/

namespace BTree

open Prog KeyArray Ordered Batch

variable {K D : Type}

/-! ## How small a tree can be -/

/-- The children in use. -/
def Node.children : Node K D → List (Node K D)
  | .leaf _ => []
  | .inner n => n.childid.take (n.slotuse + 1)

variable [LinearOrder K] {tr : Traits} {l : Nat}

theorem VerifyNode.length_children {n : Node K D} (h : VerifyNode tr (l + 1) n) :
    n.children.length ≤ tr.innerslotmax + 1 := by
  cases n with
  | leaf leaf => cases h
  | inner inner =>
      obtain ⟨_, _, hmax, _, _⟩ := InnerNode.verified_iff.mp h
      rw [Node.children, List.length_take]
      omega

theorem VerifyNode.children_verified {n c : Node K D} (h : VerifyNode tr (l + 1) n)
    (hc : c ∈ n.children) : VerifyNode tr l c := by
  cases n with
  | leaf leaf => cases h
  | inner inner => exact (InnerNode.verified_iff.mp h).2.2.2.2.verified c hc

theorem VerifyNode.entries_children {n : Node K D} (h : VerifyNode tr (l + 1) n) :
    n.entries (l + 1) = entriesOf l n.children := by
  cases n with
  | leaf leaf => cases h
  | inner inner => rfl

theorem VerifyNode.counted_children {n : Node K D} (h : VerifyNode tr (l + 1) n) :
    n.counted (l + 1) = countedOf l n.children + ⟨0, 0, 1⟩ := by
  cases n with
  | leaf leaf => cases h
  | inner inner => rfl

/-- The children of a row of nodes. -/
theorem forest_children {forest : List (Node K D)} (h : ∀ n ∈ forest, VerifyNode tr (l + 1) n) :
    (∀ c ∈ forest.flatMap Node.children, VerifyNode tr l c) ∧
      (forest.flatMap Node.children).length ≤ (tr.innerslotmax + 1) * forest.length ∧
        entriesOf (l + 1) forest = entriesOf l (forest.flatMap Node.children) ∧
          countedOf (l + 1) forest =
            countedOf l (forest.flatMap Node.children) + ⟨0, 0, forest.length⟩ := by
  induction forest with
  | nil =>
      refine ⟨?_, Nat.zero_le _, rfl, rfl⟩
      intro c hc
      cases hc
  | cons n forest ih =>
      obtain ⟨hverified, hlength, hentries, hcounted⟩ :=
        ih fun m hm => h m (List.mem_cons_of_mem n hm)
      have hn := h n List.mem_cons_self
      rw [List.flatMap_cons]
      refine ⟨?_, ?_, ?_, ?_⟩
      · intro c hc
        rcases List.mem_append.mp hc with hc | hc
        · exact hn.children_verified hc
        · exact hverified c hc
      · have hchildren := hn.length_children
        rw [List.length_append, List.length_cons, Nat.mul_add, Nat.mul_one]
        omega
      · rw [entriesOf_cons, entriesOf_append, hn.entries_children, hentries]
      · rw [countedOf_cons, countedOf_append, hn.counted_children, hcounted, add_add_add_comm,
          List.length_cons, Nat.add_comm forest.length 1]
        rfl

theorem leaves_ge {forest : List (Node K D)} (h : ∀ n ∈ forest, VerifyNode tr 0 n) :
    (entriesOf 0 forest).length ≤ tr.leafslotmax * forest.length ∧
      (countedOf 0 forest).leaves = forest.length := by
  induction forest with
  | nil => exact ⟨Nat.zero_le _, rfl⟩
  | cons n forest ih =>
      obtain ⟨hlength, hcounted⟩ := ih fun m hm => h m (List.mem_cons_of_mem n hm)
      have hn := h n List.mem_cons_self
      cases n with
      | inner inner => cases hn
      | leaf leaf =>
          have hv : leaf.Verified tr := hn
          have hmax := hv.slotuse_le
          have hentries := LeafNode.length_entries hv 0
          refine ⟨?_, ?_⟩
          · rw [entriesOf_cons, List.length_append, List.length_cons, Nat.mul_add, Nat.mul_one]
            omega
          · rw [countedOf_cons, TreeStats.leaves_add, hcounted, List.length_cons, Nat.add_comm]
            rfl

/-- A row of nodes over as many entries is at least as wide as that of the smallest tree, and has as
many leaves and inner nodes below. -/
theorem forest_ge (hleaf : 0 < tr.leafslotmax) {forest : List (Node K D)}
    (h : ∀ n ∈ forest, VerifyNode tr l n) {count : Nat}
    (hcount : count ≤ (entriesOf l forest).length) :
    narrowed (tr.innerslotmax + 1) (parts count tr.leafslotmax) l ≤ forest.length ∧
      parts count tr.leafslotmax ≤ (countedOf l forest).leaves ∧
        narrowedSum (tr.innerslotmax + 1) (parts count tr.leafslotmax) l ≤
          (countedOf l forest).innernodes := by
  induction l generalizing forest with
  | zero =>
      obtain ⟨hlength, hcounted⟩ := leaves_ge h
      have hparts : parts count tr.leafslotmax ≤ forest.length :=
        (parts_le_iff hleaf).mpr (hcount.trans hlength)
      exact ⟨hparts, hcounted ▸ hparts, Nat.zero_le _⟩
  | succ l ih =>
      obtain ⟨hverified, hlength, hentries, hcounted⟩ := forest_children h
      obtain ⟨hwidth, hleaves, hinners⟩ := ih hverified (hentries ▸ hcount)
      have hnext : narrowed (tr.innerslotmax + 1) (parts count tr.leafslotmax) (l + 1) ≤
          forest.length := (parts_le_iff (by omega)).mpr (hwidth.trans hlength)
      refine ⟨hnext, ?_, ?_⟩
      · rw [hcounted]
        exact hleaves
      · rw [hcounted]
        exact Nat.add_le_add hinners hnext

/-! ## bulk_load -/

variable [Inhabited K] [Inhabited D] {p : Params} {t : Btree K D} {items : List (K × D)}

/-- `bulk_load` of a sorted range into an empty tree leaves a sound tree over the range. -/
theorem Btree.bulkLoad_sound (hleaf : 0 < p.leafslotmax) (hinner : 2 ≤ p.innerslotmax)
    (h : t.Sound p.toTraits) (hempty : t.empty = true) (hsorted : Sorted items) :
    ∃ t', (t.bulkLoad p items).Returns t' ∧ t'.Sound p.toTraits ∧ t'.entries = items := by
  obtain ⟨t', ht', hcorrect⟩ := h.bulkLoad hempty hleaf hinner hsorted
  exact ⟨t', ht', hcorrect.sound, hcorrect.entries_eq⟩

/-- Five items in nodes of two slots. -/
theorem Btree.bulkLoad_sound_five :
    ∃ t : Btree Nat Nat,
      (Btree.new.bulkLoad smallParams [(1, 0), (2, 1), (2, 2), (3, 3), (4, 4)]).Returns t ∧
        t.Sound smallParams.toTraits ∧ t.entries = [(1, 0), (2, 1), (2, 2), (3, 3), (4, 4)] :=
  Btree.bulkLoad_sound (p := smallParams) (by decide) (by decide) (Btree.new_sound _) rfl
    (by decide)

/-- No tree with as many entries is smaller. -/
theorem Btree.bulkLoad_smallest (hleaf : 0 < p.leafslotmax) (hinner : 2 ≤ p.innerslotmax)
    (h : t.Sound p.toTraits) (hempty : t.empty = true) (hsorted : Sorted items) :
    ∃ t', (t.bulkLoad p items).Returns t' ∧ ∀ other : Tree K D, other.Verified p.toTraits →
      items.length ≤ other.entries.length →
        t'.stats.leaves ≤ other.counted.leaves ∧ t'.stats.innernodes ≤ other.counted.innernodes ∧
          ∀ root ∈ t'.root, ∃ root' ∈ other.root, root.level ≤ root'.level := by
  obtain ⟨t', ht', hcorrect⟩ := h.bulkLoad hempty hleaf hinner hsorted
  refine ⟨t', ht', fun other hother hcount => ?_⟩
  have hsize : ∀ root ∈ other.root,
      narrowed (p.innerslotmax + 1) (parts items.length p.leafslotmax) root.level ≤ 1 ∧
        parts items.length p.leafslotmax ≤ other.counted.leaves ∧
          narrowedSum (p.innerslotmax + 1) (parts items.length p.leafslotmax) root.level ≤
            other.counted.innernodes := by
    intro root hroot
    have hforest : ∀ n ∈ [root], VerifyNode p.toTraits root.level n := by
      intro n hn
      rw [List.mem_singleton.mp hn]
      exact hother root hroot
    have hentries : entriesOf root.level [root] = other.entries := by
      rw [entriesOf_cons, entriesOf_nil, List.append_nil, Tree.entries, Option.mem_def.mp hroot]
    have hcounted : countedOf root.level [root] = other.counted := by
      rw [countedOf_cons, countedOf_nil, add_zero, Tree.counted, Option.mem_def.mp hroot]
    have hge := forest_ge hleaf hforest (hentries ▸ hcount)
    rwa [hcounted] at hge
  cases hroot : t'.root with
  | none =>
      obtain ⟨hnil, hzero⟩ := hcorrect.root_eq hroot
      have hnone : parts items.length p.leafslotmax ≤ 0 := (parts_le_iff hleaf).mpr (by simp [hnil])
      refine ⟨?_, ?_, ?_⟩
      · rw [hcorrect.leaves_eq]
        omega
      · rw [hzero]
        exact Nat.zero_le _
      · intro root hc
        cases hc
  | some root =>
      have hne := (hcorrect.sound.verified root hroot).entries_ne_nil
      have hentries := hcorrect.entries_eq
      rw [Tree.entries, hroot] at hentries
      obtain ⟨root', hroot'⟩ : ∃ root', other.root = some root' := by
        cases hother' : other.root with
        | some root' => exact ⟨root', rfl⟩
        | none =>
            rw [Tree.entries, hother', List.length_nil, Nat.le_zero, ← hentries] at hcount
            exact absurd (List.eq_nil_of_length_eq_zero hcount) hne
      obtain ⟨hone, hleaves, hinners⟩ := hsize root' hroot'
      have hlevel : root.level ≤ root'.level := by
        by_contra hc
        have htwo := hcorrect.several root hroot root'.level (by omega)
        omega
      refine ⟨?_, ?_, ?_⟩
      · rw [hcorrect.leaves_eq]
        exact hleaves
      · rw [hcorrect.innernodes_eq root hroot]
        exact (narrowedSum_mono hlevel).trans hinners
      · intro root'' hc
        cases hc
        exact ⟨root', hroot', hlevel⟩

theorem Btree.bulkLoad_smallest_five :
    ∃ t : Btree Nat Nat,
      (Btree.new.bulkLoad smallParams [(1, 0), (2, 1), (2, 2), (3, 3), (4, 4)]).Returns t ∧
        ∀ other : Tree Nat Nat, other.Verified smallParams.toTraits → 5 ≤ other.entries.length →
          t.stats.leaves ≤ other.counted.leaves ∧ t.stats.innernodes ≤ other.counted.innernodes ∧
            ∀ root ∈ t.root, ∃ root' ∈ other.root, root.level ≤ root'.level :=
  Btree.bulkLoad_smallest (p := smallParams) (by decide) (by decide) (Btree.new_sound _) rfl
    (by decide)

/-- What a lookup finds after `bulk_load` and a run of insertions. -/
theorem Btree.bulkLoad_insertRange (hleaf : 2 ≤ p.leafslotmax) (hinner : 2 ≤ p.innerslotmax)
    (hsorted : Sorted items) (run : List (K × D)) :
    ∃ t t', (Btree.new.bulkLoad p items).Returns t ∧ (t.insertRange p run).Returns t' ∧
      t'.Sound p.toTraits ∧ t'.lookup = kept p.allowDuplicates items run := by
  obtain ⟨t, ht, hload⟩ :=
    (Btree.new_sound p.toTraits).bulkLoad rfl (Nat.lt_of_lt_of_le Nat.two_pos hleaf) hinner hsorted
  obtain ⟨t', ht', hsound, hlookup⟩ := hload.sound.insertRange_lookup hleaf hinner run
  rw [hload.entries_eq] at hlookup
  exact ⟨t, t', ht, ht', hsound, hlookup⟩

/-- The strategies after `bulk_load` and a run of insertions. -/
theorem Btree.bulkLoad_strategies (hleaf : 2 ≤ p.leafslotmax) (hinner : 2 ≤ p.innerslotmax)
    (hsv : p.selfverify = false) (hsorted : Sorted items) (run : List (K × D)) (isa : Isa)
    (u64 : Option (IsU64 K)) (queries : List K) (results : List D) (dflt : D) {N : Nat}
    (hN : 1 ≤ N) :
    ∃ t t', (Btree.new.bulkLoad p items).Returns t ∧ (t.insertRange p run).Returns t' ∧
      BinaryReturn N p.toTraits t'.toTree isa u64 queries results dflt
        (lookupAll (kept p.allowDuplicates items run) queries results dflt) := by
  obtain ⟨t, t', ht, ht', hsound, hlookup⟩ := bulkLoad_insertRange hleaf hinner hsorted run
  refine ⟨t, t', ht, ht', ?_⟩
  rw [← hlookup]
  exact binaryReturn_lookupAll hsound.verified hsv isa u64 queries results dflt hN

theorem Btree.bulkLoad_strategies_five :
    ∃ t t' : Btree Nat Nat,
      (Btree.new.bulkLoad smallParams [(1, 0), (2, 1), (2, 2), (3, 3), (4, 4)]).Returns t ∧
        (t.insertRange smallParams [(2, 5), (5, 6)]).Returns t' ∧
          BinaryReturn 2 smallParams.toTraits t'.toTree .scalar none [1, 2, 5, 6] [] 0
            (lookupAll (kept true [(1, 0), (2, 1), (2, 2), (3, 3), (4, 4)] [(2, 5), (5, 6)])
              [1, 2, 5, 6] [] 0) :=
  Btree.bulkLoad_strategies (p := smallParams) (by decide) (by decide) rfl (by decide)
    [(2, 5), (5, 6)] .scalar none [1, 2, 5, 6] [] 0 (by decide)

end BTree
