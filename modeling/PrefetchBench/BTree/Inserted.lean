import PrefetchBench.BTree.Leaves

/-!
# What an insertion leaves

A call of `insert_descend` on a node that passes `verify_node` leaves one node or two that do, and
whose entries are those of the node with the new one in its place (`Inserted.Correct`).  It is
proved by induction on the level: the child that the lower bound of the key selects is the one the
new entry belongs to, and whatever the call on it leaves takes its place.

At the root `insert` then keeps the whole tree sound (`Btree.Sound.insert`).
-/

namespace BTree

open Prog KeyArray Ordered

variable {K D : Type} {l : Nat}

/-- The nodes in place of the node of the call. -/
def Inserted.nodes (r : Inserted K D) : List (Node K D) := r.node :: r.split.toList.map Prod.snd

theorem Inserted.nodes_of_none {r : Inserted K D} (h : r.split = none) : r.nodes = [r.node] := by
  rw [nodes, h]
  rfl

theorem Inserted.nodes_of_some {r : Inserted K D} {s : K × Node K D} (h : r.split = some s) :
    r.nodes = [r.node, s.2] := by
  rw [nodes, h]
  rfl

/-- What holds of both nodes. -/
theorem Inserted.forall_nodes {r : Inserted K D} {s : K × Node K D} {P : Node K D → Prop}
    (h : r.split = some s) (hnode : P r.node) (hsplit : P s.2) : ∀ c ∈ r.nodes, P c := by
  intro c hc
  rw [nodes_of_some h] at hc
  rcases List.mem_cons.mp hc with rfl | hc
  · exact hnode
  · rw [List.mem_singleton.mp hc]
    exact hsplit

variable [LinearOrder K]

/-- What a call of `insert_descend` on a node on level `l` leaves. -/
structure Inserted.Correct (p : Params) (l : Nat) (n : Node K D) (key : K) (value : D)
    (stats : TreeStats) (r : Inserted K D) : Prop where
  /-- When there is a new entry. -/
  inserted_iff : r.inserted = true ↔ ¬ (p.allowDuplicates = false ∧ Present key (n.entries l))
  /-- Otherwise nothing has changed. -/
  refused : r.inserted = false → r.node = n ∧ r.split = none ∧ r.stats = stats
  /-- The entries. -/
  entries_eq : r.inserted = true → entriesOf l r.nodes = insertEntry key value (n.entries l)
  /-- The nodes are as they should be. -/
  verified : ∀ c ∈ r.nodes, VerifyNode p.toTraits l c
  /-- So are their arrays, and the nodes below them. -/
  shaped : ∀ c ∈ r.nodes, Shaped p.toTraits l c
  /-- The key between two nodes, of which neither is less than half full. -/
  split_eq : ∀ s ∈ r.split, r.node.maxkey l = some s.1 ∧
    r.node.isUnderflow p.toTraits = false ∧ s.2.isUnderflow p.toTraits = false
  /-- The node is not less than half full, if it was not. -/
  fill : n.isUnderflow p.toTraits = false → r.node.isUnderflow p.toTraits = false
  /-- The new nodes are counted. -/
  stats_eq : r.stats + n.counted l + ⟨if r.inserted then 1 else 0, 0, 0⟩ =
    stats + countedOf l r.nodes
  /-- The iterator is at the first entry of the key. -/
  position : ∃ e, ((entriesOf l r.nodes).find? fun e => e.1 == key) = some e ∧
    r.position.1.slotkey[r.position.2]? = some e.1 ∧
      r.position.1.slotdata[r.position.2]? = some e.2
  /-- It is in one of the leaves that are left, and nothing in front of it belongs behind. -/
  located : Located (leavesOf l r.nodes) key r.position.1 r.position.2

/-- An entry whose key is present, and that is refused for it. -/
theorem Inserted.correct_refused {p : Params} {n : Node K D} {key : K} {value : D}
    {stats : TreeStats} {position : LeafNode K D × Nat} {e : K × D}
    (hv : VerifyNode p.toTraits l n) (hs : Shaped p.toTraits l n)
    (hrefused : p.allowDuplicates = false ∧ Present key (n.entries l))
    (he : ((n.entries l).find? fun e => e.1 == key) = some e)
    (hkey : position.1.slotkey[position.2]? = some e.1)
    (hvalue : position.1.slotdata[position.2]? = some e.2)
    (hlocated : Located (n.leaves l) key position.1 position.2) :
    Inserted.Correct p l n key value stats ⟨n, none, position, false, stats⟩ where
  inserted_iff := by simp [hrefused.1, hrefused.2]
  refused _ := ⟨rfl, rfl, rfl⟩
  entries_eq hc := by cases hc
  verified c hc := by
    rw [List.mem_singleton.mp hc]
    exact hv
  shaped c hc := by
    rw [List.mem_singleton.mp hc]
    exact hs
  split_eq s hc := by cases hc
  fill := id
  stats_eq := by
    rw [Inserted.nodes_of_none rfl]
    ext <;> simp
  position := by
    refine ⟨e, ?_, hkey, hvalue⟩
    rw [Inserted.nodes_of_none rfl, entriesOf_cons, entriesOf_nil, List.append_nil, he]
  located := by
    rw [Inserted.nodes_of_none rfl, leavesOf_singleton]
    exact hlocated

/-! ## Leaves -/

section Leaf

variable {p : Params} {leaf : LeafNode K D} {es : List (K × D)} {key : K} {value : D}
  {stats : TreeStats}

/-- The slot of `find_lower`. -/
theorem LeafNode.Holding.lowerBound_eq (h : leaf.Holding p.toTraits es) (key : K) :
    lowerBound leaf.slotkey key leaf.slotuse = es.findIdx fun e => decide (key ≤ e.1) := by
  rw [lowerBound, h.slotuse_eq, h.slotkey_eq, List.findIdx_map]
  rfl

theorem LeafNode.Holding.sortedTo (h : leaf.Holding p.toTraits es) (hs : Sorted es) :
    SortedTo leaf.slotkey leaf.slotuse := by
  rw [h.slotuse_eq]
  refine ⟨h.slotkey_length ▸ h.length_le, ?_⟩
  rw [h.slotkey_eq]
  exact List.pairwise_map.mpr hs

/-- The test whether the key is there. -/
theorem LeafNode.Holding.hasKey (h : leaf.Holding p.toTraits es) (hs : Sorted es) (key : K) :
    (leaf.hasKey key (es.findIdx fun e => decide (key ≤ e.1))).Returns
      (decide (Present key es)) := by
  rw [LeafNode.hasKey, h.slotuse_eq]
  generalize hslot : (es.findIdx fun e => decide (key ≤ e.1)) = slot
  have hpresent := hs.present_iff key
  rw [hslot] at hpresent
  by_cases hlt : slot < es.length
  · rw [if_pos hlt]
    have hget : es[slot]? = some es[slot] := List.getElem?_eq_getElem hlt
    apply (returns_read.mpr (h.getElem?_key hget)).bind
    apply returns_pure.mpr
    rw [decide_eq_decide, hpresent, hget]
    constructor
    · intro heq
      exact ⟨_, rfl, heq.symm⟩
    · rintro ⟨e, he, heq⟩
      cases he
      exact heq.symm
  · rw [if_neg hlt]
    apply returns_pure.mpr
    symm
    rw [decide_eq_false_iff_not, hpresent]
    rintro ⟨e, he, _⟩
    exact hlt (List.getElem?_eq_some_iff.mp he).1

/-- The place of a new entry. -/
theorem getElem?_insertEntry (key : K) (value : D) (es : List (K × D)) :
    (insertEntry key value es)[es.findIdx fun e => decide (key ≤ e.1)]? = some (key, value) := by
  rw [insertEntry_eq_insertIdx, List.getElem?_insertIdx, if_neg (Nat.lt_irrefl _), if_pos rfl,
    if_pos List.findIdx_le_length]

/-- The entries in front of it. -/
theorem lt_of_mem_take_insertEntry (key : K) (value : D) (es : List (K × D)) :
    ∀ e ∈ (insertEntry key value es).take (es.findIdx fun e => decide (key ≤ e.1)), e.1 < key := by
  intro e he
  rw [insertEntry_eq_insertIdx, List.take_insertIdx_eq_take_of_le _ _ _ _ (Nat.le_refl _)] at he
  exact lt_of_mem_take_findIdx key es e he

/-- It is the first one of its key. -/
theorem find?_insertEntry_self (hs : Sorted es) :
    ((insertEntry key value es).find? fun e => e.1 == key) = some (key, value) := by
  rw [find?_insertEntry hs, if_pos rfl]

/-- A leaf with room takes an entry. -/
theorem LeafNode.Holding.put_correct (h : leaf.Holding p.toTraits es) (hs : Sorted es)
    (hroom : es.length < p.leafslotmax)
    (hadmitted : ¬ (p.allowDuplicates = false ∧ Present key es)) :
    (do
      let leaf ← leaf.put (es.findIdx fun e => decide (key ≤ e.1)) key value
      pure ⟨.leaf leaf, none, (leaf, es.findIdx fun e => decide (key ≤ e.1)), true, stats⟩ :
        Prog (Inserted K D)).Ensures (Inserted.Correct p 0 (.leaf leaf) key value stats) := by
  have hold : (Node.leaf leaf).entries 0 = es := h.entries_eq 0
  have hle : (es.findIdx fun e => decide (key ≤ e.1)) ≤ es.length := List.findIdx_le_length
  have hnew := insertEntry_eq_insertIdx key value es
  have hsorted := hs.insertEntry key value
  apply (h.put hle hroom key value).bind
  intro leaf' h'
  rw [← hnew] at h'
  apply Ensures.pure
  have hne : insertEntry key value es ≠ [] :=
    List.ne_nil_of_length_pos (by rw [length_insertEntry]; omega)
  have hplace := getElem?_insertEntry key value es
  have hentries : entriesOf 0 [Node.leaf leaf'] = insertEntry key value es := by
    rw [entriesOf_cons, entriesOf_nil, List.append_nil, h'.entries_eq]
  exact {
    inserted_iff := by simp only [hold, hadmitted, not_false_eq_true]
    refused := fun hc => by cases hc
    entries_eq := fun _ => by
      rw [Inserted.nodes_of_none rfl, hentries, hold]
    verified := fun c hc => by
      rw [List.mem_singleton.mp hc]
      exact h'.verified hne hsorted
    shaped := fun c hc => by
      rw [List.mem_singleton.mp hc]
      exact h'.shaped 0
    split_eq := fun s hc => by cases hc
    fill := fun hfew => by
      apply h'.isUnderflow_eq
      rw [Node.isUnderflow, decide_eq_false_iff_not, h.slotuse_eq] at hfew
      rw [length_insertEntry]
      omega
    stats_eq := by
      rw [Inserted.nodes_of_none rfl, h.counted_eq, countedOf_cons, countedOf_nil,
        h'.counted_eq, length_insertEntry]
      ext <;> simp
      omega
    position := by
      refine ⟨(key, value), ?_, h'.getElem?_key hplace, h'.getElem?_data hplace⟩
      rw [Inserted.nodes_of_none rfl, hentries, find?_insertEntry_self hs]
    located := by
      rw [Inserted.nodes_of_none rfl]
      exact Located.single h' (lt_of_mem_take_insertEntry key value es) }

variable [Inhabited K] [Inhabited D]

/-- The halves of a full leaf take an entry. -/
theorem LeafNode.Holding.split_correct (h : leaf.Holding p.toTraits es) (hs : Sorted es)
    (hfull : es.length = p.leafslotmax) (htwo : 2 ≤ p.leafslotmax)
    (hadmitted : ¬ (p.allowDuplicates = false ∧ Present key es)) :
    (splitLeafNode.put p.toTraits leaf (es.findIdx fun e => decide (key ≤ e.1)) key value
      stats).Ensures (Inserted.Correct p 0 (.leaf leaf) key value stats) := by
  have hold : (Node.leaf leaf).entries 0 = es := h.entries_eq 0
  have hle : (es.findIdx fun e => decide (key ≤ e.1)) ≤ es.length := List.findIdx_le_length
  have hsorted := hs.insertEntry key value
  have hlen := length_insertEntry key value es
  apply (splitLeafNode.put_ensures h hfull htwo hle key value stats).mono
  rintro r ⟨m, left, right, e, ⟨hpos, hmin, hmax, hm⟩, hleft, hright, he, hposition, hnode,
    hsplit, hinserted, hstats⟩
  rw [← insertEntry_eq_insertIdx] at hleft hright he
  have hvl := hleft.verified (List.ne_nil_of_length_pos (by rw [List.length_take]; omega))
    (hsorted.sublist (List.take_sublist m _))
  have hvr := hright.verified (List.ne_nil_of_length_pos (by rw [List.length_drop]; omega))
    (hsorted.sublist (List.drop_sublist m _))
  have hnodes : r.nodes = [.leaf left, .leaf right] := by rw [Inserted.nodes_of_some hsplit, hnode]
  have hentries : entriesOf 0 r.nodes = insertEntry key value es := by
    rw [hnodes, entriesOf_cons, entriesOf_cons, entriesOf_nil, List.append_nil, hleft.entries_eq,
      hright.entries_eq, List.take_append_drop]
  have hfewl := hleft.isUnderflow_eq (by rw [List.length_take]; omega)
  have hfewr := hright.isUnderflow_eq (by rw [List.length_drop]; omega)
  have hplace := getElem?_insertEntry key value es
  exact {
    inserted_iff := by simp only [hold, hinserted, hadmitted, not_false_eq_true]
    refused := fun hc => by
      rw [hinserted] at hc
      cases hc
    entries_eq := fun _ => by rw [hentries, hold]
    verified := Inserted.forall_nodes hsplit (hnode ▸ hvl) hvr
    shaped := Inserted.forall_nodes hsplit (hnode ▸ hleft.shaped 0) (hright.shaped 0)
    split_eq := fun s hc => by
      rw [hsplit] at hc
      cases hc
      refine ⟨?_, hnode ▸ hfewl, hfewr⟩
      rw [hnode, hvl.maxkey_eq, hleft.entries_eq, List.getLast?_take, if_neg (by omega), he]
      rfl
    fill := fun _ => hnode ▸ hfewl
    stats_eq := by
      rw [hnodes, hstats, hinserted, h.counted_eq, countedOf_cons, countedOf_cons, countedOf_nil,
        hleft.counted_eq, hright.counted_eq]
      ext
      · simp only [TreeStats.itemcount_add, TreeStats.itemcount_zero, List.length_take,
          List.length_drop, if_true]
        omega
      · simp
      · simp
    position := by
      refine ⟨(key, value), by rw [hentries, find?_insertEntry_self hs], ?_⟩
      rcases hposition with ⟨heq, hlt⟩ | ⟨heq, hge⟩
      · have hin : ((insertEntry key value es).take m)[es.findIdx fun e => decide (key ≤ e.1)]? =
            some (key, value) := by rw [List.getElem?_take_of_lt hlt, hplace]
        rw [heq]
        exact ⟨hleft.getElem?_key hin, hleft.getElem?_data hin⟩
      · have hin : ((insertEntry key value es).drop m)[(es.findIdx fun e =>
            decide (key ≤ e.1)) - m]? = some (key, value) := by
          rw [List.getElem?_drop, Nat.add_sub_of_le hge, hplace]
        rw [heq]
        exact ⟨hright.getElem?_key hin, hright.getElem?_data hin⟩
    located := by
      rw [hnodes]
      exact Located.halves hleft hright (lt_of_mem_take_insertEntry key value es) hposition }

/-- A leaf, which may still be empty, takes an entry. -/
theorem LeafNode.insert_ensures (htwo : 2 ≤ p.leafslotmax) (h : leaf.Holding p.toTraits es)
    (hs : Sorted es) (key : K) (value : D) (stats : TreeStats) :
    (leaf.insert p key value stats).Ensures
      (Inserted.Correct p 0 (.leaf leaf) key value stats) := by
  have hslot := stxFindLower_exact p.leafBinary key (h.sortedTo hs)
  rw [h.lowerBound_eq] at hslot
  have hpresent : ((if p.allowDuplicates then pure false else
      leaf.hasKey key (es.findIdx fun e => decide (key ≤ e.1))) : Prog Bool).Returns
        (decide (p.allowDuplicates = false ∧ Present key es)) := by
    cases hdup : p.allowDuplicates with
    | true => exact returns_pure.mpr (by simp)
    | false => simpa using h.hasKey hs key
  have hold : (Node.leaf leaf).entries 0 = es := h.entries_eq 0
  rw [LeafNode.insert]
  apply hslot.seq
  apply hpresent.seq
  by_cases hrefuse : p.allowDuplicates = false ∧ Present key es
  · rw [if_pos (decide_eq_true hrefuse)]
    obtain ⟨e, he, heq⟩ := (hs.present_iff key).mp hrefuse.2
    have hne : es ≠ [] := List.ne_nil_of_mem (List.mem_of_getElem? he)
    have hlocated := Located.single h (lt_of_mem_take_findIdx key es)
    rw [leavesOf_singleton] at hlocated
    apply Ensures.pure
    exact Inserted.correct_refused (h.verified hne hs) (h.shaped 0) (hold.symm ▸ hrefuse)
      (hold.symm ▸ find?_of_findIdx he heq) (h.getElem?_key he) (h.getElem?_data he) hlocated
  · rw [if_neg (by simpa using hrefuse)]
    by_cases hfull : leaf.slotuse = p.leafslotmax
    · rw [if_pos hfull]
      exact h.split_correct hs (h.slotuse_eq.symm.trans hfull) htwo hrefuse
    · rw [if_neg hfull]
      rw [h.slotuse_eq] at hfull
      exact h.put_correct hs (Nat.lt_of_le_of_ne h.length_le hfull) hrefuse

end Leaf

/-! ## Inner nodes -/

section Inner

variable {p : Params} {inner : InnerNode K (Node K D)} {key : K} {value : D} {stats : TreeStats}
  {c : Node K D} {r : Inserted K D}

/-- The keys and the children of an inner node with what a call on one child has left in place of
that child. -/
structure Grown (p : Params) (l : Nat) (inner : InnerNode K (Node K D)) (key : K) (value : D)
    (stats : TreeStats) (r : Inserted K D) (keys : List K) (children : List (Node K D)) : Prop where
  /-- They are as they should be. -/
  siblings : Siblings p.toTraits l keys children
  /-- The new entry is below them. -/
  entries_eq : entriesOf l children = insertEntry key value ((Node.inner inner).entries (l + 1))
  /-- No child is less than half full. -/
  children_fill : ∀ c ∈ children, c.isUnderflow p.toTraits = false ∧ Shaped p.toTraits l c
  /-- The new nodes are counted. -/
  stats_eq : r.stats + (Node.inner inner).counted (l + 1) + ⟨1, 0, 0⟩ =
    stats + (countedOf l children + ⟨0, 0, 1⟩)
  /-- There is a new entry. -/
  inserted : r.inserted = true
  /-- It was not refused. -/
  admitted : ¬ (p.allowDuplicates = false ∧ Present key ((Node.inner inner).entries (l + 1)))
  /-- The iterator is at the first entry of the key. -/
  position : ∃ e, ((entriesOf l children).find? fun e => e.1 == key) = some e ∧
    r.position.1.slotkey[r.position.2]? = some e.1 ∧
      r.position.1.slotdata[r.position.2]? = some e.2
  /-- It is in one of the leaves below the children. -/
  located : Located (leavesOf l children) key r.position.1 r.position.2

namespace Grown

variable {keys : List K} {children : List (Node K D)} {left right : InnerNode K (Node K D)}

/-- They fit into one node. -/
theorem one (h : Grown p l inner key value stats r keys children)
    (hleft : left.Holding p.toTraits (l + 1) keys children) (hle : inner.slotuse ≤ keys.length)
    (hne : keys ≠ []) :
    Inserted.Correct p (l + 1) (.inner inner) key value stats
      ⟨.inner left, none, r.position, r.inserted, r.stats⟩ where
  inserted_iff := by simp only [h.inserted, h.admitted, not_false_eq_true]
  refused hc := by
    rw [h.inserted] at hc
    cases hc
  entries_eq _ := by
    rw [Inserted.nodes_of_none rfl, entriesOf_cons, entriesOf_nil, List.append_nil,
      hleft.entries_eq, h.entries_eq]
  verified c hc := by
    rw [List.mem_singleton.mp hc]
    exact hleft.verified hne h.siblings
  shaped c hc := by
    rw [List.mem_singleton.mp hc]
    exact hleft.shaped h.children_fill
  split_eq s hc := by cases hc
  fill hfew := by
    apply hleft.isUnderflow_eq
    rw [Node.isUnderflow, decide_eq_false_iff_not] at hfew
    omega
  stats_eq := by
    have hstats := h.stats_eq
    rw [Inserted.nodes_of_none rfl, countedOf_cons, countedOf_nil, hleft.counted_eq, add_zero]
    simpa only [h.inserted, if_true] using hstats
  position := by
    rw [Inserted.nodes_of_none rfl, entriesOf_cons, entriesOf_nil, List.append_nil,
      hleft.entries_eq]
    exact h.position
  located := by
    rw [Inserted.nodes_of_none rfl, leavesOf_singleton, hleft.leaves_eq]
    exact h.located

/-- They are cut. -/
theorem two (h : Grown p l inner key value stats r keys children) {m : Nat} {k : K}
    (hm : 0 < m ∧ m + 1 < keys.length) (hk : keys[m]? = some k)
    (hleft : left.Holding p.toTraits (l + 1) (keys.take m) (children.take (m + 1)))
    (hright : right.Holding p.toTraits (l + 1) (keys.drop (m + 1)) (children.drop (m + 1)))
    (hfew : p.toTraits.mininnerslots ≤ m) (hfew' : m + 1 + p.toTraits.mininnerslots ≤ keys.length) :
    Inserted.Correct p (l + 1) (.inner inner) key value stats
      ⟨.inner left, some (k, .inner right), r.position, r.inserted, r.stats + ⟨0, 0, 1⟩⟩ := by
  have hkeys : keys = keys.take m ++ k :: keys.drop (m + 1) := by
    obtain ⟨hlt, rfl⟩ := List.getElem?_eq_some_iff.mp hk
    rw [List.getElem_cons_drop, List.take_append_drop]
  have hlen : (keys.take m).length = m := by
    rw [List.length_take]
    omega
  have hsiblings := h.siblings
  rw [hkeys] at hsiblings
  have hcut := hsiblings.cut
  rw [hlen] at hcut
  obtain ⟨hsl, hsr, hlast⟩ := hcut
  have hvl := hleft.verified (List.ne_nil_of_length_pos (by omega)) hsl
  have hvr := hright.verified (List.ne_nil_of_length_pos (by rw [List.length_drop]; omega)) hsr
  have hnodes : entriesOf (l + 1) [Node.inner left, .inner right] = entriesOf l children := by
    rw [entriesOf_cons, entriesOf_cons, entriesOf_nil, List.append_nil, hleft.entries_eq,
      hright.entries_eq, ← entriesOf_append, List.take_append_drop]
  have hfewl := hleft.isUnderflow_eq (by rw [hlen]; exact hfew)
  have hfewr := hright.isUnderflow_eq (by rw [List.length_drop]; omega)
  exact {
    inserted_iff := by simp only [h.inserted, h.admitted, not_false_eq_true]
    refused := fun hc => by
      dsimp only at hc
      rw [h.inserted] at hc
      cases hc
    entries_eq := fun _ => by rw [Inserted.nodes_of_some rfl, hnodes, h.entries_eq]
    verified := Inserted.forall_nodes rfl hvl hvr
    shaped := Inserted.forall_nodes rfl
      (hleft.shaped fun c hc => h.children_fill c (List.mem_of_mem_take hc))
      (hright.shaped fun c hc => h.children_fill c (List.mem_of_mem_drop hc))
    split_eq := fun s hc => by
      cases hc
      refine ⟨?_, hfewl, hfewr⟩
      rw [hvl.maxkey_eq, hleft.entries_eq, hlast]
    fill := fun _ => hfewl
    stats_eq := by
      have hstats := h.stats_eq
      have hsplit : countedOf l children =
          countedOf l (children.take (m + 1)) + countedOf l (children.drop (m + 1)) := by
        rw [← countedOf_append, List.take_append_drop]
      rw [Inserted.nodes_of_some rfl, countedOf_cons, countedOf_cons, countedOf_nil,
        hleft.counted_eq, hright.counted_eq]
      rw [hsplit] at hstats
      simp only [h.inserted, if_true]
      obtain ⟨h1, h2, h3⟩ := TreeStats.ext_iff.mp hstats
      simp only [TreeStats.itemcount_add, TreeStats.leaves_add, TreeStats.innernodes_add]
        at h1 h2 h3
      ext
      · simp only [TreeStats.itemcount_add, TreeStats.itemcount_zero]
        omega
      · simp only [TreeStats.leaves_add, TreeStats.leaves_zero]
        omega
      · simp only [TreeStats.innernodes_add, TreeStats.innernodes_zero]
        omega
    position := by
      rw [Inserted.nodes_of_some rfl, hnodes]
      exact h.position
    located := by
      rw [Inserted.nodes_of_some rfl, leavesOf_cons, leavesOf_singleton, hleft.leaves_eq,
        hright.leaves_eq, ← leavesOf_append, List.take_append_drop]
      exact h.located }

end Grown

/-- A call that has split keeps its nodes half full. -/
theorem Inserted.Correct.fill_nodes (hr : r.Correct p l c key value stats)
    (hc : c.isUnderflow p.toTraits = false) : ∀ d ∈ r.nodes, d.isUnderflow p.toTraits = false := by
  intro d hd
  rcases List.mem_cons.mp hd with rfl | hd
  · exact hr.fill hc
  · obtain ⟨s, hs, rfl⟩ := List.mem_map.mp hd
    exact (hr.split_eq s (Option.mem_toList.mp hs)).2.2

/-- The nodes that a call has left, in place of the child. -/
theorem Grown.of_nodes {keys keys' : List K} {cs cs' : List (Node K D)}
    (h : inner.Holding p.toTraits (l + 1) keys (cs ++ c :: cs'))
    (hsiblings : Siblings p.toTraits l keys (cs ++ c :: cs'))
    (hfill : ∀ d ∈ cs ++ c :: cs', d.isUnderflow p.toTraits = false ∧ Shaped p.toTraits l d)
    (hbefore : ∀ e ∈ entriesOf l cs, e.1 < key)
    (hbehind : cs' ≠ [] → ∃ e ∈ c.entries l, key ≤ e.1)
    (hr : r.Correct p l c key value stats) (hinserted : r.inserted = true)
    (hnew : Siblings p.toTraits l keys' (cs ++ r.nodes ++ cs')) :
    Grown p l inner key value stats r keys' (cs ++ r.nodes ++ cs') where
  siblings := hnew
  entries_eq := by
    rw [h.entries_eq, Siblings.entriesOf_insert hbefore hbehind, entriesOf_append,
      entriesOf_append, hr.entries_eq hinserted, List.append_assoc]
  children_fill d hd := by
    rcases List.mem_append.mp hd with hd | hd
    · rcases List.mem_append.mp hd with hd | hd
      · exact hfill d (List.mem_append_left _ hd)
      · exact ⟨hr.fill_nodes (hfill c (by simp)).1 d hd, hr.shaped d hd⟩
    · exact hfill d (List.mem_append_right _ (List.mem_cons_of_mem _ hd))
  stats_eq := by
    have hstats := hr.stats_eq
    rw [if_pos hinserted] at hstats
    obtain ⟨h1, h2, h3⟩ := TreeStats.ext_iff.mp hstats
    simp only [TreeStats.itemcount_add, TreeStats.leaves_add, TreeStats.innernodes_add] at h1 h2 h3
    rw [h.counted_eq]
    ext
    · simp only [countedOf_append, countedOf_cons, TreeStats.itemcount_add]
      omega
    · simp only [countedOf_append, countedOf_cons, TreeStats.leaves_add]
      omega
    · simp only [countedOf_append, countedOf_cons, TreeStats.innernodes_add]
      omega
  inserted := hinserted
  admitted := by
    have hadmitted := hr.inserted_iff.mp hinserted
    rwa [← hsiblings.present_iff hbefore hbehind, ← h.entries_eq] at hadmitted
  position := by
    obtain ⟨e, he, hkey, hvalue⟩ := hr.position
    exact ⟨e, Siblings.find?_entriesOf hbefore he, hkey, hvalue⟩
  located := hr.located.append hbefore cs'

section Receiving

variable {keys : List K} {cs cs' : List (Node K D)}

/-- An entry that was refused below. -/
theorem InnerNode.Holding.receive_refused
    (h : inner.Holding p.toTraits (l + 1) keys (cs ++ c :: cs'))
    (hsiblings : Siblings p.toTraits l keys (cs ++ c :: cs'))
    (hfill : ∀ d ∈ cs ++ c :: cs', d.isUnderflow p.toTraits = false ∧ Shaped p.toTraits l d)
    (hne : keys ≠ []) (hbefore : ∀ e ∈ entriesOf l cs, e.1 < key)
    (hbehind : cs' ≠ [] → ∃ e ∈ c.entries l, key ≤ e.1) (hr : r.Correct p l c key value stats)
    (hinserted : r.inserted = false) :
    r.split = none ∧ inner.childid.set cs.length r.node = inner.childid ∧
      Inserted.Correct p (l + 1) (.inner inner) key value stats
        ⟨.inner inner, none, r.position, false, r.stats⟩ := by
  obtain ⟨hnode, hsplit, hstats⟩ := hr.refused hinserted
  have hplace : inner.childid[cs.length]? = some c := h.getElem?_child (by simp)
  have hsame : inner.childid.set cs.length c = inner.childid := by
    obtain ⟨hlt, rfl⟩ := List.getElem?_eq_some_iff.mp hplace
    exact List.set_getElem_self hlt
  have hrefused : p.allowDuplicates = false ∧ Present key (c.entries l) := by
    by_contra hc
    rw [hr.inserted_iff.mpr hc] at hinserted
    cases hinserted
  rw [← hsiblings.present_iff hbefore hbehind, ← h.entries_eq] at hrefused
  obtain ⟨e, he, hkey, hvalue⟩ := hr.position
  rw [Inserted.nodes_of_none hsplit, hnode] at he
  have hfind : ((entriesOf l (cs ++ [c] ++ cs')).find? fun e => e.1 == key) = some e :=
    Siblings.find?_entriesOf hbefore he
  rw [List.append_assoc, List.singleton_append, ← h.entries_eq] at hfind
  have hlocated := hr.located.append hbefore cs'
  rw [Inserted.nodes_of_none hsplit, hnode, List.append_assoc, List.singleton_append,
    ← h.leaves_eq] at hlocated
  refine ⟨hsplit, by rw [hnode, hsame], ?_⟩
  rw [hstats]
  exact Inserted.correct_refused (h.verified hne hsiblings) (h.shaped hfill) hrefused hfind hkey
    hvalue hlocated

/-- A child that was split makes room for the new node behind it. -/
theorem InnerNode.Holding.receive_split [Inhabited K] {newkey : K} {newchild : Node K D}
    (h : inner.Holding p.toTraits (l + 1) keys (cs ++ c :: cs'))
    (hsiblings : Siblings p.toTraits l keys (cs ++ c :: cs'))
    (hfill : ∀ d ∈ cs ++ c :: cs', d.isUnderflow p.toTraits = false ∧ Shaped p.toTraits l d)
    (htwo : 2 ≤ p.innerslotmax) (hbefore : ∀ e ∈ entriesOf l cs, e.1 < key)
    (hbehind : cs' ≠ [] → ∃ e ∈ c.entries l, key ≤ e.1) (hr : r.Correct p l c key value stats)
    (hinserted : r.inserted = true) (hsplit : r.split = some (newkey, newchild)) :
    (inner.receive p cs.length r).Ensures
      (Inserted.Correct p (l + 1) (.inner inner) key value stats) := by
  have hchildren := h.children_length
  rw [List.length_append, List.length_cons] at hchildren
  have hset := h.set cs.length r.node
  rw [List.set_append_right _ _ (Nat.le_refl _), Nat.sub_self, List.set_cons_zero] at hset
  have hentries := hr.entries_eq hinserted
  rw [Inserted.nodes_of_some hsplit, entriesOf_cons, entriesOf_cons, entriesOf_nil,
    List.append_nil] at hentries
  have hv := hr.verified r.node List.mem_cons_self
  have hv' := hr.verified newchild (by simp [Inserted.nodes_of_some hsplit])
  have hkey : r.node.maxkey l = some newkey := (hr.split_eq _ hsplit).1
  have hle : cs.length ≤ keys.length := by omega
  -- the keys before the child and those from it on
  have hlen : cs.length = (keys.take cs.length).length := by
    rw [List.length_take]
    omega
  have hreplace := hsiblings
  rw [← List.take_append_drop cs.length keys] at hreplace
  have hnew := (hreplace.replace hlen hv hv' hkey hentries hbefore hbehind).1
  rw [← insertIdx_eq hle] at hnew
  have hgrown : Grown p l inner key value stats r (keys.insertIdx cs.length newkey)
      (cs ++ r.node :: newchild :: cs') := by
    have hof := @Grown.of_nodes _ _ _ _ _ _ _ _ _ _ _ _ (keys.insertIdx cs.length newkey) _ _ h
      hsiblings hfill hbefore hbehind hr hinserted
    rw [Inserted.nodes_of_some hsplit, List.append_assoc] at hof
    exact hof hnew
  have hlenk : (keys.insertIdx cs.length newkey).length = keys.length + 1 :=
    List.length_insertIdx_of_le_length hle _
  have hput : (cs ++ r.node :: cs').insertIdx (cs.length + 1) newchild =
      cs ++ r.node :: newchild :: cs' := by
    have hassoc : cs ++ r.node :: cs' = (cs ++ [r.node]) ++ cs' := by simp
    have hlen' : cs.length + 1 = (cs ++ [r.node]).length := by simp
    rw [hassoc, hlen', insertIdx_append]
    simp
  rw [InnerNode.receive, hsplit]
  by_cases hfull : inner.slotuse = p.innerslotmax
  · have hfull' : keys.length = p.innerslotmax := h.slotuse_eq.symm.trans hfull
    simp only [if_pos hfull]
    apply (splitInnerNode.put_ensures hset hfull' htwo hle newkey newchild r.stats).bind
    rintro halves ⟨m, ⟨hm, hm', hfew, hfew'⟩, ⟨hleft, hright, hk⟩, hstats⟩
    rw [hput] at hleft hright
    have htwo' := hgrown.two (by omega) hk hleft hright hfew (by omega)
    rw [← hstats] at htwo'
    exact Ensures.pure htwo'
  · have hroom : keys.length < p.innerslotmax := by
      have hmax := h.length_le
      rw [h.slotuse_eq] at hfull
      omega
    simp only [if_neg hfull]
    apply (hset.put hle hroom newkey newchild).bind
    intro inner' hinner'
    rw [hput] at hinner'
    exact Ensures.pure (hgrown.one hinner' (by rw [h.slotuse_eq]; omega)
      (List.ne_nil_of_length_pos (by omega)))

/-- What a call on the child of the key has left takes the place of the child. -/
theorem InnerNode.Holding.receive [Inhabited K]
    (h : inner.Holding p.toTraits (l + 1) keys (cs ++ c :: cs'))
    (hsiblings : Siblings p.toTraits l keys (cs ++ c :: cs'))
    (hfill : ∀ d ∈ cs ++ c :: cs', d.isUnderflow p.toTraits = false ∧ Shaped p.toTraits l d)
    (htwo : 2 ≤ p.innerslotmax) (hne : keys ≠ []) (hbefore : ∀ e ∈ entriesOf l cs, e.1 < key)
    (hbehind : cs' ≠ [] → ∃ e ∈ c.entries l, key ≤ e.1)
    (hr : r.Correct p l c key value stats) :
    (inner.receive p cs.length r).Ensures
      (Inserted.Correct p (l + 1) (.inner inner) key value stats) := by
  cases hinserted : r.inserted with
  | false =>
      obtain ⟨hsplit, hsame, hcorrect⟩ :=
        h.receive_refused hsiblings hfill hne hbefore hbehind hr hinserted
      rw [InnerNode.receive, hsplit, hsame, hinserted]
      exact Ensures.pure hcorrect
  | true =>
      cases hsplit : r.split with
      | some s => exact h.receive_split hsiblings hfill htwo hbefore hbehind hr hinserted hsplit
      | none =>
          have hset := h.set cs.length r.node
          rw [List.set_append_right _ _ (Nat.le_refl _), Nat.sub_self, List.set_cons_zero] at hset
          have hentries := hr.entries_eq hinserted
          rw [Inserted.nodes_of_none hsplit, entriesOf_cons, entriesOf_nil, List.append_nil]
            at hentries
          have hv := hr.verified r.node List.mem_cons_self
          have hnew := (hsiblings.update hv hentries hbefore hbehind).1
          have hgrown := @Grown.of_nodes _ _ _ _ _ _ _ _ _ _ _ _ keys _ _ h hsiblings hfill
            hbefore hbehind hr hinserted
          rw [Inserted.nodes_of_none hsplit, List.append_assoc] at hgrown
          have hone := (hgrown hnew).one hset h.slotuse_eq.le hne
          rw [InnerNode.receive, hsplit]
          exact Ensures.pure hone

end Receiving

end Inner

/-! ## insert_descend -/

section Descent

variable [Inhabited K] [Inhabited D] {p : Params} {n : Node K D} {key : K} {value : D}
  {stats : TreeStats} {r : Inserted K D}

theorem insertDescend_ensures (hleaf : 2 ≤ p.leafslotmax) (hinner : 2 ≤ p.innerslotmax)
    (hv : VerifyNode p.toTraits l n) (hs : Shaped p.toTraits l n) (key : K) (value : D)
    (stats : TreeStats) :
    (insertDescend p key value stats n).Ensures (Inserted.Correct p l n key value stats) := by
  induction l generalizing n with
  | zero =>
      cases n with
      | inner inner => cases hv
      | leaf leaf =>
          have h := LeafNode.Holding.of_verified hv hs
          rw [insertDescend, if_pos h.level_eq]
          exact LeafNode.insert_ensures hleaf h hv.sorted key value stats
  | succ l ih =>
      cases n with
      | leaf leaf => cases hv
      | inner inner =>
          have h := InnerNode.Holding.of_verified hv hs
          have hv' : inner.Verified p.toTraits l (VerifyNode p.toTraits l) := hv
          obtain ⟨hlevel, hpos, _, hkeys, hsiblings⟩ := InnerNode.verified_iff.mp hv
          have hfill := hs.2.2
          have hne : inner.slotkey.take inner.slotuse ≠ [] := by
            apply List.ne_nil_of_length_pos
            rw [List.length_take]
            omega
          obtain ⟨cs, c, cs', hchildren, hslot, hbefore, hbehind⟩ := hsiblings.route key
          rw [hchildren] at h hsiblings hfill
          have hc : c ∈ cs ++ c :: cs' := by simp
          have hplace : inner.childid[cs.length]? = some c := h.getElem?_child (by simp)
          have hfind := stxFindLower_exact p.innerBinary key hv'.sorted
          rw [lowerBound, ← hslot] at hfind
          rw [insertDescend, if_neg (by omega)]
          apply hfind.seq
          split
          · rename_i hnone
            rw [hplace] at hnone
            cases hnone
          · rename_i child hchild
            cases hplace.symm.trans hchild
            apply (ih (hsiblings.verified c hc) (hfill c hc).2).bind
            intro r hr
            exact h.receive hsiblings hfill hinner hne hbefore hbehind hr

omit [Inhabited D] in
/-- A new root has the two nodes below it. -/
theorem Inserted.Correct.grow (hr : r.Correct p l n key value stats)
    (hsorted : Sorted (n.entries l)) (hinner : 2 ≤ p.innerslotmax) :
    (r.grow p).Ensures fun s => ∃ l', s.1.level = l' ∧ VerifyNode p.toTraits l' s.1 ∧
      Shaped p.toTraits l' s.1 ∧ s.1.entries l' = entriesOf l r.nodes ∧
        s.1.leaves l' = leavesOf l r.nodes ∧
          s.2 + countedOf l r.nodes = r.stats + s.1.counted l' := by
  have hv := hr.verified r.node List.mem_cons_self
  rw [Inserted.grow]
  cases hsplit : r.split with
  | none =>
      apply Ensures.pure
      refine ⟨l, hv.level_eq, hv, hr.shaped r.node List.mem_cons_self, ?_, ?_, ?_⟩
      · rw [Inserted.nodes_of_none hsplit, entriesOf_cons, entriesOf_nil, List.append_nil]
      · rw [Inserted.nodes_of_none hsplit, leavesOf_singleton]
      · rw [Inserted.nodes_of_none hsplit, countedOf_cons, countedOf_nil, add_zero]
  | some s =>
      obtain ⟨newkey, newchild⟩ := s
      have hinserted : r.inserted = true := by
        by_contra hc
        have hnone := (hr.refused (by simpa using hc)).2.1
        rw [hsplit] at hnone
        cases hnone
      have hnodes := Inserted.nodes_of_some hsplit
      obtain ⟨hkey, hfew, hfew'⟩ := hr.split_eq _ hsplit
      have hsiblings : Siblings p.toTraits l [newkey] r.nodes := by
        refine ⟨hr.verified, by rw [hnodes]; rfl, ?_, ?_⟩
        · intro i k c hk hc
          have hi := (List.getElem?_eq_some_iff.mp hk).1
          rw [List.length_singleton, Nat.lt_one_iff] at hi
          subst hi
          rw [hnodes] at hc
          cases hk
          cases hc
          exact hkey
        · rw [hr.entries_eq hinserted]
          exact hsorted.insertEntry key value
      have hlt : 0 < p.innerslotmax := by omega
      simp only [allocateInner]
      apply Returns.seq (returns_write.mpr ⟨by rw [List.length_replicate]; exact hlt, rfl⟩)
      apply Returns.seq (returns_write.mpr ⟨by rw [List.length_replicate]; omega, rfl⟩)
      apply Returns.seq (returns_write.mpr ⟨by rw [List.length_set, List.length_replicate]; omega,
        rfl⟩)
      apply Ensures.pure
      have hroot : InnerNode.Holding p.toTraits ⟨r.node.level + 1, 1,
          (List.replicate p.innerslotmax default).set 0 newkey,
          ((List.replicate (p.innerslotmax + 1) default).set 0 r.node).set 1 newchild⟩ (l + 1)
          [newkey] r.nodes := by
        obtain ⟨m, hm⟩ : ∃ m, p.innerslotmax = m + 1 := ⟨p.innerslotmax - 1, by omega⟩
        refine ⟨by rw [hv.level_eq], rfl, hlt, hsiblings.length_eq, ?_, ?_, ?_, ?_⟩
        · rw [List.length_set, List.length_replicate]
        · rw [List.length_set, List.length_set, List.length_replicate]
        · rw [hm]
          rfl
        · rw [hm, hnodes]
          rfl
      have hshaped : ∀ c ∈ r.nodes, c.isUnderflow p.toTraits = false ∧ Shaped p.toTraits l c := by
        intro c hc
        refine ⟨?_, hr.shaped c hc⟩
        rw [hnodes] at hc
        rcases List.mem_cons.mp hc with rfl | hc
        · exact hfew
        · rw [List.mem_singleton.mp hc]
          exact hfew'
      refine ⟨l + 1, hroot.level_eq, hroot.verified (List.cons_ne_nil _ _) hsiblings,
        hroot.shaped hshaped, hroot.entries_eq, hroot.leaves_eq, ?_⟩
      rw [hroot.counted_eq]
      ext <;> simp [Nat.add_assoc, Nat.add_comm]

end Descent

/-! ## insert -/

section Insertion

variable {p : Params} {t : Btree K D} {key : K} {value : D}

/-- What `insert` leaves. -/
structure Btree.InsertCorrect (p : Params) (t : Btree K D) (key : K) (value : D)
    (r : Btree K D × (LeafNode K D × Nat) × Bool) : Prop where
  /-- The tree is as `verify` asserts. -/
  sound : r.1.Sound p.toTraits
  /-- The entries. -/
  entries_eq : r.1.entries = add p.allowDuplicates t.entries (key, value)
  /-- When there is a new entry. -/
  inserted_iff : r.2.2 = true ↔ ¬ (p.allowDuplicates = false ∧ Present key t.entries)
  /-- The iterator is at the first entry of the key. -/
  position : ∃ e, (r.1.entries.find? fun e => e.1 == key) = some e ∧
    r.2.1.1.slotkey[r.2.1.2]? = some e.1 ∧ r.2.1.1.slotdata[r.2.1.2]? = some e.2
  /-- It is in one of the leaves of the tree. -/
  located : Located r.1.leaves key r.2.1.1 r.2.1.2

theorem Btree.Sound.sorted (h : t.Sound p.toTraits) : Sorted t.entries := by
  rw [Tree.entries]
  cases hroot : t.root with
  | none => exact List.Pairwise.nil
  | some root => exact (h.verified root hroot).sorted

/-- `exists` says whether the key is stored. -/
theorem Btree.Sound.contains (h : t.Sound p.toTraits) (key : K) :
    (t.contains p key).Returns (t.lookup key).isSome := by
  rw [Btree.contains]
  cases hroot : t.root with
  | none => exact returns_pure.mpr (by rw [Tree.lookup_none hroot, Option.isSome_none])
  | some root =>
      obtain ⟨n, hn, hpath⟩ :=
        OnPath.descend (stxFindLower_exact p.innerBinary) (h.verified root hroot) key
      obtain ⟨leaf, rfl, hs, hcase⟩ := hpath.hasKey hroot (h.verified root hroot)
      have hleaf : (Node.leaf leaf).toLeaf.Returns leaf := returns_pure.mpr rfl
      have hslot := stxFindLower_exact p.leafBinary key hs
      apply hn.bind
      apply hleaf.bind
      apply hslot.bind
      rcases hcase with ⟨hf, hnone⟩ | ⟨d, hf, _, _, hsome⟩
      · rw [hnone]
        exact hf
      · rw [hsome]
        exact hf

/-- The assertions of `insert_start` hold. -/
theorem Btree.Sound.selfverified (h : t.Sound p.toTraits) {e : K × D}
    (he : (t.entries.find? fun e => e.1 == key) = some e) :
    (t.selfverified p key).Ensures fun _ => True := by
  have hverify : (t.verify p.toTraits).Returns ⟨⟩ := by
    rw [Btree.verify]
    cases t.root with
    | none => exact returns_pure.mpr rfl
    | some root => exact returns_assert.mpr (decide_eq_true h)
  have hstored : (t.contains p key).Returns true := by
    have hcontains := h.contains key
    rwa [Tree.lookup, he] at hcontains
  rw [Btree.selfverified]
  split
  · apply hverify.seq
    apply hstored.seq
    exact Ensures.assert rfl trivial
  · exact Ensures.pure trivial

variable [Inhabited K] [Inhabited D]

/-- The call at the root, which is a new leaf if there was none. -/
theorem Btree.Sound.rooted (h : t.Sound p.toTraits) (hleaf : 2 ≤ p.leafslotmax)
    (hinner : 2 ≤ p.innerslotmax) (key : K) (value : D) :
    ∃ l, (t.rooted p).1.entries l = t.entries ∧ (t.rooted p).2 = (t.rooted p).1.counted l ∧
      (insertDescend p key value (t.rooted p).2 (t.rooted p).1).Ensures
        (Inserted.Correct p l (t.rooted p).1 key value (t.rooted p).2) := by
  have hstats := h.stats_eq
  rw [Tree.counted] at hstats
  rw [Btree.rooted, Tree.entries]
  cases hroot : t.root with
  | none =>
      rw [hroot] at hstats
      have hnew := allocateLeaf_holding (K := K) (D := D) p.toTraits t.stats
      refine ⟨0, hnew.entries_eq 0, ?_, ?_⟩
      · rw [hnew.counted_eq, allocateLeaf, hstats]
        rfl
      · dsimp only
        rw [insertDescend, if_pos hnew.level_eq]
        exact LeafNode.insert_ensures hleaf hnew List.Pairwise.nil key value _
  | some root =>
      rw [hroot] at hstats
      exact ⟨root.level, rfl, hstats, insertDescend_ensures hleaf hinner (h.verified root hroot)
        (h.shaped root hroot) key value t.stats⟩

/-- `insert` keeps the tree sound, and inserts into the sequence of its entries. -/
theorem Btree.Sound.insert (h : t.Sound p.toTraits) (hleaf : 2 ≤ p.leafslotmax)
    (hinner : 2 ≤ p.innerslotmax) (key : K) (value : D) :
    (t.insert p key value).Ensures (Btree.InsertCorrect p t key value) := by
  obtain ⟨l, hentries, hstats, hdescend⟩ := h.rooted hleaf hinner key value
  have hsorted : Sorted ((t.rooted p).1.entries l) := hentries ▸ h.sorted
  apply hdescend.bind
  intro r hr
  apply (hr.grow hsorted hinner).bind
  rintro ⟨root, stats⟩ ⟨l', rfl, hv, hs, hnodes, hleaves, hcounted⟩
  -- the entries, whether there is a new one or not
  have hadd : root.entries root.level = add p.allowDuplicates t.entries (key, value) := by
    rw [hnodes, add, ← hentries]
    cases hinserted : r.inserted with
    | false =>
        obtain ⟨hnode, hsplit, _⟩ := hr.refused hinserted
        have hrefused : p.allowDuplicates = false ∧ Present key ((t.rooted p).1.entries l) := by
          by_contra hc
          rw [hr.inserted_iff.mpr hc] at hinserted
          cases hinserted
        rw [if_pos hrefused, Inserted.nodes_of_none hsplit, hnode, entriesOf_cons, entriesOf_nil,
          List.append_nil]
    | true => rw [if_neg (hr.inserted_iff.mp hinserted), hr.entries_eq hinserted]
  have hcount : stats + ⟨if r.inserted then 1 else 0, 0, 0⟩ = root.counted root.level := by
    have hstats' := hr.stats_eq
    rw [hstats] at hstats'
    dsimp only at hcounted
    obtain ⟨h1, h2, h3⟩ := TreeStats.ext_iff.mp hstats'
    obtain ⟨h4, h5, h6⟩ := TreeStats.ext_iff.mp hcounted
    simp only [TreeStats.itemcount_add, TreeStats.leaves_add, TreeStats.innernodes_add]
      at h1 h2 h3 h4 h5 h6
    ext
    · simp only [TreeStats.itemcount_add]
      omega
    · simp only [TreeStats.leaves_add]
      omega
    · simp only [TreeStats.innernodes_add]
      omega
  have hsound : Btree.Sound p.toTraits
      ⟨⟨some root⟩, if r.inserted then { stats with itemcount := stats.itemcount + 1 }
        else stats⟩ := by
    refine ⟨?_, ?_, ?_⟩
    · intro root' hroot'
      cases hroot'
      exact hv
    · intro root' hroot'
      cases hroot'
      exact hs
    · dsimp only [Tree.counted]
      rw [← hcount]
      cases r.inserted with
      | false => rfl
      | true => rfl
  have hfirst := hr.position
  rw [← hnodes] at hfirst
  obtain ⟨e, he, hkey, hvalue⟩ := hfirst
  apply (hsound.selfverified he).bind
  intro _ _
  apply Ensures.pure
  refine ⟨hsound, hadd, hentries ▸ hr.inserted_iff, ⟨e, he, hkey, hvalue⟩, ?_⟩
  have hlocated := hr.located
  rw [← hleaves] at hlocated
  exact hlocated

end Insertion

end BTree
