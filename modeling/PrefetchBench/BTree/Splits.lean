import PrefetchBench.BTree.Insert

/-!
# Nodes as sequences

A leaf holds a sequence of entries, and an inner node a sequence of keys and one of children
(`LeafNode.Holding`, `InnerNode.Holding`).  In these terms a new slot is an insertion at a place,
and a split is a cut.  A full node that takes a new slot ends up as the two parts of the sequence
with the new element in it (`splitLeafNode.put_ensures`, `splitInnerNode.put_ensures`), of which
neither is less than half full.
-/

namespace BTree

open Prog KeyArray Ordered

variable {K D : Type} {tr : Traits}

/-! ## Leaves -/

/-- The entries of a leaf. -/
structure LeafNode.Holding (tr : Traits) (leaf : LeafNode K D) (es : List (K × D)) : Prop where
  /-- Leaves are on level 0. -/
  level_eq : leaf.level = 0
  /-- The slots in use. -/
  slotuse_eq : leaf.slotuse = es.length
  /-- They fit. -/
  length_le : es.length ≤ tr.leafslotmax
  /-- The size of the array of keys. -/
  slotkey_length : leaf.slotkey.length = tr.leafslotmax
  /-- The size of the array of data. -/
  slotdata_length : leaf.slotdata.length = tr.leafslotmax
  /-- The keys in use. -/
  slotkey_eq : leaf.slotkey.take es.length = es.map Prod.fst
  /-- The data in use. -/
  slotdata_eq : leaf.slotdata.take es.length = es.map Prod.snd

namespace LeafNode.Holding

variable {leaf : LeafNode K D} {es : List (K × D)}

theorem entries_eq (h : leaf.Holding tr es) (l : Nat) : (Node.leaf leaf).entries l = es := by
  have hzip : ((leaf.slotkey.zip leaf.slotdata).take leaf.slotuse) = es := by
    rw [List.zip_eq_zipWith, List.take_zipWith, h.slotuse_eq, h.slotkey_eq, h.slotdata_eq,
      ← List.zip_eq_zipWith]
    exact (List.zip_of_prod rfl rfl).symm
  cases l <;> exact hzip

theorem counted_eq (h : leaf.Holding tr es) (l : Nat) :
    (Node.leaf leaf).counted l = ⟨es.length, 1, 0⟩ := by
  rw [← h.slotuse_eq]
  cases l <;> rfl

theorem shaped (h : leaf.Holding tr es) (l : Nat) : Shaped tr l (.leaf leaf) := by
  cases l <;> exact ⟨h.slotkey_length, h.slotdata_length⟩

theorem isUnderflow_eq (h : leaf.Holding tr es) (hfew : tr.minleafslots ≤ es.length) :
    (Node.leaf leaf).isUnderflow tr = false := by
  rw [Node.isUnderflow, h.slotuse_eq]
  simpa using hfew

theorem getElem?_key (h : leaf.Holding tr es) {i : Nat} {e : K × D} (hi : es[i]? = some e) :
    leaf.slotkey[i]? = some e.1 := by
  have hlt := (List.getElem?_eq_some_iff.mp hi).1
  rw [← List.getElem?_take_of_lt hlt, h.slotkey_eq, List.getElem?_map, hi]
  rfl

theorem getElem?_data (h : leaf.Holding tr es) {i : Nat} {e : K × D} (hi : es[i]? = some e) :
    leaf.slotdata[i]? = some e.2 := by
  have hlt := (List.getElem?_eq_some_iff.mp hi).1
  rw [← List.getElem?_take_of_lt hlt, h.slotdata_eq, List.getElem?_map, hi]
  rfl

theorem verified [LinearOrder K] (h : leaf.Holding tr es) (hne : es ≠ []) (hs : Sorted es) :
    VerifyNode tr 0 (.leaf leaf) where
  level_eq := h.level_eq
  slotuse_pos := by
    rw [h.slotuse_eq]
    exact List.length_pos_iff.mpr hne
  slotuse_le := by
    rw [h.slotuse_eq]
    exact h.length_le
  sorted := by
    rw [h.slotuse_eq]
    refine ⟨h.slotkey_length ▸ h.length_le, ?_⟩
    rw [h.slotkey_eq]
    exact List.pairwise_map.mpr hs
  data_le := by
    rw [h.slotuse_eq, h.slotdata_length]
    exact h.length_le

/-- A leaf that passes `verify_node` holds its entries. -/
theorem of_verified [LinearOrder K] (hv : VerifyNode tr 0 (.leaf leaf))
    (hs : Shaped tr 0 (.leaf leaf)) : leaf.Holding tr ((Node.leaf leaf).entries 0) := by
  have hv' : leaf.Verified tr := hv
  have hlen := LeafNode.length_entries hv' 0
  have hentries : (Node.leaf leaf).entries 0 =
      (leaf.slotkey.take leaf.slotuse).zip (leaf.slotdata.take leaf.slotuse) := by
    rw [Node.entries, List.zip_eq_zipWith, List.take_zipWith, ← List.zip_eq_zipWith]
  have hkeys : leaf.slotuse ≤ leaf.slotkey.length := hv'.sorted.le_length
  have hdata := hv'.data_le
  have hmin : (leaf.slotkey.take leaf.slotuse).length =
      (leaf.slotdata.take leaf.slotuse).length := by
    rw [List.length_take, List.length_take]
    omega
  refine ⟨hv'.level_eq, hlen.symm, hlen.symm ▸ hv'.slotuse_le, hs.1, hs.2, ?_, ?_⟩
  · rw [hlen, hentries, List.map_fst_zip hmin.le]
  · rw [hlen, hentries, List.map_snd_zip hmin.ge]

/-- A new slot. -/
theorem put (h : leaf.Holding tr es) {slot : Nat} (hslot : slot ≤ es.length)
    (hfull : es.length < tr.leafslotmax) (key : K) (value : D) :
    (leaf.put slot key value).Ensures (LeafNode.Holding tr · (es.insertIdx slot (key, value))) := by
  have hkeys : es.length < leaf.slotkey.length := h.slotkey_length ▸ hfull
  have hdata : es.length < leaf.slotdata.length := h.slotdata_length ▸ hfull
  have hlen : (es.insertIdx slot (key, value)).length = es.length + 1 :=
    List.length_insertIdx_of_le_length hslot _
  rw [LeafNode.put, h.slotuse_eq]
  apply Ensures.assert_bind (decide_eq_true hslot)
  apply (copyBackward_returns hslot hkeys).seq
  apply (copyBackward_returns hslot hdata).seq
  apply Returns.seq (returns_write.mpr ⟨by rw [length_spread hslot hkeys]; omega, rfl⟩)
  apply Returns.seq (returns_write.mpr ⟨by rw [length_spread hslot hdata]; omega, rfl⟩)
  apply Ensures.pure
  refine ⟨h.level_eq, hlen.symm, by omega, ?_, ?_, ?_, ?_⟩
  · rw [List.length_set, length_spread hslot hkeys, h.slotkey_length]
  · rw [List.length_set, length_spread hslot hdata, h.slotdata_length]
  · rw [hlen, take_set_spread hslot hkeys, h.slotkey_eq, List.map_insertIdx]
  · rw [hlen, take_set_spread hslot hdata, h.slotdata_eq, List.map_insertIdx]

end LeafNode.Holding

section Splitting

variable [Inhabited K] [Inhabited D]

theorem allocateLeaf_holding (tr : Traits) (stats : TreeStats) :
    LeafNode.Holding tr (allocateLeaf tr stats).1 ([] : List (K × D)) :=
  ⟨rfl, rfl, Nat.zero_le _, List.length_replicate, List.length_replicate, rfl, rfl⟩

/-- The halves of a full leaf. -/
theorem splitLeafNode_ensures {leaf : LeafNode K D} {es : List (K × D)} (h : leaf.Holding tr es)
    (hfull : es.length = tr.leafslotmax) (htwo : 2 ≤ tr.leafslotmax) (stats : TreeStats) :
    (splitLeafNode tr leaf stats).Ensures fun r =>
      r.left.Holding tr (es.take (tr.leafslotmax / 2)) ∧
        r.right.Holding tr (es.drop (tr.leafslotmax / 2)) ∧
          (∃ e, es[tr.leafslotmax / 2 - 1]? = some e ∧ r.key = e.1) ∧
            r.stats = stats + ⟨0, 1, 0⟩ := by
  have hmid : es.length / 2 ≤ es.length := Nat.div_le_self _ _
  have hkeys : es.length ≤ leaf.slotkey.length := by rw [h.slotkey_length, hfull]
  have hdata : es.length ≤ leaf.slotdata.length := by rw [h.slotdata_length, hfull]
  obtain ⟨e, he⟩ := exists_getElem? es (i := es.length / 2 - 1) (by omega)
  rw [splitLeafNode, h.slotuse_eq]
  apply Ensures.assert_bind (beq_iff_eq.mpr hfull)
  simp only [Nat.shiftRight_one, allocateLeaf]
  apply (copy_returns hmid hkeys (by rw [List.length_replicate]; omega)).seq
  apply (copy_returns hmid hdata (by rw [List.length_replicate]; omega)).seq
  apply Returns.seq ((returns_back (by omega)).mpr (h.getElem?_key he))
  apply Ensures.pure
  rw [← hfull]
  refine ⟨⟨h.level_eq, ?_, ?_, h.slotkey_length, h.slotdata_length, ?_, ?_⟩,
    ⟨rfl, ?_, ?_, ?_, ?_, ?_, ?_⟩, ⟨e, he, rfl⟩, rfl⟩
  · rw [List.length_take]
    dsimp only
    omega
  · rw [List.length_take]
    omega
  · rw [List.length_take, Nat.min_eq_left hmid, List.map_take, ← h.slotkey_eq, List.take_take,
      Nat.min_eq_left hmid]
  · rw [List.length_take, Nat.min_eq_left hmid, List.map_take, ← h.slotdata_eq, List.take_take,
      Nat.min_eq_left hmid]
  · rw [List.length_drop]
  · rw [List.length_drop]
    omega
  · rw [length_copied hmid hkeys (by rw [List.length_replicate]; omega), List.length_replicate,
      hfull]
  · rw [length_copied hmid hdata (by rw [List.length_replicate]; omega), List.length_replicate,
      hfull]
  · rw [List.length_drop, take_copied hkeys, h.slotkey_eq, List.map_drop]
  · rw [List.length_drop, take_copied hdata, h.slotdata_eq, List.map_drop]

/-- A full leaf that takes an entry is cut in the sequence that has it. -/
theorem splitLeafNode.put_ensures [LinearOrder K] {leaf : LeafNode K D} {es : List (K × D)}
    (h : leaf.Holding tr es) (hfull : es.length = tr.leafslotmax) (htwo : 2 ≤ tr.leafslotmax)
    {slot : Nat} (hslot : slot ≤ es.length) (key : K) (value : D) (stats : TreeStats) :
    (splitLeafNode.put tr leaf slot key value stats).Ensures fun r => ∃ m left right e,
      (0 < m ∧ tr.minleafslots ≤ m ∧ m + tr.minleafslots ≤ es.length + 1 ∧ m ≤ es.length) ∧
      LeafNode.Holding tr left ((es.insertIdx slot (key, value)).take m) ∧
      LeafNode.Holding tr right ((es.insertIdx slot (key, value)).drop m) ∧
      (es.insertIdx slot (key, value))[m - 1]? = some e ∧
      (r.position = (left, slot) ∧ slot < m ∨ r.position = (right, slot - m) ∧ m ≤ slot) ∧
      r.node = .leaf left ∧ r.split = some (e.1, .leaf right) ∧ r.inserted = true ∧
      r.stats = stats + ⟨0, 1, 0⟩ := by
  apply (splitLeafNode_ensures h hfull htwo stats).bind
  rintro r ⟨hleft, hright, ⟨e, he, hkey⟩, hstats⟩
  have hmin : tr.minleafslots = tr.leafslotmax / 2 := rfl
  generalize hmid : tr.leafslotmax / 2 = mid at *
  have hleftuse : r.left.slotuse = mid := by
    rw [hleft.slotuse_eq, List.length_take]
    omega
  rw [hleftuse]
  by_cases hge : mid ≤ slot
  · rw [if_pos hge]
    have hplace : slot - mid ≤ (es.drop mid).length := by
      rw [List.length_drop]
      omega
    apply (hright.put hplace (by rw [List.length_drop]; omega) key value).bind
    intro right hright'
    apply Ensures.pure
    refine ⟨mid, r.left, right, e, by omega, ?_, ?_, ?_, Or.inr ⟨rfl, hge⟩, rfl, by rw [hkey],
      rfl, hstats⟩
    · rw [List.take_insertIdx_eq_take_of_le _ _ _ _ hge]
      exact hleft
    · rw [drop_insertIdx_of_ge hge hslot]
      exact hright'
    · rw [List.getElem?_insertIdx, if_pos (by omega), he]
  · rw [if_neg hge]
    have hplace : slot ≤ (es.take mid).length := by
      rw [List.length_take]
      omega
    apply (hleft.put hplace (by rw [List.length_take]; omega) key value).bind
    intro left hleft'
    have hleftuse' : left.slotuse = mid + 1 := by
      rw [hleft'.slotuse_eq, List.length_insertIdx_of_le_length hplace, List.length_take]
      omega
    apply Ensures.pure
    refine ⟨mid + 1, left, r.right, e, by omega, ?_, ?_, ?_, Or.inl ⟨rfl, by omega⟩, rfl, ?_, rfl,
      hstats⟩
    · rw [take_insertIdx_of_le (by omega) (by omega)]
      exact hleft'
    · rw [drop_insertIdx_of_le (by omega) (by omega)]
      exact hright
    · rw [List.getElem?_insertIdx, if_neg (by omega), if_neg (by omega), Nat.add_sub_cancel, he]
    · -- the place is in front of the last one, so the key between the halves stays
      rw [if_neg (by omega), hkey]

end Splitting

/-! ## Inner nodes -/

/-- The keys and the children of an inner node. -/
structure InnerNode.Holding (tr : Traits) (inner : InnerNode K (Node K D)) (level : Nat)
    (keys : List K) (children : List (Node K D)) : Prop where
  /-- The level. -/
  level_eq : inner.level = level
  /-- The slots in use. -/
  slotuse_eq : inner.slotuse = keys.length
  /-- They fit. -/
  length_le : keys.length ≤ tr.innerslotmax
  /-- There is one more child than keys. -/
  children_length : children.length = keys.length + 1
  /-- The size of the array of keys. -/
  slotkey_length : inner.slotkey.length = tr.innerslotmax
  /-- The size of the array of children. -/
  childid_length : inner.childid.length = tr.innerslotmax + 1
  /-- The keys in use. -/
  slotkey_eq : inner.slotkey.take keys.length = keys
  /-- The children in use. -/
  childid_eq : inner.childid.take (keys.length + 1) = children

namespace InnerNode.Holding

variable {inner : InnerNode K (Node K D)} {l level : Nat} {keys : List K}
  {children : List (Node K D)} {k : K} {c : Node K D}

theorem children_eq (h : inner.Holding tr level keys children) :
    inner.childid.take (inner.slotuse + 1) = children := by
  rw [h.slotuse_eq, h.childid_eq]

theorem entries_eq (h : inner.Holding tr level keys children) :
    (Node.inner inner).entries (l + 1) = entriesOf l children := by
  rw [Node.entries, h.children_eq]
  rfl

theorem counted_eq (h : inner.Holding tr level keys children) :
    (Node.inner inner).counted (l + 1) = countedOf l children + ⟨0, 0, 1⟩ := by
  rw [counted_inner, h.children_eq]

theorem isUnderflow_eq (h : inner.Holding tr level keys children)
    (hfew : tr.mininnerslots ≤ keys.length) : (Node.inner inner).isUnderflow tr = false := by
  rw [Node.isUnderflow, h.slotuse_eq]
  simpa using hfew

theorem getElem?_key (h : inner.Holding tr level keys children) {i : Nat} (hi : keys[i]? = some k) :
    inner.slotkey[i]? = some k := by
  have hlt := (List.getElem?_eq_some_iff.mp hi).1
  rw [← List.getElem?_take_of_lt hlt, h.slotkey_eq, hi]

theorem getElem?_child (h : inner.Holding tr level keys children) {i : Nat}
    (hi : children[i]? = some c) : inner.childid[i]? = some c := by
  have hlt := (List.getElem?_eq_some_iff.mp hi).1
  rw [h.children_length] at hlt
  rw [← List.getElem?_take_of_lt hlt, h.childid_eq, hi]

theorem verified [LinearOrder K] (h : inner.Holding tr (l + 1) keys children) (hne : keys ≠ [])
    (hs : Siblings tr l keys children) : VerifyNode tr (l + 1) (.inner inner) := by
  apply InnerNode.verified_iff.mpr
  rw [h.slotuse_eq, h.slotkey_eq, h.childid_eq, h.slotkey_length]
  exact ⟨h.level_eq, List.length_pos_iff.mpr hne, h.length_le, h.length_le, hs⟩

theorem shaped (h : inner.Holding tr level keys children)
    (hc : ∀ c ∈ children, c.isUnderflow tr = false ∧ Shaped tr l c) :
    Shaped tr (l + 1) (.inner inner) := by
  refine ⟨h.slotkey_length, h.childid_length, ?_⟩
  rw [h.children_eq]
  exact hc

/-- An inner node that passes `verify_node` holds its keys and its children. -/
theorem of_verified [LinearOrder K] (hv : VerifyNode tr (l + 1) (.inner inner))
    (hs : Shaped tr (l + 1) (.inner inner)) :
    inner.Holding tr (l + 1) (inner.slotkey.take inner.slotuse)
      (inner.childid.take (inner.slotuse + 1)) := by
  obtain ⟨hlevel, _, hmax, hkeys, hsiblings⟩ := InnerNode.verified_iff.mp hv
  have hlen : (inner.slotkey.take inner.slotuse).length = inner.slotuse := by
    rw [List.length_take]
    omega
  refine ⟨hlevel, hlen.symm, by omega, hsiblings.length_eq, hs.1, hs.2.1, ?_, ?_⟩
  · rw [hlen]
  · rw [hlen]

/-- A child is exchanged. -/
theorem set (h : inner.Holding tr level keys children) (slot : Nat) (c : Node K D) :
    InnerNode.Holding tr { inner with childid := inner.childid.set slot c } level keys
      (children.set slot c) where
  level_eq := h.level_eq
  slotuse_eq := h.slotuse_eq
  length_le := h.length_le
  children_length := by rw [List.length_set, h.children_length]
  slotkey_length := h.slotkey_length
  childid_length := by rw [List.length_set, h.childid_length]
  slotkey_eq := h.slotkey_eq
  childid_eq := by rw [List.take_set, h.childid_eq]

/-- A new slot. -/
theorem put (h : inner.Holding tr level keys children) {slot : Nat} (hslot : slot ≤ keys.length)
    (hfull : keys.length < tr.innerslotmax) (k : K) (c : Node K D) :
    (inner.put slot k c).Ensures
      (InnerNode.Holding tr · level (keys.insertIdx slot k) (children.insertIdx (slot + 1) c)) := by
  have hkeys : keys.length < inner.slotkey.length := h.slotkey_length ▸ hfull
  have hchildren : keys.length + 1 < inner.childid.length := by
    rw [h.childid_length]
    omega
  have hlen : (keys.insertIdx slot k).length = keys.length + 1 :=
    List.length_insertIdx_of_le_length hslot _
  -- the new child goes behind the place that is moved first
  have hmoved : (copyBackward inner.childid slot (keys.length + 1) (keys.length + 2)).Returns
      (spread inner.childid slot (keys.length + 1)) :=
    copyBackward_returns (by omega) hchildren
  have hwritten : ((spread inner.childid slot (keys.length + 1)).set (slot + 1) c).take
      (keys.length + 2) = children.insertIdx (slot + 1) c := by
    rw [take_set_spread_succ (by omega) hchildren, h.childid_eq]
  rw [InnerNode.put, h.slotuse_eq]
  apply Ensures.assert_bind (decide_eq_true hslot)
  apply (copyBackward_returns hslot hkeys).seq
  apply hmoved.seq
  apply Returns.seq (returns_write.mpr ⟨by rw [length_spread hslot hkeys]; omega, rfl⟩)
  apply Returns.seq (returns_write.mpr ⟨by rw [length_spread (by omega) hchildren]; omega, rfl⟩)
  apply Ensures.pure
  refine ⟨h.level_eq, hlen.symm, by omega, ?_, ?_, ?_, ?_, ?_⟩
  · rw [hlen, List.length_insertIdx_of_le_length (by rw [h.children_length]; omega),
      h.children_length]
  · rw [List.length_set, length_spread hslot hkeys, h.slotkey_length]
  · rw [List.length_set, length_spread (by omega) hchildren, h.childid_length]
  · rw [hlen, take_set_spread hslot hkeys, h.slotkey_eq]
  · rw [hlen, hwritten]

end InnerNode.Holding

section Halving

variable [Inhabited K] {inner : InnerNode K (Node K D)} {level : Nat} {keys : List K}
  {children : List (Node K D)}

/-- The halves of an inner node have the keys and the children of two parts, and the key between
them. -/
structure Halves.Parts (tr : Traits) (level : Nat) (keys : List K) (children : List (Node K D))
    (m : Nat) (r : Halves (InnerNode K (Node K D)) K) : Prop where
  /-- The left half. -/
  left : r.left.Holding tr level (keys.take m) (children.take (m + 1))
  /-- The right half. -/
  right : r.right.Holding tr level (keys.drop (m + 1)) (children.drop (m + 1))
  /-- The key between them. -/
  key : keys[m]? = some r.key

/-- With `m` keys in front of the cut, and a full node and a key more, no half is less than half
full. -/
def Traits.Even (tr : Traits) (m : Nat) : Prop :=
  0 < m ∧ m < tr.innerslotmax ∧ tr.mininnerslots ≤ m ∧ m + tr.mininnerslots ≤ tr.innerslotmax

/-- Where a full inner node is cut. -/
def splitPoint (slots addslot : Nat) : Nat :=
  if addslot ≤ slots / 2 ∧ slots - (slots / 2 + 1) < slots / 2 then slots / 2 - 1 else slots / 2

/-- The halves of a full inner node. -/
theorem splitInnerNode_ensures (h : inner.Holding tr level keys children)
    (hfull : keys.length = tr.innerslotmax) (hpos : 0 < tr.innerslotmax) (addslot : Nat)
    (stats : TreeStats) :
    (splitInnerNode tr inner addslot stats).Ensures fun r =>
      r.Parts tr level keys children (splitPoint tr.innerslotmax addslot) ∧
        r.stats = stats + ⟨0, 0, 1⟩ := by
  have hchildren := h.children_length
  have hpoint : (if addslot ≤ keys.length / 2 ∧ keys.length - (keys.length / 2 + 1) <
      keys.length / 2 then keys.length / 2 - 1 else keys.length / 2) =
        splitPoint tr.innerslotmax addslot := by rw [splitPoint, hfull]
  have hmid : splitPoint tr.innerslotmax addslot < keys.length := by
    rw [← hpoint]
    split <;> omega
  rw [splitInnerNode, h.slotuse_eq]
  apply Ensures.assert_bind (beq_iff_eq.mpr hfull)
  simp only [Nat.shiftRight_one, allocateInner, hpoint]
  generalize splitPoint tr.innerslotmax addslot = mid at hmid ⊢
  obtain ⟨k, hk⟩ := exists_getElem? keys hmid
  have hkeys : keys.length ≤ inner.slotkey.length := by rw [h.slotkey_length, hfull]
  have hchildid : keys.length + 1 ≤ inner.childid.length := by rw [h.childid_length, hfull]
  have hroom : keys.length - (mid + 1) ≤
      (List.replicate tr.innerslotmax (default : K)).length := by
    rw [List.length_replicate]
    omega
  have hroom' : keys.length + 1 - (mid + 1) ≤
      (List.replicate (tr.innerslotmax + 1) (default : Node K D)).length := by
    rw [List.length_replicate]
    omega
  apply (copy_returns hmid hkeys hroom).seq
  apply (copy_returns (by omega) hchildid hroom').seq
  apply Returns.seq (returns_read.mpr (h.getElem?_key hk))
  apply Ensures.pure
  refine ⟨⟨⟨h.level_eq, ?_, ?_, ?_, h.slotkey_length, h.childid_length, ?_, ?_⟩,
    ⟨h.level_eq, ?_, ?_, ?_, ?_, ?_, ?_, ?_⟩, hk⟩, rfl⟩
  · rw [List.length_take, Nat.min_eq_left hmid.le]
  · rw [List.length_take]
    omega
  · rw [List.length_take, List.length_take]
    omega
  · rw [List.length_take, Nat.min_eq_left hmid.le]
    conv_rhs => rw [← h.slotkey_eq]
    rw [List.take_take, Nat.min_eq_left hmid.le]
  · rw [List.length_take, Nat.min_eq_left hmid.le, ← h.childid_eq, List.take_take,
      Nat.min_eq_left (by omega)]
  · rw [List.length_drop]
  · rw [List.length_drop]
    omega
  · rw [List.length_drop, List.length_drop]
    omega
  · rw [length_copied hmid hkeys hroom, List.length_replicate]
  · rw [length_copied (by omega) hchildid hroom', List.length_replicate]
  · rw [List.length_drop, take_copied hkeys, h.slotkey_eq]
  · rw [List.length_drop, show keys.length - (mid + 1) + 1 = keys.length + 1 - (mid + 1) by omega,
      take_copied hchildid, h.childid_eq]

omit [Inhabited K] in
/-- The new child falls between the halves. -/
theorem Halves.between_ensures {r : Halves (InnerNode K (Node K D)) K} {ks ks' : List K}
    {cs cs' : List (Node K D)} {first : Node K D} (hl : r.left.Holding tr level ks cs)
    (hr : r.right.Holding tr level ks' (first :: cs')) (hlt : ks.length + 1 < tr.innerslotmax)
    (newkey : K) (newchild : Node K D) :
    (r.between tr newkey newchild).Ensures fun r' =>
      r'.left.Holding tr level (ks ++ [r.key]) (cs ++ [first]) ∧
        r'.right.Holding tr level ks' (newchild :: cs') ∧ r'.key = newkey ∧
          r'.stats = r.stats := by
  have hlenl := hl.children_length
  have hlenr := hr.children_length
  have hkeys : ks.length < r.left.slotkey.length := by
    rw [hl.slotkey_length]
    omega
  have hchildid : ks.length + 1 < r.left.childid.length := by
    rw [hl.childid_length]
    omega
  have hrest : 0 < r.right.childid.length := by
    rw [hr.childid_length]
    omega
  rw [Halves.between, hl.slotuse_eq]
  apply Ensures.assert_bind (decide_eq_true hlt)
  apply Returns.seq (returns_write.mpr ⟨hkeys, rfl⟩)
  apply Returns.seq (returns_read.mpr (hr.getElem?_child rfl))
  apply Returns.seq (returns_write.mpr ⟨hchildid, rfl⟩)
  apply Returns.seq (returns_write.mpr ⟨hrest, rfl⟩)
  apply Ensures.pure
  refine ⟨⟨hl.level_eq, ?_, ?_, ?_, ?_, ?_, ?_, ?_⟩,
    ⟨hr.level_eq, hr.slotuse_eq, hr.length_le, ?_, hr.slotkey_length, ?_, hr.slotkey_eq, ?_⟩, rfl,
    rfl⟩
  · rw [List.length_append, List.length_singleton]
  · rw [List.length_append, List.length_singleton]
    omega
  · simp only [List.length_append, List.length_singleton]
    omega
  · rw [List.length_set, hl.slotkey_length]
  · rw [List.length_set, hl.childid_length]
  · rw [List.length_append, List.length_singleton, List.take_add_one,
      List.take_set_of_le (by omega), hl.slotkey_eq, List.getElem?_set_self hkeys]
    rfl
  · rw [List.length_append, List.length_singleton, List.take_add_one,
      List.take_set_of_le (by omega), hl.childid_eq, List.getElem?_set_self hchildid]
    rfl
  · simpa using hlenr
  · rw [List.length_set, hr.childid_length]
  · rw [List.take_set, hr.childid_eq]
    rfl

namespace Halves.Parts

variable {r : Halves (InnerNode K (Node K D)) K} {mid slot : Nat}

omit [Inhabited K] in
/-- The new child falls between the parts. -/
theorem between_ensures (h : r.Parts tr level keys children mid)
    (hchildren : children.length = keys.length + 1) (hfull : keys.length = tr.innerslotmax)
    (hmid : mid + 1 < tr.innerslotmax) (newkey : K) (newchild : Node K D) :
    (r.between tr newkey newchild).Ensures fun r' =>
      r'.Parts tr level (keys.insertIdx (mid + 1) newkey)
        (children.insertIdx (mid + 1 + 1) newchild) (mid + 1) ∧ r'.stats = r.stats := by
  obtain ⟨first, hfirst⟩ := exists_getElem? children (i := mid + 1) (by omega)
  have hdrop : children.drop (mid + 1) = first :: children.drop (mid + 2) := by
    obtain ⟨hlt, rfl⟩ := List.getElem?_eq_some_iff.mp hfirst
    exact List.drop_eq_getElem_cons hlt
  have hright := h.right
  rw [hdrop] at hright
  have hroom : (keys.take mid).length + 1 < tr.innerslotmax := by
    rw [List.length_take]
    omega
  apply (Halves.between_ensures h.left hright hroom newkey newchild).mono
  rintro r' ⟨hleft', hright', hkey', hstats'⟩
  refine ⟨⟨?_, ?_, ?_⟩, hstats'⟩
  · rw [List.take_insertIdx_eq_take_of_le _ _ _ _ (Nat.le_refl _),
      List.take_insertIdx_eq_take_of_le _ _ _ _ (Nat.le_refl _), List.take_add_one,
      List.take_add_one (i := mid + 1), h.key, hfirst]
    exact hleft'
  · rw [drop_insertIdx_of_le (Nat.le_refl _) (by omega),
      drop_insertIdx_of_ge (Nat.le_refl _) (by omega), Nat.sub_self]
    exact hright'
  · rw [List.getElem?_insertIdx, if_neg (by omega), if_pos rfl, if_pos (by omega), hkey']

omit [Inhabited K] in
/-- The right part takes the new child. -/
theorem right_ensures (h : r.Parts tr level keys children mid)
    (hchildren : children.length = keys.length + 1) (hfull : keys.length = tr.innerslotmax)
    (hge : mid + 1 ≤ slot) (hslot : slot ≤ keys.length) (newkey : K) (newchild : Node K D) :
    (r.right.put (slot - (mid + 1)) newkey newchild).Ensures fun right =>
      Halves.Parts tr level (keys.insertIdx slot newkey) (children.insertIdx (slot + 1) newchild)
        mid { r with right := right } := by
  have hplace : slot - (mid + 1) ≤ (keys.drop (mid + 1)).length := by
    rw [List.length_drop]
    omega
  have hroom : (keys.drop (mid + 1)).length < tr.innerslotmax := by
    rw [List.length_drop]
    omega
  apply (h.right.put hplace hroom newkey newchild).mono
  intro right hright'
  refine ⟨?_, ?_, ?_⟩
  · rw [List.take_insertIdx_eq_take_of_le _ _ _ _ (by omega),
      List.take_insertIdx_eq_take_of_le _ _ _ _ (by omega)]
    exact h.left
  · rw [drop_insertIdx_of_ge hge hslot, drop_insertIdx_of_ge (by omega) (by omega),
      show slot + 1 - (mid + 1) = slot - (mid + 1) + 1 by omega]
    exact hright'
  · rw [List.getElem?_insertIdx, if_pos (by omega), h.key]

omit [Inhabited K] in
/-- The left part takes the new child. -/
theorem left_ensures (h : r.Parts tr level keys children mid)
    (hchildren : children.length = keys.length + 1) (hfull : keys.length = tr.innerslotmax)
    (hmid : mid < tr.innerslotmax) (hle : slot ≤ mid) (newkey : K) (newchild : Node K D) :
    (r.left.put slot newkey newchild).Ensures fun left =>
      Halves.Parts tr level (keys.insertIdx slot newkey) (children.insertIdx (slot + 1) newchild)
        (mid + 1) { r with left := left } := by
  have hplace : slot ≤ (keys.take mid).length := by
    rw [List.length_take]
    omega
  have hroom : (keys.take mid).length < tr.innerslotmax := by
    rw [List.length_take]
    omega
  apply (h.left.put hplace hroom newkey newchild).mono
  intro left hleft'
  refine ⟨?_, ?_, ?_⟩
  · rw [take_insertIdx_of_le (by omega) (by omega), take_insertIdx_of_le (by omega) (by omega)]
    exact hleft'
  · rw [drop_insertIdx_of_le (by omega) (by omega), drop_insertIdx_of_le (by omega) (by omega)]
    exact h.right
  · rw [List.getElem?_insertIdx, if_neg (by omega), if_neg (by omega), Nat.add_sub_cancel, h.key]

end Halves.Parts

omit [Inhabited K] in
/-- Where the node is cut, and which part may take a key more. -/
theorem splitPoint_even {tr : Traits} {slot mid : Nat} (htwo : 2 ≤ tr.innerslotmax)
    (hslot : slot ≤ tr.innerslotmax) (hmid : splitPoint tr.innerslotmax slot = mid) :
    mid < tr.innerslotmax ∧ (slot ≤ mid → tr.Even (mid + 1)) ∧
      (slot = mid + 1 → mid < tr.innerslotmax - (mid + 1) → tr.Even (mid + 1)) ∧
        (mid < slot → ¬ (slot = mid + 1 ∧ mid < tr.innerslotmax - (mid + 1)) → tr.Even mid) := by
  rw [splitPoint] at hmid
  simp only [Traits.Even, Traits.mininnerslots]
  split at hmid <;> omega

/-- A full inner node that takes a new child is cut in the sequences that have it. -/
theorem splitInnerNode.put_ensures (h : inner.Holding tr level keys children)
    (hfull : keys.length = tr.innerslotmax) (htwo : 2 ≤ tr.innerslotmax) {slot : Nat}
    (hslot : slot ≤ keys.length) (newkey : K) (newchild : Node K D) (stats : TreeStats) :
    (splitInnerNode.put tr inner slot newkey newchild stats).Ensures fun r => ∃ m, tr.Even m ∧
      r.Parts tr level (keys.insertIdx slot newkey) (children.insertIdx (slot + 1) newchild) m ∧
        r.stats = stats + ⟨0, 0, 1⟩ := by
  have hchildren := h.children_length
  apply (splitInnerNode_ensures h hfull (by omega) slot stats).bind
  rintro r ⟨hparts, hstats⟩
  obtain ⟨hlt, hleft, hbetween, hright⟩ := splitPoint_even htwo (hfull ▸ hslot) rfl
  generalize splitPoint tr.innerslotmax slot = mid at *
  have hleftuse : r.left.slotuse = mid := by
    rw [hparts.left.slotuse_eq, List.length_take]
    omega
  have hrightuse : r.right.slotuse = tr.innerslotmax - (mid + 1) := by
    rw [hparts.right.slotuse_eq, List.length_drop, hfull]
  rw [hleftuse, hrightuse]
  by_cases hcase : slot = mid + 1 ∧ mid < tr.innerslotmax - (mid + 1)
  · rw [if_pos hcase]
    obtain ⟨rfl, hless⟩ := hcase
    apply (hparts.between_ensures hchildren hfull (by omega) newkey newchild).mono
    rintro r' ⟨hparts', hstats'⟩
    exact ⟨mid + 1, hbetween rfl hless, hparts', hstats'.trans hstats⟩
  · rw [if_neg hcase]
    by_cases hge : mid + 1 ≤ slot
    · rw [if_pos hge]
      apply (hparts.right_ensures hchildren hfull hge hslot newkey newchild).bind
      intro right hparts'
      exact Ensures.pure ⟨mid, hright hge hcase, hparts', hstats⟩
    · rw [if_neg hge]
      apply (hparts.left_ensures hchildren hfull hlt (by omega) newkey newchild).bind
      intro left hparts'
      exact Ensures.pure ⟨mid + 1, hleft (by omega), hparts', hstats⟩

end Halving

end BTree
