import PrefetchBench.BTree.BulkLoad
import PrefetchBench.BTree.Splits
import PrefetchBench.Ordered.Parts

/-!
# What bulk loading leaves

Every level that `bulk_load` builds is a row of nodes that pass `verify_node`, and below which are
the items of the range (`Row`).  A loop over a level appends to the row above it a node over the
next share of the row below (`Row.snoc`).  The shares are large enough for no node to be less than
half full, unless it is the only one of its level.

The tree is then sound (`Btree.Sound.bulkLoad`).
-/

namespace BTree

open Prog KeyArray Ordered

variable {K D : Type} {tr : Traits}

/-! ## Filling a node -/

/-- A leaf takes the next items. -/
theorem LeafNode.fill_ensures {leaf : LeafNode K D} (h : leaf.Holding tr []) {items : List (K × D)}
    {it n : Nat} (hit : it + n ≤ items.length) (hn : n ≤ tr.leafslotmax) :
    (leaf.fill items it n).Ensures (LeafNode.Holding tr · ((items.drop it).take n)) := by
  have hlen : ((items.drop it).take n).length = n := by
    rw [List.length_take, List.length_drop]
    omega
  apply (Ensures.forRange (fun s leaf => leaf.level = 0 ∧ leaf.slotuse = n ∧
    leaf.slotkey.length = tr.leafslotmax ∧ leaf.slotdata.length = tr.leafslotmax ∧
      leaf.slotkey.take s = ((items.drop it).take s).map Prod.fst ∧
        leaf.slotdata.take s = ((items.drop it).take s).map Prod.snd)
    ⟨h.level_eq, rfl, h.slotkey_length, h.slotdata_length, rfl, rfl⟩ ?_).mono
  · rintro leaf ⟨hlevel, huse, hkeys, hdata, hkey, hvalue⟩
    refine ⟨hlevel, huse.trans hlen.symm, hlen.symm ▸ hn, hkeys, hdata, ?_, ?_⟩
    · rw [hlen, hkey]
    · rw [hlen, hvalue]
  · rintro s hs leaf ⟨hlevel, huse, hkeys, hdata, hkey, hvalue⟩
    obtain ⟨e, he⟩ := exists_getElem? items (i := it + s) (by omega)
    have hnext : (items.drop it).take (s + 1) = (items.drop it).take s ++ [e] := by
      rw [List.take_add_one, List.getElem?_drop, he, Option.toList_some]
    apply (returns_read.mpr he).seq
    apply Returns.seq (returns_write.mpr ⟨by omega, rfl⟩)
    apply Returns.seq (returns_write.mpr ⟨by omega, rfl⟩)
    apply Ensures.pure
    refine ⟨hlevel, huse, by rw [List.length_set, hkeys], by rw [List.length_set, hdata], ?_, ?_⟩
    · rw [take_set_next (by omega), hkey, hnext, List.map_append, List.map_singleton]
    · rw [take_set_next (by omega), hvalue, hnext, List.map_append, List.map_singleton]

/-- An inner node takes the next children of a row, with the last keys below them. -/
theorem InnerNode.fill_ensures {inner : InnerNode K (Node K D)} {level : Nat}
    (hlevel : inner.level = level) (hslotkey : inner.slotkey.length = tr.innerslotmax)
    (hchildid : inner.childid.length = tr.innerslotmax + 1) {row : NextLevel K D}
    {child : Nat → Prog (Node K D × K)} {index n : Nat} (hn : n ≤ tr.innerslotmax)
    (hchild : ∀ j, index ≤ j → j ≤ index + n → ∃ c, row[j]? = some c ∧ (child j).Returns c) :
    (inner.fill child index n).Ensures fun r =>
      r.1.Holding tr level (((row.drop index).take n).map Prod.snd)
        (((row.drop index).take (n + 1)).map Prod.fst) ∧
      row[index + n]?.map Prod.snd = some r.2 := by
  obtain ⟨last, hlast, hreturns⟩ := hchild (index + n) (by omega) (by omega)
  have hle := (List.getElem?_eq_some_iff.mp hlast).1
  have hlen : (((row.drop index).take n).map Prod.snd).length = n := by
    rw [List.length_map, List.length_take, List.length_drop]
    omega
  have hnext : ∀ {s : Nat} {c : Node K D × K}, row[index + s]? = some c →
      (row.drop index).take (s + 1) = (row.drop index).take s ++ [c] := by
    intro s c hc
    rw [List.take_add_one, List.getElem?_drop, hc, Option.toList_some]
  let P : Nat → InnerNode K (Node K D) → Prop := fun s m => m.level = level ∧ m.slotuse = n ∧
    m.slotkey.length = tr.innerslotmax ∧ m.childid.length = tr.innerslotmax + 1 ∧
      m.slotkey.take s = ((row.drop index).take s).map Prod.snd ∧
        m.childid.take s = ((row.drop index).take s).map Prod.fst
  have h0 : P 0 { inner with slotuse := n } := ⟨hlevel, rfl, hslotkey, hchildid, rfl, rfl⟩
  apply Ensures.bind (Ensures.forRange P h0 ?_)
  · rintro m ⟨hlevel, huse, hkeys, hchildren, hkey, hvalue⟩
    apply hreturns.seq
    apply Returns.seq (returns_write.mpr ⟨by omega, rfl⟩)
    apply Ensures.pure
    refine ⟨⟨hlevel, huse.trans hlen.symm, hlen.symm ▸ hn, ?_, hkeys, ?_, ?_, ?_⟩, ?_⟩
    · rw [hlen, List.length_map, List.length_take, List.length_drop]
      omega
    · rw [List.length_set, hchildren]
    · rw [hlen, hkey]
    · rw [hlen, take_set_next (by omega), hvalue, hnext hlast, List.map_append,
        List.map_singleton]
    · rw [hlast]
      rfl
  · rintro s hs m ⟨hlevel, huse, hkeys, hchildren, hkey, hvalue⟩
    obtain ⟨c, hc, hreturns⟩ := hchild (index + s) (by omega) (by omega)
    apply hreturns.seq
    apply Returns.seq (returns_write.mpr ⟨by omega, rfl⟩)
    apply Returns.seq (returns_write.mpr ⟨by omega, rfl⟩)
    apply Ensures.pure
    refine ⟨hlevel, huse, by rw [List.length_set, hkeys], by rw [List.length_set, hchildren],
      ?_, ?_⟩
    · rw [take_set_next (by omega), hkey, hnext hc, List.map_append, List.map_singleton]
    · rw [take_set_next (by omega), hvalue, hnext hc, List.map_append, List.map_singleton]

/-! ## Rows -/

variable [LinearOrder K]

/-- A row of nodes on level `l`, which is to have `width` of them, with the last key below each. -/
structure Row (tr : Traits) (l width : Nat) (items : List (K × D)) (counted : TreeStats)
    (row : NextLevel K D) : Prop where
  /-- The nodes are as they should be. -/
  verified : ∀ c ∈ row, VerifyNode tr l c.1
  /-- So are their arrays, and the nodes below them. -/
  shaped : ∀ c ∈ row, Shaped tr l c.1
  /-- The last keys. -/
  key_eq : ∀ c ∈ row, c.1.maxkey l = some c.2
  /-- No node is less than half full, if it is not the only one. -/
  fill : 2 ≤ width → ∀ c ∈ row, c.1.isUnderflow tr = false
  /-- The entries. -/
  entries_eq : entriesOf l (row.map Prod.fst) = items
  /-- The count. -/
  counted_eq : countedOf l (row.map Prod.fst) = counted

namespace Row

variable {l width : Nat} {items es : List (K × D)} {counted more : TreeStats} {row : NextLevel K D}
  {c : Node K D × K}

theorem nil : Row tr l width ([] : List (K × D)) 0 [] where
  verified c hc := by cases hc
  shaped c hc := by cases hc
  key_eq c hc := by cases hc
  fill _ c hc := by cases hc
  entries_eq := rfl
  counted_eq := rfl

/-- A row grows by a node. -/
theorem snoc (h : Row tr l width items counted row) (hv : VerifyNode tr l c.1)
    (hs : Shaped tr l c.1) (hk : c.1.maxkey l = some c.2)
    (hfew : 2 ≤ width → c.1.isUnderflow tr = false) (he : c.1.entries l = es)
    (hcount : c.1.counted l = more) :
    Row tr l width (items ++ es) (counted + more) (row ++ [c]) := by
  have hmem : ∀ {P : Node K D × K → Prop}, (∀ d ∈ row, P d) → P c → ∀ d ∈ row ++ [c], P d := by
    intro P hrow hc d hd
    rcases List.mem_append.mp hd with hd | hd
    · exact hrow d hd
    · rw [List.mem_singleton.mp hd]
      exact hc
  refine ⟨hmem h.verified hv, hmem h.shaped hs, hmem h.key_eq hk,
    fun hw => hmem (h.fill hw) (hfew hw), ?_, ?_⟩
  · rw [List.map_append, entriesOf_append, h.entries_eq, List.map_singleton, entriesOf_cons,
      entriesOf_nil, List.append_nil, he]
  · rw [List.map_append, countedOf_append, h.counted_eq, List.map_singleton, countedOf_cons,
      countedOf_nil, add_zero, hcount]

end Row

/-! ## The row of the leaves -/

variable [Inhabited K]

/-- A leaf as an entry of a row. -/
def LeafNode.asNext (leaf : LeafNode K D) : Node K D × K :=
  (.leaf leaf, leaf.slotkey.getD (leaf.slotuse - 1) default)

theorem LeafNode.maxkey_asNext {leaf : LeafNode K D} (h : leaf.Verified tr) :
    leaf.slotkey[leaf.slotuse - 1]? = some leaf.asNext.2 := by
  have hpos := h.slotuse_pos
  have hle := h.sorted.le_length
  rw [asNext, List.getD_eq_getElem?_getD, List.getElem?_eq_getElem (by omega)]
  rfl

/-- What holds before leaf `i` is loaded. -/
structure LeafLoad.Before (tr : Traits) (items : List (K × D)) (width least : Nat)
    (stats : TreeStats) (i : Nat) (st : LeafLoad K D) : Prop where
  /-- The leaves so far. -/
  row : Row tr 0 width (items.take st.it) ⟨st.it, i, 0⟩ (st.leaves.map LeafNode.asNext)
  /-- Their number. -/
  length_eq : st.leaves.length = i
  /-- The items left. -/
  left_eq : st.it + st.numItems = items.length
  /-- They are enough for the leaves left. -/
  left_ge : least * (width - i) ≤ st.numItems
  /-- They fit in the leaves left. -/
  left_le : st.numItems ≤ tr.leafslotmax * (width - i)
  /-- The new leaves are counted. -/
  stats_eq : st.stats = stats + ⟨0, i, 0⟩

variable [Inhabited D]

theorem loadLeaf_ensures {items : List (K × D)} (hsorted : Sorted items) {width least i : Nat}
    (hi : i < width) (hpos : 0 < least) (hfew : 2 ≤ width → tr.minleafslots ≤ least)
    {stats : TreeStats} {st : LeafLoad K D} (h : st.Before tr items width least stats i) :
    (loadLeaf tr items width i st).Ensures
      (LeafLoad.Before tr items width least stats (i + 1)) := by
  obtain ⟨⟨hlow, hhigh⟩, hlow', hhigh'⟩ :=
    share_bounds (by omega) h.left_ge h.left_le
  have hleft := h.left_eq
  rw [loadLeaf]
  generalize hshare : st.numItems / (width - i) = share at *
  have hle : share ≤ st.numItems := hshare ▸ Nat.div_le_self _ _
  have hlen : ((items.drop st.it).take share).length = share := by
    rw [List.length_take, List.length_drop]
    omega
  apply (LeafNode.fill_ensures (allocateLeaf_holding tr st.stats) (by omega) hhigh).bind
  intro leaf hleaf
  apply Ensures.pure
  have hv := hleaf.verified (List.ne_nil_of_length_pos (by omega))
    (hsorted.sublist ((List.take_sublist _ _).trans (List.drop_sublist _ _)))
  have hrow := h.row.snoc (c := leaf.asNext) hv (hleaf.shaped 0) (LeafNode.maxkey_asNext hv)
    (fun hw => hleaf.isUnderflow_eq (by rw [hlen]; exact (hfew hw).trans hlow))
    (hleaf.entries_eq 0) (hleaf.counted_eq 0)
  rw [← List.take_add, hlen] at hrow
  refine ⟨?_, ?_, ?_, ?_, ?_, ?_⟩
  · rw [List.map_append, List.map_singleton]
    exact hrow
  · rw [List.length_append, h.length_eq]
    rfl
  · dsimp only
    omega
  · rw [← Nat.sub_sub]
    exact hlow'
  · rw [← Nat.sub_sub]
    exact hhigh'
  · dsimp only [allocateLeaf]
    rw [h.stats_eq]
    rfl

/-- The leaves are a row of the items. -/
theorem loadLeaves_ensures {items : List (K × D)} (hsorted : Sorted items)
    (hleaf : 0 < tr.leafslotmax) (stats : TreeStats) :
    (loadLeaves tr items (parts items.length tr.leafslotmax) stats).Ensures fun st =>
      Row tr 0 (parts items.length tr.leafslotmax) items
          ⟨items.length, parts items.length tr.leafslotmax, 0⟩ (st.leaves.map LeafNode.asNext) ∧
        st.leaves.length = parts items.length tr.leafslotmax ∧
          st.stats = stats + ⟨0, parts items.length tr.leafslotmax, 0⟩ := by
  generalize hwidth : parts items.length tr.leafslotmax = width
  have hbefore : LeafLoad.Before tr items width (least items.length tr.leafslotmax) stats 0
      ⟨[], 0, items.length, stats⟩ := by
    refine ⟨Row.nil, rfl, Nat.zero_add _, ?_, ?_, ?_⟩
    · rw [← hwidth]
      exact least_mul_parts hleaf
    · rw [← hwidth]
      exact le_mul_parts items.length hleaf
    · exact (add_zero stats).symm
  have hfew : 2 ≤ width → tr.minleafslots ≤ least items.length tr.leafslotmax := by
    intro hw
    rw [least_of_several (hwidth ▸ hw), Traits.minleafslots]
    omega
  apply (Ensures.forRange _ hbefore fun i hi st h => loadLeaf_ensures hsorted hi ?_ hfew h).bind
  · intro st h
    have hleft := h.left_eq
    have hnone := h.left_le
    rw [Nat.sub_self, Nat.mul_zero] at hnone
    have hall : st.it = items.length := by omega
    apply Ensures.assert_bind (by simp; omega)
    apply Ensures.pure
    have hrow := h.row
    rw [hall, List.take_length] at hrow
    exact ⟨hrow, h.length_eq, h.stats_eq⟩
  · have hpos : 0 < items.length := by
      rw [← hwidth, lt_parts_iff hleaf] at hi
      omega
    exact le_least hpos (by omega)

/-! ## The row of the parents -/

/-- What the loop over a level reads: the children from place `i` on. -/
def Serves (child : NextLevel K D → Nat → Prog (Node K D × K)) (row : NextLevel K D) (i : Nat)
    (nextlevel : NextLevel K D) : Prop :=
  ∀ j, i ≤ j → ∀ c, row[j]? = some c → (child nextlevel j).Returns c

/-- Writing a place that has been read does no harm. -/
def Lasting (child : NextLevel K D → Nat → Prog (Node K D × K)) (row : NextLevel K D) : Prop :=
  ∀ i nextlevel c, Serves child row i nextlevel → Serves child row (i + 1) (nextlevel.set i c)

/-- What holds before parent `i` is loaded. -/
structure InnerLoad.Before (tr : Traits) (l width least : Nat) (row : NextLevel K D)
    (child : NextLevel K D → Nat → Prog (Node K D × K)) (stats : TreeStats) (i : Nat)
    (st : InnerLoad K D) : Prop where
  /-- The parents so far. -/
  parents : Row tr (l + 1) width (entriesOf l ((row.take st.index).map Prod.fst))
    (countedOf l ((row.take st.index).map Prod.fst) + ⟨0, 0, i⟩) (st.nextlevel.take i)
  /-- The children left can be read. -/
  serves : Serves child row i st.nextlevel
  /-- The array has place for all parents. -/
  width_le : width ≤ st.nextlevel.length
  /-- The children left. -/
  left_eq : st.index + st.numChildren = row.length
  /-- Every parent so far has a child. -/
  le_index : i ≤ st.index
  /-- The children left are enough for the parents left. -/
  left_ge : least * (width - i) ≤ st.numChildren
  /-- They fit in the parents left. -/
  left_le : st.numChildren ≤ (tr.innerslotmax + 1) * (width - i)
  /-- The new parents are counted. -/
  stats_eq : st.stats = stats + ⟨0, 0, i⟩

section Parents

variable {l width least i : Nat} {items : List (K × D)} {counted stats : TreeStats}
  {row : NextLevel K D} {child : NextLevel K D → Nat → Prog (Node K D × K)}

omit [Inhabited K] [Inhabited D] in
/-- Some nodes of a row side by side, and the last keys below all but the last one. -/
theorem Row.siblings (h : Row tr l width items counted row) (hsorted : Sorted items) {index n : Nat}
    (hle : index + n < row.length) :
    Siblings tr l (((row.drop index).take n).map Prod.snd)
      (((row.drop index).take (n + 1)).map Prod.fst) := by
  refine ⟨?_, ?_, ?_, ?_⟩
  · intro c hc
    obtain ⟨d, hd, rfl⟩ := List.mem_map.mp hc
    exact h.verified d (List.mem_of_mem_drop (List.mem_of_mem_take hd))
  · simp only [List.length_map, List.length_take, List.length_drop]
    omega
  · intro j k c hk hc
    rw [List.getElem?_map] at hk hc
    obtain ⟨d, hd, rfl⟩ := Option.map_eq_some_iff.mp hk
    obtain ⟨d', hd', rfl⟩ := Option.map_eq_some_iff.mp hc
    have hj := (List.getElem?_eq_some_iff.mp hd).1
    rw [List.length_take] at hj
    rw [List.getElem?_take_of_lt (by omega)] at hd hd'
    cases hd.symm.trans hd'
    exact h.key_eq d (List.mem_of_mem_drop (List.mem_of_getElem? hd))
  · have hrow : row = row.take index ++ ((row.drop index).take (n + 1) ++
        (row.drop index).drop (n + 1)) := by
      rw [List.take_append_drop, List.take_append_drop]
    rw [← h.entries_eq, hrow, List.map_append, List.map_append, entriesOf_append,
      entriesOf_append] at hsorted
    exact hsorted.append_right.append_left

omit [Inhabited D] in
theorem loadInner_ensures (h : Row tr l row.length items counted row) (hsorted : Sorted items)
    (hlasting : Lasting child row) (hi : i < width) (htwo : 2 ≤ least) (hrow : 2 ≤ row.length)
    (hfew : 2 ≤ width → tr.mininnerslots + 1 ≤ least) {st : InnerLoad K D}
    (hst : st.Before tr l width least row child stats i) :
    (loadInner tr (l + 1) child width i st).Ensures
      (InnerLoad.Before tr l width least row child stats (i + 1)) := by
  obtain ⟨⟨hlow, hhigh⟩, hlow', hhigh'⟩ := share_bounds (by omega) hst.left_ge hst.left_le
  have hleft := hst.left_eq
  have hindex := hst.le_index
  rw [loadInner]
  generalize hshare : st.numChildren / (width - i) = share at *
  have hle : share ≤ st.numChildren := hshare ▸ Nat.div_le_self _ _
  obtain ⟨n, rfl⟩ : ∃ n, share = n + 1 := ⟨share - 1, by omega⟩
  simp only [Nat.add_sub_cancel, allocateInner]
  apply Ensures.assert_bind (by simp)
  have hchild : ∀ j, st.index ≤ j → j ≤ st.index + n →
      ∃ c, row[j]? = some c ∧ (child st.nextlevel j).Returns c := by
    intro j hj hj'
    obtain ⟨c, hc⟩ := exists_getElem? row (i := j) (by omega)
    exact ⟨c, hc, hst.serves j (by omega) c hc⟩
  apply (InnerNode.fill_ensures rfl List.length_replicate List.length_replicate (by omega)
    hchild).bind
  rintro ⟨inner, key⟩ ⟨hinner, hkey⟩
  have hwidth := hst.width_le
  apply Returns.seq (returns_write.mpr ⟨by omega, rfl⟩)
  apply Ensures.pure
  obtain ⟨last, hlast, rfl⟩ := Option.map_eq_some_iff.mp hkey
  have hsiblings : Siblings tr l (((row.drop st.index).take n).map Prod.snd)
      (((row.drop st.index).take (n + 1)).map Prod.fst) := h.siblings hsorted (by omega)
  have hlen : (((row.drop st.index).take n).map Prod.snd).length = n := by
    rw [List.length_map, List.length_take, List.length_drop]
    omega
  have hchildren : ((row.drop st.index).take (n + 1)).map Prod.fst =
      ((row.drop st.index).take n).map Prod.fst ++ [last.1] := by
    rw [List.take_add_one, List.getElem?_drop, hlast, Option.toList_some, List.map_append,
      List.map_singleton]
  have hfilled : ∀ c ∈ ((row.drop st.index).take (n + 1)).map Prod.fst,
      c.isUnderflow tr = false ∧ Shaped tr l c := by
    intro c hc
    obtain ⟨d, hd, rfl⟩ := List.mem_map.mp hc
    have hmem := List.mem_of_mem_drop (List.mem_of_mem_take hd)
    exact ⟨h.fill hrow d hmem, h.shaped d hmem⟩
  have hv := hinner.verified (List.ne_nil_of_length_pos (by omega)) hsiblings
  have hmem := List.mem_of_getElem? hlast
  have hvlast := h.verified last hmem
  have hmax : (Node.inner inner).maxkey (l + 1) = some last.2 := by
    rw [hv.maxkey_eq, hinner.entries_eq, hchildren, Siblings.getLast?_entriesOf hvlast,
      ← hvlast.maxkey_eq, h.key_eq last hmem]
  have hhalf : 2 ≤ width → (Node.inner inner).isUnderflow tr = false := by
    intro hw
    have hleast := hfew hw
    exact hinner.isUnderflow_eq (by omega)
  have hparents := hst.parents.snoc (c := (.inner inner, last.2)) hv (hinner.shaped hfilled) hmax
    hhalf hinner.entries_eq hinner.counted_eq
  have hnext : (st.nextlevel.set i (.inner inner, last.2)).take (i + 1) =
      st.nextlevel.take i ++ [(.inner inner, last.2)] := take_set_next (by omega) _
  refine ⟨?_, hlasting i st.nextlevel _ hst.serves, ?_, ?_, ?_, ?_, ?_, ?_⟩
  · dsimp only
    rw [add_add_add_comm] at hparents
    rw [hnext, List.take_add, List.map_append, entriesOf_append, countedOf_append]
    exact hparents
  · rw [List.length_set]
    exact hwidth
  · dsimp only
    omega
  · dsimp only
    omega
  · rw [← Nat.sub_sub]
    exact hlow'
  · rw [← Nat.sub_sub]
    exact hhigh'
  · dsimp only
    rw [hst.stats_eq]
    rfl

omit [Inhabited D] in
/-- A level of inner nodes over a row. -/
theorem loadLevel_ensures (h : Row tr l row.length items counted row) (hsorted : Sorted items)
    (hinner : 2 ≤ tr.innerslotmax) (hrow : 2 ≤ row.length) (hlasting : Lasting child row)
    {nextlevel : NextLevel K D} (hserves : Serves child row 0 nextlevel)
    (hwidth : parts row.length (tr.innerslotmax + 1) ≤ nextlevel.length) (stats : TreeStats) :
    (loadLevel tr (l + 1) child (parts row.length (tr.innerslotmax + 1)) row.length nextlevel
      stats).Ensures fun st =>
        Row tr (l + 1) (parts row.length (tr.innerslotmax + 1)) items
            (counted + ⟨0, 0, parts row.length (tr.innerslotmax + 1)⟩)
            (st.nextlevel.take (parts row.length (tr.innerslotmax + 1))) ∧
          parts row.length (tr.innerslotmax + 1) ≤ st.nextlevel.length ∧
            st.index = row.length ∧
              st.stats = stats + ⟨0, 0, parts row.length (tr.innerslotmax + 1)⟩ := by
  have hmax : 0 < tr.innerslotmax + 1 := by omega
  have hfew : 2 ≤ parts row.length (tr.innerslotmax + 1) →
      tr.mininnerslots + 1 ≤ least row.length (tr.innerslotmax + 1) := by
    intro hw
    rw [least_of_several hw, Traits.mininnerslots]
    omega
  have htwo : 2 ≤ least row.length (tr.innerslotmax + 1) := le_least hrow (by omega)
  have hge := least_mul_parts (n := row.length) hmax
  have hle := le_mul_parts row.length hmax
  generalize parts row.length (tr.innerslotmax + 1) = width at *
  have hbefore : InnerLoad.Before tr l width (least row.length (tr.innerslotmax + 1)) row child
      stats 0 ⟨nextlevel, 0, row.length, stats⟩ :=
    ⟨Row.nil, hserves, hwidth, Nat.zero_add _, le_rfl, hge, hle, (add_zero stats).symm⟩
  apply (Ensures.forRange _ hbefore fun i hi st hst =>
    loadInner_ensures h hsorted hlasting hi htwo hrow hfew hst).bind
  intro st hst
  have hleft := hst.left_eq
  have hnone := hst.left_le
  rw [Nat.sub_self, Nat.mul_zero] at hnone
  have hall : st.index = row.length := by omega
  apply Ensures.assert_bind (by simpa using hnone)
  apply Ensures.pure
  have hparents := hst.parents
  rw [hall, List.take_length, h.entries_eq, h.counted_eq] at hparents
  exact ⟨hparents, hst.width_le, hall, hst.stats_eq⟩

end Parents

/-! ## The levels -/

section Levels

variable {l : Nat} {items : List (K × D)} {counted stats : TreeStats} {row : NextLevel K D}

omit [Inhabited D] in
theorem serves_leafChild {leaves : List (LeafNode K D)}
    (h : ∀ leaf ∈ leaves, leaf.Verified tr) (nextlevel : NextLevel K D) :
    Serves (fun _ => leafChild leaves) (leaves.map LeafNode.asNext) 0 nextlevel := by
  intro j _ c hc
  rw [List.getElem?_map] at hc
  obtain ⟨leaf, hleaf, rfl⟩ := Option.map_eq_some_iff.mp hc
  have hv := h leaf (List.mem_of_getElem? hleaf)
  have hkey := (returns_back hv.slotuse_pos).mpr (LeafNode.maxkey_asNext hv)
  exact (returns_read.mpr hleaf).bind (hkey.bind (returns_pure.mpr rfl))

omit [LinearOrder K] [Inhabited K] [Inhabited D] in
theorem lasting_read (row : NextLevel K D) : Lasting read row := by
  intro i nextlevel c h j hj d hd
  have hread := returns_read.mp (h j (by omega) d hd)
  apply returns_read.mpr
  rw [List.getElem?_set_ne (by omega), hread]

/-- What holds when level `l` is the highest one so far. -/
structure LevelLoad.Before (tr : Traits) (numLeaves : Nat) (items : List (K × D))
    (counted stats : TreeStats) (l : Nat) (st : LevelLoad K D) : Prop where
  /-- The next level. -/
  level_eq : st.level = l + 1
  /-- The number of nodes. -/
  width_eq : st.width = narrowed (tr.innerslotmax + 1) numLeaves l
  /-- The nodes. -/
  row : Row tr l st.width items (counted + ⟨0, 0, narrowedSum (tr.innerslotmax + 1) numLeaves l⟩)
    (st.nextlevel.take st.width)
  /-- They are in the array. -/
  width_le : st.width ≤ st.nextlevel.length
  /-- The inner nodes are counted. -/
  stats_eq : st.stats = stats + ⟨0, 0, narrowedSum (tr.innerslotmax + 1) numLeaves l⟩
  /-- There are several nodes on every level below. -/
  several : ∀ k < l, 2 ≤ narrowed (tr.innerslotmax + 1) numLeaves k

omit [Inhabited D] in
theorem loadUpper_ensures (hsorted : Sorted items) (hinner : 2 ≤ tr.innerslotmax) {numLeaves : Nat}
    {st : LevelLoad K D} (h : st.Before tr numLeaves items counted stats l) (htwo : 2 ≤ st.width) :
    (loadUpper tr st).Ensures fun st' =>
      st'.width < st.width ∧ st'.Before tr numLeaves items counted stats (l + 1) := by
  have hlen : (st.nextlevel.take st.width).length = st.width := by
    rw [List.length_take]
    exact Nat.min_eq_left h.width_le
  have hrow : Row tr l (st.nextlevel.take st.width).length items
      (counted + ⟨0, 0, narrowedSum (tr.innerslotmax + 1) numLeaves l⟩)
      (st.nextlevel.take st.width) := by
    rw [hlen]
    exact h.row
  have hlt : parts st.width (tr.innerslotmax + 1) < st.width := parts_lt (by omega) htwo
  have hserves : Serves read (st.nextlevel.take st.width) 0 st.nextlevel := by
    intro j _ c hc
    apply returns_read.mpr
    have hj := (List.getElem?_eq_some_iff.mp hc).1
    rw [hlen] at hj
    rwa [List.getElem?_take_of_lt hj] at hc
  have hload := loadLevel_ensures hrow hsorted hinner (hlen.symm ▸ htwo)
    (lasting_read _) hserves (by rw [hlen]; exact hlt.le.trans h.width_le) st.stats
  rw [hlen, ← h.level_eq] at hload
  rw [loadUpper, numParents, ← parts]
  apply hload.bind
  rintro r ⟨hparents, hwidth, _, hstats⟩
  apply Ensures.pure
  have hnarrowed : parts st.width (tr.innerslotmax + 1) =
      narrowed (tr.innerslotmax + 1) numLeaves (l + 1) := by rw [narrowed, h.width_eq]
  have hsum : (⟨0, 0, narrowedSum (tr.innerslotmax + 1) numLeaves l⟩ : TreeStats) +
      ⟨0, 0, parts st.width (tr.innerslotmax + 1)⟩ =
        ⟨0, 0, narrowedSum (tr.innerslotmax + 1) numLeaves (l + 1)⟩ := by
    rw [hnarrowed]
    rfl
  refine ⟨hlt, by rw [h.level_eq], hnarrowed, ?_, hwidth, ?_, ?_⟩
  · rw [add_assoc, hsum, h.level_eq] at hparents
    exact hparents
  · rw [hstats, h.stats_eq, add_assoc, hsum]
  · intro k hk
    rcases Nat.lt_or_eq_of_le (Nat.le_of_lt_succ hk) with hk | rfl
    · exact h.several k hk
    · rw [← h.width_eq]
      exact htwo

omit [Inhabited D] in
/-- The inner nodes over a row of several leaves. -/
theorem loadInners_ensures {leaves : List (LeafNode K D)}
    (h : Row tr 0 leaves.length items counted (leaves.map LeafNode.asNext)) (hsorted : Sorted items)
    (hinner : 2 ≤ tr.innerslotmax) (htwo : 2 ≤ leaves.length) (stats : TreeStats) :
    (loadInners tr leaves stats).Ensures fun r => ∃ l, VerifyNode tr l r.1 ∧ Shaped tr l r.1 ∧
      r.1.entries l = items ∧
        r.1.counted l = counted +
          ⟨0, 0, narrowedSum (tr.innerslotmax + 1) leaves.length l⟩ ∧
        r.2 = stats + ⟨0, 0, narrowedSum (tr.innerslotmax + 1) leaves.length l⟩ ∧
          ∀ k < l, 2 ≤ narrowed (tr.innerslotmax + 1) leaves.length k := by
  have hlen : (leaves.map (LeafNode.asNext (D := D))).length = leaves.length := List.length_map _
  have hleaves : ∀ leaf ∈ leaves, leaf.Verified tr := fun leaf hleaf =>
    h.verified _ (List.mem_map_of_mem hleaf)
  have hpos : 0 < leaves.length := by omega
  have hlasting : Lasting (fun _ => leafChild leaves) (leaves.map LeafNode.asNext) :=
    fun i _ _ hs j hj => hs j (by omega)
  have hload := loadLevel_ensures (hlen.symm ▸ h) hsorted hinner (hlen.symm ▸ htwo) hlasting
    (serves_leafChild hleaves (List.replicate (numParents tr leaves.length) default))
    (by rw [hlen, List.length_replicate]; rfl) stats
  rw [hlen] at hload
  apply hload.bind
  rintro r ⟨hparents, hwidth, hindex, hstats⟩
  apply Ensures.assert_bind (beq_iff_eq.mpr hindex)
  have hbefore : LevelLoad.Before tr leaves.length items counted stats 1
      ⟨2, numParents tr leaves.length, r.nextlevel, r.stats⟩ := by
    have hsum : numParents tr leaves.length =
        narrowedSum (tr.innerslotmax + 1) leaves.length 1 := (Nat.zero_add _).symm
    refine ⟨rfl, rfl, ?_, hwidth, ?_, ?_⟩
    · rw [← hsum]
      exact hparents
    · rw [← hsum]
      exact hstats
    · intro k hk
      rw [Nat.lt_one_iff.mp hk]
      exact htwo
  apply Ensures.bind (Ensures.whileM
    (fun m st => m = st.width ∧ ∃ l, LevelLoad.Before tr leaves.length items counted stats l st)
    (Q := fun st => st.width = 1 ∧
      ∃ l, LevelLoad.Before tr leaves.length items counted stats l st) ?_ _ _
    ⟨rfl, 1, hbefore⟩)
  · rintro st ⟨hone, l, hst⟩
    have hrow := hst.row
    have hle := hst.width_le
    rw [hone] at hrow hle
    obtain ⟨root, hroot⟩ := exists_getElem? st.nextlevel (i := 0) (by omega)
    have htake : st.nextlevel.take 1 = [root] := by
      rw [List.take_add_one, hroot]
      rfl
    rw [htake] at hrow
    have hmem : root ∈ [root] := List.mem_singleton_self root
    have hentries := hrow.entries_eq
    have hcount := hrow.counted_eq
    rw [List.map_singleton, entriesOf_cons, entriesOf_nil, List.append_nil] at hentries
    rw [List.map_singleton, countedOf_cons, countedOf_nil, add_zero] at hcount
    apply (returns_read.mpr hroot).seq
    apply Ensures.pure
    exact ⟨l, hrow.verified root hmem, hrow.shaped root hmem, hentries, hcount, hst.stats_eq,
      hst.several⟩
  · rintro m st ⟨rfl, l, hst⟩
    refine ⟨_, returns_pure.mpr rfl, ?_, ?_⟩
    · intro hne
      have hwpos : 0 < st.width := by
        rw [hst.width_eq]
        exact narrowed_pos (by omega) hpos l
      have hne' : st.width ≠ 1 := by simpa using hne
      apply (loadUpper_ensures hsorted hinner hst (by omega)).mono
      rintro st' ⟨hlt, hst'⟩
      exact ⟨st'.width, hlt, rfl, l + 1, hst'⟩
    · intro heq
      exact ⟨by simpa using heq, l, hst⟩

end Levels

/-! ## bulk_load -/

section Loading

variable {p : Params} {t : Btree K D} {items : List (K × D)}

/-- What `bulk_load` leaves. -/
structure Btree.LoadCorrect (p : Params) (items : List (K × D)) (t : Btree K D) : Prop where
  /-- The tree is as `verify` asserts. -/
  sound : t.Sound p.toTraits
  /-- The entries are the items. -/
  entries_eq : t.entries = items
  /-- The number of leaves. -/
  leaves_eq : t.stats.leaves = parts items.length p.leafslotmax
  /-- Only an empty range leaves no root. -/
  root_eq : t.root = none → items = [] ∧ t.stats.innernodes = 0
  /-- The number of inner nodes. -/
  innernodes_eq : ∀ root ∈ t.root, t.stats.innernodes =
    narrowedSum (p.innerslotmax + 1) (parts items.length p.leafslotmax) root.level
  /-- There are several nodes on every level below the root. -/
  several : ∀ root ∈ t.root, ∀ k < root.level,
    2 ≤ narrowed (p.innerslotmax + 1) (parts items.length p.leafslotmax) k

omit [Inhabited K] [Inhabited D] in
/-- A sound tree without entries has no nodes. -/
theorem Btree.Sound.stats_of_empty (h : t.Sound p.toTraits) (hempty : t.empty = true) :
    t.stats = 0 := by
  have hcount := h.itemcount
  have hzero : t.stats.itemcount = 0 := by simpa [Btree.empty] using hempty
  rw [hzero] at hcount
  have hnil := List.eq_nil_of_length_eq_zero hcount.symm
  rw [Tree.entries] at hnil
  rw [h.stats_eq, Tree.counted]
  cases hroot : t.root with
  | none => rfl
  | some root =>
      rw [hroot] at hnil
      exact absurd hnil (h.verified root hroot).entries_ne_nil

omit [Inhabited K] [Inhabited D] in
/-- A root on level `l` over all items. -/
theorem Btree.LoadCorrect.of_root {root : Node K D} {l : Nat} {stats : TreeStats}
    (hv : VerifyNode p.toTraits l root) (hs : Shaped p.toTraits l root)
    (hentries : root.entries l = items) (hcounted : root.counted l = stats)
    (hstats : stats = ⟨items.length, parts items.length p.leafslotmax,
      narrowedSum (p.innerslotmax + 1) (parts items.length p.leafslotmax) l⟩)
    (hseveral : ∀ k < l,
      2 ≤ narrowed (p.innerslotmax + 1) (parts items.length p.leafslotmax) k) :
    Btree.LoadCorrect p items ⟨⟨some root⟩, stats⟩ := by
  have hlevel := hv.level_eq
  refine ⟨⟨?_, ?_, ?_⟩, ?_, ?_, ?_, ?_, ?_⟩
  · intro root' hroot'
    cases hroot'
    rwa [hlevel]
  · intro root' hroot'
    cases hroot'
    rwa [hlevel]
  · dsimp only [Tree.counted]
    rw [hlevel, hcounted]
  · dsimp only [Tree.entries]
    rw [hlevel, hentries]
  · rw [hstats]
  · intro hc
    cases hc
  · intro root' hroot'
    cases hroot'
    rw [hlevel, hstats]
  · intro root' hroot'
    cases hroot'
    rwa [hlevel]

theorem Btree.Sound.bulkLoad (h : t.Sound p.toTraits) (hempty : t.empty = true)
    (hleaf : 0 < p.leafslotmax) (hinner : 2 ≤ p.innerslotmax) (hsorted : Sorted items) :
    (t.bulkLoad p items).Ensures (Btree.LoadCorrect p items) := by
  rw [Btree.bulkLoad, h.stats_of_empty hempty]
  apply Ensures.assert_bind hempty
  apply (loadLeaves_ensures hsorted hleaf _).bind
  rintro st ⟨hrow, hlen, hstats⟩
  have hstats' : st.stats = ⟨items.length, parts items.length p.leafslotmax, 0⟩ := by
    rw [hstats]
    ext <;> simp
  by_cases hone : st.leaves.length ≤ 1
  · rw [if_pos hone]
    apply Ensures.pure
    rw [hlen] at hone
    cases hleaves : st.leaves with
    | nil =>
        rw [hleaves] at hlen hrow
        have hnil : items = [] := hrow.entries_eq.symm
        subst hnil
        refine ⟨⟨?_, ?_, ?_⟩, rfl, ?_, ?_, ?_, ?_⟩
        · intro root hroot
          cases hroot
        · intro root hroot
          cases hroot
        · rw [hstats', ← hlen]
          rfl
        · rw [hstats']
        · rw [hstats']
          exact fun _ => ⟨rfl, rfl⟩
        · intro root hroot
          cases hroot
        · intro root hroot
          cases hroot
    | cons leaf rest =>
        rw [hleaves, List.length_cons] at hlen
        have hrest : rest = [] := List.eq_nil_of_length_eq_zero (by omega)
        subst hrest
        rw [hleaves, List.map_singleton] at hrow
        have hmem : leaf.asNext ∈ [leaf.asNext] := List.mem_singleton_self _
        have hentries := hrow.entries_eq
        have hcount := hrow.counted_eq
        rw [List.map_singleton, entriesOf_cons, entriesOf_nil, List.append_nil] at hentries
        rw [List.map_singleton, countedOf_cons, countedOf_nil, add_zero] at hcount
        exact Btree.LoadCorrect.of_root (hrow.verified _ hmem) (hrow.shaped _ hmem) hentries
          (hcount.trans hstats'.symm) hstats' fun k hk => absurd hk (Nat.not_lt_zero k)
  · rw [if_neg hone]
    apply Ensures.assert_bind (by rw [hstats']; exact beq_self_eq_true _)
    rw [← hlen] at hrow
    apply (loadInners_ensures hrow hsorted hinner (by omega) st.stats).bind
    rintro ⟨root, stats⟩ ⟨l, hv, hs, hentries, hcounted, hnew, hseveral⟩
    rw [hlen] at hcounted hnew hseveral
    dsimp only at hv hs hentries hcounted hnew
    have hcorrect : Btree.LoadCorrect p items ⟨⟨some root⟩, stats⟩ := by
      apply Btree.LoadCorrect.of_root hv hs hentries _ _ hseveral
      · rw [hcounted, hnew, hstats']
      · rw [hnew, hstats']
        ext <;> simp
    have hverify : (if p.selfverify then
        (⟨⟨some root⟩, stats⟩ : Btree K D).verify p.toTraits else pure ⟨⟩).Returns ⟨⟩ := by
      split
      · exact returns_assert.mpr (decide_eq_true hcorrect.sound)
      · exact returns_pure.mpr rfl
    apply hverify.seq
    exact Ensures.pure hcorrect

end Loading

end BTree
