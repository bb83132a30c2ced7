import PrefetchBench.LIPP.Holds

/-!
# The keys of a segment

The loop over the keys of a segment takes a group of keys that are predicted to one position at a
time, and files it there.  The keys do not decrease and the predictions are monotone, so no later
key comes to the position of a group again.  After so many keys the node places exactly these, and
every child stands for a segment that holds its part (`Filed`).
-/

namespace LIPP

open Prog

variable {K V : Type} {n n' : Node K V} {data group : List (K × V)} {pos c : Nat} {key : K}
  {value : V}

/-! ## Setting an item -/

/-- The same node with other items. -/
def Node.Fills (n n' : Node K V) : Prop :=
  ∃ items noneBitmap childBitmap, n' = { n with
    items := items
    noneBitmap := noneBitmap
    childBitmap := childBitmap }

theorem Node.Fills.refl (n : Node K V) : n.Fills n := ⟨_, _, _, rfl⟩

theorem Node.Fills.trans {n'' : Node K V} (h : n.Fills n') (h' : n'.Fills n'') : n.Fills n'' := by
  obtain ⟨_, _, _, rfl⟩ := h
  obtain ⟨_, _, _, rfl⟩ := h'
  exact ⟨_, _, _, rfl⟩

/-- One item is set. -/
def Node.Sets (n : Node K V) (pos : Nat) (e : Entry K V) (n' : Node K V) : Prop :=
  n.Fills n' ∧ n'.entry pos = some e ∧ ∀ i, i ≠ pos → n'.entry i = n.entry i

theorem Node.setData_returns (h : (n.setData pos key value).Returns n')
    (hentry : n.entry pos = some .none) :
    n.Sets pos (.data key value) n' ∧ n'.childBitmap = n.childBitmap := by
  obtain ⟨hnone, hchild⟩ := Node.entry_none_iff.mp hentry
  obtain ⟨noneBitmap, hclear, h⟩ := returns_bind.mp h
  obtain ⟨items, hwrite, h⟩ := returns_bind.mp h
  cases returns_pure.mp h
  obtain ⟨_, hbits⟩ := (Bitmap.clear_ensures hnone).of_returns hclear
  obtain ⟨hlt, rfl⟩ := returns_write.mp hwrite
  refine ⟨⟨⟨_, _, _, rfl⟩, ?_, ?_⟩, rfl⟩
  · exact Node.entry_data_iff.mpr ⟨by rw [hbits, if_pos rfl], hchild, List.getElem?_set_self hlt⟩
  · intro i hi
    simp only [Node.entry, hbits, if_neg hi, List.getElem?_set_ne hi.symm]

theorem Node.setChild_returns (h : (n.setChild pos c).Returns n')
    (hentry : n.entry pos = some .none) : n.Sets pos (.child c) n' := by
  obtain ⟨hnone, hchild⟩ := Node.entry_none_iff.mp hentry
  obtain ⟨noneBitmap, hclear, h⟩ := returns_bind.mp h
  obtain ⟨childBitmap, hset, h⟩ := returns_bind.mp h
  obtain ⟨items, hwrite, h⟩ := returns_bind.mp h
  cases returns_pure.mp h
  obtain ⟨_, hbits⟩ := (Bitmap.clear_ensures hnone).of_returns hclear
  obtain ⟨_, hbits'⟩ := (Bitmap.set_ensures hchild).of_returns hset
  obtain ⟨hlt, rfl⟩ := returns_write.mp hwrite
  refine ⟨⟨_, _, _, rfl⟩, ?_, ?_⟩
  · exact Node.entry_child_iff.mpr
      ⟨by rw [hbits, if_pos rfl], by rw [hbits', if_pos rfl], List.getElem?_set_self hlt⟩
  · intro i hi
    simp only [Node.entry, hbits, hbits', if_neg hi, List.getElem?_set_ne hi.symm]

/-! ## Parts of groups -/

theorem Node.part_append (n : Node K V) (data group : List (K × V)) (pos : Nat) :
    n.part (data ++ group) pos = n.part data pos ++ n.part group pos := List.filter_append ..

theorem Node.part_self (h : ∀ item ∈ group, n.predictPos item.1 = pos) :
    n.part group pos = group := by
  rw [part, List.filter_eq_self]
  intro item hitem
  exact decide_eq_true (h item hitem)

theorem Node.part_other {i : Nat} (h : ∀ item ∈ group, n.predictPos item.1 = pos) (hi : i ≠ pos) :
    n.part group i = [] := by
  rw [part, List.filter_eq_nil_iff]
  intro item hitem
  rw [h item hitem, decide_eq_true_iff]
  exact hi.symm

/-- Data that is predicted below a position has no part there. -/
theorem Node.part_below (h : ∀ item ∈ data, n.predictPos item.1 < pos) : n.part data pos = [] := by
  rw [part, List.filter_eq_nil_iff]
  intro item hitem
  rw [decide_eq_true_iff]
  exact (h item hitem).ne

/-- An item that stands for a group. -/
inductive Entry.Stands : Entry K V → List (K × V) → Prop where
  /-- One key. -/
  | single (key : K) (value : V) : Entry.Stands (.data key value) [(key, value)]
  /-- More keys. -/
  | many {group : List (K × V)} (c : Nat) (h : 2 ≤ group.length) : Entry.Stands (.child c) group

/-- A group that is filed at a new position. -/
theorem Node.Places.file {e : Entry K V} (h : n.Places data) (hempty : n.part data pos = [])
    (hgroup : ∀ item ∈ group, n.predictPos item.1 = pos) (hset : n.Sets pos e n')
    (he : e.Stands group) : n'.Places (data ++ group) := by
  obtain ⟨⟨items, noneBitmap, childBitmap, rfl⟩, hself, hother⟩ := hset
  have hpart : n.part (data ++ group) pos = group := by
    rw [Node.part_append, hempty, Node.part_self hgroup, List.nil_append]
  have hrest : ∀ i, i ≠ pos → n.part (data ++ group) i = n.part data i := by
    intro i hi
    rw [Node.part_append, Node.part_other hgroup hi, List.append_nil]
  refine ⟨?_, ?_, ?_⟩
  · intro i hlt hi
    change n.part (data ++ group) i = [] at hi
    rcases eq_or_ne i pos with rfl | hne
    · rw [hpart] at hi
      subst hi
      cases he with
      | many c h => cases h
    · rw [hother i hne]
      exact h.empty i hlt (hrest i hne ▸ hi)
  · intro i k v hlt hi
    change n.part (data ++ group) i = [(k, v)] at hi
    rcases eq_or_ne i pos with rfl | hne
    · rw [hpart] at hi
      subst hi
      cases he with
      | single => exact hself
      | many c h => exact absurd h (by simp)
    · rw [hother i hne]
      exact h.single i k v hlt (hrest i hne ▸ hi)
  · intro i hlt hi
    change 2 ≤ (n.part (data ++ group) i).length at hi
    rcases eq_or_ne i pos with rfl | hne
    · rw [hpart] at hi
      cases he with
      | single => exact absurd hi (by simp)
      | many c h => exact ⟨c, hself⟩
    · rw [hother i hne]
      exact h.many i hlt (hrest i hne ▸ hi)

/-! ## Groups of keys -/

/-- The keys and values of a segment. -/
def Segment.slice (seg : Segment) (data : List (K × V)) : List (K × V) :=
  (data.drop seg.first).take (seg.last - seg.first)

theorem getElem?_segment {first size i : Nat} (hi : i < size) :
    ((data.drop first).take size)[i]? = data[first + i]? := by
  rw [List.getElem?_take_of_lt hi, List.getElem?_drop]

/-- A group ends before the first key with another prediction. -/
theorem groupEnd_returns {first size itemI offset : Nat} {r : Nat × Option Nat}
    (h : (groupEnd n data first size itemI offset).Returns r) (hlt : offset < size) :
    (offset < r.1 ∧ r.1 ≤ size ∧ ∀ i item, offset < i → i < r.1 →
      data[first + i]? = some item → n.predictPos item.1 = itemI) ∧
      (r.1 < size → ∃ item, data[first + r.1]? = some item ∧ n.predictPos item.1 ≠ itemI ∧
        r.2 = some (n.predictPos item.1)) := by
  rw [groupEnd] at h
  apply Returns.loop_inv (P := fun s : Nat × Option Nat => offset < s.1 ∧ s.1 ≤ size ∧
    ∀ i item, offset < i → i < s.1 → data[first + i]? = some item →
      n.predictPos item.1 = itemI) ?_ ?_ ?_ h
  · rintro ⟨next, nextI⟩ s' ⟨hgt, hle, hsame⟩ hbody
    dsimp only at hbody hgt hle hsame
    split at hbody
    · rename_i hnext
      obtain ⟨item, hitem, hbody⟩ := returns_bind.mp hbody
      split at hbody
      · rename_i heq
        cases returns_pure.mp hbody
        refine ⟨Nat.lt_succ_of_lt hgt, hnext, ?_⟩
        intro i item' hi hi' hitem'
        rcases Nat.lt_succ_iff_lt_or_eq.mp hi' with hi' | rfl
        · exact hsame i item' hi hi' hitem'
        · cases (returns_read.mp hitem).symm.trans hitem'
          exact heq
      · cases returns_pure.mp hbody
    · cases returns_pure.mp hbody
  · rintro ⟨next, nextI⟩ r ⟨hgt, hle, hsame⟩ hbody
    dsimp only at hbody hgt hle hsame
    split at hbody
    · obtain ⟨item, hitem, hbody⟩ := returns_bind.mp hbody
      split at hbody
      · cases returns_pure.mp hbody
      · rename_i hne
        cases returns_pure.mp hbody
        exact ⟨⟨hgt, hle, hsame⟩, fun _ => ⟨item, returns_read.mp hitem, hne, rfl⟩⟩
    · rename_i hnext
      cases returns_pure.mp hbody
      exact ⟨⟨hgt, hle, hsame⟩, fun hlt => absurd hlt hnext⟩
  · refine ⟨Nat.lt_succ_self offset, hlt, ?_⟩
    intro i item hi hi'
    omega

/-- So many keys of a segment are filed in its node, and `new` are the segments of its children. -/
structure Filed (data seg : List (K × V)) (n₀ : Node K V) (h₀ : Heap (Node K V))
    (s₀ : List Segment) (done : Nat) (s : Grouping K V) (new : List Segment) : Prop where
  /-- The node is the one of the segment. -/
  fills : n₀.Fills s.node
  /-- It places the keys. -/
  places : s.node.Places (seg.take done)
  /-- Memory was added for the children. -/
  heap : s.heap = h₀ ++ List.replicate new.length .raw
  /-- Their segments are on the stack. -/
  stack : s.stack = new ++ s₀
  /-- They are in the memory that was added. -/
  nodes : new.map Segment.node = (List.range' h₀.length new.length).reverse
  /-- They end within the keys. -/
  inside : ∀ child ∈ new, child.last ≤ data.length
  /-- Every child has its part of the keys. -/
  children : ∀ pos c, pos < s.node.numItems → s.node.entry pos = some (.child c) →
    ∃ child ∈ new, child.node = c ∧ child.slice data = s.node.part (seg.take done) pos

section Groups

variable {seg : List (K × V)} {n₀ : Node K V} {h₀ : Heap (Node K V)} {s₀ new : List Segment}
  {first size next : Nat} {s s' : Grouping K V}

/-- A group of keys with one prediction, which is above those of the keys before it. -/
structure IsGroup (n : Node K V) (seg : List (K × V)) (itemI offset next : Nat) : Prop where
  /-- It is not empty. -/
  lt : offset < next
  /-- It ends within the segment. -/
  le : next ≤ seg.length
  /-- The prediction of its keys. -/
  same : ∀ item ∈ (seg.drop offset).take (next - offset), n.predictPos item.1 = itemI
  /-- The keys before it. -/
  below : ∀ item ∈ seg.take offset, n.predictPos item.1 < itemI

theorem IsGroup.take_eq {itemI offset : Nat} (h : IsGroup n seg itemI offset next) :
    seg.take next = seg.take offset ++ (seg.drop offset).take (next - offset) := by
  have hlt := h.lt
  rw [← List.take_add, Nat.add_sub_of_le hlt.le]

theorem IsGroup.length_eq {itemI offset : Nat} (h : IsGroup n seg itemI offset next) :
    ((seg.drop offset).take (next - offset)).length = next - offset := by
  have hle := h.le
  rw [List.length_take, List.length_drop]
  omega

/-- The other positions keep their parts. -/
theorem IsGroup.part_eq {itemI offset : Nat} (h : IsGroup n seg itemI offset next)
    (hpos : pos ≠ itemI) : n.part (seg.take next) pos = n.part (seg.take offset) pos := by
  rw [h.take_eq, Node.part_append, Node.part_other h.same hpos, List.append_nil]

/-- The position of the group has it as its part. -/
theorem IsGroup.part_self {itemI offset : Nat} (h : IsGroup n seg itemI offset next) :
    n.part (seg.take next) itemI = (seg.drop offset).take (next - offset) := by
  rw [h.take_eq, Node.part_append, Node.part_below h.below, Node.part_self h.same,
    List.nil_append]

/-- After the item of a group is set, the node places the keys of the group too. -/
theorem Filed.places_next (hf : Filed data seg n₀ h₀ s₀ s.offset s new)
    (hg : IsGroup s.node seg s.itemI s.offset next) {e : Entry K V} {n' : Node K V}
    (hset : s.node.Sets s.itemI e n')
    (he : e.Stands ((seg.drop s.offset).take (next - s.offset))) : n'.Places (seg.take next) := by
  rw [hg.take_eq]
  exact hf.places.file (Node.part_below hg.below) hg.same hset he

/-- The children at the other positions stay as they are. -/
theorem Filed.children_next (hf : Filed data seg n₀ h₀ s₀ s.offset s new)
    (hg : IsGroup s.node seg s.itemI s.offset next) {e : Entry K V} {n' : Node K V}
    (hset : s.node.Sets s.itemI e n') {pos c : Nat} (hne : pos ≠ s.itemI)
    (hlt : pos < n'.numItems) (hentry : n'.entry pos = some (.child c)) :
    ∃ child ∈ new, child.node = c ∧ child.slice data = n'.part (seg.take next) pos := by
  obtain ⟨⟨items, noneBitmap, childBitmap, rfl⟩, _, hother⟩ := hset
  obtain ⟨child, hmem, hnode, hdata⟩ := hf.children pos c hlt (hother pos hne ▸ hentry)
  exact ⟨child, hmem, hnode, hdata.trans (hg.part_eq hne).symm⟩

/-- A key of its own is filed. -/
theorem Filed.fileKey (hf : Filed data seg n₀ h₀ s₀ s.offset s new)
    (hg : IsGroup s.node seg s.itemI s.offset next) (hone : next = s.offset + 1)
    {item : K × V} (hitem : seg[s.offset]? = some item) {n' : Node K V}
    (hset : s.node.Sets s.itemI (.data item.1 item.2) n') :
    Filed data seg n₀ h₀ s₀ next { s with node := n' } new := by
  have hgroup : (seg.drop s.offset).take (next - s.offset) = [item] := by
    obtain ⟨hin, hget⟩ := List.getElem?_eq_some_iff.mp hitem
    rw [hone, Nat.add_sub_cancel_left, List.drop_eq_getElem_cons hin, hget]
    rfl
  refine ⟨hf.fills.trans hset.1, hf.places_next hg hset ?_, hf.heap, hf.stack, hf.nodes,
    hf.inside, ?_⟩
  · rw [hgroup]
    exact .single item.1 item.2
  · intro pos c hlt hentry
    rcases eq_or_ne pos s.itemI with rfl | hne
    · cases hset.2.1.symm.trans hentry
    · exact hf.children_next hg hset hne hlt hentry

/-- A child for more keys is filed. -/
theorem Filed.fileChild (hf : Filed data seg n₀ h₀ s₀ s.offset s new)
    (hseg : seg = (data.drop first).take size) (hsize : first + size ≤ data.length)
    (hg : IsGroup s.node seg s.itemI s.offset next) (hmany : next ≠ s.offset + 1)
    {n' : Node K V} (hset : s.node.Sets s.itemI (.child s.heap.alloc.1) n') :
    Filed data seg n₀ h₀ s₀ next { s with
        node := n', heap := s.heap.alloc.2,
        stack := ⟨first + s.offset, first + next, s.heap.alloc.1⟩ :: s.stack }
      (⟨first + s.offset, first + next, s.heap.alloc.1⟩ :: new) := by
  have hlt := hg.lt
  have hle : next ≤ size := hg.le.trans (hseg ▸ List.length_take_le size _)
  have hfresh : s.heap.alloc.1 = h₀.length + new.length := by
    show s.heap.length = _
    rw [hf.heap, List.length_append, List.length_replicate]
  refine ⟨hf.fills.trans hset.1,
    hf.places_next hg hset (.many _ (by rw [hg.length_eq]; omega)), ?_, ?_, ?_, ?_, ?_⟩
  · show s.heap ++ [.raw] = _
    rw [hf.heap, List.append_assoc, List.length_cons, List.replicate_succ']
  · show _ :: s.stack = _
    rw [hf.stack]
    rfl
  · rw [List.map_cons, hf.nodes, hfresh, List.length_cons, List.range'_concat]
    simp
  · intro child hchild
    rcases List.mem_cons.mp hchild with rfl | hchild
    · show first + next ≤ data.length
      omega
    · exact hf.inside child hchild
  · intro pos c hlt' hentry
    rcases eq_or_ne pos s.itemI with rfl | hne
    · refine ⟨_, List.mem_cons_self .., ?_, ?_⟩
      · cases hset.2.1.symm.trans hentry
        rfl
      · obtain ⟨⟨items, noneBitmap, childBitmap, rfl⟩, _⟩ := hset
        refine Eq.trans ?_ hg.part_self.symm
        show (data.drop (first + s.offset)).take (first + next - (first + s.offset)) = _
        rw [hseg, List.drop_take, List.take_take, List.drop_drop]
        congr 1
        omega
    · obtain ⟨child, hmem, hchild⟩ := hf.children_next hg hset hne hlt' hentry
      exact ⟨child, List.mem_cons_of_mem _ hmem, hchild⟩

/-- A group is filed. -/
theorem Filed.fileGroup (hf : Filed data seg n₀ h₀ s₀ s.offset s new)
    (hseg : seg = (data.drop first).take size) (hsize : first + size ≤ data.length)
    (hpos : s.itemI < s.node.numItems) (hg : IsGroup s.node seg s.itemI s.offset next)
    (h : (fileGroup data first next s).Returns s') :
    ∃ new', Filed data seg n₀ h₀ s₀ next s' new' := by
  have hlen : seg.length = size := by
    rw [hseg, List.length_take, List.length_drop]
    omega
  have hlt := hg.lt
  have hle := hg.le
  have hnone : s.node.entry s.itemI = some .none :=
    hf.places.empty _ hpos (Node.part_below hg.below)
  rw [LIPP.fileGroup] at h
  split at h
  · rename_i hone
    obtain ⟨item, hitem, h⟩ := returns_bind.mp h
    obtain ⟨n', hn', h⟩ := returns_bind.mp h
    cases returns_pure.mp h
    have hget : seg[s.offset]? = some item := by
      rw [hseg, getElem?_segment (by omega)]
      exact returns_read.mp hitem
    exact ⟨new, hf.fileKey hg hone hget (Node.setData_returns hn' hnone).1⟩
  · rename_i hmany
    obtain ⟨n', hn', h⟩ := returns_bind.mp h
    cases returns_pure.mp h
    exact ⟨_, hf.fileChild hseg hsize hg hmany (Node.setChild_returns hn' hnone)⟩

/-- The start of a group: the keys before it are predicted below its first key. -/
structure AtGroup (seg : List (K × V)) (n₀ : Node K V) (s : Grouping K V) : Prop where
  /-- It starts in the segment. -/
  lt : s.offset < seg.length
  /-- The prediction of its first key. -/
  itemI : ∀ item, seg[s.offset]? = some item → n₀.predictPos item.1 = s.itemI
  /-- The predictions of the keys before it. -/
  below : ∀ item ∈ seg.take s.offset, n₀.predictPos item.1 < s.itemI

/-- The keys of a group have one prediction. -/
theorem AtGroup.isGroup (h : AtGroup seg n₀ s) (hfills : n₀.Fills s.node)
    (hseg : seg = (data.drop first).take size) {r : Nat × Option Nat}
    (hend : s.offset < r.1 ∧ r.1 ≤ size ∧ ∀ i item, s.offset < i → i < r.1 →
      data[first + i]? = some item → s.node.predictPos item.1 = s.itemI)
    (hle : r.1 ≤ seg.length) : IsGroup s.node seg s.itemI s.offset r.1 := by
  obtain ⟨items, noneBitmap, childBitmap, hnode⟩ := hfills
  obtain ⟨hgt, hsize, hsame⟩ := hend
  have hpredict : s.node.predictPos = n₀.predictPos := by rw [hnode]
  refine ⟨hgt, hle, ?_, ?_⟩
  · intro item hitem
    obtain ⟨j, hj⟩ := List.mem_iff_getElem?.mp hitem
    obtain ⟨hjlt, _⟩ := List.getElem?_eq_some_iff.mp hj
    rw [List.length_take, List.length_drop] at hjlt
    rw [List.getElem?_take_of_lt (by omega), List.getElem?_drop] at hj
    rcases Nat.eq_zero_or_pos j with rfl | hpos
    · rw [hpredict]
      exact h.itemI item hj
    · refine hsame (s.offset + j) item (by omega) (by omega) ?_
      rw [← hj, hseg, getElem?_segment (by omega)]
  · intro item hitem
    rw [hpredict]
    exact h.below item hitem

variable [LinearOrder K]

/-- After a group, the next one starts. -/
theorem AtGroup.advance (h : AtGroup seg n₀ s) (hmono : Monotone n₀.predictPos)
    (hsorted : seg.Pairwise fun x y => x.1 < y.1) {item : K × V} (hitem : seg[next]? = some item)
    (hne : n₀.predictPos item.1 ≠ s.itemI) (hg : IsGroup n₀ seg s.itemI s.offset next) :
    AtGroup seg n₀ { s' with itemI := n₀.predictPos item.1, offset := next } := by
  have hnext := (List.getElem?_eq_some_iff.mp hitem).1
  -- the key is above the ones of the group
  have hle : s.itemI ≤ n₀.predictPos item.1 := by
    have hfirst := List.getElem?_eq_getElem h.lt
    rw [← h.itemI _ hfirst]
    apply hmono
    obtain ⟨_, hget⟩ := List.getElem?_eq_some_iff.mp hitem
    have hlt := List.pairwise_iff_getElem.mp hsorted s.offset next h.lt hnext hg.lt
    rw [hget] at hlt
    exact hlt.le
  have hlt : s.itemI < n₀.predictPos item.1 := lt_of_le_of_ne hle hne.symm
  refine ⟨hnext, ?_, ?_⟩
  · intro item' hitem'
    cases hitem.symm.trans hitem'
    rfl
  · intro item' hitem'
    show n₀.predictPos item'.1 < n₀.predictPos item.1
    have hmem : item' ∈ seg.take next := hitem'
    rw [hg.take_eq] at hmem
    rcases List.mem_append.mp hmem with hmem | hmem
    · exact (h.below item' hmem).trans hlt
    · rw [hg.same item' hmem]
      exact hlt

/-- A turn files a group, and the segment ends there or the next group starts. -/
theorem Filed.turn (hseg : seg = (data.drop first).take size)
    (hsize : first + size ≤ data.length) (hmono : Monotone n₀.predictPos)
    (hsorted : seg.Pairwise fun x y => x.1 < y.1) (hs : AtGroup seg n₀ s)
    (hf : Filed data seg n₀ h₀ s₀ s.offset s new) {r : Grouping K V ⊕ Grouping K V}
    (h : (groupBody data first size s).Returns r) :
    (∃ s', r = .inr s' ∧ ∃ new, Filed data seg n₀ h₀ s₀ size s' new) ∨
      ∃ s', r = .inl s' ∧ AtGroup seg n₀ s' ∧ ∃ new, Filed data seg n₀ h₀ s₀ s'.offset s' new := by
  have hlen : seg.length = size := by
    rw [hseg, List.length_take, List.length_drop]
    omega
  have hlt := hs.lt
  rw [groupBody, if_pos (hlen ▸ hlt)] at h
  obtain ⟨e, hend, h⟩ := returns_bind.mp h
  obtain ⟨s', hfile, h⟩ := returns_bind.mp h
  obtain ⟨hgroup, hstop⟩ := groupEnd_returns hend (hlen ▸ hlt)
  have hg := hs.isGroup hf.fills hseg hgroup (hlen ▸ hgroup.2.1)
  obtain ⟨items, noneBitmap, childBitmap, hnode⟩ := hf.fills
  have hpredict : s.node.predictPos = n₀.predictPos := by rw [hnode]
  have hpos : s.itemI < s.node.numItems := by
    rw [← hs.itemI _ (List.getElem?_eq_getElem hlt), ← hpredict]
    exact s.node.predictPos_lt _
  obtain ⟨new', hf'⟩ := hf.fileGroup hseg hsize hpos hg hfile
  split at h
  · rename_i hfull
    cases returns_pure.mp h
    refine Or.inl ⟨s', rfl, new', ?_⟩
    have heq : e.1 = size := Nat.le_antisymm hgroup.2.1 hfull
    rwa [heq] at hf'
  · rename_i hmore
    obtain ⟨itemI, hitemI, h⟩ := returns_bind.mp h
    cases returns_pure.mp h
    obtain ⟨item, hitem, hne, hsome⟩ := hstop (not_le.mp hmore)
    cases hsome.symm.trans (returns_ofOption.mp hitemI)
    rw [hpredict] at hne ⊢
    refine Or.inr ⟨_, rfl, ?_, new', ?_⟩
    · refine hs.advance hmono hsorted ?_ hne ⟨hg.lt, hg.le, ?_, ?_⟩
      · rw [hseg, getElem?_segment (not_le.mp hmore)]
        exact hitem
      · exact hpredict ▸ hg.same
      · exact hpredict ▸ hg.below
    · exact ⟨hf'.fills, hf'.places, hf'.heap, hf'.stack, hf'.nodes, hf'.inside, hf'.children⟩

/-- The loop files all keys of the segment. -/
theorem groupLoop_returns (hseg : seg = (data.drop first).take size)
    (hsize : first + size ≤ data.length) (hmono : Monotone n₀.predictPos)
    (hsorted : seg.Pairwise fun x y => x.1 < y.1) (hs : AtGroup seg n₀ s)
    (hf : Filed data seg n₀ h₀ s₀ s.offset s new)
    (h : (loop (groupBody data first size) s).Returns s') :
    ∃ new', Filed data seg n₀ h₀ s₀ size s' new' := by
  apply Returns.loop_inv (P := fun s => AtGroup seg n₀ s ∧
    ∃ new, Filed data seg n₀ h₀ s₀ s.offset s new) ?_ ?_ ⟨hs, new, hf⟩ h
  · rintro s s' ⟨hs, new, hf⟩ hbody
    rcases hf.turn hseg hsize hmono hsorted hs hbody with ⟨s', heq, _⟩ | ⟨s', heq, hs', hf'⟩
    · cases heq
    · cases heq
      exact ⟨hs', hf'⟩
  · rintro s s' ⟨hs, new, hf⟩ hbody
    rcases hf.turn hseg hsize hmono hsorted hs hbody with ⟨s', heq, hf'⟩ | ⟨s', heq, _⟩
    · cases heq
      exact hf'
    · cases heq

end Groups

end LIPP
