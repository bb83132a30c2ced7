import PrefetchBench.LIPP.Grouping
import PrefetchBench.LIPP.Owned
import PrefetchBench.Prog.Iterations

/-!
# Bulk builds

A bulk build takes the segments from a stack, and puts the segments of the children there.  A
segment of two keys is copied from a two-key node, which may come from the pool; a larger one has
a node of its own.  The memory of a segment that is on the stack is raw, and it stays so until its
turn (`SegmentBuilt`).

What is built for a segment stays as it is.  So, going back from the end of the build, every
segment on the stack becomes a tree that holds its keys (`buildTreeBulk_returns`).
-/

namespace LIPP

open Prog

variable {K V : Type} {n n' : Node K V} {data : List (K × V)} {roots : List Nat}
  {st st' : Store K V}

/-! ## Nodes without keys -/

theorem Node.places_nil (h : ∀ pos, pos < n.numItems → n.entry pos = some .none) :
    n.Places [] where
  empty pos hpos _ := h pos hpos
  single pos key value _ hp := by cases hp
  many pos _ hp := by cases hp

theorem segmentNode_places {size numItems : Nat} {model : K → Fin numItems} :
    (segmentNode size numItems model : Node K V).Places [] := by
  apply Node.places_nil
  intro pos hpos
  exact Node.entry_none_iff.mpr ⟨Bitmap.bit_ones hpos, Bitmap.bit_zeros hpos⟩

/-! ## What is kept -/

/-- Everything outside of the pool is kept, and the pool does not grow. -/
structure Store.Keeps (st st' : Store K V) : Prop where
  /-- Nodes are only taken out of the pool. -/
  pending : st'.pendingTwo ⊆ st.pendingTwo
  /-- The other cells. -/
  cells : ∀ q cell, q ∉ st.pendingTwo → st.heap[q]? = some cell → st'.heap[q]? = some cell

theorem Owned.raw_not_pending (h : Owned st.heap roots st.pendingTwo) {q : Nat}
    (hq : st.heap[q]? = some .raw) : q ∉ st.pendingTwo := by
  intro hmem
  obtain ⟨n, hn, _⟩ := h.clear q hmem
  cases (Heap.content_of_raw hq).symm.trans hn

theorem allocated_of_raw {heap : Heap (Node K V)} {q : Nat} (hq : heap[q]? = some .raw) :
    heap.allocated q = true := by
  rw [Heap.allocated, hq]
  rfl

/-! ## Nodes for two keys -/

theorem twoNode_recycled : (twoNode : Node K V).Recycled where
  isTwo := rfl
  size := rfl
  numItems := rfl
  clear pos hpos := by
    refine Node.entry_none_iff.mpr ⟨?_, ?_⟩
    · show Bitmap.bit (List.replicate (Bitmap.bytes 8) 0xff#8) pos = some true
      exact Bitmap.bit_ones hpos
    · show Bitmap.bit (List.replicate (Bitmap.bytes 8) 0#8) pos = some false
      exact Bitmap.bit_zeros hpos

/-- A recycled node is taken from the pool, or a fresh one is allocated. -/
theorem takeTwo_returns {r : Nat × Node K V × Store K V} (h : (takeTwo st).Returns r)
    (ho : Owned st.heap roots st.pendingTwo) :
    Owned r.2.2.heap (r.1 :: roots) r.2.2.pendingTwo ∧ r.2.1.Recycled ∧ st.Keeps r.2.2 ∧
      (r.1 ∈ st.pendingTwo ∨ r.1 = st.heap.length) ∧ r.2.2.heap.allocated r.1 = true := by
  obtain ⟨heap, pending⟩ := st
  cases pending with
  | nil =>
      cases returns_pure.mp h
      refine ⟨ho.alloc, twoNode_recycled, ⟨fun _ hq => hq, ?_⟩, Or.inr rfl,
        Heap.allocated_alloc⟩
      intro q cell _ hq
      exact (List.getElem?_append_left (List.getElem?_eq_some_iff.mp hq).1).trans hq
  | cons p rest =>
      obtain ⟨n, hn, h⟩ := returns_bind.mp h
      cases returns_pure.mp h
      have hn := Heap.returns_get.mp hn
      obtain ⟨n', hn', hclear⟩ := ho.clear p (List.mem_cons_self ..)
      cases hn.symm.trans hn'
      exact ⟨ho.pop, hclear, ⟨List.subset_cons_self .., fun _ _ _ hq => hq⟩,
        Or.inl (List.mem_cons_self ..), Heap.allocated_of_content hn⟩

/-- A key is placed where nothing was. -/
theorem Node.place_returns {key : K} {value : V} (h : (n.place key value).Returns n')
    (hp : n.Places data) :
    n'.Places (data ++ [(key, value)]) ∧ n.Fills n' ∧ n'.childBitmap = n.childBitmap := by
  have hpos := n.predictPos_lt key
  obtain ⟨b, hb, h⟩ := returns_bind.mp h
  obtain ⟨hnone, h⟩ := returns_assert_bind.mp h
  have hbit := Bitmap.returns_get.mp hb
  rw [hnone] at hbit
  have hempty : n.part data (n.predictPos key) = [] := by
    rcases n.part_cases data (n.predictPos key) with hpart | ⟨k, v, hpart⟩ | hpart
    · exact hpart
    · cases hbit.symm.trans (Node.entry_data_iff.mp (hp.single _ k v hpos hpart)).1
    · obtain ⟨c, hc⟩ := hp.many _ hpos hpart
      cases hbit.symm.trans (Node.entry_child_iff.mp hc).1
  obtain ⟨hset, hchild⟩ := Node.setData_returns h (hp.empty _ hpos hempty)
  refine ⟨hp.file hempty ?_ hset (.single key value), hset.1, hchild⟩
  intro item hitem
  rw [List.mem_singleton.mp hitem]

/-- A two-key node that was built. -/
structure TwoBuilt (roots : List Nat) (data : List (K × V)) (st : Store K V) (p : Nat)
    (st' : Store K V) : Prop where
  /-- It is a root. -/
  owned : Owned st'.heap (p :: roots) st'.pendingTwo
  /-- The rest is kept. -/
  keeps : st.Keeps st'
  /-- It was in the pool, or is new. -/
  fresh : p ∈ st.pendingTwo ∨ p = st.heap.length
  /-- It has the data, and no children. -/
  node : ∃ n, st'.heap.content p = some n ∧ n.size = data.length ∧ n.Places data ∧
    ∀ pos c, ¬ n.Points pos c

theorem TwoBuilt.ne_of_raw {p q : Nat} (h : TwoBuilt roots data st p st')
    (ho : Owned st.heap roots st.pendingTwo) (hq : st.heap[q]? = some .raw) : p ≠ q := by
  rintro rfl
  rcases h.fresh with hmem | rfl
  · exact ho.raw_not_pending hq hmem
  · exact absurd (List.getElem?_eq_some_iff.mp hq).1 (Nat.lt_irrefl _)

section Two

variable [LinearOrder K] {t : Training K}

theorem buildTreeTwoInOrder_returns {key1 key2 : K} {value1 value2 : V} {r : Nat × Store K V}
    (h : (buildTreeTwoInOrder t key1 value1 key2 value2 st).Returns r)
    (ho : Owned st.heap roots st.pendingTwo) :
    TwoBuilt roots [(key1, value1), (key2, value2)] st r.1 r.2 := by
  obtain ⟨_, h⟩ := returns_assert_bind.mp h
  obtain ⟨taken, htake, h⟩ := returns_bind.mp h
  obtain ⟨model, _, h⟩ := returns_bind.mp h
  obtain ⟨n1, hn1, h⟩ := returns_bind.mp h
  obtain ⟨n2, hn2, h⟩ := returns_bind.mp h
  obtain ⟨heap, hheap, h⟩ := returns_bind.mp h
  cases returns_pure.mp h
  obtain ⟨howned, hclear, hkeeps, hfresh, halloc⟩ := takeTwo_returns htake ho
  obtain ⟨_, rfl⟩ := Heap.returns_put.mp hheap
  have hplaces : (taken.2.1.withModel model).Places ([] : List (K × V)) :=
    Node.places_nil hclear.clear
  obtain ⟨hplaces1, hfills1, hchild1⟩ := Node.place_returns hn1 hplaces
  obtain ⟨hplaces2, hfills2, hchild2⟩ := Node.place_returns hn2 hplaces1
  obtain ⟨items, noneBitmap, childBitmap, hfilled⟩ := hfills1.trans hfills2
  have hleaf : ∀ pos c, ¬ n2.Points pos c := by
    rintro pos c ⟨hpos, hbit, _⟩
    rw [hchild2, hchild1] at hbit
    rw [hfilled] at hpos
    cases hbit.symm.trans (Node.entry_none_iff.mp (hclear.clear pos hpos)).2
  have hp : taken.1 ∉ taken.2.2.pendingTwo := by
    intro hmem
    exact (List.nodup_cons.mp howned.nodup).1 (List.mem_append_right _ hmem)
  refine ⟨howned.set_leaf halloc hp hleaf, ⟨hkeeps.pending, ?_⟩, hfresh, n2, ?_, ?_, hplaces2,
    hleaf⟩
  · intro q cell hq hcell
    have hne : taken.1 ≠ q := by
      rintro rfl
      rcases hfresh with hmem | heq
      · exact hq hmem
      · rw [heq] at hcell
        exact absurd (List.getElem?_eq_some_iff.mp hcell).1 (Nat.lt_irrefl _)
    show (taken.2.2.heap.set taken.1 (.object n2))[q]? = some cell
    rw [List.getElem?_set_ne hne]
    exact hkeeps.cells q cell hq hcell
  · exact Heap.content_set_self (Heap.allocated_lt halloc)
  · rw [hfilled]
    exact hclear.size

/-- The keys are put in order. -/
theorem buildTreeTwo_returns {key1 key2 : K} {value1 value2 : V} {r : Nat × Store K V}
    (h : (buildTreeTwo t key1 value1 key2 value2 st).Returns r)
    (ho : Owned st.heap roots st.pendingTwo) :
    ∃ data, TwoBuilt roots data st r.1 r.2 ∧
      (key1 < key2 → data = [(key1, value1), (key2, value2)]) := by
  rw [buildTreeTwo] at h
  split at h
  · rename_i hlt
    exact ⟨_, buildTreeTwoInOrder_returns h ho, fun hgt => absurd hlt hgt.not_gt⟩
  · exact ⟨_, buildTreeTwoInOrder_returns h ho, fun _ => rfl⟩

end Two

/-! ## Segments -/

/-- A segment that was built: `new` are the segments of its children. -/
structure SegmentBuilt (roots : List Nat) (data : List (K × V)) (seg : Segment) (st st' : Store K V)
    (new : List Segment) : Prop where
  /-- Every node is owned. -/
  owned : Owned st'.heap roots st'.pendingTwo
  /-- Nodes are only taken out of the pool. -/
  pending : st'.pendingTwo ⊆ st.pendingTwo
  /-- The other cells are kept. -/
  cells : ∀ q cell, q ∉ st.pendingTwo → q ≠ seg.node → st.heap[q]? = some cell →
    st'.heap[q]? = some cell
  /-- The node of the segment. -/
  node : ∃ n, st'.heap.content seg.node = some n ∧ n.size = (seg.slice data).length ∧
    n.Places (seg.slice data) ∧ ∀ pos c, pos < n.numItems → n.entry pos = some (.child c) →
      ∃ child ∈ new, child.node = c ∧ child.slice data = n.part (seg.slice data) pos
  /-- The memory of the children is new. -/
  fresh : ∀ child ∈ new, st.heap.length ≤ child.node ∧ st'.heap[child.node]? = some .raw
  /-- It is different for each of them. -/
  nodup : (new.map Segment.node).Nodup
  /-- They end within the keys. -/
  inside : ∀ child ∈ new, child.last ≤ data.length

section Segments

variable {seg : Segment}

/-- The children of a node that places its keys. -/
theorem Node.Places.entry_child {pos c : Nat} (h : n.Places data) (hpoints : n.Points pos c) :
    n.entry pos = some (.child c) := by
  obtain ⟨hpos, hbit, hitem⟩ := hpoints
  obtain ⟨e, he⟩ := Option.isSome_iff_exists.mp (h.entry_isSome hpos)
  cases e with
  | none => cases hbit.symm.trans (Node.entry_none_iff.mp he).2
  | data key value => cases hbit.symm.trans (Node.entry_data_iff.mp he).2.1
  | child c' =>
      cases hitem.symm.trans (Node.entry_child_iff.mp he).2.2
      exact he

/-- The loop over the keys starts with a node that has none. -/
theorem filed_start {size numItems : Nat} {model : K → Fin numItems} {keys : List (K × V)}
    {heap : Heap (Node K V)} {stack : List Segment} {itemI : Nat} :
    Filed data keys (segmentNode size numItems model) heap stack 0
      ⟨itemI, 0, segmentNode size numItems model, heap, stack⟩ [] where
  fills := Node.Fills.refl _
  places := segmentNode_places
  heap := (List.append_nil _).symm
  stack := rfl
  nodes := rfl
  inside := by simp
  children pos c hpos hentry := by
    cases (segmentNode_places.empty pos hpos rfl).symm.trans hentry

section Built

variable {size : Nat} {n₀ : Node K V} {s : Grouping K V} {new stack : List Segment}

/-- The memory of the children is the memory that was added. -/
theorem Filed.node_range {seg₀ : List (K × V)} {done : Nat}
    (hf : Filed data seg₀ n₀ st.heap stack done s new) {child : Segment} (hchild : child ∈ new) :
    st.heap.length ≤ child.node ∧ child.node < st.heap.length + new.length := by
  have hmem := List.mem_map_of_mem (f := Segment.node) hchild
  rw [hf.nodes, List.mem_reverse, List.mem_range'_1] at hmem
  exact hmem

theorem Filed.nodup {seg₀ : List (K × V)} {done : Nat}
    (hf : Filed data seg₀ n₀ st.heap stack done s new) : (new.map Segment.node).Nodup := by
  rw [hf.nodes, List.nodup_reverse]
  exact List.nodup_range'

/-- Two positions do not point to one child: it has one segment, and its keys have one
prediction. -/
theorem Filed.points_inj (hf : Filed data (seg.slice data) n₀ st.heap stack size s new)
    (hplaces : s.node.Places (seg.slice data))
    (hpoints : ∀ pos c, s.node.Points pos c → ∃ child ∈ new, child.node = c ∧
      child.slice data = s.node.part (seg.slice data) pos) {pos pos' c : Nat}
    (hp : s.node.Points pos c) (hp' : s.node.Points pos' c) : pos = pos' := by
  obtain ⟨child, hchild, hnode, hdata⟩ := hpoints pos c hp
  obtain ⟨child', hchild', hnode', hdata'⟩ := hpoints pos' c hp'
  obtain rfl := List.inj_on_of_nodup_map hf.nodup hchild hchild' (hnode.trans hnode'.symm)
  have hpart : 2 ≤ (s.node.part (seg.slice data) pos).length := by
    rcases s.node.part_cases (seg.slice data) pos with h | ⟨k, v, h⟩ | h
    · cases (hplaces.empty pos hp.1 h).symm.trans (hplaces.entry_child hp)
    · cases (hplaces.single pos k v hp.1 h).symm.trans (hplaces.entry_child hp)
    · exact h
  obtain ⟨item, hitem⟩ := List.exists_mem_of_length_pos (Nat.zero_lt_of_lt hpart)
  have hitem' := hitem
  rw [← hdata, hdata'] at hitem'
  exact (Node.mem_part.mp hitem).2.symm.trans (Node.mem_part.mp hitem').2

/-- The node is put into its cell. -/
theorem Filed.owned (hf : Filed data (seg.slice data) n₀ st.heap stack size s new)
    (hplaces : s.node.Places (seg.slice data))
    (hpoints : ∀ pos c, s.node.Points pos c → ∃ child ∈ new, child.node = c ∧
      child.slice data = s.node.part (seg.slice data) pos)
    (ho : Owned st.heap roots st.pendingTwo) (hraw : st.heap[seg.node]? = some .raw)
    (hcell : s.heap[seg.node]? = some .raw) :
    Owned (s.heap.set seg.node (.object s.node)) roots st.pendingTwo := by
  have happend := ho.append_raw new.length
  rw [← hf.heap] at happend
  refine happend.set (allocated_of_raw hcell) (ho.raw_not_pending hraw) ?_
    fun pos pos' c => hf.points_inj hplaces hpoints
  intro pos c hp
  obtain ⟨child, hchild, rfl, _⟩ := hpoints pos c hp
  obtain ⟨hge, hlt'⟩ := hf.node_range hchild
  refine ⟨?_, ?_, ?_⟩
  · rw [hf.heap, List.length_append, List.length_replicate]
    exact hlt'
  · intro hmem
    rcases List.mem_append.mp hmem with hmem | hmem
    · exact absurd (ho.inside _ hmem) hge.not_gt
    · exact absurd (ho.pending_lt hmem) hge.not_gt
  · intro q pos' he
    rw [hf.heap] at he
    exact absurd (ho.target (edge_append_raw.mp he)) hge.not_gt

/-- What the loop over the keys leaves is a node whose children are new. -/
theorem Filed.built (hf : Filed data (seg.slice data) n₀ st.heap stack size s new)
    (hsize : (seg.slice data).length = size) (hn : n₀.size = size)
    (ho : Owned st.heap roots st.pendingTwo) (hraw : st.heap[seg.node]? = some .raw) :
    SegmentBuilt roots data seg st { st with heap := s.heap.set seg.node (.object s.node) }
      new := by
  have hlt := (List.getElem?_eq_some_iff.mp hraw).1
  have hfull : (seg.slice data).take size = seg.slice data := by rw [← hsize, List.take_length]
  have hplaces := hf.places
  have hchildren := hf.children
  rw [hfull] at hplaces hchildren
  have hpoints : ∀ pos c, s.node.Points pos c → ∃ child ∈ new, child.node = c ∧
      child.slice data = s.node.part (seg.slice data) pos := by
    intro pos c hp
    exact hchildren pos c hp.1 (hplaces.entry_child hp)
  have hcell : s.heap[seg.node]? = some .raw := by
    rw [hf.heap, List.getElem?_append_left hlt]
    exact hraw
  obtain ⟨items, noneBitmap, childBitmap, hnode⟩ := hf.fills
  refine ⟨hf.owned hplaces hpoints ho hraw hcell, List.Subset.refl _, ?_,
    ⟨s.node, ?_, ?_, hplaces, hchildren⟩, ?_, hf.nodup, hf.inside⟩
  · intro q cell _ hq hcell'
    show (s.heap.set seg.node (.object s.node))[q]? = some cell
    rw [List.getElem?_set_ne hq.symm, hf.heap,
      List.getElem?_append_left (List.getElem?_eq_some_iff.mp hcell').1]
    exact hcell'
  · exact Heap.content_set_self (List.getElem?_eq_some_iff.mp hcell).1
  · rw [hnode, hsize]
    exact hn
  · intro child hchild
    obtain ⟨hge, hlt'⟩ := hf.node_range hchild
    refine ⟨hge, ?_⟩
    show (s.heap.set seg.node (.object s.node))[child.node]? = some .raw
    rw [List.getElem?_set_ne (by omega), hf.heap, List.getElem?_append_right hge,
      List.getElem?_replicate, if_pos (by omega)]

end Built

/-- The segments on the stack wait for their turn. -/
structure Waiting (roots : List Nat) (data : List (K × V)) (s : Store K V × List Segment) :
    Prop where
  /-- Every node is owned. -/
  owned : Owned s.1.heap roots s.1.pendingTwo
  /-- Their memory is raw. -/
  raw : ∀ seg ∈ s.2, s.1.heap[seg.node]? = some .raw
  /-- It is different for each of them. -/
  nodup : (s.2.map Segment.node).Nodup
  /-- They end within the keys. -/
  inside : ∀ seg ∈ s.2, seg.last ≤ data.length

/-- The other segments, and the ones of the children, still wait. -/
theorem Waiting.next {stack new : List Segment} {s : Store K V × List Segment}
    (hw : Waiting roots data (st, seg :: stack)) (hb : SegmentBuilt roots data seg st s.1 new)
    (hs : s.2 = new ++ stack) : Waiting roots data s := by
  have hnodup := List.nodup_cons.mp hw.nodup
  have hrest : ∀ other ∈ stack, st.heap[other.node]? = some .raw := fun other hother =>
    hw.raw other (List.mem_cons_of_mem seg hother)
  refine ⟨hb.owned, ?_, ?_, ?_⟩
  · intro other hother
    rw [hs] at hother
    rcases List.mem_append.mp hother with hother | hother
    · exact (hb.fresh other hother).2
    · refine hb.cells _ _ (hw.owned.raw_not_pending (hrest other hother)) ?_ (hrest other hother)
      intro heq
      exact hnodup.1 (heq ▸ List.mem_map_of_mem hother)
  · rw [hs, List.map_append]
    refine List.nodup_append.mpr ⟨hb.nodup, hnodup.2, ?_⟩
    rintro q hq q' hq' rfl
    obtain ⟨child, hchild, rfl⟩ := List.mem_map.mp hq
    obtain ⟨other, hother, heq⟩ := List.mem_map.mp hq'
    have hlt := (List.getElem?_eq_some_iff.mp (hrest other hother)).1
    have hge := (hb.fresh child hchild).1
    omega
  · intro other hother
    rw [hs] at hother
    rcases List.mem_append.mp hother with hother | hother
    · exact hb.inside other hother
    · exact hw.inside other (List.mem_cons_of_mem seg hother)

/-- What a build makes of the segments on its stack. -/
structure StackBuilt (roots : List Nat) (data : List (K × V)) (s s' : Store K V × List Segment) :
    Prop where
  /-- Every node is owned. -/
  owned : Owned s'.1.heap roots s'.1.pendingTwo
  /-- Every segment becomes a tree with its keys. -/
  holds : ∀ seg ∈ s.2, Holds s'.1.heap seg.node (seg.slice data)
  /-- Nodes that are not in the pool stay as they are. -/
  keeps : ∀ q n, q ∉ s.1.pendingTwo → s.1.heap.content q = some n →
    s'.1.heap.content q = some n

/-- Going back over a turn: the node that was built gets the trees of its children. -/
theorem StackBuilt.back {stack new : List Segment} {s s' : Store K V × List Segment}
    (hw : Waiting roots data (st, seg :: stack)) (hb : SegmentBuilt roots data seg st s.1 new)
    (hs : s.2 = new ++ stack) (h : StackBuilt roots data s s') :
    StackBuilt roots data (st, seg :: stack) s' := by
  have hraw := hw.raw seg (List.mem_cons_self ..)
  refine ⟨h.owned, ?_, ?_⟩
  · intro other hother
    rcases List.mem_cons.mp hother with rfl | hother
    · obtain ⟨n, hcontent, hsize, hplaces, hchildren⟩ := hb.node
      have hpending : other.node ∉ s.1.pendingTwo := fun hmem =>
        hw.owned.raw_not_pending hraw (hb.pending hmem)
      refine .node (hw.owned.ne_zero (allocated_of_raw hraw)) (h.keeps _ n hpending hcontent) hsize
        hplaces ?_
      intro pos c hpos hentry
      obtain ⟨child, hchild, rfl, hslice⟩ := hchildren pos c hpos hentry
      rw [← hslice]
      exact h.holds child (by rw [hs]; exact List.mem_append_left _ hchild)
    · exact h.holds other (by rw [hs]; exact List.mem_append_right _ hother)
  · intro q n hq hcontent
    refine h.keeps q n (fun hmem => hq (hb.pending hmem)) ?_
    have hcell : st.heap[q]? = some (.object n) := by
      obtain ⟨cell, hcell, hn⟩ := Option.bind_eq_some_iff.mp hcontent
      cases cell with
      | free => cases hn
      | raw => cases hn
      | object m =>
          cases hn
          exact hcell
    have hne : q ≠ seg.node := by
      rintro rfl
      cases hraw.symm.trans hcell
    rw [Heap.content, hb.cells q _ hq hne hcell]
    rfl

variable [LinearOrder K] {t : Training K}

theorem slice_sorted (hsorted : data.Pairwise fun x y => x.1 < y.1) (seg : Segment) :
    (seg.slice data).Pairwise fun x y => x.1 < y.1 :=
  hsorted.sublist ((List.take_sublist _ _).trans (List.drop_sublist _ _))

/-- The first two keys. -/
theorem take_two {item1 item2 : K × V} (hsorted : data.Pairwise fun x y => x.1 < y.1)
    (h1 : data[0]? = some item1) (h2 : data[1]? = some item2) :
    item1.1 < item2.1 ∧ data.take 2 = [item1, item2] := by
  cases data with
  | nil => cases h1
  | cons first rest =>
      cases rest with
      | nil => cases h2
      | cons second rest =>
          cases h1
          cases h2
          exact ⟨(List.pairwise_cons.mp hsorted).1 _ (List.mem_cons_self ..), rfl⟩

/-- A segment of two keys. -/
theorem buildTwo_returns (hsorted : data.Pairwise fun x y => x.1 < y.1)
    (h : (buildTwo t data seg st).Returns st') (ho : Owned st.heap roots st.pendingTwo)
    (hraw : st.heap[seg.node]? = some .raw) (htwo : seg.last - seg.first = 2) :
    SegmentBuilt roots data seg st st' [] := by
  obtain ⟨item1, hitem1, h⟩ := returns_bind.mp h
  obtain ⟨item2, hitem2, h⟩ := returns_bind.mp h
  obtain ⟨r, hr, h⟩ := returns_bind.mp h
  obtain ⟨n, hn, h⟩ := returns_bind.mp h
  obtain ⟨heap1, hput, h⟩ := returns_bind.mp h
  obtain ⟨heap2, hrelease, h⟩ := returns_bind.mp h
  cases returns_pure.mp h
  obtain ⟨hlt, htake⟩ := take_two (hsorted.sublist (List.drop_sublist seg.first data))
    (List.getElem?_drop.trans (returns_read.mp hitem1))
    (List.getElem?_drop.trans (returns_read.mp hitem2))
  have hslice : seg.slice data = [(item1.1, item1.2), (item2.1, item2.2)] := by
    rw [Segment.slice, htwo]
    exact htake
  obtain ⟨d, hbuilt, hd⟩ := buildTreeTwo_returns hr ho
  obtain rfl := hd hlt
  have hne := hbuilt.ne_of_raw ho hraw
  obtain ⟨n', hn', hsize, hplaces, hleaf⟩ := hbuilt.node
  cases (Heap.returns_get.mp hn).symm.trans hn'
  obtain ⟨halloc, rfl⟩ := Heap.returns_put.mp hput
  obtain ⟨_, rfl⟩ := Heap.returns_release.mp hrelease
  have hpending : seg.node ∉ r.2.pendingTwo := fun hmem =>
    ho.raw_not_pending hraw (hbuilt.keeps.pending hmem)
  have hlen := Heap.allocated_lt halloc
  -- the copy is written, and the original is given back
  have hcopied := hbuilt.owned.set_leaf halloc hpending hleaf
  have hcontent : Heap.content (r.2.heap.set seg.node (.object n)) r.1 = some n := by
    rw [Heap.content_set_ne hne.symm]
    exact hn'
  have hreleased := hcopied.release hcontent
  refine ⟨hreleased, hbuilt.keeps.pending, ?_, ⟨n, ?_, ?_, ?_, ?_⟩, by simp, by simp, by simp⟩
  · intro q cell hq hqne hcell
    have hqp : r.1 ≠ q := by
      rintro rfl
      rcases hbuilt.fresh with hmem | heq
      · exact hq hmem
      · rw [heq] at hcell
        exact absurd (List.getElem?_eq_some_iff.mp hcell).1 (Nat.lt_irrefl _)
    show ((r.2.heap.set seg.node (.object n)).set r.1 .free)[q]? = some cell
    rw [List.getElem?_set_ne hqp, List.getElem?_set_ne hqne.symm]
    exact hbuilt.keeps.cells q cell hq hcell
  · show Heap.content ((r.2.heap.set seg.node (.object n)).set r.1 .free) seg.node = some n
    rw [Heap.content_set_ne hne]
    exact Heap.content_set_self hlen
  · rw [hslice]
    exact hsize
  · rw [hslice]
    exact hplaces
  · intro pos c hpos hentry
    exact absurd (Node.points_of_entry hpos hentry) (hleaf pos c)

/-- A segment of more keys. -/
theorem buildMany_returns {stack : List Segment} {r : Store K V × List Segment}
    (hsorted : data.Pairwise fun x y => x.1 < y.1)
    (h : (buildMany t data seg st stack).Returns r) (ho : Owned st.heap roots st.pendingTwo)
    (hraw : st.heap[seg.node]? = some .raw) (hlt : seg.first < seg.last)
    (hlast : seg.last ≤ data.length) :
    ∃ new, SegmentBuilt roots data seg st r.1 new ∧ r.2 = new ++ stack := by
  obtain ⟨numItems, _, h⟩ := returns_bind.mp h
  obtain ⟨model, _, h⟩ := returns_bind.mp h
  obtain ⟨item, hitem, h⟩ := returns_bind.mp h
  obtain ⟨s, hloop, h⟩ := returns_bind.mp h
  obtain ⟨heap, hput, h⟩ := returns_bind.mp h
  cases returns_pure.mp h
  obtain ⟨_, rfl⟩ := Heap.returns_put.mp hput
  have hlen : (seg.slice data).length = seg.last - seg.first := by
    rw [Segment.slice, List.length_take, List.length_drop]
    omega
  have hstart : AtGroup (seg.slice data)
      (segmentNode (seg.last - seg.first) numItems model : Node K V)
      ⟨(segmentNode (seg.last - seg.first) numItems model : Node K V).predictPos item.1, 0,
        segmentNode (seg.last - seg.first) numItems model, st.heap, stack⟩ := by
    refine ⟨by rw [hlen]; exact Nat.sub_pos_of_lt hlt, ?_, by simp⟩
    intro item' hitem'
    have hget : (seg.slice data)[0]? = some item' := hitem'
    rw [Segment.slice, getElem?_segment (Nat.sub_pos_of_lt hlt)] at hget
    cases (returns_read.mp hitem).symm.trans hget
    rfl
  obtain ⟨new, hf⟩ := groupLoop_returns rfl (by omega) (fun _ _ hle => model.monotone hle)
    (slice_sorted hsorted seg) hstart filed_start hloop
  exact ⟨new, hf.built hlen rfl ho hraw, hf.stack⟩

/-- A turn of the loop builds the segment on top. -/
theorem Waiting.buildSegment {stack : List Segment} {s : Store K V × List Segment}
    (hw : Waiting roots data (st, seg :: stack)) (hsorted : data.Pairwise fun x y => x.1 < y.1)
    (h : (LIPP.buildSegment t data (st, seg :: stack)).Returns s) :
    ∃ new, SegmentBuilt roots data seg st s.1 new ∧ s.2 = new ++ stack := by
  have hraw := hw.raw seg (List.mem_cons_self ..)
  obtain ⟨hle, h⟩ := returns_assert_bind.mp h
  have hle := of_decide_eq_true hle
  split at h
  · rename_i htwo
    obtain ⟨st', hst', h⟩ := returns_bind.mp h
    cases returns_pure.mp h
    exact ⟨[], buildTwo_returns hsorted hst' hw.owned hraw htwo, rfl⟩
  · exact buildMany_returns hsorted h hw.owned hraw (by omega)
      (hw.inside seg (List.mem_cons_self ..))

/-- A bulk build makes a tree with the keys, and it is a new root. -/
theorem buildTreeBulk_returns {r : Nat × Store K V}
    (hsorted : data.Pairwise fun x y => x.1 < y.1) (h : (buildTreeBulk t data st).Returns r)
    (ho : Owned st.heap roots st.pendingTwo) :
    Owned r.2.heap (r.1 :: roots) r.2.pendingTwo ∧ Holds r.2.heap r.1 data := by
  obtain ⟨_, h⟩ := returns_assert_bind.mp h
  obtain ⟨s, hloop, h⟩ := returns_bind.mp h
  cases returns_pure.mp h
  have hrel := Returns.whileM_rel (R := fun s s' : Store K V × List Segment =>
    Waiting (st.heap.alloc.1 :: roots) data s →
      StackBuilt (st.heap.alloc.1 :: roots) data s s') ?_ ?_ hloop
  · have hbuilt := hrel ⟨ho.alloc, ?_, by simp, by simp⟩
    · refine ⟨hbuilt.owned, ?_⟩
      have hholds := hbuilt.holds _ (List.mem_singleton_self _)
      rwa [Segment.slice, List.drop_zero, Nat.sub_zero, List.take_length] at hholds
    · intro seg hseg
      rw [List.mem_singleton.mp hseg]
      exact List.getElem?_concat_length
  · intro s hend hw
    have hnil : s.2 = [] := by simpa using returns_pure.mp hend
    refine ⟨hw.owned, ?_, fun _ _ _ hcontent => hcontent⟩
    intro seg hseg
    rw [hnil] at hseg
    cases hseg
  · rintro ⟨st, stack⟩ s s' _ hbody hrest hw
    cases stack with
    | nil =>
        cases returns_pure.mp hbody
        exact hrest hw
    | cons seg stack =>
        obtain ⟨new, hb, hs⟩ := hw.buildSegment hsorted hbody
        exact (hrest (hw.next hb hs)).back hw hb hs

end Segments

end LIPP
