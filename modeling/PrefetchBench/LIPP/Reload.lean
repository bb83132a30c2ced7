import PrefetchBench.LIPP.Bulk

/-!
# Loading anew

`bulk_load` destroys the old tree and builds a new one.  A single key is inserted into the tree of
no keys, two keys make a node of their own, and more of them are built in bulk.  Whatever the index
held before, it holds the keys that it is told to load, and every node is owned
(`Index.bulkLoad_returns`).
-/

namespace LIPP

open Prog

variable {K V : Type} {n n' : Node K V} {roots : List Nat} {st : Store K V}

/-! ## Trees of no key and of one key -/

theorem noneNode_clear (pos : Nat) (hpos : pos < (noneNode : Node K V).numItems) :
    (noneNode : Node K V).entry pos = some .none := by
  obtain rfl : pos = 0 := Nat.lt_one_iff.mp hpos
  rfl

theorem buildTreeNone_returns {r : Nat × Store K V} (h : (buildTreeNone st).Returns r)
    (ho : Owned st.heap roots st.pendingTwo) :
    Owned r.2.heap (r.1 :: roots) r.2.pendingTwo ∧ r.2.heap.content r.1 = some noneNode := by
  obtain ⟨heap, hput, h⟩ := returns_bind.mp h
  cases returns_pure.mp h
  obtain ⟨halloc, rfl⟩ := Heap.returns_put.mp hput
  have halloc' := ho.alloc
  have hp : st.heap.length ∉ st.pendingTwo := fun hmem =>
    absurd (ho.pending_lt hmem) (Nat.lt_irrefl _)
  refine ⟨halloc'.set_leaf halloc hp ?_, ?_⟩
  · rintro pos c ⟨hpos, hbit, _⟩
    cases hbit.symm.trans (Node.entry_none_iff.mp (noneNode_clear pos hpos)).2
  · exact Heap.content_set_self (Heap.allocated_lt halloc)

/-- The node of no keys holds none. -/
theorem holds_nil {heap : Heap (Node K V)} {p : Nat} (hp : p ≠ 0)
    (hcontent : heap.content p = some noneNode) : Holds heap p [] := by
  refine .node hp hcontent rfl (Node.places_nil noneNode_clear) ?_
  intro pos c hpos hentry
  cases (noneNode_clear pos hpos).symm.trans hentry

section Insert

variable {p : Nat} {key : K} {value : V}

/-- The node of one key: what an insertion makes of the one of no keys. -/
structure OneKey (n : Node K V) (key : K) (value : V) : Prop where
  /-- Its size. -/
  size : n.size = 1
  /-- It has the key. -/
  places : n.Places [(key, value)]
  /-- It has no children. -/
  leaf : ∀ pos c, ¬ n.Points pos c

theorem OneKey.holds {heap : Heap (Node K V)} (h : OneKey n key value) (hp : p ≠ 0)
    (hcontent : heap.content p = some n) : Holds heap p [(key, value)] := by
  refine .node hp hcontent h.size h.places ?_
  intro pos c hpos hentry
  exact absurd (Node.points_of_entry hpos hentry) (h.leaf pos c)

/-- A key that is written to a node of no keys. -/
theorem OneKey.of_setData (h : (n.setData (n.predictPos key) key value).Returns n')
    (hclear : ∀ pos, pos < n.numItems → n.entry pos = some .none) (hsize : n.size = 1) :
    OneKey n' key value := by
  obtain ⟨hset, hchild⟩ := Node.setData_returns h (hclear _ (n.predictPos_lt key))
  have hplaces : n'.Places [(key, value)] := by
    refine Node.Places.file (Node.places_nil hclear) rfl ?_ hset (.single key value)
    intro item hitem
    rw [List.mem_singleton.mp hitem]
  obtain ⟨items, noneBitmap, childBitmap, hfilled⟩ := hset.1
  refine ⟨?_, hplaces, ?_⟩
  · rw [hfilled]
    exact hsize
  · rintro pos c ⟨hpos, hbit, _⟩
    rw [hfilled] at hpos
    rw [hchild] at hbit
    cases hbit.symm.trans (Node.entry_none_iff.mp (hclear pos hpos)).2

/-- Counting an insertion that met no key changes a counter only. -/
theorem countInserts_returns {s : Path K V} (h : (countInserts ⟨[p], 0, st⟩).Returns s)
    (hp : st.heap.content p = some n) (hone : OneKey n key value) :
    ∃ n', OneKey n' key value ∧ s = ⟨[p], 0, { st with heap := st.heap.set p (.object n') }⟩ := by
  obtain ⟨s', hbody, h⟩ := returns_bind.mp h
  cases returns_pure.mp h
  obtain ⟨q, hq, hbody⟩ := returns_bind.mp hbody
  cases returns_read.mp hq
  obtain ⟨m, hm, hbody⟩ := returns_bind.mp hbody
  cases hp.symm.trans (Heap.returns_get.mp hm)
  obtain ⟨heap, hput, hbody⟩ := returns_bind.mp hbody
  cases returns_pure.mp hbody
  obtain ⟨_, rfl⟩ := Heap.returns_put.mp hput
  refine ⟨_, ⟨?_, ?_, ?_⟩, rfl⟩
  · exact hone.size
  · exact ⟨hone.places.empty, hone.places.single, hone.places.many⟩
  · exact hone.leaf

variable [LinearOrder K] {t : Training K}

/-- The step of an insertion at the node of no keys. -/
theorem insertStep_returns {r : (Nat × Path K V) ⊕ Path K V}
    (h : (insertStep t key value (p, ⟨[], 0, st⟩)).Returns r)
    (hp : st.heap.content p = some noneNode) :
    ∃ n, OneKey n key value ∧
      r = .inr ⟨[p], 0, { st with heap := st.heap.set p (.object n) }⟩ := by
  obtain ⟨_, h⟩ := returns_assert_bind.mp h
  obtain ⟨old, hold, h⟩ := returns_bind.mp h
  cases hp.symm.trans (Heap.returns_get.mp hold)
  obtain ⟨b, hb, h⟩ := returns_bind.mp h
  have hclear := noneNode_clear (V := V) _ (noneNode.predictPos_lt key)
  cases (Node.entry_none_iff.mp hclear).1.symm.trans (Bitmap.returns_get.mp hb)
  obtain ⟨n', hn', h⟩ := returns_bind.mp h
  obtain ⟨heap, hput, h⟩ := returns_bind.mp h
  cases returns_pure.mp h
  obtain ⟨_, rfl⟩ := Heap.returns_put.mp hput
  exact ⟨n', OneKey.of_setData hn' noneNode_clear rfl, rfl⟩

/-- A node of one key is not built anew. -/
theorem rebuild_returns {s : Path K V} (h : (loop (rebuildStep t key) (0, ⟨[p], 0, st⟩)).Returns s)
    (hp : st.heap.content p = some n) (hone : OneKey n key value) : s = ⟨[p], 0, st⟩ := by
  have hsmall : n.needRebuild = false := by
    simp [Node.needRebuild, hone.size]
  have hstep : (rebuildStep t key (0, ⟨[p], 0, st⟩)).Returns (.inl (1, ⟨[p], 0, st⟩)) := by
    refine (returns_read.mpr rfl).bind ((Heap.returns_get.mpr hp).bind ?_)
    rw [hsmall]
    exact returns_pure.mpr rfl
  have hend : (rebuildStep t key (1, ⟨[p], 0, st⟩)).Returns (.inr ⟨[p], 0, st⟩) :=
    returns_pure.mpr rfl
  have hloop : (loop (rebuildStep t key) (0, ⟨[p], 0, st⟩)).Returns ⟨[p], 0, st⟩ :=
    (loop_returns _ _ _).mpr (Or.inr ⟨_, hstep, (loop_returns _ _ _).mpr (Or.inl hend)⟩)
  exact h.det hloop

/-- Inserting a key into the tree of no keys. -/
theorem insertTree_returns {r : Nat × Store K V} (h : (insertTree t p key value st).Returns r)
    (ho : Owned st.heap (p :: roots) st.pendingTwo) (hp : st.heap.content p = some noneNode) :
    Owned r.2.heap (r.1 :: roots) r.2.pendingTwo ∧ Holds r.2.heap r.1 [(key, value)] := by
  obtain ⟨s1, hdown, h⟩ := returns_bind.mp h
  obtain ⟨s2, hcount, h⟩ := returns_bind.mp h
  obtain ⟨s3, hrebuild, h⟩ := returns_bind.mp h
  obtain ⟨root, hroot, h⟩ := returns_bind.mp h
  cases returns_pure.mp h
  have hlt := Heap.content_lt hp
  have hpending : p ∉ st.pendingTwo := fun hmem =>
    (List.nodup_cons.mp ho.nodup).1 (List.mem_append_right _ hmem)
  have hne := ho.ne_zero (Heap.allocated_of_content hp)
  obtain ⟨n1, hone1, rfl⟩ : ∃ n, OneKey n key value ∧
      s1 = ⟨[p], 0, { st with heap := st.heap.set p (.object n) }⟩ := by
    rcases (loop_returns _ _ _).mp hdown with hstep | ⟨s', hstep, _⟩
    · obtain ⟨n1, hone1, heq⟩ := insertStep_returns hstep hp
      cases heq
      exact ⟨n1, hone1, rfl⟩
    · obtain ⟨n1, _, heq⟩ := insertStep_returns hstep hp
      cases heq
  have hcontent1 : Heap.content (st.heap.set p (.object n1)) p = some n1 :=
    Heap.content_set_self hlt
  obtain ⟨n2, hone2, rfl⟩ := countInserts_returns hcount hcontent1 hone1
  have hcontent2 : Heap.content ((st.heap.set p (.object n1)).set p (.object n2)) p = some n2 :=
    Heap.content_set_self (by rw [List.length_set]; exact hlt)
  obtain rfl := rebuild_returns hrebuild hcontent2 hone2
  cases returns_read.mp hroot
  have howned1 := ho.set_leaf (Heap.allocated_of_content hp) hpending hone1.leaf
  have howned2 := howned1.set_leaf (Heap.allocated_of_content hcontent1) hpending hone2.leaf
  exact ⟨howned2, hone2.holds hne hcontent2⟩

end Insert

/-! ## `bulk_load` -/

/-- A node of two keys holds them. -/
theorem TwoBuilt.holds {p : Nat} {data : List (K × V)} {st' : Store K V}
    (h : TwoBuilt roots data st p st') : Holds st'.heap p data := by
  obtain ⟨n, hcontent, hsize, hplaces, hleaf⟩ := h.node
  refine .node (h.owned.ne_zero (Heap.allocated_of_content hcontent)) hcontent hsize hplaces ?_
  intro pos c hpos hentry
  exact absurd (Node.points_of_entry hpos hentry) (hleaf pos c)

/-- An index whose nodes are owned, and which holds data. -/
structure Index.Loaded (index : Index K V) (data : List (K × V)) : Prop where
  /-- Every node is owned, and the pool is clear. -/
  owned : Owned index.heap [index.root] index.pendingTwo
  /-- The tree. -/
  holds : Holds index.heap index.root data

/-- A tree of no keys after the old one. -/
theorem buildTreeNone_loaded {r : Nat × Store K V} (h : (buildTreeNone st).Returns r)
    (ho : Owned st.heap [] st.pendingTwo) : (Index.mk r.2 r.1).Loaded [] := by
  obtain ⟨howned, hcontent⟩ := buildTreeNone_returns h ho
  exact ⟨howned, holds_nil (howned.ne_zero (Heap.allocated_of_content hcontent)) hcontent⟩

variable [LinearOrder K] {t : Training K}

/-- Whatever was loaded before, the index holds the keys that it is told to load. -/
theorem Index.bulkLoad_returns {index index' : Index K V} {vs : List (K × V)} {numKeys : Int}
    (h : (index.bulkLoad t vs numKeys).Returns index')
    (ho : Owned index.heap [index.root] index.pendingTwo)
    (hsorted : vs.Pairwise fun x y => x.1 < y.1) :
    0 ≤ numKeys ∧ index'.Loaded (vs.take numKeys.toNat) := by
  rw [Index.bulkLoad] at h
  split at h
  · rename_i hnum
    obtain ⟨st, hst, h⟩ := returns_bind.mp h
    obtain ⟨r, hr, h⟩ := returns_bind.mp h
    cases returns_pure.mp h
    subst hnum
    exact ⟨Int.le_refl 0, buildTreeNone_loaded hr (destroyTree_owned ho hst)⟩
  split at h
  · rename_i hnum
    obtain ⟨st, hst, h⟩ := returns_bind.mp h
    obtain ⟨r, hr, h⟩ := returns_bind.mp h
    obtain ⟨item, hitem, h⟩ := returns_bind.mp h
    obtain ⟨r', hr', h⟩ := returns_bind.mp h
    cases returns_pure.mp h
    subst hnum
    obtain ⟨howned, hcontent⟩ := buildTreeNone_returns hr (destroyTree_owned ho hst)
    obtain ⟨howned', hholds⟩ := insertTree_returns hr' howned hcontent
    have htake : vs.take 1 = [(item.1, item.2)] := by
      obtain ⟨hlt, hget⟩ := List.getElem?_eq_some_iff.mp (returns_read.mp hitem)
      rw [List.take_one, List.head?_eq_getElem?, List.getElem?_eq_getElem hlt, hget]
      rfl
    exact ⟨Int.one_nonneg, howned', htake ▸ hholds⟩
  split at h
  · rename_i hnum
    obtain ⟨st, hst, h⟩ := returns_bind.mp h
    obtain ⟨item1, hitem1, h⟩ := returns_bind.mp h
    obtain ⟨item2, hitem2, h⟩ := returns_bind.mp h
    obtain ⟨r, hr, h⟩ := returns_bind.mp h
    cases returns_pure.mp h
    subst hnum
    obtain ⟨data, hbuilt, hdata⟩ := buildTreeTwo_returns hr (destroyTree_owned ho hst)
    obtain ⟨hlt, htake⟩ := take_two hsorted (returns_read.mp hitem1) (returns_read.mp hitem2)
    obtain rfl := hdata hlt
    exact ⟨by decide, hbuilt.owned, htake ▸ hbuilt.holds⟩
  · obtain ⟨hmany, h⟩ := returns_assert_bind.mp h
    obtain ⟨_, _, h⟩ := returns_bind.mp h
    obtain ⟨st, hst, h⟩ := returns_bind.mp h
    obtain ⟨r, hr, h⟩ := returns_bind.mp h
    cases returns_pure.mp h
    have hpos : 0 ≤ numKeys :=
      le_of_lt ((by decide : (0 : Int) < 2).trans (of_decide_eq_true hmany))
    obtain ⟨howned, hholds⟩ := buildTreeBulk_returns (hsorted.sublist (List.take_sublist _ _)) hr
      (destroyTree_owned ho hst)
    exact ⟨hpos, howned, hholds⟩

end LIPP
