import PrefetchBench.LIPP.Reload

/-!
# The constructor

The constructor builds two-key nodes for the keys zero and one, and destroys them again, so that
they are in the pool.  It returns when the model of these nodes keeps the two keys apart
(`Index.new_ensures`), and what it returns is an index of no keys (`Index.new_returns`).
-/

namespace LIPP

open Prog

variable {K V : Type} {n : Node K V} {st : Store K V} {p : Nat}

/-! ## Destroying a node without children -/

theorem pushChildren_leaf (hleaf : ∀ pos, pos < n.numItems → n.childBitmap.bit pos = some false)
    (stack : List Nat) : (pushChildren n stack).Returns stack := by
  refine Ensures.returns (Ensures.forRange (fun _ s => s = stack) rfl ?_)
  rintro pos hpos s rfl
  exact (Bitmap.returns_get.mpr (hleaf pos hpos)).seq (Ensures.pure rfl)

/-- The tree is a single node. -/
theorem destroyTree_leaf {st' : Store K V} (hp : st.heap.content p = some n)
    (hleaf : ∀ pos, pos < n.numItems → n.childBitmap.bit pos = some false)
    (hrecycle : (recycle p n st).Returns st') : (destroyTree p st).Returns st' := by
  have hturn : (destroyNode (st, [p])).Returns (st', []) :=
    (Heap.returns_get.mpr hp).bind ((pushChildren_leaf hleaf []).bind
      (hrecycle.bind (returns_pure.mpr rfl)))
  have hend : (whileM (fun s : Store K V × List Nat => pure (!s.2.isEmpty)) destroyNode
      (st', [])).Returns (st', []) :=
    (whileM_returns _ _ _ _).mpr (Or.inl ⟨returns_pure.mpr rfl, rfl⟩)
  have hloop : (whileM (fun s : Store K V × List Nat => pure (!s.2.isEmpty)) destroyNode
      (st, [p])).Returns (st', []) :=
    (whileM_returns _ _ _ _).mpr (Or.inr ⟨_, returns_pure.mpr rfl, hturn, hend⟩)
  exact hloop.bind (returns_pure.mpr rfl)

/-- The node of no keys is given back. -/
theorem destroyTree_none (hp : st.heap.content p = some noneNode) :
    (destroyTree p st).Returns { st with heap := st.heap.set p .free } := by
  apply destroyTree_leaf hp
  · intro pos hpos
    exact (Node.entry_none_iff.mp (noneNode_clear pos hpos)).2
  · exact (Heap.returns_release.mpr ⟨Heap.allocated_of_content hp, rfl⟩).bind (returns_pure.mpr rfl)

theorem buildTreeNone_ensures (st : Store K V) :
    (buildTreeNone st).Ensures fun r => r.2.heap.content r.1 = some noneNode := by
  refine (Heap.returns_put.mpr ⟨Heap.allocated_alloc, rfl⟩).seq (Ensures.pure ?_)
  exact Heap.content_set_self (Heap.allocated_lt Heap.allocated_alloc)

/-- A two-key node that can be put into the pool. -/
structure Node.Recyclable (n : Node K V) : Prop where
  /-- It is for two keys. -/
  isTwo : n.isTwo = true
  /-- It was built for two. -/
  buildSize : n.buildSize = 2
  /-- Its items. -/
  numItems : n.numItems = 8
  /-- It has bits of nothing. -/
  noneBitmap : 0 < n.noneBitmap.length
  /-- It has no children. -/
  leaf : ∀ pos, pos < n.numItems → n.childBitmap.bit pos = some false

theorem Node.Recyclable.recycle (h : n.Recyclable) (hp : st.heap.content p = some n) :
    (recycle p n st).Ensures fun st' => ∃ n', st'.heap = st.heap.set p (.object n') := by
  have hchild := Bitmap.lt_length_of_bit (h.leaf 0 (by rw [h.numItems]; decide))
  rw [LIPP.recycle, if_pos h.isTwo]
  refine Ensures.assert_bind (decide_eq_true h.buildSize) ?_
  refine Ensures.assert_bind (decide_eq_true h.numItems) ?_
  refine (returns_write.mpr ⟨h.noneBitmap, rfl⟩).seq ?_
  refine (returns_write.mpr ⟨hchild, rfl⟩).seq ?_
  exact (Heap.returns_put.mpr ⟨Heap.allocated_of_content hp, rfl⟩).seq (Ensures.pure ⟨_, rfl⟩)

/-- Nodes that are still to be destroyed. -/
structure Store.Primed (st : Store K V) (nodes : List Nat) : Prop where
  /-- They are different. -/
  nodup : nodes.Nodup
  /-- They can be put into the pool. -/
  nodes : ∀ p ∈ nodes, ∃ n, st.heap.content p = some n ∧ n.Recyclable

/-- One node less. -/
theorem Store.Primed.destroy {nodes : List Nat} (h : st.Primed (p :: nodes)) :
    (destroyTree p st).Ensures fun st' => st'.Primed nodes := by
  obtain ⟨n, hcontent, hn⟩ := h.nodes p (List.mem_cons_self ..)
  obtain ⟨st', hst', n', hheap⟩ := hn.recycle hcontent
  obtain ⟨hp, hnodup⟩ := List.nodup_cons.mp h.nodup
  refine (destroyTree_leaf hcontent hn.leaf hst').ensures ⟨hnodup, ?_⟩
  intro q hq
  rw [hheap, Heap.content_set_ne (by rintro rfl; exact hp hq)]
  exact h.nodes q (List.mem_cons_of_mem p hq)

/-! ## Building a two-key node -/

/-- A key is placed where nothing is. -/
theorem Node.place_ensures {key : K} {value : V}
    (hentry : n.entry (n.predictPos key) = some .none)
    (hlen : n.predictPos key < n.items.length) :
    (n.place key value).Ensures fun n' => n.Sets (n.predictPos key) (.data key value) n' ∧
      n'.childBitmap = n.childBitmap ∧ n'.items.length = n.items.length ∧
      n'.noneBitmap.length = n.noneBitmap.length := by
  obtain ⟨hnone, _⟩ := Node.entry_none_iff.mp hentry
  obtain ⟨noneBitmap, hclear, hbits, _⟩ := Bitmap.clear_ensures hnone
  have hset : (n.setData (n.predictPos key) key value).Returns
      { n with
        noneBitmap := noneBitmap
        items := n.items.set (n.predictPos key) (.data key value) } :=
    hclear.bind ((returns_write.mpr ⟨hlen, rfl⟩).bind (returns_pure.mpr rfl))
  refine (Bitmap.returns_get.mpr hnone).seq ?_
  refine Ensures.assert_bind rfl ?_
  obtain ⟨hsets, hchild⟩ := Node.setData_returns hset hentry
  exact hset.ensures ⟨hsets, hchild, List.length_set, hbits⟩

section Two

variable [LinearOrder K] {t : Training K} {zero one : K}

/-- A model that keeps two keys apart makes a node for them. -/
theorem buildTreeTwo_ensures {model : K →o Fin 8} {value1 value2 : V}
    (hmodel : t.two 8 zero one = some model) (hne : model zero ≠ model one) (hlt : zero < one)
    (hpending : st.pendingTwo = []) :
    (buildTreeTwo t zero value1 one value2 st).Ensures fun r => r.1 = st.heap.length ∧
      r.2.pendingTwo = [] ∧ ∃ n : Node K V, n.Recyclable ∧
        r.2.heap = st.heap.alloc.2.set r.1 (.object n) := by
  obtain ⟨heap, pending⟩ := st
  subst hpending
  rw [buildTreeTwo, if_neg hlt.not_gt, buildTreeTwoInOrder]
  refine Ensures.assert_bind (decide_eq_true hlt) ?_
  have htake : (takeTwo (⟨heap, []⟩ : Store K V)).Returns
      (heap.length, twoNode, ⟨heap ++ [.raw], []⟩) := returns_pure.mpr rfl
  refine htake.seq ((returns_ofOption.mpr hmodel).seq ?_)
  have hclear : ∀ pos, pos < 8 →
      ((twoNode : Node K V).withModel model).entry pos = some .none := twoNode_recycled.clear
  refine Ensures.bind (Node.place_ensures (hclear _ (model zero).isLt) (model zero).isLt) ?_
  rintro n1 ⟨⟨⟨items1, none1, child1, rfl⟩, _, hother⟩, hchild1, hitems1, hnone1⟩
  have hentry := (hother _ (Fin.val_ne_of_ne hne.symm)).trans (hclear _ (model one).isLt)
  refine Ensures.bind (Node.place_ensures hentry ((model one).isLt.trans_eq hitems1.symm)) ?_
  rintro n2 ⟨⟨⟨items2, none2, child2, rfl⟩, _, _⟩, hchild2, _, hnone2⟩
  refine (Heap.returns_put.mpr ⟨Heap.allocated_alloc, rfl⟩).seq (Ensures.pure ?_)
  refine ⟨rfl, rfl, _, ⟨rfl, rfl, rfl, ?_, ?_⟩, rfl⟩
  · exact Nat.lt_of_lt_of_eq Nat.zero_lt_one (hnone2.trans hnone1).symm
  · intro pos hpos
    rw [hchild2, hchild1]
    exact (Node.entry_none_iff.mp (hclear pos hpos)).2

/-- The nodes are built, destroyed again, and then there is a tree of no keys. -/
theorem Index.new_returns {index : Index K V} {count : Nat} {zero one : K} {dflt : V}
    (h : (Index.new t count zero one dflt).Returns index) : index.Loaded [] := by
  obtain ⟨s, hbuild, h⟩ := returns_bind.mp h
  obtain ⟨st, hdestroy, h⟩ := returns_bind.mp h
  obtain ⟨r, hr, h⟩ := returns_bind.mp h
  cases returns_pure.mp h
  obtain ⟨howned, hlen⟩ := Returns.forRange_keeps (fun i (s : Store K V × List Nat) =>
    Owned s.1.heap s.2 s.1.pendingTwo ∧ s.2.length = i) hbuild ⟨owned_initial, rfl⟩ (by
      rintro i s s' _ ⟨howned, hlen⟩ hbody
      obtain ⟨two, htwo, hbody⟩ := returns_bind.mp hbody
      cases returns_pure.mp hbody
      obtain ⟨_, hbuilt, _⟩ := buildTreeTwo_returns htwo howned
      refine ⟨hbuilt.owned.perm (List.perm_append_singleton ..), ?_⟩
      rw [List.length_append, hlen, List.length_singleton])
  have hend := Returns.forRange_keeps (fun i (st : Store K V) =>
    Owned st.heap (s.2.drop i) st.pendingTwo) hdestroy howned (by
      intro i st st' _ howned hbody
      obtain ⟨p, hp, hbody⟩ := returns_bind.mp hbody
      obtain ⟨hlt, hget⟩ := List.getElem?_eq_some_iff.mp (returns_read.mp hp)
      rw [List.drop_eq_getElem_cons hlt, hget] at howned
      exact destroyTree_owned howned hbody)
  rw [← hlen, List.drop_length] at hend
  exact buildTreeNone_loaded hr hend

/-- One more node. -/
theorem Store.Primed.build {model : K →o Fin 8} {nodes : List Nat} {value1 value2 : V}
    (h : st.Primed nodes) (hmodel : t.two 8 zero one = some model) (hne : model zero ≠ model one)
    (hlt : zero < one) (hpending : st.pendingTwo = []) :
    (buildTreeTwo t zero value1 one value2 st).Ensures fun r =>
      r.2.pendingTwo = [] ∧ r.2.Primed (nodes ++ [r.1]) := by
  apply (buildTreeTwo_ensures hmodel hne hlt hpending).mono
  rintro ⟨p, st'⟩ ⟨rfl, hpending', n, hn, hheap⟩
  have hold : ∀ q ∈ nodes, q < st.heap.length := by
    intro q hq
    obtain ⟨m, hm, _⟩ := h.nodes q hq
    exact Heap.content_lt hm
  refine ⟨hpending', ?_, ?_⟩
  · refine List.Nodup.append h.nodup (List.nodup_singleton _) ?_
    rw [List.disjoint_singleton]
    exact fun hmem => absurd (hold _ hmem) (Nat.lt_irrefl _)
  · intro q hq
    rw [hheap]
    rcases List.mem_append.mp hq with hq | hq
    · rw [Heap.content_set_ne (hold q hq).ne', Heap.alloc, Heap.content_alloc]
      exact h.nodes q hq
    · rw [List.mem_singleton.mp hq]
      exact ⟨n, Heap.content_set_self (Heap.allocated_lt Heap.allocated_alloc), hn⟩

/-- The constructor returns, however many nodes it builds. -/
theorem Index.new_ensures {model : K →o Fin 8} (hmodel : t.two 8 zero one = some model)
    (hne : model zero ≠ model one) (hlt : zero < one) (count : Nat) (dflt : V) :
    (Index.new t count zero one dflt).Ensures fun index =>
      index.heap.content index.root = some noneNode := by
  refine Ensures.bind (Ensures.forRange (fun i (s : Store K V × List Nat) =>
    s.1.pendingTwo = [] ∧ s.1.Primed s.2 ∧ s.2.length = i) ?_ ?_) ?_
  · exact ⟨rfl, ⟨List.nodup_nil, by simp⟩, rfl⟩
  · rintro i _ s ⟨hpending, hprimed, hlen⟩
    refine Ensures.bind (hprimed.build hmodel hne hlt hpending) ?_
    rintro r ⟨hpending', hprimed'⟩
    refine Ensures.pure ⟨hpending', hprimed', ?_⟩
    rw [List.length_append, hlen, List.length_singleton]
  rintro s ⟨_, hprimed, hlen⟩
  refine Ensures.bind (Ensures.forRange (fun i (st : Store K V) => st.Primed (s.2.drop i))
    hprimed ?_) ?_
  · intro i hi st hst
    have hlt : i < s.2.length := hlen ▸ hi
    rw [List.drop_eq_getElem_cons hlt] at hst
    exact (returns_read.mpr (List.getElem?_eq_getElem hlt)).seq hst.destroy
  intro st _
  refine (buildTreeNone_ensures st).bind ?_
  rintro r hr
  exact Ensures.pure hr

end Two

/-! ## Exact arithmetic -/

/-- The linear model through two points. -/
def throughPoints (numItems : Nat) (x1 y1 x2 y2 : ℚ) : Option (Nat →o Fin numItems) :=
  if h : 0 < numItems ∧ x1 < x2 ∧ y1 ≤ y2 then
    let a := (y2 - y1) / (x2 - x1)
    some
      { toFun := fun key => ⟨clampPos numItems (a * key + (y1 - a * x1)), clampPos_lt h.1⟩
        monotone' := by
          intro key key' hle
          have ha : 0 ≤ a := div_nonneg (sub_nonneg.mpr h.2.2) (sub_nonneg.mpr h.2.1.le)
          have hcast : (key : ℚ) ≤ key' := Nat.cast_le.mpr hle
          apply clampPos_mono
          gcongr }
  else none

/-- The models of `build_tree_two` and `build_tree_bulk_fast`, without rounding, and with zero for
`BUILD_LR_REMAIN`. -/
def exactTraining : Training Nat where
  two numItems key1 key2 :=
    throughPoints numItems key1 (numItems / 3 : Nat) key2 (numItems * 2 / 3 : Nat)
  bulk numItems keys :=
    let gap := computeGapCount keys.length + 1
    let mid1 := (keys.length - 1) / 3
    let mid2 := (keys.length - 1) * 2 / 3
    let midKey (mid : Nat) : ℚ := ((keys[mid]?.getD 0 : ℚ) + (keys[mid + 1]?.getD 0 : ℚ)) / 2
    throughPoints numItems (midKey mid1) (mid1 * gap + gap / 2 : Nat)
      (midKey mid2) (mid2 * gap + gap / 2 : Nat)
  lrRemains _ := 0

/-- The two keys of the constructor are kept apart. -/
theorem exactTraining_two :
    ∃ model, exactTraining.two 8 0 1 = some model ∧ model 0 ≠ model 1 := by
  have hany : (exactTraining.two 8 0 1).any (fun model => decide (model 0 ≠ model 1)) = true := by
    decide +kernel
  obtain ⟨model, hmodel, hne⟩ := (Option.any_eq_true _ _).mp hany
  exact ⟨model, hmodel, of_decide_eq_true hne⟩

end LIPP
