import PrefetchBench.LIPP.Load

/-!
# Ownership of nodes

A node is reached in one way only: from one item of one node, or as one of the roots, or from the
pool (`Owned`).  So what is done to one tree leaves the others and the pool alone, and a tree that
is destroyed puts every node of two keys into the pool once, and clear (`destroyTree_owned`).
-/

/-! ## Memory that is added -/

namespace Heap

variable {α : Type} {h : Heap α} {p i : Nat}

theorem content_append_raw (h : Heap α) (k : Nat) :
    content (h ++ List.replicate k .raw) i = h.content i := by
  rw [content, content, List.getElem?_append]
  split
  · rfl
  · rename_i hi
    rw [List.getElem?_eq_none (not_lt.mp hi), List.getElem?_replicate]
    split <;> rfl

theorem content_of_raw (hp : h[p]? = some .raw) : h.content p = none := by
  rw [content, hp]
  rfl

end Heap

namespace LIPP

open Prog

variable {K V : Type} {heap heap' : Heap (Node K V)} {p q c pos : Nat} {n n' : Node K V}
  {roots pending stack : List Nat}

/-! ## Edges -/

/-- An item of the node is a child. -/
def Node.Points (n : Node K V) (pos c : Nat) : Prop :=
  pos < n.numItems ∧ n.childBitmap.bit pos = some true ∧ n.items[pos]? = some (.child c)

/-- A child is reached from an item of a node. -/
def Edge (heap : Heap (Node K V)) (p pos c : Nat) : Prop :=
  ∃ n, heap.content p = some n ∧ n.Points pos c

theorem Node.points_of_entry (hpos : pos < n.numItems) (h : n.entry pos = some (.child c)) :
    n.Points pos c :=
  ⟨hpos, (Node.entry_child_iff.mp h).2⟩

theorem edge_of_content (hp : heap.content p = some n) : Edge heap p pos c ↔ n.Points pos c := by
  constructor
  · rintro ⟨n', hn', hpoints⟩
    cases hp.symm.trans hn'
    exact hpoints
  · intro hpoints
    exact ⟨n, hp, hpoints⟩

theorem not_edge_of_none (hp : heap.content p = none) : ¬ Edge heap p pos c := by
  rintro ⟨n, hn, _⟩
  cases hp.symm.trans hn

theorem edge_set_ne {cell : Cell (Node K V)} (hq : p ≠ q) :
    Edge (heap.set p cell) q pos c ↔ Edge heap q pos c := by
  rw [Edge, Edge, Heap.content_set_ne hq]

theorem edge_append_raw {k : Nat} :
    Edge (heap ++ List.replicate k .raw) q pos c ↔ Edge heap q pos c := by
  rw [Edge, Edge, Heap.content_append_raw]

/-! ## Ownership -/

/-- A recycled node for two keys: all bits of nothing are set, and no bit of a child. -/
structure Node.Recycled (n : Node K V) : Prop where
  /-- It is for two keys. -/
  isTwo : n.isTwo = true
  /-- Its size, for the next time. -/
  size : n.size = 2
  /-- Its items. -/
  numItems : n.numItems = 8
  /-- The items are nothing. -/
  clear : ∀ pos, pos < n.numItems → n.entry pos = some .none

theorem Node.Recycled.not_points (h : n.Recycled) : ¬ n.Points pos c := by
  rintro ⟨hpos, hchild, _⟩
  cases hchild.symm.trans (Node.entry_none_iff.mp (h.clear pos hpos)).2

/-- Every node is reached in one way at most. -/
structure Owned (heap : Heap (Node K V)) (roots pending : List Nat) : Prop where
  /-- There is nothing behind the null pointer. -/
  null : heap[0]? = some .free
  /-- Children are in memory. -/
  target : ∀ {p pos c}, Edge heap p pos c → c < heap.length
  /-- A child has one parent. -/
  unique : ∀ {p p' pos pos' c}, Edge heap p pos c → Edge heap p' pos' c → p = p' ∧ pos = pos'
  /-- Roots and recycled nodes have none. -/
  unowned : ∀ {p pos c}, c ∈ roots ++ pending → ¬ Edge heap p pos c
  /-- They are different. -/
  nodup : (roots ++ pending).Nodup
  /-- Roots are in memory. -/
  inside : ∀ p ∈ roots, p < heap.length
  /-- Recycled nodes are clear. -/
  clear : ∀ p ∈ pending, ∃ n, heap.content p = some n ∧ n.Recycled

/-- The memory before the first allocation. -/
theorem owned_initial : Owned (Heap.initial : Heap (Node K V)) [] [] where
  null := rfl
  target := by
    rintro p pos c ⟨n, hn, _⟩
    cases p with
    | zero => cases hn
    | succ p => cases hn
  unique := by
    rintro p p' pos pos' c ⟨n, hn, _⟩
    cases p with
    | zero => cases hn
    | succ p => cases hn
  unowned := by simp
  nodup := by simp
  inside := by simp
  clear := by simp

theorem Owned.length_pos (h : Owned heap roots pending) : 0 < heap.length :=
  (List.getElem?_eq_some_iff.mp h.null).1

theorem Owned.ne_zero (h : Owned heap roots pending) (hp : heap.allocated p = true) : p ≠ 0 := by
  rintro rfl
  rw [Heap.allocated, h.null] at hp
  cases hp

theorem Owned.pending_lt (h : Owned heap roots pending) (hp : p ∈ pending) : p < heap.length := by
  obtain ⟨n, hn, _⟩ := h.clear p hp
  exact Heap.content_lt hn

/-- The owners may be listed in another order. -/
theorem Owned.perm {roots' : List Nat} (h : Owned heap roots pending) (hr : roots'.Perm roots) :
    Owned heap roots' pending where
  null := h.null
  target := h.target
  unique := h.unique
  unowned hc := h.unowned ((hr.append_right pending).mem_iff.mp hc)
  nodup := (hr.append_right pending).nodup_iff.mpr h.nodup
  inside p hp := h.inside p (hr.mem_iff.mp hp)
  clear := h.clear

/-- More memory. -/
theorem Owned.append_raw (h : Owned heap roots pending) (k : Nat) :
    Owned (heap ++ List.replicate k .raw) roots pending where
  null := by rw [List.getElem?_append_left h.length_pos]; exact h.null
  target he := by
    have hlt := h.target (edge_append_raw.mp he)
    rw [List.length_append]
    omega
  unique he he' := h.unique (edge_append_raw.mp he) (edge_append_raw.mp he')
  unowned hc he := h.unowned hc (edge_append_raw.mp he)
  nodup := h.nodup
  inside p hp := by
    have hlt := h.inside p hp
    rw [List.length_append]
    omega
  clear p hp := by
    obtain ⟨n, hn, hrecycled⟩ := h.clear p hp
    exact ⟨n, by rw [Heap.content_append_raw]; exact hn, hrecycled⟩

/-- Memory for a new root. -/
theorem Owned.alloc (h : Owned heap roots pending) :
    Owned (heap ++ [.raw]) (heap.length :: roots) pending := by
  have h' : Owned (heap ++ [.raw]) roots pending := h.append_raw 1
  have hedge : ∀ {p pos}, ¬ Edge (heap ++ [.raw]) p pos heap.length := by
    intro p pos he
    have he' : Edge (heap ++ List.replicate 1 .raw) p pos heap.length := he
    exact absurd (h.target (edge_append_raw.mp he')) (Nat.lt_irrefl _)
  have hmem : heap.length ∉ roots ++ pending := by
    intro hmem
    rcases List.mem_append.mp hmem with hmem | hmem
    · exact absurd (h.inside _ hmem) (Nat.lt_irrefl _)
    · exact absurd (h.pending_lt hmem) (Nat.lt_irrefl _)
  refine ⟨h'.null, h'.target, h'.unique, ?_, ?_, ?_, h'.clear⟩
  · intro p pos c hc
    rcases List.mem_cons.mp hc with rfl | hc
    · exact hedge
    · exact h'.unowned hc
  · exact List.nodup_cons.mpr ⟨hmem, h.nodup⟩
  · intro p hp
    rcases List.mem_cons.mp hp with rfl | hp
    · simp
    · exact h'.inside p hp

/-- A node that is written, and whose children are new. -/
theorem Owned.set (h : Owned heap roots pending) (hp : heap.allocated p = true)
    (hpending : p ∉ pending)
    (hfresh : ∀ pos c, n.Points pos c → c < heap.length ∧ c ∉ roots ++ pending ∧
      ∀ q pos', ¬ Edge heap q pos' c)
    (hinj : ∀ pos pos' c, n.Points pos c → n.Points pos' c → pos = pos') :
    Owned (heap.set p (.object n)) roots pending := by
  have hlt := Heap.allocated_lt hp
  have hself : Heap.content (heap.set p (.object n)) p = some n := Heap.content_set_self hlt
  have hcases : ∀ {q pos c}, Edge (heap.set p (.object n)) q pos c →
      (q = p ∧ n.Points pos c) ∨ (q ≠ p ∧ Edge heap q pos c) := by
    intro q pos c he
    rcases eq_or_ne p q with rfl | hq
    · exact Or.inl ⟨rfl, (edge_of_content hself).mp he⟩
    · exact Or.inr ⟨hq.symm, (edge_set_ne hq).mp he⟩
  refine ⟨?_, ?_, ?_, ?_, h.nodup, ?_, ?_⟩
  · rw [List.getElem?_set_ne (h.ne_zero hp)]
    exact h.null
  · intro q pos c he
    rw [List.length_set]
    rcases hcases he with ⟨_, hpoints⟩ | ⟨_, he⟩
    · exact (hfresh _ _ hpoints).1
    · exact h.target he
  · intro q q' pos pos' c he he'
    rcases hcases he with ⟨hq, hpoints⟩ | ⟨_, hold⟩
    · rcases hcases he' with ⟨hq', hpoints'⟩ | ⟨_, hold'⟩
      · exact ⟨hq.trans hq'.symm, hinj _ _ _ hpoints hpoints'⟩
      · exact absurd hold' ((hfresh _ _ hpoints).2.2 _ _)
    · rcases hcases he' with ⟨_, hpoints'⟩ | ⟨_, hold'⟩
      · exact absurd hold ((hfresh _ _ hpoints').2.2 _ _)
      · exact h.unique hold hold'
  · intro q pos c hc he
    rcases hcases he with ⟨_, hpoints⟩ | ⟨_, he⟩
    · exact (hfresh _ _ hpoints).2.1 hc
    · exact h.unowned hc he
  · intro q hq
    rw [List.length_set]
    exact h.inside q hq
  · intro q hq
    obtain ⟨m, hm, hrecycled⟩ := h.clear q hq
    have hne : p ≠ q := by
      rintro rfl
      exact hpending hq
    exact ⟨m, by rw [Heap.content_set_ne hne]; exact hm, hrecycled⟩

/-- A node without children. -/
theorem Owned.set_leaf (h : Owned heap roots pending) (hp : heap.allocated p = true)
    (hpending : p ∉ pending) (hn : ∀ pos c, ¬ n.Points pos c) :
    Owned (heap.set p (.object n)) roots pending :=
  h.set hp hpending (fun pos c hpoints => absurd hpoints (hn pos c))
    fun pos _ c hpoints => absurd hpoints (hn pos c)

/-- A root whose children become the roots. -/
theorem Owned.discard {cs : List Nat} {cell : Cell (Node K V)}
    (h : Owned heap (p :: stack ++ roots) pending) (hp : heap.content p = some n)
    (hcs : ∀ c ∈ cs, ∃ pos, n.Points pos c) (hnodup : cs.Nodup)
    (hcell : ∀ pos c, ¬ Edge (heap.set p cell) p pos c) :
    Owned (heap.set p cell) (cs ++ stack ++ roots) pending ∧
      p ∉ cs ++ stack ++ roots ++ pending ∧ ∀ q pos, ¬ Edge (heap.set p cell) q pos p := by
  have hback : ∀ {q pos c}, Edge (heap.set p cell) q pos c → q ≠ p ∧ Edge heap q pos c := by
    intro q pos c he
    rcases eq_or_ne p q with rfl | hq
    · exact absurd he (hcell pos c)
    · exact ⟨hq.symm, (edge_set_ne hq).mp he⟩
  have hchild : ∀ c ∈ cs, ∃ pos, Edge heap p pos c := by
    intro c hc
    obtain ⟨pos, hpoints⟩ := hcs c hc
    exact ⟨pos, n, hp, hpoints⟩
  have howners := List.nodup_cons.mp h.nodup
  -- a child of the root is no root, and not in the pool
  have hdisjoint : ∀ c ∈ cs, c ∉ p :: stack ++ roots ++ pending := by
    intro c hc hmem
    obtain ⟨pos, he⟩ := hchild c hc
    exact h.unowned hmem he
  have hpcs : p ∉ cs := fun hmem => hdisjoint p hmem (List.mem_cons_self ..)
  have hne : p ≠ 0 := h.ne_zero (Heap.allocated_of_content hp)
  refine ⟨⟨?_, ?_, ?_, ?_, ?_, ?_, ?_⟩, ?_, ?_⟩
  · rw [List.getElem?_set_ne hne]
    exact h.null
  · intro q pos c he
    rw [List.length_set]
    exact h.target (hback he).2
  · intro q q' pos pos' c he he'
    exact h.unique (hback he).2 (hback he').2
  · intro q pos c hc he
    obtain ⟨hq, he⟩ := hback he
    rw [List.append_assoc, List.append_assoc] at hc
    rcases List.mem_append.mp hc with hc | hc
    · obtain ⟨pos', he'⟩ := hchild c hc
      exact hq (h.unique he he').1
    · rw [← List.append_assoc] at hc
      exact h.unowned (List.mem_cons_of_mem p hc) he
  · rw [List.append_assoc, List.append_assoc]
    refine List.nodup_append.mpr ⟨hnodup, by rw [← List.append_assoc]; exact howners.2, ?_⟩
    rintro c hc c' hc' rfl
    rw [← List.append_assoc] at hc'
    exact hdisjoint c hc (List.mem_cons_of_mem p hc')
  · intro q hq
    rw [List.length_set]
    rw [List.append_assoc] at hq
    rcases List.mem_append.mp hq with hq | hq
    · obtain ⟨pos, he⟩ := hchild q hq
      exact h.target he
    · exact h.inside q (List.mem_cons_of_mem p hq)
  · intro q hq
    obtain ⟨m, hm, hrecycled⟩ := h.clear q hq
    have hpq : p ≠ q := by
      rintro rfl
      exact howners.1 (List.mem_append_right _ hq)
    exact ⟨m, by rw [Heap.content_set_ne hpq]; exact hm, hrecycled⟩
  · intro hmem
    rw [List.append_assoc, List.append_assoc] at hmem
    rcases List.mem_append.mp hmem with hmem | hmem
    · exact hpcs hmem
    · rw [← List.append_assoc] at hmem
      exact howners.1 hmem
  · intro q pos he
    exact h.unowned (List.mem_cons_self ..) (hback he).2

/-- A root is given back. -/
theorem Owned.release (h : Owned heap (p :: roots) pending) (hp : heap.content p = some n) :
    Owned (heap.set p .free) roots pending := by
  have hroots : Owned heap (p :: [] ++ roots) pending := h
  have hchildren : ∀ c ∈ ([] : List Nat), ∃ pos, n.Points pos c := by simp
  apply (hroots.discard hp hchildren List.nodup_nil _).1
  intro pos c
  apply not_edge_of_none
  rw [Heap.content_set_self (Heap.content_lt hp)]
  rfl

/-- A clear node is put into the pool. -/
theorem Owned.push (h : Owned heap roots pending) (hp : p ∉ roots ++ pending)
    (hedge : ∀ q pos, ¬ Edge heap q pos p) (hn : heap.content p = some n) (hclear : n.Recycled) :
    Owned heap roots (p :: pending) := by
  have hperm : (roots ++ p :: pending).Perm (p :: (roots ++ pending)) := List.perm_middle
  refine ⟨h.null, h.target, h.unique, ?_, ?_, h.inside, ?_⟩
  · intro q pos c hc
    rcases List.mem_cons.mp (hperm.mem_iff.mp hc) with rfl | hc
    · exact hedge q pos
    · exact h.unowned hc
  · exact hperm.nodup_iff.mpr (List.nodup_cons.mpr ⟨hp, h.nodup⟩)
  · intro q hq
    rcases List.mem_cons.mp hq with rfl | hq
    · exact ⟨n, hn, hclear⟩
    · exact h.clear q hq

/-- A node is taken out of the pool. -/
theorem Owned.pop (h : Owned heap roots (p :: pending)) : Owned heap (p :: roots) pending := by
  have hperm : (roots ++ p :: pending).Perm (p :: (roots ++ pending)) := List.perm_middle
  refine ⟨h.null, h.target, h.unique, ?_, ?_, ?_, ?_⟩
  · intro q pos c hc
    exact h.unowned (hperm.mem_iff.mpr hc)
  · exact hperm.nodup_iff.mp h.nodup
  · intro q hq
    rcases List.mem_cons.mp hq with rfl | hq
    · exact h.pending_lt (List.mem_cons_self ..)
    · exact h.inside q hq
  · intro q hq
    exact h.clear q (List.mem_cons_of_mem p hq)

/-! ## Destroying a tree -/

/-- The children of a node are pushed once. -/
theorem pushChildren_returns {stack' : List Nat} (h : (pushChildren n stack).Returns stack')
    (hinj : ∀ pos pos' c, n.Points pos c → n.Points pos' c → pos = pos') :
    ∃ cs, stack' = cs ++ stack ∧ (∀ c ∈ cs, ∃ pos, n.Points pos c) ∧ cs.Nodup := by
  have hloop := Returns.forRange_keeps (fun i (s : List Nat) =>
    ∃ cs, s = cs ++ stack ∧ (∀ c ∈ cs, ∃ pos < i, n.Points pos c) ∧ cs.Nodup) h
    ⟨[], rfl, by simp, List.nodup_nil⟩ ?_
  · obtain ⟨cs, hs, hcs, hnodup⟩ := hloop
    refine ⟨cs, hs, ?_, hnodup⟩
    intro c hc
    obtain ⟨pos, _, hpoints⟩ := hcs c hc
    exact ⟨pos, hpoints⟩
  · rintro i s s' hi ⟨cs, rfl, hcs, hnodup⟩ hbody
    have hmono : ∀ c ∈ cs, ∃ pos < i + 1, n.Points pos c := by
      intro c hc
      obtain ⟨pos, hpos, hpoints⟩ := hcs c hc
      exact ⟨pos, hpos.trans (Nat.lt_succ_self i), hpoints⟩
    obtain ⟨b, hb, hbody⟩ := returns_bind.mp hbody
    cases b with
    | false =>
        cases returns_pure.mp hbody
        exact ⟨cs, rfl, hmono, hnodup⟩
    | true =>
        obtain ⟨item, hitem, hbody⟩ := returns_bind.mp hbody
        obtain ⟨c, hc, hbody⟩ := returns_bind.mp hbody
        cases returns_pure.mp hbody
        have hpoints : n.Points i c := by
          refine ⟨hi, Bitmap.returns_get.mp hb, ?_⟩
          rw [returns_read.mp hitem]
          have hget := returns_ofOption.mp hc
          cases item with
          | raw => cases hget
          | data => cases hget
          | child ptr =>
              cases hget
              rfl
        refine ⟨c :: cs, rfl, ?_, List.nodup_cons.mpr ⟨?_, hnodup⟩⟩
        · intro c' hc'
          rcases List.mem_cons.mp hc' with rfl | hc'
          · exact ⟨i, Nat.lt_succ_self i, hpoints⟩
          · exact hmono c' hc'
        · intro hmem
          obtain ⟨pos, hpos, hpoints'⟩ := hcs c hmem
          exact absurd (hinj _ _ _ hpoints' hpoints) hpos.ne

/-- The bits of a first byte that was written. -/
theorem bit_write_zero {b b' : Bitmap} {byte : BitVec 8} (h : (write b 0 byte).Returns b')
    (hpos : pos < 8) : b'.bit pos = some (byte.getLsbD pos) := by
  obtain ⟨hlt, rfl⟩ := returns_write.mp h
  rw [Bitmap.bit, Nat.div_eq_of_lt hpos, Nat.mod_eq_of_lt hpos, List.getElem?_set_self hlt,
    Option.map_some]

/-- A node for two keys becomes clear, any other one is given back. -/
theorem recycle_returns {st st' : Store K V} (h : (recycle p n st).Returns st') :
    (∃ n' : Node K V, n'.Recycled ∧
      st' = ⟨st.heap.set p (.object n'), p :: st.pendingTwo⟩) ∨
      st' = { st with heap := st.heap.set p .free } := by
  rw [recycle] at h
  split at h
  · rename_i htwo
    obtain ⟨_, h⟩ := returns_assert_bind.mp h
    obtain ⟨hitems, h⟩ := returns_assert_bind.mp h
    obtain ⟨noneBitmap, hnone, h⟩ := returns_bind.mp h
    obtain ⟨childBitmap, hchild, h⟩ := returns_bind.mp h
    obtain ⟨heap, hheap, h⟩ := returns_bind.mp h
    obtain ⟨_, rfl⟩ := Heap.returns_put.mp hheap
    cases returns_pure.mp h
    have hitems := of_decide_eq_true hitems
    refine Or.inl ⟨_, ⟨?_, ?_, ?_, ?_⟩, rfl⟩
    · exact htwo
    · rfl
    · exact hitems
    intro pos hpos
    have hlt : pos < 8 := hitems ▸ hpos
    refine Node.entry_none_iff.mpr ⟨?_, ?_⟩
    · rw [bit_write_zero hnone hlt]
      congr 1
      interval_cases pos <;> rfl
    · rw [bit_write_zero hchild hlt, BitVec.getLsbD_zero]
  · obtain ⟨heap, hheap, h⟩ := returns_bind.mp h
    cases returns_pure.mp h
    exact Or.inr (by rw [(Heap.returns_release.mp hheap).2])

/-- A turn of the loop keeps every node owned. -/
theorem destroyNode_owned {s s' : Store K V × List Nat}
    (h : Owned s.1.heap (s.2 ++ roots) s.1.pendingTwo) (hbody : (destroyNode s).Returns s') :
    Owned s'.1.heap (s'.2 ++ roots) s'.1.pendingTwo := by
  obtain ⟨st, stack⟩ := s
  cases stack with
  | nil =>
      cases returns_pure.mp hbody
      exact h
  | cons p stack =>
      obtain ⟨n, hn, hbody⟩ := returns_bind.mp hbody
      obtain ⟨stack', hstack, hbody⟩ := returns_bind.mp hbody
      obtain ⟨st', hst, hbody⟩ := returns_bind.mp hbody
      cases returns_pure.mp hbody
      have hn := Heap.returns_get.mp hn
      obtain ⟨cs, rfl, hcs, hnodup⟩ := pushChildren_returns hstack fun pos pos' c hpos hpos' =>
        (h.unique ⟨n, hn, hpos⟩ ⟨n, hn, hpos'⟩).2
      have hlt := Heap.content_lt hn
      rcases recycle_returns hst with ⟨n', hclear, rfl⟩ | rfl
      · have hself : Heap.content (st.heap.set p (.object n')) p = some n' :=
          Heap.content_set_self hlt
        obtain ⟨howned, hmem, hedge⟩ := h.discard hn hcs hnodup fun pos c he =>
          hclear.not_points ((edge_of_content hself).mp he)
        exact howned.push hmem hedge hself hclear
      · exact (h.discard hn hcs hnodup fun pos c =>
          not_edge_of_none (by rw [Heap.content_set_self hlt]; rfl)).1

/-- Destroying a tree keeps every other node owned, and the pool clear. -/
theorem destroyTree_owned {root : Nat} {st st' : Store K V}
    (h : Owned st.heap (root :: roots) st.pendingTwo) (hrun : (destroyTree root st).Returns st') :
    Owned st'.heap roots st'.pendingTwo := by
  obtain ⟨s, hloop, hend⟩ := returns_bind.mp hrun
  cases returns_pure.mp hend
  obtain ⟨howned, hempty⟩ := Returns.whileM_inv
    (P := fun s : Store K V × List Nat => Owned s.1.heap (s.2 ++ roots) s.1.pendingTwo)
    (fun s s' hs _ hbody => destroyNode_owned hs hbody) h hloop
  have hnil : s.2 = [] := by simpa using returns_pure.mp hempty
  rw [hnil] at howned
  exact howned

end LIPP
