import PrefetchBench.BTree.Tree

/-!
# What the invariants say of the entries

A subtree that passes `verify_node` has its entries in order and between its smallest and its
largest key (`VerifyNode.bounds`).  So the child that the lower bound of a key selects holds the
first entry at or above that key (`VerifyNode.seek_child`): the children before it end below the
key, and the child itself, unless it is the last one, ends at or above it.  A descent that takes
this child at every level keeps `OnPath`, and at the leaf the slot it looks at decides the lookup
of the whole tree (`OnPath.lookup_leaf`).
-/

namespace BTree

open Prog KeyArray

variable {K D : Type}

/-! ## Entries of leaves and of inner nodes -/

theorem LeafNode.getElem?_entries {n : LeafNode K D} {l i : Nat} {e : K × D}
    (hi : i < n.slotuse) :
    ((Node.leaf n).entries l)[i]? = some e ↔
      n.slotkey[i]? = some e.1 ∧ n.slotdata[i]? = some e.2 := by
  cases l <;> rw [Node.entries, List.getElem?_take_of_lt hi, List.getElem?_zip_eq_some]

theorem InnerNode.mem_entries {n : InnerNode K (Node K D)} {l : Nat} {e : K × D} :
    e ∈ (Node.inner n).entries (l + 1) ↔
      ∃ slot < n.slotuse + 1, ∃ c ∈ n.childid[slot]?, e ∈ c.entries l := by
  simp only [Node.entries, List.mem_flatMap, List.mem_take_iff_getElem]
  constructor
  · rintro ⟨c, ⟨slot, hslot, rfl⟩, he⟩
    exact ⟨slot, by omega, _, List.getElem?_eq_getElem (by omega), he⟩
  · rintro ⟨slot, hslot, c, hc, he⟩
    obtain ⟨hlt, rfl⟩ := List.getElem?_eq_some_iff.mp hc
    exact ⟨_, ⟨slot, by omega, rfl⟩, he⟩

variable [LinearOrder K] {tr : Traits}

theorem LeafNode.length_entries {n : LeafNode K D} (h : n.Verified tr) (l : Nat) :
    ((Node.leaf n).entries l).length = n.slotuse := by
  have hk := h.sorted.le_length
  have hd := h.data_le
  cases l <;> simp only [Node.entries, List.length_take, List.length_zip] <;> omega

/-! ## Bounds and order -/

/-- The entries of a subtree are in order, between its smallest and its largest key. -/
structure Bounded (l : Nat) (n : Node K D) (mn mx : K) : Prop where
  /-- The smallest key. -/
  min_eq : n.minkey l = some mn
  /-- The largest key. -/
  max_eq : n.maxkey l = some mx
  /-- No entry is below the smallest key. -/
  min_le : ∀ e ∈ n.entries l, mn ≤ e.1
  /-- No entry is above the largest key. -/
  le_max : ∀ e ∈ n.entries l, e.1 ≤ mx
  /-- The smallest key is the key of an entry. -/
  min_mem : ∃ e ∈ n.entries l, e.1 = mn
  /-- The largest key is the key of an entry. -/
  max_mem : ∃ e ∈ n.entries l, e.1 = mx
  /-- The entries do not decrease. -/
  sorted : (n.entries l).Pairwise fun a b => a.1 ≤ b.1

theorem LeafNode.Verified.bounds {n : LeafNode K D} (h : n.Verified tr) :
    ∃ mn mx, Bounded 0 (.leaf n) mn mx := by
  have hlen := LeafNode.length_entries h 0
  have hpos := h.slotuse_pos
  have hget : ∀ i (hi : i < ((Node.leaf n).entries 0).length),
      n.slotkey[i]? = some ((Node.leaf n).entries 0)[i].1 := fun i hi =>
    ((LeafNode.getElem?_entries (by omega)).mp (List.getElem?_eq_getElem hi)).1
  have hle : ∀ i j (hi : i < ((Node.leaf n).entries 0).length)
      (hj : j < ((Node.leaf n).entries 0).length), i ≤ j →
      ((Node.leaf n).entries 0)[i].1 ≤ ((Node.leaf n).entries 0)[j].1 := fun i j hi hj hij =>
    h.sorted.le hij (by omega) (hget i hi) (hget j hj)
  refine ⟨((Node.leaf n).entries 0)[0].1, ((Node.leaf n).entries 0)[n.slotuse - 1].1,
    ?_, ?_, ?_, ?_, ?_, ?_, ?_⟩
  · exact hget 0 (by omega)
  · exact hget (n.slotuse - 1) (by omega)
  · intro e he
    obtain ⟨i, hi, rfl⟩ := List.getElem_of_mem he
    exact hle 0 i (by omega) hi (Nat.zero_le i)
  · intro e he
    obtain ⟨i, hi, rfl⟩ := List.getElem_of_mem he
    exact hle i (n.slotuse - 1) hi (by omega) (by omega)
  · exact ⟨_, List.getElem_mem _, rfl⟩
  · exact ⟨_, List.getElem_mem _, rfl⟩
  · exact List.pairwise_iff_getElem.mpr fun i j hi hj hij => hle i j hi hj (Nat.le_of_lt hij)

/-- The children of a verified inner node, with their bounds. -/
theorem InnerNode.Verified.child {n : InnerNode K (Node K D)} {l : Nat} {Sub : Node K D → Prop}
    (h : n.Verified tr l Sub) (hb : ∀ c, Sub c → ∃ mn mx, Bounded l c mn mx) (slot : Nat)
    (hslot : slot < n.slotuse + 1) :
    ∃ c mn mx, n.childid[slot]? = some c ∧ Sub c ∧ Bounded l c mn mx ∧
      (0 < slot → ∀ x, n.slotkey[slot - 1]? = some x → x ≤ mn) ∧
      (slot < n.slotuse → n.slotkey[slot]? = some mx) := by
  obtain ⟨c, hc, hsub, hv⟩ := h.children slot hslot
  obtain ⟨mn, mx, hbd⟩ := hb c hsub
  exact ⟨c, mn, mx, hc, hsub, hbd, fun hpos x hx => hv.min_ge hpos x hx mn hbd.min_eq,
    fun hlt => (hv.max_eq hlt).trans hbd.max_eq⟩

/-- Every key of a child is at most every key of a later child. -/
theorem InnerNode.Verified.child_le {n : InnerNode K (Node K D)} {l : Nat}
    {Sub : Node K D → Prop} (h : n.Verified tr l Sub)
    (hb : ∀ c, Sub c → ∃ mn mx, Bounded l c mn mx) {i j : Nat} (hij : i < j)
    (hj : j < n.slotuse + 1) {c d : Node K D} {mx mn : K} (hc : n.childid[i]? = some c)
    (hd : n.childid[j]? = some d) (hmx : c.maxkey l = some mx) (hmn : d.minkey l = some mn) :
    mx ≤ mn := by
  obtain ⟨c', mnc, mxc, hc', _, hbc, _, hkc⟩ := h.child hb i (by omega)
  obtain ⟨d', mnd, mxd, hd', _, hbd, hkd, _⟩ := h.child hb j hj
  cases hc.symm.trans hc'
  cases hd.symm.trans hd'
  cases hmx.symm.trans hbc.max_eq
  cases hmn.symm.trans hbd.min_eq
  have hlen := h.sorted.le_length
  obtain ⟨x, hx⟩ := exists_getElem? n.slotkey (i := j - 1) (by omega)
  have h1 : mx ≤ x := h.sorted.le (by omega) (by omega) (hkc (by omega)) hx
  exact h1.trans (hkd (by omega) x hx)

theorem InnerNode.Verified.bounds {n : InnerNode K (Node K D)} {l : Nat} {Sub : Node K D → Prop}
    (h : n.Verified tr l Sub) (hb : ∀ c, Sub c → ∃ mn mx, Bounded l c mn mx) :
    ∃ mn mx, Bounded (l + 1) (.inner n) mn mx := by
  obtain ⟨c₀, mn, mx₀, hc₀, _, hb₀, _, _⟩ := h.child hb 0 (by omega)
  obtain ⟨c₁, mn₁, mx, hc₁, _, hb₁, _, _⟩ := h.child hb n.slotuse (by omega)
  have hmem : ∀ e ∈ (Node.inner n).entries (l + 1), ∃ slot c mnc mxc, slot < n.slotuse + 1 ∧
      n.childid[slot]? = some c ∧ Bounded l c mnc mxc ∧ e ∈ c.entries l := by
    intro e he
    obtain ⟨slot, hslot, c, hc, hec⟩ := InnerNode.mem_entries.mp he
    obtain ⟨c', mnc, mxc, hc', _, hbc, _⟩ := h.child hb slot hslot
    cases Option.some.inj (hc'.symm.trans hc)
    exact ⟨slot, _, mnc, mxc, hslot, hc, hbc, hec⟩
  refine ⟨mn, mx, ?_, ?_, ?_, ?_, ?_, ?_, ?_⟩
  · rw [Node.minkey, hc₀]
    exact hb₀.min_eq
  · rw [Node.maxkey, hc₁]
    exact hb₁.max_eq
  · intro e he
    obtain ⟨slot, c, mnc, mxc, hslot, hc, hbc, hec⟩ := hmem e he
    rcases Nat.eq_zero_or_pos slot with rfl | hpos
    · cases hc.symm.trans hc₀
      exact hb₀.min_le e hec
    · obtain ⟨e₀, he₀, rfl⟩ := hb₀.min_mem
      exact (hb₀.le_max e₀ he₀).trans
        ((h.child_le hb hpos hslot hc₀ hc hb₀.max_eq hbc.min_eq).trans (hbc.min_le e hec))
  · intro e he
    obtain ⟨slot, c, mnc, mxc, hslot, hc, hbc, hec⟩ := hmem e he
    rcases Nat.eq_or_lt_of_le (Nat.le_of_lt_succ hslot) with rfl | hlt
    · cases hc.symm.trans hc₁
      exact hb₁.le_max e hec
    · obtain ⟨e₁, he₁, rfl⟩ := hb₁.max_mem
      exact (hbc.le_max e hec).trans
        ((h.child_le hb hlt (by omega) hc hc₁ hbc.max_eq hb₁.min_eq).trans (hb₁.min_le e₁ he₁))
  · obtain ⟨e, he, hk⟩ := hb₀.min_mem
    exact ⟨e, InnerNode.mem_entries.mpr ⟨0, by omega, c₀, hc₀, he⟩, hk⟩
  · obtain ⟨e, he, hk⟩ := hb₁.max_mem
    exact ⟨e, InnerNode.mem_entries.mpr ⟨n.slotuse, by omega, c₁, hc₁, he⟩, hk⟩
  · rw [Node.entries, List.pairwise_flatMap]
    constructor
    · intro c hc
      obtain ⟨slot, hslot, rfl⟩ := List.mem_take_iff_getElem.mp hc
      obtain ⟨c', _, _, hc', _, hbc, _⟩ := h.child hb slot (by omega)
      rw [List.getElem?_eq_getElem (by omega)] at hc'
      cases hc'
      exact hbc.sorted
    · refine List.pairwise_iff_getElem.mpr fun i j hi hj hij x hx y hy => ?_
      rw [List.getElem_take] at hx hy
      simp only [List.length_take] at hi hj
      have hci := List.getElem?_eq_getElem (l := n.childid) (i := i) (by omega)
      have hcj := List.getElem?_eq_getElem (l := n.childid) (i := j) (by omega)
      obtain ⟨c, mnc, mxc, hc, _, hbc, _⟩ := h.child hb i (by omega)
      obtain ⟨d, mnd, mxd, hd, _, hbd, _⟩ := h.child hb j (by omega)
      cases Option.some.inj (hci.symm.trans hc)
      cases Option.some.inj (hcj.symm.trans hd)
      exact (hbc.le_max x hx).trans
        ((h.child_le hb hij (by omega) hc hd hbc.max_eq hbd.min_eq).trans (hbd.min_le y hy))

/-- The entries of a verified subtree are in order and within its bounds. -/
theorem VerifyNode.bounds : ∀ {l : Nat} {n : Node K D}, VerifyNode tr l n →
    ∃ mn mx, Bounded l n mn mx
  | 0, .leaf _, h => LeafNode.Verified.bounds h
  | _ + 1, .inner _, h => InnerNode.Verified.bounds h fun _ hc => VerifyNode.bounds hc
  | 0, .inner _, h => h.elim
  | _ + 1, .leaf _, h => h.elim

theorem VerifyNode.sorted {l : Nat} {n : Node K D} (h : VerifyNode tr l n) :
    (n.entries l).Pairwise fun a b => a.1 ≤ b.1 := by
  obtain ⟨_, _, hb⟩ := h.bounds
  exact hb.sorted

theorem VerifyNode.level_eq : ∀ {l : Nat} {n : Node K D}, VerifyNode tr l n → n.level = l
  | 0, .leaf _, h => LeafNode.Verified.level_eq h
  | _ + 1, .inner _, h => InnerNode.Verified.level_eq h
  | 0, .inner _, h => h.elim
  | _ + 1, .leaf _, h => h.elim

/-! ## The search path -/

/-- The first entry at or above a key. -/
def Node.seek (l : Nat) (n : Node K D) (key : K) : Option (K × D) :=
  (n.entries l).find? fun e => decide (key ≤ e.1)

/-- The child that the lower bound of `key` selects. -/
def InnerNode.route (n : InnerNode K (Node K D)) (key : K) : Option (Node K D) :=
  n.childid[lowerBound n.slotkey key n.slotuse]?

theorem find?_flatMap_of_left {α β : Type} {f : α → List β} {p : β → Bool} :
    ∀ (xs : List α) (c : α) (ys : List α), (∀ a ∈ xs, ∀ b ∈ f a, p b = false) →
      (ys ≠ [] → ∃ b ∈ f c, p b = true) →
      ((xs ++ c :: ys).flatMap f).find? p = (f c).find? p
  | [], c, ys, _, hc => by
      rw [List.nil_append, List.flatMap_cons, List.find?_append]
      by_cases hys : ys = []
      · simp [hys]
      · obtain ⟨b, hb, hp⟩ := hc hys
        obtain ⟨b', hb'⟩ := Option.isSome_iff_exists.mp (List.find?_isSome.mpr ⟨b, hb, hp⟩)
        rw [hb']
        rfl
  | a :: xs, c, ys, hxs, hc => by
      rw [List.cons_append, List.flatMap_cons, List.find?_append,
        List.find?_eq_none.mpr (fun b hb => by simp [hxs a (List.mem_cons_self ..) b hb])]
      exact find?_flatMap_of_left xs c ys (fun a ha => hxs a (List.mem_cons_of_mem _ ha)) hc

/-- The routed child is verified and has the first entry at or above the key. -/
theorem VerifyNode.seek_child {l : Nat} {n : InnerNode K (Node K D)}
    (h : VerifyNode tr (l + 1) (.inner n)) (key : K) :
    ∃ c, n.route key = some c ∧ VerifyNode tr l c ∧
      c.seek l key = (Node.inner n).seek (l + 1) key := by
  have h' : n.Verified tr l (VerifyNode tr l) := h
  have hle := lowerBound_le n.slotkey key n.slotuse
  have hlen := h'.sorted.le_length
  have hb : ∀ c : Node K D, VerifyNode tr l c → ∃ mn mx, Bounded l c mn mx :=
    fun _ hc => VerifyNode.bounds hc
  obtain ⟨c, mn, mx, hc, hv, hbc, _, hmax⟩ :=
    h'.child hb (lowerBound n.slotkey key n.slotuse) (by omega)
  refine ⟨c, hc, hv, ?_⟩
  obtain ⟨hlt, hget⟩ := List.getElem?_eq_some_iff.mp hc
  have hsplit : n.childid.take (n.slotuse + 1) =
      n.childid.take (lowerBound n.slotkey key n.slotuse) ++
        c :: (n.childid.drop (lowerBound n.slotkey key n.slotuse + 1)).take
          (n.slotuse - lowerBound n.slotkey key n.slotuse) := by
    conv_lhs => rw [show n.slotuse + 1 = lowerBound n.slotkey key n.slotuse + 1 +
      (n.slotuse - lowerBound n.slotkey key n.slotuse) by omega]
    rw [List.take_add, List.take_succ_eq_append_getElem hlt, hget]
    simp
  rw [Node.seek, Node.seek, Node.entries, hsplit]
  refine (find?_flatMap_of_left _ _ _ (fun a ha e he => ?_) fun hne => ?_).symm
  · obtain ⟨i, hi, rfl⟩ := List.mem_take_iff_getElem.mp ha
    obtain ⟨c', _, mx', hc', _, hbc', _, hmax'⟩ := h'.child hb i (by omega)
    rw [List.getElem?_eq_getElem (by omega)] at hc'
    cases hc'
    have hlt' : i < lowerBound n.slotkey key n.slotuse := by omega
    have hx := lt_of_lt_lowerBound hlt' (hmax' (by omega))
    simpa using (hbc'.le_max e he).trans_lt hx
  · by_cases hlt' : lowerBound n.slotkey key n.slotuse < n.slotuse
    · obtain ⟨e, he, hk⟩ := hbc.max_mem
      refine ⟨e, he, ?_⟩
      rw [decide_eq_true_iff, hk]
      exact le_of_lowerBound hlt' (hmax hlt')
    · simp [show n.slotuse - lowerBound n.slotkey key n.slotuse = 0 by omega] at hne

/-- At a leaf the first entry at or above a key is in the slot of its lower bound. -/
theorem LeafNode.Verified.seek {n : LeafNode K D} (h : n.Verified tr) (key : K) :
    (lowerBound n.slotkey key n.slotuse = n.slotuse ∧ (Node.leaf n).seek 0 key = none) ∨
    (lowerBound n.slotkey key n.slotuse < n.slotuse ∧
      ∃ e, n.slotkey[lowerBound n.slotkey key n.slotuse]? = some e.1 ∧
        n.slotdata[lowerBound n.slotkey key n.slotuse]? = some e.2 ∧
        (Node.leaf n).seek 0 key = some e) := by
  have hlen := LeafNode.length_entries h 0
  have hle := lowerBound_le n.slotkey key n.slotuse
  have hbelow : ∀ i (hi : i < ((Node.leaf n).entries 0).length),
      i < lowerBound n.slotkey key n.slotuse → ((Node.leaf n).entries 0)[i].1 < key := by
    intro i hi hlt
    have hget := List.getElem?_eq_getElem hi
    rw [LeafNode.getElem?_entries (by omega)] at hget
    exact lt_of_lt_lowerBound hlt hget.1
  rcases Nat.eq_or_lt_of_le hle with heq | hlt
  · refine Or.inl ⟨heq, List.find?_eq_none.mpr fun e he => ?_⟩
    obtain ⟨i, hi, rfl⟩ := List.getElem_of_mem he
    simpa using hbelow i hi (by omega)
  · refine Or.inr ⟨hlt, ?_⟩
    have hi : lowerBound n.slotkey key n.slotuse < ((Node.leaf n).entries 0).length := by omega
    have hget := List.getElem?_eq_getElem hi
    have hpair := (LeafNode.getElem?_entries hlt).mp hget
    refine ⟨_, hpair.1, hpair.2, ?_⟩
    rw [Node.seek, List.find?_eq_some_iff_getElem]
    refine ⟨?_, _, hi, rfl, fun j hj => ?_⟩
    · rw [decide_eq_true_iff]
      exact le_of_lowerBound hlt hpair.1
    · simpa using hbelow j (by omega) hj

/-- In order, the first entry with a key is the first one at or above it, if that has the key. -/
theorem find?_eq_seek {es : List (K × D)} (h : es.Pairwise fun a b => a.1 ≤ b.1) (key : K) :
    (es.find? fun e => e.1 == key) =
      (es.find? fun e => decide (key ≤ e.1)).filter fun e => e.1 == key := by
  induction es with
  | nil => rfl
  | cons e es ih =>
      obtain ⟨hhead, htail⟩ := List.pairwise_cons.mp h
      rcases lt_trichotomy e.1 key with hlt | heq | hgt
      · rw [List.find?_cons_of_neg (by simpa using hlt.ne),
          List.find?_cons_of_neg (by simpa using hlt), ih htail]
      · rw [List.find?_cons_of_pos (by simpa using heq),
          List.find?_cons_of_pos (by simpa using heq.ge)]
        simp [Option.filter, heq]
      · rw [List.find?_cons_of_neg (by simpa using hgt.ne'),
          List.find?_cons_of_pos (by simpa using hgt.le)]
        have : (es.find? fun e => e.1 == key) = none := List.find?_eq_none.mpr fun e' he' => by
          simpa using (hgt.trans_le (hhead e' he')).ne'
        rw [this]
        simp [Option.filter, hgt.ne']

/-- `n` is the node on level `l` of the search path of `key` from `root`. -/
inductive OnPath (tr : Traits) (root : Node K D) (key : K) : Nat → Node K D → Prop where
  | root : OnPath tr root key root.level root
  | child {l : Nat} {n : InnerNode K (Node K D)} {c : Node K D} :
      OnPath tr root key (l + 1) (.inner n) → n.route key = some c → OnPath tr root key l c

/-- The nodes of a search path are verified and have the first entry at or above the key. -/
theorem OnPath.spec {root : Node K D} {key : K} (hroot : VerifyNode tr root.level root)
    {l : Nat} {n : Node K D} (h : OnPath tr root key l n) :
    VerifyNode tr l n ∧ n.seek l key = root.seek root.level key := by
  induction h with
  | root => exact ⟨hroot, rfl⟩
  | child _ hc ih =>
      obtain ⟨c', hc', hv, hs⟩ := ih.1.seek_child key
      cases hc.symm.trans hc'
      exact ⟨hv, hs.trans ih.2⟩

theorem OnPath.level_eq {root : Node K D} {key : K} (hroot : VerifyNode tr root.level root)
    {l : Nat} {n : Node K D} (h : OnPath tr root key l n) : n.level = l :=
  (h.spec hroot).1.level_eq

/-- Above level 0 the node is an inner node, and its routed child is the next node. -/
theorem OnPath.inner {root : Node K D} {key : K} (hroot : VerifyNode tr root.level root)
    {l : Nat} {n : Node K D} (h : OnPath tr root key (l + 1) n) :
    ∃ m c, n = .inner m ∧ m.Verified tr l (VerifyNode tr l) ∧ m.route key = some c ∧
      OnPath tr root key l c := by
  have hv := (h.spec hroot).1
  cases n with
  | leaf m => exact hv.elim
  | inner m =>
      obtain ⟨c, hc, _⟩ := hv.seek_child key
      exact ⟨m, c, rfl, hv, hc, .child h hc⟩

/-- On level 0 it is a leaf, and the slot of the lower bound there decides the lookup. -/
theorem OnPath.lookup_leaf {t : Tree K D} {root : Node K D} {key : K} (ht : t.root = some root)
    (hroot : VerifyNode tr root.level root) {n : Node K D} (h : OnPath tr root key 0 n) :
    ∃ m : LeafNode K D, n = .leaf m ∧ m.Verified tr ∧
      ((lowerBound m.slotkey key m.slotuse = m.slotuse ∧ t.lookup key = none) ∨
        ∃ x d, lowerBound m.slotkey key m.slotuse < m.slotuse ∧
          m.slotkey[lowerBound m.slotkey key m.slotuse]? = some x ∧
          m.slotdata[lowerBound m.slotkey key m.slotuse]? = some d ∧
          t.lookup key = if key = x then some d else none) := by
  obtain ⟨hv, hs⟩ := h.spec hroot
  have hlookup : t.lookup key =
      ((n.seek 0 key).filter fun e => e.1 == key).map Prod.snd := by
    rw [hs, Tree.lookup, Tree.entries, ht]
    simp only
    rw [find?_eq_seek hroot.sorted key]
    rfl
  cases n with
  | inner m => exact hv.elim
  | leaf m =>
      have hm : m.Verified tr := hv
      refine ⟨m, rfl, hm, ?_⟩
      obtain ⟨heq, hnone⟩ | ⟨hlt, e, hk, hd, hsome⟩ := hm.seek key
      · exact Or.inl ⟨heq, by rw [hlookup, hnone]; rfl⟩
      · refine Or.inr ⟨e.1, e.2, hlt, hk, hd, ?_⟩
        rw [hlookup, hsome]
        by_cases hke : key = e.1
        · simp [hke]
        · simp [hke, Ne.symm hke]

end BTree
