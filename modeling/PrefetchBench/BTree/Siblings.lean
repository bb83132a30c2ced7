import PrefetchBench.BTree.Invariant
import PrefetchBench.Ordered.Entries

/-!
# Children and the keys between them

What `verify_node` asserts of an inner node, seen as a property of two sequences: the keys in use
and the children in use (`Siblings`).  The entries of all children are in order, and each key is the
last key of its child.  The bounds between a key and the next child, and the order of the keys, then
follow (`InnerNode.verified_iff`).

Cutting the children at a key leaves two such pairs of sequences (`Siblings.cut`).  A child may be
replaced by one or by two nodes that have the entries of the child and a new one
(`Siblings.update`, `Siblings.replace`).
-/

namespace BTree

open Prog KeyArray Ordered

variable {K D : Type} {l : Nat}

/-! ## Entries of a sequence of nodes -/

/-- The entries of all nodes of a sequence on level `l`. -/
def entriesOf (l : Nat) (children : List (Node K D)) : List (K × D) :=
  children.flatMap (Node.entries l)

@[simp] theorem entriesOf_nil (l : Nat) : entriesOf l ([] : List (Node K D)) = [] := rfl

theorem entriesOf_append (l : Nat) (xs ys : List (Node K D)) :
    entriesOf l (xs ++ ys) = entriesOf l xs ++ entriesOf l ys := List.flatMap_append ..

theorem entriesOf_cons (l : Nat) (c : Node K D) (cs : List (Node K D)) :
    entriesOf l (c :: cs) = c.entries l ++ entriesOf l cs := List.flatMap_cons ..

theorem mem_entriesOf {e : K × D} {children : List (Node K D)} :
    e ∈ entriesOf l children ↔ ∃ c ∈ children, e ∈ c.entries l := List.mem_flatMap

variable [LinearOrder K] {tr : Traits}

/-- The keys of a child are at most those of a later one. -/
theorem le_of_sorted {children : List (Node K D)} (h : Sorted (entriesOf l children)) {i j : Nat}
    (hij : i < j) {c d : Node K D} (hc : children[i]? = some c) (hd : children[j]? = some d)
    {a b : K × D} (ha : a ∈ c.entries l) (hb : b ∈ d.entries l) : a.1 ≤ b.1 := by
  have hpair := (List.pairwise_flatMap.mp h).2
  obtain ⟨hi, rfl⟩ := List.getElem?_eq_some_iff.mp hc
  obtain ⟨hj, rfl⟩ := List.getElem?_eq_some_iff.mp hd
  exact List.pairwise_iff_getElem.mp hpair i j hi hj hij a ha b hb

/-! ## First and last entries -/

namespace VerifyNode

variable {n : Node K D}

theorem entries_ne_nil (h : VerifyNode tr l n) : n.entries l ≠ [] := by
  obtain ⟨mn, mx, hb⟩ := h.bounds
  obtain ⟨e, he, _⟩ := hb.min_mem
  exact List.ne_nil_of_mem he

theorem maxkey_eq (h : VerifyNode tr l n) :
    n.maxkey l = (n.entries l).getLast?.map Prod.fst := by
  obtain ⟨mn, mx, hb⟩ := h.bounds
  obtain ⟨e, he, hmx⟩ := hb.max_mem
  have hlast := List.getLast?_eq_some_getLast h.entries_ne_nil
  rw [hb.max_eq, hlast, Option.map_some]
  congr 1
  apply le_antisymm
  · rw [← hmx]
    exact Sorted.le_getLast hb.sorted hlast he
  · exact hb.le_max _ (List.getLast_mem h.entries_ne_nil)

theorem minkey_eq (h : VerifyNode tr l n) : n.minkey l = (n.entries l).head?.map Prod.fst := by
  obtain ⟨mn, mx, hb⟩ := h.bounds
  obtain ⟨e, he, hmn⟩ := hb.min_mem
  have hhead := List.head?_eq_some_head h.entries_ne_nil
  rw [hb.min_eq, hhead, Option.map_some]
  congr 1
  apply le_antisymm
  · exact hb.min_le _ (List.head_mem h.entries_ne_nil)
  · rw [← hmn]
    exact Sorted.head_le hb.sorted hhead he

end VerifyNode

/-! ## Keys between children -/

/-- What `verify_node` asserts of the keys and the children in use of an inner node on level
`l + 1`. -/
structure Siblings (tr : Traits) (l : Nat) (keys : List K) (children : List (Node K D)) : Prop where
  /-- Every child is as it should be. -/
  verified : ∀ c ∈ children, VerifyNode tr l c
  /-- There is one more child than keys. -/
  length_eq : children.length = keys.length + 1
  /-- A key is the largest key of its child. -/
  key_eq : ∀ (i : Nat) (k : K) (c : Node K D), keys[i]? = some k → children[i]? = some c →
    c.maxkey l = some k
  /-- The entries are in order. -/
  sorted : Sorted (entriesOf l children)

namespace Siblings

variable {keys keys' : List K} {children children' : List (Node K D)} {k : K} {c c' c'' : Node K D}

/-- A key is the key of an entry of its child. -/
theorem exists_entry (h : Siblings tr l keys children) {i : Nat} (hk : keys[i]? = some k) :
    ∃ c e, children[i]? = some c ∧ e ∈ c.entries l ∧ e.1 = k ∧ c.maxkey l = some k := by
  have hi := (List.getElem?_eq_some_iff.mp hk).1
  have hlen := h.length_eq
  have hc := List.getElem?_eq_getElem (l := children) (i := i) (by omega)
  have hmax := h.key_eq i k _ hk hc
  have hv := h.verified _ (List.mem_of_getElem? hc)
  have hlast := List.getLast?_eq_some_getLast hv.entries_ne_nil
  rw [hv.maxkey_eq, hlast] at hmax
  refine ⟨_, _, hc, List.getLast_mem hv.entries_ne_nil, Option.some.inj hmax, ?_⟩
  rw [hv.maxkey_eq, hlast]
  exact hmax

/-- A key is not above the entries of the children behind its own. -/
theorem key_le (h : Siblings tr l keys children) {i j : Nat} (hij : i < j)
    (hk : keys[i]? = some k) (hc : children[j]? = some c) {e : K × D} (he : e ∈ c.entries l) :
    k ≤ e.1 := by
  obtain ⟨d, a, hd, ha, rfl, _⟩ := h.exists_entry hk
  exact le_of_sorted h.sorted hij hd hc ha he

theorem keys_sorted (h : Siblings tr l keys children) : keys.Pairwise (· ≤ ·) := by
  apply List.pairwise_iff_getElem.mpr
  intro i j hi hj hij
  obtain ⟨c, e, hc, he, heq, _⟩ := h.exists_entry (List.getElem?_eq_getElem hj)
  rw [← heq]
  exact h.key_le hij (List.getElem?_eq_getElem hi) hc he

/-! ### The parts of a pair of sequences -/

variable {ks ks' : List K} {cs cs' : List (Node K D)} {key : K} {value : D}

/-- The last entry of a sequence is that of its last child. -/
theorem getLast?_entriesOf (hv : VerifyNode tr l c) (cs : List (Node K D)) :
    (entriesOf l (cs ++ [c])).getLast? = (c.entries l).getLast? := by
  rw [entriesOf_append, entriesOf_cons, entriesOf_nil, List.append_nil,
    List.getLast?_append_of_ne_nil _ hv.entries_ne_nil]

/-- Cutting the children behind a key, which goes. -/
theorem cut (h : Siblings tr l (ks ++ k :: ks') children) :
    Siblings tr l ks (children.take (ks.length + 1)) ∧
      Siblings tr l ks' (children.drop (ks.length + 1)) ∧
        (entriesOf l (children.take (ks.length + 1))).getLast?.map Prod.fst = some k := by
  have hlen := h.length_eq
  rw [List.length_append, List.length_cons] at hlen
  have hsorted := h.sorted
  rw [← List.take_append_drop (ks.length + 1) children, entriesOf_append] at hsorted
  refine ⟨⟨?_, ?_, ?_, hsorted.append_left⟩, ⟨?_, ?_, ?_, hsorted.append_right⟩, ?_⟩
  · intro c hc
    exact h.verified c (List.mem_of_mem_take hc)
  · rw [List.length_take]
    omega
  · intro i k' c hk hc
    have hi := (List.getElem?_eq_some_iff.mp hk).1
    rw [List.getElem?_take_of_lt (by omega)] at hc
    apply h.key_eq i k' c _ hc
    rw [List.getElem?_append_left hi, hk]
  · intro c hc
    exact h.verified c (List.mem_of_mem_drop hc)
  · rw [List.length_drop]
    omega
  · intro i k' c hk hc
    rw [List.getElem?_drop] at hc
    apply h.key_eq (ks.length + 1 + i) k' c _ hc
    rw [List.getElem?_append_right (by omega), show ks.length + 1 + i - ks.length = i + 1 by omega,
      List.getElem?_cons_succ, hk]
  · have hc : children[ks.length]? = some children[ks.length] :=
      List.getElem?_eq_getElem (by omega)
    have hv := h.verified _ (List.mem_of_getElem? hc)
    rw [List.take_add_one, hc, Option.toList_some, getLast?_entriesOf hv, ← hv.maxkey_eq]
    apply h.key_eq ks.length k _ _ hc
    rw [List.getElem?_append_right (Nat.le_refl _), Nat.sub_self, List.getElem?_cons_zero]

/-- The child whose place is the lower bound of a key: the entries before it are smaller, and unless
it is the last one it has one that is not. -/
theorem route (h : Siblings tr l keys children) (key : K) :
    ∃ cs c cs', children = cs ++ c :: cs' ∧ cs.length = keys.findIdx (fun x => decide (key ≤ x)) ∧
      (∀ e ∈ entriesOf l cs, e.1 < key) ∧ (cs' ≠ [] → ∃ e ∈ c.entries l, key ≤ e.1) := by
  have hlen := h.length_eq
  generalize hslot : keys.findIdx (fun x => decide (key ≤ x)) = slot
  have hle : slot ≤ keys.length := hslot ▸ List.findIdx_le_length
  have hc : children[slot]? = some children[slot] := List.getElem?_eq_getElem (by omega)
  have hsplit : children = children.take slot ++ children[slot] :: children.drop (slot + 1) := by
    rw [List.getElem_cons_drop, List.take_append_drop]
  refine ⟨_, _, _, hsplit, by rw [List.length_take]; omega, ?_, ?_⟩
  · intro e he
    obtain ⟨d, hd, hed⟩ := mem_entriesOf.mp he
    obtain ⟨i, hi, rfl⟩ := List.mem_take_iff_getElem.mp hd
    have hd' : children[i]? = some children[i] := List.getElem?_eq_getElem (by omega)
    have hk : keys[i]? = some keys[i] := List.getElem?_eq_getElem (by omega)
    have hv := h.verified _ (List.mem_of_getElem? hd')
    have hmax := h.key_eq i _ _ hk hd'
    have hlast := List.getLast?_eq_some_getLast hv.entries_ne_nil
    rw [hv.maxkey_eq, hlast, Option.map_some, Option.some.injEq] at hmax
    have hlt : keys[i] < key := by
      have hnot : decide (key ≤ keys[i]) = false :=
        List.not_of_lt_findIdx (p := fun x => decide (key ≤ x)) (by omega)
      simpa using hnot
    have hesorted := hv.sorted
    exact (Sorted.le_getLast hesorted hlast hed).trans_lt (hmax ▸ hlt)
  · intro hne
    have hlt : slot < keys.length := by
      by_contra hc
      exact hne (List.drop_eq_nil_of_le (by omega))
    obtain ⟨d, e, hd, he, heq, _⟩ := h.exists_entry (List.getElem?_eq_getElem hlt)
    cases hc.symm.trans hd
    refine ⟨e, he, ?_⟩
    rw [heq]
    subst hslot
    simpa using List.findIdx_getElem (p := fun x => decide (key ≤ x)) (w := hlt)

/-- A key is below no other child than the one it leads to, unless it is below that one too. -/
theorem present_iff (h : Siblings tr l keys (cs ++ c :: cs'))
    (hbefore : ∀ e ∈ entriesOf l cs, e.1 < key)
    (hbehind : cs' ≠ [] → ∃ e ∈ c.entries l, key ≤ e.1) :
    Present key (entriesOf l (cs ++ c :: cs')) ↔ Present key (c.entries l) := by
  rw [entriesOf_append, entriesOf_cons]
  constructor
  · rintro ⟨e, he, heq⟩
    rcases List.mem_append.mp he with he | he
    · exact absurd heq (hbefore e he).ne
    · rcases List.mem_append.mp he with he | he
      · exact ⟨e, he, heq⟩
      · have hne : cs' ≠ [] := by
          rintro rfl
          cases he
        obtain ⟨e', he', hle⟩ := hbehind hne
        have hsorted := h.sorted
        rw [entriesOf_append, entriesOf_cons] at hsorted
        have hle' := hsorted.append_right.append_le he' he
        exact ⟨e', he', le_antisymm (heq ▸ hle') hle⟩
  · rintro ⟨e, he, heq⟩
    exact ⟨e, List.mem_append_right _ (List.mem_append_left _ he), heq⟩

/-- The first entry of a key is below the child it leads to. -/
theorem find?_entriesOf (hbefore : ∀ e ∈ entriesOf l cs, e.1 < key) {xs : List (Node K D)}
    {e : K × D} (he : ((entriesOf l xs).find? fun e => e.1 == key) = some e) :
    ((entriesOf l (cs ++ xs ++ cs')).find? fun e => e.1 == key) = some e := by
  have hnone : ((entriesOf l cs).find? fun e => e.1 == key) = none := by
    apply List.find?_eq_none.mpr
    intro e' he'
    simpa using (hbefore e' he').ne
  rw [entriesOf_append, entriesOf_append, List.find?_append, List.find?_append, hnone, he]
  rfl

/-- Inserting below one child. -/
theorem entriesOf_insert (hbefore : ∀ e ∈ entriesOf l cs, e.1 < key)
    (hbehind : cs' ≠ [] → ∃ e ∈ c.entries l, key ≤ e.1) :
    insertEntry key value (entriesOf l (cs ++ c :: cs')) =
      entriesOf l cs ++ (insertEntry key value (c.entries l) ++ entriesOf l cs') := by
  rw [entriesOf_append, entriesOf_cons, insertEntry_append_right hbefore]
  congr 1
  cases cs' with
  | nil => rw [entriesOf_nil, List.append_nil, List.append_nil]
  | cons d cs' => exact insertEntry_append_left (hbehind (by simp)) _

/-- A child may be replaced by a node that has the new entry besides those of the child. -/
theorem update (h : Siblings tr l keys (cs ++ c :: cs')) (hv : VerifyNode tr l c')
    (hc' : c'.entries l = insertEntry key value (c.entries l))
    (hbefore : ∀ e ∈ entriesOf l cs, e.1 < key)
    (hbehind : cs' ≠ [] → ∃ e ∈ c.entries l, key ≤ e.1) :
    Siblings tr l keys (cs ++ c' :: cs') ∧
      entriesOf l (cs ++ c' :: cs') = insertEntry key value (entriesOf l (cs ++ c :: cs')) := by
  have hentries : entriesOf l (cs ++ c' :: cs') =
      insertEntry key value (entriesOf l (cs ++ c :: cs')) := by
    rw [entriesOf_insert hbefore hbehind, entriesOf_append, entriesOf_cons, hc']
  refine ⟨⟨?_, ?_, ?_, ?_⟩, hentries⟩
  · intro d hd
    rcases List.mem_append.mp hd with hd | hd
    · exact h.verified d (List.mem_append_left _ hd)
    · rcases List.mem_cons.mp hd with rfl | hd
      · exact hv
      · exact h.verified d (List.mem_append_right _ (List.mem_cons_of_mem _ hd))
  · have hlen := h.length_eq
    simpa using hlen
  · intro i k d hk hd
    have hlen := h.length_eq
    have hi := (List.getElem?_eq_some_iff.mp hk).1
    simp only [List.length_append, List.length_cons] at hlen
    rcases Nat.lt_trichotomy i cs.length with hlt | rfl | hgt
    · apply h.key_eq i k d hk
      rw [List.getElem?_append_left hlt] at hd ⊢
      exact hd
    · rw [List.getElem?_append_right (Nat.le_refl _), Nat.sub_self, List.getElem?_cons_zero] at hd
      cases hd
      have hold := h.key_eq cs.length k c hk (by simp)
      have hne : cs' ≠ [] := by
        rintro rfl
        rw [List.length_nil] at hlen
        omega
      have hvc := h.verified c (by simp)
      rw [hv.maxkey_eq, hc', getLast?_insertEntry (hbehind hne), ← hvc.maxkey_eq, hold]
    · apply h.key_eq i k d hk
      rw [List.getElem?_append_right (by omega)] at hd ⊢
      obtain ⟨j, hj⟩ : ∃ j, i - cs.length = j + 1 := ⟨i - cs.length - 1, by omega⟩
      rw [hj, List.getElem?_cons_succ] at hd ⊢
      exact hd
  · rw [hentries]
    exact h.sorted.insertEntry key value

/-- Or by two nodes, with the last key of the first one between them. -/
theorem replace (h : Siblings tr l (ks ++ ks') (cs ++ c :: cs')) (hlen : cs.length = ks.length)
    (hv : VerifyNode tr l c') (hv' : VerifyNode tr l c'') (hk : c'.maxkey l = some k)
    (hc' : c'.entries l ++ c''.entries l = insertEntry key value (c.entries l))
    (hbefore : ∀ e ∈ entriesOf l cs, e.1 < key)
    (hbehind : cs' ≠ [] → ∃ e ∈ c.entries l, key ≤ e.1) :
    Siblings tr l (ks ++ k :: ks') (cs ++ c' :: c'' :: cs') ∧
      entriesOf l (cs ++ c' :: c'' :: cs') =
        insertEntry key value (entriesOf l (cs ++ c :: cs')) := by
  have hentries : entriesOf l (cs ++ c' :: c'' :: cs') =
      insertEntry key value (entriesOf l (cs ++ c :: cs')) := by
    rw [entriesOf_insert hbefore hbehind, entriesOf_append, entriesOf_cons, entriesOf_cons, ← hc',
      List.append_assoc]
  have hcount := h.length_eq
  simp only [List.length_append, List.length_cons] at hcount
  refine ⟨⟨?_, ?_, ?_, ?_⟩, hentries⟩
  · intro d hd
    rcases List.mem_append.mp hd with hd | hd
    · exact h.verified d (List.mem_append_left _ hd)
    · rcases List.mem_cons.mp hd with rfl | hd
      · exact hv
      · rcases List.mem_cons.mp hd with rfl | hd
        · exact hv'
        · exact h.verified d (List.mem_append_right _ (List.mem_cons_of_mem _ hd))
  · simp only [List.length_append, List.length_cons]
    omega
  · intro i x d hx hd
    have hi := (List.getElem?_eq_some_iff.mp hx).1
    simp only [List.length_append, List.length_cons] at hi
    rcases Nat.lt_trichotomy i cs.length with hlt | rfl | hgt
    · rw [List.getElem?_append_left (by omega)] at hx hd
      apply h.key_eq i x d
      · rw [List.getElem?_append_left (by omega), hx]
      · rw [List.getElem?_append_left hlt, hd]
    · rw [List.getElem?_append_right (by omega), hlen, Nat.sub_self, List.getElem?_cons_zero] at hx
      rw [List.getElem?_append_right (by omega), Nat.sub_self, List.getElem?_cons_zero] at hd
      cases hx
      cases hd
      exact hk
    · -- behind the new key every place is one further on
      obtain ⟨j, rfl⟩ : ∃ j, i = cs.length + 1 + j := ⟨i - cs.length - 1, by omega⟩
      rw [List.getElem?_append_right (by omega),
        show cs.length + 1 + j - ks.length = j + 1 by omega, List.getElem?_cons_succ] at hx
      rw [List.getElem?_append_right (by omega),
        show cs.length + 1 + j - cs.length = j + 1 by omega, List.getElem?_cons_succ] at hd
      have hkey : (ks ++ ks')[cs.length + j]? = some x := by
        rw [List.getElem?_append_right (by omega), show cs.length + j - ks.length = j by omega, hx]
      cases j with
      | zero =>
          rw [List.getElem?_cons_zero] at hd
          cases hd
          have hold := h.key_eq cs.length x c hkey (by simp)
          have hne : cs' ≠ [] := by
            rintro rfl
            rw [List.length_nil] at hcount
            have hpos := (List.getElem?_eq_some_iff.mp hx).1
            omega
          have hvc := h.verified c (by simp)
          have hlast : (insertEntry key value (c.entries l)).getLast? = (c.entries l).getLast? :=
            getLast?_insertEntry (hbehind hne)
          rw [hvc.maxkey_eq, ← hlast, ← hc',
            List.getLast?_append_of_ne_nil _ hv'.entries_ne_nil] at hold
          rw [hv'.maxkey_eq, hold]
      | succ j =>
          rw [List.getElem?_cons_succ] at hd
          apply h.key_eq (cs.length + (j + 1)) x d hkey
          rw [List.getElem?_append_right (by omega),
            show cs.length + (j + 1) - cs.length = j + 1 by omega, List.getElem?_cons_succ, hd]
  · rw [hentries]
    exact h.sorted.insertEntry key value

end Siblings

/-- `verify_node` on an inner node, in terms of the sequences in use. -/
theorem InnerNode.verified_iff {n : InnerNode K (Node K D)} :
    n.Verified tr l (VerifyNode tr l) ↔
      n.level = l + 1 ∧ 0 < n.slotuse ∧ n.slotuse ≤ tr.innerslotmax ∧
        n.slotuse ≤ n.slotkey.length ∧
          Siblings tr l (n.slotkey.take n.slotuse) (n.childid.take (n.slotuse + 1)) := by
  constructor
  · intro h
    have hchild : ∀ i < n.slotuse + 1, ∃ c, n.childid[i]? = some c := by
      intro i hi
      obtain ⟨c, hc, _⟩ := h.children i hi
      exact ⟨c, hc⟩
    have hlen : n.slotuse < n.childid.length := by
      obtain ⟨c, hc⟩ := hchild n.slotuse (by omega)
      exact (List.getElem?_eq_some_iff.mp hc).1
    have hv : VerifyNode tr (l + 1) (.inner n) := h
    refine ⟨h.level_eq, h.slotuse_pos, h.slotuse_le, h.sorted.le_length, ?_, ?_, ?_, hv.sorted⟩
    · intro c hc
      obtain ⟨i, hi, rfl⟩ := List.mem_take_iff_getElem.mp hc
      obtain ⟨c, hc, hsub, _⟩ := h.children i (by omega)
      rw [List.getElem?_eq_getElem (by omega)] at hc
      cases hc
      exact hsub
    · have := h.sorted.le_length
      rw [List.length_take, List.length_take]
      omega
    · intro i k c hk hc
      have hi := (List.getElem?_eq_some_iff.mp hk).1
      rw [List.length_take] at hi
      rw [List.getElem?_take_of_lt (by omega)] at hk hc
      obtain ⟨c', hc', _, hchildv⟩ := h.children i (by omega)
      cases hc.symm.trans hc'
      rw [← hchildv.max_eq (by omega), hk]
  · rintro ⟨hlevel, hpos, hmax, hkeys, h⟩
    have hlen := h.length_eq
    rw [List.length_take, List.length_take] at hlen
    refine ⟨hlevel, hpos, hmax, ⟨hkeys, h.keys_sorted⟩, ?_⟩
    intro i hi
    have hc : (n.childid.take (n.slotuse + 1))[i]? = some n.childid[i] := by
      rw [List.getElem?_take_of_lt hi, List.getElem?_eq_getElem (by omega)]
    have hv := h.verified _ (List.mem_of_getElem? hc)
    refine ⟨_, List.getElem?_eq_getElem (by omega), hv, ?_, ?_⟩
    · intro hi0 x hx mn hmn
      rw [hv.minkey_eq, List.head?_eq_some_head hv.entries_ne_nil] at hmn
      cases hmn
      apply h.key_le (i := i - 1) (j := i) (by omega) _ hc (List.head_mem hv.entries_ne_nil)
      rw [List.getElem?_take_of_lt (by omega)]
      exact hx
    · intro hilt
      obtain ⟨k, hk⟩ := exists_getElem? n.slotkey (i := i) (by omega)
      rw [hk]
      apply (h.key_eq i k _ _ hc).symm
      rw [List.getElem?_take_of_lt hilt, hk]

end BTree
