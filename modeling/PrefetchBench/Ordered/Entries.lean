import Mathlib

/-!
# Entries in the order of their keys

A sequence of entries whose keys do not decrease, and what inserting one does to it.  The new entry
goes in front of the first entry whose key is not below its own (`insertEntry`), so among entries of
one key the last one inserted comes first.  An insertion only concerns the part of a sequence that
it falls into (`insertEntry_append_left`, `insertEntry_append_right`), which is what lets a search
tree insert below one child.

A container of entries may refuse an entry whose key is present (`add`).  After a run of insertions
the first entry of a key is the last one of the run, if nothing is refused, and otherwise the first
one (`find?_addAll_true`, `find?_addAll_false`).
-/

namespace Ordered

variable {K D : Type} [LinearOrder K]

/-- The keys of the entries do not decrease. -/
def Sorted (es : List (K × D)) : Prop := es.Pairwise fun a b => a.1 ≤ b.1

instance (es : List (K × D)) : Decidable (Sorted es) :=
  inferInstanceAs (Decidable (es.Pairwise fun a b => a.1 ≤ b.1))

/-- An entry is inserted in front of the first one whose key is not below its own. -/
def insertEntry (key : K) (value : D) (es : List (K × D)) : List (K × D) :=
  es.orderedInsert (fun a b => a.1 ≤ b.1) (key, value)

/-- The entries have the key. -/
def Present (key : K) (es : List (K × D)) : Prop := ∃ e ∈ es, e.1 = key

instance (key : K) (es : List (K × D)) : Decidable (Present key es) :=
  inferInstanceAs (Decidable (∃ e ∈ es, e.1 = key))

variable {key : K} {value : D} {es xs ys : List (K × D)}

@[simp] theorem insertEntry_nil (key : K) (value : D) :
    insertEntry key value [] = [(key, value)] := rfl

theorem insertEntry_cons_of_le {e : K × D} (h : key ≤ e.1) (es : List (K × D)) :
    insertEntry key value (e :: es) = (key, value) :: e :: es :=
  List.orderedInsert_cons_of_le _ es h

theorem insertEntry_cons_of_lt {e : K × D} (h : e.1 < key) (es : List (K × D)) :
    insertEntry key value (e :: es) = e :: insertEntry key value es :=
  List.orderedInsert_of_not_le _ es (not_le.mpr h)

theorem perm_insertEntry (key : K) (value : D) (es : List (K × D)) :
    (insertEntry key value es).Perm ((key, value) :: es) := List.perm_orderedInsert ..

@[simp] theorem length_insertEntry (key : K) (value : D) (es : List (K × D)) :
    (insertEntry key value es).length = es.length + 1 := (perm_insertEntry key value es).length_eq

@[simp] theorem mem_insertEntry {e : K × D} :
    e ∈ insertEntry key value es ↔ e = (key, value) ∨ e ∈ es := List.mem_orderedInsert ..

/-! ## Insertion into a part -/

/-- Behind a part with a key that is not below the new one, nothing changes. -/
theorem insertEntry_append_left (h : ∃ e ∈ xs, key ≤ e.1) (ys : List (K × D)) :
    insertEntry key value (xs ++ ys) = insertEntry key value xs ++ ys := by
  induction xs with
  | nil =>
      obtain ⟨e, he, _⟩ := h
      exact absurd he List.not_mem_nil
  | cons x xs ih =>
      rcases le_or_gt key x.1 with hle | hlt
      · rw [List.cons_append, insertEntry_cons_of_le hle, insertEntry_cons_of_le hle]
        rfl
      · have hrest : ∃ e ∈ xs, key ≤ e.1 := by
          obtain ⟨e, he, hle⟩ := h
          rcases List.mem_cons.mp he with rfl | he
          · exact absurd hle (not_le.mpr hlt)
          · exact ⟨e, he, hle⟩
        rw [List.cons_append, insertEntry_cons_of_lt hlt, insertEntry_cons_of_lt hlt, ih hrest]
        rfl

/-- A part of smaller keys is passed. -/
theorem insertEntry_append_right (h : ∀ e ∈ xs, e.1 < key) (ys : List (K × D)) :
    insertEntry key value (xs ++ ys) = xs ++ insertEntry key value ys := by
  induction xs with
  | nil => rfl
  | cons x xs ih =>
      rw [List.cons_append, insertEntry_cons_of_lt (h x List.mem_cons_self),
        ih fun e he => h e (List.mem_cons_of_mem x he)]
      rfl

/-- The place is the lower bound of the key. -/
theorem insertEntry_eq_insertIdx (key : K) (value : D) (es : List (K × D)) :
    insertEntry key value es =
      es.insertIdx (es.findIdx fun e => decide (key ≤ e.1)) (key, value) := by
  induction es with
  | nil => rfl
  | cons x xs ih =>
      rcases le_or_gt key x.1 with hle | hlt
      · rw [insertEntry_cons_of_le hle, List.findIdx_cons, decide_eq_true hle]
        rfl
      · rw [insertEntry_cons_of_lt hlt, List.findIdx_cons, decide_eq_false (not_le.mpr hlt), ih]
        rfl

/-- A sequence that ends at or above the new key keeps its last entry. -/
theorem getLast?_insertEntry (h : ∃ e ∈ es, key ≤ e.1) :
    (insertEntry key value es).getLast? = es.getLast? := by
  induction es with
  | nil =>
      obtain ⟨e, he, _⟩ := h
      exact absurd he List.not_mem_nil
  | cons x xs ih =>
      rcases le_or_gt key x.1 with hle | hlt
      · rw [insertEntry_cons_of_le hle, List.getLast?_cons_cons]
      · have hrest : ∃ e ∈ xs, key ≤ e.1 := by
          obtain ⟨e, he, hle⟩ := h
          rcases List.mem_cons.mp he with rfl | he
          · exact absurd hle (not_le.mpr hlt)
          · exact ⟨e, he, hle⟩
        rw [insertEntry_cons_of_lt hlt, List.getLast?_cons, List.getLast?_cons, ih hrest]

/-! ## The order is kept -/

theorem Sorted.insertEntry (h : Sorted es) (key : K) (value : D) :
    Sorted (insertEntry key value es) := by
  have : Std.Total fun a b : K × D => a.1 ≤ b.1 := ⟨fun a b => le_total a.1 b.1⟩
  have : IsTrans (K × D) fun a b => a.1 ≤ b.1 := ⟨fun _ _ _ => le_trans⟩
  exact List.Pairwise.orderedInsert (key, value) es h

theorem Sorted.append_left (h : Sorted (xs ++ ys)) : Sorted xs := (List.pairwise_append.mp h).1

theorem Sorted.append_right (h : Sorted (xs ++ ys)) : Sorted ys := (List.pairwise_append.mp h).2.1

theorem Sorted.append_le (h : Sorted (xs ++ ys)) {a b : K × D} (ha : a ∈ xs) (hb : b ∈ ys) :
    a.1 ≤ b.1 := (List.pairwise_append.mp h).2.2 a ha b hb

/-- The last key is the largest one. -/
theorem Sorted.le_getLast (h : Sorted es) {e last : K × D} (hlast : es.getLast? = some last)
    (he : e ∈ es) : e.1 ≤ last.1 := by
  obtain ⟨front, rfl⟩ := List.getLast?_eq_some_iff.mp hlast
  rcases List.mem_append.mp he with he | he
  · exact h.append_le he (List.mem_singleton_self _)
  · rw [List.mem_singleton.mp he]

/-- The first key is the smallest one. -/
theorem Sorted.head_le (h : Sorted es) {e first : K × D} (hfirst : es.head? = some first)
    (he : e ∈ es) : first.1 ≤ e.1 := by
  obtain ⟨rest, rfl⟩ := List.head?_eq_some_iff.mp hfirst
  rcases List.mem_cons.mp he with rfl | he
  · exact le_rfl
  · exact (List.pairwise_cons.mp h).1 e he

/-! ## Lookups -/

/-- The new entry is the first one of its key, and the other keys keep theirs. -/
theorem find?_insertEntry (h : Sorted es) (key : K) (value : D) (q : K) :
    ((insertEntry key value es).find? fun e => e.1 == q) =
      if key = q then some (key, value) else es.find? fun e => e.1 == q := by
  induction es with
  | nil =>
      by_cases hq : key = q
      · simp [hq]
      · simp [hq]
  | cons x xs ih =>
      obtain ⟨hhead, htail⟩ := List.pairwise_cons.mp h
      rcases le_or_gt key x.1 with hle | hlt
      · rw [insertEntry_cons_of_le hle]
        by_cases hq : key = q
        · simp [hq]
        · simp [hq]
      · rw [insertEntry_cons_of_lt hlt]
        by_cases hx : x.1 = q
        · rw [if_neg (hx ▸ hlt.ne'), List.find?_cons_of_pos (by simpa using hx),
            List.find?_cons_of_pos (by simpa using hx)]
        · rw [List.find?_cons_of_neg (by simpa using hx),
            List.find?_cons_of_neg (by simpa using hx), ih htail]

theorem find?_eq_none_iff {q : K} : (es.find? fun e => e.1 == q) = none ↔ ¬ Present q es := by
  rw [List.find?_eq_none, Present]
  constructor
  · rintro h ⟨e, he, heq⟩
    exact h e he (by simpa using heq)
  · intro h e he heq
    exact h ⟨e, he, by simpa using heq⟩

/-- A key is present if and only if it is that of the entry at its lower bound. -/
theorem Sorted.present_iff (h : Sorted es) (key : K) :
    Present key es ↔
      ∃ e, es[es.findIdx fun e => decide (key ≤ e.1)]? = some e ∧ e.1 = key := by
  constructor
  · rintro ⟨e, he, hkey⟩
    generalize hslot : (es.findIdx fun e => decide (key ≤ e.1)) = slot
    have hlt : slot < es.length :=
      hslot ▸ List.findIdx_lt_length_of_exists ⟨e, he, decide_eq_true hkey.ge⟩
    have hge : key ≤ es[slot].1 := by
      subst hslot
      simpa using List.findIdx_getElem (p := fun e : K × D => decide (key ≤ e.1)) (w := hlt)
    refine ⟨es[slot], List.getElem?_eq_getElem hlt, le_antisymm ?_ hge⟩
    obtain ⟨i, hi, hget⟩ := List.getElem_of_mem he
    have hle : slot ≤ i := by
      by_contra hc
      have hnot := List.not_of_lt_findIdx (hslot.symm ▸ not_le.mp hc)
      simp [hget, hkey] at hnot
    rw [← hkey, ← hget]
    rcases Nat.eq_or_lt_of_le hle with rfl | hlt'
    · exact le_rfl
    · exact List.pairwise_iff_getElem.mp h slot i hlt hi hlt'
  · rintro ⟨e, he, rfl⟩
    exact ⟨e, List.mem_of_getElem? he, rfl⟩

/-- And then it is the first one of its key. -/
theorem find?_of_findIdx {e : K × D}
    (he : es[es.findIdx fun e : K × D => decide (key ≤ e.1)]? = some e)
    (heq : e.1 = key) : (es.find? fun e => e.1 == key) = some e := by
  obtain ⟨hlt, hget⟩ := List.getElem?_eq_some_iff.mp he
  apply List.find?_eq_some_iff_getElem.mpr
  refine ⟨by simpa using heq, _, hlt, hget, fun j hj => ?_⟩
  have hnot := List.not_of_lt_findIdx hj
  have hlt' : es[j].1 < key := by simpa using hnot
  simpa using hlt'.ne

/-! ## Runs of insertions -/

/-- An insertion that refuses present keys, unless duplicates are allowed. -/
def add (duplicates : Bool) (es : List (K × D)) (e : K × D) : List (K × D) :=
  if duplicates = false ∧ Present e.1 es then es else insertEntry e.1 e.2 es

/-- A run of insertions. -/
def addAll (duplicates : Bool) (es run : List (K × D)) : List (K × D) :=
  run.foldl (add duplicates) es

theorem Sorted.add (h : Sorted es) (duplicates : Bool) (e : K × D) :
    Sorted (add duplicates es e) := by
  rw [Ordered.add]
  split
  · exact h
  · exact h.insertEntry e.1 e.2

/-- The first entry of a key after a run in which nothing is refused is the last one of the run. -/
theorem find?_addAll_true (h : Sorted es) (run : List (K × D)) (q : K) :
    ((addAll true es run).find? fun e => e.1 == q) =
      (run.reverse.find? fun e => e.1 == q).or (es.find? fun e => e.1 == q) := by
  induction run generalizing es with
  | nil => rfl
  | cons e run ih =>
      have hadd : add true es e = insertEntry e.1 e.2 es := by simp [add]
      rw [addAll, List.foldl_cons, hadd, ← addAll, ih (h.insertEntry e.1 e.2),
        find?_insertEntry h, List.reverse_cons, List.find?_append, Option.or_assoc]
      by_cases hq : e.1 = q
      · rw [if_pos hq, List.find?_cons_of_pos (by simpa using hq)]
        rfl
      · rw [if_neg hq, List.find?_cons_of_neg (by simpa using hq)]
        rfl

/-- After a run in which present keys are refused it is the first one of the run, unless the key
was there before. -/
theorem find?_addAll_false (h : Sorted es) (run : List (K × D)) (q : K) :
    ((addAll false es run).find? fun e => e.1 == q) =
      (es.find? fun e => e.1 == q).or (run.find? fun e => e.1 == q) := by
  induction run generalizing es with
  | nil => simp [addAll]
  | cons e run ih =>
      rw [addAll, List.foldl_cons, ← addAll, ih (h.add false e), add]
      by_cases hpresent : Present e.1 es
      · rw [if_pos ⟨rfl, hpresent⟩]
        by_cases hq : e.1 = q
        · cases hfind : es.find? fun e => e.1 == q with
          | none => exact absurd (hq ▸ hpresent) (find?_eq_none_iff.mp hfind)
          | some x => rfl
        · rw [List.find?_cons_of_neg (by simpa using hq)]
      · rw [if_neg fun hc => hpresent hc.2, find?_insertEntry h]
        by_cases hq : e.1 = q
        · have hnone := find?_eq_none_iff.mpr (hq ▸ hpresent)
          rw [if_pos hq, hnone, List.find?_cons_of_pos (by simpa using hq)]
          rfl
        · rw [if_neg hq, List.find?_cons_of_neg (by simpa using hq)]

end Ordered
