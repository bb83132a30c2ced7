import PrefetchBench.BTree.Invariant
import PrefetchBench.Search.Steps
import PrefetchBench.Batch.Lanes

/-!
# The pieces of a B+ tree lookup

All strategies look up a key in the same steps: search the keys of an inner node and go to the
child of that slot, until the node is a leaf; search the keys of the leaf; compare the key in that
slot and write the answer.  The searches are of several kinds (`NodeSearch`), and all of them find
the lower bound in a node whose keys do not decrease (`NodeSearch.Exact`).

The lemmas say what each step does on the search path of a key: going down stays on the path
(`OnPath.stepDown`), and at its leaf the comparison decides the lookup of the whole tree
(`OnPath.hasKey`).
-/

namespace BTree

open Prog KeyArray Batch

variable {K D : Type} [LinearOrder K]

/-! ## Searching the keys of a node -/

/-- A search of the first `slotuse` keys of a node. -/
abbrev NodeSearch (K : Type) := Nat → List K → K → Prog Nat

/-- `find_lower`: binary search. -/
def findLower : NodeSearch K := fun slotuse slotkey key =>
  if slotuse = 0 then pure 0 else search slotkey key ⟨0, slotuse⟩

/-- `find_lower` of the vectorized strategy: binary search that selects both ends. -/
def findLowerBranchless : NodeSearch K := fun slotuse slotkey key =>
  if slotuse = 0 then pure 0 else do
    let w ← whileM (fun w => pure (decide (w.lo < w.hi))) (branchlessRound slotkey key) ⟨0, slotuse⟩
    pure w.lo

/-- `linear_search`, `linear_lower_bound`: the scan from the left. -/
def linearLowerBound : NodeSearch K := fun slotuse slotkey key => scan slotkey key slotuse

/-- A search that finds the lower bound in every node whose keys do not decrease. -/
def NodeSearch.Exact (find : NodeSearch K) : Prop :=
  ∀ {slotuse : Nat} {slotkey : List K} (key : K), SortedTo slotkey slotuse →
    (find slotuse slotkey key).Returns (lowerBound slotkey key slotuse)

theorem findLower_exact : (findLower (K := K)).Exact := by
  intro slotuse slotkey key hs
  rw [findLower]
  by_cases h0 : slotuse = 0
  · subst h0
    rw [if_pos rfl, returns_pure]
    exact (Nat.le_zero.mp (lowerBound_le slotkey key 0)).symm
  · rw [if_neg h0, ← bisect_zero_eq_lowerBound hs]
    exact search_returns hs.le_length

theorem findLowerBranchless_exact : (findLowerBranchless (K := K)).Exact := by
  intro slotuse slotkey key hs
  rw [findLowerBranchless]
  by_cases h0 : slotuse = 0
  · subst h0
    rw [if_pos rfl, returns_pure]
    exact (Nat.le_zero.mp (lowerBound_le slotkey key 0)).symm
  · rw [if_neg h0, ← bisect_zero_eq_lowerBound hs]
    refine Ensures.returns (Ensures.bind
      (P := fun w => w.lo = Window.bisect (probe slotkey key) ⟨0, slotuse⟩) ?_
      fun w hw => Ensures.pure hw)
    refine Ensures.whileM (fun m w => m = w.width ∧ w.hi ≤ slotkey.length ∧
      w.bisect (probe slotkey key) = Window.bisect (probe slotkey key) ⟨0, slotuse⟩) ?_ _ _
      ⟨rfl, hs.le_length, rfl⟩
    rintro m w ⟨rfl, hle, hb⟩
    refine ⟨_, returns_pure.mpr rfl, fun hlt => ?_, fun hge => ?_⟩
    · have hlt' : w.lo < w.hi := by simpa using hlt
      refine (branchlessRound_returns hle).ensures ⟨_, ?_, rfl, ?_, ?_⟩
      · have := Window.halve_width (probe slotkey key) w
        have hpos : 0 < w.width := by simp only [Window.width]; omega
        omega
      · exact (Window.halve_hi_le _ _).trans hle
      · rw [Window.bisect_halve, hb]
    · have hge' : ¬ w.lo < w.hi := by simpa using hge
      rw [← hb, Window.bisect_of_not_lt hge']

theorem linearLowerBound_exact : (linearLowerBound (K := K)).Exact :=
  fun _ hs => scan_returns hs.le_length

/-! ## The steps of a lookup -/

/-- `slot = find(inner, key); curr = inner->childid[slot];` -/
def stepDown (find : NodeSearch K) (key : K) (curr : Node K D) : Prog (Node K D) := do
  let inner ← curr.toInner
  let slot ← find inner.slotuse inner.slotkey key
  read inner.childid slot

/-- `while (!curr->isleafnode())` go down. -/
def descend (find : NodeSearch K) (key : K) (root : Node K D) : Prog (Node K D) :=
  whileM (fun curr => pure (!curr.isLeafNode)) (stepDown find key) root

/-- `slot < leaf->slotuse && key == leaf->slotkey[slot]` -/
def LeafNode.hasKey (leaf : LeafNode K D) (key : K) (slot : Nat) : Prog Bool :=
  if slot < leaf.slotuse then do
    let x ← read leaf.slotkey slot
    pure (decide (key = x))
  else pure false

/-- `if (store) results[i] = leaf->slotdata[slot]; found[i] = true;` -/
def LeafNode.emit (leaf : LeafNode K D) (store : Bool) (slot i : Nat) (out : Out D) :
    Prog (Out D) :=
  if store then do
    let d ← read leaf.slotdata slot
    out.hit i d
  else out.mark i

/-- Compare the key in the slot, and write a value or a false flag. -/
def LeafNode.collect (leaf : LeafNode K D) (store : Bool) (key : K) (slot i : Nat) (out : Out D) :
    Prog (Out D) := do
  if (← leaf.hasKey key slot) then leaf.emit store slot i out else out.miss i

/-- Compare the key in the slot, and write a value or nothing. -/
def LeafNode.collectHit (leaf : LeafNode K D) (store : Bool) (key : K) (slot i : Nat)
    (out : Out D) : Prog (Out D) := do
  if (← leaf.hasKey key slot) then leaf.emit store slot i out else pure out

/-! ## The steps on a search path -/

section OnPath

variable {tr : Traits} {t : Tree K D} {root : Node K D} {key : K} {l : Nat} {n : Node K D}
  {find : NodeSearch K}

theorem OnPath.isLeafNode (hroot : VerifyNode tr root.level root) (h : OnPath tr root key l n) :
    n.isLeafNode = true ↔ l = 0 := by
  rw [Node.isLeafNode, h.level_eq hroot, beq_iff_eq]

/-- The search of an inner node finds the slot of the next node. -/
theorem OnPath.find_inner (hfind : find.Exact) (hroot : VerifyNode tr root.level root)
    (h : OnPath tr root key (l + 1) n) :
    ∃ (m : InnerNode K (Node K D)) (c : Node K D), n = .inner m ∧
      (find m.slotuse m.slotkey key).Returns (lowerBound m.slotkey key m.slotuse) ∧
      m.childid[lowerBound m.slotkey key m.slotuse]? = some c ∧ OnPath tr root key l c := by
  obtain ⟨m, c, rfl, hm, hc, hchild⟩ := h.inner hroot
  exact ⟨m, c, rfl, hfind key hm.sorted, hc, hchild⟩

theorem OnPath.stepDown (hfind : find.Exact) (hroot : VerifyNode tr root.level root)
    (h : OnPath tr root key (l + 1) n) :
    (stepDown find key n).Ensures (OnPath tr root key l) := by
  obtain ⟨m, c, rfl, hf, hc, hchild⟩ := h.find_inner hfind hroot
  exact (returns_pure.mpr rfl).seq (hf.seq (Ensures.read hc hchild))

theorem OnPath.descend (hfind : find.Exact) (hroot : VerifyNode tr root.level root) (key : K) :
    (descend find key root).Ensures (OnPath tr root key 0) := by
  refine Ensures.whileM (fun m n => OnPath tr root key m n) ?_ root.level root .root
  intro l n h
  refine ⟨_, returns_pure.mpr rfl, fun hinner => ?_, fun hleaf => ?_⟩
  · cases l with
    | zero => simp [(h.isLeafNode hroot).mpr rfl] at hinner
    | succ l => exact (h.stepDown hfind hroot).mono fun c hc => ⟨l, Nat.lt_succ_self l, hc⟩
  · have h0 : l = 0 := (h.isLeafNode hroot).mp (by simpa using hleaf)
    subst h0
    exact h

/-- At the leaf of the path, the comparison in the slot of the lower bound decides the lookup. -/
theorem OnPath.hasKey (ht : t.root = some root) (hroot : VerifyNode tr root.level root)
    (h : OnPath tr root key 0 n) :
    ∃ leaf : LeafNode K D, n = .leaf leaf ∧ SortedTo leaf.slotkey leaf.slotuse ∧
      ((leaf.hasKey key (lowerBound leaf.slotkey key leaf.slotuse)).Returns false ∧
          t.lookup key = none ∨
        ∃ d, (leaf.hasKey key (lowerBound leaf.slotkey key leaf.slotuse)).Returns true ∧
          leaf.slotkey[lowerBound leaf.slotkey key leaf.slotuse]? = some key ∧
          leaf.slotdata[lowerBound leaf.slotkey key leaf.slotuse]? = some d ∧
          t.lookup key = some d) := by
  obtain ⟨leaf, rfl, hv, hcase⟩ := h.lookup_leaf ht hroot
  refine ⟨leaf, rfl, hv.sorted, ?_⟩
  rcases hcase with ⟨heq, hnone⟩ | ⟨x, d, hlt, hx, hd, hl⟩
  · refine Or.inl ⟨?_, hnone⟩
    rw [LeafNode.hasKey, if_neg (by omega), returns_pure]
  · have hread : (leaf.hasKey key (lowerBound leaf.slotkey key leaf.slotuse)).Returns
        (decide (key = x)) := by
      rw [LeafNode.hasKey, if_pos hlt]
      exact (returns_read.mpr hx).bind (returns_pure.mpr rfl)
    by_cases hk : key = x
    · subst hk
      rw [if_pos rfl] at hl
      exact Or.inr ⟨d, by simpa using hread, hx, hd, hl⟩
    · rw [if_neg hk] at hl
      exact Or.inl ⟨by simpa [hk] using hread, hl⟩

end OnPath

/-! ## Settling a query at a leaf -/

section Settles

variable {ans : List (Option D)} {prior : Out D} {tr : Traits} {t : Tree K D} {root : Node K D}
  {key : K} {n : Node K D} {i : Nat}

/-- The leaf of the path settles the query; a miss need not be written where the flag starts out
false. -/
theorem OnPath.settles (hp : Fits ans prior) (ht : t.root = some root)
    (hroot : VerifyNode tr root.level root) (h : OnPath tr root key 0 n)
    (hi : ans[i]? = some (t.lookup key)) :
    ∃ leaf : LeafNode K D, n = .leaf leaf ∧ SortedTo leaf.slotkey leaf.slotuse ∧
      Settles ans prior i
        (leaf.collect true key (lowerBound leaf.slotkey key leaf.slotuse) i) ∧
      (prior.found[i]? = some false → Settles ans prior i
        (leaf.collectHit true key (lowerBound leaf.slotkey key leaf.slotuse) i)) := by
  obtain ⟨leaf, rfl, hs, hcase⟩ := h.hasKey ht hroot
  refine ⟨leaf, rfl, hs, ?_⟩
  rcases hcase with ⟨hf, hnone⟩ | ⟨d, hf, _, hd, hsome⟩
  · rw [hnone] at hi
    exact ⟨fun done => hf.bind (settles_miss hp hi done),
      fun hfalse done => hf.bind (settles_pure hi hfalse done)⟩
  · rw [hsome] at hi
    have hemit : ∀ done : Nat → Prop,
        (leaf.emit true (lowerBound leaf.slotkey key leaf.slotuse) i
          (progress ans prior done)).Returns (progress ans prior fun j => j = i ∨ done j) :=
      fun done => (returns_read.mpr hd).bind (settles_hit hp hi done)
    exact ⟨fun done => hf.bind (hemit done), fun _ done => hf.bind (hemit done)⟩

/-- What a lookup of query `i` leaves as its value: the data, or what was there before. -/
def stored (store : Bool) (prior : Out D) (i : Nat) (r : Option D) : Option D :=
  if store then r else r.bind fun _ => prior.results[i]?

/-- The leaf of the path settles the query also where no data are stored. -/
theorem OnPath.settles_collect (hp : Fits ans prior) (ht : t.root = some root)
    (hroot : VerifyNode tr root.level root) (h : OnPath tr root key 0 n) (store : Bool)
    (hi : ans[i]? = some (stored store prior i (t.lookup key))) :
    ∃ leaf : LeafNode K D, n = .leaf leaf ∧ SortedTo leaf.slotkey leaf.slotuse ∧
      Settles ans prior i
        (leaf.collect store key (lowerBound leaf.slotkey key leaf.slotuse) i) := by
  cases store with
  | true =>
      obtain ⟨leaf, hn, hs, hset, _⟩ := h.settles hp ht hroot hi
      exact ⟨leaf, hn, hs, hset⟩
  | false =>
      obtain ⟨leaf, rfl, hs, hcase⟩ := h.hasKey ht hroot
      refine ⟨leaf, rfl, hs, ?_⟩
      rcases hcase with ⟨hf, hnone⟩ | ⟨d, hf, _, _, hsome⟩
      · rw [hnone] at hi
        exact fun done => hf.bind (settles_miss hp hi done)
      · have hlt := (List.getElem?_eq_some_iff.mp hi).1
        obtain ⟨v, hv⟩ := exists_getElem? prior.results (hlt.trans_le hp.results)
        rw [hsome, stored, if_neg Bool.false_ne_true, Option.bind_some, hv] at hi
        exact fun done => hf.bind (settles_mark hp hi hv done)

end Settles

end BTree
