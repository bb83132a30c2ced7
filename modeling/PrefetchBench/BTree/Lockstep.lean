import PrefetchBench.BTree.Lookup

/-!
# Serial and lockstep lookups

The strategies that walk the queries in order: `NoPrefetch` one by one, the others in groups whose
lanes go down the tree level by level together.  `GroupPrefetch` interleaves the binary searches
of a level over a fixed number of rounds, with the last round merged into the loop that fetches
the children; `VectorizedSearch` and `GroupPrefetch_Linear` search every lane's node and then
fetch every child; `VectorizedSearch_Linear` does both in one loop.

On every verified tree each of them returns the lookups of the tree.  The exception is
`VectorizedSearch_Linear`, which stores the key of the slot instead of its data
(`VectorizedSearchLinear.batchLookup_returns`).
-/

namespace BTree

open Prog KeyArray Batch

variable {K D : Type}

/-! ## Empty trees and empty batches -/

/-- What every strategy does before its loops: size the vectors, and leave them so when the tree
has no root. -/
def onRoot (t : Tree K D) (queries : List K) (results : List D) (dflt : D)
    (body : Node K D → Out D → Prog (Out D)) : Prog (Out D) :=
  match t.root with
  | none => pure (Out.fresh queries.length results dflt)
  | some root => body root (Out.fresh queries.length results dflt)

/-- The same with `if (!root || queries.empty()) return found;` -/
def onRootQueries (t : Tree K D) (queries : List K) (results : List D) (dflt : D)
    (body : Node K D → Out D → Prog (Out D)) : Prog (Out D) :=
  onRoot t queries results dflt fun root out =>
    if queries.isEmpty then pure out else body root out

section OnRoot

variable {t : Tree K D} {queries : List K} {results : List D} {dflt : D} {answer : K → Option D}
  {body : Node K D → Out D → Prog (Out D)}

/-- A strategy answers the batch if its loops do so below a root. -/
theorem onRoot_returns (hnone : t.root = none → ∀ q, answer q = none)
    (hbody : ∀ root, t.root = some root →
      (body root (Out.fresh queries.length results dflt)).Returns
        (lookupAll answer queries results dflt)) :
    (onRoot t queries results dflt body).Returns (lookupAll answer queries results dflt) := by
  rw [onRoot]
  cases hr : t.root with
  | none => exact returns_pure.mpr (fresh_eq_lookupAll fun q _ => hnone hr q)
  | some root => exact hbody root hr

theorem onRootQueries_returns (hnone : t.root = none → ∀ q, answer q = none)
    (hbody : ∀ root, t.root = some root → queries ≠ [] →
      (body root (Out.fresh queries.length results dflt)).Returns
        (lookupAll answer queries results dflt)) :
    (onRootQueries t queries results dflt body).Returns
      (lookupAll answer queries results dflt) := by
  refine onRoot_returns hnone fun root hr => ?_
  by_cases hq : queries = []
  · rw [if_pos (by simpa using hq)]
    exact returns_pure.mpr (fresh_eq_lookupAll (by simp [hq]))
  · rw [if_neg (by simpa using hq)]
    exact hbody root hr hq

end OnRoot

/-! ## Lanes that go down together -/

/-- `!curr_nodes[0]->isleafnode()` -/
def atInner (nodes : List (Node K D)) : Prog Bool := do
  let n ← read nodes 0
  pure (!n.isLeafNode)

/-- The lanes of a group reach the leaves together, if each step takes each of them down. -/
theorem lanes_descend {size : Nat} {P : Nat → Nat → Node K D → Prop} {step : List (Node K D) →
      Prog (List (Node K D))} {l : Nat} {nodes : List (Node K D)} (h1 : 1 ≤ size)
    (hleaf : ∀ {l i n}, P l i n → (n.isLeafNode = true ↔ l = 0))
    (hstep : ∀ l nodes, AllLanes size (P (l + 1)) nodes →
      (step nodes).Ensures (AllLanes size (P l)))
    (hnodes : AllLanes size (P l) nodes) :
    (whileM atInner step nodes).Ensures (AllLanes size (P 0)) := by
  refine Ensures.whileM (fun l nodes => AllLanes size (P l) nodes) ?_ l nodes hnodes
  intro l nodes h
  obtain ⟨n, hn, hP⟩ := h.get (i := 0) h1
  refine ⟨_, (returns_read.mpr hn).bind (returns_pure.mpr rfl), fun hinner => ?_, fun hdone => ?_⟩
  · cases l with
    | zero => simp [(hleaf hP).mpr rfl] at hinner
    | succ l => exact (hstep l nodes h).mono fun ns hns => ⟨l, Nat.lt_succ_self l, hns⟩
  · have h0 : l = 0 := (hleaf hP).mp (by simpa using hdone)
    subst h0
    exact h

variable [LinearOrder K]

theorem Tree.lookup_none {t : Tree K D} (ht : t.root = none) (key : K) : t.lookup key = none := by
  simp [Tree.lookup, Tree.entries, ht]

/-! ## NoPrefetch -/

/-- `NoPrefetch::batch_lookup` over a search of the node keys. -/
def serialLookup (find : NodeSearch K) (tr : Traits) (t : Tree K D) (queries : List K)
    (results : List D) (dflt : D) : Prog (Out D) :=
  onRoot t queries results dflt fun root out =>
    forRange queries.length (fun i out => do
      let key ← read queries i
      let curr ← descend find key root
      let leaf ← curr.toLeaf
      let slot ← find leaf.slotuse leaf.slotkey key
      leaf.collect (!tr.selfverify) key slot i out) out

/-- `NoPrefetch::batch_lookup` -/
def NoPrefetch.batchLookup (tr : Traits) (t : Tree K D) (queries : List K) (results : List D)
    (dflt : D) : Prog (Out D) := serialLookup findLower tr t queries results dflt

/-- `NoPrefetch_Linear::batch_lookup` -/
def NoPrefetchLinear.batchLookup (tr : Traits) (t : Tree K D) (queries : List K)
    (results : List D) (dflt : D) : Prog (Out D) :=
  serialLookup linearLowerBound tr t queries results dflt

section

variable {tr : Traits} {t : Tree K D} {queries : List K} {results : List D} {dflt : D}
  {find : NodeSearch K}

theorem serialLookup_returns (hfind : find.Exact) (ht : t.Verified tr)
    (hsv : tr.selfverify = false) :
    (serialLookup find tr t queries results dflt).Returns
      (lookupAll t.lookup queries results dflt) := by
  refine onRoot_returns (fun hr => Tree.lookup_none hr) fun root hr => ?_
  have hp := fits_fresh t.lookup queries results dflt
  refine serial_queries fun i key hkey done => ?_
  obtain ⟨n, hn, hpath⟩ := OnPath.descend hfind (ht root hr) key
  obtain ⟨leaf, rfl, hs, hset, _⟩ := hpath.settles hp hr (ht root hr) (getElem?_answers _ hkey)
  refine (returns_read.mpr hkey).bind (hn.bind ?_)
  refine (returns_pure.mpr rfl : (Node.leaf leaf).toLeaf.Returns leaf).bind ?_
  refine (hfind key hs).bind ?_
  rw [hsv]
  exact hset done

end

/-! ## Lanes on their search paths -/

/-- Lane `i` of the group from `start` is on level `l` of the search path of its query. -/
def LanePath (tr : Traits) (root : Node K D) (queries : List K) (start l i : Nat)
    (n : Node K D) : Prop :=
  ∃ key, queries[start + i]? = some key ∧ OnPath tr root key l n

section LanePath

variable {tr : Traits} {root : Node K D} {queries : List K} {start size : Nat}

theorem lanePath_root (hsize : start + size ≤ queries.length) :
    AllLanes size (LanePath tr root queries start root.level) (List.replicate size root) := by
  refine allLanes_replicate fun i hi => ?_
  obtain ⟨key, hkey⟩ := exists_getElem? queries (i := start + i) (by omega)
  exact ⟨key, hkey, .root⟩

theorem LanePath.isLeafNode (hroot : VerifyNode tr root.level root) {l i : Nat} {n : Node K D}
    (h : LanePath tr root queries start l i n) : n.isLeafNode = true ↔ l = 0 := by
  obtain ⟨_, _, hpath⟩ := h
  exact hpath.isLeafNode hroot

end LanePath

/-! ## Interleaved binary search -/

/-- A lane with the window of its binary search. -/
abbrev SearchLane (K D : Type) := Node K D × Window

/-- `lo[i] = 0; hi[i] = curr_nodes[i]->slotuse;` -/
def openWindow (n : Node K D) : SearchLane K D := (n, ⟨0, n.slotuse⟩)

/-- The keys of a node taken for an inner node. -/
def Node.innerKeys (n : Node K D) : Prog (List K) := do
  let inner ← n.toInner
  pure inner.slotkey

/-- The keys of a node taken for a leaf. -/
def Node.leafKeys (n : Node K D) : Prog (List K) := do
  let leaf ← n.toLeaf
  pure leaf.slotkey

/-- `if (lo[i] < hi[i])` one round of binary search over the keys of the lane's node. -/
def searchRound (slotkeys : Node K D → Prog (List K)) (key : K) (lane : SearchLane K D) :
    Prog (SearchLane K D) :=
  if lane.2.lo < lane.2.hi then do
    let slotkey ← slotkeys lane.1
    let w ← round slotkey key lane.2
    pure (lane.1, w)
  else pure lane

/-- A lane after `k` rounds of the search over the keys of its node. -/
structure Searching (slotkeys : Node K D → Prog (List K)) (key : K) (slotkey : List K)
    (slotuse k : Nat) (lane : SearchLane K D) : Prop where
  /-- The keys of the node. -/
  keys : (slotkeys lane.1).Returns slotkey
  /-- The keys do not decrease. -/
  sorted : SortedTo slotkey slotuse
  /-- The window. -/
  window : lane.2 = (Window.halve (probe slotkey key))^[k] ⟨0, slotuse⟩

section Searching

variable {slotkeys : Node K D → Prog (List K)} {key : K} {slotkey : List K} {slotuse k : Nat}
  {lane : SearchLane K D}

/-- One more round, on the same node. -/
theorem Searching.round (h : Searching slotkeys key slotkey slotuse k lane) :
    ∃ w, (searchRound slotkeys key lane).Returns (lane.1, w) ∧
      Searching slotkeys key slotkey slotuse (k + 1) (lane.1, w) := by
  have hle : lane.2.hi ≤ slotkey.length := by
    rw [h.window]
    exact (Window.iterate_halve_hi_le _ _ k).trans h.sorted.le_length
  refine ⟨lane.2.halve (probe slotkey key), ?_, h.keys, h.sorted, ?_⟩
  · rw [searchRound]
    by_cases hlt : lane.2.lo < lane.2.hi
    · rw [if_pos hlt]
      exact h.keys.bind ((round_returns hlt hle).bind (returns_pure.mpr rfl))
    · rw [if_neg hlt, Window.halve_of_not_lt hlt]
      exact returns_pure.mpr rfl
  · simp only [Function.iterate_succ_apply', h.window]

/-- Enough rounds for the slots of a node find the lower bound. -/
theorem Searching.lo_eq (slotmax : Nat) (hk : k = slotmax.size) (hle : slotuse ≤ slotmax)
    (h : Searching slotkeys key slotkey slotuse k lane) :
    lane.2.lo = lowerBound slotkey key slotuse := by
  rw [h.window, hk, iterate_size (show Window.width ⟨0, slotuse⟩ ≤ slotmax from hle)]
  exact bisect_zero_eq_lowerBound h.sorted

end Searching

/-! ## GroupPrefetch -/

/-- `GroupPrefetch::batch_lookup`, the work for one level of inner nodes. -/
def GroupPrefetch.level (innerSteps : Nat) (queries : List K) (start : Nat)
    (nodes : List (Node K D)) : Prog (List (Node K D)) := do
  let ls ← forRange (innerSteps - 1) (fun _ => lanes fun i lane => do
    let key ← read queries (start + i)
    searchRound Node.innerKeys key lane) (nodes.map openWindow)
  -- the last round is merged with the loop that fetches the children
  lanes (fun i lane => do
    let key ← read queries (start + i)
    let lane ← searchRound Node.innerKeys key lane
    let inner ← lane.1.toInner
    read inner.childid lane.2.lo) ls

/-- `GroupPrefetch::batch_lookup`, the work for one group. -/
def GroupPrefetch.batch (innerSteps leafSteps : Nat) (queries : List K) (root : Node K D)
    (start size : Nat) (out : Out D) : Prog (Out D) := do
  let nodes ← whileM atInner (GroupPrefetch.level innerSteps queries start)
    (List.replicate size root)
  let ls ← forRange leafSteps (fun _ => lanes fun i lane => do
    let key ← read queries (start + i)
    searchRound Node.leafKeys key lane) (nodes.map openWindow)
  forRange size (fun i out => do
    let lane ← read ls i
    let leaf ← lane.1.toLeaf
    let key ← read queries (start + i)
    leaf.collect true key lane.2.lo (start + i) out) out

/-- `GroupPrefetch::batch_lookup` -/
def GroupPrefetch.batchLookup (N : Nat) (tr : Traits) (t : Tree K D) (queries : List K)
    (results : List D) (dflt : D) : Prog (Out D) := do
  let innerSteps ← calcStepsInt tr.innerslotmax
  let leafSteps ← calcStepsInt tr.leafslotmax
  onRootQueries t queries results dflt fun root out =>
    groups N queries.length (GroupPrefetch.batch innerSteps leafSteps queries root) out

section GroupPrefetch

variable {tr : Traits} {t : Tree K D} {root : Node K D} {queries : List K} {results : List D}
  {dflt : D} {start size l : Nat} {nodes : List (Node K D)}

theorem GroupPrefetch.level_ensures (hroot : VerifyNode tr root.level root)
    (h : AllLanes size (LanePath tr root queries start (l + 1)) nodes) :
    (GroupPrefetch.level tr.innerslotmax.size queries start nodes).Ensures
      (AllLanes size (LanePath tr root queries start l)) := by
  -- after `k` rounds each lane is in the search of its inner node
  let P : Nat → Nat → SearchLane K D → Prop := fun k i lane =>
    ∃ (key : K) (m : InnerNode K (Node K D)) (c : Node K D), queries[start + i]? = some key ∧
      lane.1 = .inner m ∧ m.Verified tr l (VerifyNode tr l) ∧ m.route key = some c ∧
      OnPath tr root key l c ∧
      Searching Node.innerKeys key m.slotkey m.slotuse k lane
  have hround : ∀ k i lane, P k i lane → ∀ key, queries[start + i]? = some key →
      ∃ lane', (searchRound Node.innerKeys key lane).Returns lane' ∧ P (k + 1) i lane' := by
    rintro k i lane ⟨key, m, c, hkey, hm, hv, hc, hchild, hs⟩ key' hkey'
    cases hkey.symm.trans hkey'
    obtain ⟨w, hw, hs'⟩ := hs.round
    exact ⟨_, hw, key, m, c, hkey, hm, hv, hc, hchild, hs'⟩
  have h0 : AllLanes size (P 0) (nodes.map openWindow) := by
    refine h.map fun i n _ hn => ?_
    obtain ⟨key, hkey, hpath⟩ := hn
    obtain ⟨m, c, rfl, hm, hc, hchild⟩ := hpath.inner hroot
    exact ⟨key, m, c, hkey, rfl, hm, hc, hchild,
      (returns_pure.mpr rfl : (Node.inner m).toInner.Returns m).bind (returns_pure.mpr rfl),
      hm.sorted, rfl⟩
  rw [GroupPrefetch.level]
  refine Ensures.bind (Ensures.rounds P h0 fun k i lane _ hlane => ?_) fun ls hls => ?_
  · obtain ⟨key, _, _, hkey, _⟩ := id hlane
    obtain ⟨lane', hr, hlane'⟩ := hround k i lane hlane key hkey
    exact (returns_read.mpr hkey).seq (hr.ensures hlane')
  · refine Ensures.lanes hls fun i lane _ hlane => ?_
    obtain ⟨key, _, _, hkey, _⟩ := id hlane
    obtain ⟨lane', hr, key', m, c, hkey', hm, hv, hc, hchild, hs⟩ :=
      hround _ i lane hlane key hkey
    cases hkey.symm.trans hkey'
    refine (returns_read.mpr hkey).seq (hr.seq ?_)
    -- an inner node has a slot, so the number of rounds is at least one
    have hpos : 0 < tr.innerslotmax.size :=
      Nat.size_pos.mpr (hv.slotuse_pos.trans_le hv.slotuse_le)
    have hlo := hs.lo_eq tr.innerslotmax (by omega) hv.slotuse_le
    rw [hm, hlo]
    exact (returns_pure.mpr rfl : (Node.inner m).toInner.Returns m).seq
      (Ensures.read hc ⟨key, hkey, hchild⟩)

theorem GroupPrefetch.batch_ensures (ht : t.root = some root)
    (hroot : VerifyNode tr root.level root) (h1 : 1 ≤ size)
    (hsize : start + size ≤ queries.length) :
    (GroupPrefetch.batch tr.innerslotmax.size tr.leafslotmax.size queries root start size
      (progress (queries.map t.lookup) (Out.fresh queries.length results dflt) (· < start))).Ensures
      (· = progress (queries.map t.lookup) (Out.fresh queries.length results dflt)
        (· < start + size)) := by
  have hp := fits_fresh t.lookup queries results dflt
  let P : Nat → Nat → SearchLane K D → Prop := fun k i lane =>
    ∃ (key : K) (leaf : LeafNode K D), queries[start + i]? = some key ∧ lane.1 = .leaf leaf ∧
      OnPath tr root key 0 (.leaf leaf) ∧ leaf.slotuse ≤ tr.leafslotmax ∧
      Searching Node.leafKeys key leaf.slotkey leaf.slotuse k lane
  rw [GroupPrefetch.batch]
  refine Ensures.bind (lanes_descend h1 (LanePath.isLeafNode hroot)
    (fun l nodes h => GroupPrefetch.level_ensures hroot h) (lanePath_root hsize))
    fun nodes hnodes => ?_
  have h0 : AllLanes size (P 0) (nodes.map openWindow) := by
    refine hnodes.map fun i n _ hn => ?_
    obtain ⟨key, hkey, hpath⟩ := hn
    obtain ⟨leaf, rfl, hv, _⟩ := hpath.lookup_leaf ht hroot
    exact ⟨key, leaf, hkey, rfl, hpath, hv.slotuse_le,
      (returns_pure.mpr rfl : (Node.leaf leaf).toLeaf.Returns leaf).bind (returns_pure.mpr rfl),
      hv.sorted, rfl⟩
  refine Ensures.bind (Ensures.rounds P h0 fun k i lane _ hlane => ?_) fun ls hls => ?_
  · obtain ⟨key, leaf, hkey, hn, hpath, hle, hs⟩ := hlane
    obtain ⟨w, hw, hs'⟩ := hs.round
    exact (returns_read.mpr hkey).seq (hw.ensures ⟨key, leaf, hkey, hn, hpath, hle, hs'⟩)
  · refine collect_ensures rfl fun i hi done => ?_
    obtain ⟨lane, hlane, key, leaf, hkey, hn, hpath, hle, hs⟩ := hls.get hi
    have hlo := hs.lo_eq tr.leafslotmax rfl hle
    obtain ⟨leaf', hleaf', _, hset, _⟩ := hpath.settles hp ht hroot (getElem?_answers _ hkey)
    cases hleaf'
    refine (returns_read.mpr hlane).bind ?_
    rw [hn, hlo]
    refine (returns_pure.mpr rfl : (Node.leaf leaf).toLeaf.Returns leaf).bind ?_
    exact (returns_read.mpr hkey).bind (hset done)

theorem GroupPrefetch.batchLookup_returns (ht : t.Verified tr) {N : Nat} (hN : 1 ≤ N) :
    (GroupPrefetch.batchLookup N tr t queries results dflt).Returns
      (lookupAll t.lookup queries results dflt) := by
  have hinner := tr.innerslotmax_lt
  have hleaf := tr.leafslotmax_lt
  refine (calcStepsInt_returns (by omega)).bind ((calcStepsInt_returns (by omega)).bind ?_)
  refine onRootQueries_returns (fun hr => Tree.lookup_none hr) fun root hr _ => ?_
  exact groups_queries hN fun start size h1 h2 =>
    GroupPrefetch.batch_ensures hr (ht root hr) h1 h2

end GroupPrefetch

/-! ## VectorizedSearch and GroupPrefetch_Linear -/

/-- The work for one level of inner nodes: first find the slots, then fetch the children. -/
def slotsLevel (find : NodeSearch K) (queries : List K) (start : Nat) (nodes : List (Node K D)) :
    Prog (List (Node K D)) := do
  let ls ← lanes (fun i n => do
    let inner ← n.toInner
    let key ← read queries (start + i)
    let slot ← find inner.slotuse inner.slotkey key
    pure (n, slot)) nodes
  lanes (fun _ lane => do
    let inner ← lane.1.toInner
    read inner.childid lane.2) ls

/-- The work for one group. -/
def slotsBatch (find : NodeSearch K) (store : Bool) (queries : List K) (root : Node K D)
    (start size : Nat) (out : Out D) : Prog (Out D) := do
  let nodes ← whileM atInner (slotsLevel find queries start) (List.replicate size root)
  let ls ← lanes (fun i n => do
    let leaf ← n.toLeaf
    let key ← read queries (start + i)
    let slot ← find leaf.slotuse leaf.slotkey key
    pure (n, slot)) nodes
  forRange size (fun i out => do
    let lane ← read ls i
    let leaf ← lane.1.toLeaf
    let key ← read queries (start + i)
    leaf.collect store key lane.2 (start + i) out) out

/-- `VectorizedSearch::batch_lookup`, over its search of the node keys. -/
def VectorizedSearch.batchLookup (find : NodeSearch K) (N : Nat) (tr : Traits) (t : Tree K D)
    (queries : List K) (results : List D) (dflt : D) : Prog (Out D) :=
  onRootQueries t queries results dflt fun root out =>
    groups N queries.length (slotsBatch find (!tr.selfverify) queries root) out

/-- `GroupPrefetch_Linear::batch_lookup`: it stores the data whatever `selfverify` says. -/
def GroupPrefetchLinear.batchLookup (N : Nat) (t : Tree K D) (queries : List K)
    (results : List D) (dflt : D) : Prog (Out D) :=
  onRootQueries t queries results dflt fun root out =>
    groups N queries.length (slotsBatch linearLowerBound true queries root) out

section Slots

variable {tr : Traits} {t : Tree K D} {root : Node K D} {queries : List K} {results : List D}
  {dflt : D} {start size l N : Nat} {nodes : List (Node K D)} {find : NodeSearch K}

theorem slotsLevel_ensures (hfind : find.Exact) (hroot : VerifyNode tr root.level root)
    (h : AllLanes size (LanePath tr root queries start (l + 1)) nodes) :
    (slotsLevel find queries start nodes).Ensures
      (AllLanes size (LanePath tr root queries start l)) := by
  let P : Nat → Node K D × Nat → Prop := fun i lane =>
    ∃ (m : InnerNode K (Node K D)) (c : Node K D), lane.1 = .inner m ∧
      m.childid[lane.2]? = some c ∧ LanePath tr root queries start l i c
  rw [slotsLevel]
  refine Ensures.bind (P := AllLanes size P) (Ensures.lanes h fun i n _ hn => ?_) fun ls hls => ?_
  · obtain ⟨key, hkey, hpath⟩ := hn
    obtain ⟨m, c, rfl, hf, hc, hchild⟩ := hpath.find_inner hfind hroot
    refine (returns_pure.mpr rfl : (Node.inner m).toInner.Returns m).seq ?_
    refine (returns_read.mpr hkey).seq (hf.seq (Ensures.pure ?_))
    exact ⟨m, c, rfl, hc, key, hkey, hchild⟩
  · refine Ensures.lanes hls fun i lane _ hlane => ?_
    obtain ⟨m, c, hm, hc, hpath⟩ := hlane
    rw [hm]
    exact (returns_pure.mpr rfl : (Node.inner m).toInner.Returns m).seq (Ensures.read hc hpath)

theorem slotsBatch_ensures (hfind : find.Exact) (ht : t.root = some root)
    (hroot : VerifyNode tr root.level root) (h1 : 1 ≤ size)
    (hsize : start + size ≤ queries.length) :
    (slotsBatch find true queries root start size
      (progress (queries.map t.lookup) (Out.fresh queries.length results dflt) (· < start))).Ensures
      (· = progress (queries.map t.lookup) (Out.fresh queries.length results dflt)
        (· < start + size)) := by
  have hp := fits_fresh t.lookup queries results dflt
  let P : Nat → Node K D × Nat → Prop := fun i lane =>
    ∃ (key : K) (leaf : LeafNode K D), queries[start + i]? = some key ∧ lane.1 = .leaf leaf ∧
      OnPath tr root key 0 (.leaf leaf) ∧ lane.2 = lowerBound leaf.slotkey key leaf.slotuse
  rw [slotsBatch]
  refine Ensures.bind (lanes_descend h1 (LanePath.isLeafNode hroot)
    (fun l nodes h => slotsLevel_ensures hfind hroot h) (lanePath_root hsize))
    fun nodes hnodes => ?_
  refine Ensures.bind (P := AllLanes size P) (Ensures.lanes hnodes fun i n _ hn => ?_)
    fun ls hls => ?_
  · obtain ⟨key, hkey, hpath⟩ := hn
    obtain ⟨leaf, rfl, hv, _⟩ := hpath.lookup_leaf ht hroot
    refine (returns_pure.mpr rfl : (Node.leaf leaf).toLeaf.Returns leaf).seq ?_
    refine (returns_read.mpr hkey).seq ((hfind key hv.sorted).seq (Ensures.pure ?_))
    exact ⟨key, leaf, hkey, rfl, hpath, rfl⟩
  · refine collect_ensures rfl fun i hi done => ?_
    obtain ⟨lane, hlane, key, leaf, hkey, hn, hpath, hslot⟩ := hls.get hi
    obtain ⟨leaf', hleaf', _, hset, _⟩ := hpath.settles hp ht hroot (getElem?_answers _ hkey)
    cases hleaf'
    refine (returns_read.mpr hlane).bind ?_
    rw [hn, hslot]
    refine (returns_pure.mpr rfl : (Node.leaf leaf).toLeaf.Returns leaf).bind ?_
    exact (returns_read.mpr hkey).bind (hset done)

theorem VectorizedSearch.batchLookup_returns (hfind : find.Exact) (ht : t.Verified tr)
    (hsv : tr.selfverify = false) (hN : 1 ≤ N) :
    (VectorizedSearch.batchLookup find N tr t queries results dflt).Returns
      (lookupAll t.lookup queries results dflt) := by
  refine onRootQueries_returns (fun hr => Tree.lookup_none hr) fun root hr _ => ?_
  rw [hsv]
  exact groups_queries hN fun start size h1 h2 =>
    slotsBatch_ensures hfind hr (ht root hr) h1 h2

theorem GroupPrefetchLinear.batchLookup_returns (ht : t.Verified tr) (hN : 1 ≤ N) :
    (GroupPrefetchLinear.batchLookup N t queries results dflt).Returns
      (lookupAll t.lookup queries results dflt) := by
  refine onRootQueries_returns (fun hr => Tree.lookup_none hr) fun root hr _ => ?_
  exact groups_queries hN fun start size h1 h2 =>
    slotsBatch_ensures linearLowerBound_exact hr (ht root hr) h1 h2

end Slots

/-! ## VectorizedSearch_Linear -/

/-- `if (store) results[i] = leaf->slotkey[slot]; found[i] = true;`: the key, not the data. -/
def LeafNode.emitKey (leaf : LeafNode K K) (store : Bool) (slot i : Nat) (out : Out K) :
    Prog (Out K) :=
  if store then do
    let x ← read leaf.slotkey slot
    out.hit i x
  else out.mark i

/-- The work for one group. -/
def VectorizedSearchLinear.batch (store : Bool) (queries : List K) (root : Node K K)
    (start size : Nat) (out : Out K) : Prog (Out K) := do
  let nodes ← whileM atInner (lanes fun i n => do
    let key ← read queries (start + i)
    stepDown linearLowerBound key n) (List.replicate size root)
  forRange size (fun i out => do
    let n ← read nodes i
    let leaf ← n.toLeaf
    let key ← read queries (start + i)
    let slot ← linearLowerBound leaf.slotuse leaf.slotkey key
    if (← leaf.hasKey key slot) then leaf.emitKey store slot (start + i) out
    else out.miss (start + i)) out

/-- `VectorizedSearch_Linear::batch_lookup`.  It stores a key into the results, so the data of the
tree are of the type of its keys. -/
def VectorizedSearchLinear.batchLookup (N : Nat) (tr : Traits) (t : Tree K K) (queries : List K)
    (results : List K) (dflt : K) : Prog (Out K) :=
  onRootQueries t queries results dflt fun root out =>
    groups N queries.length (VectorizedSearchLinear.batch (!tr.selfverify) queries root) out

/-- What `VectorizedSearch_Linear` answers: the key itself, if the tree has it. -/
def Tree.lookupKey (t : Tree K K) (key : K) : Option K := (t.lookup key).map fun _ => key

section VectorizedSearchLinear

variable {tr : Traits} {t : Tree K K} {root : Node K K} {queries : List K} {results : List K}
  {dflt : K} {start size N : Nat}

theorem VectorizedSearchLinear.batch_ensures (ht : t.root = some root)
    (hroot : VerifyNode tr root.level root) (h1 : 1 ≤ size)
    (hsize : start + size ≤ queries.length) :
    (VectorizedSearchLinear.batch true queries root start size
      (progress (queries.map t.lookupKey) (Out.fresh queries.length results dflt)
        (· < start))).Ensures
      (· = progress (queries.map t.lookupKey) (Out.fresh queries.length results dflt)
        (· < start + size)) := by
  have hp := fits_fresh t.lookupKey queries results dflt
  rw [VectorizedSearchLinear.batch]
  refine Ensures.bind (lanes_descend (P := LanePath tr root queries start) h1
    (LanePath.isLeafNode hroot) (fun l nodes h => Ensures.lanes h fun i n _ hn => ?_)
    (lanePath_root hsize))
    fun nodes hnodes => ?_
  · obtain ⟨key, hkey, hpath⟩ := hn
    exact (returns_read.mpr hkey).seq
      ((hpath.stepDown linearLowerBound_exact hroot).mono fun c hc => ⟨key, hkey, hc⟩)
  · refine collect_ensures rfl fun i hi done => ?_
    obtain ⟨n, hn, key, hkey, hpath⟩ := hnodes.get hi
    obtain ⟨leaf, rfl, hs, hcase⟩ := hpath.hasKey ht hroot
    refine (returns_read.mpr hn).bind ?_
    refine (returns_pure.mpr rfl : (Node.leaf leaf).toLeaf.Returns leaf).bind ?_
    refine (returns_read.mpr hkey).bind ((linearLowerBound_exact key hs).bind ?_)
    have hans := getElem?_answers t.lookupKey hkey
    rcases hcase with ⟨hf, hnone⟩ | ⟨d, hf, hx, _, hsome⟩
    · rw [Tree.lookupKey, hnone] at hans
      exact hf.bind (settles_miss hp hans done)
    · rw [Tree.lookupKey, hsome] at hans
      exact hf.bind ((returns_read.mpr hx).bind (settles_hit hp hans done))

theorem VectorizedSearchLinear.batchLookup_returns (ht : t.Verified tr)
    (hsv : tr.selfverify = false) (hN : 1 ≤ N) :
    (VectorizedSearchLinear.batchLookup N tr t queries results dflt).Returns
      (lookupAll t.lookupKey queries results dflt) := by
  refine onRootQueries_returns (fun hr q => ?_) fun root hr _ => ?_
  · rw [Tree.lookupKey, Tree.lookup_none hr]
    rfl
  · rw [hsv]
    exact groups_queries hN fun start size h1 h2 =>
      VectorizedSearchLinear.batch_ensures hr (ht root hr) h1 h2

end VectorizedSearchLinear

end BTree
