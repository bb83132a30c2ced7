import PrefetchBench.BTree.Lockstep

/-!
# find and find_group

`stx::btree::find` walks down one search path.  `find_group` walks down many, interleaved as in
`GroupPrefetch`, but with a fixed number of eight rounds for every node, whatever its capacity.
Eight rounds cannot compare every slot of a node with 256 or more keys.  A lane whose window has
not reached the lower bound leaves its search path to the left, and then never meets its key again
(`GroupLane`).  So a stored key is found exactly if eight rounds reach its lower bound in every
node of its search path (`PathProbed`).

On a tree without a root, `find_group` returns before it writes a flag, so flags that were set
before stay set.
-/

namespace BTree

open Prog KeyArray Batch

variable {K D : Type}

/-! ## The vectors -/

/-- The vectors `find_group` works on: those passed in, with an entry for every key. -/
def grown (keys : List K) (prior : Out D) (dflt : D) : Out D :=
  ⟨grow prior.found keys.length false, grow prior.results keys.length dflt⟩

theorem fits_grown (answer : K → Option D) (keys : List K) (prior : Out D) (dflt : D) :
    Fits (keys.map answer) (grown keys prior dflt) :=
  ⟨by rw [List.length_map]; exact length_le_grow _ _ _,
    by rw [List.length_map]; exact length_le_grow _ _ _⟩

theorem found_grown {keys : List K} {i : Nat} (prior : Out D) (dflt : D) (hi : i < keys.length) :
    (grown keys prior dflt).found[i]? = some (prior.found[i]?.getD false) :=
  getElem?_grow _ _ hi

theorem results_grown {keys : List K} {i : Nat} (prior : Out D) (dflt : D)
    (hi : i < keys.length) :
    (grown keys prior dflt).results[i]? = some (prior.results[i]?.getD dflt) :=
  getElem?_grow _ _ hi

variable [LinearOrder K]

/-! ## find -/

/-- `find_lower` of the tree: binary search in a node whose keys take more bytes than the
threshold of the traits, and else the scan `while (lo < slotuse && slotkey[lo] < key) ++lo`. -/
def stxFindLower (binary : Bool) : NodeSearch K :=
  if binary then findLower else linearLowerBound

theorem stxFindLower_exact (binary : Bool) : (stxFindLower (K := K) binary).Exact := by
  cases binary
  · exact linearLowerBound_exact
  · exact findLower_exact

/-- `find`: the leaf and the slot of the key, or `none` for `end()`. -/
def Tree.find (innerBinary leafBinary : Bool) (t : Tree K D) (key : K) :
    Prog (Option (LeafNode K D × Nat)) :=
  match t.root with
  | none => pure none
  | some root => do
      let n ← descend (stxFindLower innerBinary) key root
      let leaf ← n.toLeaf
      let slot ← stxFindLower leafBinary leaf.slotuse leaf.slotkey key
      if (← leaf.hasKey key slot) then pure (some (leaf, slot)) else pure none

/-- `find` locates the data of the first entry of a stored key, and returns `end()` otherwise. -/
theorem Tree.find_returns {tr : Traits} {t : Tree K D} (ht : t.Verified tr)
    (innerBinary leafBinary : Bool) (key : K) :
    ∃ r, (t.find innerBinary leafBinary key).Returns r ∧
      (r = none ∧ t.lookup key = none ∨
        ∃ leaf slot d, r = some (leaf, slot) ∧ leaf.slotdata[slot]? = some d ∧
          t.lookup key = some d) := by
  rw [Tree.find]
  cases hr : t.root with
  | none => exact ⟨none, returns_pure.mpr rfl, Or.inl ⟨rfl, Tree.lookup_none hr key⟩⟩
  | some root =>
      obtain ⟨n, hn, hpath⟩ := OnPath.descend (stxFindLower_exact innerBinary) (ht root hr) key
      obtain ⟨leaf, rfl, hs, hcase⟩ := hpath.hasKey hr (ht root hr)
      have hleaf : (Node.leaf leaf).toLeaf.Returns leaf := returns_pure.mpr rfl
      have hslot := stxFindLower_exact leafBinary key hs
      rcases hcase with ⟨hf, hnone⟩ | ⟨d, hf, _, hd, hsome⟩
      · exact ⟨none, hn.bind (hleaf.bind (hslot.bind (hf.bind (returns_pure.mpr rfl)))),
          Or.inl ⟨rfl, hnone⟩⟩
      · exact ⟨_, hn.bind (hleaf.bind (hslot.bind (hf.bind (returns_pure.mpr rfl)))),
          Or.inr ⟨leaf, _, d, rfl, hd, hsome⟩⟩

/-- The vectors agree with `find` on every key: the flag says whether `find` locates it, and then
the value is the data that `find` locates. -/
def FindAgrees (innerBinary leafBinary : Bool) (t : Tree K D) (keys : List K) (out : Out D) :
    Prop :=
  ∀ (i : Nat) (key : K), keys[i]? = some key →
    ∃ r, (t.find innerBinary leafBinary key).Returns r ∧
      (out.found[i]? = some true ↔ r ≠ none) ∧
      ∀ leaf slot, r = some (leaf, slot) → out.results[i]? = leaf.slotdata[slot]?

section FindAgrees

variable {tr : Traits} {t : Tree K D} {keys : List K} {prior : Out D} {dflt : D}

/-- The vectors as they are passed in agree with `find` on an empty tree if no flag is set. -/
theorem findAgrees_grown_iff (hr : t.root = none) (innerBinary leafBinary : Bool) :
    FindAgrees innerBinary leafBinary t keys (grown keys prior dflt) ↔
      ∀ i, i < keys.length → prior.found[i]? ≠ some true := by
  have hfind : ∀ key, (t.find innerBinary leafBinary key).Returns none := fun key => by
    rw [Tree.find, hr]
    exact returns_pure.mpr rfl
  have hflag : ∀ i, i < keys.length →
      ((grown keys prior dflt).found[i]? = some true ↔ prior.found[i]? = some true) := by
    intro i hi
    rw [found_grown _ _ hi]
    cases prior.found[i]? <;> simp
  constructor
  · intro h i hi hset
    obtain ⟨key, hkey⟩ := exists_getElem? keys hi
    obtain ⟨r, hrr, hiff, _⟩ := h i key hkey
    cases hrr.det (hfind key)
    exact hiff.mp ((hflag i hi).mpr hset) rfl
  · intro h i key hkey
    have hi := (List.getElem?_eq_some_iff.mp hkey).1
    refine ⟨none, hfind key, ?_, fun leaf slot hc => by cases hc⟩
    rw [hflag i hi]
    simp [h i hi]

/-- Lookups of the stored keys, and none of other keys, agree with `find`. -/
theorem findAgrees_answered (ht : t.Verified tr) {answer : K → Option D}
    (hanswer : ∀ key ∈ keys, answer key = t.lookup key) (innerBinary leafBinary : Bool) :
    FindAgrees innerBinary leafBinary t keys
      (answered (keys.map answer) (grown keys prior dflt)) := by
  intro i key hkey
  obtain ⟨hi, _⟩ := List.getElem?_eq_some_iff.mp hkey
  obtain ⟨r, hrr, hcase⟩ := Tree.find_returns ht innerBinary leafBinary key
  refine ⟨r, hrr, ?_⟩
  have hfound := found_answered (fits_grown answer keys prior dflt) hkey
  have hresult : (answered (keys.map answer) (grown keys prior dflt)).results[i]? = some _ :=
    results_answered hkey (results_grown prior dflt hi)
  rw [hanswer key (List.mem_of_getElem? hkey)] at hfound hresult
  rw [hfound, hresult]
  rcases hcase with ⟨rfl, hnone⟩ | ⟨leaf, slot, d, rfl, hd, hsome⟩
  · rw [hnone]
    exact ⟨by simp, fun leaf slot hc => by cases hc⟩
  · rw [hsome]
    refine ⟨by simp, fun leaf' slot' he => ?_⟩
    cases he
    exact hd.symm

end FindAgrees

/-! ## find_group -/

/-- The work for one level of inner nodes: eight rounds, then the children. -/
def findGroupLevel (keys : List K) (start : Nat) (nodes : List (Node K D)) :
    Prog (List (Node K D)) := do
  let ls ← forRange 8 (fun _ => lanes fun i lane => do
    let key ← read keys (start + i)
    searchRound Node.innerKeys key lane) (nodes.map openWindow)
  lanes (fun _ lane => do
    let inner ← lane.1.toInner
    read inner.childid lane.2.lo) ls

/-- The work for one group. -/
def findGroupBatch (keys : List K) (root : Node K D) (start size : Nat) (out : Out D) :
    Prog (Out D) := do
  let nodes ← whileM atInner (findGroupLevel keys start) (List.replicate size root)
  let ls ← forRange 8 (fun _ => lanes fun i lane => do
    let key ← read keys (start + i)
    searchRound Node.leafKeys key lane) (nodes.map openWindow)
  forRange size (fun i out => do
    let lane ← read ls i
    let leaf ← lane.1.toLeaf
    let key ← read keys (start + i)
    leaf.collect true key lane.2.lo (start + i) out) out

/-- `find_group` of a map, with the vectors as they are passed in. -/
def Tree.findGroup (N : Nat) (t : Tree K D) (keys : List K) (prior : Out D) (dflt : D) :
    Prog (Out D) :=
  match t.root with
  | none => pure (grown keys prior dflt)
  | some root =>
      if keys.isEmpty then pure (grown keys prior dflt)
      else groups N keys.length (findGroupBatch keys root) (grown keys prior dflt)

/-! ## Where eight rounds suffice -/

/-- Eight rounds over the slots of the node reach the lower bound of the key: it is the first
slot, or the slot before it is one they can compare. -/
def Node.Probed (n : Node K D) (key : K) : Prop :=
  lowerBound n.slotkey key n.slotuse = 0 ∨
    Window.midpointWithin 8 0 n.slotuse (lowerBound n.slotkey key n.slotuse - 1) = true

/-- Eight rounds reach the lower bound of the key in every node of its search path. -/
def PathProbed (key : K) : Nat → Node K D → Prop
  | 0, n => n.Probed key
  | l + 1, .inner m => (Node.inner m).Probed key ∧ ∀ c, m.route key = some c → PathProbed key l c
  | _ + 1, .leaf _ => True

/-- They do in every node of fewer than 256 slots. -/
theorem Node.probed_of_slotuse {n : Node K D} (h : n.slotuse < 256) (key : K) : n.Probed key := by
  have hle := lowerBound_le n.slotkey key n.slotuse
  by_cases h0 : lowerBound n.slotkey key n.slotuse = 0
  · exact Or.inl h0
  · exact Or.inr (Window.midpointWithin_of_width 8 (by omega) (Nat.zero_le _) (by omega))

/-- After eight rounds the window is at the lower bound, or before it if they do not suffice. -/
theorem Searching.eight {slotkeys : Node K D → Prog (List K)} {key : K} {n : Node K D}
    {lane : SearchLane K D} (h : Searching slotkeys key n.slotkey n.slotuse 8 lane) :
    (lane.2.lo = lowerBound n.slotkey key n.slotuse ∧ n.Probed key) ∨
      (lane.2.lo < lowerBound n.slotkey key n.slotuse ∧ ¬ n.Probed key) := by
  obtain ⟨hle, hiff⟩ := Window.iterate_halve_split (p := probe n.slotkey key)
    (r := lowerBound n.slotkey key n.slotuse) 8 (w := ⟨0, n.slotuse⟩) (Nat.zero_le _)
    (lowerBound_le n.slotkey key n.slotuse) (fun i _ hi => (h.sorted.probe_split key).1 i hi)
    (h.sorted.probe_split key).2
  rw [← h.window] at hle hiff
  by_cases hp : n.Probed key
  · exact Or.inl ⟨hiff.mpr hp, hp⟩
  · exact Or.inr ⟨Nat.lt_of_le_of_ne hle fun he => hp (hiff.mp he), hp⟩

/-- A lane of `find_group` on level `l`: still on the search path, which is probed up to here, or
off it in a part of the tree without the key. -/
def GroupLane (tr : Traits) (root : Node K D) (key : K) (l : Nat) (n : Node K D) : Prop :=
  (OnPath tr root key l n ∧ (PathProbed key root.level root ↔ PathProbed key l n)) ∨
    (VerifyNode tr l n ∧ ¬ PathProbed key root.level root ∧ ∀ e ∈ n.entries l, e.1 ≠ key)

section GroupLane

variable {tr : Traits} {t : Tree K D} {root : Node K D} {key : K} {l : Nat} {n : Node K D}

theorem GroupLane.verified (hroot : VerifyNode tr root.level root)
    (h : GroupLane tr root key l n) : VerifyNode tr l n := by
  rcases h with ⟨hpath, _⟩ | ⟨hv, _⟩
  · exact (hpath.spec hroot).1
  · exact hv

/-- One level down. -/
theorem GroupLane.child (hroot : VerifyNode tr root.level root)
    {m : InnerNode K (Node K D)} (h : GroupLane tr root key (l + 1) (.inner m))
    {lane : SearchLane K D} (hs : Searching Node.innerKeys key m.slotkey m.slotuse 8 lane) :
    ∃ c, m.childid[lane.2.lo]? = some c ∧ GroupLane tr root key l c := by
  have hv : m.Verified tr l (VerifyNode tr l) := h.verified hroot
  have hle := lowerBound_le m.slotkey key m.slotuse
  have hb : ∀ c : Node K D, VerifyNode tr l c → ∃ mn mx, Bounded l c mn mx :=
    fun _ hc => VerifyNode.bounds hc
  have height := Searching.eight (n := .inner m) hs
  have hlo : lane.2.lo < m.slotuse + 1 := by
    rcases height with ⟨he, _⟩ | ⟨hlt, _⟩
    · rw [he]
      exact Nat.lt_succ_of_le hle
    · exact hlt.trans_le (hle.trans (Nat.le_succ _))
  obtain ⟨c, mn, mx, hc, hvc, hbc, _, hmax⟩ := hv.child hb lane.2.lo hlo
  refine ⟨c, hc, ?_⟩
  rcases h with ⟨hpath, hiff⟩ | ⟨_, hnot, hmiss⟩
  · rcases height with ⟨he, hp⟩ | ⟨hlt, hp⟩
    · -- the window has reached the lower bound
      have hroute : m.route key = some c := by
        rw [InnerNode.route, ← hc, he]
        rfl
      refine Or.inl ⟨.child hpath hroute, hiff.trans ?_⟩
      rw [PathProbed]
      refine ⟨fun h => h.2 c hroute, fun h => ⟨hp, fun c' hc' => ?_⟩⟩
      cases hroute.symm.trans hc'
      exact h
    · -- it has not, so the child lies below the key
      refine Or.inr ⟨hvc, fun hall => hp (hiff.mp hall).1, fun e he heq => ?_⟩
      have hx := lt_of_lt_lowerBound hlt (hmax (hlt.trans_le hle))
      exact absurd heq ((hbc.le_max e he).trans_lt hx).ne
  · refine Or.inr ⟨hvc, hnot, fun e he => hmiss e ?_⟩
    exact InnerNode.mem_entries.mpr ⟨lane.2.lo, hlo, c, hc, he⟩

open Classical in
/-- What `find_group` answers for a key below a root: the lookup, if the path is probed. -/
noncomputable def groupAnswer (t : Tree K D) (root : Node K D) (key : K) : Option D :=
  if PathProbed key root.level root then t.lookup key else none

/-- The answer at the leaf. -/
theorem GroupLane.settles {ans : List (Option D)} {prior : Out D} {i : Nat}
    (hp : Fits ans prior) (ht : t.root = some root) (hroot : VerifyNode tr root.level root)
    {leaf : LeafNode K D} (h : GroupLane tr root key 0 (.leaf leaf))
    (hi : ans[i]? = some (groupAnswer t root key)) {lane : SearchLane K D}
    (hs : Searching Node.leafKeys key leaf.slotkey leaf.slotuse 8 lane) :
    Settles ans prior i (leaf.collect true key lane.2.lo i) := by
  have hv : leaf.Verified tr := h.verified hroot
  have hle := lowerBound_le leaf.slotkey key leaf.slotuse
  have height := Searching.eight (n := .leaf leaf) hs
  have hlo : lane.2.lo ≤ leaf.slotuse := by
    rcases height with ⟨he, _⟩ | ⟨hlt, _⟩
    · rw [he]
      exact hle
    · exact hlt.le.trans hle
  -- a leaf without the key in the slot is a miss
  have hmiss : (∀ x, lane.2.lo < leaf.slotuse → leaf.slotkey[lane.2.lo]? = some x → key ≠ x) →
      groupAnswer t root key = none →
      Settles ans prior i (leaf.collect true key lane.2.lo i) := by
    intro hne hnone
    rw [hnone] at hi
    have hf : (leaf.hasKey key lane.2.lo).Returns false := by
      rw [LeafNode.hasKey]
      by_cases hlt : lane.2.lo < leaf.slotuse
      · obtain ⟨x, hx⟩ := exists_getElem? leaf.slotkey (hlt.trans_le hv.sorted.le_length)
        rw [if_pos hlt]
        exact (returns_read.mpr hx).bind (returns_pure.mpr (by simpa using hne x hlt hx))
      · rw [if_neg hlt]
        exact returns_pure.mpr rfl
    exact fun done => hf.bind (settles_miss hp hi done)
  rcases h with ⟨hpath, hiff⟩ | ⟨_, hnot, habsent⟩
  · rcases height with ⟨he, hprobed⟩ | ⟨hlt, hprobed⟩
    · rw [groupAnswer, if_pos (hiff.mpr hprobed)] at hi
      obtain ⟨leaf', hleaf', _, hset, _⟩ := hpath.settles hp ht hroot hi
      cases hleaf'
      rw [he]
      exact hset
    · refine hmiss (fun x _ hx => (lt_of_lt_lowerBound hlt hx).ne') ?_
      rw [groupAnswer, if_neg fun hall => hprobed (hiff.mp hall)]
  · refine hmiss (fun x hlt hx heq => ?_) (by rw [groupAnswer, if_neg hnot])
    obtain ⟨d, hd⟩ := exists_getElem? leaf.slotdata (hlt.trans_le hv.data_le)
    exact habsent (x, d)
      (List.mem_of_getElem? ((LeafNode.getElem?_entries hlt).mpr ⟨hx, hd⟩)) heq.symm

end GroupLane

/-! ## The whole of find_group -/

section FindGroup

variable {tr : Traits} {t : Tree K D} {root : Node K D} {keys : List K} {prior : Out D}
  {dflt : D} {start size N : Nat}

theorem findGroupLevel_ensures (hroot : VerifyNode tr root.level root) {l : Nat}
    {nodes : List (Node K D)}
    (h : AllLanes size (fun i n => ∃ key, keys[start + i]? = some key ∧
      GroupLane tr root key (l + 1) n) nodes) :
    (findGroupLevel keys start nodes).Ensures (AllLanes size fun i n =>
      ∃ key, keys[start + i]? = some key ∧ GroupLane tr root key l n) := by
  let P : Nat → Nat → SearchLane K D → Prop := fun k i lane =>
    ∃ (key : K) (m : InnerNode K (Node K D)), keys[start + i]? = some key ∧ lane.1 = .inner m ∧
      GroupLane tr root key (l + 1) (.inner m) ∧
      Searching Node.innerKeys key m.slotkey m.slotuse k lane
  have h0 : AllLanes size (P 0) (nodes.map openWindow) := by
    refine h.map fun i n _ hn => ?_
    obtain ⟨key, hkey, hlane⟩ := hn
    have hv := hlane.verified hroot
    cases n with
    | leaf m => exact hv.elim
    | inner m =>
        have hm : m.Verified tr l (VerifyNode tr l) := hv
        exact ⟨key, m, hkey, rfl, hlane,
          (returns_pure.mpr rfl : (Node.inner m).toInner.Returns m).bind (returns_pure.mpr rfl),
          hm.sorted, rfl⟩
  rw [findGroupLevel]
  refine Ensures.bind (Ensures.rounds P h0 fun k i lane _ hlane => ?_) fun ls hls => ?_
  · obtain ⟨key, m, hkey, hm, hgroup, hs⟩ := hlane
    obtain ⟨w, hw, hs'⟩ := hs.round
    exact (returns_read.mpr hkey).seq (hw.ensures ⟨key, m, hkey, hm, hgroup, hs'⟩)
  · refine Ensures.lanes hls fun i lane _ hlane => ?_
    obtain ⟨key, m, hkey, hm, hgroup, hs⟩ := hlane
    obtain ⟨c, hc, hchild⟩ := hgroup.child hroot hs
    rw [hm]
    exact (returns_pure.mpr rfl : (Node.inner m).toInner.Returns m).seq
      (Ensures.read hc ⟨key, hkey, hchild⟩)

theorem findGroupBatch_ensures (ht : t.root = some root) (hroot : VerifyNode tr root.level root)
    (hp : Fits (keys.map (groupAnswer t root)) prior) (h1 : 1 ≤ size)
    (hsize : start + size ≤ keys.length) :
    (findGroupBatch keys root start size
      (progress (keys.map (groupAnswer t root)) prior (· < start))).Ensures
      (· = progress (keys.map (groupAnswer t root)) prior (· < start + size)) := by
  let P : Nat → Nat → SearchLane K D → Prop := fun k i lane =>
    ∃ (key : K) (leaf : LeafNode K D), keys[start + i]? = some key ∧ lane.1 = .leaf leaf ∧
      GroupLane tr root key 0 (.leaf leaf) ∧
      Searching Node.leafKeys key leaf.slotkey leaf.slotuse k lane
  have hstart : AllLanes size (fun i n => ∃ key, keys[start + i]? = some key ∧
      GroupLane tr root key root.level n) (List.replicate size root) := by
    refine allLanes_replicate fun i hi => ?_
    obtain ⟨key, hkey⟩ := exists_getElem? keys (i := start + i) (by omega)
    exact ⟨key, hkey, Or.inl ⟨.root, Iff.rfl⟩⟩
  rw [findGroupBatch]
  refine Ensures.bind (lanes_descend
    (P := fun l i n => ∃ key, keys[start + i]? = some key ∧ GroupLane tr root key l n) h1 ?_
    (fun l nodes h => findGroupLevel_ensures hroot h) hstart) fun nodes hnodes => ?_
  · rintro l i n ⟨key, _, hlane⟩
    rw [Node.isLeafNode, (hlane.verified hroot).level_eq, beq_iff_eq]
  have h0 : AllLanes size (P 0) (nodes.map openWindow) := by
    refine hnodes.map fun i n _ hn => ?_
    obtain ⟨key, hkey, hlane⟩ := hn
    have hv := hlane.verified hroot
    cases n with
    | inner m => exact hv.elim
    | leaf m =>
        have hm : m.Verified tr := hv
        exact ⟨key, m, hkey, rfl, hlane,
          (returns_pure.mpr rfl : (Node.leaf m).toLeaf.Returns m).bind (returns_pure.mpr rfl),
          hm.sorted, rfl⟩
  refine Ensures.bind (Ensures.rounds P h0 fun k i lane _ hlane => ?_) fun ls hls => ?_
  · obtain ⟨key, leaf, hkey, hn, hgroup, hs⟩ := hlane
    obtain ⟨w, hw, hs'⟩ := hs.round
    exact (returns_read.mpr hkey).seq (hw.ensures ⟨key, leaf, hkey, hn, hgroup, hs'⟩)
  · refine collect_ensures rfl fun i hi done => ?_
    obtain ⟨lane, hlane, key, leaf, hkey, hn, hgroup, hs⟩ := hls.get hi
    have hset := hgroup.settles hp ht hroot (getElem?_answers (groupAnswer t root) hkey) hs
    refine (returns_read.mpr hlane).bind ?_
    rw [hn]
    refine (returns_pure.mpr rfl : (Node.leaf leaf).toLeaf.Returns leaf).bind ?_
    exact (returns_read.mpr hkey).bind (hset done)

/-- Below a root `find_group` ends, and answers each key whose path is probed. -/
theorem Tree.findGroup_returns (ht : t.Verified tr) (hr : t.root = some root) (hN : 1 ≤ N) :
    (t.findGroup N keys prior dflt).Returns
      (answered (keys.map (groupAnswer t root)) (grown keys prior dflt)) := by
  rw [Tree.findGroup, hr]
  by_cases hk : keys = []
  · subst hk
    exact returns_pure.mpr (answered_nil _).symm
  · simp only [List.isEmpty_iff, hk, if_false]
    exact groups_queries hN fun start size h1 h2 =>
      findGroupBatch_ensures hr (ht root hr) (fits_grown _ _ _ _) h1 h2

/-- `find_group` ends, and agrees with `find` on every key: the flag says whether `find` locates
it, and then the value is the data that `find` locates. -/
def GroupAgrees (N : Nat) (innerBinary leafBinary : Bool) (t : Tree K D) (keys : List K)
    (prior : Out D) (dflt : D) : Prop :=
  ∃ out, (t.findGroup N keys prior dflt).Returns out ∧
    ∀ (i : Nat) (key : K), keys[i]? = some key →
      ∃ r, (t.find innerBinary leafBinary key).Returns r ∧
        (out.found[i]? = some true ↔ r ≠ none) ∧
        ∀ leaf slot, r = some (leaf, slot) → out.results[i]? = leaf.slotdata[slot]?

/-- When it does: without a root, if no flag of a key is set beforehand; below a root, if eight
rounds reach the lower bound of every stored key in each node of its search path. -/
def GroupCondition (t : Tree K D) (keys : List K) (prior : Out D) : Prop :=
  match t.root with
  | none => ∀ i, i < keys.length → prior.found[i]? ≠ some true
  | some root => ∀ key ∈ keys, (∃ e ∈ t.entries, e.1 = key) → PathProbed key root.level root

theorem groupAgrees_none (hr : t.root = none) (innerBinary leafBinary : Bool) :
    GroupAgrees N innerBinary leafBinary t keys prior dflt ↔ GroupCondition t keys prior := by
  have hg : (t.findGroup N keys prior dflt).Returns (grown keys prior dflt) := by
    rw [Tree.findGroup, hr]
    exact returns_pure.mpr rfl
  simp only [GroupCondition, hr]
  rw [← findAgrees_grown_iff hr innerBinary leafBinary]
  constructor
  · rintro ⟨out, hout, h⟩
    cases hout.det hg
    exact h
  · intro h
    exact ⟨_, hg, h⟩

theorem groupAgrees_some (ht : t.Verified tr) (hr : t.root = some root) (hN : 1 ≤ N)
    (innerBinary leafBinary : Bool) :
    GroupAgrees N innerBinary leafBinary t keys prior dflt ↔ GroupCondition t keys prior := by
  have hg : (t.findGroup N keys prior dflt).Returns _ := Tree.findGroup_returns ht hr hN
  have hstored : ∀ key, (∃ e ∈ t.entries, e.1 = key) ↔ (t.lookup key).isSome = true := by
    intro key
    rw [Tree.lookup, Option.isSome_map, List.find?_isSome]
    simp
  simp only [GroupCondition, hr]
  constructor
  · rintro ⟨out, hout, h⟩ key hkey hmem
    cases hout.det hg
    obtain ⟨i, hi, rfl⟩ := List.getElem_of_mem hkey
    have hget := List.getElem?_eq_getElem hi
    obtain ⟨r, hrr, hiff, _⟩ := h i _ hget
    obtain ⟨r', hr', hcase⟩ := Tree.find_returns ht innerBinary leafBinary keys[i]
    cases hrr.det hr'
    rcases hcase with ⟨_, hnone⟩ | ⟨leaf, slot, d, hsome, _, _⟩
    · rw [hstored, hnone] at hmem
      cases hmem
    · have hfound := hiff.mpr (by simp [hsome])
      rw [found_answered (fits_grown _ _ _ _) hget] at hfound
      by_contra hc
      rw [groupAnswer, if_neg hc] at hfound
      cases hfound
  · intro h
    refine ⟨_, hg, findAgrees_answered ht (fun key hkey => ?_) innerBinary leafBinary⟩
    rw [groupAnswer]
    split
    · rfl
    · rename_i hprobed
      cases hl : t.lookup key with
      | none => rfl
      | some d => exact absurd (h key hkey (by rw [hstored, hl]; rfl)) hprobed

/-- `find_group` agrees with `find` exactly under its condition. -/
theorem findGroup_agrees_iff (ht : t.Verified tr) (hN : 1 ≤ N) (innerBinary leafBinary : Bool)
    (keys : List K) (prior : Out D) (dflt : D) :
    GroupAgrees N innerBinary leafBinary t keys prior dflt ↔ GroupCondition t keys prior := by
  cases hr : t.root with
  | none => exact groupAgrees_none hr innerBinary leafBinary
  | some root => exact groupAgrees_some ht hr hN innerBinary leafBinary

end FindGroup

theorem findGroup_agrees_iff_twoSlots :
    GroupAgrees 2 true false (⟨some (.leaf ⟨0, 2, [1, 3], [10, 30]⟩)⟩ : Tree Nat Nat) [3, 4]
        ⟨[true], [7]⟩ 0 ↔
      GroupCondition (⟨some (.leaf ⟨0, 2, [1, 3], [10, 30]⟩)⟩ : Tree Nat Nat) [3, 4]
        ⟨[true], [7]⟩ :=
  @findGroup_agrees_iff Nat Nat _ ⟨4, 4, false, by decide, by decide⟩ _ _
    (fun root hr => by cases hr; decide) (by decide) true false [3, 4] ⟨[true], [7]⟩ 0

/-! ## A leaf that eight rounds cannot search -/

/-- The traits of the repository's default tree. -/
def defaultTraits : Traits where
  leafslotmax := 1024
  innerslotmax := 512
  selfverify := false
  leafslotmax_lt := by decide
  innerslotmax_lt := by decide

/-- A leaf with the keys below `n`. -/
def rangeLeaf (n : Nat) : LeafNode Nat Nat := ⟨0, n, List.range n, List.range n⟩

/-- A tree that is one leaf. -/
def rangeTree (n : Nat) : Tree Nat Nat := ⟨some (.leaf (rangeLeaf n))⟩

theorem rangeTree_verified {tr : Traits} {n : Nat} (hpos : 0 < n) (hle : n ≤ tr.leafslotmax) :
    (rangeTree n).Verified tr := by
  intro root hr
  cases hr
  have hsorted : SortedTo (List.range n) n :=
    ⟨List.length_range.ge, by
      rw [List.take_of_length_le List.length_range.le]
      exact List.pairwise_le_range⟩
  exact ⟨rfl, hpos, hle, hsorted, List.length_range.ge⟩

theorem mem_entries_rangeTree {n k : Nat} (h : k < n) : (k, k) ∈ (rangeTree n).entries := by
  have hget : ((Node.leaf (rangeLeaf n)).entries 0)[k]? = some (k, k) :=
    (LeafNode.getElem?_entries (n := rangeLeaf n) h).mpr
      ⟨List.getElem?_range h, List.getElem?_range h⟩
  exact List.mem_of_getElem? hget

theorem lowerBound_range {n k : Nat} (h : k < n) : lowerBound (List.range n) k n = k := by
  refine lowerBound_eq h.le List.length_range.ge (fun i x hi hx => ?_) (fun x _ hx => ?_)
  · rw [List.getElem?_range (hi.trans h)] at hx
    cases hx
    exact hi
  · rw [List.getElem?_range h] at hx
    cases hx
    exact Nat.le_refl k

/-- For such a leaf the condition is about its own slots. -/
theorem GroupCondition.rangeTree {n k : Nat} {prior : Out Nat} (hk : k < n)
    (h : GroupCondition (rangeTree n) [k] prior) :
    k = 0 ∨ Window.midpointWithin 8 0 n (k - 1) = true := by
  have hprobed : (Node.leaf (rangeLeaf n)).Probed k :=
    h k (List.mem_singleton.mpr rfl) ⟨(k, k), mem_entries_rangeTree hk, rfl⟩
  have hlow :
      lowerBound (Node.leaf (rangeLeaf n)).slotkey k (Node.leaf (rangeLeaf n)).slotuse = k :=
    lowerBound_range hk
  rwa [Node.Probed, hlow] at hprobed

/-- Eight rounds over 256 slots do not compare slot 0, which precedes the key 1. -/
theorem findGroup_misses :
    (rangeTree 256).Verified defaultTraits ∧
      ¬ GroupAgrees 32 true true (rangeTree 256) [1] ⟨[], []⟩ 0 := by
  have hv : (rangeTree 256).Verified defaultTraits := rangeTree_verified (by decide) (by decide)
  refine ⟨hv, fun h => ?_⟩
  have hc := ((groupAgrees_some hv rfl (by decide) true true).mp h).rangeTree (by decide)
  exact absurd hc (by decide)

end BTree
