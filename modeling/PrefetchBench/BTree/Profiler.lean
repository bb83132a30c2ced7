import PrefetchBench.BTree.Lookup

/-!
# The layer profiler

`LayerProfiler::run_serial` looks up every query from the root and counts, level by level, the
nodes it comes to and the comparisons in them.  The counters are an array of `MAX_LEVELS`, so the
run is defined for trees of at most that many levels (`runSerial_height`).  There every query
comes to one node of each level, and the counters of a level are the number of queries and the sum
of their comparisons (`runSerial_ensures`).

The cycles of a level and the printed table are left out.
-/

namespace BTree

open Prog KeyArray

variable {K D : Type}

/-! ## The counters -/

/-- `LayerStat` -/
structure LayerStat where
  /-- The number of queries that came to the level. -/
  count : Nat := 0
  /-- The number of nodes they came to. -/
  nodeAccess : Nat := 0
  /-- The number of comparisons. -/
  keyCompare : Nat := 0
deriving DecidableEq

/-- `MAX_LEVELS` -/
def maxLevels : Nat := 16

/-- `stats` and `max_level`. -/
structure Profile where
  /-- The counters of each level. -/
  stats : List LayerStat
  /-- The deepest level that was counted. -/
  maxLevel : Nat

/-- `stats[lv]` is updated. -/
def updateStat (stats : List LayerStat) (lv : Nat) (f : LayerStat → LayerStat) :
    Prog (List LayerStat) := do
  let s ← read stats lv
  write stats lv (f s)

section Run

variable [LinearOrder K]

/-- `find_lower_count`: the slot, and the number of comparisons. -/
def findLowerCount (slotuse : Nat) (slotkey : List K) (key : K) : Prog (Nat × Nat) :=
  if slotuse = 0 then pure (0, 0) else do
    let r ← whileM (fun r : Window × Nat => pure (decide (r.1.lo < r.1.hi))) (fun r => do
      let w ← round slotkey key r.1
      pure (w, r.2 + 1)) (⟨0, slotuse⟩, 0)
    pure (r.1.lo, r.2)

/-- The counting of a node on a level, the same for inner nodes and for leaves: the access, the
search with its comparisons, and the record. -/
def countNode (n : Node K D) (key : K) (lv : Nat) (p : Profile) : Prog (Nat × Profile) := do
  let stats ← updateStat p.stats lv fun s => { s with nodeAccess := s.nodeAccess + 1 }
  let r ← findLowerCount n.slotuse n.slotkey key
  let stats ← updateStat stats lv fun s => { s with keyCompare := s.keyCompare + r.2 }
  let stats ← updateStat stats lv fun s => { s with count := s.count + 1 }
  pure (r.1, ⟨stats, if p.maxLevel < lv then lv else p.maxLevel⟩)

/-- The state of the way down. -/
structure Walk (K D : Type) where
  /-- `node` -/
  node : Node K D
  /-- `lv` -/
  lv : Nat
  /-- The counters. -/
  profile : Profile

/-- The body of `while (!node->isleafnode())`. -/
def walkDown (key : K) (s : Walk K D) : Prog (Walk K D) := do
  let inner ← s.node.toInner
  let r ← countNode (.inner inner) key s.lv s.profile
  let node ← read inner.childid r.1
  pure ⟨node, s.lv + 1, r.2⟩

/-- One query. -/
def profileQuery (root : Node K D) (key : K) (p : Profile) : Prog Profile := do
  let s ← whileM (fun s => pure (!s.node.isLeafNode)) (walkDown key) ⟨root, 0, p⟩
  let leaf ← s.node.toLeaf
  let r ← countNode (.leaf leaf) key s.lv s.profile
  pure r.2

/-- `run_serial`, up to the printing.  Without a root the first query dereferences a null
pointer. -/
def runSerial (t : Tree K D) (queries : List K) : Prog Profile :=
  forRange queries.length (fun q p => do
    let key ← read queries q
    let root ← ofOption t.root
    profileQuery root key p) ⟨List.replicate maxLevels {}, 0⟩

/-! ## The comparisons of a search -/

/-- The search finds the lower bound, within as many comparisons as the number of slots has
bits. -/
theorem findLowerCount_ensures {slotuse : Nat} {slotkey : List K} (key : K)
    (hs : SortedTo slotkey slotuse) :
    (findLowerCount slotuse slotkey key).Ensures fun r =>
      r.1 = lowerBound slotkey key slotuse ∧ r.2 ≤ slotuse.size := by
  rw [findLowerCount]
  split
  · rename_i hzero
    subst hzero
    have hle := lowerBound_le slotkey key 0
    exact Ensures.pure ⟨(Nat.le_zero.mp hle).symm, Nat.zero_le _⟩
  · rw [← bisect_zero_eq_lowerBound hs]
    have hwhile : (whileM (fun r : Window × Nat => pure (decide (r.1.lo < r.1.hi))) (fun r => do
        let w ← round slotkey key r.1
        pure (w, r.2 + 1)) (⟨0, slotuse⟩, 0)).Ensures fun r =>
          r.1.lo = Window.bisect (probe slotkey key) ⟨0, slotuse⟩ ∧ r.2 ≤ slotuse.size := by
      -- the window after as many rounds as comparisons; while it is open there are more bits
      refine Ensures.whileM (fun m r => m = r.1.width ∧ r.2 ≤ slotuse.size ∧
        r.1 = (Window.halve (probe slotkey key))^[r.2] ⟨0, slotuse⟩) ?_ _ _
        ⟨rfl, Nat.zero_le _, rfl⟩
      rintro m ⟨w, compares⟩ ⟨rfl, hle, hw⟩
      dsimp only at hle hw
      have hhi := Window.iterate_halve_hi_le (probe slotkey key) ⟨0, slotuse⟩ compares
      rw [← hw] at hhi
      refine ⟨_, returns_pure.mpr rfl, ?_, ?_⟩
      · intro hopen
        have hopen : w.lo < w.hi := of_decide_eq_true hopen
        have hhalf := Window.halve_width (probe slotkey key) w
        have hmore : compares < slotuse.size := by
          by_contra hall
          have hempty := Window.iterate_halve_width (probe slotkey key) ⟨0, slotuse⟩ compares
            (Nat.size_le.mp (not_lt.mp hall))
          rw [← hw, Window.width] at hempty
          omega
        apply (round_returns hopen (hhi.trans hs.le_length)).seq
        refine Ensures.pure ⟨_, ?_, rfl, hmore, ?_⟩
        · simp only [Window.width] at hhalf ⊢
          omega
        · rw [Function.iterate_succ_apply', ← hw]
      · intro hclosed
        have hclosed : ¬ w.lo < w.hi := of_decide_eq_false hclosed
        refine ⟨?_, hle⟩
        rw [← Window.bisect_of_not_lt hclosed, hw, Window.bisect_iterate]
    apply hwhile.bind
    intro r hr
    exact Ensures.pure hr

/-! ## Counting a node -/

/-- The counters as a function of the level. -/
def tally (f : Nat → LayerStat) : List LayerStat := (List.range maxLevels).map f

/-- A query came to the level, with so many comparisons. -/
def LayerStat.visited (s : LayerStat) (compares : Nat) : LayerStat :=
  ⟨s.count + 1, s.nodeAccess + 1, s.keyCompare + compares⟩

theorem getElem?_tally {f : Nat → LayerStat} {lv : Nat} (h : lv < maxLevels) :
    (tally f)[lv]? = some (f lv) := by
  rw [tally, List.getElem?_map, List.getElem?_range h]
  rfl

theorem set_tally (f : Nat → LayerStat) (lv : Nat) (s : LayerStat) :
    (tally f).set lv s = tally (Function.update f lv s) := by
  apply List.ext_getElem
  · simp [tally]
  · intro i _ _
    simp [tally, List.getElem_set, Function.update_apply, eq_comm]

theorem updateStat_returns {f : Nat → LayerStat} {lv : Nat} (h : lv < maxLevels)
    (g : LayerStat → LayerStat) :
    (updateStat (tally f) lv g).Returns (tally (Function.update f lv (g (f lv)))) := by
  refine (returns_read.mpr (getElem?_tally h)).bind (returns_write.mpr ⟨?_, set_tally f lv _⟩)
  rwa [tally, List.length_map, List.length_range]

/-- A node is counted on its level. -/
theorem countNode_returns {n : Node K D} {key : K} {lv slot compares : Nat} {f : Nat → LayerStat}
    {m : Nat} (h : lv < maxLevels)
    (hfind : (findLowerCount n.slotuse n.slotkey key).Returns (slot, compares)) :
    (countNode n key lv ⟨tally f, m⟩).Returns
      (slot, ⟨tally (Function.update f lv ((f lv).visited compares)), max m lv⟩) := by
  refine (updateStat_returns h _).bind (hfind.bind ?_)
  refine (updateStat_returns h _).bind ((updateStat_returns h _).bind ?_)
  rw [returns_pure, Function.update_idem, Function.update_idem]
  simp only [Function.update_self]
  congr 2
  rw [max_def]
  split_ifs <;> omega

theorem updateStat_inv {stats stats' : List LayerStat} {lv : Nat} {g : LayerStat → LayerStat}
    (h : (updateStat stats lv g).Returns stats') :
    lv < stats.length ∧ stats'.length = stats.length := by
  obtain ⟨s, _, h⟩ := returns_bind.mp h
  obtain ⟨hlt, rfl⟩ := returns_write.mp h
  exact ⟨hlt, List.length_set⟩

/-- Counting a node is defined on the levels of the array only. -/
theorem countNode_inv {n : Node K D} {key : K} {lv : Nat} {p : Profile} {r : Nat × Profile}
    (h : (countNode n key lv p).Returns r) :
    lv < p.stats.length ∧ r.2.stats.length = p.stats.length ∧
      ∃ compares, (findLowerCount n.slotuse n.slotkey key).Returns (r.1, compares) := by
  obtain ⟨stats1, h1, h⟩ := returns_bind.mp h
  obtain ⟨found, hfind, h⟩ := returns_bind.mp h
  obtain ⟨stats2, h2, h⟩ := returns_bind.mp h
  obtain ⟨stats3, h3, h⟩ := returns_bind.mp h
  cases returns_pure.mp h
  obtain ⟨hlt, hlen1⟩ := updateStat_inv h1
  obtain ⟨_, hlen2⟩ := updateStat_inv h2
  obtain ⟨_, hlen3⟩ := updateStat_inv h3
  exact ⟨hlt, hlen3.trans (hlen2.trans hlen1), found.2, hfind⟩

end Run

/-! ## Levels -/

/-- The nodes so many levels below a node. -/
def Node.atDepth : Nat → Node K D → List (Node K D)
  | 0, n => [n]
  | _ + 1, .leaf _ => []
  | d + 1, .inner n => (n.childid.take (n.slotuse + 1)).flatMap (atDepth d)

/-- The largest `slotuse` on a level. -/
def Node.largestSlotuse (root : Node K D) (lv : Nat) : Nat :=
  ((root.atDepth lv).map Node.slotuse).foldr max 0

theorem le_foldr_max {x : Nat} {xs : List Nat} (h : x ∈ xs) : x ≤ xs.foldr max 0 := by
  induction h with
  | head => exact Nat.le_max_left ..
  | tail _ _ ih => exact ih.trans (Nat.le_max_right ..)

theorem Node.slotuse_le_largest {root n : Node K D} {lv : Nat} (h : n ∈ root.atDepth lv) :
    n.slotuse ≤ root.largestSlotuse lv :=
  le_foldr_max (List.mem_map_of_mem h)

/-- The children of the nodes on a level are on the next one. -/
theorem Node.mem_atDepth_succ {n : InnerNode K (Node K D)} {c : Node K D}
    (hc : c ∈ n.childid.take (n.slotuse + 1)) :
    ∀ {d : Nat} {root : Node K D}, Node.inner n ∈ root.atDepth d → c ∈ root.atDepth (d + 1)
  | 0, root, h => by
      cases List.mem_singleton.mp h
      exact List.mem_flatMap.mpr ⟨c, hc, List.mem_singleton_self c⟩
  | d + 1, .leaf m, h => by cases h
  | d + 1, .inner m, h => by
      obtain ⟨c', hc', hmem⟩ := List.mem_flatMap.mp h
      exact List.mem_flatMap.mpr ⟨c', hc', Node.mem_atDepth_succ hc hmem⟩

section Path

variable [LinearOrder K] {tr : Traits} {root n n' : Node K D} {key : K} {l : Nat}

theorem OnPath.le (h : OnPath tr root key l n) : l ≤ root.level := by
  induction h with
  | root => exact Nat.le_refl _
  | child _ _ ih => exact Nat.le_of_succ_le ih

/-- A query comes to one node of a level. -/
theorem OnPath.det (h : OnPath tr root key l n) (h' : OnPath tr root key l n') : n = n' := by
  induction h generalizing n' with
  | root =>
      generalize hl : root.level = l at h'
      cases h' with
      | root => rfl
      | child hp _ =>
          have hle := hp.le
          omega
  | @child l m c hp hc ih =>
      have hle := hp.le
      generalize hl : l = l' at h'
      cases h' with
      | root => omega
      | child hp' hc' =>
          subst hl
          cases ih hp'
          exact Option.some.inj (hc.symm.trans hc')

/-- The node of a query is on its level. -/
theorem OnPath.mem_atDepth (h : OnPath tr root key l n) : n ∈ root.atDepth (root.level - l) := by
  induction h with
  | root =>
      rw [Nat.sub_self]
      exact List.mem_singleton_self root
  | @child l m c hp hc ih =>
      have hle := hp.le
      obtain ⟨hlt, hget⟩ := List.getElem?_eq_some_iff.mp hc
      have hslot := lowerBound_le m.slotkey key m.slotuse
      have hmem : c ∈ m.childid.take (m.slotuse + 1) :=
        List.mem_take_iff_getElem.mpr ⟨_, by omega, hget⟩
      rw [show root.level - l = root.level - (l + 1) + 1 by omega]
      exact Node.mem_atDepth_succ hmem ih

/-- The comparisons of a query on a level: those of `find_lower_count` in its node there. -/
def Compares (tr : Traits) (root : Node K D) (key : K) (lv compares : Nat) : Prop :=
  ∃ n slot, OnPath tr root key (root.level - lv) n ∧
    (findLowerCount n.slotuse n.slotkey key).Returns (slot, compares)

/-- The node of a query on a level, and the search of its keys. -/
theorem OnPath.compares (hroot : VerifyNode tr root.level root) (h : OnPath tr root key l n) :
    ∃ compares, Compares tr root key (root.level - l) compares ∧
      (findLowerCount n.slotuse n.slotkey key).Returns
        (lowerBound n.slotkey key n.slotuse, compares) ∧
      compares ≤ (root.largestSlotuse (root.level - l)).size := by
  have hle := h.le
  have hsorted : SortedTo n.slotkey n.slotuse := by
    have hv := (h.spec hroot).1
    cases l with
    | zero =>
        cases n with
        | leaf m => exact LeafNode.Verified.sorted hv
        | inner m => exact hv.elim
    | succ l =>
        cases n with
        | leaf m => exact hv.elim
        | inner m => exact InnerNode.Verified.sorted hv
  obtain ⟨⟨slot, compares⟩, hfind, hslot, hbits⟩ := findLowerCount_ensures key hsorted
  obtain rfl : slot = lowerBound n.slotkey key n.slotuse := hslot
  have hlevel : root.level - (root.level - l) = l := by omega
  refine ⟨compares, ⟨n, _, ?_, hfind⟩, hfind, ?_⟩
  · rw [hlevel]
    exact h
  · exact hbits.trans (Nat.size_le_size (Node.slotuse_le_largest h.mem_atDepth))

theorem Compares.det {lv c c' : Nat} (h : Compares tr root key lv c)
    (h' : Compares tr root key lv c') : c = c' := by
  obtain ⟨n, slot, hp, hc⟩ := h
  obtain ⟨n', slot', hp', hc'⟩ := h'
  cases hp.det hp'
  cases hc.det hc'
  rfl

/-- A query comes to a node of every level. -/
theorem exists_onPath (hroot : VerifyNode tr root.level root) (key : K) :
    ∀ lv, lv ≤ root.level → ∃ n, OnPath tr root key (root.level - lv) n := by
  intro lv
  induction lv with
  | zero =>
      intro _
      exact ⟨root, .root⟩
  | succ lv ih =>
      intro hlv
      obtain ⟨n, hn⟩ := ih (Nat.le_of_succ_le hlv)
      rw [show root.level - lv = root.level - (lv + 1) + 1 by omega] at hn
      obtain ⟨m, c, _, _, _, hc⟩ := hn.inner hroot
      exact ⟨c, hc⟩

/-- The comparisons of the queries, within the bits of the largest node of the level. -/
theorem exists_compares (hroot : VerifyNode tr root.level root) :
    ∃ compares : K → Nat → Nat, ∀ key lv, lv ≤ root.level →
      Compares tr root key lv (compares key lv) ∧
        compares key lv ≤ (root.largestSlotuse lv).size := by
  have hall : ∀ key lv, ∃ c, lv ≤ root.level →
      Compares tr root key lv c ∧ c ≤ (root.largestSlotuse lv).size := by
    intro key lv
    rcases Nat.lt_or_ge root.level lv with hlt | hle
    · exact ⟨0, fun h => absurd h (Nat.not_le.mpr hlt)⟩
    · obtain ⟨n, hn⟩ := exists_onPath hroot key lv hle
      obtain ⟨c, hc, _, hbits⟩ := hn.compares hroot
      rw [show root.level - (root.level - lv) = lv by omega] at hc hbits
      exact ⟨c, fun _ => ⟨hc, hbits⟩⟩
  choose compares hcompares using hall
  exact ⟨compares, hcompares⟩

end Path

/-! ## One query -/

section Query

variable [LinearOrder K] {tr : Traits} {root : Node K D} {key : K} {f : Nat → LayerStat}
  {compares : Nat → Nat}

/-- The counters after a query came to the first levels. -/
def visitedTo (f : Nat → LayerStat) (compares : Nat → Nat) (depth lv : Nat) : LayerStat :=
  if lv < depth then (f lv).visited (compares lv) else f lv

theorem visitedTo_succ (f : Nat → LayerStat) (compares : Nat → Nat) (depth : Nat) :
    Function.update (visitedTo f compares depth) depth
      ((visitedTo f compares depth depth).visited (compares depth)) =
        visitedTo f compares (depth + 1) := by
  funext lv
  rw [Function.update_apply]
  split
  · rename_i heq
    subst heq
    rw [visitedTo, visitedTo, if_neg (Nat.lt_irrefl lv), if_pos (Nat.lt_succ_self lv)]
  · rename_i hne
    rw [visitedTo, visitedTo]
    split_ifs <;> first | rfl | omega

/-- The node of a query is counted with the comparisons of its level. -/
theorem OnPath.countNode (hroot : VerifyNode tr root.level root)
    (hmax : root.level < maxLevels)
    (hcompares : ∀ lv, lv ≤ root.level → Compares tr root key lv (compares lv)) {n : Node K D}
    {lv m : Nat} (hlv : lv ≤ root.level) (h : OnPath tr root key (root.level - lv) n) :
    (BTree.countNode n key lv ⟨tally (visitedTo f compares lv), max m (lv - 1)⟩).Returns
      (lowerBound n.slotkey key n.slotuse,
        ⟨tally (visitedTo f compares (lv + 1)), max m (lv + 1 - 1)⟩) := by
  obtain ⟨c, hc, hfind, _⟩ := h.compares hroot
  rw [show root.level - (root.level - lv) = lv by omega] at hc
  obtain rfl := hc.det (hcompares lv hlv)
  have hcount := countNode_returns (f := visitedTo f compares lv) (m := max m (lv - 1))
    (lt_of_le_of_lt hlv hmax) hfind
  rwa [visitedTo_succ, max_assoc, max_eq_right (Nat.sub_le lv 1)] at hcount

/-- A query comes to one node of each level, down to the leaves. -/
theorem profileQuery_returns (hroot : VerifyNode tr root.level root)
    (hmax : root.level < maxLevels)
    (hcompares : ∀ lv, lv ≤ root.level → Compares tr root key lv (compares lv)) (m : Nat) :
    (profileQuery root key ⟨tally f, m⟩).Returns
      ⟨tally (visitedTo f compares (root.level + 1)), max m root.level⟩ := by
  apply Ensures.returns
  have hwalk : (whileM (fun s => pure (!s.node.isLeafNode)) (walkDown key)
      ⟨root, 0, ⟨tally f, m⟩⟩).Ensures fun s => OnPath tr root key 0 s.node ∧
        s.lv = root.level ∧
        s.profile = ⟨tally (visitedTo f compares root.level), max m (root.level - 1)⟩ := by
    refine Ensures.whileM (fun l s => l = root.level - s.lv ∧ s.lv ≤ root.level ∧
      OnPath tr root key (root.level - s.lv) s.node ∧
      s.profile = ⟨tally (visitedTo f compares s.lv), max m (s.lv - 1)⟩) ?_ _ _
      ⟨rfl, Nat.zero_le _, .root, ?_⟩
    · rintro l ⟨n, lv, p⟩ ⟨rfl, hlv, hpath, hp⟩
      dsimp only at hlv hpath hp
      refine ⟨_, returns_pure.mpr rfl, ?_, ?_⟩
      · intro hinner
        have hpos : root.level - lv ≠ 0 := by
          intro hzero
          simp [(hpath.isLeafNode hroot).mpr hzero] at hinner
        have hlevel : root.level - lv = root.level - (lv + 1) + 1 := by omega
        have hcount := hpath.countNode (f := f) (m := m) hroot hmax hcompares hlv
        rw [hlevel] at hpath
        obtain ⟨inner, c, rfl, _, hc, hchild⟩ := hpath.inner hroot
        subst hp
        refine (returns_pure.mpr rfl).seq (hcount.seq ?_)
        refine (returns_read.mpr hc).seq (Ensures.pure ⟨_, ?_, rfl, ?_, hchild, rfl⟩)
        · dsimp only
          omega
        · dsimp only
          omega
      · intro hleaf
        have hzero : root.level - lv = 0 := (hpath.isLeafNode hroot).mp (by simpa using hleaf)
        obtain rfl : lv = root.level := by omega
        rw [hzero] at hpath
        exact ⟨hpath, rfl, hp⟩
    · rw [Nat.zero_sub, Nat.max_zero]
      rfl
  apply hwalk.bind
  rintro ⟨n, lv, p⟩ ⟨hpath, hlv, hp⟩
  dsimp only at hpath hlv hp
  subst hlv hp
  have hcount := OnPath.countNode (f := f) (m := m) hroot hmax hcompares (Nat.le_refl _)
    (by rwa [Nat.sub_self])
  cases n with
  | inner inner => exact ((hpath.spec hroot).1).elim
  | leaf leaf =>
      refine (returns_pure.mpr rfl).seq (hcount.seq (Ensures.pure ?_))
      rfl

/-- A query is defined only if the array has its levels. -/
theorem profileQuery_inv (hroot : VerifyNode tr root.level root) {p p' : Profile}
    (h : (profileQuery root key p).Returns p') : root.level < p.stats.length := by
  obtain ⟨s, hwalk, h⟩ := returns_bind.mp h
  have hinv := Returns.whileM_inv (P := fun s : Walk K D => s.lv ≤ root.level ∧
    OnPath tr root key (root.level - s.lv) s.node ∧ s.profile.stats.length = p.stats.length) ?_
    ⟨Nat.zero_le _, .root, rfl⟩ hwalk
  · obtain ⟨⟨hlv, hpath, hlen⟩, hleaf⟩ := hinv
    have hzero : root.level - s.lv = 0 :=
      (hpath.isLeafNode hroot).mp (by simpa using returns_pure.mp hleaf)
    obtain ⟨leaf, _, h⟩ := returns_bind.mp h
    obtain ⟨r, hcount, _⟩ := returns_bind.mp h
    have hlt := (countNode_inv hcount).1
    omega
  · rintro ⟨n, lv, q⟩ s' ⟨hlv, hpath, hlen⟩ hinner hbody
    dsimp only at hlv hpath hlen
    have hpos : root.level - lv ≠ 0 := by
      intro hzero
      have := returns_pure.mp hinner
      simp [(hpath.isLeafNode hroot).mpr hzero] at this
    have hlevel : root.level - lv = root.level - (lv + 1) + 1 := by omega
    have hsearch := hpath.compares hroot
    rw [hlevel] at hpath
    obtain ⟨inner, c, rfl, _, hc, hchild⟩ := hpath.inner hroot
    obtain ⟨inner', hinner', hbody⟩ := returns_bind.mp hbody
    cases returns_pure.mp hinner'
    obtain ⟨r, hcount, hbody⟩ := returns_bind.mp hbody
    obtain ⟨node, hread, hbody⟩ := returns_bind.mp hbody
    cases returns_pure.mp hbody
    obtain ⟨_, hlen', c', hfind⟩ := countNode_inv hcount
    obtain ⟨_, _, hfind', _⟩ := hsearch
    have hslot := congrArg Prod.fst (hfind.det hfind')
    dsimp only at hslot
    rw [hslot] at hread
    have hsame := (returns_read.mp hread).symm.trans hc
    cases hsame
    refine ⟨?_, hchild, hlen'.trans hlen⟩
    dsimp only
    omega

end Query

/-! ## All queries -/

/-- The counters after some queries. -/
def counted (root : Node K D) (compares : K → Nat → Nat) (done : List K) (lv : Nat) : LayerStat :=
  if lv ≤ root.level then
    ⟨done.length, done.length, (done.map fun key => compares key lv).sum⟩
  else {}

theorem tally_counted_nil (root : Node K D) (compares : K → Nat → Nat) :
    tally (counted root compares []) = List.replicate maxLevels {} := by
  have hzero : counted root compares [] = fun _ => {} := by
    funext lv
    rw [counted]
    split <;> rfl
  rw [hzero, tally, List.map_const', List.length_range]

theorem visitedTo_counted (root : Node K D) (compares : K → Nat → Nat) (done : List K) (key : K) :
    visitedTo (counted root compares done) (compares key) (root.level + 1) =
      counted root compares (done ++ [key]) := by
  funext lv
  rw [visitedTo, counted, counted]
  split
  · rename_i hlv
    rw [if_pos (Nat.le_of_lt_succ hlv), if_pos (Nat.le_of_lt_succ hlv)]
    simp [LayerStat.visited]
  · rename_i hlv
    rw [if_neg (fun h => hlv (Nat.lt_succ_of_le h)), if_neg (fun h => hlv (Nat.lt_succ_of_le h))]

section Queries

variable [LinearOrder K] {tr : Traits} {t : Tree K D} {root : Node K D} {queries : List K}

/-- What the counters should be after the run. -/
structure Accounted (tr : Traits) (root : Node K D) (queries : List K) (p : Profile) : Prop where
  /-- The deepest level is the one of the leaves. -/
  maxLevel : p.maxLevel = root.level
  /-- The array has its size. -/
  length_eq : p.stats.length = maxLevels
  /-- A level up to there was counted once for each query, with the comparisons of the query. -/
  used : ∃ compares : K → Nat → Nat,
    (∀ key lv, lv ≤ p.maxLevel → Compares tr root key lv (compares key lv)) ∧
      ∀ lv, lv ≤ p.maxLevel → ∃ s, p.stats[lv]? = some s ∧ s.nodeAccess = queries.length ∧
        s.count = queries.length ∧
        s.keyCompare = (queries.map fun key => compares key lv).sum ∧
        s.keyCompare ≤ queries.length * (root.largestSlotuse lv).size
  /-- The other levels were not counted. -/
  unused : ∀ lv s, p.maxLevel < lv → p.stats[lv]? = some s → s = {}

/-- Below a root with at most `MAX_LEVELS` levels the run counts what it should. -/
theorem runSerial_ensures (ht : t.root = some root) (hroot : VerifyNode tr root.level root)
    (hmax : root.level < maxLevels) (hne : queries ≠ []) :
    (runSerial t queries).Ensures (Accounted tr root queries) := by
  obtain ⟨compares, hcompares⟩ := exists_compares hroot
  have hrun : (runSerial t queries).Ensures fun p =>
      p.stats = tally (counted root compares (queries.take queries.length)) ∧
        (0 < queries.length → p.maxLevel = root.level) ∧ p.maxLevel ≤ root.level := by
    refine Ensures.forRange (fun q (p : Profile) =>
      p.stats = tally (counted root compares (queries.take q)) ∧
        (0 < q → p.maxLevel = root.level) ∧ p.maxLevel ≤ root.level) ?_ ?_
    · exact ⟨(tally_counted_nil root compares).symm, fun h => absurd h (Nat.lt_irrefl 0),
        Nat.zero_le _⟩
    · rintro q hq ⟨stats, m⟩ ⟨hstats, _, hle⟩
      dsimp only at hstats hle
      subst hstats
      obtain ⟨key, hkey⟩ := exists_getElem? queries hq
      have htake : queries.take (q + 1) = queries.take q ++ [key] := by
        rw [List.take_add_one, hkey]
        rfl
      refine (returns_read.mpr hkey).seq (Returns.seq (returns_ofOption.mpr ht) ?_)
      have hquery := profileQuery_returns (f := counted root compares (queries.take q)) hroot hmax
        (fun lv hlv => (hcompares key lv hlv).1) m
      rw [visitedTo_counted, ← htake] at hquery
      refine hquery.ensures ⟨rfl, fun _ => ?_, ?_⟩
      · exact max_eq_right hle
      · exact max_le hle (Nat.le_refl _)
  apply hrun.mono
  rintro ⟨stats, m⟩ ⟨hstats, hm, _⟩
  rw [List.take_length] at hstats
  obtain rfl := hm (List.length_pos_iff.mpr hne)
  dsimp only at hstats
  subst hstats
  refine ⟨rfl, ?_, ⟨compares, fun key lv hlv => (hcompares key lv hlv).1, ?_⟩, ?_⟩
  · rw [tally, List.length_map, List.length_range]
  · intro lv hlv
    refine ⟨_, getElem?_tally (lt_of_le_of_lt hlv hmax), ?_⟩
    rw [counted, if_pos hlv]
    have hsum := List.sum_le_card_nsmul (queries.map fun key => compares key lv)
      (root.largestSlotuse lv).size fun c hc => by
        obtain ⟨key, _, rfl⟩ := List.mem_map.mp hc
        exact (hcompares key lv hlv).2
    rw [List.length_map, smul_eq_mul] at hsum
    exact ⟨rfl, rfl, rfl, hsum⟩
  · intro lv s hlv hs
    have hlt := (List.getElem?_eq_some_iff.mp hs).1
    rw [tally, List.length_map, List.length_range] at hlt
    cases (getElem?_tally hlt).symm.trans hs
    rw [counted, if_neg (Nat.not_le.mpr hlv)]

/-- A run with a query is defined only below a root with at most `MAX_LEVELS` levels. -/
theorem runSerial_height (ht : t.Verified tr) (hne : queries ≠ []) {p : Profile}
    (h : (runSerial t queries).Returns p) :
    ∃ root, t.root = some root ∧ root.level < maxLevels := by
  cases queries with
  | nil => exact absurd rfl hne
  | cons key queries =>
      -- the first query
      obtain ⟨p', h, _⟩ := returns_bind.mp h
      obtain ⟨_, _, h⟩ := returns_bind.mp h
      obtain ⟨root, hroot, h⟩ := returns_bind.mp h
      have hroot := returns_ofOption.mp hroot
      have hlt := profileQuery_inv (ht root hroot) h
      rw [List.length_replicate] at hlt
      exact ⟨root, hroot, hlt⟩

/-- The run stays inside of `stats` and counts what it should exactly for the trees with a root and
at most `MAX_LEVELS` levels. -/
theorem runSerial_accounted_iff (ht : t.Verified tr) (hne : queries ≠ []) :
    ((runSerial t queries).Ensures fun p => ∃ root, t.root = some root ∧
      Accounted tr root queries p) ↔ ∃ root, t.root = some root ∧ root.level + 1 ≤ maxLevels := by
  constructor
  · rintro ⟨p, hp, _⟩
    exact runSerial_height ht hne hp
  · rintro ⟨root, hroot, hlevel⟩
    apply (runSerial_ensures hroot (ht root hroot) hlevel hne).mono
    intro p hp
    exact ⟨root, hroot, hp⟩

end Queries

/-! ## A high tree -/

/-- Inner nodes of one key, over `2 ^ l` leaves with one key each. -/
def thinTree : Nat → Nat → Node Nat Nat
  | 0, first => .leaf ⟨0, 1, [first], [first]⟩
  | l + 1, first => .inner
      ⟨l + 1, 1, [first + (2 ^ l - 1)], [thinTree l first, thinTree l (first + 2 ^ l)]⟩

theorem thinTree_minkey : ∀ l first, (thinTree l first).minkey l = some first
  | 0, _ => rfl
  | l + 1, first => by
      rw [thinTree, Node.minkey]
      exact thinTree_minkey l first

theorem thinTree_maxkey : ∀ l first, (thinTree l first).maxkey l = some (first + (2 ^ l - 1))
  | 0, _ => rfl
  | l + 1, first => by
      have hpos := Nat.two_pow_pos l
      rw [thinTree, Node.maxkey]
      refine (thinTree_maxkey l (first + 2 ^ l)).trans ?_
      rw [Nat.pow_succ]
      congr 1
      omega

theorem thinTree_level (l first : Nat) : (thinTree l first).level = l := by
  cases l <;> rfl

/-- Three slots in every node: the half of them, rounded down, is one. -/
def threeSlots : Traits where
  leafslotmax := 3
  innerslotmax := 3
  selfverify := false
  leafslotmax_lt := by decide
  innerslotmax_lt := by decide

theorem thinTree_verified : ∀ l first, VerifyNode threeSlots l (thinTree l first)
  | 0, first => by
      refine ⟨rfl, Nat.one_pos, (by decide : 1 ≤ 3), ⟨Nat.le_refl _, ?_⟩, Nat.le_refl _⟩
      exact List.pairwise_singleton ..
  | l + 1, first => by
      have hpos := Nat.two_pow_pos l
      refine ⟨rfl, Nat.one_pos, (by decide : 1 ≤ 3),
        ⟨Nat.le_refl _, List.pairwise_singleton ..⟩, ?_⟩
      intro slot hslot
      rcases Nat.lt_succ_iff_lt_or_eq.mp hslot with hlt | rfl
      · obtain rfl := Nat.lt_one_iff.mp hlt
        refine ⟨_, rfl, thinTree_verified l first, ?_, ?_⟩
        · intro h
          exact absurd h (Nat.lt_irrefl 0)
        · intro _
          exact (thinTree_maxkey l first).symm
      · refine ⟨_, rfl, thinTree_verified l (first + 2 ^ l), ?_, ?_⟩
        · intro _ x hx mn hmn
          cases hx
          cases (thinTree_minkey l (first + 2 ^ l)).symm.trans hmn
          omega
        · intro h
          exact absurd h (Nat.lt_irrefl 1)

theorem thinTree_tree_verified (l : Nat) :
    (⟨some (thinTree l 0)⟩ : Tree Nat Nat).Verified threeSlots := by
  rintro root hroot
  cases hroot
  rw [thinTree_level]
  exact thinTree_verified l 0

theorem runSerial_accounted_thin :
    ((runSerial ⟨some (thinTree 3 0)⟩ [4, 9]).Ensures fun p => ∃ root,
      some (thinTree 3 0) = some root ∧ Accounted threeSlots root [4, 9] p) ↔
        ∃ root, some (thinTree 3 0) = some root ∧ root.level + 1 ≤ maxLevels :=
  runSerial_accounted_iff (thinTree_tree_verified 3) (by decide)

/-- A tree may pass the verification at any height, and one of more than `MAX_LEVELS` levels is
not counted. -/
theorem thinTree_not_accounted {l : Nat} (h : maxLevels ≤ l) {queries : List Nat}
    (hne : queries ≠ []) :
    ¬ (runSerial ⟨some (thinTree l 0)⟩ queries).Ensures fun p =>
      ∃ root, some (thinTree l 0) = some root ∧ Accounted threeSlots root queries p := by
  rintro ⟨p, hp, _⟩
  obtain ⟨root, hroot, hlevel⟩ := runSerial_height (thinTree_tree_verified l) hne hp
  cases hroot
  rw [thinTree_level] at hlevel
  exact absurd hlevel (Nat.not_lt.mpr h)

theorem runSerial_overruns :
    (⟨some (thinTree 16 0)⟩ : Tree Nat Nat).Verified threeSlots ∧
      ¬ (runSerial ⟨some (thinTree 16 0)⟩ [0]).Ensures fun p =>
        ∃ root, some (thinTree 16 0) = some root ∧ Accounted threeSlots root [0] p :=
  ⟨thinTree_tree_verified 16, thinTree_not_accounted (Nat.le_refl 16) (by decide)⟩

end BTree
