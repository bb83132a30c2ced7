import PrefetchBench.BTree.Lockstep
import PrefetchBench.Batch.Pipeline
import PrefetchBench.Batch.Pool

/-!
# Pipelined and pooled lookups

The strategies that keep queries on different levels of the tree in flight.
`SoftwarePipelinedPrefetch` is a pipeline with one stage per level, so that the queries of a
stage are on the same level of their search paths; its linear variant has the same stages without
rotating them.  `AMACSearch` is a pool whose slots each walk down one search path.

What the schedules need of a slot is that a step goes one level down and that the leaf answers
the query.  On every verified tree these strategies return the lookups of the tree.
-/

namespace BTree

open Prog KeyArray Batch

variable {K D : Type} [LinearOrder K]

/-! ## The work of a slot -/

/-- One level down from the node of a slot. -/
def stepSlot (find : NodeSearch K) (queries : List K) (i : Nat) (node : Option (Node K D)) :
    Prog (Node K D) := do
  let inner ← ofOption node
  let key ← read queries i
  stepDown find key inner

/-- The answer at the leaf of a slot. -/
def retireSlot (find : NodeSearch K) (store : Bool) (queries : List K) (i : Nat)
    (node : Option (Node K D)) (out : Out D) : Prog (Out D) := do
  let n ← ofOption node
  let leaf ← n.toLeaf
  let key ← read queries i
  let slot ← find leaf.slotuse leaf.slotkey key
  leaf.collect store key slot i out

/-- The answer at the leaf of a slot, where nothing is written for a miss. -/
def retireSlotHit (find : NodeSearch K) (store : Bool) (queries : List K) (i : Nat)
    (node : Option (Node K D)) (out : Out D) : Prog (Out D) := do
  let n ← ofOption node
  let leaf ← n.toLeaf
  let key ← read queries i
  let slot ← find leaf.slotuse leaf.slotkey key
  leaf.collectHit store key slot i out

/-- The node of a slot is on level `l` of the search path of query `i`. -/
def SlotPath (tr : Traits) (root : Node K D) (queries : List K) (i l : Nat)
    (node : Option (Node K D)) : Prop :=
  ∃ n key, node = some n ∧ queries[i]? = some key ∧ OnPath tr root key l n

section SlotPath

variable {tr : Traits} {t : Tree K D} {root : Node K D} {queries : List K} {results : List D}
  {dflt : D} {find : NodeSearch K} {i l : Nat} {node : Option (Node K D)}

theorem slotPath_root (hi : i < queries.length) :
    SlotPath tr root queries i root.level (some root) := by
  obtain ⟨key, hkey⟩ := exists_getElem? queries hi
  exact ⟨root, key, rfl, hkey, .root⟩

theorem SlotPath.step (hfind : find.Exact) (hroot : VerifyNode tr root.level root)
    (h : SlotPath tr root queries i (l + 1) node) :
    (stepSlot find queries i node).Ensures fun child =>
      SlotPath tr root queries i l (some child) := by
  obtain ⟨n, key, rfl, hkey, hpath⟩ := h
  refine (returns_ofOption.mpr rfl).seq ((returns_read.mpr hkey).seq ?_)
  exact (hpath.stepDown hfind hroot).mono fun c hc => ⟨c, key, rfl, hkey, hc⟩

/-- The leaf of a slot answers its query. -/
theorem SlotPath.settles {ans : List (Option D)} {prior : Out D} (hfind : find.Exact)
    (hp : Fits ans prior) (ht : t.root = some root) (hroot : VerifyNode tr root.level root)
    (h : SlotPath tr root queries i 0 node) (store : Bool)
    (hans : ∀ key, queries[i]? = some key →
      ans[i]? = some (stored store prior i (t.lookup key))) :
    Settles ans prior i (retireSlot find store queries i node) := by
  obtain ⟨n, key, rfl, hkey, hpath⟩ := h
  obtain ⟨leaf, rfl, hs, hset⟩ := hpath.settles_collect hp ht hroot store (hans key hkey)
  have hleaf : (Node.leaf leaf).toLeaf.Returns leaf := returns_pure.mpr rfl
  have hnode : (ofOption (some (Node.leaf leaf))).Returns (Node.leaf leaf) :=
    returns_ofOption.mpr rfl
  intro done
  exact hnode.bind (hleaf.bind ((returns_read.mpr hkey).bind ((hfind key hs).bind (hset done))))

/-- It also does so where nothing is written for a miss, if the flag starts out false. -/
theorem SlotPath.settlesHit (hfind : find.Exact) (ht : t.root = some root)
    (hroot : VerifyNode tr root.level root) (h : SlotPath tr root queries i 0 node) :
    Settles (queries.map t.lookup) (Out.fresh queries.length results dflt) i
      (retireSlotHit find true queries i node) := by
  obtain ⟨n, key, rfl, hkey, hpath⟩ := h
  obtain ⟨leaf, rfl, hs, _, hhit⟩ := hpath.settles
    (fits_fresh t.lookup queries results dflt) ht hroot (getElem?_answers _ hkey)
  have hleaf : (Node.leaf leaf).toLeaf.Returns leaf := returns_pure.mpr rfl
  have hfalse := found_fresh results dflt (List.getElem?_eq_some_iff.mp hkey).1
  have hnode : (ofOption (some (Node.leaf leaf))).Returns (Node.leaf leaf) :=
    returns_ofOption.mpr rfl
  intro done
  exact hnode.bind (hleaf.bind ((returns_read.mpr hkey).bind
    ((hfind key hs).bind (hhit hfalse done))))

end SlotPath

/-! ## SoftwarePipelinedPrefetch -/

/-- `Task`: a query and the node it is at.  A slot without a query has no node. -/
structure Task (K D : Type) where
  /-- The index of the query. -/
  queryIdx : Nat
  /-- The node. -/
  node : Option (Node K D)

/-- `get_tree_height` below a root. -/
def getTreeHeight (root : Node K D) : Prog Nat := do
  let r ← whileM (fun r => pure (!r.2.isLeafNode)) (fun r => do
    let inner ← r.2.toInner
    let child ← read inner.childid 0
    pure (r.1 + 1, child)) (1, root)
  pure r.1

/-- The slots of the pipeline. -/
def SoftwarePipelinedPrefetch.conveyor (tr : Traits) (root : Node K D) (queries : List K) :
    Conveyor (Task K D) D where
  blank := ⟨0, none⟩
  active c := c.node.isSome
  queryIdx c := c.queryIdx
  clear c := { c with node := none }
  load _ i := pure ⟨i, some root⟩
  advance c := do
    let child ← stepSlot findLower queries c.queryIdx c.node
    pure { c with node := some child }
  retire c := retireSlot findLower (!tr.selfverify) queries c.queryIdx c.node

/-- `SoftwarePipelinedPrefetch::batch_lookup` -/
def SoftwarePipelinedPrefetch.batchLookup (N : Nat) (tr : Traits) (t : Tree K D)
    (queries : List K) (results : List D) (dflt : D) : Prog (Out D) :=
  onRootQueries t queries results dflt fun root out => do
    let H ← getTreeHeight root
    if H ≤ 0 then pure out else do
      let st ← (SoftwarePipelinedPrefetch.conveyor tr root queries).run H 1 N queries.length out
      pure st.out

/-- `Task` of the linear variant, with a flag for a slot that has a query. -/
structure LinearTask (K D : Type) where
  /-- The index of the query. -/
  queryIdx : Nat
  /-- The node. -/
  node : Option (Node K D)
  /-- The slot has a query. -/
  active : Bool

/-- The slots of the pipeline of the linear variant. -/
def SoftwarePipelinedPrefetchLinear.conveyor (tr : Traits) (root : Node K D) (queries : List K) :
    Conveyor (LinearTask K D) D where
  blank := ⟨0, none, false⟩
  active c := c.active
  queryIdx c := c.queryIdx
  clear c := { c with active := false }
  load _ i := pure ⟨i, some root, true⟩
  advance c := do
    let child ← stepSlot linearLowerBound queries c.queryIdx c.node
    pure ⟨c.queryIdx, some child, true⟩
  retire c := retireSlot linearLowerBound (!tr.selfverify) queries c.queryIdx c.node

/-- `SoftwarePipelinedPrefetch_Linear::batch_lookup` -/
def SoftwarePipelinedPrefetchLinear.batchLookup (N : Nat) (tr : Traits) (t : Tree K D)
    (queries : List K) (results : List D) (dflt : D) : Prog (Out D) :=
  onRootQueries t queries results dflt fun root out => do
    let pipelineDepth ← getTreeHeight root
    let st ← (SoftwarePipelinedPrefetchLinear.conveyor tr root queries).runShift
      (pipelineDepth - 1) N queries.length out
    pure st.out

section Pipelined

variable {tr : Traits} {t : Tree K D} {root : Node K D} {queries : List K} {results : List D}
  {dflt : D} {N : Nat}

/-- The height of a verified tree is one more than the level of its root. -/
theorem getTreeHeight_returns (hroot : VerifyNode tr root.level root) :
    (getTreeHeight root).Returns (root.level + 1) := by
  refine Ensures.returns (Ensures.bind (P := fun r => r.1 = root.level + 1) ?_
    fun r hr => Ensures.pure hr)
  refine Ensures.whileM
    (fun l r => l ≤ root.level ∧ r.1 = root.level - l + 1 ∧ VerifyNode tr l r.2) ?_
    root.level (1, root) ⟨Nat.le_refl _, by simp, hroot⟩
  rintro l ⟨h, n⟩ ⟨hle, hh, hv⟩
  refine ⟨_, returns_pure.mpr rfl, fun hinner => ?_, fun hleaf => ?_⟩
  · cases l with
    | zero => simp [Node.isLeafNode, hv.level_eq] at hinner
    | succ l =>
        cases n with
        | leaf m => exact hv.elim
        | inner m =>
            have hm : m.Verified tr l (VerifyNode tr l) := hv
            obtain ⟨c, hc, hvc, _⟩ := hm.children 0 (Nat.zero_lt_succ _)
            refine (returns_pure.mpr rfl : (Node.inner m).toInner.Returns m).seq ?_
            refine (returns_read.mpr hc).seq (Ensures.pure ⟨l, Nat.lt_succ_self l, ?_, ?_, hvc⟩)
            · omega
            · simp only at hh
              omega
  · have h0 : l = 0 := by simpa [Node.isLeafNode, hv.level_eq] using hleaf
    subst h0
    simpa using hh

/-- The answers of a pipeline, which leaves the values alone when nothing is stored. -/
def pipelineAnswers (tr : Traits) (t : Tree K D) (queries : List K) (prior : Out D) :
    List (Option D) :=
  queries.mapIdx fun i key => stored (!tr.selfverify) prior i (t.lookup key)

theorem pipelineAnswers_eq_map (hsv : tr.selfverify = false) (prior : Out D) :
    pipelineAnswers tr t queries prior = queries.map t.lookup := by
  refine List.ext_getElem? fun i => ?_
  rw [pipelineAnswers, List.getElem?_mapIdx, List.getElem?_map, hsv]
  rfl

/-- After `p` steps a slot is `p` levels below the root. -/
theorem SoftwarePipelinedPrefetch.sound (ht : t.root = some root)
    (hroot : VerifyNode tr root.level root) {prior : Out D}
    (hp : Fits (pipelineAnswers tr t queries prior) prior) :
    (SoftwarePipelinedPrefetch.conveyor tr root queries).Sound
      (pipelineAnswers tr t queries prior) prior
      (fun q p c => c.queryIdx = q ∧ SlotPath tr root queries q (root.level - p) c.node)
      root.level where
  blank := rfl
  clear _ := rfl
  phase q p c h := by
    obtain ⟨hq, n, _, hn, _⟩ := h
    exact ⟨by simp [conveyor, hn], hq⟩
  load c q hq := Ensures.pure
    ⟨rfl, slotPath_root (by rwa [pipelineAnswers, List.length_mapIdx] at hq)⟩
  advance c q p _ hp h := by
    obtain ⟨rfl, hpath⟩ := h
    rw [show root.level - p = root.level - (p + 1) + 1 by omega] at hpath
    exact Ensures.bind (hpath.step findLower_exact hroot) fun child hchild =>
      Ensures.pure ⟨rfl, hchild⟩
  retire c q _ h := by
    obtain ⟨rfl, hpath⟩ := h
    rw [Nat.sub_self] at hpath
    refine hpath.settles findLower_exact hp ht hroot (!tr.selfverify) fun key hkey => ?_
    rw [pipelineAnswers, List.getElem?_mapIdx, hkey, Option.map_some]

theorem SoftwarePipelinedPrefetch.batchLookup_returns (ht : t.Verified tr)
    (hsv : tr.selfverify = false) (hN : 1 ≤ N) :
    (SoftwarePipelinedPrefetch.batchLookup N tr t queries results dflt).Returns
      (lookupAll t.lookup queries results dflt) := by
  refine onRootQueries_returns (fun hr => Tree.lookup_none hr) fun root hr _ => ?_
  refine (getTreeHeight_returns (ht root hr)).bind ?_
  rw [if_neg (by omega)]
  have heq : pipelineAnswers tr t queries (Out.fresh queries.length results dflt) =
      queries.map t.lookup := pipelineAnswers_eq_map hsv _
  have hC := SoftwarePipelinedPrefetch.sound hr (ht root hr)
    (heq ▸ fits_fresh t.lookup queries results dflt)
  rw [heq] at hC
  obtain ⟨st, hst, hout, _⟩ := Conveyor.Sound.run_queries
    (show Conveyor.Sound _ _ _ _ (root.level + 1 - 1) from hC) (Nat.le_refl 1) hN
  exact hst.bind (returns_pure.mpr hout)

theorem SoftwarePipelinedPrefetchLinear.sound (queries : List K) (results : List D) (dflt : D)
    (ht : t.root = some root)
    (hroot : VerifyNode tr root.level root) (hsv : tr.selfverify = false) :
    (SoftwarePipelinedPrefetchLinear.conveyor tr root queries).Sound (queries.map t.lookup)
      (Out.fresh queries.length results dflt)
      (fun q p c => c.active = true ∧ c.queryIdx = q ∧
        SlotPath tr root queries q (root.level - p) c.node)
      root.level where
  blank := rfl
  clear _ := rfl
  phase q p c h := ⟨h.1, h.2.1⟩
  load c q hq := Ensures.pure ⟨rfl, rfl, slotPath_root (by rwa [List.length_map] at hq)⟩
  advance c q p _ hp h := by
    obtain ⟨_, rfl, hpath⟩ := h
    rw [show root.level - p = root.level - (p + 1) + 1 by omega] at hpath
    exact Ensures.bind (hpath.step linearLowerBound_exact hroot) fun child hchild =>
      Ensures.pure ⟨rfl, rfl, hchild⟩
  retire c q _ h := by
    obtain ⟨_, rfl, hpath⟩ := h
    rw [Nat.sub_self] at hpath
    simp only [conveyor, hsv]
    exact hpath.settles linearLowerBound_exact (fits_fresh t.lookup queries results dflt) ht hroot
      true fun key hkey => getElem?_answers t.lookup hkey

theorem SoftwarePipelinedPrefetchLinear.batchLookup_returns (ht : t.Verified tr)
    (hsv : tr.selfverify = false) (hN : 1 ≤ N) :
    (SoftwarePipelinedPrefetchLinear.batchLookup N tr t queries results dflt).Returns
      (lookupAll t.lookup queries results dflt) := by
  refine onRootQueries_returns (fun hr => Tree.lookup_none hr) fun root hr _ => ?_
  refine (getTreeHeight_returns (ht root hr)).bind ?_
  obtain ⟨st, hst, hout⟩ :=
    (SoftwarePipelinedPrefetchLinear.sound queries results dflt hr (ht root hr)
      hsv).runShift_queries hN
  exact hst.bind (returns_pure.mpr hout)

end Pipelined

/-! ## AMACSearch -/

/-- `state_t` of both pools; only the linear one uses `searchLeaf`. -/
inductive FsmState where
  /-- The slot has a query but no node yet. -/
  | init
  /-- The slot goes down the tree: `SEARCH`, or `SEARCH_INNER` of the linear variant. -/
  | search
  /-- The slot is at a leaf. -/
  | searchLeaf
  /-- The slot has no query. -/
  | done
deriving DecidableEq

/-- `fsm_shared_t` -/
structure FsmShared (K D : Type) where
  /-- The state of the slot. -/
  state : FsmState
  /-- The index of the query. -/
  i : Nat
  /-- The node. -/
  v : Option (Node K D)

/-- The slots of the pool, over what a slot that goes down does when it is at a leaf. -/
def fsmMachine (find : NodeSearch K) (tr : Traits) (root : Node K D) (queries : List K)
    (atLeaf : FsmShared K D → Out D → Prog (Turn (FsmShared K D) D)) :
    Machine (FsmShared K D) D where
  blank := ⟨.done, 0, none⟩
  isDone s := s.state == .done
  index s := s.i
  init s i := { s with state := .init, i := i }
  step s out :=
    match s.state with
    | .init => pure (.stay { s with v := some root, state := .search })
    | .search => do
        let currentNode ← ofOption s.v
        if currentNode.isLeafNode then atLeaf s out else do
          let child ← stepSlot find queries s.i s.v
          pure (.stay { s with v := some child })
    | .searchLeaf => do
        let out ← retireSlotHit find (!tr.selfverify) queries s.i s.v out
        pure (.finish { s with state := .done } out)
    | .done => pure (.stay s)

/-- The slots of `AMACSearch`, which answer the query in the step that finds them at a leaf. -/
def AMACSearch.machine (tr : Traits) (root : Node K D) (queries : List K) :
    Machine (FsmShared K D) D :=
  fsmMachine findLower tr root queries fun s out => do
    let out ← retireSlotHit findLower (!tr.selfverify) queries s.i s.v out
    pure (.finish { s with state := .done } out)

/-- The slots of `AMACSearch_Linear`, which spend one more step to answer the query. -/
def AMACSearchLinear.machine (tr : Traits) (root : Node K D) (queries : List K) :
    Machine (FsmShared K D) D :=
  fsmMachine linearLowerBound tr root queries fun s _ =>
    pure (.stay { s with state := .searchLeaf })

/-- `AMACSearch::batch_lookup` -/
def AMACSearch.batchLookup (N : Nat) (tr : Traits) (t : Tree K D) (queries : List K)
    (results : List D) (dflt : D) : Prog (Out D) :=
  onRootQueries t queries results dflt fun root out => do
    let st ← (AMACSearch.machine tr root queries).run N queries.length out
    pure st.out

/-- `AMACSearch_Linear::batch_lookup` -/
def AMACSearchLinear.batchLookup (N : Nat) (tr : Traits) (t : Tree K D) (queries : List K)
    (results : List D) (dflt : D) : Prog (Out D) :=
  onRootQueries t queries results dflt fun root out => do
    let st ← (AMACSearchLinear.machine tr root queries).runRoundRobin N queries.length out
    pure st.out

/-- A slot of a pool that searches for query `i`, with fewer than `m` steps to go after the next
one.  At a leaf, `extra` more steps are taken. -/
def FsmBusy (tr : Traits) (root : Node K D) (queries : List K) (extra i m : Nat)
    (s : FsmShared K D) : Prop :=
  s.i = i ∧ i < queries.length ∧
    ((s.state = .init ∧ m = root.level + extra + 1) ∨
      (s.state = .search ∧ ∃ l, m = l + extra ∧ SlotPath tr root queries i l s.v) ∨
      (s.state = .searchLeaf ∧ 0 < extra ∧ m = 0 ∧ SlotPath tr root queries i 0 s.v))

section Pooled

variable {tr : Traits} {t : Tree K D} {root : Node K D} {queries : List K} {results : List D}
  {dflt : D} {N extra : Nat} {find : NodeSearch K}
  {atLeaf : FsmShared K D → Out D → Prog (Turn (FsmShared K D) D)}

/-- The slots of both pools are sound, if a slot at a leaf does what its number of extra steps
promises. -/
theorem fsmMachine_sound (hfind : find.Exact) (ht : t.root = some root)
    (hroot : VerifyNode tr root.level root) (hsv : tr.selfverify = false)
    (hleaf : ∀ s, s.i < queries.length → SlotPath tr root queries s.i 0 s.v →
      ∀ done : Nat → Prop,
        (atLeaf s (progress (queries.map t.lookup) (Out.fresh queries.length results dflt)
          done)).Ensures (Turn.Satisfies
            (fun s' => ∃ m' < extra, FsmBusy tr root queries extra s.i m' s')
            (fun s' out => (s'.state == .done) = true ∧
              out = progress (queries.map t.lookup) (Out.fresh queries.length results dflt)
                fun j => j = s.i ∨ done j))) :
    (fsmMachine find tr root queries atLeaf).Sound (queries.map t.lookup)
      (Out.fresh queries.length results dflt) (FsmBusy tr root queries extra)
      (fun _ => root.level + extra + 1) where
  blank := rfl
  idle s out h := by
    have hs : s.state = .done := by simpa [fsmMachine] using h
    simp only [fsmMachine, hs]
    exact returns_pure.mpr rfl
  load s i _ hi := ⟨rfl, by rwa [List.length_map] at hi, Or.inl ⟨rfl, rfl⟩⟩
  busy i m s h := by
    obtain ⟨hi, _, h⟩ := h
    refine ⟨?_, hi⟩
    rcases h with ⟨hs, _⟩ | ⟨hs, _⟩ | ⟨hs, _⟩ <;> simp [fsmMachine, hs]
  step i m s _ h done := by
    obtain ⟨rfl, hlt, h⟩ := h
    rcases h with ⟨hs, rfl⟩ | ⟨hs, l, rfl, hpath⟩ | ⟨hs, _, rfl, hpath⟩
    · -- INIT: the slot starts at the root
      simp only [fsmMachine, hs]
      exact Ensures.pure ⟨root.level + extra, Nat.lt_succ_self _, rfl, hlt,
        Or.inr (Or.inl ⟨rfl, root.level, rfl, slotPath_root hlt⟩)⟩
    · -- SEARCH: one level down, or the leaf
      obtain ⟨n, key, hn, hkey, honpath⟩ := id hpath
      simp only [fsmMachine, hs]
      refine (returns_ofOption.mpr hn).seq ?_
      cases l with
      | zero =>
          rw [if_pos ((honpath.isLeafNode hroot).mpr rfl), Nat.zero_add]
          exact hleaf s hlt hpath done
      | succ l =>
          rw [if_neg fun hc => Nat.succ_ne_zero l ((honpath.isLeafNode hroot).mp hc)]
          refine Ensures.bind (hpath.step hfind hroot) fun child hchild =>
            Ensures.pure ⟨l + extra, by omega, rfl, hlt, Or.inr (Or.inl ⟨rfl, l, rfl, hchild⟩)⟩
    · -- SEARCH_LEAF: the answer
      simp only [fsmMachine, hs, hsv]
      exact (hpath.settlesHit hfind ht hroot done).seq (Ensures.pure ⟨rfl, rfl⟩)

theorem AMACSearch.batchLookup_returns (ht : t.Verified tr) (hsv : tr.selfverify = false)
    (hN : 1 ≤ N) :
    (AMACSearch.batchLookup N tr t queries results dflt).Returns
      (lookupAll t.lookup queries results dflt) := by
  refine onRootQueries_returns (fun hr => Tree.lookup_none hr) fun root hr _ => ?_
  have hsound : (AMACSearch.machine tr root queries).Sound (queries.map t.lookup)
      (Out.fresh queries.length results dflt) (FsmBusy tr root queries 0)
      (fun _ => root.level + 0 + 1) :=
    fsmMachine_sound findLower_exact hr (ht root hr) hsv fun s hlt hpath done => by
      simp only [hsv]
      exact (hpath.settlesHit findLower_exact hr (ht root hr) done).seq (Ensures.pure ⟨rfl, rfl⟩)
  obtain ⟨st, hst, hout, _⟩ := hsound.run_queries hN
  exact hst.bind (returns_pure.mpr hout)

theorem AMACSearchLinear.batchLookup_returns (ht : t.Verified tr) (hsv : tr.selfverify = false)
    (hN : 1 ≤ N) :
    (AMACSearchLinear.batchLookup N tr t queries results dflt).Returns
      (lookupAll t.lookup queries results dflt) := by
  refine onRootQueries_returns (fun hr => Tree.lookup_none hr) fun root hr _ => ?_
  have hsound : (AMACSearchLinear.machine tr root queries).Sound (queries.map t.lookup)
      (Out.fresh queries.length results dflt) (FsmBusy tr root queries 1)
      (fun _ => root.level + 1 + 1) :=
    fsmMachine_sound linearLowerBound_exact hr (ht root hr) hsv fun s hlt hpath done =>
      Ensures.pure ⟨0, Nat.zero_lt_one, rfl, hlt,
        Or.inr (Or.inr ⟨rfl, Nat.zero_lt_one, rfl, hpath⟩)⟩
  obtain ⟨st, hst, hout, _⟩ := hsound.runRoundRobin_queries hN
  exact hst.bind (returns_pure.mpr hout)

end Pooled

end BTree
