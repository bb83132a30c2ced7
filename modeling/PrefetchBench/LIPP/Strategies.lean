import PrefetchBench.LIPP.Index
import PrefetchBench.Batch.Countdown

/-!
# The LIPP strategies

The five strategies take the same step in a node: predict, look at the bits of the item, and go to
the child, or stop, with the value if the key is there (`searchStep`).  They differ in whose step
comes next.  How many steps a query takes depends on its key, so the queries of a group, and the
slots of a pool, end at different times.

The step follows the descent of the key (`Descent.searchStep`), and its length is what bounds the
work of a slot.  So every schedule ends, with the answers that `exists` and `at` give
(`lookups_agree`).
-/

namespace LIPP

open Prog Batch

variable {K V S : Type}

/-! ## Batches that stop at the start -/

/-- `if (!index.root || queries.empty()) return found;` -/
def onTree {α : Type} (root : Nat) (queries : List K) (stop body : α) : α :=
  if root = 0 ∨ queries = [] then stop else body

theorem onTree_nil {α : Type} {root : Nat} {stop body : α} :
    onTree root ([] : List K) stop body = stop := if_pos (Or.inr rfl)

theorem onTree_body {α : Type} {root : Nat} {queries : List K} {stop body : α} (hroot : root ≠ 0)
    (h : queries ≠ []) : onTree root queries stop body = body := if_neg (by simp [hroot, h])

theorem lookupAll_nil {answer : K → Option V} {results : List V} {dflt : V} :
    lookupAll answer [] results dflt = Out.fresh 0 results dflt := answered_nil _

/-- The pool of a batch that stops at the start. -/
def stopped (out : Out V) : PoolState S V := ⟨[], 0, 0, out, []⟩

/-- A strategy ends with this output, and takes every query into a slot once and counts it as
finished once. -/
def Delivers (n : Nat) (out : Out V) (run : Prog (PoolState S V)) : Prop :=
  run.Ensures fun st => st.out = out ∧ HandledOnce n st.log

/-- It is enough to look at batches that do not stop at the start. -/
theorem delivers_onTree {answer : K → Option V} {root : Nat} {queries : List K} {results : List V}
    {dflt : V} {run : Prog (PoolState S V)} (hroot : root ≠ 0)
    (h : Delivers queries.length (lookupAll answer queries results dflt) run) :
    Delivers queries.length (lookupAll answer queries results dflt)
      (onTree root queries (pure (stopped (Out.fresh queries.length results dflt))) run) := by
  by_cases hq : queries = []
  · subst hq
    rw [onTree_nil]
    refine Ensures.pure ⟨lookupAll_nil.symm, ?_⟩
    intro i hi
    cases hi
  · rw [onTree_body hroot hq]
    exact h

variable [DecidableEq K]

/-! ## The step -/

/-- What a search does with the item it has come to. -/
def Entry.visit (e : Entry K V) (key : K) (i : Nat) (out : Out V) : Prog (Nat ⊕ Out V) :=
  match e with
  | .none => pure (.inr out)
  | .child c => pure (.inl c)
  | .data k v =>
      if k = key then do
        let out ← out.hit i v
        pure (.inr out)
      else pure (.inr out)

/-- One turn of a search: down to a child, or out of the tree. -/
def searchStep (heap : Heap (Node K V)) (p : Nat) (key : K) (i : Nat) (out : Out V) :
    Prog (Nat ⊕ Out V) := do
  let node ← heap.get p
  let e ← node.probe (node.predictPos key)
  e.visit key i out

/-! ## The strategies -/

/-- `NoPrefetch::batch_lookup` -/
def NoPrefetch.batchLookup (heap : Heap (Node K V)) (root : Nat) (queries : List K)
    (results : List V) (dflt : V) : Prog (Out V) :=
  let out := Out.fresh queries.length results dflt
  onTree root queries (pure out) <|
    forRange queries.length (fun i out => do
      let key ← read queries i
      loop (fun p => searchStep heap p key i out) root) out

/-- `Task`: the lanes of `GroupPrefetch` and the tasks of `SoftwarePipelinedPrefetch`. -/
structure Task where
  /-- The index of the query. -/
  queryIdx : Nat
  /-- The node. -/
  node : Nat
  /-- The query is not answered yet. -/
  active : Bool

/-- Tasks take one step at a time. -/
def taskMachine (heap : Heap (Node K V)) (root : Nat) (queries : List K) : Machine Task V where
  blank := ⟨0, 0, false⟩
  isDone s := !s.active
  index s := s.queryIdx
  init _ i := ⟨i, root, true⟩
  step s out :=
    if s.active then do
      let key ← read queries s.queryIdx
      match (← searchStep heap s.node key s.queryIdx out) with
      | .inl c => pure (.stay { s with node := c })
      | .inr out => pure (.finish { s with active := false } out)
    else pure (.stay s)

/-- A lane of `VectorizedSearch`: a task with the position that was predicted for it. -/
structure Lane extends Task where
  /-- `pos[i]` -/
  pos : Nat

/-- `pos[i] = predict_pos(nodes[i], batch_queries[i]);` -/
def Lane.predict (heap : Heap (Node K V)) (queries : List K) (s : Lane) : Prog Lane := do
  let node ← heap.get s.node
  let key ← read queries s.queryIdx
  pure { s with pos := node.predictPos key }

/-- Lanes take their step at the position that was predicted. -/
def laneMachine (heap : Heap (Node K V)) (root : Nat) (queries : List K) : Machine Lane V where
  blank := ⟨⟨0, 0, false⟩, 0⟩
  isDone s := !s.active
  index s := s.queryIdx
  init s i := ⟨⟨i, root, true⟩, s.pos⟩
  step s out :=
    if s.active then do
      let node ← heap.get s.node
      let key ← read queries s.queryIdx
      let e ← node.probe s.pos
      match (← e.visit key s.queryIdx out) with
      | .inl c => pure (.stay { s with node := c })
      | .inr out => pure (.finish { s with active := false } out)
    else pure (.stay s)

/-- `state_t` -/
inductive FsmState where
  /-- The slot has a query but no node yet. -/
  | init
  /-- The slot goes down the tree. -/
  | search
  /-- The slot has no query. -/
  | done
deriving DecidableEq

/-- `fsm_t` -/
structure Fsm where
  /-- The state of the slot. -/
  state : FsmState
  /-- The index of the query. -/
  queryIdx : Nat
  /-- The node. -/
  node : Nat

/-- The slots of `AMACSearch`, which spend a step to go to the root. -/
def fsmMachine (heap : Heap (Node K V)) (root : Nat) (queries : List K) : Machine Fsm V where
  blank := ⟨.done, 0, 0⟩
  isDone s := s.state == .done
  index s := s.queryIdx
  init _ i := ⟨.init, i, 0⟩
  step s out :=
    match s.state with
    | .init => pure (.stay { s with node := root, state := .search })
    | .search => do
        let key ← read queries s.queryIdx
        match (← searchStep heap s.node key s.queryIdx out) with
        | .inl c => pure (.stay { s with node := c })
        | .inr out => pure (.finish { s with state := .done } out)
    | .done => pure (.stay s)

/-- `GroupPrefetch::batch_lookup`, with its history. -/
def GroupPrefetch.run (N : Nat) (heap : Heap (Node K V)) (root : Nat) (queries : List K)
    (results : List V) (dflt : V) : Prog (PoolState Task V) :=
  let out := Out.fresh queries.length results dflt
  onTree root queries (pure (stopped out)) <|
    (taskMachine heap root queries).runGroups (taskMachine heap root queries).sweep N
      queries.length out

/-- `SoftwarePipelinedPrefetch::batch_lookup`, with its history. -/
def SoftwarePipelinedPrefetch.run (N : Nat) (heap : Heap (Node K V)) (root : Nat)
    (queries : List K) (results : List V) (dflt : V) : Prog (PoolState Task V) :=
  let out := Out.fresh queries.length results dflt
  onTree root queries (pure (stopped out)) <|
    (taskMachine heap root queries).run N queries.length out

/-- `VectorizedSearch::batch_lookup`, with its history. -/
def VectorizedSearch.run (N : Nat) (heap : Heap (Node K V)) (root : Nat) (queries : List K)
    (results : List V) (dflt : V) : Prog (PoolState Lane V) :=
  let out := Out.fresh queries.length results dflt
  onTree root queries (pure (stopped out)) <|
    (laneMachine heap root queries).runGroups
      ((laneMachine heap root queries).preparedSweep (Lane.predict heap queries)) N
      queries.length out

/-- `AMACSearch::batch_lookup`, with its history. -/
def AMACSearch.run (N : Nat) (heap : Heap (Node K V)) (root : Nat) (queries : List K)
    (results : List V) (dflt : V) : Prog (PoolState Fsm V) :=
  let out := Out.fresh queries.length results dflt
  onTree root queries (pure (stopped out)) <|
    (fsmMachine heap root queries).run N queries.length out

/-! ## Steps on the way down -/

section Steps

variable {heap : Heap (Node K V)} {p d i : Nat} {key : K} {a : Option V} {ans : List (Option V)}
  {prior : Out V}

/-- The search is nearer to its end, or has answered its query. -/
def Outcome (heap : Heap (Node K V)) (key : K) (d : Nat) (a : Option V) (out : Out V) :
    Nat ⊕ Out V → Prop
  | .inl c => ∃ d' < d, Descent heap key c d' a
  | .inr out' => out' = out

/-- The item on the way down is what the search needs. -/
theorem Descent.visit (h : Descent heap key p d a) (hp : Fits ans prior) (hi : ans[i]? = some a)
    (hfalse : prior.found[i]? = some false) :
    ∃ n e, heap.content p = some n ∧ n.entry (n.predictPos key) = some e ∧
      ∀ done : Nat → Prop, (e.visit key i (progress ans prior done)).Ensures
        (Outcome heap key d a (progress ans prior fun j => j = i ∨ done j)) := by
  cases h with
  | none content entry =>
      refine ⟨_, _, content, entry, ?_⟩
      intro done
      exact Ensures.pure (progress_insert_none hi hfalse)
  | @data _ n k v content entry =>
      refine ⟨_, _, content, entry, ?_⟩
      intro done
      rw [Entry.visit]
      split at hi
      · rename_i hk
        rw [if_pos hk]
        exact (hit_progress hp hi).seq (Ensures.pure rfl)
      · rename_i hk
        rw [if_neg hk]
        exact Ensures.pure (progress_insert_none hi hfalse)
  | @child _ c d n _ content entry below =>
      refine ⟨_, _, content, entry, ?_⟩
      intro done
      exact Ensures.pure ⟨d, Nat.lt_succ_self d, below⟩

theorem Descent.searchStep (h : Descent heap key p d a) (hp : Fits ans prior)
    (hi : ans[i]? = some a) (hfalse : prior.found[i]? = some false) (done : Nat → Prop) :
    (searchStep heap p key i (progress ans prior done)).Ensures
      (Outcome heap key d a (progress ans prior fun j => j = i ∨ done j)) := by
  obtain ⟨n, e, content, entry, hvisit⟩ := h.visit hp hi hfalse
  refine (Heap.returns_get.mpr content).seq ?_
  exact (Node.probe_returns entry).seq (hvisit done)

/-- A search that goes on until it is out of the tree answers its query. -/
theorem Descent.settles (h : Descent heap key p d a) (hp : Fits ans prior) (hi : ans[i]? = some a)
    (hfalse : prior.found[i]? = some false) :
    Settles ans prior i fun out => loop (fun p => LIPP.searchStep heap p key i out) p := by
  intro done
  refine Ensures.returns (Ensures.loop (fun m p => Descent heap key p m a) ?_ d p h)
  intro m p hd
  apply (hd.searchStep hp hi hfalse done).mono
  rintro (c | out) hout
  · exact hout
  · exact hout

end Steps

/-! ## The schedules -/

section Schedules

variable {heap : Heap (Node K V)} {root : Nat} {queries : List K} {results : List V} {dflt : V}
  {answer : K → Option V} {depth : K → Nat} {N : Nat}

/-- A search for query `i` that is on its way, `m` steps before the end. -/
def OnWay (heap : Heap (Node K V)) (queries : List K) (answer : K → Option V) (i m p : Nat) :
    Prop :=
  ∃ key, queries[i]? = some key ∧ Descent heap key p m (answer key)

/-- The steps of a query after the first one. -/
def stepsOf (queries : List K) (depth : K → Nat) (i : Nat) : Nat := (queries[i]?.map depth).getD 0

/-- Each key has its descent. -/
abbrev Descents (heap : Heap (Node K V)) (root : Nat) (depth : K → Nat) (answer : K → Option V) :
    Prop :=
  ∀ key, Descent heap key root (depth key) (answer key)

theorem onWay_root (h : Descents heap root depth answer) {i : Nat}
    (hi : i < (queries.map answer).length) :
    OnWay heap queries answer i (stepsOf queries depth i) root := by
  rw [List.length_map] at hi
  have hq := List.getElem?_eq_getElem hi
  refine ⟨queries[i], hq, ?_⟩
  rw [stepsOf, hq]
  exact h queries[i]

/-- A busy task. -/
def Task.Busy (heap : Heap (Node K V)) (queries : List K) (answer : K → Option V) (i m : Nat)
    (s : Task) : Prop :=
  s.active = true ∧ s.queryIdx = i ∧ OnWay heap queries answer i m s.node

theorem taskMachine_sound (h : Descents heap root depth answer) (results : List V) (dflt : V) :
    (taskMachine heap root queries).Sound (queries.map answer)
      (Out.fresh queries.length results dflt) (Task.Busy heap queries answer)
      (stepsOf queries depth) where
  blank := rfl
  idle s out hs := by
    have hs : s.active = false := by simpa [taskMachine] using hs
    simp only [taskMachine, hs]
    exact returns_pure.mpr rfl
  load s i _ hi := ⟨rfl, rfl, onWay_root h hi⟩
  busy i m s hs := ⟨by simp [taskMachine, hs.1], hs.2.1⟩
  step i m s hi hs done := by
    obtain ⟨hactive, rfl, key, hkey, hdescent⟩ := hs
    rw [List.length_map] at hi
    simp only [taskMachine, hactive, if_true]
    refine (returns_read.mpr hkey).seq ?_
    refine (hdescent.searchStep (fits_fresh answer queries results dflt) (getElem?_answers _ hkey)
      (found_fresh results dflt hi) done).bind ?_
    rintro (c | out) hout
    · obtain ⟨m', hlt, hbelow⟩ := hout
      exact Ensures.pure ⟨m', hlt, rfl, rfl, key, hkey, hbelow⟩
    · exact Ensures.pure ⟨rfl, hout⟩

/-- A busy lane. -/
def Lane.Busy (heap : Heap (Node K V)) (queries : List K) (answer : K → Option V) (i m : Nat)
    (s : Lane) : Prop :=
  s.toTask.Busy heap queries answer i m

theorem laneMachine_slots (h : Descents heap root depth answer) :
    (laneMachine heap root queries).Slots (queries.map answer) (Lane.Busy heap queries answer)
      (stepsOf queries depth) where
  blank := rfl
  idle s out hs := by
    have hs : s.active = false := by simpa [laneMachine] using hs
    simp only [laneMachine, hs]
    exact returns_pure.mpr rfl
  load s i _ hi := ⟨rfl, rfl, onWay_root h hi⟩
  busy i m s hs := ⟨by simp [laneMachine, hs.1], hs.2.1⟩

/-- A lane is ready for its step once its position is predicted. -/
theorem lane_predict {i m : Nat} {s : Lane} (hi : i < (queries.map answer).length)
    (hs : s.Busy heap queries answer i m) :
    (Lane.predict heap queries s).Ensures fun s' => s'.Busy heap queries answer i m ∧
      (laneMachine heap root queries).Steps (queries.map answer)
        (Out.fresh queries.length results dflt) (Lane.Busy heap queries answer) i m s' := by
  obtain ⟨hactive, rfl, key, hkey, hdescent⟩ := hs
  rw [List.length_map] at hi
  obtain ⟨n, e, content, entry, hvisit⟩ := hdescent.visit
    (fits_fresh answer queries results dflt) (getElem?_answers _ hkey)
    (found_fresh results dflt hi)
  refine (Heap.returns_get.mpr content).seq ((returns_read.mpr hkey).seq (Ensures.pure ?_))
  refine ⟨⟨hactive, rfl, key, hkey, hdescent⟩, ?_⟩
  intro done
  simp only [laneMachine, hactive, if_true]
  refine (Heap.returns_get.mpr content).seq ((returns_read.mpr hkey).seq ?_)
  refine (Node.probe_returns entry).seq ((hvisit done).bind ?_)
  rintro (c | out) hout
  · obtain ⟨m', hlt, hbelow⟩ := hout
    exact Ensures.pure ⟨m', hlt, rfl, rfl, key, hkey, hbelow⟩
  · exact Ensures.pure ⟨rfl, hout⟩

/-- A busy slot. -/
def Fsm.Busy (heap : Heap (Node K V)) (queries : List K) (answer : K → Option V)
    (depth : K → Nat) (i m : Nat) (s : Fsm) : Prop :=
  s.queryIdx = i ∧ ((s.state = .init ∧ i < queries.length ∧ m = stepsOf queries depth i + 1) ∨
    (s.state = .search ∧ OnWay heap queries answer i m s.node))

theorem fsmMachine_sound (h : Descents heap root depth answer) (results : List V) (dflt : V) :
    (fsmMachine heap root queries).Sound (queries.map answer)
      (Out.fresh queries.length results dflt) (Fsm.Busy heap queries answer depth)
      (fun i => stepsOf queries depth i + 1) where
  blank := rfl
  idle s out hs := by
    have hs : s.state = .done := by simpa [fsmMachine] using hs
    simp only [fsmMachine, hs]
    exact returns_pure.mpr rfl
  load s i _ hi := ⟨rfl, Or.inl ⟨rfl, by rwa [List.length_map] at hi, rfl⟩⟩
  busy i m s hs := by
    obtain ⟨hi, ⟨hstate, _⟩ | ⟨hstate, _⟩⟩ := hs
    · exact ⟨by simp [fsmMachine, hstate], hi⟩
    · exact ⟨by simp [fsmMachine, hstate], hi⟩
  step i m s hi hs done := by
    obtain ⟨rfl, ⟨hstate, hlt, rfl⟩ | ⟨hstate, key, hkey, hdescent⟩⟩ := hs
    · -- INIT: the slot goes to the root
      simp only [fsmMachine, hstate]
      exact Ensures.pure ⟨_, Nat.lt_succ_self _, rfl, Or.inr ⟨rfl, onWay_root h hi⟩⟩
    · -- SEARCH
      rw [List.length_map] at hi
      simp only [fsmMachine, hstate]
      refine (returns_read.mpr hkey).seq ?_
      refine (hdescent.searchStep (fits_fresh answer queries results dflt)
        (getElem?_answers _ hkey) (found_fresh results dflt hi) done).bind ?_
      rintro (c | out) hout
      · obtain ⟨m', hlt, hbelow⟩ := hout
        exact Ensures.pure ⟨m', hlt, rfl, Or.inr ⟨rfl, key, hkey, hbelow⟩⟩
      · exact Ensures.pure ⟨rfl, hout⟩

/-! ## What they return -/

theorem NoPrefetch.batchLookup_returns (h : Descents heap root depth answer) (hroot : root ≠ 0) :
    (NoPrefetch.batchLookup heap root queries results dflt).Returns
      (lookupAll answer queries results dflt) := by
  rw [NoPrefetch.batchLookup]
  by_cases hq : queries = []
  · subst hq
    rw [onTree_nil, returns_pure]
    exact lookupAll_nil.symm
  · rw [onTree_body hroot hq]
    apply serial_queries
    intro i key hkey done
    have hi := (List.getElem?_eq_some_iff.mp hkey).1
    refine (returns_read.mpr hkey).bind ?_
    exact (h key).settles (fits_fresh answer queries results dflt) (getElem?_answers _ hkey)
      (found_fresh results dflt hi) done

theorem GroupPrefetch.run_delivers (h : Descents heap root depth answer) (hroot : root ≠ 0)
    (hN : 1 ≤ N) : Delivers queries.length (lookupAll answer queries results dflt)
      (GroupPrefetch.run N heap root queries results dflt) := by
  apply delivers_onTree hroot
  have hsound : (taskMachine heap root queries).Sound (queries.map answer) _ _ _ :=
    taskMachine_sound h results dflt
  exact hsound.toSlots.runGroups hN hsound.sweep_spends

theorem SoftwarePipelinedPrefetch.run_delivers (h : Descents heap root depth answer)
    (hroot : root ≠ 0) (hN : 1 ≤ N) :
    Delivers queries.length (lookupAll answer queries results dflt)
      (SoftwarePipelinedPrefetch.run N heap root queries results dflt) :=
  delivers_onTree hroot ((taskMachine_sound h results dflt).run_queries hN)

theorem VectorizedSearch.run_delivers (h : Descents heap root depth answer) (hroot : root ≠ 0)
    (hN : 1 ≤ N) : Delivers queries.length (lookupAll answer queries results dflt)
      (VectorizedSearch.run N heap root queries results dflt) := by
  apply delivers_onTree hroot
  have hslots : (laneMachine heap root queries).Slots (queries.map answer) _ _ :=
    laneMachine_slots h
  exact hslots.runGroups hN (hslots.preparedSweep_spends fun i m s => lane_predict)

theorem AMACSearch.run_delivers (h : Descents heap root depth answer) (hroot : root ≠ 0)
    (hN : 1 ≤ N) : Delivers queries.length (lookupAll answer queries results dflt)
      (AMACSearch.run N heap root queries results dflt) :=
  delivers_onTree hroot ((fsmMachine_sound h results dflt).run_queries hN)

/-- All strategies end with this output. -/
structure AllDeliver (N : Nat) (heap : Heap (Node K V)) (root : Nat) (queries : List K)
    (results : List V) (dflt : V) (out : Out V) : Prop where
  /-- One query after the other. -/
  noPrefetch : (NoPrefetch.batchLookup heap root queries results dflt).Returns out
  /-- In groups. -/
  groupPrefetch : Delivers queries.length out
    (GroupPrefetch.run N heap root queries results dflt)
  /-- With tasks. -/
  softwarePipelinedPrefetch : Delivers queries.length out
    (SoftwarePipelinedPrefetch.run N heap root queries results dflt)
  /-- In groups, with the predictions first. -/
  vectorizedSearch : Delivers queries.length out
    (VectorizedSearch.run N heap root queries results dflt)
  /-- With state machines. -/
  amacSearch : Delivers queries.length out (AMACSearch.run N heap root queries results dflt)

theorem Descents.allDeliver (h : Descents heap root depth answer) (hroot : root ≠ 0)
    (hN : 1 ≤ N) (queries : List K) (results : List V) (dflt : V) :
    AllDeliver N heap root queries results dflt (lookupAll answer queries results dflt) where
  noPrefetch := NoPrefetch.batchLookup_returns h hroot
  groupPrefetch := GroupPrefetch.run_delivers h hroot hN
  softwarePipelinedPrefetch := SoftwarePipelinedPrefetch.run_delivers h hroot hN
  vectorizedSearch := VectorizedSearch.run_delivers h hroot hN
  amacSearch := AMACSearch.run_delivers h hroot hN

/-- What `exists` and `at` say of the queries, as the output of a batch. -/
structure Reports (heap : Heap (Node K V)) (root : Nat) (queries : List K) (results : List V)
    (dflt : V) (out : Out V) : Prop where
  /-- A flag for each query. -/
  length_found : out.found.length = queries.length
  /-- A value for each query. -/
  length_results : out.results.length = queries.length
  /-- The flags. -/
  flag : ∀ (i : Nat) (key : K), queries[i]? = some key →
    ∃ b, (existsKey heap root key).Returns b ∧ out.found[i]? = some b
  /-- The values of the queries that are found. -/
  value : ∀ (i : Nat) (key : K), queries[i]? = some key → out.found[i]? = some true →
    ∃ v, (∀ skipExistenceCheck, (atKey heap root key skipExistenceCheck).Returns v) ∧
      out.results[i]? = some v
  /-- The others keep what was there. -/
  kept : ∀ i : Nat, i < queries.length → out.found[i]? = some false →
    out.results[i]? = some (results[i]?.getD dflt)

theorem Descents.reports (h : Descents heap root depth answer) (queries : List K)
    (results : List V) (dflt : V) :
    Reports heap root queries results dflt (lookupAll answer queries results dflt) where
  length_found := length_found_lookupAll
  length_results := length_results_lookupAll
  flag i key hq := ⟨_, (h key).existsKey, found_lookupAll hq⟩
  value i key hq hfound := by
    rw [found_lookupAll hq, Option.some.injEq] at hfound
    obtain ⟨v, hv⟩ := Option.isSome_iff_exists.mp hfound
    exact ⟨v, (h key).atKey hv, by rw [results_lookupAll hq, hv, Option.getD_some]⟩
  kept i hi hfound := by
    have hq := List.getElem?_eq_getElem hi
    rw [found_lookupAll hq, Option.some.injEq] at hfound
    rw [results_lookupAll hq, Option.isSome_eq_false_iff.mp hfound |> Option.isNone_iff_eq_none.mp]
    rfl

end Schedules

/-- On every finite tree all strategies end with what `exists` and `at` report, whatever the depths
at which the queries end. -/
theorem lookups_agree {heap : Heap (Node K V)} {root : Nat} (h : Tree heap root) {N : Nat}
    (hN : 1 ≤ N) (queries : List K) (results : List V) (dflt : V) :
    ∃ out, Reports heap root queries results dflt out ∧
      AllDeliver N heap root queries results dflt out := by
  choose depth answer hdescents using h.descent
  have hdescents : Descents heap root depth answer := hdescents
  exact ⟨_, hdescents.reports queries results dflt,
    hdescents.allDeliver h.ne_zero hN queries results dflt⟩

/-- A node of three items, of which the first one is a child. -/
def sampleRoot : Node Nat Nat where
  isTwo := false
  buildSize := 3
  size := 3
  fixed := false
  numInserts := 0
  numInsertToData := 0
  numItems := 3
  predictPos key := clampPos 3 (key / 10)
  items := [.child 2, .data 15 150, .raw]
  noneBitmap := [0b100#8]
  childBitmap := [0b001#8]
  predictPos_lt key := clampPos_lt (by decide)

/-- The child, for two keys. -/
def sampleTwo : Node Nat Nat where
  isTwo := true
  buildSize := 2
  size := 2
  fixed := false
  numInserts := 0
  numInsertToData := 0
  numItems := 8
  predictPos key := clampPos 8 (key - 1)
  items := [.raw, .raw, .data 3 30, .raw, .raw, .data 6 60, .raw, .raw]
  noneBitmap := [0b11011011#8]
  childBitmap := [0#8]
  predictPos_lt key := clampPos_lt (by decide)

/-- Both of them in memory. -/
def sampleHeap : Heap (Node Nat Nat) := [.free, .object sampleRoot, .object sampleTwo]

theorem sampleHeap_tree : Tree sampleHeap 1 := by
  have htwo : Tree sampleHeap 2 := by
    refine .node (n := sampleTwo) (by decide) rfl (by decide) ?_
    intro pos c hpos hentry
    have hnone : ∀ pos < 8, sampleTwo.childBitmap.bit pos = some false := by decide
    cases (hnone pos hpos).symm.trans (Node.entry_child_iff.mp hentry).2.1
  refine .node (n := sampleRoot) (by decide) rfl (by decide) ?_
  intro pos c hpos hentry
  obtain ⟨_, hchild, hitem⟩ := Node.entry_child_iff.mp hentry
  have honly : ∀ pos < 3, sampleRoot.childBitmap.bit pos = some true → pos = 0 := by decide
  obtain rfl := honly pos hpos hchild
  cases hitem
  exact htwo

theorem lookups_agree_sample :
    ∃ out, Reports sampleHeap 1 [3, 15, 7, 99] [5] 0 out ∧
      AllDeliver 2 sampleHeap 1 [3, 15, 7, 99] [5] 0 out :=
  lookups_agree sampleHeap_tree (by decide) [3, 15, 7, 99] [5] 0

end LIPP
