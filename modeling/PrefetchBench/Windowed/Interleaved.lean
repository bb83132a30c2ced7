import PrefetchBench.Batch.Pipeline
import PrefetchBench.Batch.Pool
import PrefetchBench.Windowed.Lockstep

/-!
# Interleaved lookups in a window

The two strategies over window indexes that keep queries at different points of their search in
flight: `StaticSPP`, a pipeline with a stage for each halving round, and `AMACSearch`, a pool whose
slots first look for their window and then take a fixed number of rounds.

A slot of the pipeline has no flag: it holds a query when `lo <= hi`.  That is why its theorem
asks for windows that are not reversed (`staticSPP_ensures`); a reversed one would be a query that
is lost, and the loop would wait for it forever.
-/

namespace Windowed

open Prog KeyArray Batch

variable {K V R : Type} [LinearOrder K]

/-! ## StaticSPP -/

/-- `Task`; one with `lo > hi` is inactive. -/
structure Task where
  /-- The index of the query. -/
  queryIdx : Nat
  /-- The lower end of the window. -/
  lo : Nat
  /-- The upper end of the window. -/
  hi : Nat

/-- The slots of the pipeline. -/
def taskConveyor (window : K → Prog Window) (t : Columns K V) (queries : List K) :
    Conveyor Task V where
  blank := ⟨0, 1, 0⟩
  active c := decide (c.lo ≤ c.hi)
  queryIdx c := c.queryIdx
  clear c := { c with lo := 1, hi := 0 }
  load _ q := do
    let key ← read queries q
    let w ← window key
    pure ⟨q, w.lo, w.hi⟩
  advance c := do
    let key ← read queries c.queryIdx
    let w ← guardedRound t.keys key ⟨c.lo, c.hi⟩
    pure { c with lo := w.lo, hi := w.hi }
  retire c out := do
    let key ← read queries c.queryIdx
    t.collect key c.lo c.queryIdx out

/-- The pipeline of `StaticSPP::batch_lookup` after the early exits, with `H` rounds. -/
def staticSPP (N H : Nat) (window : K → Prog Window) (t : Columns K V) (queries : List K)
    (out : Out V) : Prog (PipeState Task V) :=
  (taskConveyor window t queries).run H 0 N queries.length out

section StaticSPP

variable {t : Columns K V} {queries : List K} {results : List V} {dflt : V} {N H : Nat}
  {window : K → Prog Window} {win : K → Window}

/-- Slot `c` holds query `q` after `p` rounds. -/
def TaskPhase (t : Columns K V) (win : K → Window) (queries : List K) (q p : Nat) (c : Task) :
    Prop :=
  c.queryIdx = q ∧ c.lo ≤ c.hi ∧
    ∃ key, queries[q]? = some key ∧ AfterRounds t win p key ⟨c.lo, c.hi⟩

theorem taskConveyor_sound (ht : t.keys.length = t.values.length)
    (hwindow : ∀ q ∈ queries, (window q).Returns (win q) ∧ (win q).hi ≤ t.keys.length)
    (hordered : ∀ q ∈ queries, (win q).lo ≤ (win q).hi) :
    (taskConveyor window t queries).Sound
      (queries.map fun q => t.valueAt ((Window.halve (probe t.keys q))^[H] (win q)).lo q)
      (Out.fresh queries.length results dflt) (TaskPhase t win queries) H where
  blank := rfl
  clear _ := rfl
  phase q p c h := ⟨decide_eq_true h.2.1, h.1⟩
  load c q hq := by
    obtain ⟨key, hkey⟩ := exists_getElem? queries (i := q) (by rwa [List.length_map] at hq)
    have hmem := List.mem_of_getElem? hkey
    exact (returns_read.mpr hkey).seq ((hwindow key hmem).1.seq
      (Ensures.pure ⟨rfl, hordered key hmem, key, hkey, rfl⟩))
  advance c q p _ _ h := by
    obtain ⟨rfl, hle, key, hkey, hafter⟩ := h
    have hhi := hafter.hi_le (hwindow key (List.mem_of_getElem? hkey)).2
    refine (returns_read.mpr hkey).seq ((guardedRound_returns hhi).seq (Ensures.pure ?_))
    exact ⟨rfl, Window.halve_ordered (w := ⟨c.lo, c.hi⟩) hle, key, hkey, hafter.halve⟩
  retire c q _ h := by
    obtain ⟨rfl, _, key, hkey, hafter⟩ := h
    intro done
    refine (returns_read.mpr hkey).bind (Columns.collect_settles ht (fits_fresh _ _ _ _) ?_ done)
    rw [getElem?_answers _ hkey, ← hafter]

/-- The pipeline answers each query with the slot its rounds end at; every query enters once,
takes `H` rounds and leaves once. -/
theorem staticSPP_ensures (ht : t.keys.length = t.values.length) (hN : 1 ≤ N)
    (hwindow : ∀ q ∈ queries, (window q).Returns (win q) ∧ (win q).hi ≤ t.keys.length)
    (hordered : ∀ q ∈ queries, (win q).lo ≤ (win q).hi) :
    (staticSPP N H window t queries (Out.fresh queries.length results dflt)).Ensures fun st =>
      st.out = lookupAll
        (fun q => t.valueAt ((Window.halve (probe t.keys q))^[H] (win q)).lo q) queries results
          dflt ∧
      ∀ q, q < queries.length →
        st.log.count (.dispatch q) = 1 ∧ st.log.count (.advance q) = H ∧
          st.log.count (.finish q) = 1 :=
  Conveyor.Sound.run_queries (taskConveyor_sound ht hwindow hordered) (Nat.zero_le 1) hN

end StaticSPP

/-! ## AMACSearch -/

/-- `state_t` -/
inductive FsmState where
  /-- The slot has a query and nothing else yet. -/
  | init
  /-- The slot looks for its window: `RANGE_SEARCH`, or `INTERNAL_SEARCH`. -/
  | rangeSearch
  /-- The slot searches in its window. -/
  | bsearch
  /-- The slot has no query. -/
  | done
deriving DecidableEq

/-- `fsm_shared_t`, over the local state of the search for the window. -/
structure FsmShared (R : Type) where
  /-- The state of the slot. -/
  state : FsmState
  /-- The index of the query. -/
  i : Nat
  /-- The lower end of the window. -/
  lo : Nat
  /-- The upper end of the window. -/
  hi : Nat
  /-- The number of rounds taken. -/
  step : Nat
  /-- How far the search for the window is. -/
  range : R

/-- The search for a window, step by step. -/
structure RangeSearch (K R : Type) where
  /-- Where it starts. -/
  start : R
  /-- A step: further on, or the window. -/
  step : R → K → Prog (R ⊕ Window)

/-- The slots of the pool. -/
def fsmMachine (rs : RangeSearch K R) (blank : FsmShared R)
    (load : FsmShared R → Nat → FsmShared R) (steps : Nat) (t : Columns K V) (queries : List K) :
    Machine (FsmShared R) V where
  blank := blank
  isDone s := s.state == .done
  index s := s.i
  init := load
  step s out :=
    match s.state with
    | .init => pure (.stay { s with range := rs.start, state := .rangeSearch })
    | .rangeSearch => do
        let key ← read queries s.i
        match (← rs.step s.range key) with
        | .inl r => pure (.stay { s with range := r })
        | .inr w => pure (.stay { s with lo := w.lo, hi := w.hi, step := 0, state := .bsearch })
    | .bsearch => do
        let key ← read queries s.i
        if s.step < steps then do
          let w ← guardedRound t.keys key ⟨s.lo, s.hi⟩
          pure (.stay { s with lo := w.lo, hi := w.hi, step := s.step + 1 })
        else do
          let out ← t.collect key s.lo s.i out
          pure (.finish { s with state := .done } out)
    | .done => pure (.stay s)

/-- The pool of `AMACSearch::batch_lookup` after the early exit. -/
def amacSearch (N : Nat) (rs : RangeSearch K R) (blank : FsmShared R)
    (load : FsmShared R → Nat → FsmShared R) (steps : Nat) (t : Columns K V) (queries : List K)
    (out : Out V) : Prog (PoolState (FsmShared R) V) :=
  (fsmMachine rs blank load steps t queries).run N queries.length out

section AMACSearch

variable {t : Columns K V} {queries : List K} {results : List V} {dflt : V} {N steps bound : Nat}
  {win : K → Window} {rs : RangeSearch K R} {Toward : K → Nat → R → Prop} {blank : FsmShared R}
  {load : FsmShared R → Nat → FsmShared R}

/-- A step of the search for a window leads nearer to it or finds it. -/
def RangeSearch.Leads (Toward : K → Nat → R → Prop) (win : K → Window) (key : K) (d : Nat) :
    R ⊕ Window → Prop
  | .inl r => ∃ d' < d, Toward key d' r
  | .inr w => w = win key

/-- The search finds the window of every query.  `Toward key d r`: fewer than `d` steps are left
after the next one. -/
structure RangeSearch.Sound (rs : RangeSearch K R) (queries : List K) (win : K → Window)
    (Toward : K → Nat → R → Prop) (bound : Nat) : Prop where
  /-- The start. -/
  start : ∀ key ∈ queries, Toward key bound rs.start
  /-- The steps. -/
  step : ∀ key ∈ queries, ∀ d r, Toward key d r →
    (rs.step r key).Ensures (RangeSearch.Leads Toward win key d)

/-- A slot that searches for query `i`, with fewer than `m` steps to go after the next one. -/
def FsmBusy (t : Columns K V) (win : K → Window) (Toward : K → Nat → R → Prop)
    (steps bound : Nat) (queries : List K) (i m : Nat) (s : FsmShared R) : Prop :=
  s.i = i ∧ ∃ key, queries[i]? = some key ∧
    ((s.state = .init ∧ m = bound + steps + 2) ∨
      (s.state = .rangeSearch ∧ ∃ d, Toward key d s.range ∧ m = d + steps + 1) ∨
      (s.state = .bsearch ∧ s.step ≤ steps ∧ m = steps - s.step ∧
        AfterRounds t win s.step key ⟨s.lo, s.hi⟩))

theorem fsmMachine_sound (ht : t.keys.length = t.values.length)
    (hrs : rs.Sound queries win Toward bound) (hblank : blank.state = .done)
    (hload : ∀ s i, (load s i).state = .init ∧ (load s i).i = i)
    (hwin : ∀ q ∈ queries, (win q).hi ≤ t.keys.length) :
    (fsmMachine rs blank load steps t queries).Sound
      (queries.map fun q => t.valueAt ((Window.halve (probe t.keys q))^[steps] (win q)).lo q)
      (Out.fresh queries.length results dflt) (FsmBusy t win Toward steps bound queries)
      (fun _ => bound + steps + 2) where
  blank := by simp [fsmMachine, hblank]
  idle s out h := by
    have hs : s.state = .done := by simpa [fsmMachine] using h
    simp only [fsmMachine, hs]
    exact returns_pure.mpr rfl
  load s i _ hi := by
    obtain ⟨key, hkey⟩ := exists_getElem? queries (i := i) (by rwa [List.length_map] at hi)
    exact ⟨(hload s i).2, key, hkey, Or.inl ⟨(hload s i).1, rfl⟩⟩
  busy i m s h := by
    obtain ⟨hi, _, _, h⟩ := h
    refine ⟨?_, hi⟩
    rcases h with ⟨hs, _⟩ | ⟨hs, _⟩ | ⟨hs, _⟩ <;> simp [fsmMachine, hs]
  step i m s _ h done := by
    obtain ⟨rfl, key, hkey, h⟩ := h
    have hmem := List.mem_of_getElem? hkey
    rcases h with ⟨hs, rfl⟩ | ⟨hs, d, htoward, rfl⟩ | ⟨hs, hle, rfl, hafter⟩
    · -- INIT
      simp only [fsmMachine, hs]
      exact Ensures.pure ⟨bound + steps + 1, Nat.lt_succ_self _, rfl, key, hkey,
        Or.inr (Or.inl ⟨rfl, bound, hrs.start key hmem, rfl⟩)⟩
    · -- RANGE_SEARCH: further on, or the window
      simp only [fsmMachine, hs]
      refine (returns_read.mpr hkey).seq (Ensures.bind (hrs.step key hmem d _ htoward) ?_)
      intro r hr
      cases r with
      | inl r =>
          obtain ⟨d', hlt, hr⟩ := hr
          exact Ensures.pure ⟨d' + steps + 1, by omega, rfl, key, hkey,
            Or.inr (Or.inl ⟨rfl, d', hr, rfl⟩)⟩
      | inr w =>
          exact Ensures.pure ⟨steps, by omega, rfl, key, hkey,
            Or.inr (Or.inr ⟨rfl, Nat.zero_le _, rfl, hr⟩)⟩
    · -- BSEARCH: a round, or the answer
      simp only [fsmMachine, hs]
      refine (returns_read.mpr hkey).seq ?_
      split
      · rename_i hlt
        have hhi := hafter.hi_le (hwin key hmem)
        exact (guardedRound_returns hhi).seq (Ensures.pure ⟨steps - (s.step + 1), by omega, rfl,
          key, hkey, Or.inr (Or.inr ⟨rfl, hlt, rfl, hafter.halve⟩)⟩)
      · rename_i hge
        have heq : s.step = steps := by omega
        rw [heq] at hafter
        refine Returns.seq (Columns.collect_settles ht (fits_fresh _ _ _ _) ?_ done)
          (Ensures.pure ⟨rfl, rfl⟩)
        rw [getElem?_answers _ hkey, ← hafter]

variable (blank load) in
/-- The pool answers each query with the slot its rounds end at. -/
theorem amacSearch_ensures (ht : t.keys.length = t.values.length) (hN : 1 ≤ N)
    (hrs : rs.Sound queries win Toward bound) (hblank : blank.state = .done)
    (hload : ∀ s i, (load s i).state = .init ∧ (load s i).i = i)
    (hwin : ∀ q ∈ queries, (win q).hi ≤ t.keys.length) :
    (amacSearch N rs blank load steps t queries (Out.fresh queries.length results dflt)).Ensures
      fun st => st.out = lookupAll
        (fun q => t.valueAt ((Window.halve (probe t.keys q))^[steps] (win q)).lo q) queries
          results dflt ∧ HandledOnce queries.length st.log :=
  (fsmMachine_sound ht hrs hblank hload hwin).run_queries hN

end AMACSearch

end Windowed
