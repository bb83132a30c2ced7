import PrefetchBench.Search.Steps
import PrefetchBench.Batch.Lanes

/-!
# Lookups in a window of an array

RadixSpline and PGM keep the sorted keys in one array and the values in another, next to an index
that maps every key to a window of these arrays.  Their strategies differ in how they schedule the
binary searches of a batch in the windows, not in the search: this file has the serial schedule
and the ones in groups, for an arbitrary index.

What a strategy returns for a query is the value at the slot its search ends at, if that slot
holds the query (`Columns.valueAt`).  The slot is `Window.bisect` where the code runs the rounds
until the window is empty, and the lower end after a fixed number of rounds elsewhere.
-/

namespace Windowed

open Prog KeyArray Batch

variable {K V : Type}

/-- The arrays of a wrapper. -/
structure Columns (K V : Type) where
  /-- The keys. -/
  keys : List K
  /-- The values, in the order of the keys. -/
  values : List V

/-- `if (data_size == 0 || queries.empty()) return found;` -/
def onData (t : Columns K V) (queries : List K) (results : List V) (dflt : V)
    (body : Out V → Prog (Out V)) : Prog (Out V) :=
  if t.keys.isEmpty || queries.isEmpty then pure (Out.fresh queries.length results dflt)
  else body (Out.fresh queries.length results dflt)

/-- The windows of a group, one after the other. -/
def windowsOf (window : K → Prog Window) (queries : List K) (start size : Nat) :
    Prog (List Window) :=
  lanes (fun i _ => do
    let key ← read queries (start + i)
    window key) (List.replicate size ())

/-- `for (step = 0; step < steps; ++step)` one round in every lane. -/
def fixedRounds (steps : Nat) (round : Nat → Window → Prog Window) (ws : List Window) :
    Prog (List Window) :=
  forRange steps (fun _ => lanes round) ws

/-- `while (active)` one round in every lane whose window is not empty; `active` is set again if
there is such a lane. -/
def converge (round : Nat → Window → Prog Window) (ws : List Window) : Prog (List Window) := do
  let r ← whileM (fun r => pure r.1) (fun r => do
    let ws ← lanes (fun i w => do
      let w' ← round i w
      pure (decide (w.lo < w.hi), w')) r.2
    pure (ws.any Prod.fst, ws.map Prod.snd)) (true, ws)
  pure r.2

/-- Lane `i` of the group from `start` on has a window that fits its query. -/
def LaneWindow (queries : List K) (start : Nat) (P : K → Window → Prop) (i : Nat) (w : Window) :
    Prop :=
  ∃ key, queries[start + i]? = some key ∧ P key w

theorem windowsOf_ensures {queries : List K} {start size : Nat} {window : K → Prog Window}
    {win : K → Window} (hsize : start + size ≤ queries.length)
    (hwindow : ∀ q ∈ queries, (window q).Returns (win q)) :
    (windowsOf window queries start size).Ensures
      (AllLanes size (LaneWindow queries start fun key w => w = win key)) := by
  refine Ensures.lanes (P := fun _ _ => True) (allLanes_replicate fun _ _ => trivial)
    fun i _ hi _ => ?_
  obtain ⟨key, hkey⟩ := exists_getElem? queries (i := start + i) (by omega)
  refine (returns_read.mpr hkey).seq ?_
  exact (hwindow key (List.mem_of_getElem? hkey)).ensures ⟨key, hkey, rfl⟩

variable [LinearOrder K]

/-- The value in a slot that holds the key. -/
def Columns.valueAt (t : Columns K V) (slot : Nat) (key : K) : Option V :=
  if t.keys[slot]? = some key then t.values[slot]? else none

/-- `if (slot < n && key == keys[slot])` the value of the slot is the result. -/
def Columns.collect (t : Columns K V) (key : K) (slot idx : Nat) (out : Out V) :
    Prog (Out V) :=
  if slot < t.keys.length then do
    let x ← read t.keys slot
    if key = x then do
      let v ← read t.values slot
      out.hit idx v
    else out.miss idx
  else out.miss idx

/-- `NoPrefetch::batch_lookup` -/
def serialLookup (window : K → Prog Window) (t : Columns K V) (queries : List K)
    (results : List V) (dflt : V) : Prog (Out V) :=
  forRange queries.length (fun i out => do
    let key ← read queries i
    let w ← window key
    let slot ← search t.keys key w
    t.collect key slot i out) (Out.fresh queries.length results dflt)

/-- A group: the windows, the rounds over all lanes, and the results. -/
def groupBatch (windows : Nat → Nat → Prog (List Window))
    (rounds : (Nat → Window → Prog Window) → List Window → Prog (List Window))
    (round : List K → K → Window → Prog Window) (t : Columns K V) (queries : List K)
    (start size : Nat) (out : Out V) : Prog (Out V) := do
  let ws ← windows start size
  let ws ← rounds (fun i w => do
    let key ← read queries (start + i)
    round t.keys key w) ws
  forRange size (fun i out => do
    let w ← read ws i
    let key ← read queries (start + i)
    t.collect key w.lo (start + i) out) out

/-- The schedule in groups of `N`. -/
def groupLoop (N : Nat) (windows : Nat → Nat → Prog (List Window))
    (rounds : (Nat → Window → Prog Window) → List Window → Prog (List Window))
    (round : List K → K → Window → Prog Window) (t : Columns K V) (queries : List K) :
    Out V → Prog (Out V) :=
  groups N queries.length (groupBatch windows rounds round t queries)

section Collect

variable {t : Columns K V} {queries : List K} {results : List V} {dflt : V}
  {answer : K → Option V}

theorem Columns.valueAt_of_nil (h : t.keys = []) (slot : Nat) (key : K) :
    t.valueAt slot key = none := by
  simp [Columns.valueAt, h]

theorem Columns.valueAt_of_notMem {key : K} (h : key ∉ t.keys) (slot : Nat) :
    t.valueAt slot key = none := by
  rw [Columns.valueAt, if_neg]
  intro hc
  exact h (List.mem_of_getElem? hc)

/-- A strategy answers the batch if its loops do so on data. -/
theorem onData_returns {body : Out V → Prog (Out V)} {slot : K → Nat}
    (hbody : t.keys ≠ [] → queries ≠ [] → (body (Out.fresh queries.length results dflt)).Returns
      (lookupAll (fun q => t.valueAt (slot q) q) queries results dflt)) :
    (onData t queries results dflt body).Returns
      (lookupAll (fun q => t.valueAt (slot q) q) queries results dflt) := by
  rw [onData]
  split
  · rename_i h
    refine returns_pure.mpr (fresh_eq_lookupAll fun q hq => ?_)
    rcases Bool.or_eq_true_iff.mp h with hk | hq'
    · exact Columns.valueAt_of_nil (List.isEmpty_iff.mp hk) _ _
    · rw [List.isEmpty_iff.mp hq'] at hq
      cases hq
  · rename_i h
    rw [Bool.not_eq_true, Bool.or_eq_false_iff, List.isEmpty_eq_false_iff,
      List.isEmpty_eq_false_iff] at h
    exact hbody h.1 h.2

/-- Checking the slot answers the query with the value in it. -/
theorem Columns.collect_settles {ans : List (Option V)} {prior : Out V}
    (ht : t.keys.length = t.values.length) (hp : Fits ans prior) {key : K} {slot i : Nat}
    (hi : ans[i]? = some (t.valueAt slot key)) :
    Settles ans prior i (t.collect key slot i) := by
  intro done
  rw [Columns.collect]
  by_cases hlt : slot < t.keys.length
  · obtain ⟨x, hx⟩ := exists_getElem? t.keys hlt
    have hv : t.values[slot]? = some t.values[slot] := List.getElem?_eq_getElem (by omega)
    rw [if_pos hlt]
    refine (returns_read.mpr hx).bind ?_
    by_cases hk : key = x
    · rw [if_pos hk]
      rw [Columns.valueAt, if_pos (hx.trans (congrArg some hk.symm)), hv] at hi
      exact (returns_read.mpr hv).bind (settles_hit hp hi done)
    · rw [if_neg hk]
      rw [Columns.valueAt, if_neg fun hc => hk (Option.some.inj (hc.symm.trans hx))] at hi
      exact settles_miss hp hi done
  · rw [if_neg hlt]
    rw [Columns.valueAt, if_neg fun hc => hlt (List.getElem?_eq_some_iff.mp hc).1] at hi
    exact settles_miss hp hi done

/-- A value in a slot is one that is stored with the key. -/
theorem Columns.mem_of_valueAt {slot : Nat} {key : K} {v : V} (h : t.valueAt slot key = some v) :
    (key, v) ∈ t.keys.zip t.values := by
  rw [Columns.valueAt] at h
  split at h
  · rename_i hkey
    exact List.mem_of_getElem? (List.getElem?_zip_eq_some.mpr ⟨hkey, h⟩)
  · cases h

/-- In a window that has an occurrence of the key, the search ends at an occurrence. -/
theorem Columns.bisect_hits (hs : t.keys.Pairwise (· ≤ ·)) {w : Window}
    (hw : w.hi ≤ t.keys.length) {key : K} {j : Nat} (hj : t.keys[j]? = some key)
    (hlo : w.lo ≤ j) (hhi : j < w.hi) : t.keys[w.bisect (probe t.keys key)]? = some key := by
  have hsorted := sortedTo_of_pairwise hs
  obtain ⟨hbefore, hfrom⟩ := Window.bisect_spec (p := probe t.keys key) (hlo.trans hhi.le)
    fun i i' _ hii' hi' hp => by
      obtain ⟨x, hx⟩ := exists_getElem? t.keys (i := i) (by omega)
      obtain ⟨y, hy⟩ := exists_getElem? t.keys (i := i') (by omega)
      rw [probe_eq_true_iff hx] at hp
      exact (probe_eq_true_iff hy).mpr (hp.trans (hsorted.le hii' (by omega) hx hy))
  have hle : w.bisect (probe t.keys key) ≤ j := by
    by_contra hc
    exact lt_irrefl key ((probe_eq_false_iff hj).mp (hbefore j hlo (not_le.mp hc)))
  obtain ⟨x, hx⟩ := exists_getElem? t.keys (hle.trans_lt (hhi.trans_le hw))
  have hge := (probe_eq_true_iff hx).mp (hfrom _ (Nat.le_refl _) (hle.trans_lt hhi))
  rw [hx, le_antisymm (hsorted.le hle (by omega) hx hj) hge]

end Collect

/-! ## The serial schedule -/

section Serial

variable {t : Columns K V} {queries : List K} {results : List V} {dflt : V}
  {window : K → Prog Window} {win : K → Window}

/-- The serial schedule searches every window to its end. -/
theorem serialLookup_returns (ht : t.keys.length = t.values.length)
    (hwindow : ∀ q ∈ queries, (window q).Returns (win q) ∧ (win q).hi ≤ t.keys.length) :
    (serialLookup window t queries results dflt).Returns
      (lookupAll (fun q => t.valueAt ((win q).bisect (probe t.keys q)) q) queries results
        dflt) := by
  refine serial_queries fun i key hkey done => ?_
  obtain ⟨hw, hhi⟩ := hwindow key (List.mem_of_getElem? hkey)
  refine (returns_read.mpr hkey).bind (hw.bind ((search_returns hhi).bind ?_))
  exact Columns.collect_settles ht (fits_fresh _ _ _ _)
    (getElem?_answers (fun q => t.valueAt ((win q).bisect (probe t.keys q)) q) hkey) done

end Serial

/-! ## Groups -/

section Groups

variable {t : Columns K V} {queries : List K} {results : List V} {dflt : V} {start size N : Nat}
  {window : K → Prog Window} {win : K → Window} {ws : List Window}
  {round : List K → K → Window → Prog Window}

/-- What a lane has after `k` rounds. -/
def AfterRounds (t : Columns K V) (win : K → Window) (k : Nat) (key : K) (w : Window) : Prop :=
  w = (Window.halve (probe t.keys key))^[k] (win key)

/-- The rounds of the strategies halve the window. -/
def Halves (round : List K → K → Window → Prog Window) : Prop :=
  ∀ (keys : List K) (key : K) (w : Window), w.hi ≤ keys.length →
    (round keys key w).Returns (w.halve (probe keys key))

theorem guardedRound_halves : Halves (guardedRound (K := K)) :=
  fun _ _ _ h => guardedRound_returns h

theorem branchlessRound_halves : Halves (branchlessRound (K := K)) :=
  fun _ _ _ h => branchlessRound_returns h

theorem AfterRounds.hi_le {k : Nat} {key : K} {w : Window} (h : AfterRounds t win k key w)
    (hhi : (win key).hi ≤ t.keys.length) : w.hi ≤ t.keys.length := by
  rw [h]
  exact (Window.iterate_halve_hi_le _ _ k).trans hhi

theorem AfterRounds.halve {k : Nat} {key : K} {w : Window} (h : AfterRounds t win k key w) :
    AfterRounds t win (k + 1) key (w.halve (probe t.keys key)) := by
  rw [AfterRounds, Function.iterate_succ_apply', ← h]

/-- One more round in a lane. -/
theorem AfterRounds.next (hround : Halves round)
    (hwin : ∀ q ∈ queries, (win q).hi ≤ t.keys.length) {i k : Nat} {w : Window}
    (h : LaneWindow queries start (AfterRounds t win k) i w) :
    (do
      let key ← read queries (start + i)
      round t.keys key w).Ensures
      (LaneWindow queries start (AfterRounds t win (k + 1)) i) := by
  obtain ⟨key, hkey, hafter⟩ := h
  have hhi := hafter.hi_le (hwin key (List.mem_of_getElem? hkey))
  exact (returns_read.mpr hkey).seq ((hround t.keys key _ hhi).ensures ⟨key, hkey, hafter.halve⟩)

theorem fixedRounds_ensures (hround : Halves round)
    (hwin : ∀ q ∈ queries, (win q).hi ≤ t.keys.length) (steps : Nat)
    (hws : AllLanes size (LaneWindow queries start fun key w => w = win key) ws) :
    (fixedRounds steps (fun i w => do
      let key ← read queries (start + i)
      round t.keys key w) ws).Ensures
      (AllLanes size (LaneWindow queries start (AfterRounds t win steps))) :=
  Ensures.rounds (fun k => LaneWindow queries start (AfterRounds t win k)) hws
    fun _ _ _ _ h => AfterRounds.next hround hwin h

/-- After as many rounds as the array's length has bits, every window is empty. -/
theorem AfterRounds.empty {k : Nat} {key : K} {w : Window} (h : AfterRounds t win k key w)
    (hhi : (win key).hi ≤ t.keys.length) (hk : t.keys.length.size ≤ k) : w.hi ≤ w.lo := by
  have hsize : t.keys.length < 2 ^ k :=
    (Nat.lt_size_self _).trans_le (Nat.pow_le_pow_right (Nat.zero_lt_two) hk)
  have hwidth := Window.iterate_halve_width (probe t.keys key) (win key) k
    ((Nat.sub_le _ _).trans_lt (hhi.trans_lt hsize))
  rw [h]
  exact Nat.le_of_sub_eq_zero hwidth

/-- One round of all lanes under `active`: the flag of a lane says whether its window was not
empty, and the round changes nothing where it was. -/
theorem convergeRound_ensures (hround : Halves round)
    (hwin : ∀ q ∈ queries, (win q).hi ≤ t.keys.length) {k : Nat}
    (hws : AllLanes size (LaneWindow queries start (AfterRounds t win k)) ws) :
    (lanes (fun i w => do
      let w' ← (do
        let key ← read queries (start + i)
        round t.keys key w)
      pure (decide (w.lo < w.hi), w')) ws).Ensures
      (AllLanes size fun i (r : Bool × Window) =>
        LaneWindow queries start (AfterRounds t win (k + 1)) i r.2 ∧
          (r.1 = true → k < t.keys.length.size) ∧ (r.1 = false → r.2.hi ≤ r.2.lo)) := by
  refine Ensures.lanes hws fun i w _ hw => ?_
  obtain ⟨w', hw', hnext⟩ := AfterRounds.next hround hwin hw
  refine hw'.seq (Ensures.pure ⟨hnext, fun hlt => ?_, fun hge => ?_⟩)
  · obtain ⟨key, hkey, hafter⟩ := hw
    by_contra hc
    have hempty := hafter.empty (hwin key (List.mem_of_getElem? hkey)) (not_lt.mp hc)
    exact absurd (of_decide_eq_true hlt) (not_lt.mpr hempty)
  · obtain ⟨key, hkey, rfl⟩ := hw
    obtain ⟨key', hkey', rfl⟩ := hnext
    cases hkey.symm.trans hkey'
    have hge' := of_decide_eq_false hge
    rw [Function.iterate_succ_apply', Window.halve_of_not_lt hge']
    exact not_lt.mp hge'

/-- The loop over `active` ends, since the windows are empty after as many rounds as the array's
length has bits; then every window has been searched to its end. -/
theorem converge_ensures (hround : Halves round)
    (hwin : ∀ q ∈ queries, (win q).hi ≤ t.keys.length)
    (hws : AllLanes size (LaneWindow queries start fun key w => w = win key) ws) :
    (converge (fun i w => do
      let key ← read queries (start + i)
      round t.keys key w) ws).Ensures
      (AllLanes size (LaneWindow queries start fun key w =>
        w.lo = (win key).bisect (probe t.keys key))) := by
  rw [converge]
  refine Ensures.bind (P := fun r => AllLanes size (LaneWindow queries start fun key w =>
    w.lo = (win key).bisect (probe t.keys key)) r.2) ?_ fun r hr => Ensures.pure hr
  -- `k` rounds are done; the flag is still set only while `k` is within the bound
  refine Ensures.whileM (fun m (r : Bool × List Window) => ∃ k,
    AllLanes size (LaneWindow queries start (AfterRounds t win k)) r.2 ∧
      m = t.keys.length.size + 1 - k ∧ (r.1 = true → k ≤ t.keys.length.size) ∧
      (r.1 = false → ∀ w ∈ r.2, w.hi ≤ w.lo)) ?_ _ (true, ws)
    ⟨0, hws, rfl, fun _ => Nat.zero_le _, fun h => by cases h⟩
  rintro m ⟨active, ws⟩ ⟨k, hk, rfl, hactive, hdone⟩
  refine ⟨_, returns_pure.mpr rfl, fun hrun => ?_, fun hstop => ?_⟩
  · refine Ensures.bind (convergeRound_ensures hround hwin hk) fun rs hrs =>
      Ensures.pure ⟨t.keys.length.size + 1 - (k + 1), ?_, k + 1, ?_, rfl, fun hany => ?_,
        fun hall w hmem => ?_⟩
    · have := hactive hrun
      omega
    · exact hrs.map fun i r _ hr => hr.1
    · obtain ⟨r, hmem, hr⟩ := List.any_eq_true.mp hany
      obtain ⟨i, hi⟩ := List.getElem?_of_mem hmem
      exact (hrs.lane i r hi).2.1 hr
    · obtain ⟨r, hr, rfl⟩ := List.mem_map.mp hmem
      obtain ⟨i, hi⟩ := List.getElem?_of_mem hr
      exact (hrs.lane i r hi).2.2 (by simpa using List.any_eq_false.mp hall r hr)
  · refine ⟨hk.length_eq, fun i w hw => ?_⟩
    obtain ⟨key, hkey, hkw⟩ := hk.lane i w hw
    have hge := hdone hstop w (List.mem_of_getElem? hw)
    have hlo : Window.bisect (probe t.keys key) w = w.lo :=
      Window.bisect_of_not_lt (not_lt.mpr hge)
    have hbisect : Window.bisect (probe t.keys key) w = (win key).bisect (probe t.keys key) := by
      rw [hkw, Window.bisect_iterate]
    exact ⟨key, hkey, hlo.symm.trans hbisect⟩

/-- A strategy in groups answers each query with the slot its rounds end at. -/
theorem groupLoop_returns (ht : t.keys.length = t.values.length) (hN : 1 ≤ N)
    {windows : Nat → Nat → Prog (List Window)} {slot : K → Nat}
    {rounds : (Nat → Window → Prog Window) → List Window → Prog (List Window)}
    (hwindows : ∀ start size, start + size ≤ queries.length →
      (windows start size).Ensures
        (AllLanes size (LaneWindow queries start fun key w => w = win key)))
    (hrounds : ∀ start size ws,
      AllLanes size (LaneWindow queries start fun key w => w = win key) ws →
      (rounds (fun i w => do
        let key ← read queries (start + i)
        round t.keys key w) ws).Ensures
        (AllLanes size (LaneWindow queries start fun key w => w.lo = slot key))) :
    (groupLoop N windows rounds round t queries (Out.fresh queries.length results dflt)).Returns
      (lookupAll (fun q => t.valueAt (slot q) q) queries results dflt) := by
  refine groups_queries hN fun start size _ hsize => ?_
  rw [groupBatch]
  refine Ensures.bind (hwindows start size hsize) fun ws hws => ?_
  refine Ensures.bind (hrounds start size ws hws) fun ws' hws' => ?_
  refine collect_ensures rfl fun i hi done => ?_
  obtain ⟨w, hw, key, hkey, hlo⟩ := hws'.get hi
  refine (returns_read.mpr hw).bind ((returns_read.mpr hkey).bind ?_)
  rw [hlo]
  exact Columns.collect_settles ht (fits_fresh _ _ _ _)
    (getElem?_answers (fun q => t.valueAt (slot q) q) hkey) done

/-- Over a fixed number of rounds. -/
theorem groupLoop_fixed (ht : t.keys.length = t.values.length) (hN : 1 ≤ N)
    (hround : Halves round) {windows : Nat → Nat → Prog (List Window)}
    (hwin : ∀ q ∈ queries, (win q).hi ≤ t.keys.length)
    (hwindows : ∀ start size, start + size ≤ queries.length →
      (windows start size).Ensures
        (AllLanes size (LaneWindow queries start fun key w => w = win key))) (steps : Nat) :
    (groupLoop N windows (fixedRounds steps) round t queries
      (Out.fresh queries.length results dflt)).Returns
      (lookupAll (fun q => t.valueAt ((Window.halve (probe t.keys q))^[steps] (win q)).lo q)
        queries results dflt) :=
  groupLoop_returns ht hN hwindows fun _ _ _ hws =>
    (fixedRounds_ensures hround hwin steps hws).mono fun _ h =>
      h.mono fun _ _ _ ⟨key, hkey, hw⟩ => ⟨key, hkey, congrArg Window.lo hw⟩

/-- Over rounds until every window is empty. -/
theorem groupLoop_converge (ht : t.keys.length = t.values.length) (hN : 1 ≤ N)
    (hround : Halves round) {windows : Nat → Nat → Prog (List Window)}
    (hwin : ∀ q ∈ queries, (win q).hi ≤ t.keys.length)
    (hwindows : ∀ start size, start + size ≤ queries.length →
      (windows start size).Ensures
        (AllLanes size (LaneWindow queries start fun key w => w = win key))) :
    (groupLoop N windows converge round t queries
      (Out.fresh queries.length results dflt)).Returns
      (lookupAll (fun q => t.valueAt ((win q).bisect (probe t.keys q)) q) queries results
        dflt) :=
  groupLoop_returns ht hN hwindows fun _ _ _ hws => converge_ensures hround hwin hws

end Groups

end Windowed
