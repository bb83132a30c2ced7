import PrefetchBench.Batch.Lanes
import PrefetchBench.Batch.Pool

/-!
# Groups that count down

A group gives each of its lanes a query, and goes over the lanes in rounds until none of them has
a query any more: `remaining` starts as the size of the group, and a lane that answers its query
takes one off.  The lanes are slots of a `Machine`, and the next group starts when all of them are
done.

As in a pool, a lane that takes a step lowers the work that is left (`PoolState.work`), and while
`remaining` is positive some lane takes one (`Countdown.Valid.sweep`).
-/

namespace Batch

open Prog

variable {S V : Type}

/-- The state of a group.  The counters of the pool are not read by it. -/
structure Countdown (S V : Type) where
  /-- The lanes, and the output. -/
  state : PoolState S V
  /-- The number of lanes with a query. -/
  remaining : Nat

namespace Machine

variable (M : Machine S V)

/-- Each lane gets its query. -/
def loadGroup (start size : Nat) (st : PoolState S V) : PoolState S V :=
  { st with
    pool := (List.range size).map fun i => M.init M.blank (start + i)
    nextQueryIdx := start + size
    log := st.log ++ (List.range size).map fun i => .dispatch (start + i) }

/-- `if (!active[i]) continue;`, a step, and `--remaining` if the lane is done. -/
def laneTurn (k : Nat) (c : Countdown S V) : Prog (Countdown S V) := do
  let s ← read c.state.pool k
  if M.isDone s then pure c else do
    let st ← M.turn k c.state
    let s' ← read st.pool k
    pure ⟨st, if M.isDone s' then c.remaining - 1 else c.remaining⟩

/-- A round over the lanes. -/
def sweep (size : Nat) (c : Countdown S V) : Prog (Countdown S V) := forRange size M.laneTurn c

/-- A round of two passes: the first prepares the lanes, the second lets them take their steps. -/
def preparedSweep (prepare : S → Prog S) (size : Nat) (c : Countdown S V) :
    Prog (Countdown S V) := do
  let pool ← lanes (fun _ s => if M.isDone s then pure s else prepare s) c.state.pool
  M.sweep size { c with state := { c.state with pool := pool } }

/-- `while (remaining > 0)` a round. -/
def group (round : Nat → Countdown S V → Prog (Countdown S V)) (start size : Nat)
    (st : PoolState S V) : Prog (PoolState S V) := do
  let c ← whileM (fun c => pure (decide (0 < c.remaining))) (round size)
    ⟨M.loadGroup start size st, size⟩
  pure c.state

/-- The queries in groups of `N`. -/
def runGroups (round : Nat → Countdown S V → Prog (Countdown S V)) (N n : Nat) (out : Out V) :
    Prog (PoolState S V) :=
  groups N n (M.group round) ⟨[], 0, 0, out, []⟩

end Machine

/-! ## Loading a group -/

section Load

variable {M : Machine S V} {ans : List (Option V)} {prior : Out V} {Busy : Nat → Nat → S → Prop}
  {W : Nat → Nat}

/-- Taking the queries of a group. -/
theorem Ledger.takeRange {start finished : Nat} {out : Out V} {log : List Event}
    (h : Ledger ans prior [] start finished out log) :
    ∀ size, start + size ≤ ans.length →
      Ledger ans prior ((List.range size).map (start + ·)) (start + size) finished out
        (log ++ (List.range size).map fun i => .dispatch (start + i))
  | 0, _ => by simpa using h
  | size + 1, hsize => by
      have htake := (h.takeRange size (by omega)).take (by omega)
      rw [List.append_assoc] at htake
      have hlog : (List.range (size + 1)).map (fun i => Event.dispatch (start + i)) =
          (List.range size).map (fun i => Event.dispatch (start + i)) ++
            [.dispatch (start + size)] := by
        rw [List.range_succ, List.map_append, List.map_singleton]
      rw [hlog]
      refine htake.perm ?_
      rw [List.range_succ, List.map_append, List.map_singleton]
      exact (List.perm_append_singleton _ _).symm

/-- The roles of the lanes of a fresh group. -/
def freshRoles (W : Nat → Nat) (start size : Nat) : List Role :=
  (List.range size).map fun i => some (start + i, W (start + i))

theorem held_freshRoles (start size : Nat) :
    held (freshRoles W start size) = (List.range size).map (start + ·) := by
  rw [held, freshRoles, List.filterMap_map]
  exact congrFun List.filterMap_eq_map (List.range size)

/-- The group is in order: its pool is, and `remaining` is what is left to be finished. -/
structure Countdown.Valid (M : Machine S V) (ans : List (Option V)) (prior : Out V)
    (Busy : Nat → Nat → S → Prop) (size stop : Nat) (c : Countdown S V) (roles : List Role) :
    Prop where
  /-- The lanes. -/
  state : c.state.Valid M ans prior Busy size roles
  /-- No more queries are taken. -/
  next : c.state.nextQueryIdx = stop
  /-- The counter. -/
  remaining : c.state.allDone + c.remaining = stop

theorem Machine.Slots.loadGroup (hM : M.Slots ans Busy W) {st : PoolState S V} {start size : Nat}
    (hsize : start + size ≤ ans.length)
    (h : Ledger ans prior [] start st.allDone st.out st.log) :
    Countdown.Valid M ans prior Busy size (start + size) ⟨M.loadGroup start size st, size⟩
      (freshRoles W start size) := by
  have hcount := h.count
  rw [List.length_nil] at hcount
  refine ⟨⟨?_, ?_, ?_, ?_, ?_⟩, rfl, ?_⟩
  · rw [Machine.loadGroup, List.length_map, List.length_range]
  · rw [freshRoles, List.length_map, List.length_range]
  · intro k s _ hr
    obtain ⟨i, _, hi⟩ := List.mem_map.mp (List.mem_of_getElem? hr)
    cases hi
  · intro k s i m hs hr
    rw [Machine.loadGroup, List.getElem?_map] at hs
    rw [freshRoles, List.getElem?_map] at hr
    obtain ⟨j, hj, rfl⟩ := Option.map_eq_some_iff.mp hs
    rw [hj] at hr
    cases hr
    have hlt : j < size := List.mem_range.mp (List.mem_of_getElem? hj)
    exact hM.load _ _ hM.blank (by omega)
  · rw [held_freshRoles]
    exact h.takeRange size hsize
  · show st.allDone + size = start + size
    omega

end Load

/-! ## Rounds -/

section Rounds

variable {M : Machine S V} {ans : List (Option V)} {prior : Out V} {Busy : Nat → Nat → S → Prop}
  {W : Nat → Nat} {size stop : Nat} {c : Countdown S V} {roles : List Role}

/-- The work left. -/
def Countdown.work (c : Countdown S V) (W : Nat → Nat) (n : Nat) (roles : List Role) : Nat :=
  c.state.work W n roles

/-- The lanes are ready for their steps. -/
def Countdown.Ready (M : Machine S V) (ans : List (Option V)) (prior : Out V)
    (Busy : Nat → Nat → S → Prop) (c : Countdown S V) (roles : List Role) : Prop :=
  ∀ (k : Nat) (s : S) (i m : Nat), c.state.pool[k]? = some s → roles[k]? = some (some (i, m)) →
    M.Steps ans prior Busy i m s

/-- A lane is passed over, or takes a step and spends some work; the other lanes stay. -/
theorem Countdown.Valid.laneTurn (h : c.Valid M ans prior Busy size stop roles)
    (hM : M.Slots ans Busy W) {k : Nat} (hk : k < size)
    (hstep : ∀ (s : S) (i m : Nat), c.state.pool[k]? = some s → roles[k]? = some (some (i, m)) →
      M.Steps ans prior Busy i m s) :
    (M.laneTurn k c).Ensures fun c' =>
      (c' = c ∧ roles[k]? = some none) ∨
      ∃ u, c'.Valid M ans prior Busy size stop (roles.set k u) ∧
        (∀ j : Nat, j ≠ k → c'.state.pool[j]? = c.state.pool[j]?) ∧
        c'.work W ans.length (roles.set k u) < c.work W ans.length roles := by
  obtain ⟨s, r, hs, hr⟩ := h.state.slot hk
  rw [Machine.laneTurn]
  refine (returns_read.mpr hs).seq ?_
  cases r with
  | none =>
      rw [if_pos (h.state.idle k s hs hr)]
      exact Ensures.pure (Or.inl ⟨rfl, hr⟩)
  | some r =>
      have hbusy := h.state.busy k s r.1 r.2 hs hr
      rw [(hM.busy r.1 r.2 s hbusy).1, if_neg Bool.false_ne_true]
      refine (h.state.turn hM hk hstep).bind ?_
      rintro st' (⟨_, hnone⟩ | ⟨s', u, hpool, hnext, hdone, hvalid, hwork⟩)
      · rw [hr] at hnone
        cases hnone
      · have hs' : st'.pool[k]? = some s' := by
          rw [hpool, List.getElem?_set_self (by rw [h.state.length_eq]; exact hk)]
        refine (returns_read.mpr hs').seq (Ensures.pure (Or.inr ⟨u, ⟨hvalid, ?_, ?_⟩, ?_, hwork⟩))
        · exact hnext.trans h.next
        · have hcount := hvalid.ledger.count
          have hrem := h.remaining
          have hnext' := h.next
          show st'.allDone + (if M.isDone s' then c.remaining - 1 else c.remaining) = stop
          split at hdone
          · rw [if_pos ‹_›]
            omega
          · rw [if_neg ‹_›]
            omega
        · intro j hj
          show st'.pool[j]? = _
          rw [hpool, List.getElem?_set_ne hj.symm]

/-- A round over lanes that are ready spends some work while a query is unanswered. -/
theorem Countdown.Valid.sweep (h : c.Valid M ans prior Busy size stop roles)
    (hM : M.Slots ans Busy W) (hready : c.Ready M ans prior Busy roles) (hpos : 0 < c.remaining) :
    (M.sweep size c).Ensures fun c' => ∃ roles', c'.Valid M ans prior Busy size stop roles' ∧
      c'.work W ans.length roles' < c.work W ans.length roles := by
  -- the lanes from `k` on are as they were; some work is spent, or the lanes before `k` were done
  refine (Ensures.forRange (fun k (c' : Countdown S V) => ∃ roles',
    c'.Valid M ans prior Busy size stop roles' ∧
      (∀ j : Nat, k ≤ j → c'.state.pool[j]? = c.state.pool[j]? ∧ roles'[j]? = roles[j]?) ∧
      ((c' = c ∧ roles' = roles ∧ ∀ j < k, roles[j]? = some none) ∨
        c'.work W ans.length roles' < c.work W ans.length roles))
    ⟨roles, h, fun _ _ => ⟨rfl, rfl⟩, Or.inl ⟨rfl, rfl, by simp⟩⟩ ?_).mono ?_
  · rintro k hk c' ⟨roles', h', hsame, hor⟩
    obtain ⟨hpool, hroles⟩ := hsame k (Nat.le_refl k)
    refine (h'.laneTurn hM hk fun s i m hs hr => ?_).mono ?_
    · exact hready k s i m (hpool ▸ hs) (hroles ▸ hr)
    · rintro c'' (⟨rfl, hnone⟩ | ⟨u, h'', hother, hwork⟩)
      · refine ⟨roles', h', fun j hj => hsame j (by omega), ?_⟩
        rcases hor with ⟨rfl, rfl, hidle⟩ | hlt
        · refine Or.inl ⟨rfl, rfl, fun j hj => ?_⟩
          rcases Nat.lt_succ_iff_lt_or_eq.mp hj with hj | rfl
          · exact hidle j hj
          · exact hnone
        · exact Or.inr hlt
      · refine ⟨_, h'', fun j hj => ?_, Or.inr ?_⟩
        · rw [hother j (by omega), List.getElem?_set_ne (by omega)]
          exact hsame j (by omega)
        · rcases hor with ⟨rfl, rfl, _⟩ | hlt
          · exact hwork
          · exact hwork.trans hlt
  · rintro c' ⟨roles', h', _, ⟨rfl, rfl, hidle⟩ | hlt⟩
    · have hrem := h.remaining
      have hnext := h.next
      obtain ⟨k, hk, hbusy⟩ := h.state.exists_busy (by omega)
      exact absurd (hidle k hk) hbusy
    · exact ⟨roles', h', hlt⟩

/-- A round spends some work. -/
def Machine.Spends (M : Machine S V) (ans : List (Option V)) (prior : Out V)
    (Busy : Nat → Nat → S → Prop) (W : Nat → Nat)
    (round : Nat → Countdown S V → Prog (Countdown S V)) : Prop :=
  ∀ {size stop : Nat} {c : Countdown S V} {roles : List Role},
    c.Valid M ans prior Busy size stop roles → 0 < c.remaining →
      (round size c).Ensures fun c' => ∃ roles', c'.Valid M ans prior Busy size stop roles' ∧
        c'.work W ans.length roles' < c.work W ans.length roles

theorem Machine.Sound.sweep_spends (hM : M.Sound ans prior Busy W) :
    M.Spends ans prior Busy W M.sweep := by
  intro size stop c roles h hpos
  exact h.sweep hM.toSlots (fun k s i m hs hr =>
    hM.step i m s (h.state.ans_lt hr) (h.state.busy k s i m hs hr)) hpos

/-- A lane after the first pass: what it was, and ready for its step. -/
def Machine.Prepared (M : Machine S V) (ans : List (Option V)) (prior : Out V)
    (Busy : Nat → Nat → S → Prop) (roles : List Role) (k : Nat) (s : S) : Prop :=
  (roles[k]? = some none → M.isDone s = true) ∧ ∀ i m, roles[k]? = some (some (i, m)) →
    Busy i m s ∧ M.Steps ans prior Busy i m s

/-- A round in two passes needs steps only of lanes that are prepared. -/
theorem Machine.Slots.preparedSweep_spends (hM : M.Slots ans Busy W) {prepare : S → Prog S}
    (hprepare : ∀ i m s, i < ans.length → Busy i m s → (prepare s).Ensures fun s' =>
      Busy i m s' ∧ M.Steps ans prior Busy i m s') :
    M.Spends ans prior Busy W (M.preparedSweep prepare) := by
  intro size stop c roles h hpos
  have hlanes : (lanes (fun _ s => if M.isDone s then pure s else prepare s) c.state.pool).Ensures
      (AllLanes size (M.Prepared ans prior Busy roles)) := by
    refine Ensures.lanes (P := fun k s => c.state.pool[k]? = some s)
      ⟨h.state.length_eq, fun _ _ hs => hs⟩ fun k s hk hs => ?_
    obtain ⟨_, r, _, hr⟩ := h.state.slot hk
    cases r with
    | none =>
        have hdone := h.state.idle k s hs hr
        rw [if_pos hdone]
        refine Ensures.pure ⟨fun _ => hdone, fun i m hc => ?_⟩
        rw [hr] at hc
        cases hc
    | some r =>
        have hbusy := h.state.busy k s r.1 r.2 hs hr
        rw [(hM.busy r.1 r.2 s hbusy).1, if_neg Bool.false_ne_true]
        refine (hprepare r.1 r.2 s (h.state.ans_lt hr) hbusy).mono fun s' hs' => ⟨fun hc => ?_, ?_⟩
        · rw [hr] at hc
          cases hc
        · intro i m hc
          rw [hr] at hc
          cases hc
          exact hs'
  refine hlanes.bind fun pool hpool => ?_
  have h' : Countdown.Valid M ans prior Busy size stop
      { c with state := { c.state with pool := pool } } roles :=
    ⟨⟨hpool.length_eq, h.state.roles_eq, fun k s hs hr => (hpool.lane k s hs).1 hr,
      fun k s i m hs hr => ((hpool.lane k s hs).2 i m hr).1, h.state.ledger⟩, h.next, h.remaining⟩
  exact h'.sweep hM (fun k s i m hs hr => ((hpool.lane k s hs).2 i m hr).2) hpos

/-- A group ends with all of its queries answered. -/
theorem Machine.Slots.group (hM : M.Slots ans Busy W)
    {round : Nat → Countdown S V → Prog (Countdown S V)} (hround : M.Spends ans prior Busy W round)
    {st : PoolState S V} {start : Nat} (hsize : start + size ≤ ans.length)
    (h : Ledger ans prior [] start st.allDone st.out st.log) :
    (M.group round start size st).Ensures fun st' =>
      Ledger ans prior [] (start + size) st'.allDone st'.out st'.log := by
  rw [Machine.group]
  refine Ensures.bind (P := fun c => Ledger ans prior [] (start + size) c.state.allDone c.state.out
    c.state.log) ?_ fun c hc => Ensures.pure hc
  refine Ensures.whileM (fun m (c : Countdown S V) => ∃ roles,
    c.Valid M ans prior Busy size (start + size) roles ∧ m = c.work W ans.length roles) ?_ _ _
    ⟨_, hM.loadGroup hsize h, rfl⟩
  rintro m c ⟨roles, hc, rfl⟩
  refine ⟨_, returns_pure.mpr rfl, fun hpos => ?_, fun hzero => ?_⟩
  · refine (hround hc (of_decide_eq_true hpos)).mono ?_
    rintro c' ⟨roles', hc', hwork⟩
    exact ⟨_, hwork, roles', hc', rfl⟩
  · have hzero := of_decide_eq_false hzero
    have hcount := hc.state.ledger.count
    have hrem := hc.remaining
    have hnext := hc.next
    have hheld : held roles = [] := List.eq_nil_of_length_eq_zero (by omega)
    have hledger := hc.state.ledger
    rwa [hheld, hnext] at hledger

/-- The groups end with every query answered, dispatched once and finished once. -/
theorem Machine.Slots.runGroups {Q : Type} {answer : Q → Option V} {queries : List Q} {N : Nat}
    (hM : M.Slots (queries.map answer) Busy W) (hN : 1 ≤ N)
    {round : Nat → Countdown S V → Prog (Countdown S V)}
    (hround : M.Spends (queries.map answer) prior Busy W round) :
    (M.runGroups round N queries.length prior).Ensures fun st =>
      st.out = answered (queries.map answer) prior ∧ HandledOnce queries.length st.log := by
  have hgroups := Ensures.groups (n := queries.length) hN
    (fun i (st : PoolState S V) => Ledger (queries.map answer) prior [] i st.allDone st.out st.log)
    (s := ⟨[], 0, 0, prior, []⟩) Ledger.empty fun start size st _ hsize h =>
      hM.group hround (by rwa [List.length_map]) h
  refine hgroups.mono fun st h => ?_
  have hcount := h.count
  have hfinal := h.final (by rw [List.length_map]; simpa using hcount.ge)
  rwa [List.length_map] at hfinal

end Rounds

end Batch
