import PrefetchBench.Batch.Ledger

/-!
# Pools of state machines

A pool keeps `N` slots, each with the local state of one query's search.  A visit of a slot first
refills it when it is done and queries are left, and then lets it take one step (`visit`).  The
code visits the slots either in sweeps over the whole pool (`run`) or one at a time with a counter
that wraps (`runRoundRobin`).

What the slots do is a `Machine`; what has to be known of it is `Machine.Sound`: a busy slot holds
a query and has a bound on the steps it may still take, and its last step answers the query.  Each
visit that changes anything lowers the total number of steps left (`PoolState.work`), and as
long as a query is unfinished some slot of a sweep changes (`Sound.sweep`).  So both schedules
end, with every query answered, dispatched once and finished once.
-/

namespace Batch

open Prog

variable {S V : Type}

/-- The outcome of one step of a slot. -/
inductive Turn (S V : Type) where
  /-- The slot goes on. -/
  | stay (s : S) : Turn S V
  /-- The slot has answered its query. -/
  | finish (s : S) (out : Out V) : Turn S V

/-- The slot goes on in a state with the one property, or has answered with the other. -/
def Turn.Satisfies (stays : S → Prop) (finishes : S → Out V → Prop) : Turn S V → Prop
  | .stay s => stays s
  | .finish s out => finishes s out

/-- The local behaviour of a slot. -/
structure Machine (S V : Type) where
  /-- A slot that has not been used yet. -/
  blank : S
  /-- `state == DONE`. -/
  isDone : S → Bool
  /-- The index of the query in the slot. -/
  index : S → Nat
  /-- Put a query into the slot. -/
  init : S → Nat → S
  /-- One step of the slot. -/
  step : S → Out V → Prog (Turn S V)

/-- The state of a pool. -/
structure PoolState (S V : Type) where
  /-- The slots. -/
  pool : List S
  /-- The next query to be dispatched. -/
  nextQueryIdx : Nat
  /-- The number of finished queries. -/
  allDone : Nat
  /-- The output so far. -/
  out : Out V
  /-- The history: not read by the code. -/
  log : List Event

namespace Machine

variable (M : Machine S V)

/-- `if (state == DONE && next_query_idx < n)` the slot gets the next query. -/
def refill (n k : Nat) (st : PoolState S V) : Prog (PoolState S V) := do
  let s ← read st.pool k
  if M.isDone s && decide (st.nextQueryIdx < n) then do
    let pool ← write st.pool k (M.init s st.nextQueryIdx)
    pure { st with
      pool := pool
      nextQueryIdx := st.nextQueryIdx + 1
      log := st.log ++ [.dispatch st.nextQueryIdx] }
  else pure st

/-- The slot takes a step. -/
def turn (k : Nat) (st : PoolState S V) : Prog (PoolState S V) := do
  let s ← read st.pool k
  match (← M.step s st.out) with
  | .stay s' => do
      let pool ← write st.pool k s'
      pure { st with pool := pool }
  | .finish s' out => do
      let pool ← write st.pool k s'
      pure { st with
        pool := pool
        allDone := st.allDone + 1
        out := out
        log := st.log ++ [.finish (M.index s)] }

/-- One visit of a slot. -/
def visit (n k : Nat) (st : PoolState S V) : Prog (PoolState S V) := do
  let st ← M.refill n k st
  M.turn k st

/-- The loop that gives each of the `N` slots its first query, or none. -/
def fill (N n : Nat) (out : Out V) : Prog (PoolState S V) :=
  forRange N (M.refill n) ⟨List.replicate N M.blank, 0, 0, out, []⟩

/-- `while (all_done < n) for (k = 0; k < N; ++k)` visit slot `k`. -/
def run (N n : Nat) (out : Out V) : Prog (PoolState S V) := do
  let st ← M.fill N n out
  whileM (fun st => pure (decide (st.allDone < n))) (forRange N (M.visit n)) st

/-- `while (all_done < n)` visit slot `k` and go on to the next, from the last to the first. -/
def runRoundRobin (N n : Nat) (out : Out V) : Prog (PoolState S V) := do
  let st ← M.fill N n out
  let r ← whileM (fun r => pure (decide (r.2.allDone < n))) (fun r => do
    let k := if r.1 = N then 0 else r.1
    let st ← M.visit n k r.2
    pure (k + 1, st)) (0, st)
  pure r.2

/-- What has to be known of the slots between their steps.  `Busy i m s`: slot `s` searches for
query `i` and takes fewer than `m` further steps after the next one. -/
structure Slots (ans : List (Option V)) (Busy : Nat → Nat → S → Prop) (W : Nat → Nat) : Prop where
  /-- An unused slot is done. -/
  blank : M.isDone M.blank = true
  /-- A done slot does nothing. -/
  idle : ∀ s out, M.isDone s = true → (M.step s out).Returns (.stay s)
  /-- A loaded slot is busy with its query. -/
  load : ∀ s i, M.isDone s = true → i < ans.length → Busy i (W i) (M.init s i)
  /-- A busy slot is not done, and knows its query. -/
  busy : ∀ i m s, Busy i m s → M.isDone s = false ∧ M.index s = i

/-- A step of a slot that is busy with query `i` leads nearer to its end, or answers the query. -/
def Steps (ans : List (Option V)) (prior : Out V) (Busy : Nat → Nat → S → Prop) (i m : Nat)
    (s : S) : Prop :=
  ∀ done : Nat → Prop, (M.step s (progress ans prior done)).Ensures (Turn.Satisfies
    (fun s' => ∃ m' < m, Busy i m' s')
    (fun s' out => M.isDone s' = true ∧ out = progress ans prior fun j => j = i ∨ done j))

/-- What has to be known of the slots. -/
structure Sound (ans : List (Option V)) (prior : Out V) (Busy : Nat → Nat → S → Prop)
    (W : Nat → Nat) : Prop extends M.Slots ans Busy W where
  /-- The steps of busy slots. -/
  step : ∀ i m s, i < ans.length → Busy i m s → M.Steps ans prior Busy i m s

end Machine

/-! ## Roles of slots -/

/-- What a slot is doing: nothing, or a query and the bound on its steps. -/
abbrev Role := Option (Nat × Nat)

/-- The queries held by the slots. -/
def held (roles : List Role) : List Nat := roles.filterMap (Option.map Prod.fst)

/-- The work left in a slot. -/
def Role.cost : Role → Nat
  | none => 0
  | some (_, m) => m + 1

/-- The work left in the slots. -/
def cost (roles : List Role) : Nat := (roles.map Role.cost).sum

/-- The work of the queries that have not been dispatched. -/
def pending (W : Nat → Nat) (next n : Nat) : Nat :=
  ((List.range' next (n - next)).map fun i => W i + 2).sum

theorem pending_succ (W : Nat → Nat) {next n : Nat} (h : next < n) :
    pending W next n = W next + 2 + pending W (next + 1) n := by
  rw [pending, pending, show n - next = n - (next + 1) + 1 by omega, List.range'_succ,
    List.map_cons, List.sum_cons]

theorem held_set {roles : List Role} {k : Nat} {r : Role} (hk : roles[k]? = some r) (r' : Role) :
    ∃ rest, roles.Perm (r :: rest) ∧ (roles.set k r').Perm (r' :: rest) := by
  obtain ⟨hlt, rfl⟩ := List.getElem?_eq_some_iff.mp hk
  exact ⟨roles.eraseIdx k, (List.getElem_cons_eraseIdx_perm hlt).symm,
    List.set_perm_cons_eraseIdx hlt r'⟩

theorem held_perm {roles roles' : List Role} (h : roles.Perm roles') :
    (held roles).Perm (held roles') := h.filterMap _

theorem cost_perm {roles roles' : List Role} (h : roles.Perm roles') :
    cost roles = cost roles' := (h.map Role.cost).sum_eq

@[simp] theorem cost_cons (r : Role) (roles : List Role) :
    cost (r :: roles) = r.cost + cost roles := by simp [cost]

/-- The pool is in order: every slot plays its role and the books are right. -/
structure PoolState.Valid (M : Machine S V) (ans : List (Option V)) (prior : Out V)
    (Busy : Nat → Nat → S → Prop) (N : Nat) (st : PoolState S V) (roles : List Role) : Prop where
  /-- The size of the pool. -/
  length_eq : st.pool.length = N
  /-- Every slot has a role. -/
  roles_eq : roles.length = N
  /-- A slot without a query is done. -/
  idle : ∀ (k : Nat) (s : S), st.pool[k]? = some s → roles[k]? = some none → M.isDone s = true
  /-- A slot with a query is busy with it. -/
  busy : ∀ (k : Nat) (s : S) (i m : Nat), st.pool[k]? = some s →
    roles[k]? = some (some (i, m)) → Busy i m s
  /-- The books. -/
  ledger : Ledger ans prior (held roles) st.nextQueryIdx st.allDone st.out st.log

/-- The work left. -/
def PoolState.work (st : PoolState S V) (W : Nat → Nat) (n : Nat) (roles : List Role) : Nat :=
  cost roles + pending W st.nextQueryIdx n

/-! ## Visits -/

section Sound

variable {M : Machine S V} {ans : List (Option V)} {prior : Out V} {Busy : Nat → Nat → S → Prop}
  {W : Nat → Nat} {N : Nat} {st : PoolState S V} {roles : List Role}

theorem PoolState.Valid.slot (h : st.Valid M ans prior Busy N roles) {k : Nat} (hk : k < N) :
    ∃ s r, st.pool[k]? = some s ∧ roles[k]? = some r :=
  ⟨_, _, List.getElem?_eq_getElem (by rw [h.length_eq]; exact hk),
    List.getElem?_eq_getElem (by rw [h.roles_eq]; exact hk)⟩

theorem PoolState.Valid.ans_lt (h : st.Valid M ans prior Busy N roles) {k i m : Nat}
    (hr : roles[k]? = some (some (i, m))) : i < ans.length :=
  (h.ledger.lt_next i (List.mem_filterMap.mpr ⟨_, List.mem_of_getElem? hr, rfl⟩)).trans_le
    h.ledger.next_le

/-- A pool stays in order when one slot changes together with its role and the books. -/
theorem PoolState.Valid.update (h : st.Valid M ans prior Busy N roles) {k : Nat} {s' : S}
    {u : Role} {st' : PoolState S V} (hpool : st'.pool = st.pool.set k s')
    (hidle : u = none → M.isDone s' = true)
    (hbusy : ∀ i m, u = some (i, m) → Busy i m s')
    (hledger : Ledger ans prior (held (roles.set k u)) st'.nextQueryIdx st'.allDone st'.out
      st'.log) :
    st'.Valid M ans prior Busy N (roles.set k u) where
  length_eq := by rw [hpool, List.length_set]; exact h.length_eq
  roles_eq := by rw [List.length_set]; exact h.roles_eq
  idle j s hs hr := by
    rw [hpool] at hs
    rcases eq_or_ne k j with rfl | hj
    · rw [List.getElem?_set_self'] at hs hr
      obtain ⟨_, _, rfl⟩ := Option.map_eq_some_iff.mp hs
      obtain ⟨_, _, hr⟩ := Option.map_eq_some_iff.mp hr
      exact hidle hr
    · rw [List.getElem?_set_ne hj] at hs hr
      exact h.idle j s hs hr
  busy j s i m hs hr := by
    rw [hpool] at hs
    rcases eq_or_ne k j with rfl | hj
    · rw [List.getElem?_set_self'] at hs hr
      obtain ⟨_, _, rfl⟩ := Option.map_eq_some_iff.mp hs
      obtain ⟨_, _, hr⟩ := Option.map_eq_some_iff.mp hr
      exact hbusy i m hr
    · rw [List.getElem?_set_ne hj] at hs hr
      exact h.busy j s i m hs hr
  ledger := hledger

/-- A refill either changes nothing, or dispatches the next query and spends some work. -/
theorem Machine.Sound.refill (hM : M.Sound ans prior Busy W)
    (h : st.Valid M ans prior Busy N roles) {k : Nat} (hk : k < N) :
    (M.refill ans.length k st).Ensures fun st' =>
      (st' = st ∧ (roles[k]? = some none → st.nextQueryIdx = ans.length)) ∨
      ∃ roles', st'.Valid M ans prior Busy N roles' ∧
        st'.work W ans.length roles' < st.work W ans.length roles := by
  obtain ⟨s, r, hs, hr⟩ := h.slot hk
  have hlt : k < st.pool.length := by rw [h.length_eq]; exact hk
  rw [Machine.refill]
  refine (returns_read.mpr hs).seq ?_
  have hle := h.ledger.next_le
  cases r with
  | none =>
      have hd := h.idle k s hs hr
      by_cases hn : st.nextQueryIdx < ans.length
      · rw [if_pos (by simp [hd, hn])]
        refine (returns_write.mpr ⟨hlt, rfl⟩).seq (Ensures.pure (Or.inr ?_))
        obtain ⟨rest, h1, h2⟩ := held_set hr (some (st.nextQueryIdx, W st.nextQueryIdx))
        refine ⟨_, h.update (u := some (st.nextQueryIdx, W st.nextQueryIdx)) rfl (by simp) ?_ ?_,
          ?_⟩
        · rintro i m ⟨⟩
          exact hM.load s _ hd hn
        · refine ((h.ledger.perm (held_perm h1)).take hn).perm ?_
          exact (held_perm h2).symm
        · simp only [PoolState.work, cost_perm h1, cost_perm h2, cost_cons, Role.cost]
          rw [pending_succ W hn]
          omega
      · rw [if_neg (by simp [hn])]
        exact Ensures.pure (Or.inl ⟨rfl, fun _ => by omega⟩)
  | some r =>
      rw [if_neg (by simp [(hM.busy r.1 r.2 s (h.busy k s r.1 r.2 hs hr)).1])]
      exact Ensures.pure (Or.inl ⟨rfl, fun hc => by rw [hr] at hc; simp at hc⟩)

/-- A step either finds the slot idle and changes nothing, or spends some work; it counts the query
as finished if the slot is done afterwards. -/
theorem PoolState.Valid.turn (h : st.Valid M ans prior Busy N roles) (hM : M.Slots ans Busy W)
    {k : Nat} (hk : k < N)
    (hstep : ∀ (s : S) (i m : Nat), st.pool[k]? = some s → roles[k]? = some (some (i, m)) →
      M.Steps ans prior Busy i m s) :
    (M.turn k st).Ensures fun st' =>
      (st' = st ∧ roles[k]? = some none) ∨
      ∃ s' u, st'.pool = st.pool.set k s' ∧ st'.nextQueryIdx = st.nextQueryIdx ∧
        st'.allDone = st.allDone + (if M.isDone s' then 1 else 0) ∧
        st'.Valid M ans prior Busy N (roles.set k u) ∧
        st'.work W ans.length (roles.set k u) < st.work W ans.length roles := by
  obtain ⟨s, r, hs, hr⟩ := h.slot hk
  have hlt : k < st.pool.length := by rw [h.length_eq]; exact hk
  rw [Machine.turn]
  refine (returns_read.mpr hs).seq ?_
  cases r with
  | none =>
      refine (hM.idle s st.out (h.idle k s hs hr)).seq ?_
      refine (returns_write.mpr ⟨hlt, rfl⟩).seq (Ensures.pure (Or.inl ⟨?_, hr⟩))
      obtain ⟨_, rfl⟩ := List.getElem?_eq_some_iff.mp hs
      rw [List.set_getElem_self]
  | some r =>
      obtain ⟨i, m⟩ := r
      have hb := h.busy k s i m hs hr
      have hstep := hstep s i m hs hr fun j => j < st.nextQueryIdx ∧ j ∉ held roles
      rw [← h.ledger.out_eq] at hstep
      refine Ensures.bind hstep ?_
      rintro (s' | ⟨s', out⟩) ht
      · obtain ⟨m', hm', hb'⟩ := ht
        refine (returns_write.mpr ⟨hlt, rfl⟩).seq (Ensures.pure (Or.inr ?_))
        obtain ⟨rest, h1, h2⟩ := held_set hr (some (i, m'))
        refine ⟨s', some (i, m'), rfl, rfl, by rw [(hM.busy i m' s' hb').1]; rfl,
          h.update rfl (by simp) ?_ ?_, ?_⟩
        · rintro i m ⟨⟩
          exact hb'
        · exact h.ledger.perm ((held_perm h1).trans (held_perm h2).symm)
        · simp only [PoolState.work, cost_perm h1, cost_perm h2, cost_cons, Role.cost]
          omega
      · obtain ⟨hd, hout⟩ := ht
        refine (returns_write.mpr ⟨hlt, rfl⟩).seq (Ensures.pure (Or.inr ?_))
        obtain ⟨rest, h1, h2⟩ := held_set hr none
        refine ⟨s', none, rfl, rfl, by rw [hd]; rfl,
          h.update rfl (fun _ => hd) (by simp) ?_, ?_⟩
        · rw [(hM.busy i m s hb).2]
          refine (((h.ledger.perm (held_perm h1)).put ?_).perm (held_perm h2).symm)
          refine hout.trans (congrArg (progress ans prior) (funext fun j => propext ?_))
          rw [(held_perm h1).mem_iff]
          rfl
        · simp only [PoolState.work, cost_perm h1, cost_perm h2, cost_cons, Role.cost]
          omega

theorem Machine.Sound.turn (hM : M.Sound ans prior Busy W)
    (h : st.Valid M ans prior Busy N roles) {k : Nat} (hk : k < N) :
    (M.turn k st).Ensures fun st' =>
      (st' = st ∧ roles[k]? = some none) ∨
      ∃ roles', st'.Valid M ans prior Busy N roles' ∧
        st'.work W ans.length roles' < st.work W ans.length roles := by
  refine (h.turn hM.toSlots hk fun s i m hs hr =>
    hM.step i m s (h.ans_lt hr) (h.busy k s i m hs hr)).mono ?_
  rintro st' (hidle | ⟨s', u, _, _, _, hvalid, hwork⟩)
  · exact Or.inl hidle
  · exact Or.inr ⟨_, hvalid, hwork⟩

/-- A visit leaves an idle slot of an exhausted batch alone, and spends some work otherwise. -/
theorem Machine.Sound.visit (hM : M.Sound ans prior Busy W)
    (h : st.Valid M ans prior Busy N roles) {k : Nat} (hk : k < N) :
    (M.visit ans.length k st).Ensures fun st' =>
      (st' = st ∧ roles[k]? = some none ∧ st.nextQueryIdx = ans.length) ∨
      ∃ roles', st'.Valid M ans prior Busy N roles' ∧
        st'.work W ans.length roles' < st.work W ans.length roles := by
  rw [Machine.visit]
  refine Ensures.bind (hM.refill h hk) ?_
  rintro st₁ (⟨rfl, hn⟩ | ⟨roles₁, h₁, hlt₁⟩)
  · refine (hM.turn h hk).mono ?_
    rintro st₂ (⟨rfl, hr⟩ | h₂)
    · exact Or.inl ⟨rfl, hr, hn hr⟩
    · exact Or.inr h₂
  · refine (hM.turn h₁ hk).mono ?_
    rintro st₂ (⟨rfl, _⟩ | ⟨roles₂, h₂, hlt₂⟩)
    · exact Or.inr ⟨roles₁, h₁, hlt₁⟩
    · exact Or.inr ⟨roles₂, h₂, hlt₂.trans hlt₁⟩

/-- The pool before it is filled. -/
theorem Machine.Sound.unused (hM : M.Sound ans prior Busy W) :
    (⟨List.replicate N M.blank, 0, 0, prior, []⟩ : PoolState S V).Valid M ans prior Busy N
      (List.replicate N none) := by
  refine ⟨List.length_replicate, List.length_replicate, ?_, ?_, ?_⟩
  · intro k s hs _
    rw [List.eq_of_mem_replicate (List.mem_of_getElem? hs)]
    exact hM.blank
  · intro k s i m _ hr
    cases List.eq_of_mem_replicate (List.mem_of_getElem? hr)
  · have hnil : held (List.replicate N none) = [] := by simp [held]
    rw [hnil]
    exact Ledger.empty

theorem Machine.Sound.fill (hM : M.Sound ans prior Busy W) :
    (M.fill N ans.length prior).Ensures fun st =>
      ∃ roles, st.Valid M ans prior Busy N roles := by
  refine Ensures.forRange
    (fun _ (st : PoolState S V) => ∃ roles, st.Valid M ans prior Busy N roles)
    ⟨_, hM.unused⟩ fun k hk st hst => ?_
  obtain ⟨roles, h⟩ := hst
  refine (hM.refill h hk).mono ?_
  rintro st' (⟨rfl, _⟩ | ⟨roles', h', _⟩)
  · exact ⟨roles, h⟩
  · exact ⟨roles', h'⟩

/-- While a dispatched query is unfinished, a slot is busy. -/
theorem PoolState.Valid.exists_busy (h : st.Valid M ans prior Busy N roles)
    (hlt : st.allDone < st.nextQueryIdx) : ∃ k < N, roles[k]? ≠ some none := by
  have hcount := h.ledger.count
  have hpos : 0 < (held roles).length := by omega
  obtain ⟨i, hi⟩ := List.exists_mem_of_length_pos hpos
  obtain ⟨r, hr, hri⟩ := List.mem_filterMap.mp hi
  obtain ⟨k, hk, rfl⟩ := List.getElem_of_mem hr
  refine ⟨k, by rw [← h.roles_eq]; exact hk, ?_⟩
  rw [List.getElem?_eq_getElem hk]
  intro hc
  rw [Option.some.inj hc] at hri
  cases hri

/-! ## The two schedules -/

/-- A sweep spends some work as long as a query is unfinished. -/
theorem Machine.Sound.sweep (hM : M.Sound ans prior Busy W)
    (hN : 1 ≤ N) (h : st.Valid M ans prior Busy N roles) (hlt : st.allDone < ans.length) :
    (forRange N (M.visit ans.length) st).Ensures fun st' =>
      ∃ roles', st'.Valid M ans prior Busy N roles' ∧
        st'.work W ans.length roles' < st.work W ans.length roles := by
  -- either some work has been spent, or the slots so far were idle and no query was left
  refine (Ensures.forRange (fun k st' =>
    (st' = st ∧ (0 < k → st.nextQueryIdx = ans.length) ∧ ∀ j < k, roles[j]? = some none) ∨
    ∃ roles', st'.Valid M ans prior Busy N roles' ∧
      st'.work W ans.length roles' < st.work W ans.length roles)
    (Or.inl ⟨rfl, by simp, by simp⟩) fun k hk st' hst' => ?_).mono fun st' hst' => ?_
  · rcases hst' with ⟨rfl, _, hidle⟩ | ⟨roles', h', hlt'⟩
    · refine (hM.visit h hk).mono ?_
      rintro st₁ (⟨rfl, hr, hn⟩ | h₁)
      · refine Or.inl ⟨rfl, fun _ => hn, fun j hj => ?_⟩
        rcases Nat.lt_succ_iff_lt_or_eq.mp hj with hj | rfl
        · exact hidle j hj
        · exact hr
      · exact Or.inr h₁
    · refine (hM.visit h' hk).mono ?_
      rintro st₁ (⟨rfl, _⟩ | ⟨roles₁, h₁, hlt₁⟩)
      · exact Or.inr ⟨roles', h', hlt'⟩
      · exact Or.inr ⟨roles₁, h₁, hlt₁.trans hlt'⟩
  · rcases hst' with ⟨rfl, hn, hidle⟩ | h'
    · obtain ⟨k, hk, hbusy⟩ := h.exists_busy (hlt.trans_eq (hn hN).symm)
      exact absurd (hidle k hk) hbusy
    · exact h'

/-- Every one of `n` queries was dispatched once and finished once. -/
def HandledOnce (n : Nat) (log : List Event) : Prop :=
  ∀ i, i < n → log.count (.dispatch i) = 1 ∧ log.count (.finish i) = 1

/-- The sweeping schedule ends, with every query answered, dispatched once and finished once. -/
theorem Machine.Sound.run (hM : M.Sound ans prior Busy W)
    (hN : 1 ≤ N) :
    (M.run N ans.length prior).Ensures fun st =>
      st.out = answered ans prior ∧ HandledOnce ans.length st.log := by
  rw [Machine.run]
  refine Ensures.bind (hM.fill (N := N)) fun st hst => ?_
  obtain ⟨roles, h⟩ := hst
  refine Ensures.whileM (fun m st => ∃ roles, st.Valid M ans prior Busy N roles ∧
    m = st.work W ans.length roles) ?_ (st.work W ans.length roles) st ⟨roles, h, rfl⟩
  rintro m st' ⟨roles', h', rfl⟩
  refine ⟨_, returns_pure.mpr rfl, fun hlt => ?_, fun hge => ?_⟩
  · refine (hM.sweep hN h' (by simpa using hlt)).mono ?_
    rintro st₁ ⟨roles₁, h₁, hlt₁⟩
    exact ⟨_, hlt₁, roles₁, h₁, rfl⟩
  · exact h'.ledger.final (by simpa using hge)

/-- The visits until the counter `k` reaches slot `b`. -/
def dist (N k b : Nat) : Nat := if k ≤ b then b - k else b + N - k

/-- The round-robin schedule ends likewise.  Between two visits that spend work the counter only
moves towards the next busy slot. -/
theorem Machine.Sound.runRoundRobin (hM : M.Sound ans prior Busy W)
    (hN : 1 ≤ N) :
    (M.runRoundRobin N ans.length prior).Ensures fun st =>
      st.out = answered ans prior ∧ HandledOnce ans.length st.log := by
  rw [Machine.runRoundRobin]
  refine Ensures.bind (hM.fill (N := N)) fun st hst => ?_
  obtain ⟨roles, h⟩ := hst
  refine Ensures.bind
    (P := fun r => r.2.out = answered ans prior ∧ HandledOnce ans.length r.2.log) ?_
    fun r hr => Ensures.pure hr
  -- `b` is a slot whose visit spends work
  let Inv : Nat → Nat × PoolState S V → Prop := fun m r =>
    ∃ roles b, r.2.Valid M ans prior Busy N roles ∧ r.1 ≤ N ∧ b < N ∧
      (r.2.allDone < ans.length → r.2.nextQueryIdx = ans.length → roles[b]? ≠ some none) ∧
      m = r.2.work W ans.length roles * (N + N) + dist N r.1 b
  have target : ∀ {k : Nat} {st : PoolState S V} {roles : List Role},
      st.Valid M ans prior Busy N roles → k ≤ N →
      ∃ m < st.work W ans.length roles * (N + N) + (N + N), Inv m (k, st) := by
    intro k st roles h hk
    by_cases hb : st.allDone < ans.length ∧ st.nextQueryIdx = ans.length
    · obtain ⟨b, hbN, hbusy⟩ := h.exists_busy (hb.1.trans_eq hb.2.symm)
      refine ⟨_, ?_, roles, b, h, hk, hbN, fun _ _ => hbusy, rfl⟩
      simp only [dist]
      split <;> omega
    · refine ⟨_, ?_, roles, 0, h, hk, hN, fun h1 h2 => absurd ⟨h1, h2⟩ hb, rfl⟩
      simp only [dist]
      split <;> omega
  obtain ⟨m₀, _, h₀⟩ := target h (Nat.zero_le N)
  refine Ensures.whileM Inv ?_ m₀ (0, st) h₀
  rintro m ⟨k, st'⟩ ⟨roles', b, h', hk, hb, hbusy, rfl⟩
  refine ⟨_, returns_pure.mpr rfl, fun hlt => ?_, fun hge => ?_⟩
  · have hlt' : st'.allDone < ans.length := by simpa using hlt
    obtain ⟨k', hk', hkeq⟩ : ∃ k' < N, (if k = N then 0 else k) = k' :=
      ⟨_, by split <;> omega, rfl⟩
    simp only [hkeq]
    refine Ensures.bind (hM.visit h' hk') ?_
    rintro st₁ (⟨rfl, hr, hn⟩ | ⟨roles₁, h₁, hlt₁⟩)
    · have hne : k' ≠ b := by
        rintro rfl
        exact hbusy hlt' hn hr
      refine Ensures.pure ⟨_, ?_, roles', b, h', hk', hb, hbusy, rfl⟩
      simp only [dist]
      split at hkeq <;> split <;> split <;> omega
    · obtain ⟨m', hm', hInv⟩ := target h₁ (k := k' + 1) hk'
      refine Ensures.pure ⟨m', ?_, hInv⟩
      have hmul := Nat.mul_le_mul_right (N + N) (Nat.succ_le_of_lt hlt₁)
      rw [Nat.succ_mul] at hmul
      exact hm'.trans_le (hmul.trans (Nat.le_add_right _ _))
  · exact h'.ledger.final (by simpa using hge)

/-! ### Pools over a vector of queries -/

variable {Q : Type} {answer : Q → Option V} {queries : List Q}

theorem Machine.Sound.run_queries (hM : M.Sound (queries.map answer) prior Busy W) (hN : 1 ≤ N) :
    (M.run N queries.length prior).Ensures fun st =>
      st.out = answered (queries.map answer) prior ∧ HandledOnce queries.length st.log := by
  have h := hM.run hN
  rwa [List.length_map] at h

theorem Machine.Sound.runRoundRobin_queries (hM : M.Sound (queries.map answer) prior Busy W)
    (hN : 1 ≤ N) :
    (M.runRoundRobin N queries.length prior).Ensures fun st =>
      st.out = answered (queries.map answer) prior ∧ HandledOnce queries.length st.log := by
  have h := hM.runRoundRobin hN
  rwa [List.length_map] at h

end Sound

end Batch
