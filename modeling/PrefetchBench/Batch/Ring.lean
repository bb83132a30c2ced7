import PrefetchBench.Batch.Pool

/-!
# Rings

A ring is a pool whose slots are refilled the moment they finish: the visit that answers a query
puts the next one into the same slot, or closes the slot when none is left.  So between the visits
an idle slot means that no query is left (`PoolState.Full`), and a slot that is closed stays idle.

The slots are the machines of a pool, and the books and the work left are those of a pool.
-/

namespace Batch

open Prog

variable {S V : Type}

namespace Machine

variable (M : Machine S V) (close : S → S)

/-- The next query for a slot, or none: the slot is closed. -/
def tryFillSlot (n k : Nat) (st : PoolState S V) : Prog (PoolState S V) := do
  let s ← read st.pool k
  if st.nextQueryIdx < n then do
    let pool ← write st.pool k (M.init s st.nextQueryIdx)
    pure { st with
      pool := pool
      nextQueryIdx := st.nextQueryIdx + 1
      log := st.log ++ [.dispatch st.nextQueryIdx] }
  else do
    let pool ← write st.pool k (close s)
    pure { st with pool := pool }

/-- One visit of a slot. -/
def ringVisit (n k : Nat) (st : PoolState S V) : Prog (PoolState S V) := do
  let s ← read st.pool k
  match (← M.step s st.out) with
  | .stay s' => do
      let pool ← write st.pool k s'
      pure { st with pool := pool }
  | .finish s' out => do
      let pool ← write st.pool k s'
      M.tryFillSlot close n k { st with
        pool := pool
        allDone := st.allDone + 1
        out := out
        log := st.log ++ [.finish (M.index s)] }

/-- Fill the slots, and `while (all_done < n) for (k = 0; k < N; ++k)` visit slot `k`. -/
def runRing (N n : Nat) (out : Out V) : Prog (PoolState S V) := do
  let st ← forRange N (M.tryFillSlot close n) ⟨List.replicate N M.blank, 0, 0, out, []⟩
  whileM (fun st => pure (decide (st.allDone < n))) (forRange N (M.ringVisit close n)) st

end Machine

/-- An idle slot means that no query is left. -/
def PoolState.Full (M : Machine S V) (n : Nat) (st : PoolState S V) : Prop :=
  ∀ (k : Nat) s, st.pool[k]? = some s → M.isDone s = true → st.nextQueryIdx = n

/-! ## Visits as visits of a pool -/

section Equations

variable {M : Machine S V} {close : S → S} {n k : Nat} {st st' : PoolState S V} {s : S}

/-- A visit is a step, and a refill if the step has finished a query. -/
theorem Machine.ringVisit_eq : M.ringVisit close n k st = (M.turn k st >>= fun st' =>
    if st.allDone < st'.allDone then M.tryFillSlot close n k st' else pure st') := by
  simp only [ringVisit, turn, bind_assoc]
  congr 1
  funext s
  congr 1
  funext t
  cases t with
  | stay s' =>
      simp only [bind_assoc, pure_bind, Nat.lt_irrefl, if_false]
  | finish s' out =>
      simp only [bind_assoc, pure_bind, Nat.lt_succ_self, if_true]

/-- For an idle slot it does not matter that it is closed again. -/
theorem Machine.tryFillSlot_eq (hs : st.pool[k]? = some s) (hd : M.isDone s = true)
    (hclose : close s = s) : M.tryFillSlot close n k st = M.refill n k st := by
  have hread : read st.pool k = pure s := by
    rw [Prog.read, hs]
    rfl
  have hset : write st.pool k s = pure st.pool := by
    obtain ⟨hlt, rfl⟩ := List.getElem?_eq_some_iff.mp hs
    rw [Prog.write, if_pos hlt, List.set_getElem_self]
    rfl
  rw [tryFillSlot, refill, hread]
  simp only [pure_bind, hd, Bool.true_and, decide_eq_true_eq, hclose, hset]

/-- What a refill does. -/
theorem Machine.refill_cases (hs : st.pool[k]? = some s) (h : (M.refill n k st).Returns st') :
    (st' = st ∧ (M.isDone s = true → ¬ st.nextQueryIdx < n)) ∨
      (st.nextQueryIdx < n ∧ st'.nextQueryIdx = st.nextQueryIdx + 1 ∧
        st'.pool = st.pool.set k (M.init s st.nextQueryIdx)) := by
  obtain ⟨s', hs', h⟩ := returns_bind.mp h
  cases hs.symm.trans (returns_read.mp hs')
  split at h
  · rename_i hc
    rw [Bool.and_eq_true, decide_eq_true_iff] at hc
    obtain ⟨pool, hpool, h⟩ := returns_bind.mp h
    cases returns_pure.mp h
    exact Or.inr ⟨hc.2, rfl, (returns_write.mp hpool).2.symm⟩
  · rename_i hc
    cases returns_pure.mp h
    refine Or.inl ⟨rfl, ?_⟩
    intro hd hlt
    exact hc (by rw [hd, decide_eq_true hlt]; rfl)

/-- A ring stays full when one slot changes. -/
theorem PoolState.Full.set (h : st.Full M n) {s' : S} (hpool : st'.pool = st.pool.set k s')
    (hnext : st.nextQueryIdx = n → st'.nextQueryIdx = n)
    (hs : M.isDone s' = true → st'.nextQueryIdx = n) : st'.Full M n := by
  intro j t ht hd
  rw [hpool] at ht
  rcases eq_or_ne k j with rfl | hj
  · rw [List.getElem?_set_self'] at ht
    obtain ⟨_, _, rfl⟩ := Option.map_eq_some_iff.mp ht
    exact hs hd
  · rw [List.getElem?_set_ne hj] at ht
    exact hnext (h j t ht hd)

end Equations

/-! ## Runs -/

section Sound

variable {M : Machine S V} {ans : List (Option V)} {prior : Out V} {Busy : Nat → Nat → S → Prop}
  {W : Nat → Nat} {N k : Nat} {st : PoolState S V} {roles : List Role} {close : S → S}

/-- The slots are filled one by one. -/
theorem Machine.Sound.fillRing (hM : M.Sound ans prior Busy W)
    (hclose : ∀ s, M.isDone s = true → close s = s) :
    (forRange N (M.tryFillSlot close ans.length)
      ⟨List.replicate N M.blank, 0, 0, prior, []⟩).Ensures fun st =>
        (∃ roles, st.Valid M ans prior Busy N roles) ∧ st.Full M ans.length := by
  refine (Ensures.forRange (fun k (st : PoolState S V) =>
    (∃ roles, st.Valid M ans prior Busy N roles) ∧ ∀ (j : Nat) s, st.pool[j]? = some s →
      (k ≤ j → M.isDone s = true) ∧ (j < k → M.isDone s = true → st.nextQueryIdx = ans.length))
    ⟨⟨_, hM.unused⟩, ?_⟩ ?_).mono ?_
  · intro j s hs
    rw [List.eq_of_mem_replicate (List.mem_of_getElem? hs)]
    exact ⟨fun _ => hM.blank, fun hj => absurd hj (Nat.not_lt_zero j)⟩
  · rintro k hk st ⟨⟨roles, h⟩, hslots⟩
    obtain ⟨s, r, hs, hr⟩ := h.slot hk
    have hd := (hslots k s hs).1 (Nat.le_refl k)
    rw [tryFillSlot_eq hs hd (hclose s hd)]
    obtain ⟨st', hret, hcase⟩ := hM.refill h hk
    have hvalid : ∃ roles, st'.Valid M ans prior Busy N roles := by
      rcases hcase with ⟨rfl, _⟩ | ⟨roles', h', _⟩
      · exact ⟨roles, h⟩
      · exact ⟨roles', h'⟩
    refine hret.ensures ⟨hvalid, ?_⟩
    intro j t ht
    rcases refill_cases hs hret with ⟨rfl, hleft⟩ | ⟨hlt, hnext, hpool⟩
    · refine ⟨fun hj => (hslots j t ht).1 (Nat.le_of_succ_le hj), fun hj hdone => ?_⟩
      rcases Nat.lt_succ_iff_lt_or_eq.mp hj with hj | rfl
      · exact (hslots j t ht).2 hj hdone
      · exact le_antisymm h.ledger.next_le (not_lt.mp (hleft hd))
    · rw [hpool] at ht
      rcases eq_or_ne k j with rfl | hj
      · rw [List.getElem?_set_self (List.getElem?_eq_some_iff.mp hs).1] at ht
        cases ht
        have hbusy := (hM.busy _ _ _ (hM.load s _ hd hlt)).1
        exact ⟨fun hk' => absurd hk' (Nat.not_succ_le_self k),
          fun _ hdone => absurd (hbusy.symm.trans hdone) Bool.false_ne_true⟩
      · rw [List.getElem?_set_ne hj] at ht
        refine ⟨fun hj' => (hslots j t ht).1 (Nat.le_of_succ_le hj'), fun hj' hdone => ?_⟩
        have hbefore := (hslots j t ht).2 (by omega) hdone
        omega
  · rintro st ⟨hvalid, hslots⟩
    refine ⟨hvalid, ?_⟩
    intro j s hs hd
    obtain ⟨roles, h⟩ := hvalid
    have hj : j < N := h.length_eq ▸ (List.getElem?_eq_some_iff.mp hs).1
    exact (hslots j s hs).2 hj hd

/-- A visit leaves an idle slot alone, and spends some work otherwise. -/
theorem Machine.Sound.ringVisit (hM : M.Sound ans prior Busy W)
    (hclose : ∀ s, M.isDone s = true → close s = s)
    (h : st.Valid M ans prior Busy N roles) (hfull : st.Full M ans.length) (hk : k < N) :
    (M.ringVisit close ans.length k st).Ensures fun st' =>
      (st' = st ∧ roles[k]? = some none) ∨
      ∃ roles', st'.Valid M ans prior Busy N roles' ∧ st'.Full M ans.length ∧
        st'.work W ans.length roles' < st.work W ans.length roles := by
  rw [ringVisit_eq]
  have hlt : k < st.pool.length := h.length_eq ▸ hk
  refine Ensures.bind (h.turn hM.toSlots hk fun s i m hs hr =>
    hM.step i m s (h.ans_lt hr) (h.busy k s i m hs hr)) ?_
  rintro st₁ (⟨rfl, hidle⟩ | ⟨s', u, hpool, hnext, hdone, hvalid, hwork⟩)
  · rw [if_neg (Nat.lt_irrefl _)]
    exact Ensures.pure (Or.inl ⟨rfl, hidle⟩)
  · have hs' : st₁.pool[k]? = some s' := by rw [hpool, List.getElem?_set_self hlt]
    cases hd : M.isDone s' with
    | false =>
        rw [hd] at hdone
        rw [if_neg (by rw [hdone]; simp)]
        refine Ensures.pure
          (Or.inr ⟨_, hvalid, hfull.set hpool (fun hn => hnext.trans hn) ?_, hwork⟩)
        rw [hd]
        intro hc
        cases hc
    | true =>
        rw [hd] at hdone
        rw [if_pos (by rw [hdone]; simp), tryFillSlot_eq hs' hd (hclose s' hd)]
        obtain ⟨st₂, hret, hcase⟩ := hM.refill hvalid hk
        refine hret.ensures (Or.inr ?_)
        have hfull₂ : st₂.Full M ans.length := by
          rcases refill_cases hs' hret with ⟨rfl, hleft⟩ | ⟨hlt', hnext₂, hpool₂⟩
          · refine hfull.set hpool (fun hn => hnext.trans hn) ?_
            intro _
            exact le_antisymm hvalid.ledger.next_le (not_lt.mp (hleft hd))
          · rw [hpool, List.set_set] at hpool₂
            refine hfull.set hpool₂ (fun hn => absurd hlt' (by omega)) ?_
            intro hc
            rw [(hM.busy _ _ _ (hM.load s' _ hd hlt')).1] at hc
            cases hc
        rcases hcase with ⟨rfl, _⟩ | ⟨roles₂, hvalid₂, hwork₂⟩
        · exact ⟨_, hvalid, hfull₂, hwork⟩
        · exact ⟨roles₂, hvalid₂, hfull₂, hwork₂.trans hwork⟩

/-- A sweep spends some work as long as a query is unfinished. -/
theorem Machine.Sound.ringSweep (hM : M.Sound ans prior Busy W)
    (hclose : ∀ s, M.isDone s = true → close s = s) (hN : 1 ≤ N)
    (h : st.Valid M ans prior Busy N roles) (hfull : st.Full M ans.length)
    (hlt : st.allDone < ans.length) :
    (forRange N (M.ringVisit close ans.length) st).Ensures fun st' =>
      ∃ roles', st'.Valid M ans prior Busy N roles' ∧ st'.Full M ans.length ∧
        st'.work W ans.length roles' < st.work W ans.length roles := by
  refine (Ensures.forRange (fun k st' =>
    (st' = st ∧ ∀ j < k, roles[j]? = some none) ∨
    ∃ roles', st'.Valid M ans prior Busy N roles' ∧ st'.Full M ans.length ∧
      st'.work W ans.length roles' < st.work W ans.length roles)
    (Or.inl ⟨rfl, fun j hj => absurd hj (Nat.not_lt_zero j)⟩) ?_).mono ?_
  · rintro k hk st' (⟨rfl, hidle⟩ | ⟨roles', h', hfull', hlt'⟩)
    · apply (hM.ringVisit hclose h hfull hk).mono
      rintro st₁ (⟨rfl, hr⟩ | h₁)
      · refine Or.inl ⟨rfl, fun j hj => ?_⟩
        rcases Nat.lt_succ_iff_lt_or_eq.mp hj with hj | rfl
        · exact hidle j hj
        · exact hr
      · exact Or.inr h₁
    · apply (hM.ringVisit hclose h' hfull' hk).mono
      rintro st₁ (⟨rfl, _⟩ | ⟨roles₁, h₁, hfull₁, hlt₁⟩)
      · exact Or.inr ⟨roles', h', hfull', hlt'⟩
      · exact Or.inr ⟨roles₁, h₁, hfull₁, hlt₁.trans hlt'⟩
  · rintro st' (⟨rfl, hidle⟩ | h')
    · -- all slots are idle, so no query is left, and all are finished
      obtain ⟨s, r, hs, hr⟩ := h.slot hN
      have hnext := hfull 0 s hs (h.idle 0 s hs (hidle 0 hN))
      obtain ⟨k, hk, hbusy⟩ := h.exists_busy (hlt.trans_eq hnext.symm)
      exact absurd (hidle k hk) hbusy
    · exact h'

/-- The ring ends, with every query answered, loaded once and finished once. -/
theorem Machine.Sound.runRing (hM : M.Sound ans prior Busy W)
    (hclose : ∀ s, M.isDone s = true → close s = s) (hN : 1 ≤ N) :
    (M.runRing close N ans.length prior).Ensures fun st =>
      st.out = answered ans prior ∧ HandledOnce ans.length st.log := by
  apply Ensures.bind (hM.fillRing hclose)
  rintro st ⟨⟨roles, h⟩, hfull⟩
  refine Ensures.whileM (fun m st => ∃ roles, st.Valid M ans prior Busy N roles ∧
    st.Full M ans.length ∧ m = st.work W ans.length roles) ?_ _ st ⟨roles, h, hfull, rfl⟩
  rintro m st' ⟨roles', h', hfull', rfl⟩
  refine ⟨_, returns_pure.mpr rfl, ?_, ?_⟩
  · intro hlt
    apply (hM.ringSweep hclose hN h' hfull' (of_decide_eq_true hlt)).mono
    rintro st₁ ⟨roles₁, h₁, hfull₁, hlt₁⟩
    exact ⟨_, hlt₁, roles₁, h₁, hfull₁, rfl⟩
  · intro hge
    exact h'.ledger.final (not_lt.mp (of_decide_eq_false hge))

theorem Machine.Sound.runRing_queries {Q : Type} {answer : Q → Option V} {queries : List Q}
    (hM : M.Sound (queries.map answer) prior Busy W)
    (hclose : ∀ s, M.isDone s = true → close s = s) (hN : 1 ≤ N) :
    (M.runRing close N queries.length prior).Ensures fun st =>
      st.out = answered (queries.map answer) prior ∧ HandledOnce queries.length st.log := by
  have h := hM.runRing hclose hN
  rwa [List.length_map] at h

end Sound

end Batch
