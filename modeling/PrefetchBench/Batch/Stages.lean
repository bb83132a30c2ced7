import PrefetchBench.Batch.Pipeline
import PrefetchBench.Prog.Iterations

/-!
# A pipeline between its rounds

What a pipeline is like at the start of every round, in terms of its state only: a query that has
entered is in exactly one slot, or it was retired once (`PipeState.At.accounted`), and the run is
as long as the last queries need to pass all stages (`Conveyor.Sound.ends`).
-/

namespace Batch

open Prog

variable {S V : Type}

/-- Slot `i` of stage `s` holds query `q`. -/
def PipeState.Holds (C : Conveyor S V) (st : PipeState S V) (s i q : Nat) : Prop :=
  ∃ c, st.content s i = some c ∧ C.active c = true ∧ C.queryIdx c = q

section At

variable {C : Conveyor S V} {ans : List (Option V)} {prior : Out V}
  {Phase : Nat → Nat → S → Prop} {H first N t : Nat} {st : PipeState S V}

/-- There is nothing outside the stages and their slots. -/
theorem PipeState.Shape.inside (h : st.Shape H N) {s i : Nat} {c : S}
    (hc : st.content s i = some c) : s ≤ H ∧ i < N := by
  rw [content] at hc
  obtain ⟨b, hb, hc⟩ := Option.bind_eq_some_iff.mp hc
  obtain ⟨buffer, hbuffer, hc⟩ := Option.bind_eq_some_iff.mp hc
  have hs := (List.getElem?_eq_some_iff.mp hb).1
  have hi := (List.getElem?_eq_some_iff.mp hc).1
  rw [h.length_stages] at hs
  rw [h.buffer buffer (List.mem_of_getElem? hbuffer)] at hi
  exact ⟨Nat.le_of_lt_succ hs, hi⟩

/-- A slot with a query is one that is due, and in the phase that is due. -/
theorem PipeState.At.due_of_active (h : st.At C ans prior Phase H first N t) {s i : Nat} {c : S}
    (hc : st.content s i = some c) (hact : C.active c = true) :
    ∃ q p, due H first N ans.length t s i = some (q, p) ∧ Phase q p c := by
  obtain ⟨hs, hi⟩ := h.valid.shape.inside hc
  obtain ⟨c', hc', hnone, hsome⟩ := h.valid.stocked.slot s i hs hi
  cases hc.symm.trans hc'
  cases hdue : due H first N ans.length t s i with
  | none =>
      rw [hnone hdue] at hact
      cases hact
  | some r => exact ⟨r.1, r.2, rfl, hsome r.1 r.2 hdue⟩

/-- The slots hold what is due. -/
theorem PipeState.At.holds_iff (hC : C.Sound ans prior Phase (H - first))
    (h : st.At C ans prior Phase H first N t) {s i q : Nat} :
    st.Holds C s i q ↔ ∃ p, due H first N ans.length t s i = some (q, p) := by
  constructor
  · rintro ⟨c, hc, hact, hq⟩
    obtain ⟨q', p, hdue, hphase⟩ := h.due_of_active hc hact
    cases (hC.phase q' p c hphase).2.symm.trans hq
    exact ⟨p, hdue⟩
  · rintro ⟨p, hdue⟩
    obtain ⟨hs, hi, -⟩ := due_eq_some hdue
    obtain ⟨c, hc, -, hsome⟩ := h.valid.stocked.slot s i hs hi
    obtain ⟨hact, hq⟩ := hC.phase q p c (hsome q p hdue)
    exact ⟨c, hc, hact, hq⟩

/-- A query that has entered and is not retired is in a stage. -/
theorem PipeState.At.exists_due (h : st.At C ans prior Phase H first N t) (hN : 1 ≤ N) {q : Nat}
    (hge : st.finishedCount ≤ q) (hlt : q < st.nextQueryIdx) :
    ∃ s i p, due H first N ans.length t s i = some (q, p) := by
  have hnext := h.next_eq
  have hfinished := h.finished_eq
  have hdiv : q / N < t := (Nat.div_lt_iff_lt_mul hN).mpr (by omega)
  have hdiv' : t - (H + 1) ≤ q / N := (Nat.le_div_iff_mul_le hN).mpr (by omega)
  have hsplit : q / N * N + q % N = q := by
    rw [Nat.mul_comm]
    exact Nat.div_add_mod q N
  refine ⟨t - 1 - q / N, q % N, t - 1 - q / N - first, ?_⟩
  have hstage : t - 1 - (t - 1 - q / N) = q / N := by omega
  rw [due, hstage, hsplit, if_pos]
  exact ⟨by omega, Nat.mod_lt q hN, by omega, by omega⟩

/-- A query that has entered is in exactly one slot, or it was retired, once. -/
theorem PipeState.At.accounted (hC : C.Sound ans prior Phase (H - first))
    (h : st.At C ans prior Phase H first N t) (hN : 1 ≤ N) {q : Nat}
    (hq : q < st.nextQueryIdx) :
    ((∃ s i, st.Holds C s i q ∧ ∀ s' i', st.Holds C s' i' q → s' = s ∧ i' = i) ∧
        st.log.count (.finish q) = 0) ∨
      ((∀ s i, ¬ st.Holds C s i q) ∧ st.log.count (.finish q) = 1) := by
  have hreg := h.valid.register
  rcases Nat.lt_or_ge q st.finishedCount with hlt | hge
  · refine Or.inr ⟨?_, ?_⟩
    · intro s i hheld
      obtain ⟨p, hdue⟩ := (h.holds_iff hC).mp hheld
      exact absurd hlt (not_lt.mpr (hreg.bounds s i q p hdue).1)
    · rw [hreg.retired q, if_pos hlt]
  · refine Or.inl ⟨?_, ?_⟩
    · obtain ⟨s, i, p, hdue⟩ := h.exists_due hN hge hq
      refine ⟨s, i, (h.holds_iff hC).mpr ⟨p, hdue⟩, ?_⟩
      intro s' i' hheld
      obtain ⟨p', hdue'⟩ := (h.holds_iff hC).mp hheld
      exact hreg.inj s i s' i' q p p' hdue hdue'
    · rw [hreg.retired q, if_neg (not_lt.mpr hge)]

theorem countP_range_lt {k n : Nat} (h : k ≤ n) :
    (List.range n).countP (fun q => decide (q < k)) = k := by
  induction n with
  | zero => exact (Nat.le_zero.mp h).symm
  | succ n ih =>
      rw [List.range_succ, List.countP_append, List.countP_singleton]
      rcases Nat.lt_or_eq_of_le h with hlt | rfl
      · rw [ih (Nat.le_of_lt_succ hlt), if_neg (by simp; omega), Nat.add_zero]
      · rw [if_pos (by simp)]
        have hall : (List.range n).countP (fun q => decide (q < n + 1)) = (List.range n).length :=
          List.countP_eq_length.mpr fun q hq =>
            decide_eq_true ((List.mem_range.mp hq).trans (Nat.lt_succ_self n))
        rw [hall, List.length_range]

/-- The counter is the number of the queries that were retired. -/
theorem PipeState.At.finished_eq_countP (h : st.At C ans prior Phase H first N t) :
    (List.range st.nextQueryIdx).countP (fun q => decide (0 < st.log.count (.finish q))) =
      st.finishedCount := by
  have hreg := h.valid.register
  have hcount : ∀ q, (0 < st.log.count (.finish q)) ↔ q < st.finishedCount := by
    intro q
    rw [hreg.retired q]
    split
    · rename_i hlt
      simp [hlt]
    · rename_i hge
      simp [hge]
  simp only [hcount]
  exact countP_range_lt hreg.finished_le

/-- At the start of every round the pipeline is as it should be then. -/
theorem Conveyor.Sound.atHead (hC : C.Sound ans prior Phase (H - first)) (hfirst : first ≤ 1)
    (h : AtHead (fun st => pure (decide (st.finishedCount < ans.length)))
      (C.iteration H first N ans.length) (C.allocate H N prior) t st) :
    st.At C ans prior Phase H first N t := by
  refine h.keeps hC.allocate ?_
  intro t st st' hst _ hret
  exact (hC.iteration hfirst hst).of_returns hret

/-- The number of rounds: as many as it takes for all queries to enter, and for the last ones to
pass the stages. -/
theorem Conveyor.Sound.ends (hC : C.Sound ans prior Phase (H - first)) (hfirst : first ≤ 1)
    (hN : 1 ≤ N) :
    ∃ k ≤ (ans.length + N - 1) / N + H + 1, ∃ st,
      AtHead (fun st => pure (decide (st.finishedCount < ans.length)))
        (C.iteration H first N ans.length) (C.allocate H N prior) k st ∧
      ans.length ≤ st.finishedCount := by
  have hstep : ∀ m (st : PipeState S V), (∃ t, st.At C ans prior Phase H first N t ∧
      m = (ans.length + N - 1) / N + H + 1 - t) → ∃ b,
        (pure (decide (st.finishedCount < ans.length)) : Prog Bool).Returns b ∧
        (b = true → (C.iteration H first N ans.length st).Ensures fun st' => ∃ m' < m,
          ∃ t, st'.At C ans prior Phase H first N t ∧
            m' = (ans.length + N - 1) / N + H + 1 - t) := by
    rintro m st ⟨t, h, rfl⟩
    refine ⟨_, returns_pure.mpr rfl, ?_⟩
    intro hlt
    apply (hC.iteration hfirst h).mono
    intro st' h'
    refine ⟨_, ?_, t + 1, h', rfl⟩
    have hlt' : st.finishedCount < ans.length := of_decide_eq_true hlt
    rw [h.finished_eq] at hlt'
    have hrounds : t - (H + 1) + 1 ≤ (ans.length + N - 1) / N := by
      rw [Nat.le_div_iff_mul_le hN, Nat.succ_mul]
      omega
    omega
  obtain ⟨k, hk, st, hst, hend⟩ := AtHead.ends hstep _ _ ⟨0, hC.allocate, rfl⟩
  exact ⟨k, hk, st, hst, not_lt.mp (of_decide_eq_false (returns_pure.mp hend))⟩

end At

end Batch
