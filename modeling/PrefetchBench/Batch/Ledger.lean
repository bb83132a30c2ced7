import PrefetchBench.Batch.Output

/-!
# The ledger of a schedule

A schedule that keeps several queries in flight takes the queries in order, holds each one for a
while and puts it away answered.  Its counters are `next`, the first query not taken yet, and
`finished`, the number put away.  The history `log` is bookkeeping: no schedule reads it.

`Ledger` ties the counters, the two output vectors and the history to the list of the queries
that are held: every query below `next` was taken once, and has either been put away once or is
held once.  Taking a query and putting one away keep the ledger, in any order.
-/

namespace Batch

/-- What a schedule does with a query. -/
inductive Event where
  /-- The query is taken into a slot. -/
  | dispatch (i : Nat)
  /-- The query takes one step of its search. -/
  | advance (i : Nat)
  /-- The query is answered and counted as finished. -/
  | finish (i : Nat)
deriving DecidableEq, Repr

variable {V : Type} {ans : List (Option V)} {prior : Out V}

/-- The books of a schedule that holds the queries `held`. -/
structure Ledger (ans : List (Option V)) (prior : Out V) (held : List Nat) (next finished : Nat)
    (out : Out V) (log : List Event) : Prop where
  /-- No query is held twice. -/
  nodup : held.Nodup
  /-- A held query has been taken. -/
  lt_next : ∀ i ∈ held, i < next
  /-- Only queries of the batch are taken. -/
  next_le : next ≤ ans.length
  /-- A taken query is held or put away. -/
  count : finished + held.length = next
  /-- The queries put away are the ones answered. -/
  out_eq : out = progress ans prior fun i => i < next ∧ i ∉ held
  /-- A query was taken once if it is below `next`, and never otherwise. -/
  dispatched : ∀ i, log.count (.dispatch i) = if i < next then 1 else 0
  /-- A query was finished once if it was put away, and never otherwise. -/
  put_away : ∀ i, log.count (.finish i) = if i < next ∧ i ∉ held then 1 else 0

namespace Ledger

variable {held held' : List Nat} {next finished : Nat} {out : Out V} {log : List Event}

/-- The books before the first query is taken. -/
theorem empty : Ledger ans prior [] 0 0 prior [] where
  nodup := List.nodup_nil
  lt_next := by simp
  next_le := Nat.zero_le _
  count := rfl
  out_eq := (progress_none fun i => by simp).symm
  dispatched := by simp
  put_away := by simp

/-- The order of the slots does not matter. -/
theorem perm (h : Ledger ans prior held next finished out log) (hp : held.Perm held') :
    Ledger ans prior held' next finished out log where
  nodup := hp.nodup_iff.mp h.nodup
  lt_next i hi := h.lt_next i (hp.mem_iff.mpr hi)
  next_le := h.next_le
  count := by rw [← hp.length_eq]; exact h.count
  out_eq := by rw [h.out_eq]; simp only [hp.mem_iff]
  dispatched := h.dispatched
  put_away i := by rw [h.put_away i]; simp only [hp.mem_iff]

theorem next_notMem (h : Ledger ans prior held next finished out log) : next ∉ held :=
  fun hmem => Nat.lt_irrefl next (h.lt_next next hmem)

/-- Taking the next query. -/
theorem take (h : Ledger ans prior held next finished out log) (hn : next < ans.length) :
    Ledger ans prior (next :: held) (next + 1) finished out (log ++ [.dispatch next]) where
  nodup := List.nodup_cons.mpr ⟨h.next_notMem, h.nodup⟩
  lt_next i hi := by
    rcases List.mem_cons.mp hi with rfl | hi
    · exact Nat.lt_succ_self i
    · exact (h.lt_next i hi).trans (Nat.lt_succ_self next)
  next_le := hn
  count := by
    have := h.count
    simp only [List.length_cons]
    omega
  out_eq := by
    rw [h.out_eq]
    refine progress_congr fun i => ?_
    simp only [List.mem_cons, not_or]
    constructor
    · rintro ⟨hlt, hmem⟩
      exact ⟨by omega, by omega, hmem⟩
    · rintro ⟨hlt, hne, hmem⟩
      exact ⟨by omega, hmem⟩
  dispatched i := by
    rw [List.count_append, h.dispatched i, List.count_singleton]
    by_cases hi : i = next
    · subst hi
      simp
    · have hne : (Event.dispatch next == Event.dispatch i) = false := by
        simpa using Ne.symm hi
      rw [hne]
      simp only [Bool.false_eq_true, if_false, Nat.add_zero]
      split <;> split <;> omega
  put_away i := by
    rw [List.count_append, h.put_away i, List.count_singleton]
    have hne : (Event.dispatch next == Event.finish i) = false := by simp
    rw [hne]
    simp only [Bool.false_eq_true, if_false, Nat.add_zero, List.mem_cons, not_or]
    by_cases hi : i = next
    · subst hi
      simp
    · by_cases hlt : i < next
      · simp [hlt, hi, show i < next + 1 by omega]
      · simp [hlt, show ¬ i < next + 1 by omega]

/-- Putting a held query away, answered. -/
theorem put {i : Nat} (h : Ledger ans prior (i :: held) next finished out log) {out' : Out V}
    (hout : out' = progress ans prior fun j => j = i ∨ (j < next ∧ j ∉ i :: held)) :
    Ledger ans prior held next (finished + 1) out' (log ++ [.finish i]) := by
  have hi := h.lt_next i (List.mem_cons_self ..)
  obtain ⟨hmem, hnd⟩ := List.nodup_cons.mp h.nodup
  refine ⟨hnd, fun j hj => h.lt_next j (List.mem_cons_of_mem i hj), h.next_le, ?_, ?_, ?_, ?_⟩
  · have := h.count
    simp only [List.length_cons] at this
    omega
  · rw [hout]
    refine progress_congr fun j => ?_
    simp only [List.mem_cons, not_or]
    constructor
    · rintro (rfl | ⟨hlt, _, hj⟩)
      · exact ⟨hi, hmem⟩
      · exact ⟨hlt, hj⟩
    · rintro ⟨hlt, hj⟩
      by_cases hji : j = i
      · exact Or.inl hji
      · exact Or.inr ⟨hlt, hji, hj⟩
  · intro j
    rw [List.count_append, h.dispatched j, List.count_singleton]
    simp
  · intro j
    rw [List.count_append, h.put_away j, List.count_singleton]
    by_cases hji : j = i
    · subst hji
      simp [hi, hmem]
    · have hne : (Event.finish i == Event.finish j) = false := by simpa using Ne.symm hji
      simp [hne, hji]

/-- When every query has been counted as finished, none is held and none is left. -/
theorem all_finished (h : Ledger ans prior held next finished out log)
    (hf : ans.length ≤ finished) : held = [] ∧ next = ans.length := by
  have h1 := h.count
  have h2 := h.next_le
  exact ⟨List.eq_nil_of_length_eq_zero (by omega), by omega⟩

/-- The batch is then answered, and every query was taken once and finished once. -/
theorem final (h : Ledger ans prior held next finished out log)
    (hf : ans.length ≤ finished) :
    out = answered ans prior ∧ ∀ i, i < ans.length →
      log.count (.dispatch i) = 1 ∧ log.count (.finish i) = 1 := by
  obtain ⟨rfl, rfl⟩ := h.all_finished hf
  refine ⟨?_, fun i hi => ⟨?_, ?_⟩⟩
  · rw [h.out_eq]
    exact progress_all fun i => ⟨fun h => h.1, fun hi => ⟨hi, List.not_mem_nil⟩⟩
  · rw [h.dispatched i, if_pos hi]
  · rw [h.put_away i, if_pos ⟨hi, List.not_mem_nil⟩]

end Ledger

end Batch
