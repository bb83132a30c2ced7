import PrefetchBench.Batch.Ledger
import PrefetchBench.Batch.Lanes

/-!
# Pipelines

A pipeline has stages `0 .. H` of `N` slots each.  In every round it retires the queries of the
last stage, lets each other one take a step of its search, moves all stages up by one and fills
stage 0 with the next queries.  The stages are buffers behind an array of pointers, and moving up
means to rotate the pointers (`Conveyor.rotate`).

What a pipeline holds at the start of round `t` is known in advance: slot `i` of stage `s` holds
query `(t - 1 - s) * N + i` if there is one and `s < t`, and nothing otherwise (`due`).  So the
queries are retired in order, and the run ends when the last one has passed the last stage.  The
theorem is `Conveyor.Sound.run`; what it needs of the slots is `Conveyor.Sound`.
-/

namespace Batch

open Prog

variable {S V : Type}

/-! ## The code -/

/-- The local behaviour of a slot. -/
structure Conveyor (S V : Type) where
  /-- A slot of the buffers as they are allocated. -/
  blank : S
  /-- The slot holds a query. -/
  active : S → Bool
  /-- The index of that query. -/
  queryIdx : S → Nat
  /-- The slot after its query is finished, and when no query is left for it. -/
  clear : S → S
  /-- Put a query into the slot. -/
  load : S → Nat → Prog S
  /-- One step of the search. -/
  advance : S → Prog S
  /-- The last step: answer the query. -/
  retire : S → Out V → Prog (Out V)

/-- The state of a pipeline. -/
structure PipeState (S V : Type) where
  /-- The buffers. -/
  memory : List (List S)
  /-- `stages[s]` is the buffer of stage `s`. -/
  stages : List Nat
  /-- The next query to enter. -/
  nextQueryIdx : Nat
  /-- The number of retired queries. -/
  finishedCount : Nat
  /-- The output so far. -/
  out : Out V
  /-- The history: not read by the code. -/
  log : List Event

namespace PipeState

/-- `stages[s][i]` -/
def getSlot (st : PipeState S V) (s i : Nat) : Prog S := do
  let b ← read st.stages s
  let buffer ← read st.memory b
  read buffer i

/-- `stages[s][i] = c` -/
def setSlot (st : PipeState S V) (s i : Nat) (c : S) : Prog (PipeState S V) := do
  let b ← read st.stages s
  let buffer ← read st.memory b
  let buffer ← write buffer i c
  let memory ← write st.memory b buffer
  pure { st with memory := memory }

/-- What is in slot `i` of stage `s`. -/
def content (st : PipeState S V) (s i : Nat) : Option S :=
  (st.stages[s]?).bind fun b => (st.memory[b]?).bind fun buffer => buffer[i]?

end PipeState

namespace Conveyor

variable (C : Conveyor S V)

/-- Stage `H`: answer the query of a slot, if it has one. -/
def retireSlot (H i : Nat) (st : PipeState S V) : Prog (PipeState S V) := do
  let c ← st.getSlot H i
  if C.active c then do
    let out ← C.retire c st.out
    let st ← st.setSlot H i (C.clear c)
    pure { st with
      finishedCount := st.finishedCount + 1
      out := out
      log := st.log ++ [.finish (C.queryIdx c)] }
  else pure st

/-- Stage `s`: one step for the query of a slot, if it has one. -/
def advanceSlot (s i : Nat) (st : PipeState S V) : Prog (PipeState S V) := do
  let c ← st.getSlot s i
  if C.active c then do
    let c' ← C.advance c
    let st ← st.setSlot s i c'
    pure { st with log := st.log ++ [.advance (C.queryIdx c)] }
  else pure st

/-- `for (s = H; s > 0; --s) stages[s] = stages[s - 1];` between saving the last pointer and
making it the first. -/
def rotate (H : Nat) (st : PipeState S V) : Prog (PipeState S V) := do
  let emptyStage ← read st.stages H
  let stages ← forRange H (fun j stages => do
    let b ← read stages (H - j - 1)
    write stages (H - j) b) st.stages
  let stages ← write stages 0 emptyStage
  pure { st with stages := stages }

/-- Stage 0: the next query for a slot, if there is one. -/
def refillSlot (n i : Nat) (st : PipeState S V) : Prog (PipeState S V) := do
  let c ← st.getSlot 0 i
  if st.nextQueryIdx < n then do
    let c' ← C.load c st.nextQueryIdx
    let st ← st.setSlot 0 i c'
    pure { st with
      nextQueryIdx := st.nextQueryIdx + 1
      log := st.log ++ [.dispatch st.nextQueryIdx] }
  else st.setSlot 0 i (C.clear c)

/-- One round.  The stages that take a step are `H - 1` down to `first`. -/
def iteration (H first N n : Nat) (st : PipeState S V) : Prog (PipeState S V) := do
  let st ← forRange N (C.retireSlot H) st
  let st ← forRange (H - first) (fun j => forRange N (C.advanceSlot (H - 1 - j))) st
  let st ← rotate H st
  forRange N (C.refillSlot n) st

/-- The pipeline as it is allocated. -/
def allocate (H N : Nat) (out : Out V) : PipeState S V where
  memory := List.replicate (H + 1) (List.replicate N C.blank)
  stages := List.range (H + 1)
  nextQueryIdx := 0
  finishedCount := 0
  out := out
  log := []

/-- `while (finished_count < n)` rounds. -/
def run (H first N n : Nat) (out : Out V) : Prog (PipeState S V) :=
  whileM (fun st => pure (decide (st.finishedCount < n))) (C.iteration H first N n)
    (C.allocate H N out)

/-- A pipeline whose stages stay where they are: a slot with a query moves it to the next stage,
and one without clears the slot there. -/
def shiftSlot (s i : Nat) (st : PipeState S V) : Prog (PipeState S V) := do
  let c ← st.getSlot s i
  if C.active c then do
    let c' ← C.advance c
    let st ← st.setSlot (s + 1) i c'
    let st ← st.setSlot s i (C.clear c)
    pure { st with log := st.log ++ [.advance (C.queryIdx c)] }
  else do
    let d ← st.getSlot (s + 1) i
    st.setSlot (s + 1) i (C.clear d)

/-- One round of that pipeline. -/
def shiftIteration (H N n : Nat) (st : PipeState S V) : Prog (PipeState S V) := do
  let st ← forRange N (C.retireSlot H) st
  let st ← forRange H (fun j => forRange N (C.shiftSlot (H - 1 - j))) st
  forRange N (C.refillSlot n) st

/-- `while (finished_count < n)` rounds of that pipeline. -/
def runShift (H N n : Nat) (out : Out V) : Prog (PipeState S V) :=
  whileM (fun st => pure (decide (st.finishedCount < n))) (C.shiftIteration H N n)
    (C.allocate H N out)

/-- What has to be known of the slots.  `Phase q p c`: slot `c` holds query `q` after `p` steps. -/
structure Sound (ans : List (Option V)) (prior : Out V) (Phase : Nat → Nat → S → Prop)
    (steps : Nat) : Prop where
  /-- The buffers are allocated without queries. -/
  blank : C.active C.blank = false
  /-- A cleared slot has no query. -/
  clear : ∀ c, C.active (C.clear c) = false
  /-- A slot with a query knows it. -/
  phase : ∀ q p c, Phase q p c → C.active c = true ∧ C.queryIdx c = q
  /-- Loading starts the search. -/
  load : ∀ c q, q < ans.length → (C.load c q).Ensures (Phase q 0)
  /-- A step continues it. -/
  advance : ∀ c q p, q < ans.length → p < steps → Phase q p c →
    (C.advance c).Ensures (Phase q (p + 1))
  /-- After all the steps the query can be answered. -/
  retire : ∀ c q, q < ans.length → Phase q steps c → Settles ans prior q (C.retire c)

end Conveyor

/-! ## What the stages hold -/

/-- For each stage and slot the query it holds and the number of steps that query has taken. -/
abbrev Layout := Nat → Nat → Option (Nat × Nat)

/-- The layout after one slot has changed. -/
def Layout.put (L : Layout) (s i : Nat) (r : Option (Nat × Nat)) : Layout :=
  fun s' i' => if s' = s ∧ i' = i then r else L s' i'

/-- The layout moved up by one stage. -/
def Layout.shift (L : Layout) : Layout
  | 0, _ => none
  | s + 1, i => L s i

theorem Layout.put_eq_some {L : Layout} {s i s' i' : Nat} {r : Option (Nat × Nat)} {x : Nat × Nat}
    (h : L.put s i r s' i' = some x) :
    (s' = s ∧ i' = i ∧ r = some x) ∨ (¬ (s' = s ∧ i' = i) ∧ L s' i' = some x) := by
  rw [Layout.put] at h
  split at h
  · rename_i hc
    exact Or.inl ⟨hc.1, hc.2, h⟩
  · rename_i hc
    exact Or.inr ⟨hc, h⟩

theorem Layout.put_self {L : Layout} {s i : Nat} {r : Option (Nat × Nat)} (h : L s i = r) :
    L.put s i r = L := by
  funext s' i'
  rw [Layout.put]
  split
  · rename_i hc
    rw [hc.1, hc.2, h]
  · rfl

/-- The slots agree with the layout. -/
structure Stocked (active : S → Bool) (Phase : Nat → Nat → S → Prop) (H N : Nat)
    (content : Nat → Nat → Option S) (L : Layout) : Prop where
  /-- A slot without a query is inactive, one with a query is in the right phase. -/
  slot : ∀ s i, s ≤ H → i < N → ∃ c, content s i = some c ∧ (L s i = none → active c = false) ∧
    ∀ q p, L s i = some (q, p) → Phase q p c
  /-- There is nothing outside. -/
  outside : ∀ s i, ¬ (s ≤ H ∧ i < N) → L s i = none

theorem Stocked.put {active : S → Bool} {Phase : Nat → Nat → S → Prop} {H N : Nat}
    {content content' : Nat → Nat → Option S} {L : Layout}
    (h : Stocked active Phase H N content L) {s i : Nat} (hs : s ≤ H) (hi : i < N) {c : S}
    {r : Option (Nat × Nat)}
    (hc : ∀ s' i', s' ≤ H → i' < N →
      content' s' i' = if s' = s ∧ i' = i then some c else content s' i')
    (hnone : r = none → active c = false) (hsome : ∀ q p, r = some (q, p) → Phase q p c) :
    Stocked active Phase H N content' (L.put s i r) where
  slot s' i' hs' hi' := by
    rw [hc s' i' hs' hi', Layout.put]
    split
    · exact ⟨c, rfl, hnone, hsome⟩
    · exact h.slot s' i' hs' hi'
  outside s' i' hout := by
    rw [Layout.put, if_neg fun ⟨h1, h2⟩ => hout ⟨h1 ▸ hs, h2 ▸ hi⟩]
    exact h.outside s' i' hout

/-- The books of a pipeline whose queries take `steps` steps. -/
structure Register (ans : List (Option V)) (prior : Out V) (steps : Nat) (L : Layout)
    (next finished : Nat) (out : Out V) (log : List Event) : Prop where
  /-- Only queries of the batch enter. -/
  next_le : next ≤ ans.length
  /-- Only queries that entered are retired. -/
  finished_le : finished ≤ next
  /-- The queries in the stages have entered and are not retired. -/
  bounds : ∀ s i q p, L s i = some (q, p) → finished ≤ q ∧ q < next
  /-- No query is in two slots. -/
  inj : ∀ s i s' i' q p p', L s i = some (q, p) → L s' i' = some (q, p') → s' = s ∧ i' = i
  /-- The retired queries are the ones answered. -/
  out_eq : out = progress ans prior (· < finished)
  /-- A query entered once if it is below `next`, and never otherwise. -/
  dispatched : ∀ q, log.count (.dispatch q) = if q < next then 1 else 0
  /-- A query was retired once if it is below `finished`, and never otherwise. -/
  retired : ∀ q, log.count (.finish q) = if q < finished then 1 else 0
  /-- The steps of a query in the stages. -/
  advanced : ∀ s i q p, L s i = some (q, p) → log.count (.advance q) = p
  /-- The steps of a retired query. -/
  complete : ∀ q, q < finished → log.count (.advance q) = steps
  /-- No query takes a step before it enters. -/
  untouched : ∀ q, next ≤ q → log.count (.advance q) = 0

section Register

variable {ans : List (Option V)} {prior : Out V} {steps : Nat} {L : Layout}
  {next finished : Nat} {out : Out V} {log : List Event}

theorem Register.empty :
    Register ans prior steps (fun _ _ => none) 0 0 prior [] where
  next_le := Nat.zero_le _
  finished_le := Nat.le_refl _
  bounds _ _ _ _ h := nomatch h
  inj _ _ _ _ _ _ _ h := nomatch h
  out_eq := (progress_none fun i => by simp).symm
  dispatched := by simp
  retired := by simp
  advanced _ _ _ _ h := nomatch h
  complete := by simp
  untouched := by simp

theorem Register.retire {s i : Nat} {out' : Out V}
    (h : Register ans prior steps L next finished out log) (hL : L s i = some (finished, steps))
    (hout : out' = progress ans prior (· < finished + 1)) :
    Register ans prior steps (L.put s i none) next (finished + 1) out'
      (log ++ [.finish finished]) := by
  have hlt := (h.bounds s i _ _ hL).2
  refine ⟨h.next_le, hlt, fun s' i' q p hq => ?_, fun s' i' s'' i'' q p p' hq hq' => ?_, hout,
    fun q => ?_, fun q => ?_, fun s' i' q p hq => ?_, fun q hq => ?_, fun q hq => ?_⟩
  · obtain ⟨_, _, hc⟩ | ⟨hne, hq⟩ := Layout.put_eq_some hq
    · cases hc
    · obtain ⟨h1, h2⟩ := h.bounds s' i' q p hq
      refine ⟨Nat.lt_of_le_of_ne h1 ?_, h2⟩
      rintro rfl
      exact hne (h.inj s i s' i' _ _ _ hL hq)
  · obtain ⟨_, _, hc⟩ | ⟨_, hq⟩ := Layout.put_eq_some hq
    · cases hc
    · obtain ⟨_, _, hc⟩ | ⟨_, hq'⟩ := Layout.put_eq_some hq'
      · cases hc
      · exact h.inj s' i' s'' i'' q p p' hq hq'
  · rw [List.count_append, h.dispatched q]
    simp
  · rw [List.count_append, h.retired q, List.count_singleton]
    by_cases hq : q = finished
    · subst hq
      simp
    · have hne : (Event.finish finished == Event.finish q) = false := by simpa using Ne.symm hq
      rw [hne]
      by_cases hlt' : q < finished
      · simp [hlt', Nat.lt_succ_of_lt hlt']
      · simp [hlt', show ¬ q < finished + 1 by omega]
  · obtain ⟨_, _, hc⟩ | ⟨_, hq⟩ := Layout.put_eq_some hq
    · cases hc
    · rw [List.count_append, h.advanced s' i' q p hq]
      simp
  · rw [List.count_append]
    rcases Nat.lt_succ_iff_lt_or_eq.mp hq with hq | rfl
    · rw [h.complete q hq]
      simp
    · rw [h.advanced s i q steps hL]
      simp
  · rw [List.count_append, h.untouched q hq]
    simp

theorem Register.advance {s i q p : Nat} (h : Register ans prior steps L next finished out log)
    (hL : L s i = some (q, p)) :
    Register ans prior steps (L.put s i (some (q, p + 1))) next finished out
      (log ++ [.advance q]) := by
  obtain ⟨hge, hlt⟩ := h.bounds s i q p hL
  have hother : ∀ q', q' ≠ q → (log ++ [Event.advance q]).count (.advance q') =
      log.count (.advance q') := by
    intro q' hq'
    have hne : (Event.advance q == Event.advance q') = false := by simpa using Ne.symm hq'
    rw [List.count_append, List.count_singleton, hne]
    simp
  refine ⟨h.next_le, h.finished_le, fun s' i' q' p' hq => ?_,
    fun s' i' s'' i'' q' p' p'' hq hq' => ?_, h.out_eq, fun q => ?_, fun q => ?_,
    fun s' i' q' p' hq => ?_, fun q' hq => ?_, fun q' hq => ?_⟩
  · obtain ⟨_, _, hc⟩ | ⟨_, hq⟩ := Layout.put_eq_some hq
    · cases hc
      exact ⟨hge, hlt⟩
    · exact h.bounds s' i' q' p' hq
  · obtain ⟨rfl, rfl, hc⟩ | ⟨_, h₁⟩ := Layout.put_eq_some hq
    · cases hc
      obtain ⟨rfl, rfl, _⟩ | ⟨_, h₂⟩ := Layout.put_eq_some hq'
      · exact ⟨rfl, rfl⟩
      · exact h.inj _ _ _ _ _ _ _ hL h₂
    · obtain ⟨rfl, rfl, hc⟩ | ⟨_, h₂⟩ := Layout.put_eq_some hq'
      · cases hc
        exact h.inj _ _ _ _ _ _ _ h₁ hL
      · exact h.inj _ _ _ _ _ _ _ h₁ h₂
  · rw [List.count_append, h.dispatched q]
    simp
  · rw [List.count_append, h.retired q]
    simp
  · obtain ⟨_, _, hc⟩ | ⟨hne, h₁⟩ := Layout.put_eq_some hq
    · cases hc
      rw [List.count_append, h.advanced s i q p hL]
      simp
    · rw [hother q', h.advanced s' i' q' p' h₁]
      rintro rfl
      exact hne (h.inj _ _ _ _ _ _ _ hL h₁)
  · rw [hother q' (by omega), h.complete q' hq]
  · rw [hother q' (by omega), h.untouched q' hq]

theorem Register.load {s i : Nat} (h : Register ans prior steps L next finished out log)
    (hn : next < ans.length) :
    Register ans prior steps (L.put s i (some (next, 0))) (next + 1) finished out
      (log ++ [.dispatch next]) := by
  have hadv : ∀ q, (log ++ [Event.dispatch next]).count (.advance q) = log.count (.advance q) := by
    intro q
    rw [List.count_append]
    simp
  refine ⟨hn, Nat.le_succ_of_le h.finished_le, fun s' i' q p hq => ?_,
    fun s' i' s'' i'' q p p' hq hq' => ?_, h.out_eq, fun q => ?_, fun q => ?_,
    fun s' i' q p hq => ?_, fun q hq => ?_, fun q hq => ?_⟩
  · obtain ⟨_, _, hc⟩ | ⟨_, hq⟩ := Layout.put_eq_some hq
    · cases hc
      exact ⟨h.finished_le, Nat.lt_succ_self _⟩
    · have := h.bounds s' i' q p hq
      omega
  · obtain ⟨rfl, rfl, hc⟩ | ⟨_, h₁⟩ := Layout.put_eq_some hq
    · cases hc
      obtain ⟨rfl, rfl, _⟩ | ⟨_, h₂⟩ := Layout.put_eq_some hq'
      · exact ⟨rfl, rfl⟩
      · exact absurd (h.bounds _ _ _ _ h₂).2 (Nat.lt_irrefl _)
    · obtain ⟨rfl, rfl, hc⟩ | ⟨_, h₂⟩ := Layout.put_eq_some hq'
      · cases hc
        exact absurd (h.bounds _ _ _ _ h₁).2 (Nat.lt_irrefl _)
      · exact h.inj _ _ _ _ _ _ _ h₁ h₂
  · rw [List.count_append, h.dispatched q, List.count_singleton]
    by_cases hq : q = next
    · subst hq
      simp
    · have hne : (Event.dispatch next == Event.dispatch q) = false := by simpa using Ne.symm hq
      rw [hne]
      by_cases hlt : q < next
      · simp [hlt, Nat.lt_succ_of_lt hlt]
      · simp [hlt, show ¬ q < next + 1 by omega]
  · rw [List.count_append, h.retired q]
    simp
  · rw [hadv]
    obtain ⟨_, _, hc⟩ | ⟨_, hq⟩ := Layout.put_eq_some hq
    · cases hc
      exact h.untouched next (Nat.le_refl _)
    · exact h.advanced s' i' q p hq
  · rw [hadv, h.complete q hq]
  · rw [hadv, h.untouched q (by omega)]

/-- Queries that change places, without being doubled, keep the books right. -/
theorem Register.relabel {L' : Layout} (h : Register ans prior steps L next finished out log)
    (f : Nat → Nat → Nat) (hf : ∀ s i r, L' s i = some r → L (f s i) i = some r)
    (hinj : ∀ s s' i r r', L' s i = some r → L' s' i = some r' → f s' i = f s i → s' = s) :
    Register ans prior steps L' next finished out log where
  next_le := h.next_le
  finished_le := h.finished_le
  bounds s i q p hq := h.bounds _ _ _ _ (hf s i _ hq)
  inj s i s' i' q p p' hq hq' := by
    obtain ⟨h1, rfl⟩ := h.inj _ _ _ _ _ _ _ (hf s i _ hq) (hf s' i' _ hq')
    exact ⟨hinj _ _ _ _ _ hq hq' h1, rfl⟩
  out_eq := h.out_eq
  dispatched := h.dispatched
  retired := h.retired
  advanced s i q p hq := h.advanced _ _ _ _ (hf s i _ hq)
  complete := h.complete
  untouched := h.untouched

theorem Register.shift (h : Register ans prior steps L next finished out log) :
    Register ans prior steps L.shift next finished out log := by
  refine h.relabel (fun s _ => s - 1) (fun s i r hr => ?_) (fun s s' i r r' hr hr' hs => ?_)
  · cases s with
    | zero => cases hr
    | succ s => exact hr
  · cases s with
    | zero => cases hr
    | succ s =>
        cases s' with
        | zero => cases hr'
        | succ s' => simp only [Nat.add_sub_cancel] at hs; rw [hs]

/-- A query may move to the next stage. -/
theorem Register.move {s i : Nat} (h : Register ans prior steps L next finished out log) :
    Register ans prior steps ((L.put s i none).put (s + 1) i (L s i)) next finished out log := by
  have hcases : ∀ s' i' r, (L.put s i none).put (s + 1) i (L s i) s' i' = some r →
      (s' = s + 1 ∧ i' = i ∧ L s i = some r) ∨
        (¬ (s' = s + 1 ∧ i' = i) ∧ ¬ (s' = s ∧ i' = i) ∧ L s' i' = some r) := by
    intro s' i' r hr
    obtain ⟨h1, h2, hr⟩ | ⟨hne, hr⟩ := Layout.put_eq_some hr
    · exact Or.inl ⟨h1, h2, hr⟩
    · obtain ⟨_, _, hr⟩ | ⟨hne', hr⟩ := Layout.put_eq_some hr
      · cases hr
      · exact Or.inr ⟨hne, hne', hr⟩
  refine h.relabel (fun s' i' => if s' = s + 1 ∧ i' = i then s else s') (fun s' i' r hr => ?_)
    (fun s' s'' i' r r' hr hr' he => ?_)
  · obtain ⟨rfl, rfl, hr⟩ | ⟨hne, _, hr⟩ := hcases s' i' r hr
    · rwa [if_pos ⟨rfl, rfl⟩]
    · rwa [if_neg hne]
  · obtain ⟨h1, h2, _⟩ | ⟨hne, hne', _⟩ := hcases s' i' r hr
    · obtain ⟨h3, _, _⟩ | ⟨hne₂, hne₂', _⟩ := hcases s'' i' r' hr'
      · exact h3.trans h1.symm
      · rw [if_neg hne₂, if_pos ⟨h1, h2⟩] at he
        exact absurd ⟨he, h2⟩ hne₂'
    · obtain ⟨h3, h4, _⟩ | ⟨hne₂, _, _⟩ := hcases s'' i' r' hr'
      · rw [if_neg hne, if_pos ⟨h3, h4⟩] at he
        exact absurd ⟨he.symm, h4⟩ hne'
      · rwa [if_neg hne, if_neg hne₂] at he

/-- Once every query is retired the batch is answered, and every query entered once, took all
its steps and was retired once. -/
theorem Register.final (h : Register ans prior steps L next finished out log)
    (hf : ans.length ≤ finished) :
    out = answered ans prior ∧ ∀ q, q < ans.length → log.count (.dispatch q) = 1 ∧
      log.count (.advance q) = steps ∧ log.count (.finish q) = 1 := by
  have h1 := h.finished_le
  have h2 := h.next_le
  refine ⟨?_, fun q hq => ⟨?_, h.complete q (by omega), ?_⟩⟩
  · rw [h.out_eq]
    exact progress_all fun i => by omega
  · rw [h.dispatched q, if_pos (by omega)]
  · rw [h.retired q, if_pos (by omega)]

end Register

/-! ## The layout of each round -/

/-- What slot `i` of stage `s` holds at the start of round `t`. -/
def due (H first N n t : Nat) : Layout := fun s i =>
  if s ≤ H ∧ i < N ∧ s < t ∧ (t - 1 - s) * N + i < n then some ((t - 1 - s) * N + i, s - first)
  else none

theorem due_eq_some {H first N n t s i : Nat} {r : Nat × Nat} (h : due H first N n t s i = some r) :
    s ≤ H ∧ i < N ∧ s < t ∧ (t - 1 - s) * N + i < n ∧ r = ((t - 1 - s) * N + i, s - first) := by
  rw [due] at h
  split at h
  · rename_i hc
    exact ⟨hc.1, hc.2.1, hc.2.2.1, hc.2.2.2, (Option.some.inj h).symm⟩
  · cases h

/-- A stage of round `t` after its first `k` slots have been changed by `g`. -/
def upTo (L : Layout) (s k : Nat) (g : Nat → Option (Nat × Nat) → Option (Nat × Nat)) : Layout :=
  fun s' i => if s' = s ∧ i < k then g i (L s' i) else L s' i

@[simp] theorem upTo_zero (L : Layout) (s : Nat)
    (g : Nat → Option (Nat × Nat) → Option (Nat × Nat)) : upTo L s 0 g = L := by
  funext s' i
  simp [upTo]

theorem upTo_self (L : Layout) (s k : Nat)
    (g : Nat → Option (Nat × Nat) → Option (Nat × Nat)) : upTo L s k g s k = L s k := by
  simp [upTo]

theorem upTo_succ (L : Layout) (s k : Nat)
    (g : Nat → Option (Nat × Nat) → Option (Nat × Nat)) :
    (upTo L s k g).put s k (g k (L s k)) = upTo L s (k + 1) g := by
  funext s' i
  simp only [Layout.put, upTo]
  by_cases hs : s' = s
  · subst hs
    rcases Nat.lt_trichotomy i k with h | rfl | h
    · simp [h, h.ne, Nat.lt_succ_of_lt h]
    · simp
    · simp [h.ne', show ¬ i < k by omega, show ¬ i < k + 1 by omega]
  · simp [hs]

/-! ## The slots behind the pointers -/

/-- The buffers have the right sizes, and the pointers are a permutation of them. -/
structure PipeState.Shape (st : PipeState S V) (H N : Nat) : Prop where
  /-- One pointer for each buffer. -/
  perm : st.stages.Perm (List.range (H + 1))
  /-- One buffer for each stage. -/
  length_eq : st.memory.length = H + 1
  /-- The size of the buffers. -/
  buffer : ∀ buffer ∈ st.memory, buffer.length = N

namespace PipeState.Shape

variable {st : PipeState S V} {H N : Nat}

theorem length_stages (h : st.Shape H N) : st.stages.length = H + 1 := by
  rw [h.perm.length_eq, List.length_range]

/-- The buffer of a stage. -/
theorem stage (h : st.Shape H N) {s : Nat} (hs : s ≤ H) :
    ∃ b buffer, st.stages[s]? = some b ∧ b < st.memory.length ∧ st.memory[b]? = some buffer ∧
      buffer.length = N := by
  obtain ⟨b, hb⟩ : ∃ b, st.stages[s]? = some b :=
    ⟨_, List.getElem?_eq_getElem (by rw [h.length_stages]; omega)⟩
  have hmem : b < H + 1 := List.mem_range.mp (h.perm.mem_iff.mp (List.mem_of_getElem? hb))
  have hlt : b < st.memory.length := by rw [h.length_eq]; exact hmem
  exact ⟨b, _, hb, hlt, List.getElem?_eq_getElem hlt, h.buffer _ (List.getElem_mem hlt)⟩

theorem getSlot (h : st.Shape H N) {s i : Nat} (hs : s ≤ H) {c : S}
    (hc : st.content s i = some c) : (st.getSlot s i).Returns c := by
  obtain ⟨b, buffer, hb, _, hbuffer, _⟩ := h.stage hs
  rw [content, hb, Option.bind_some, hbuffer, Option.bind_some] at hc
  exact (returns_read.mpr hb).bind ((returns_read.mpr hbuffer).bind (returns_read.mpr hc))

/-- A write changes the slot it is meant for and no other, since no two stages share a buffer. -/
theorem setSlot (h : st.Shape H N) {s i : Nat} (hs : s ≤ H) (hi : i < N) (c : S) :
    ∃ memory, (st.setSlot s i c).Returns { st with memory := memory } ∧
      ({ st with memory := memory } : PipeState S V).Shape H N ∧
      ∀ s' i', s' ≤ H → i' < N →
        ({ st with memory := memory } : PipeState S V).content s' i' =
          if s' = s ∧ i' = i then some c else st.content s' i' := by
  obtain ⟨b, buffer, hb, hlt, hbuffer, hlen⟩ := h.stage hs
  have hi' : i < buffer.length := by rw [hlen]; exact hi
  refine ⟨st.memory.set b (buffer.set i c), ?_, ⟨h.perm, ?_, ?_⟩, ?_⟩
  · rw [PipeState.setSlot]
    refine (returns_read.mpr hb).bind ((returns_read.mpr hbuffer).bind ?_)
    refine (returns_write.mpr ⟨hi', rfl⟩).bind ((returns_write.mpr ⟨hlt, rfl⟩).bind ?_)
    exact returns_pure.mpr rfl
  · rw [List.length_set]
    exact h.length_eq
  · intro buffer' hmem
    rcases List.mem_or_eq_of_mem_set hmem with hmem | rfl
    · exact h.buffer buffer' hmem
    · rw [List.length_set]
      exact hlen
  · intro s' i' hs' hi''
    obtain ⟨b', buffer', hb', _, hbuffer', _⟩ := h.stage hs'
    simp only [content, hb', Option.bind_some]
    by_cases hbb : b' = b
    · -- pointers to one buffer belong to one stage
      subst hbb
      have hss : s' = s := by
        have hnd := h.perm.nodup_iff.mpr List.nodup_range
        obtain ⟨h1, e1⟩ := List.getElem?_eq_some_iff.mp hb'
        obtain ⟨h2, e2⟩ := List.getElem?_eq_some_iff.mp hb
        exact (hnd.getElem_inj_iff).mp (e1.trans e2.symm)
      subst hss
      rw [List.getElem?_set_self hlt, Option.bind_some, hbuffer, Option.bind_some]
      by_cases hii : i' = i
      · subst hii
        simp [List.getElem?_set_self hi']
      · simp [hii, List.getElem?_set_ne (Ne.symm hii)]
    · rw [List.getElem?_set_ne (Ne.symm hbb), hbuffer', Option.bind_some, if_neg]
      rintro ⟨rfl, _⟩
      exact hbb (Option.some.inj (hb'.symm.trans hb))

end PipeState.Shape

/-- The pipeline is in order: pointers, slots and books agree with the layout. -/
structure PipeState.Valid (C : Conveyor S V) (ans : List (Option V)) (prior : Out V)
    (Phase : Nat → Nat → S → Prop) (steps H N : Nat) (st : PipeState S V) (L : Layout) :
    Prop where
  /-- The pointers. -/
  shape : st.Shape H N
  /-- The slots. -/
  stocked : Stocked C.active Phase H N st.content L
  /-- The books. -/
  register : Register ans prior steps L st.nextQueryIdx st.finishedCount st.out st.log

section Sound

variable {C : Conveyor S V} {ans : List (Option V)} {prior : Out V}
  {Phase : Nat → Nat → S → Prop} {steps H N : Nat} {st : PipeState S V} {L : Layout}

/-- Retiring a slot: nothing to do without a query, and the next query in order otherwise. -/
theorem Conveyor.Sound.retireSlot (hC : C.Sound ans prior Phase steps)
    (h : st.Valid C ans prior Phase steps H N L) {i : Nat}
    (hi : i < N) (hL : L H i = none ∨ L H i = some (st.finishedCount, steps)) :
    (C.retireSlot H i st).Ensures fun st' =>
      st'.Valid C ans prior Phase steps H N (L.put H i none) ∧
        st'.nextQueryIdx = st.nextQueryIdx ∧
        st'.finishedCount = st.finishedCount + if L H i = none then 0 else 1 := by
  obtain ⟨c, hc, hnone, hsome⟩ := h.stocked.slot H i (Nat.le_refl H) hi
  rw [Conveyor.retireSlot]
  refine (h.shape.getSlot (Nat.le_refl H) hc).seq ?_
  rcases hL with hL | hL
  · rw [if_neg (by simp [hnone hL])]
    exact Ensures.pure ⟨by rw [Layout.put_self hL]; exact h, rfl, by simp [hL]⟩
  · have hph := hsome _ _ hL
    have hlt : st.finishedCount < ans.length :=
      (h.register.bounds _ _ _ _ hL).2.trans_le h.register.next_le
    obtain ⟨hact, hidx⟩ := hC.phase _ _ _ hph
    rw [if_pos hact]
    have hret := (hC.retire c _ hlt hph).next
    rw [← h.register.out_eq] at hret
    obtain ⟨memory, hset, hshape, hcontent⟩ :=
      h.shape.setSlot (Nat.le_refl H) hi (C.clear c)
    refine hret.seq (hset.seq (Ensures.pure
      ⟨⟨⟨hshape.perm, hshape.length_eq, hshape.buffer⟩, ?_, ?_⟩, rfl, by simp [hL]⟩))
    · exact h.stocked.put (Nat.le_refl H) hi hcontent (fun _ => hC.clear c) (by simp)
    · rw [hidx]
      exact h.register.retire hL rfl

/-- A step for a slot. -/
theorem Conveyor.Sound.advanceSlot (hC : C.Sound ans prior Phase steps)
    (h : st.Valid C ans prior Phase steps H N L) {s i : Nat} (hs : s ≤ H) (hi : i < N)
    (hL : ∀ q p, L s i = some (q, p) → p < steps) :
    (C.advanceSlot s i st).Ensures fun st' =>
      st'.Valid C ans prior Phase steps H N
          (L.put s i ((L s i).map fun r => (r.1, r.2 + 1))) ∧
        st'.nextQueryIdx = st.nextQueryIdx ∧ st'.finishedCount = st.finishedCount := by
  obtain ⟨c, hc, hnone, hsome⟩ := h.stocked.slot s i hs hi
  rw [Conveyor.advanceSlot]
  refine (h.shape.getSlot hs hc).seq ?_
  cases hr : L s i with
  | none =>
      rw [if_neg (by simp [hnone hr])]
      exact Ensures.pure ⟨by rw [Option.map_none, Layout.put_self hr]; exact h, rfl, rfl⟩
  | some r =>
      obtain ⟨q, p⟩ := r
      have hph := hsome q p hr
      have hlt : q < ans.length := (h.register.bounds _ _ _ _ hr).2.trans_le h.register.next_le
      obtain ⟨hact, hidx⟩ := hC.phase _ _ _ hph
      rw [if_pos hact]
      refine Ensures.bind (hC.advance c q p hlt (hL q p hr) hph) fun c' hc' => ?_
      obtain ⟨memory, hset, hshape, hcontent⟩ := h.shape.setSlot hs hi c'
      refine hset.seq (Ensures.pure ⟨⟨⟨hshape.perm, hshape.length_eq, hshape.buffer⟩, ?_, ?_⟩,
        rfl, rfl⟩)
      · refine h.stocked.put hs hi hcontent (by simp) ?_
        rintro q' p' ⟨⟩
        exact hc'
      · rw [hidx]
        exact h.register.advance hr

/-- Filling a slot of stage 0. -/
theorem Conveyor.Sound.refillSlot (hC : C.Sound ans prior Phase steps)
    (h : st.Valid C ans prior Phase steps H N L) {i : Nat} (hi : i < N) :
    (C.refillSlot ans.length i st).Ensures fun st' =>
      st'.Valid C ans prior Phase steps H N
          (L.put 0 i (if st.nextQueryIdx < ans.length then some (st.nextQueryIdx, 0) else none)) ∧
        st'.nextQueryIdx = min ans.length (st.nextQueryIdx + 1) ∧
        st'.finishedCount = st.finishedCount := by
  obtain ⟨c, hc, _, _⟩ := h.stocked.slot 0 i (Nat.zero_le H) hi
  have hle := h.register.next_le
  rw [Conveyor.refillSlot]
  refine (h.shape.getSlot (Nat.zero_le H) hc).seq ?_
  by_cases hn : st.nextQueryIdx < ans.length
  · rw [if_pos hn, if_pos hn]
    refine Ensures.bind (hC.load c _ hn) fun c' hc' => ?_
    obtain ⟨memory, hset, hshape, hcontent⟩ := h.shape.setSlot (Nat.zero_le H) hi c'
    refine hset.seq (Ensures.pure ⟨⟨⟨hshape.perm, hshape.length_eq, hshape.buffer⟩, ?_, ?_⟩, ?_,
      rfl⟩)
    · refine h.stocked.put (Nat.zero_le H) hi hcontent (by simp) ?_
      rintro q p ⟨⟩
      exact hc'
    · exact h.register.load hn
    · show st.nextQueryIdx + 1 = _
      omega
  · rw [if_neg hn, if_neg hn]
    obtain ⟨memory, hset, hshape, hcontent⟩ := h.shape.setSlot (Nat.zero_le H) hi (C.clear c)
    refine hset.ensures ⟨⟨hshape, ?_, ?_⟩, ?_, rfl⟩
    · exact h.stocked.put (Nat.zero_le H) hi hcontent (fun _ => hC.clear c) (by simp)
    · refine h.register.relabel (fun s _ => s) (fun s i' r hr => ?_) (fun _ _ _ _ _ _ _ he => he)
      obtain ⟨_, _, hr⟩ | ⟨_, hr⟩ := Layout.put_eq_some hr
      · cases hr
      · exact hr
    · show st.nextQueryIdx = _
      omega

/-- Rotating the pointers moves every stage up by one, and the last one to the bottom. -/
theorem PipeState.Shape.rotate (h : st.Shape H N) :
    ∃ stages, (Conveyor.rotate H st).Returns { st with stages := stages } ∧
      ({ st with stages := stages } : PipeState S V).Shape H N ∧
      ∀ i, ({ st with stages := stages } : PipeState S V).content 0 i = st.content H i ∧
        ∀ s, s < H →
          ({ st with stages := stages } : PipeState S V).content (s + 1) i = st.content s i := by
  have hlen := h.length_stages
  obtain ⟨e, he⟩ : ∃ e, st.stages[H]? = some e :=
    ⟨_, List.getElem?_eq_getElem (by rw [hlen]; omega)⟩
  obtain ⟨xs, hxs, hxlen, hx⟩ : (forRange H (fun j (stages : List Nat) => do
        let b ← read stages (H - j - 1)
        write stages (H - j) b) st.stages).Ensures fun xs : List Nat => xs.length = H + 1 ∧
      ∀ s, s ≤ H → xs[s]? = if H - H < s then st.stages[s - 1]? else st.stages[s]? := by
    refine Ensures.forRange (fun j (xs : List Nat) => xs.length = H + 1 ∧
        ∀ s, s ≤ H → xs[s]? = if H - j < s then st.stages[s - 1]? else st.stages[s]?)
      ⟨hlen, fun s hs => by rw [if_neg (by omega)]⟩ fun j hj xs ⟨hxlen, hx⟩ => by
      obtain ⟨b, hb⟩ : ∃ b, xs[H - j - 1]? = some b :=
        ⟨_, List.getElem?_eq_getElem (by omega)⟩
      refine (returns_read.mpr hb).seq (Ensures.write (by omega) ⟨by simp [hxlen], fun s hs => ?_⟩)
      rw [hx _ (by omega), if_neg (by omega)] at hb
      by_cases hsj : H - j = s
      · subst hsj
        rw [List.getElem?_set_self (by omega), if_pos (by omega), hb]
      · rw [List.getElem?_set_ne hsj, hx s hs]
        by_cases hlt : H - j < s
        · rw [if_pos hlt, if_pos (by omega)]
        · rw [if_neg hlt, if_neg (by omega)]
  have hget : ∀ s, s < H → (xs.set 0 e)[s + 1]? = st.stages[s]? := by
    intro s hs
    rw [List.getElem?_set_ne (by omega), hx (s + 1) (by omega), if_pos (by omega)]
    rfl
  have hget0 : (xs.set 0 e)[0]? = some e := List.getElem?_set_self (by omega)
  have hcons : xs.set 0 e = e :: st.stages.take H := by
    refine List.ext_getElem? fun s => ?_
    cases s with
    | zero => exact hget0
    | succ s =>
        rw [List.getElem?_cons_succ]
        by_cases hs : s < H
        · rw [hget s hs, List.getElem?_take_of_lt hs]
        · rw [List.getElem?_eq_none (by simp; omega), List.getElem?_eq_none (by simp; omega)]
  have hsplit : st.stages.take H ++ [e] = st.stages := by
    have hH : H < st.stages.length := by omega
    obtain ⟨_, rfl⟩ := List.getElem?_eq_some_iff.mp he
    rw [List.take_append_getElem, List.take_of_length_le (by omega)]
  refine ⟨xs.set 0 e, ?_, ⟨?_, h.length_eq, h.buffer⟩, fun i => ⟨?_, fun s hs => ?_⟩⟩
  · rw [Conveyor.rotate]
    refine (returns_read.mpr he).bind (hxs.bind ?_)
    exact (returns_write.mpr ⟨by omega, rfl⟩).bind (returns_pure.mpr rfl)
  · refine List.Perm.trans ?_ h.perm
    show (xs.set 0 e).Perm st.stages
    rw [hcons]
    nth_rewrite 2 [← hsplit]
    exact (List.perm_append_singleton e _).symm
  · simp only [PipeState.content]
    rw [hget0, he]
  · simp only [PipeState.content]
    rw [hget s hs]

theorem PipeState.Valid.rotate (h : st.Valid C ans prior Phase steps H N L)
    (hL : ∀ i, L H i = none) :
    (Conveyor.rotate H st).Ensures fun st' =>
      st'.Valid C ans prior Phase steps H N L.shift ∧
        st'.nextQueryIdx = st.nextQueryIdx ∧ st'.finishedCount = st.finishedCount := by
  obtain ⟨stages, hr, hshape, hcontent⟩ := h.shape.rotate
  refine hr.ensures ⟨⟨hshape, ⟨fun s i hs hi => ?_, fun s i hout => ?_⟩, h.register.shift⟩,
    rfl, rfl⟩
  · cases s with
    | zero =>
        obtain ⟨c, hc, hnone, _⟩ := h.stocked.slot H i (Nat.le_refl H) hi
        exact ⟨c, (hcontent i).1.trans hc, fun _ => hnone (hL i), fun q p hq => nomatch hq⟩
    | succ s =>
        rw [(hcontent i).2 s hs]
        exact h.stocked.slot s i (by omega) hi
  · cases s with
    | zero => rfl
    | succ s =>
        by_cases hs : s = H
        · subst hs
          exact hL i
        · exact h.stocked.outside s i (by omega)

/-! ## Rounds -/

/-- The pipeline at the start of round `t`. -/
structure PipeState.At (C : Conveyor S V) (ans : List (Option V)) (prior : Out V)
    (Phase : Nat → Nat → S → Prop) (H first N t : Nat) (st : PipeState S V) : Prop where
  /-- The slots hold what is due. -/
  valid : st.Valid C ans prior Phase (H - first) H N (due H first N ans.length t)
  /-- `N` queries have entered in each round. -/
  next_eq : st.nextQueryIdx = min ans.length (t * N)
  /-- And left `H + 1` rounds later. -/
  finished_eq : st.finishedCount = min ans.length ((t - (H + 1)) * N)

variable {first t : Nat}

theorem due_shift (hfirst : first ≤ 1) (n : Nat) :
    Layout.shift (fun s i => if H ≤ s then none else
        if first ≤ s then (due H first N n t s i).map fun r => (r.1, r.2 + 1)
        else due H first N n t s i) =
      fun s i => if s = 0 then none else due H first N n (t + 1) s i := by
  funext s i
  cases s with
  | zero => rfl
  | succ s =>
      simp only [Layout.shift, Nat.succ_ne_zero, if_false]
      by_cases hs : H ≤ s
      · rw [if_pos hs, due, if_neg (by omega)]
      · rw [if_neg hs]
        by_cases hc : i < N ∧ s < t ∧ (t - 1 - s) * N + i < n
        · have h1 : due H first N n t s i = some ((t - 1 - s) * N + i, s - first) :=
            if_pos ⟨by omega, hc⟩
          have h2 : due H first N n (t + 1) (s + 1) i =
              some ((t - 1 - s) * N + i, s + 1 - first) := by
            rw [due, show t + 1 - 1 - (s + 1) = t - 1 - s by omega]
            exact if_pos ⟨by omega, hc.1, by omega, hc.2.2⟩
          rw [h1, h2]
          split
          · simp only [Option.map_some]
            congr 2
            omega
          · congr 2
            omega
        · have h1 : due H first N n t s i = none := if_neg fun h => hc h.2
          have h2 : due H first N n (t + 1) (s + 1) i = none := by
            rw [due, show t + 1 - 1 - (s + 1) = t - 1 - s by omega]
            exact if_neg fun h => hc ⟨h.2.1, by omega, h.2.2.2⟩
          rw [h1, h2]
          simp

theorem Conveyor.Sound.retireStage (hC : C.Sound ans prior Phase (H - first))
    (h : st.At C ans prior Phase H first N t) :
    (forRange N (C.retireSlot H) st).Ensures fun st' =>
      st'.Valid C ans prior Phase (H - first) H N
          (fun s i => if H ≤ s then none else due H first N ans.length t s i) ∧
        st'.nextQueryIdx = min ans.length (t * N) ∧
        st'.finishedCount = min ans.length ((t + 1 - (H + 1)) * N) := by
  have htH : t - 1 - H = t - (H + 1) := by omega
  refine (Ensures.forRange (fun k (st' : PipeState S V) =>
    st'.Valid C ans prior Phase (H - first) H N
        (upTo (due H first N ans.length t) H k fun _ _ => none) ∧
      st'.nextQueryIdx = min ans.length (t * N) ∧
      st'.finishedCount = min ans.length ((t - (H + 1)) * N + if H < t then k else 0))
    ⟨by rw [upTo_zero]; exact h.valid, h.next_eq, by rw [h.finished_eq]; simp⟩
    fun k hk st' ⟨hv, hn, hf⟩ => ?_).mono ?_
  · have hdue : due H first N ans.length t H k =
        if H < t ∧ (t - (H + 1)) * N + k < ans.length then
          some ((t - (H + 1)) * N + k, H - first) else none := by
      rw [due, htH]
      by_cases hc : H < t ∧ (t - (H + 1)) * N + k < ans.length
      · rw [if_pos ⟨Nat.le_refl H, hk, hc⟩, if_pos hc]
      · rw [if_neg fun hc' => hc hc'.2.2, if_neg hc]
    refine (hC.retireSlot hv hk ?_).mono ?_
    · rw [upTo_self, hdue, hf]
      by_cases hc : H < t ∧ (t - (H + 1)) * N + k < ans.length
      · refine Or.inr ?_
        rw [if_pos hc, if_pos hc.1]
        congr 2
        omega
      · exact Or.inl (if_neg hc)
    · rintro st₁ ⟨hv₁, hn₁, hf₁⟩
      rw [upTo_succ (g := fun _ _ => none)] at hv₁
      refine ⟨hv₁, hn₁.trans hn, ?_⟩
      rw [hf₁, hf, upTo_self, hdue]
      by_cases hc : H < t
      · by_cases hc' : (t - (H + 1)) * N + k < ans.length
        · simp only [hc, hc', and_self, if_true, reduceCtorEq, if_false]
          omega
        · simp only [hc, hc', and_false, if_true, if_false]
          omega
      · simp only [hc, false_and, if_true, if_false, Nat.add_zero]
  · rintro st' ⟨hv, hn, hf⟩
    refine ⟨?_, hn, ?_⟩
    · have hlast : (upTo (due H first N ans.length t) H N fun _ _ => none) =
          fun s i => if H ≤ s then none else due H first N ans.length t s i := by
        funext s i
        simp only [upTo, due]
        by_cases hs : H ≤ s
        · rw [if_pos hs]
          by_cases hs' : s = H ∧ i < N
          · rw [if_pos hs']
          · rw [if_neg hs', if_neg fun hc => hs' ⟨by omega, hc.2.1⟩]
        · rw [if_neg hs, if_neg fun hc => hs (by omega)]
      rw [← hlast]
      exact hv
    · rw [hf]
      by_cases hc : H < t
      · rw [if_pos hc, show t + 1 - (H + 1) = t - (H + 1) + 1 by omega, Nat.succ_mul]
      · rw [if_neg hc, show t - (H + 1) = 0 by omega, show t + 1 - (H + 1) = 0 by omega,
          Nat.add_zero]

/-- The layout of a round in which the stages from `H - j` on have taken their step. -/
def stepped (H first N n t j : Nat) : Layout := fun s i =>
  if H ≤ s then none else
    if H - j ≤ s then (due H first N n t s i).map fun r => (r.1, r.2 + 1)
    else due H first N n t s i

section Stepped

variable {H first N n t j : Nat}

theorem stepped_zero : stepped H first N n t 0 =
    fun s i => if H ≤ s then none else due H first N n t s i := by
  funext s i
  simp only [stepped, Nat.sub_zero]
  split <;> rfl

/-- The slots of one more stage. -/
theorem upTo_stepped (hj : j < H - first) :
    (upTo (stepped H first N n t j) (H - 1 - j) N fun _ r => r.map fun r => (r.1, r.2 + 1)) =
      stepped H first N n t (j + 1) := by
  funext s i
  simp only [upTo, stepped]
  by_cases hs : s = H - 1 - j
  · have hHs : ¬ H ≤ s := by omega
    simp only [hHs, if_false]
    rw [if_neg (show ¬ H - j ≤ s by omega), if_pos (show H - (j + 1) ≤ s by omega)]
    by_cases hi : i < N
    · rw [if_pos ⟨hs, hi⟩]
    · rw [if_neg fun hc => hi hc.2, due, if_neg fun hc => hi hc.2.1]
      rfl
  · rw [if_neg fun hc => hs hc.1]
    by_cases hs' : H - j ≤ s
    · rw [if_pos hs', if_pos (show H - (j + 1) ≤ s by omega)]
    · rw [if_neg hs', if_neg (show ¬ H - (j + 1) ≤ s by omega)]

theorem stepped_last : stepped H first N n t (H - first) = fun s i =>
    if H ≤ s then none else
      if first ≤ s then (due H first N n t s i).map fun r => (r.1, r.2 + 1)
      else due H first N n t s i := by
  funext s i
  simp only [stepped]
  by_cases hs : H ≤ s
  · rw [if_pos hs, if_pos hs]
  · rw [if_neg hs, if_neg hs]
    by_cases hs' : first ≤ s
    · rw [if_pos hs', if_pos (by omega)]
    · rw [if_neg hs', if_neg (by omega)]

end Stepped

/-- One stage. -/
theorem Conveyor.Sound.advanceStage (hC : C.Sound ans prior Phase (H - first)) {n j : Nat}
    (hj : j < H - first)
    (h : st.Valid C ans prior Phase (H - first) H N (stepped H first N n t j)) :
    (forRange N (C.advanceSlot (H - 1 - j)) st).Ensures fun st' =>
      st'.Valid C ans prior Phase (H - first) H N (stepped H first N n t (j + 1)) ∧
        st'.nextQueryIdx = st.nextQueryIdx ∧ st'.finishedCount = st.finishedCount := by
  refine (Ensures.forRange (fun k (st' : PipeState S V) =>
    st'.Valid C ans prior Phase (H - first) H N
        (upTo (stepped H first N n t j) (H - 1 - j) k fun _ r => r.map fun r => (r.1, r.2 + 1)) ∧
      st'.nextQueryIdx = st.nextQueryIdx ∧ st'.finishedCount = st.finishedCount)
    ⟨by rw [upTo_zero]; exact h, rfl, rfl⟩ fun k hk st₁ ⟨hv₁, hn₁, hf₁⟩ => ?_).mono ?_
  · refine (hC.advanceSlot hv₁ (by omega) hk fun q p hq => ?_).mono ?_
    · rw [upTo_self, stepped, if_neg (by omega), if_neg (by omega)] at hq
      have hr := (due_eq_some hq).2.2.2.2
      rw [Prod.mk.injEq] at hr
      omega
    · rintro st₂ ⟨hv₂, hn₂, hf₂⟩
      rw [upTo_self, upTo_succ (g := fun _ r => r.map fun r => (r.1, r.2 + 1))] at hv₂
      exact ⟨hv₂, hn₂.trans hn₁, hf₂.trans hf₁⟩
  · rintro st' ⟨hv, hn, hf⟩
    rw [upTo_stepped hj] at hv
    exact ⟨hv, hn, hf⟩

theorem Conveyor.Sound.advanceStages (hC : C.Sound ans prior Phase (H - first)) {n : Nat}
    (h : st.Valid C ans prior Phase (H - first) H N
      (fun s i => if H ≤ s then none else due H first N n t s i)) :
    (forRange (H - first) (fun j => forRange N (C.advanceSlot (H - 1 - j))) st).Ensures fun st' =>
      st'.Valid C ans prior Phase (H - first) H N
          (fun s i => if H ≤ s then none else
            if first ≤ s then (due H first N n t s i).map fun r => (r.1, r.2 + 1)
            else due H first N n t s i) ∧
        st'.nextQueryIdx = st.nextQueryIdx ∧ st'.finishedCount = st.finishedCount := by
  refine (Ensures.forRange (fun j (st' : PipeState S V) =>
    st'.Valid C ans prior Phase (H - first) H N (stepped H first N n t j) ∧
      st'.nextQueryIdx = st.nextQueryIdx ∧ st'.finishedCount = st.finishedCount)
    ⟨by rw [stepped_zero]; exact h, rfl, rfl⟩ fun j hj st₁ ⟨hv₁, hn₁, hf₁⟩ => ?_).mono ?_
  · refine (hC.advanceStage hj hv₁).mono ?_
    rintro st₂ ⟨hv₂, hn₂, hf₂⟩
    exact ⟨hv₂, hn₂.trans hn₁, hf₂.trans hf₁⟩
  · rintro st' ⟨hv, hn, hf⟩
    rw [stepped_last] at hv
    exact ⟨hv, hn, hf⟩

theorem Conveyor.Sound.refillStage (hC : C.Sound ans prior Phase (H - first))
    (h : st.Valid C ans prior Phase (H - first) H N
      (fun s i => if s = 0 then none else due H first N ans.length (t + 1) s i))
    (hn : st.nextQueryIdx = min ans.length (t * N)) :
    (forRange N (C.refillSlot ans.length) st).Ensures fun st' =>
      st'.Valid C ans prior Phase (H - first) H N (due H first N ans.length (t + 1)) ∧
        st'.nextQueryIdx = min ans.length ((t + 1) * N) ∧
        st'.finishedCount = st.finishedCount := by
  let g : Nat → Option (Nat × Nat) → Option (Nat × Nat) := fun i _ =>
    if t * N + i < ans.length then some (t * N + i, 0) else none
  refine (Ensures.forRange (fun k (st' : PipeState S V) =>
    st'.Valid C ans prior Phase (H - first) H N
        (upTo (fun s i => if s = 0 then none else due H first N ans.length (t + 1) s i) 0 k g) ∧
      st'.nextQueryIdx = min ans.length (t * N + k) ∧ st'.finishedCount = st.finishedCount)
    ⟨by rw [upTo_zero]; exact h, hn, rfl⟩ fun k hk st₁ ⟨hv₁, hn₁, hf₁⟩ => ?_).mono ?_
  · refine (hC.refillSlot hv₁ hk).mono ?_
    rintro st₂ ⟨hv₂, hn₂, hf₂⟩
    refine ⟨?_, by omega, hf₂.trans hf₁⟩
    rw [← upTo_succ]
    have hg : (if st₁.nextQueryIdx < ans.length then some (st₁.nextQueryIdx, 0) else none) =
        g k none := by
      simp only [g]
      by_cases hlt : t * N + k < ans.length
      · rw [if_pos hlt, if_pos (by omega)]
        congr 2
        omega
      · rw [if_neg hlt, if_neg (by omega)]
    rw [hg] at hv₂
    exact hv₂
  · rintro st' ⟨hv, hn, hf⟩
    refine ⟨?_, by rw [hn, Nat.succ_mul], hf⟩
    have hlast : upTo (fun s i => if s = 0 then none else due H first N ans.length (t + 1) s i)
        0 N g = due H first N ans.length (t + 1) := by
      funext s i
      simp only [upTo, g]
      by_cases hs : s = 0
      · subst hs
        simp only [due, true_and, if_true, Nat.add_sub_cancel, Nat.sub_zero, Nat.zero_le,
          Nat.zero_lt_succ, Nat.zero_sub]
        by_cases hi : i < N
        · simp [hi]
        · simp [hi]
      · simp [hs]
    rw [← hlast]
    exact hv

/-- One round. -/
theorem Conveyor.Sound.iteration (hC : C.Sound ans prior Phase (H - first))
    (hfirst : first ≤ 1)
    (h : st.At C ans prior Phase H first N t) :
    (C.iteration H first N ans.length st).Ensures
      (PipeState.At C ans prior Phase H first N (t + 1)) := by
  rw [Conveyor.iteration]
  refine Ensures.bind (hC.retireStage h) fun st₁ ⟨hv₁, hn₁, hf₁⟩ => ?_
  refine Ensures.bind (hC.advanceStages hv₁) fun st₂ ⟨hv₂, hn₂, hf₂⟩ => ?_
  refine Ensures.bind (hv₂.rotate fun i => if_pos (Nat.le_refl H)) fun st₃ ⟨hv₃, hn₃, hf₃⟩ => ?_
  rw [due_shift hfirst] at hv₃
  refine (hC.refillStage hv₃ (hn₃.trans (hn₂.trans hn₁))).mono fun st₄ ⟨hv₄, hn₄, hf₄⟩ => ?_
  exact ⟨hv₄, hn₄, hf₄.trans (hf₃.trans (hf₂.trans hf₁))⟩

theorem Conveyor.Sound.allocate (hC : C.Sound ans prior Phase (H - first)) :
    (C.allocate H N prior).At C ans prior Phase H first N 0 := by
  have hdue : due H first N ans.length 0 = fun _ _ => none := by
    funext s i
    exact if_neg fun hc => Nat.not_lt_zero _ hc.2.2.1
  refine ⟨⟨⟨List.Perm.refl _, List.length_replicate, fun buffer hmem => ?_⟩, ⟨fun s i hs hi => ?_,
    fun s i _ => ?_⟩, ?_⟩, by simp [Conveyor.allocate], by simp [Conveyor.allocate]⟩
  · rw [List.eq_of_mem_replicate hmem, List.length_replicate]
  · refine ⟨C.blank, ?_, fun _ => hC.blank, fun q p hq => ?_⟩
    · simp [PipeState.content, Conveyor.allocate, List.getElem?_replicate, hi, hs,
        Nat.lt_succ_of_le hs]
    · rw [hdue] at hq
      cases hq
  · rw [hdue]
  · rw [hdue]
    exact Register.empty

/-- The pipeline ends, with every query answered; each one entered once, took `H - first` steps
and was retired once. -/
theorem Conveyor.Sound.run (hC : C.Sound ans prior Phase (H - first))
    (hfirst : first ≤ 1) (hN : 1 ≤ N) :
    (C.run H first N ans.length prior).Ensures fun st =>
      st.out = answered ans prior ∧ ∀ q, q < ans.length → st.log.count (.dispatch q) = 1 ∧
        st.log.count (.advance q) = H - first ∧ st.log.count (.finish q) = 1 := by
  refine Ensures.whileM (fun m st => ∃ t, st.At C ans prior Phase H first N t ∧
    m = ans.length + H + 2 - t) ?_ _ _ ⟨0, hC.allocate, rfl⟩
  rintro m st ⟨t, h, rfl⟩
  refine ⟨_, returns_pure.mpr rfl, fun hlt => ?_, fun hge => ?_⟩
  · refine (hC.iteration hfirst h).mono fun st' h' => ⟨_, ?_, t + 1, h', rfl⟩
    have hlt' : st.finishedCount < ans.length := by simpa using hlt
    rw [h.finished_eq] at hlt'
    have hmul := Nat.le_mul_of_pos_right (t - (H + 1)) hN
    omega
  · exact h.valid.register.final (by simpa using hge)

/-! ## Stages that stay in place -/

theorem Conveyor.Sound.shiftSlot (hC : C.Sound ans prior Phase steps)
    (h : st.Valid C ans prior Phase steps H N L) {s i : Nat} (hs : s + 1 ≤ H) (hi : i < N)
    (hL : ∀ q p, L s i = some (q, p) → p < steps) :
    (C.shiftSlot s i st).Ensures fun st' =>
      st'.Valid C ans prior Phase steps H N
          ((L.put s i none).put (s + 1) i ((L s i).map fun r => (r.1, r.2 + 1))) ∧
        st'.nextQueryIdx = st.nextQueryIdx ∧ st'.finishedCount = st.finishedCount := by
  have hs' : s ≤ H := Nat.le_of_succ_le hs
  obtain ⟨c, hc, hnone, hsome⟩ := h.stocked.slot s i hs' hi
  rw [Conveyor.shiftSlot]
  refine (h.shape.getSlot hs' hc).seq ?_
  cases hr : L s i with
  | none =>
      rw [if_neg (by simp [hnone hr])]
      obtain ⟨d, hd, _⟩ := h.stocked.slot (s + 1) i hs hi
      refine (h.shape.getSlot hs hd).seq ?_
      obtain ⟨memory, hset, hshape, hcontent⟩ := h.shape.setSlot hs hi (C.clear d)
      rw [Layout.put_self hr]
      refine hset.ensures ⟨⟨hshape, ?_, ?_⟩, rfl, rfl⟩
      · exact h.stocked.put hs hi hcontent (fun _ => hC.clear d) (by simp)
      · have hmove := h.register.move (s := s) (i := i)
        rwa [Layout.put_self hr, hr] at hmove
  | some r =>
      obtain ⟨q, p⟩ := r
      have hph := hsome q p hr
      have hlt : q < ans.length := (h.register.bounds _ _ _ _ hr).2.trans_le h.register.next_le
      obtain ⟨hact, hidx⟩ := hC.phase _ _ _ hph
      rw [if_pos hact]
      refine Ensures.bind (hC.advance c q p hlt (hL q p hr) hph) fun c' hc' => ?_
      obtain ⟨memory, hset, hshape, hcontent⟩ := h.shape.setSlot hs hi c'
      obtain ⟨memory', hset', hshape', hcontent'⟩ := hshape.setSlot hs' hi (C.clear c)
      refine hset.seq (hset'.seq (Ensures.pure ⟨⟨⟨hshape'.perm, hshape'.length_eq,
        hshape'.buffer⟩, ?_, ?_⟩, rfl, rfl⟩))
      · have h1 : Stocked C.active Phase H N _ (L.put (s + 1) i (some (q, p + 1))) :=
          h.stocked.put hs hi hcontent (by simp) (by rintro q' p' ⟨⟩; exact hc')
        have h2 := h1.put hs' hi hcontent' (r := none) (fun _ => hC.clear c) (by simp)
        have hswap : (L.put (s + 1) i (some (q, p + 1))).put s i none =
            (L.put s i none).put (s + 1) i (some (q, p + 1)) := by
          funext s' i'
          simp only [Layout.put]
          by_cases h1 : s' = s ∧ i' = i
          · rw [if_pos h1, if_neg (by omega), if_pos h1]
          · rw [if_neg h1, if_neg h1]
        rw [hswap] at h2
        exact h2
      · rw [hidx]
        have hmove := (h.register.advance hr).move (s := s) (i := i)
        have hput : (L.put s i (some (q, p + 1))).put s i none = L.put s i none := by
          funext s' i'
          simp only [Layout.put]
          split <;> rfl
        have hat : L.put s i (some (q, p + 1)) s i = some (q, p + 1) := by simp [Layout.put]
        rwa [hput, hat] at hmove

/-- The layout of a round in which `j` stages have moved up: the stages above `H - j` hold what they
will hold in the next round, and stage `H - j` is empty. -/
def shifted (H N n t j : Nat) : Layout := fun s i =>
  if s < H - j then due H 0 N n t s i else
    if s = H - j then none else due H 0 N n (t + 1) s i

/-- The same when the slots below `k` of the next stage have moved up too. -/
def shiftedTo (H N n t j k : Nat) : Layout := fun s i =>
  if s = H - 1 - j ∧ i < k then none else
    if s = H - j ∧ i < k then due H 0 N n (t + 1) s i else shifted H N n t j s i

section Shifted

variable {H N n t j k : Nat}

theorem shifted_zero : shifted H N n t 0 =
    fun s i => if H ≤ s then none else due H 0 N n t s i := by
  funext s i
  simp only [shifted, Nat.sub_zero]
  by_cases hs : s < H
  · rw [if_pos hs, if_neg (by omega)]
  · rw [if_neg hs, if_pos (show H ≤ s by omega)]
    split
    · rfl
    · rw [due, if_neg (by omega)]

theorem shifted_last : shifted H N n t H =
    fun s i => if s = 0 then none else due H 0 N n (t + 1) s i := by
  funext s i
  simp only [shifted, Nat.sub_self, Nat.not_lt_zero, if_false]

/-- What is due one stage up in the next round. -/
theorem due_up {s i : Nat} (hs : s < H) : (due H 0 N n t s i).map (fun r => (r.1, r.2 + 1)) =
    due H 0 N n (t + 1) (s + 1) i := by
  simp only [due]
  rw [show t + 1 - 1 - (s + 1) = t - 1 - s by omega]
  by_cases hc : i < N ∧ s < t ∧ (t - 1 - s) * N + i < n
  · rw [if_pos ⟨by omega, hc⟩, if_pos ⟨by omega, hc.1, by omega, hc.2.2⟩]
    rfl
  · rw [if_neg fun h => hc h.2, if_neg fun h => hc ⟨h.2.1, by omega, h.2.2.2⟩]
    rfl

theorem shiftedTo_zero : shiftedTo H N n t j 0 = shifted H N n t j := by
  funext s i
  simp [shiftedTo]

theorem shiftedTo_self (hj : j < H) :
    shiftedTo H N n t j k (H - 1 - j) k = due H 0 N n t (H - 1 - j) k := by
  simp only [shiftedTo, shifted]
  rw [if_neg (by omega), if_neg (by omega), if_pos (by omega)]

/-- One more slot. -/
theorem shiftedTo_succ (hj : j < H) :
    ((shiftedTo H N n t j k).put (H - 1 - j) k none).put (H - 1 - j + 1) k
        ((shiftedTo H N n t j k (H - 1 - j) k).map fun r => (r.1, r.2 + 1)) =
      shiftedTo H N n t j (k + 1) := by
  rw [shiftedTo_self hj, due_up (by omega)]
  funext s i
  simp only [Layout.put, shiftedTo]
  by_cases h1 : s = H - 1 - j + 1 ∧ i = k
  · rw [if_pos h1, if_neg (by omega), if_pos (by omega), h1.1, h1.2]
  · rw [if_neg h1]
    by_cases h2 : s = H - 1 - j ∧ i = k
    · rw [if_pos h2, if_pos (by omega)]
    · rw [if_neg h2]
      by_cases h3 : s = H - 1 - j ∧ i < k
      · rw [if_pos h3, if_pos (by omega)]
      · rw [if_neg h3, if_neg (show ¬ (s = H - 1 - j ∧ i < k + 1) by omega)]
        by_cases h4 : s = H - j ∧ i < k
        · rw [if_pos h4, if_pos (by omega)]
        · rw [if_neg h4, if_neg (by omega)]

theorem shiftedTo_last (hj : j < H) : shiftedTo H N n t j N = shifted H N n t (j + 1) := by
  funext s i
  simp only [shiftedTo, shifted]
  by_cases hi : i < N
  · by_cases h1 : s = H - 1 - j
    · rw [if_pos ⟨h1, hi⟩, if_neg (by omega), if_pos (by omega)]
    · rw [if_neg fun h => h1 h.1]
      by_cases h2 : s = H - j
      · rw [if_pos ⟨h2, hi⟩, if_neg (by omega), if_neg (by omega)]
      · rw [if_neg fun h => h2 h.1]
        by_cases h3 : s < H - (j + 1)
        · rw [if_pos (by omega), if_pos h3]
        · rw [if_neg (by omega), if_neg h2, if_neg h3, if_neg (by omega)]
  · have hout : ∀ t' s, due H 0 N n t' s i = none := fun t' s =>
      if_neg fun h => hi h.2.1
    simp only [hout, hi, and_false, ite_self]

end Shifted

/-- One stage. -/
theorem Conveyor.Sound.shiftStage (hC : C.Sound ans prior Phase H) {n j : Nat} (hj : j < H)
    (h : st.Valid C ans prior Phase H H N (shifted H N n t j)) :
    (forRange N (C.shiftSlot (H - 1 - j)) st).Ensures fun st' =>
      st'.Valid C ans prior Phase H H N (shifted H N n t (j + 1)) ∧
        st'.nextQueryIdx = st.nextQueryIdx ∧ st'.finishedCount = st.finishedCount := by
  refine (Ensures.forRange (fun k (st' : PipeState S V) =>
    st'.Valid C ans prior Phase H H N (shiftedTo H N n t j k) ∧
      st'.nextQueryIdx = st.nextQueryIdx ∧ st'.finishedCount = st.finishedCount)
    ⟨by rw [shiftedTo_zero]; exact h, rfl, rfl⟩ fun k hk st₁ ⟨hv₁, hn₁, hf₁⟩ => ?_).mono ?_
  · refine (hC.shiftSlot hv₁ (by omega) hk fun q p hq => ?_).mono ?_
    · rw [shiftedTo_self hj] at hq
      have hr := (due_eq_some hq).2.2.2.2
      rw [Prod.mk.injEq] at hr
      omega
    · rintro st₂ ⟨hv₂, hn₂, hf₂⟩
      rw [shiftedTo_succ hj] at hv₂
      exact ⟨hv₂, hn₂.trans hn₁, hf₂.trans hf₁⟩
  · rintro st' ⟨hv, hn, hf⟩
    rw [shiftedTo_last hj] at hv
    exact ⟨hv, hn, hf⟩

theorem Conveyor.Sound.shiftStages (hC : C.Sound ans prior Phase H) {n : Nat}
    (h : st.Valid C ans prior Phase H H N
      (fun s i => if H ≤ s then none else due H 0 N n t s i)) :
    (forRange H (fun j => forRange N (C.shiftSlot (H - 1 - j))) st).Ensures fun st' =>
      st'.Valid C ans prior Phase H H N
          (fun s i => if s = 0 then none else due H 0 N n (t + 1) s i) ∧
        st'.nextQueryIdx = st.nextQueryIdx ∧ st'.finishedCount = st.finishedCount := by
  refine (Ensures.forRange (fun j (st' : PipeState S V) =>
    st'.Valid C ans prior Phase H H N (shifted H N n t j) ∧
      st'.nextQueryIdx = st.nextQueryIdx ∧ st'.finishedCount = st.finishedCount)
    ⟨by rw [shifted_zero]; exact h, rfl, rfl⟩ fun j hj st₁ ⟨hv₁, hn₁, hf₁⟩ => ?_).mono ?_
  · refine (hC.shiftStage hj hv₁).mono ?_
    rintro st₂ ⟨hv₂, hn₂, hf₂⟩
    exact ⟨hv₂, hn₂.trans hn₁, hf₂.trans hf₁⟩
  · rintro st' ⟨hv, hn, hf⟩
    rw [shifted_last] at hv
    exact ⟨hv, hn, hf⟩

/-- The pipeline whose stages stay in place ends likewise. -/
theorem Conveyor.Sound.runShift (hC : C.Sound ans prior Phase H)
    (hN : 1 ≤ N) :
    (C.runShift H N ans.length prior).Ensures fun st =>
      st.out = answered ans prior := by
  have hC' : C.Sound ans prior Phase (H - 0) := hC
  refine Ensures.whileM (fun m st => ∃ t, st.At C ans prior Phase H 0 N t ∧
    m = ans.length + H + 2 - t) ?_ _ _ ⟨0, hC'.allocate, rfl⟩
  rintro m st ⟨t, h, rfl⟩
  refine ⟨_, returns_pure.mpr rfl, fun hlt => ?_, fun hge => ?_⟩
  · rw [Conveyor.shiftIteration]
    refine Ensures.bind (hC'.retireStage h)
      fun st₁ ⟨hv₁, hn₁, hf₁⟩ => ?_
    refine Ensures.bind (hC.shiftStages hv₁) fun st₂ ⟨hv₂, hn₂, hf₂⟩ => ?_
    refine (hC'.refillStage hv₂ (hn₂.trans hn₁)).mono
      fun st' ⟨hv', hn', hf'⟩ => ⟨_, ?_, t + 1, ⟨hv', hn', hf'.trans (hf₂.trans hf₁)⟩, rfl⟩
    have hlt' : st.finishedCount < ans.length := by simpa using hlt
    rw [h.finished_eq] at hlt'
    have hmul := Nat.le_mul_of_pos_right (t - (H + 1)) hN
    omega
  · exact (h.valid.register.final (by simpa using hge)).1

/-! ## Pipelines over a vector of queries -/

variable {Q : Type} {answer : Q → Option V} {queries : List Q}

theorem Conveyor.Sound.run_queries
    (hC : C.Sound (queries.map answer) prior Phase (H - first)) (hfirst : first ≤ 1)
    (hN : 1 ≤ N) :
    (C.run H first N queries.length prior).Ensures fun st =>
      st.out = answered (queries.map answer) prior ∧ ∀ q, q < queries.length →
        st.log.count (.dispatch q) = 1 ∧ st.log.count (.advance q) = H - first ∧
        st.log.count (.finish q) = 1 := by
  have h := hC.run hfirst hN
  rwa [List.length_map] at h

theorem Conveyor.Sound.runShift_queries (hC : C.Sound (queries.map answer) prior Phase H)
    (hN : 1 ≤ N) :
    (C.runShift H N queries.length prior).Ensures fun st =>
      st.out = answered (queries.map answer) prior := by
  have h := hC.runShift hN
  rwa [List.length_map] at h

end Sound

end Batch
