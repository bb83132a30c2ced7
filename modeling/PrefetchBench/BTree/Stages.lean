import PrefetchBench.BTree.Agreement
import PrefetchBench.Batch.Stages

/-!
# The stages of SoftwarePipelinedPrefetch

The pipeline has a stage for each level of the tree and one more, and its casts are not checked:
they are right because the stage of a query, the rotation of the stages and the height of the tree
line up.  At the start of every iteration stage 0 holds queries at the root, stage `s` holds
queries `s` levels below the top of a tree of `H` levels, and no query is lost or doubled
(`InOrder`).
-/

namespace BTree

open Prog KeyArray Batch

variable {K D : Type} [LinearOrder K]

/-- The only node of a search path on the level of the root is the root. -/
theorem OnPath.eq_root {tr : Traits} {root : Node K D} {key : K} {l : Nat} {n : Node K D}
    (h : OnPath tr root key l n) : l ≤ root.level ∧ (l = root.level → n = root) := by
  induction h with
  | root => exact ⟨Nat.le_refl _, fun _ => rfl⟩
  | child _ _ ih =>
      have hle := ih.1
      exact ⟨by omega, fun hl => absurd hl (by omega)⟩

namespace SoftwarePipelinedPrefetch

/-- The loop is at its head after `k` iterations. -/
def AtHead (N H : Nat) (tr : Traits) (root : Node K D) (queries : List K) (out : Out D) (k : Nat)
    (st : PipeState (Task K D) D) : Prop :=
  Prog.AtHead (fun st => pure (decide (st.finishedCount < queries.length)))
    ((conveyor tr root queries).iteration H 1 N queries.length)
    ((conveyor tr root queries).allocate H N out) k st

/-- The pipeline at the start of an iteration. -/
structure InOrder (H : Nat) (tr : Traits) (root : Node K D) (queries : List K)
    (st : PipeState (Task K D) D) : Prop where
  /-- The pointers are a permutation of the buffers. -/
  stages : st.stages.Perm (List.range (H + 1))
  /-- The tasks of stage 0 are at the root. -/
  first : ∀ i task n, st.content 0 i = some task → task.node = some n → n = root
  /-- The tasks of the other stages are on the search path of their query, on the level that
  belongs to the stage. -/
  path : ∀ s i task n, 1 ≤ s → st.content s i = some task → task.node = some n →
    s ≤ H ∧ n.level = H - s ∧
      ∃ key, queries[task.queryIdx]? = some key ∧ OnPath tr root key (H - s) n
  /-- Casts to `InnerNode` are right. -/
  inner : ∀ s i task n, 1 ≤ s → s < H → st.content s i = some task → task.node = some n →
    ∃ m, n = .inner m
  /-- Casts to `LeafNode` are right. -/
  leaf : ∀ i task n, st.content H i = some task → task.node = some n → ∃ m, n = .leaf m
  /-- A query that has entered is in exactly one slot, or it was retired, once. -/
  accounted : ∀ q, q < st.nextQueryIdx →
    ((∃ s i, st.Holds (conveyor tr root queries) s i q ∧
          ∀ s' i', st.Holds (conveyor tr root queries) s' i' q → s' = s ∧ i' = i) ∧
        st.log.count (.finish q) = 0) ∨
      ((∀ s i, ¬ st.Holds (conveyor tr root queries) s i q) ∧ st.log.count (.finish q) = 1)
  /-- The counter is the number of retired queries. -/
  finished : st.finishedCount =
    (List.range st.nextQueryIdx).countP fun q => decide (0 < st.log.count (.finish q))

section Stages

variable {tr : Traits} {t : Tree K D} {root : Node K D} {queries : List K} {prior : Out D}
  {N H k : Nat} {st : PipeState (Task K D) D}

/-- The phase of a task: so many steps below the root. -/
abbrev TaskPhase (tr : Traits) (root : Node K D) (queries : List K) (q p : Nat) (c : Task K D) :
    Prop :=
  c.queryIdx = q ∧ SlotPath tr root queries q (root.level - p) c.node

/-- What a round starts with is in order. -/
theorem inOrder_of_at (hroot : VerifyNode tr root.level root) {ans : List (Option D)}
    (hC : (conveyor tr root queries).Sound ans prior (TaskPhase tr root queries) root.level)
    (hN : 1 ≤ N)
    (h : st.At (conveyor tr root queries) ans prior (TaskPhase tr root queries) (root.level + 1) 1
      N k) : InOrder (root.level + 1) tr root queries st := by
  -- a task is due in its stage `s`, and so `s - 1` levels below the root
  have htask : ∀ s i task n, st.content s i = some task → task.node = some n →
      s ≤ root.level + 1 ∧ ∃ key, queries[task.queryIdx]? = some key ∧
        OnPath tr root key (root.level - (s - 1)) n := by
    intro s i task n hc hn
    obtain ⟨q, p, hdue, hq, m, key, hm, hkey, hpath⟩ :=
      h.due_of_active hc (by simp [conveyor, hn])
    obtain ⟨hs, _, _, _, hr⟩ := due_eq_some hdue
    have hp : p = s - 1 := (Prod.mk.injEq .. ▸ hr).2
    cases hm.symm.trans hn
    exact ⟨hs, key, hq ▸ hkey, hp ▸ hpath⟩
  have hlevel : ∀ s i task n, 1 ≤ s → st.content s i = some task → task.node = some n →
      s ≤ root.level + 1 ∧ n.level = root.level + 1 - s ∧
        ∃ key, queries[task.queryIdx]? = some key ∧ OnPath tr root key (root.level + 1 - s) n := by
    intro s i task n hs hc hn
    obtain ⟨hle, key, hkey, hpath⟩ := htask s i task n hc hn
    rw [show root.level - (s - 1) = root.level + 1 - s by omega] at hpath
    exact ⟨hle, hpath.level_eq hroot, key, hkey, hpath⟩
  refine ⟨h.valid.shape.perm, ?_, hlevel, ?_, ?_, ?_, h.finished_eq_countP.symm⟩
  · intro i task n hc hn
    obtain ⟨_, key, _, hpath⟩ := htask 0 i task n hc hn
    exact hpath.eq_root.2 rfl
  · intro s i task n hs hlt hc hn
    obtain ⟨_, _, key, _, hpath⟩ := hlevel s i task n hs hc hn
    obtain ⟨l, hl⟩ := Nat.exists_eq_succ_of_ne_zero (Nat.sub_ne_zero_of_lt hlt)
    rw [hl] at hpath
    obtain ⟨m, _, rfl, _⟩ := hpath.inner hroot
    exact ⟨m, rfl⟩
  · intro i task n hc hn
    obtain ⟨_, _, key, _, hpath⟩ := hlevel _ i task n (Nat.succ_pos _) hc hn
    rw [Nat.sub_self] at hpath
    have hv := (hpath.spec hroot).1
    cases n with
    | leaf m => exact ⟨m, rfl⟩
    | inner m => exact hv.elim
  · intro q hq
    exact h.accounted hC hN hq

end Stages

/-- The pipeline over a verified tree has a stage for each of its levels.  It is in order at the
start of every iteration, and ends when the last queries have passed the stages. -/
theorem stages_inOrder {tr : Traits} {t : Tree K D} {root : Node K D} (ht : t.Verified tr)
    (hr : t.root = some root) {N : Nat} (hN : 1 ≤ N) (queries : List K) (results : List D)
    (dflt : D) :
    ∃ H, (getTreeHeight root).Returns H ∧
      (∀ k st, AtHead N H tr root queries (Out.fresh queries.length results dflt) k st →
        InOrder H tr root queries st) ∧
      ∃ k ≤ (queries.length + N - 1) / N + H + 1, ∃ st,
        AtHead N H tr root queries (Out.fresh queries.length results dflt) k st ∧
        queries.length ≤ st.finishedCount := by
  have hroot := ht root hr
  let prior := Out.fresh queries.length results dflt
  have hlen : (pipelineAnswers tr t queries prior).length = queries.length := List.length_mapIdx
  have hfits : Fits (pipelineAnswers tr t queries prior) prior := by
    constructor <;> rw [hlen] <;> simp [prior, Out.fresh]
  have hC : Conveyor.Sound _ _ _ (TaskPhase tr root queries) (root.level + 1 - 1) :=
    sound hr hroot hfits
  refine ⟨root.level + 1, getTreeHeight_returns hroot, ?_, ?_⟩
  · intro k st hst
    have hround : _ → st.At _ _ _ _ (root.level + 1) 1 N k := hC.atHead (Nat.le_refl 1)
    rw [hlen] at hround
    exact inOrder_of_at hroot hC hN (hround hst)
  · have hends := hC.ends (Nat.le_refl 1) hN
    rwa [hlen] at hends

theorem stages_inOrder_twoLeaves :
    ∃ H, (getTreeHeight (.inner ⟨1, 1, [3], [.leaf ⟨0, 2, [1, 3], [10, 30]⟩,
        .leaf ⟨0, 2, [3, 5], [31, 50]⟩]⟩ : Node Nat Nat)).Returns H ∧
      (∀ k st, AtHead 2 H smallTraits (.inner ⟨1, 1, [3], [.leaf ⟨0, 2, [1, 3], [10, 30]⟩,
          .leaf ⟨0, 2, [3, 5], [31, 50]⟩]⟩) [3, 4, 5] (Out.fresh 3 [7] 0) k st →
        InOrder H smallTraits (.inner ⟨1, 1, [3], [.leaf ⟨0, 2, [1, 3], [10, 30]⟩,
          .leaf ⟨0, 2, [3, 5], [31, 50]⟩]⟩) [3, 4, 5] st) ∧
      ∃ k ≤ (3 + 2 - 1) / 2 + H + 1, ∃ st,
        AtHead 2 H smallTraits (.inner ⟨1, 1, [3], [.leaf ⟨0, 2, [1, 3], [10, 30]⟩,
          .leaf ⟨0, 2, [3, 5], [31, 50]⟩]⟩) [3, 4, 5] (Out.fresh 3 [7] 0) k st ∧
        3 ≤ st.finishedCount :=
  stages_inOrder (t := twoLeaves) (fun root hr => by cases hr; decide) rfl (by decide) [3, 4, 5]
    [7] 0

end SoftwarePipelinedPrefetch

end BTree
