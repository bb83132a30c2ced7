import PrefetchBench.BTree.Interleaved
import PrefetchBench.BTree.Simd

/-!
# The strategies agree

Every strategy returns the lookups of the tree, so they all agree with one specification and with
each other.  For the binary searches this is `binary_strategies_agree`.  The linear ones agree
with `NoPrefetch` up to the slip of `VectorizedSearch_Linear`, which stores keys: all five agree
exactly when the data of every key that is asked for and stored is the key itself
(`linear_strategies_agree_iff`).
-/

namespace BTree

open Prog KeyArray Batch

variable {K D : Type} [LinearOrder K]

/-! ## The specification of a batch lookup -/

/-- What a batch lookup has to return: a flag per query that says whether some leaf stores it, and
the data of its first slot in leaf order, or else what the results held before. -/
structure MeetsSpec (t : Tree K D) (queries : List K) (results : List D) (dflt : D) (out : Out D) :
    Prop where
  /-- One flag per query. -/
  length_found : out.found.length = queries.length
  /-- One value per query. -/
  length_results : out.results.length = queries.length
  /-- The flag says whether the key is stored. -/
  found_iff : ∀ (i : Nat) (q : K), queries[i]? = some q →
    (out.found[i]? = some true ↔ ∃ e ∈ t.entries, e.1 = q)
  /-- The value of a stored key is that of its first entry. -/
  result_stored : ∀ (i : Nat) (q : K) (e : K × D), queries[i]? = some q →
    (t.entries.find? fun e => e.1 == q) = some e → out.results[i]? = some e.2
  /-- The value of another key is the prior one, or the default where there was none. -/
  result_missing : ∀ (i : Nat) (q : K), queries[i]? = some q → (∀ e ∈ t.entries, e.1 ≠ q) →
    out.results[i]? = some (results[i]?.getD dflt)

theorem Tree.lookup_isSome_iff {t : Tree K D} {q : K} :
    (t.lookup q).isSome = true ↔ ∃ e ∈ t.entries, e.1 = q := by
  rw [Tree.lookup, Option.isSome_map, List.find?_isSome]
  simp

theorem lookupAll_meetsSpec (t : Tree K D) (queries : List K) (results : List D) (dflt : D) :
    MeetsSpec t queries results dflt (lookupAll t.lookup queries results dflt) where
  length_found := length_found_lookupAll
  length_results := length_results_lookupAll
  found_iff i q hq := by
    rw [found_lookupAll hq, Option.some.injEq, Tree.lookup_isSome_iff]
  result_stored i q e hq he := by
    rw [results_lookupAll hq, Tree.lookup, he]
    rfl
  result_missing i q hq hmiss := by
    have hnone : t.lookup q = none := by
      rw [← Option.not_isSome_iff_eq_none, Tree.lookup_isSome_iff]
      rintro ⟨e, he, heq⟩
      exact hmiss e he heq
    rw [results_lookupAll hq, hnone]
    rfl

/-! ## The binary strategies -/

/-- On every verified tree the five strategies with binary search return the same, and it is what
the specification says. -/
theorem binary_strategies_agree {tr : Traits} {t : Tree K D} (ht : t.Verified tr)
    (hsv : tr.selfverify = false) (isa : Isa) (u64 : Option (IsU64 K)) (queries : List K)
    (results : List D) (dflt : D) {N : Nat} (hN : 1 ≤ N) :
    ∃ out, MeetsSpec t queries results dflt out ∧
      (NoPrefetch.batchLookup tr t queries results dflt).Returns out ∧
      (GroupPrefetch.batchLookup N tr t queries results dflt).Returns out ∧
      (SoftwarePipelinedPrefetch.batchLookup N tr t queries results dflt).Returns out ∧
      (VectorizedSearch.batchLookup (simdLowerBoundU64 isa u64) N tr t queries results
        dflt).Returns out ∧
      (AMACSearch.batchLookup N tr t queries results dflt).Returns out :=
  ⟨lookupAll t.lookup queries results dflt, lookupAll_meetsSpec t queries results dflt,
    serialLookup_returns findLower_exact ht hsv, GroupPrefetch.batchLookup_returns ht hN,
    SoftwarePipelinedPrefetch.batchLookup_returns ht hsv hN,
    VectorizedSearch.batchLookup_returns (simdLowerBoundU64_exact isa u64) ht hsv hN,
    AMACSearch.batchLookup_returns ht hsv hN⟩

/-- Traits with small nodes. -/
def smallTraits : Traits where
  leafslotmax := 4
  innerslotmax := 4
  selfverify := false
  leafslotmax_lt := by decide
  innerslotmax_lt := by decide

/-- A tree of two leaves that both hold the key 3. -/
def twoLeaves : Tree Nat Nat where
  root := some (.inner ⟨1, 1, [3],
    [.leaf ⟨0, 2, [1, 3], [10, 30]⟩, .leaf ⟨0, 2, [3, 5], [31, 50]⟩]⟩)

theorem binary_strategies_agree_twoLeaves :
    ∃ out, MeetsSpec twoLeaves [3, 4, 5] [7] 0 out ∧
      (NoPrefetch.batchLookup smallTraits twoLeaves [3, 4, 5] [7] 0).Returns out ∧
      (GroupPrefetch.batchLookup 2 smallTraits twoLeaves [3, 4, 5] [7] 0).Returns out ∧
      (SoftwarePipelinedPrefetch.batchLookup 2 smallTraits twoLeaves [3, 4, 5] [7] 0).Returns out ∧
      (VectorizedSearch.batchLookup (simdLowerBoundU64 .avx2 none) 2 smallTraits twoLeaves
        [3, 4, 5] [7] 0).Returns out ∧
      (AMACSearch.batchLookup 2 smallTraits twoLeaves [3, 4, 5] [7] 0).Returns out :=
  binary_strategies_agree (fun root hr => by cases hr; decide) rfl .avx2 none [3, 4, 5] [7] 0
    (by decide)

/-! ## The linear strategies -/

/-- The five linear strategies return what `NoPrefetch` returns. -/
def LinearAgree (N : Nat) (tr : Traits) (t : Tree K K) (queries results : List K) (dflt : K) :
    Prop :=
  ∃ out, (NoPrefetch.batchLookup tr t queries results dflt).Returns out ∧
    (NoPrefetchLinear.batchLookup tr t queries results dflt).Returns out ∧
    (GroupPrefetchLinear.batchLookup N t queries results dflt).Returns out ∧
    (SoftwarePipelinedPrefetchLinear.batchLookup N tr t queries results dflt).Returns out ∧
    (VectorizedSearchLinear.batchLookup N tr t queries results dflt).Returns out ∧
    (AMACSearchLinear.batchLookup N tr t queries results dflt).Returns out

/-- Four of them do so for all data. -/
theorem linear_returns {tr : Traits} {t : Tree K D} (ht : t.Verified tr)
    (hsv : tr.selfverify = false) (queries : List K) (results : List D) (dflt : D) {N : Nat}
    (hN : 1 ≤ N) :
    (NoPrefetchLinear.batchLookup tr t queries results dflt).Returns
        (lookupAll t.lookup queries results dflt) ∧
      (GroupPrefetchLinear.batchLookup N t queries results dflt).Returns
        (lookupAll t.lookup queries results dflt) ∧
      (SoftwarePipelinedPrefetchLinear.batchLookup N tr t queries results dflt).Returns
        (lookupAll t.lookup queries results dflt) ∧
      (AMACSearchLinear.batchLookup N tr t queries results dflt).Returns
        (lookupAll t.lookup queries results dflt) :=
  ⟨serialLookup_returns linearLowerBound_exact ht hsv,
    GroupPrefetchLinear.batchLookup_returns ht hN,
    SoftwarePipelinedPrefetchLinear.batchLookup_returns ht hsv hN,
    AMACSearchLinear.batchLookup_returns ht hsv hN⟩

/-- So they all agree when answering with the keys is answering with the data. -/
theorem linearAgree_iff_lookupAll {tr : Traits} {t : Tree K K} (ht : t.Verified tr)
    (hsv : tr.selfverify = false) (queries results : List K) (dflt : K) {N : Nat} (hN : 1 ≤ N) :
    LinearAgree N tr t queries results dflt ↔
      lookupAll t.lookup queries results dflt = lookupAll t.lookupKey queries results dflt := by
  have hno : (NoPrefetch.batchLookup tr t queries results dflt).Returns
      (lookupAll t.lookup queries results dflt) := serialLookup_returns findLower_exact ht hsv
  have hvec : (VectorizedSearchLinear.batchLookup N tr t queries results dflt).Returns
      (lookupAll t.lookupKey queries results dflt) :=
    VectorizedSearchLinear.batchLookup_returns ht hsv hN
  obtain ⟨h1, h2, h3, h4⟩ := linear_returns ht hsv queries results dflt hN
  constructor
  · rintro ⟨out, hout, _, _, _, hout', _⟩
    exact (hno.det hout).trans (hout'.det hvec)
  · intro heq
    exact ⟨_, hno, h1, h2, h3, heq ▸ hvec, h4⟩

theorem lookupAll_lookupKey_iff {t : Tree K K} {queries results : List K} {dflt : K} :
    lookupAll t.lookup queries results dflt = lookupAll t.lookupKey queries results dflt ↔
      ∀ q ∈ queries, ∀ d, t.lookup q = some d → d = q := by
  constructor
  · intro heq q hq d hd
    obtain ⟨i, hi, rfl⟩ := List.getElem_of_mem hq
    have hget := List.getElem?_eq_getElem hi
    have h1 : (lookupAll t.lookup queries results dflt).results[i]? = _ := results_lookupAll hget
    rw [heq, results_lookupAll hget, Tree.lookupKey, hd] at h1
    exact (Option.some.inj h1).symm
  · intro h
    refine lookupAll_congr fun q hq => ?_
    rw [Tree.lookupKey]
    cases hd : t.lookup q with
    | none => rfl
    | some d => rw [h q hq d hd]; rfl

/-- On a verified tree the linear strategies agree with `NoPrefetch` exactly when every query that
is stored has itself as its data. -/
theorem linear_strategies_agree_iff {tr : Traits} {t : Tree K K} (ht : t.Verified tr)
    (hsv : tr.selfverify = false) (queries results : List K) (dflt : K) {N : Nat} (hN : 1 ≤ N) :
    LinearAgree N tr t queries results dflt ↔
      ∀ q ∈ queries, ∀ d, t.lookup q = some d → d = q :=
  (linearAgree_iff_lookupAll ht hsv queries results dflt hN).trans lookupAll_lookupKey_iff

theorem linear_strategies_agree_iff_twoLeaves :
    LinearAgree 2 smallTraits twoLeaves [3, 4] [] 0 ↔
      ∀ q ∈ [3, 4], ∀ d, twoLeaves.lookup q = some d → d = q :=
  linear_strategies_agree_iff (fun root hr => by cases hr; decide) rfl [3, 4] [] 0 (by decide)

/-- One key with other data: `VectorizedSearch_Linear` stores the key. -/
theorem linear_strategies_differ :
    twoLeaves.Verified smallTraits ∧ ¬ LinearAgree 1 smallTraits twoLeaves [3] [] 0 := by
  have hv : twoLeaves.Verified smallTraits := fun root hr => by cases hr; decide
  refine ⟨hv, fun h => ?_⟩
  have heq := (linearAgree_iff_lookupAll hv rfl [3] [] 0 (Nat.le_refl 1)).mp h
  exact absurd heq (by decide)

end BTree
