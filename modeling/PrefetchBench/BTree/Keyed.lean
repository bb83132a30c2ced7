import PrefetchBench.BTree.Smallest

/-!
# Keys as their own data

The benchmark stores every key as its own data.  Then the linear strategy that answers with the key
(`Tree.lookupKey`) answers with the data as well, whatever has been loaded and inserted, and all ten
strategies return the same: the query itself, if it is one of the keys
(`Btree.insertKeys_answers`).
-/

namespace BTree

open Prog KeyArray Ordered Batch

variable {K : Type} [LinearOrder K]

/-- The entries that `test_strategies` makes of the keys. -/
def keyed (keys : List K) : List (K × K) := keys.map fun key => (key, key)

/-- What a lookup among these entries finds. -/
def ownKey (keys : List K) (q : K) : Option K := if q ∈ keys then some q else none

theorem find?_keyed (keys : List K) (q : K) :
    ((keyed keys).find? fun e => e.1 == q).map Prod.snd = ownKey keys q := by
  induction keys with
  | nil => rfl
  | cons key keys ih =>
      rw [keyed, List.map_cons, List.find?_cons, ownKey]
      by_cases hq : key = q
      · subst hq
        rw [beq_self_eq_true, if_pos List.mem_cons_self]
        rfl
      · have hmem : q ∈ key :: keys ↔ q ∈ keys := by
          rw [List.mem_cons, or_iff_right (Ne.symm hq)]
        rw [beq_false_of_ne hq, ← keyed]
        dsimp only
        rw [ih, ownKey]
        simp only [hmem]

theorem sorted_keyed {keys : List K} (h : keys.Pairwise (· ≤ ·)) : Sorted (keyed keys) :=
  List.pairwise_map.mpr h

/-- After insertions there are more keys, in whatever order. -/
theorem kept_keyed (duplicates : Bool) (keys more : List K) :
    kept duplicates (keyed keys) (keyed more) = ownKey (keys ++ more) := by
  funext q
  rw [kept]
  cases duplicates with
  | true =>
      have hentries : (keyed more).reverse ++ keyed keys = keyed (more.reverse ++ keys) := by
        rw [keyed, keyed, keyed, List.map_append, List.map_reverse]
      rw [if_pos rfl, hentries, find?_keyed, ownKey, ownKey]
      congr 1
      rw [List.mem_append, List.mem_append, List.mem_reverse, or_comm]
  | false =>
      have hentries : keyed keys ++ keyed more = keyed (keys ++ more) := List.map_append.symm
      rw [if_neg Bool.false_ne_true, hentries, find?_keyed]

/-- All ten strategies return the same. -/
structure AllReturn (N : Nat) (tr : Traits) (t : Tree K K) (isa : Isa) (u64 : Option (IsU64 K))
    (queries results : List K) (dflt : K) (out : Out K) : Prop where
  /-- Those with binary search. -/
  binary : BinaryReturn N tr t isa u64 queries results dflt out
  /-- `NoPrefetch_Linear` -/
  noPrefetch : (NoPrefetchLinear.batchLookup tr t queries results dflt).Returns out
  /-- `GroupPrefetch_Linear` -/
  groupPrefetch : (GroupPrefetchLinear.batchLookup N t queries results dflt).Returns out
  /-- `SoftwarePipelinedPrefetch_Linear` -/
  pipelined : (SoftwarePipelinedPrefetchLinear.batchLookup N tr t queries results dflt).Returns out
  /-- `VectorizedSearch_Linear` -/
  vectorized : (VectorizedSearchLinear.batchLookup N tr t queries results dflt).Returns out
  /-- `AMACSearch_Linear` -/
  amac : (AMACSearchLinear.batchLookup N tr t queries results dflt).Returns out

theorem allReturn_ownKey {tr : Traits} {t : Tree K K} (ht : t.Verified tr)
    (hsv : tr.selfverify = false) {keys : List K} (hkeys : t.lookup = ownKey keys) (isa : Isa)
    (u64 : Option (IsU64 K)) (queries results : List K) (dflt : K) {N : Nat} (hN : 1 ≤ N) :
    AllReturn N tr t isa u64 queries results dflt
      (lookupAll (ownKey keys) queries results dflt) := by
  have hown : ∀ q ∈ queries, ∀ d, t.lookup q = some d → d = q := by
    intro q _ d hd
    rw [hkeys, ownKey] at hd
    split at hd
    · exact (Option.some.inj hd).symm
    · cases hd
  have hvectorized : (VectorizedSearchLinear.batchLookup N tr t queries results dflt).Returns
      (lookupAll t.lookup queries results dflt) := by
    rw [lookupAll_lookupKey_iff.mpr hown]
    exact VectorizedSearchLinear.batchLookup_returns ht hsv hN
  obtain ⟨hnone, hgroup, hpipelined, hamac⟩ := linear_returns ht hsv queries results dflt hN
  rw [← hkeys]
  exact ⟨binaryReturn_lookupAll ht hsv isa u64 queries results dflt hN, hnone, hgroup, hpipelined,
    hvectorized, hamac⟩

variable [Inhabited K] {p : Params} {keys : List K}

/-- The strategies when keys have been loaded and more of them inserted. -/
theorem Btree.insertKeys_answers (hleaf : 2 ≤ p.leafslotmax) (hinner : 2 ≤ p.innerslotmax)
    (hsv : p.selfverify = false) (hsorted : keys.Pairwise (· ≤ ·)) (more : List K) (isa : Isa)
    (u64 : Option (IsU64 K)) (queries results : List K) (dflt : K) {N : Nat} (hN : 1 ≤ N) :
    ∃ t t', (Btree.new.bulkLoad p (keyed keys)).Returns t ∧
      (t.insertRange p (keyed more)).Returns t' ∧
        AllReturn N p.toTraits t'.toTree isa u64 queries results dflt
          (lookupAll (ownKey (keys ++ more)) queries results dflt) := by
  obtain ⟨t, t', ht, ht', hsound, hlookup⟩ :=
    bulkLoad_insertRange hleaf hinner (sorted_keyed hsorted) (keyed more)
  rw [kept_keyed] at hlookup
  exact ⟨t, t', ht, ht',
    allReturn_ownKey hsound.verified hsv hlookup isa u64 queries results dflt hN⟩

theorem Btree.insertKeys_answers_three :
    ∃ t t' : Btree Nat Nat,
      (Btree.new.bulkLoad smallParams (keyed [1, 4, 4])).Returns t ∧
        (t.insertRange smallParams (keyed [7, 2])).Returns t' ∧
          AllReturn 2 smallParams.toTraits t'.toTree .scalar none [2, 3, 4] [] 0
            (lookupAll (ownKey [1, 4, 4, 7, 2]) [2, 3, 4] [] 0) :=
  Btree.insertKeys_answers (p := smallParams) (by decide) (by decide) rfl (by decide) [7, 2]
    .scalar none [2, 3, 4] [] 0 (by decide)

end BTree
