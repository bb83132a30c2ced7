import PrefetchBench.BTree.Agreement
import PrefetchBench.BTree.Inserted

/-!
# Runs of insertions

An insertion into a tree updates what is found for its key, and nothing else
(`Btree.insert_returns`).  A run of insertions into a tree is the run on the sequence of its entries
(`Btree.insertRange_sound`), whatever the splits on the way.  What a lookup finds afterwards is then
a matter of the order of the insertions alone (`kept`): the last entry of its key if duplicates
are allowed, and the first one otherwise.  All strategies with binary search return that
(`Btree.insertRange_answers`).
-/

namespace BTree

open Prog KeyArray Ordered Batch

variable {K D : Type} [LinearOrder K]

/-! ## The strategies -/

/-- All strategies with binary search return the same. -/
structure BinaryReturn (N : Nat) (tr : Traits) (t : Tree K D) (isa : Isa)
    (u64 : Option (IsU64 K)) (queries : List K) (results : List D) (dflt : D) (out : Out D) :
    Prop where
  /-- `NoPrefetch` -/
  noPrefetch : (NoPrefetch.batchLookup tr t queries results dflt).Returns out
  /-- `GroupPrefetch` -/
  groupPrefetch : (GroupPrefetch.batchLookup N tr t queries results dflt).Returns out
  /-- `SoftwarePipelinedPrefetch` -/
  pipelined : (SoftwarePipelinedPrefetch.batchLookup N tr t queries results dflt).Returns out
  /-- `VectorizedSearch` -/
  vectorized : (VectorizedSearch.batchLookup (simdLowerBoundU64 isa u64) N tr t queries results
    dflt).Returns out
  /-- `AMACSearch` -/
  amac : (AMACSearch.batchLookup N tr t queries results dflt).Returns out

theorem binaryReturn_lookupAll {tr : Traits} {t : Tree K D} (ht : t.Verified tr)
    (hsv : tr.selfverify = false) (isa : Isa) (u64 : Option (IsU64 K)) (queries : List K)
    (results : List D) (dflt : D) {N : Nat} (hN : 1 ≤ N) :
    BinaryReturn N tr t isa u64 queries results dflt
      (lookupAll t.lookup queries results dflt) where
  noPrefetch := serialLookup_returns findLower_exact ht hsv
  groupPrefetch := GroupPrefetch.batchLookup_returns ht hN
  pipelined := SoftwarePipelinedPrefetch.batchLookup_returns ht hsv hN
  vectorized := VectorizedSearch.batchLookup_returns (simdLowerBoundU64_exact isa u64) ht hsv hN
  amac := AMACSearch.batchLookup_returns ht hsv hN

/-! ## One insertion -/

/-- Nodes of two slots. -/
def smallParams : Params := ⟨⟨2, 2, false, by decide, by decide⟩, true, false, true⟩

theorem Tree.lookup_eq_none_iff {t : Tree K D} {key : K} :
    t.lookup key = none ↔ ¬ Present key t.entries := by
  rw [Tree.lookup, Option.map_eq_none_iff, find?_eq_none_iff]

theorem Tree.lookup_insertEntry {t t' : Tree K D} (h : Sorted t.entries) {key : K} {value : D}
    (hentries : t'.entries = insertEntry key value t.entries) :
    t'.lookup = Function.update t.lookup key (some value) := by
  funext q
  rw [Tree.lookup, hentries, find?_insertEntry h, Function.update_apply, Tree.lookup]
  by_cases hq : key = q
  · rw [if_pos hq, if_pos hq.symm]
    rfl
  · rw [if_neg hq, if_neg (Ne.symm hq)]

section Insert

variable [Inhabited K] [Inhabited D] {p : Params} {t : Btree K D}

/-- An insertion changes what is found for its key and for no other, unless it is refused.  The
iterator it returns is in a leaf of the new tree, behind all smaller keys, at the entry that is then
found. -/
theorem Btree.insert_returns (hleaf : 2 ≤ p.leafslotmax) (hinner : 2 ≤ p.innerslotmax)
    (h : t.Sound p.toTraits) (key : K) (value : D) :
    ∃ t' leaf slot inserted, (t.insert p key value).Returns (t', (leaf, slot), inserted) ∧
      t'.Sound p.toTraits ∧
        (inserted = true ↔ p.allowDuplicates = true ∨ t.lookup key = none) ∧
          t'.lookup = (if inserted then Function.update t.lookup key (some value) else t.lookup) ∧
            t'.stats.itemcount = t.stats.itemcount + (if inserted then 1 else 0) ∧
              leaf.slotkey[slot]? = some key ∧ leaf.slotdata[slot]? = t'.lookup key ∧
                ∃ before behind, t'.leaves = before ++ leaf :: behind ∧
                  (∀ e ∈ entriesOf 0 (before.map Node.leaf), e.1 < key) ∧
                    ∀ e ∈ ((Node.leaf leaf).entries 0).take slot, e.1 < key := by
  obtain ⟨⟨t', ⟨leaf, slot⟩, inserted⟩, hreturns, hr⟩ := h.insert hleaf hinner key value
  have hentries : t'.entries = add p.allowDuplicates t.entries (key, value) := hr.entries_eq
  have hinserted : inserted = true ↔ ¬ (p.allowDuplicates = false ∧ Present key t.entries) :=
    hr.inserted_iff
  obtain ⟨e, he, hkey, hdata⟩ := hr.position
  refine ⟨t', leaf, slot, inserted, hreturns, hr.sound, ?_, ?_, ?_, ?_, ?_, hr.located⟩
  · rw [hinserted, Tree.lookup_eq_none_iff, not_and_or, Bool.not_eq_false]
  · rw [add] at hentries
    split at hentries
    case isTrue hrefused =>
      rw [if_neg fun hc => hinserted.mp hc hrefused]
      exact funext fun q => by rw [Tree.lookup, hentries, Tree.lookup]
    case isFalse hnew =>
      rw [if_pos (hinserted.mpr hnew)]
      exact Tree.lookup_insertEntry h.sorted hentries
  · rw [hr.sound.itemcount, h.itemcount, hentries, add]
    split
    case isTrue hrefused => rw [if_neg fun hc => hinserted.mp hc hrefused, Nat.add_zero]
    case isFalse hnew => rw [if_pos (hinserted.mpr hnew), length_insertEntry]
  · have heq : e.1 = key := by simpa using List.find?_some he
    rw [← heq]
    exact hkey
  · rw [Tree.lookup, he]
    exact hdata

/-- A full leaf, whose entries an insertion between them splits. -/
def fullLeaf : Btree Nat Nat := ⟨⟨some (.leaf ⟨0, 2, [1, 3], [10, 30]⟩)⟩, ⟨2, 1, 0⟩⟩

theorem Btree.insert_returns_split :
    ∃ t' leaf slot inserted,
      (fullLeaf.insert smallParams 2 20).Returns (t', (leaf, slot), inserted) ∧
      t'.Sound smallParams.toTraits ∧
        (inserted = true ↔ smallParams.allowDuplicates = true ∨ fullLeaf.lookup 2 = none) ∧
          t'.lookup = (if inserted then Function.update fullLeaf.lookup 2 (some 20)
            else fullLeaf.lookup) ∧
            t'.stats.itemcount = 2 + (if inserted then 1 else 0) ∧
              leaf.slotkey[slot]? = some 2 ∧ leaf.slotdata[slot]? = t'.lookup 2 ∧
                ∃ before behind, t'.leaves = before ++ leaf :: behind ∧
                  (∀ e ∈ entriesOf 0 (before.map Node.leaf), e.1 < 2) ∧
                    ∀ e ∈ ((Node.leaf leaf).entries 0).take slot, e.1 < 2 :=
  Btree.insert_returns (p := smallParams) (by decide) (by decide)
    (by decide : fullLeaf.Sound smallParams.toTraits) 2 20

end Insert

/-! ## Runs -/

/-- The data that a run of insertions leaves for a key, after the entries that were there. -/
def kept (duplicates : Bool) (es run : List (K × D)) (key : K) : Option D :=
  ((if duplicates then run.reverse ++ es else es ++ run).find? fun e => e.1 == key).map Prod.snd

theorem find?_addAll {es : List (K × D)} (h : Sorted es) (duplicates : Bool) (run : List (K × D))
    (key : K) :
    ((addAll duplicates es run).find? fun e => e.1 == key).map Prod.snd =
      kept duplicates es run key := by
  rw [kept]
  cases duplicates with
  | true => rw [find?_addAll_true h, if_pos rfl, List.find?_append]
  | false => rw [find?_addAll_false h, if_neg Bool.false_ne_true, List.find?_append]

variable [Inhabited K] [Inhabited D] {p : Params} {t : Btree K D}

/-- `insert` of a range. -/
def Btree.insertRange (p : Params) : Btree K D → List (K × D) → Prog (Btree K D)
  | t, [] => pure t
  | t, e :: run => do
      let r ← t.insert p e.1 e.2
      r.1.insertRange p run

theorem Btree.Sound.insertRange (hleaf : 2 ≤ p.leafslotmax) (hinner : 2 ≤ p.innerslotmax)
    (h : t.Sound p.toTraits) (run : List (K × D)) :
    (t.insertRange p run).Ensures fun t' =>
      t'.Sound p.toTraits ∧ t'.entries = addAll p.allowDuplicates t.entries run := by
  induction run generalizing t with
  | nil => exact Ensures.pure ⟨h, rfl⟩
  | cons e run ih =>
      apply (h.insert hleaf hinner e.1 e.2).bind
      intro r hr
      apply (ih hr.sound).mono
      rintro t' ⟨hsound, hentries⟩
      refine ⟨hsound, ?_⟩
      rw [hentries, hr.entries_eq]
      rfl

/-- A run of insertions keeps the tree sound, and its entries and its size are those of the run on
the sequence of the entries. -/
theorem Btree.insertRange_sound (hleaf : 2 ≤ p.leafslotmax) (hinner : 2 ≤ p.innerslotmax)
    (h : t.Sound p.toTraits) (run : List (K × D)) :
    ∃ t', (t.insertRange p run).Returns t' ∧ t'.Sound p.toTraits ∧
      t'.entries = addAll p.allowDuplicates t.entries run ∧
        t'.stats.itemcount = (addAll p.allowDuplicates t.entries run).length := by
  obtain ⟨t', ht', hsound, hentries⟩ := h.insertRange hleaf hinner run
  exact ⟨t', ht', hsound, hentries, hentries ▸ hsound.itemcount⟩

/-- Four entries, two of them of one key. -/
theorem Btree.insertRange_sound_four :
    ∃ t : Btree Nat Nat,
      (Btree.new.insertRange smallParams [(3, 0), (1, 1), (2, 2), (3, 3)]).Returns t ∧
        t.Sound smallParams.toTraits ∧ t.entries = [(1, 1), (2, 2), (3, 3), (3, 0)] ∧
          t.stats.itemcount = 4 :=
  Btree.insertRange_sound (p := smallParams) (by decide) (by decide) (Btree.new_sound _)
    [(3, 0), (1, 1), (2, 2), (3, 3)]

/-- What a lookup finds after a run of insertions. -/
theorem Btree.Sound.insertRange_lookup (hleaf : 2 ≤ p.leafslotmax) (hinner : 2 ≤ p.innerslotmax)
    (h : t.Sound p.toTraits) (run : List (K × D)) :
    (t.insertRange p run).Ensures fun t' =>
      t'.Sound p.toTraits ∧ t'.lookup = kept p.allowDuplicates t.entries run := by
  apply (h.insertRange hleaf hinner run).mono
  rintro t' ⟨hsound, hentries⟩
  refine ⟨hsound, funext fun key => ?_⟩
  rw [Tree.lookup, hentries]
  exact find?_addAll h.sorted p.allowDuplicates run key

/-- The strategies after a run of insertions. -/
theorem Btree.insertRange_answers (hleaf : 2 ≤ p.leafslotmax) (hinner : 2 ≤ p.innerslotmax)
    (hsv : p.selfverify = false) (h : t.Sound p.toTraits) (run : List (K × D)) (isa : Isa)
    (u64 : Option (IsU64 K)) (queries : List K) (results : List D) (dflt : D) {N : Nat}
    (hN : 1 ≤ N) :
    ∃ t', (t.insertRange p run).Returns t' ∧
      BinaryReturn N p.toTraits t'.toTree isa u64 queries results dflt
        (lookupAll (kept p.allowDuplicates t.entries run) queries results dflt) := by
  obtain ⟨t', ht', hsound, hlookup⟩ := h.insertRange_lookup hleaf hinner run
  refine ⟨t', ht', ?_⟩
  rw [← hlookup]
  exact binaryReturn_lookupAll hsound.verified hsv isa u64 queries results dflt hN

theorem Btree.insertRange_answers_four :
    ∃ t : Btree Nat Nat,
      (Btree.new.insertRange smallParams [(3, 0), (1, 1), (2, 2), (3, 3)]).Returns t ∧
        BinaryReturn 2 smallParams.toTraits t.toTree .scalar none [3, 4] [7] 0
          (lookupAll (kept true [] [(3, 0), (1, 1), (2, 2), (3, 3)]) [3, 4] [7] 0) :=
  Btree.insertRange_answers (p := smallParams) (by decide) (by decide) rfl (Btree.new_sound _)
    [(3, 0), (1, 1), (2, 2), (3, 3)] .scalar none [3, 4] [7] 0 (by decide)

/-- The entry of key 3 that came last is the one that is found. -/
example : lookupAll (kept true [] [(3, 0), (1, 1), (2, 2), (3, 3)]) [3, 4] [7] 0 =
    ⟨[3, 0], [true, false]⟩ := by decide

end BTree
