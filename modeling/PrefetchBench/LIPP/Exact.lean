import PrefetchBench.LIPP.Constructor

/-!
# What the wrapper holds after its loads

The wrapper passes the number of keys on as an `int`.  So after any sequence of loads it holds a
first part of the last data, with as many keys as that `int` says (`LIPPWrapper.Loaded.bulkLoads`),
and it holds exactly the last data when the number of keys is one of an `int`
(`reloads_exact_iff`).
-/

namespace LIPP

open Batch Prog

variable {K V : Type} {w w' : LIPPWrapper K V} {data last : List (K × V)}

/-! ## The number of keys -/

theorem castInt_of_lt {n : Nat} (h : n < 2 ^ 31) : castInt n = n :=
  Int.bmod_eq_of_le (by omega) (by omega)

theorem castInt_zero : castInt 0 = 0 := castInt_of_lt (by decide)

theorem castInt_lt (n : Nat) : castInt n < 2 ^ 31 :=
  Int.bmod_lt (by decide)

/-- What the wrapper has after the last data: the keys that the `int` counts. -/
structure LIPPWrapper.Loaded (w : LIPPWrapper K V) (last : List (K × V)) : Prop where
  /-- The `int` is a number of keys. -/
  nonneg : 0 ≤ castInt last.length
  /-- The index has them. -/
  index : w.index.Loaded (last.take (castInt last.length).toNat)

theorem LIPPWrapper.Loaded.nil (h : w.index.Loaded []) : w.Loaded [] where
  nonneg := castInt_zero.ge
  index := by
    rw [List.take_nil]
    exact h

/-! ## Values in sorted data -/

variable [LinearOrder K]

theorem valueOf_eq_none_iff {key : K} :
    valueOf data key = none ↔ ∀ value, (key, value) ∉ data := by
  rw [valueOf, Option.map_eq_none_iff, List.find?_eq_none]
  constructor
  · intro h value hmem
    exact h (key, value) hmem (decide_eq_true rfl)
  · intro h item hmem hkey
    obtain ⟨k, value⟩ := item
    cases of_decide_eq_true hkey
    exact h value hmem

theorem valueOf_eq_some {key : K} {value : V} (hsorted : data.Pairwise fun x y => x.1 < y.1)
    (hmem : (key, value) ∈ data) : valueOf data key = some value := by
  induction data with
  | nil => cases hmem
  | cons item rest ih =>
      obtain ⟨hlt, hrest⟩ := List.pairwise_cons.mp hsorted
      rcases List.mem_cons.mp hmem with rfl | hmem
      · simp [valueOf]
      · have hne : item.1 ≠ key := (hlt _ hmem).ne
        rw [← ih hrest hmem, valueOf, List.find?_cons_of_neg (by simpa using hne), valueOf]

/-! ## Runs -/

variable {t : Training K}

/-- A load, whatever was loaded before. -/
theorem LIPPWrapper.Loaded.bulkLoad (hw : w.Loaded last)
    (hsorted : data.Pairwise fun x y => x.1 < y.1) (h : (w.bulkLoad t data).Returns w') :
    w'.Loaded data := by
  rw [LIPPWrapper.bulkLoad] at h
  split at h
  · rename_i hnil
    obtain ⟨index, hindex, h⟩ := returns_bind.mp h
    cases returns_pure.mp h
    subst hnil
    obtain ⟨_, hloaded⟩ := Index.bulkLoad_returns hindex hw.index.owned hsorted
    exact .nil hloaded
  · obtain ⟨_, h⟩ := returns_assert_bind.mp h
    obtain ⟨index, hindex, h⟩ := returns_bind.mp h
    cases returns_pure.mp h
    obtain ⟨hpos, hloaded⟩ := Index.bulkLoad_returns hindex hw.index.owned hsorted
    exact ⟨hpos, hloaded⟩

/-- Any sequence of loads. -/
theorem LIPPWrapper.Loaded.bulkLoads {loads : List (List (K × V))} (hw : w.Loaded last)
    (hsorted : ∀ data ∈ loads, data.Pairwise fun x y => x.1 < y.1)
    (h : (w.bulkLoads t loads).Returns w') : w'.Loaded (loads.getLastD last) := by
  induction loads generalizing w last with
  | nil =>
      cases returns_pure.mp h
      exact hw
  | cons data loads ih =>
      rw [LIPPWrapper.bulkLoads, List.foldlM_cons] at h
      obtain ⟨w1, hw1, h⟩ := returns_bind.mp h
      rw [List.getLastD_cons]
      apply ih (hw.bulkLoad (hsorted data (List.mem_cons_self ..)) hw1) _ h
      intro other hother
      exact hsorted other (List.mem_cons_of_mem data hother)

/-! ## Exactly the last data -/

/-- What the queries of a batch should come to. -/
structure Answers (data : List (K × V)) (queries : List K) (results : List V) (dflt : V)
    (out : Out V) : Prop where
  /-- A flag for each query. -/
  length_found : out.found.length = queries.length
  /-- A value for each query. -/
  length_results : out.results.length = queries.length
  /-- A key of the data is found, with its value. -/
  hit : ∀ (i : Nat) (key : K) (value : V), queries[i]? = some key → (key, value) ∈ data →
    out.found[i]? = some true ∧ out.results[i]? = some value
  /-- Any other key is not found. -/
  miss : ∀ (i : Nat) (key : K), queries[i]? = some key → (∀ value, (key, value) ∉ data) →
    out.found[i]? = some false ∧ out.results[i]? = some (results[i]?.getD dflt)

/-- The wrapper holds exactly the data. -/
structure LIPPWrapper.Exactly (w : LIPPWrapper K V) (data : List (K × V)) : Prop where
  /-- The size of every node is the number of the keys below it. -/
  holds : Holds w.index.heap w.index.root data
  /-- `verify` passes. -/
  verified : (verify w.index.heap w.index.root).Returns ⟨⟩
  /-- `exists` -/
  exists_iff : ∀ key, ∃ b, (existsKey w.index.heap w.index.root key).Returns b ∧
    (b = true ↔ ∃ value, (key, value) ∈ data)
  /-- Batch lookups, whatever the strategy. -/
  lookups : ∀ (N : Nat) (queries : List K) (results : List V) (dflt : V), 1 ≤ N →
    ∃ out, AllDeliver N w.index.heap w.index.root queries results dflt out ∧
      Answers data queries results dflt out
  /-- The nodes in the pool are clear. -/
  pool : ∀ p ∈ w.index.pendingTwo, ∃ n, w.index.heap.content p = some n ∧ n.isTwo = true ∧
    ∀ pos, pos < n.numItems →
      n.noneBitmap.bit pos = some true ∧ n.childBitmap.bit pos = some false

theorem lookupAll_answers (hsorted : data.Pairwise fun x y => x.1 < y.1) (queries : List K)
    (results : List V) (dflt : V) :
    Answers data queries results dflt (lookupAll (valueOf data) queries results dflt) where
  length_found := length_found_lookupAll
  length_results := length_results_lookupAll
  hit i key value hq hmem := by
    rw [found_lookupAll hq, results_lookupAll hq, valueOf_eq_some hsorted hmem]
    exact ⟨rfl, rfl⟩
  miss i key hq hnot := by
    rw [found_lookupAll hq, results_lookupAll hq, valueOf_eq_none_iff.mpr hnot]
    exact ⟨rfl, rfl⟩

/-- A search for a key of a tree. -/
theorem Holds.existsKey {heap : Heap (Node K V)} {p : Nat} (h : Holds heap p data) (key : K) :
    ∃ b, (existsKey heap p key).Returns b ∧ (b = true ↔ ∃ value, (key, value) ∈ data) := by
  obtain ⟨d, hd⟩ := h.descent key
  refine ⟨_, hd.existsKey, ?_⟩
  rw [← Bool.not_eq_false, Option.isSome_eq_false_iff, Option.isNone_iff_eq_none,
    valueOf_eq_none_iff, not_forall_not]

/-- All of it follows from the tree that an index has. -/
theorem LIPPWrapper.exactly_of_loaded (h : w.index.Loaded data)
    (hsorted : data.Pairwise fun x y => x.1 < y.1) : w.Exactly data where
  holds := h.holds
  verified := h.holds.verify
  exists_iff key := h.holds.existsKey key
  lookups N queries results dflt hN := by
    choose depth hdescents using h.holds.descent
    have hdescents : Descents w.index.heap w.index.root depth (valueOf data) := hdescents
    exact ⟨_, hdescents.allDeliver h.holds.tree.ne_zero hN queries results dflt,
      lookupAll_answers hsorted queries results dflt⟩
  pool p hp := by
    obtain ⟨n, hn, hclear⟩ := h.owned.clear p hp
    refine ⟨n, hn, hclear.isTwo, ?_⟩
    intro pos hpos
    exact Node.entry_none_iff.mp (hclear.clear pos hpos)

/-- A wrapper that has a first part of the data only has not all of its keys. -/
theorem LIPPWrapper.not_exactly_of_take {k : Nat} (h : w.index.Loaded (data.take k))
    (hsorted : data.Pairwise fun x y => x.1 < y.1) (hk : k < data.length) : ¬ w.Exactly data := by
  intro hw
  -- the first key that was left out is not found
  have hmem : (data[k].1, data[k].2) ∈ data := List.getElem_mem hk
  obtain ⟨b, hb, hiff⟩ := hw.exists_iff data[k].1
  obtain ⟨b', hb', hiff'⟩ := h.holds.existsKey data[k].1
  obtain rfl := hb.det hb'
  obtain ⟨value, htake⟩ := hiff'.mp (hiff.mpr ⟨_, hmem⟩)
  obtain ⟨i, hi, hget⟩ := List.mem_take_iff_getElem.mp htake
  have hlt := List.pairwise_iff_getElem.mp hsorted i k (hi.trans_le (Nat.min_le_right ..)) hk
    (hi.trans_le (Nat.min_le_left ..))
  rw [hget] at hlt
  exact lt_irrefl _ hlt

/-- The wrapper holds exactly the last data when it could pass the number of keys on. -/
theorem LIPPWrapper.Loaded.exactly_iff (hw : w.Loaded last)
    (hsorted : last.Pairwise fun x y => x.1 < y.1) : w.Exactly last ↔ last.length < 2 ^ 31 := by
  constructor
  · intro hexactly
    by_contra hlen
    have hlt := castInt_lt last.length
    exact LIPPWrapper.not_exactly_of_take hw.index hsorted (by omega) hexactly
  · intro hlen
    have hindex := hw.index
    rw [castInt_of_lt hlen, Int.toNat_natCast, List.take_length] at hindex
    exact LIPPWrapper.exactly_of_loaded hindex hsorted

/-- After any sequence of loads that return, the wrapper holds exactly the last data if and only if
that has fewer than `2^31` keys. -/
theorem reloads_exact_iff (t : Training K) {count : Nat} {zero one : K} {dflt : V}
    {w₀ w : LIPPWrapper K V} {loads : List (List (K × V))}
    (hnew : (LIPPWrapper.new t count zero one dflt).Returns w₀)
    (hsorted : ∀ data ∈ loads, data.Pairwise fun x y => x.1 < y.1)
    (hloads : (w₀.bulkLoads t loads).Returns w) :
    w.Exactly (loads.getLastD []) ↔ (loads.getLastD []).length < 2 ^ 31 := by
  obtain ⟨index, hindex, hnew⟩ := returns_bind.mp hnew
  cases returns_pure.mp hnew
  have hstart : (LIPPWrapper.mk index 0).Loaded [] := .nil (Index.new_returns hindex)
  apply (hstart.bulkLoads hsorted hloads).exactly_iff
  cases loads with
  | nil => exact .nil
  | cons data loads =>
      rw [List.getLastD_cons]
      exact hsorted _ (List.getLastD_mem_cons ..)

/-- Loads of many keys, one key, none, two keys, and many again. -/
def sampleLoads : List (List (Nat × Nat)) :=
  [[(0, 5), (1, 10), (2, 20), (100, 30)], [(7, 70)], [], [(3, 30), (9, 90)],
    [(5, 50), (7, 70), (8, 80)]]

theorem reloads_exact_sample :
    ∃ w₀ w, (LIPPWrapper.new exactTraining 1 0 1 0).Returns w₀ ∧
      (w₀.bulkLoads exactTraining sampleLoads).Returns w ∧
      (w.Exactly [(5, 50), (7, 70), (8, 80)] ↔ [(5, 50), (7, 70), (8, 80)].length < 2 ^ 31) := by
  have hrun : ((LIPPWrapper.new exactTraining 1 0 1 0 >>= fun w₀ =>
      w₀.bulkLoads exactTraining sampleLoads).run 30).isSome = true := by
    decide +kernel
  obtain ⟨w, hw⟩ := Option.isSome_iff_exists.mp hrun
  obtain ⟨w₀, hnew, hloads⟩ := returns_bind.mp ⟨30, hw⟩
  exact ⟨w₀, w, hnew, hloads, reloads_exact_iff exactTraining hnew (by decide) hloads⟩

/-! ## Too many keys -/

/-- The keys below a number, with themselves as values. -/
def keysBelow (n : Nat) : List (Nat × Nat) := (List.range n).map fun key => (key, key)

theorem keysBelow_sorted (n : Nat) : (keysBelow n).Pairwise fun x y => x.1 < y.1 :=
  List.pairwise_map.mpr List.pairwise_lt_range

theorem length_keysBelow (n : Nat) : (keysBelow n).length = n := by
  rw [keysBelow, List.length_map, List.length_range]

/-- A load that passes zero on. -/
theorem LIPPWrapper.bulkLoad_wraps {n : Nat} (hn : n ≠ 0) (hcast : castInt n = 0)
    {w : LIPPWrapper Nat Nat} (hroot : w.index.heap.content w.index.root = some noneNode) :
    (w.bulkLoad exactTraining (keysBelow n)).Ensures fun _ => True := by
  have hne : keysBelow n ≠ [] := by
    rw [ne_eq, ← List.length_eq_zero_iff, length_keysBelow]
    exact hn
  have hchain : (keysBelow n).IsChain fun lhs rhs => ¬ rhs.1 < lhs.1 :=
    ((keysBelow_sorted n).imp fun hlt => hlt.not_gt).isChain
  rw [LIPPWrapper.bulkLoad, if_neg hne, length_keysBelow, hcast]
  refine Ensures.assert_bind (decide_eq_true hchain) ?_
  refine Ensures.bind (P := fun _ => True) ?_ fun index _ => Ensures.pure trivial
  rw [Index.bulkLoad, if_pos rfl]
  refine (destroyTree_none hroot).seq (Ensures.bind (buildTreeNone_ensures _) ?_)
  exact fun r _ => Ensures.pure trivial

/-- As many keys as no `int` counts, and so that the `int` is zero: the load returns, and the
wrapper does not hold them. -/
theorem LIPPWrapper.wraps (count : Nat) {n : Nat} (hn : 2 ^ 31 ≤ n) (hcast : castInt n = 0) :
    ∃ w₀ w : LIPPWrapper Nat Nat, (LIPPWrapper.new exactTraining count 0 1 0).Returns w₀ ∧
      (w₀.bulkLoads exactTraining [keysBelow n]).Returns w ∧ ¬ w.Exactly (keysBelow n) := by
  obtain ⟨model, hmodel, hne⟩ := exactTraining_two
  obtain ⟨index, hindex, hroot⟩ := Index.new_ensures hmodel hne Nat.zero_lt_one count 0
  obtain ⟨w, hw, _⟩ := LIPPWrapper.bulkLoad_wraps (w := ⟨index, 0⟩) (by omega) hcast hroot
  have hstart : (LIPPWrapper.mk index 0).Loaded [] := .nil (Index.new_returns hindex)
  have hloaded := hstart.bulkLoad (keysBelow_sorted n) hw
  refine ⟨⟨index, 0⟩, w, hindex.bind (returns_pure.mpr rfl), hw.bind (returns_pure.mpr rfl), ?_⟩
  rw [hloaded.exactly_iff (keysBelow_sorted n), length_keysBelow]
  exact hn.not_gt

theorem reload_wraps :
    ∃ w₀ w : LIPPWrapper Nat Nat,
      (LIPPWrapper.new exactTraining 10000000 0 1 0).Returns w₀ ∧
      (w₀.bulkLoads exactTraining [keysBelow (2 ^ 32)]).Returns w ∧
      ¬ w.Exactly (keysBelow (2 ^ 32)) :=
  LIPPWrapper.wraps 10000000 (by decide) (by decide)

end LIPP
