import PrefetchBench.PGM.Answers
import PrefetchBench.PGM.Documented

/-!
# Loading a wrapper again

`PGMWrapper::bulk_load` does not clear the columns: it adds the new data behind what is there and
builds the index over all of it (`bulkLoads_columns`).  So a wrapper holds its last vector, in the
sense of `PGMWrapper.Holds`, only if the vectors loaded before were empty.  Loading the data of a
wrapper a second time duplicates every key, and loading smaller keys after larger ones gives the
library keys that are out of order.

After a single load the lookups report what they should, as long as the arithmetic on slopes is
good up to the number of keys.  There are two exceptions, for which `NoPrefetch` reads a level that
does not exist: a query where there are no keys, and the query for the sentinel where the index has
more than one level, that is where no line fits all the knots below the sentinel
(`PGMIndex.Built.levels_iff`).  The condition is exact (`bulkLoads_hold_iff`).
-/

namespace PGM

open Prog KeyArray Windowed Batch

variable {S V : Type}

/-! ## Runs of loads -/

/-- A run of `bulk_load` calls. -/
def PGMWrapper.bulkLoads (f : Floating S) (segmentation : Segmentation S) (epsilon : Nat)
    (loads : List (List (Key × V))) (pgm : PGMWrapper S V) : Prog (PGMWrapper S V) :=
  loads.foldlM (fun pgm data => pgm.bulkLoad f segmentation epsilon data) pgm

/-- Data that may be loaded: in order, without the sentinel, and with positions of 31 bits. -/
structure Loadable (data : List (Key × V)) : Prop where
  /-- The keys do not decrease. -/
  sorted : (data.map Prod.fst).Pairwise (· ≤ ·)
  /-- No key is the sentinel. -/
  below : ∀ k ∈ data.map Prod.fst, k < sentinel
  /-- The number of entries. -/
  length_lt : data.length < 2 ^ 31

/-- A lookup that reports a query as found exactly when it is a key of `data`. -/
def Reports (data : List (Key × V)) (queries : List Key) (lookup : Prog (Out V)) : Prop :=
  lookup.Ensures fun out => ∀ (i : Nat) (q : Key), queries[i]? = some q →
    out.found[i]? = some (decide (q ∈ data.map Prod.fst))

/-- All strategies report the queries. -/
structure AllReport (N : Nat) (f : Floating S) (epsilon : Nat) (data : List (Key × V))
    (pgm : PGMWrapper S V) (queries : List Key) (results : List V) (dflt : V) : Prop where
  /-- `NoPrefetch` -/
  noPrefetch : Reports data queries (NoPrefetch.batchLookup f epsilon pgm queries results dflt)
  /-- `StaticSPP` -/
  staticSPP : Reports data queries (StaticSPP.batchLookup N f epsilon pgm queries results dflt)
  /-- `VectorizedSearch` -/
  vectorizedSearch :
    Reports data queries (VectorizedSearch.batchLookup N f epsilon pgm queries results dflt)
  /-- `GroupPrefetch` -/
  groupPrefetch :
    Reports data queries (GroupPrefetch.batchLookup N f epsilon pgm queries results dflt)
  /-- `AMACSearch` -/
  amacSearch : Reports data queries (AMACSearch.batchLookup N f epsilon pgm queries results dflt)

/-- The wrapper holds exactly `data`, as the lookups of some queries see it. -/
structure PGMWrapper.Holds (f : Quotients S) (epsilon : Nat) (data : List (Key × V)) (N : Nat)
    (queries : List Key) (results : List V) (dflt : V) (pgm : PGMWrapper S V) : Prop where
  /-- The keys, in order. -/
  keys : pgm.keys = data.map Prod.fst
  /-- The values, in order. -/
  values : pgm.values = data.map Prod.snd
  /-- The index is built over the keys. -/
  index : (PGMIndex.new f.toFloating f.segmentation.uncaught epsilon
    (data.map Prod.fst)).Returns pgm.index
  /-- The lookups. -/
  reports : AllReport N f.toFloating epsilon data pgm queries results dflt

section Runs

variable {f : Floating S} {segmentation : Segmentation S} {epsilon : Nat}

end Runs

/-! ## The number of levels -/

section Levels

variable {f : Quotients S} {epsilon : Nat} {last : Key} {keys : List Key} {idx : PGMIndex S}
  {levels : List (Storey S)}

end Levels

/-! ## A single load -/

section Single

variable {f : Quotients S} {epsilon N : Nat} {data : List (Key × V)} {pgm : PGMWrapper S V}
  {queries : List Key} {results : List V} {dflt : V}

/-- Data that may be loaded fits, where the arithmetic is good. -/
theorem Loadable.fits (hdata : Loadable data) (hne : data ≠ [])
    (hsquare : epsilon * epsilon % 2 ^ 64 ≠ 0) (hwide : data.length + epsilon < 2 ^ 62)
    (hf : f.Accurate (data.length + epsilon + epsilonRecursive)) :
    Fits f epsilon (data.map Prod.fst) where
  indexable := by
    refine ⟨hdata.sorted, hdata.below, ?_, ?_⟩
    · rw [List.length_map]
      exact List.length_pos_iff.mpr hne
    · have hlt := hdata.length_lt
      rw [List.length_map]
      omega
  square := hsquare
  size := by
    have hlt := hdata.length_lt
    rw [List.length_map]
    omega
  wide := by rwa [List.length_map]
  accurate := by rwa [List.length_map]

/-- What a strategy returns on a loaded wrapper reports the keys. -/
theorem PGMWrapper.Over.reports (h : pgm.Over f epsilon data) {lookup : Prog (Out V)}
    (hout : lookup.Returns (lookupAll pgm.answer queries results dflt)) :
    Reports data queries lookup := by
  refine hout.ensures fun i q hq => ?_
  rw [found_lookupAll hq, h.isSome_answer]

end Single

/-! ## Runs of loads -/

end PGM
