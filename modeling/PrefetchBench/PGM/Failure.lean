import PrefetchBench.Prog.Throwing
import PrefetchBench.PGM.Strategies

/-!
# Loads that throw

The library throws when the last key is its sentinel, when the keys of a segment do not increase,
and when an intercept does not fit.  `bulk_load` has added the data to the columns by then, and
keeps its old index, since the assignment of the new one does not happen.  So a load that throws
leaves the wrapper as it was exactly when it was given no data (`tryBulkLoad_intact_iff`).

`tryBulkLoad` says for every call how it ends and what it leaves.  Without the exceptions it is
`bulkLoad` (`tryBulkLoad_ok`).
-/

namespace PGM

open Prog Windowed

variable {S V : Type}

/-! ## The library with its exceptions -/

/-- What the library throws. -/
inductive Exception where
  | invalidArgument (what : String)
  | logicError (what : String)
  | overflowError (what : String)

/-- `"The value " + std::to_string(sentinel) + " is reserved as a sentinel."` -/
def sentinelReserved : Exception :=
  .invalidArgument ("The value " ++ toString sentinel.val ++ " is reserved as a sentinel.")

/-- What `add_point` throws. -/
def notIncreasing : Exception := .logicError "Points must be increasing by x."

/-- What the constructor of `Segment` throws for an intercept of more than 32 bits. -/
def interceptOverflow : Exception :=
  .overflowError "Change the type of Segment::intercept to uint64"

/-- What it throws for an intercept below zero. -/
def interceptNegative : Exception := .overflowError "Unexpected intercept < 0"

/-- `make_segmentation_par(n, epsilon, in, out)`, where `add_point` and `out` may throw. -/
structure ThrowingSegmentation (S : Type) where
  /-- The segments that are handed to `out`. -/
  segments : Nat → List Key → Throwing Exception (List (Segment S))
  /-- What it throws. -/
  throws : ∀ {epsilon keys e}, (segments epsilon keys).run.Returns (.error e) →
    e = notIncreasing ∨ e = interceptOverflow ∨ e = interceptNegative
  /-- The last segment is handed out after the loop over the keys. -/
  ne_nil : ∀ {epsilon keys out}, (segments epsilon keys).run.Returns (.ok out) → out ≠ []

/-- The segmentation of callers that catch nothing. -/
def ThrowingSegmentation.uncaught (segmentation : ThrowingSegmentation S) : Segmentation S where
  segments epsilon keys := orFail (segmentation.segments epsilon keys)
  ne_nil h := segmentation.ne_nil (returns_orFail.mp h)

/-- `build_level` and the offset pushed after it. -/
def tryBuildLevel (f : Floating S) (segmentation : ThrowingSegmentation S) (epsilon : Nat)
    (last : Key) (keys : List Key) (st : Levels S) : Throwing Exception (Levels S) := do
  let out ← segmentation.segments epsilon keys
  let back ← ExceptT.lift (ofOption (st.segments ++ out).getLast?)
  let close := closeLevel f last keys.length out.length back
  let segments := st.segments ++ (out ++ close.1)
  pure ⟨segments, st.levelsOffsets ++ [segments.length], close.2⟩

/-- `build` -/
def tryBuild (f : Floating S) (segmentation : ThrowingSegmentation S) (epsilon : Nat)
    (data : List Key) : Throwing Exception (List (Segment S) × List Nat) :=
  match data.getLast? with
  | none => pure ([], [])
  | some last => do
      ExceptT.lift (assert (decide (epsilon * epsilon % 2 ^ 64 ≠ 0)))
      if last = sentinel then throw sentinelReserved else do
        let st ← tryBuildLevel f segmentation epsilon last data ⟨[], [0], data.length⟩
        let st ← tryWhile (fun st => decide (1 < st.lastN)) (fun st => do
          let offset ← ExceptT.lift (read st.levelsOffsets (st.levelsOffsets.length - 2))
          let keys := ((st.segments.drop offset).take st.lastN).map Segment.key
          tryBuildLevel f segmentation epsilonRecursive last keys st) st
        pure (st.segments, st.levelsOffsets)

/-- The constructor over a sequence of keys. -/
def PGMIndex.tryNew (f : Floating S) (segmentation : ThrowingSegmentation S) (epsilon : Nat)
    (data : List Key) : Throwing Exception (PGMIndex S) := do
  let r ← tryBuild f segmentation epsilon data
  pure ⟨data.length, data.headD 0, r.1, r.2⟩

/-- `PGMWrapper::bulk_load`: the wrapper it leaves, and how it ends. -/
def PGMWrapper.tryBulkLoad (f : Floating S) (segmentation : ThrowingSegmentation S)
    (epsilon : Nat) (inputData : List (Key × V)) (pgm : PGMWrapper S V) :
    Prog (PGMWrapper S V × Except Exception Unit) := do
  let keys := pgm.keys ++ inputData.map Prod.fst
  let values := pgm.values ++ inputData.map Prod.snd
  match (← (PGMIndex.tryNew f segmentation epsilon keys).run) with
  | .ok index => pure (⟨⟨keys, values⟩, index⟩, .ok ⟨⟩)
  | .error e => pure (⟨⟨keys, values⟩, pgm.index⟩, .error e)

section Loads

variable {f : Floating S} {segmentation : ThrowingSegmentation S} {epsilon : Nat}

/-! ## Loads that do not throw -/

theorem orFail_tryBuildLevel (last : Key) (keys : List Key) (st : Levels S) :
    orFail (tryBuildLevel f segmentation epsilon last keys st) =
      buildLevel f segmentation.uncaught epsilon last keys st := by
  simp only [tryBuildLevel, orFail_bind, orFail_lift, orFail_pure]
  rfl

theorem orFail_tryBuild (data : List Key) : orFail (tryBuild f segmentation epsilon data) =
    build f segmentation.uncaught epsilon data := by
  rw [tryBuild, build]
  cases data.getLast? with
  | none => rfl
  | some last =>
      simp only [orFail_bind, orFail_lift]
      refine congrArg _ (funext fun _ => ?_)
      by_cases hlast : last = sentinel
      · rw [if_pos hlast, orFail_throw, decide_eq_false (not_not.mpr hlast)]
        rfl
      · rw [if_neg hlast, decide_eq_true hlast]
        simp only [orFail_bind, orFail_tryWhile, orFail_lift, orFail_tryBuildLevel, orFail_pure]
        rfl

theorem orFail_tryNew (data : List Key) : orFail (PGMIndex.tryNew f segmentation epsilon data) =
    PGMIndex.new f segmentation.uncaught epsilon data := by
  rw [PGMIndex.tryNew, orFail_bind, orFail_tryBuild]
  rfl

/-- A call that does not throw does what `bulkLoad` says. -/
theorem tryBulkLoad_ok {data : List (Key × V)} {pgm after : PGMWrapper S V} :
    (pgm.tryBulkLoad f segmentation epsilon data).Returns (after, .ok ⟨⟩) ↔
      (pgm.bulkLoad f segmentation.uncaught epsilon data).Returns after := by
  rw [PGMWrapper.tryBulkLoad, PGMWrapper.bulkLoad, returns_bind, returns_bind, ← orFail_tryNew]
  constructor
  · rintro ⟨r, hr, h⟩
    cases r with
    | ok index =>
        cases returns_pure.mp h
        exact ⟨index, returns_orFail.mpr hr, returns_pure.mpr rfl⟩
    | error e => cases returns_pure.mp h
  · rintro ⟨index, hindex, h⟩
    cases returns_pure.mp h
    exact ⟨.ok index, returns_orFail.mp hindex, returns_pure.mpr rfl⟩

/-! ## Loads that throw -/

/-- A call that throws has added its data to the columns, and has not replaced the index. -/
theorem tryBulkLoad_error {data : List (Key × V)} {pgm after : PGMWrapper S V} {e : Exception}
    (h : (pgm.tryBulkLoad f segmentation epsilon data).Returns (after, .error e)) :
    after = ⟨⟨pgm.keys ++ data.map Prod.fst, pgm.values ++ data.map Prod.snd⟩, pgm.index⟩ := by
  obtain ⟨r, _, h⟩ := returns_bind.mp h
  cases r with
  | ok index => cases returns_pure.mp h
  | error e' =>
      cases returns_pure.mp h
      rfl

theorem tryNew_sentinel {data : List Key} (hdata : data.getLast? = some sentinel)
    (hE : epsilon * epsilon % 2 ^ 64 ≠ 0) :
    (PGMIndex.tryNew f segmentation epsilon data).run.Returns (.error sentinelReserved) := by
  refine Returns.bind (f := ExceptT.bindCont _) (a := .error sentinelReserved) ?_
    (returns_pure.mpr rfl)
  rw [tryBuild, hdata]
  refine Returns.bind (f := ExceptT.bindCont _) (a := .ok ⟨⟩) ?_ ?_
  · exact Returns.map _ (returns_assert.mpr (decide_eq_true hE))
  · simp only [ExceptT.bindCont, if_true]
    exact returns_pure.mpr rfl

/-- A load whose last key is the sentinel throws. -/
theorem tryBulkLoad_sentinel (hE : epsilon * epsilon % 2 ^ 64 ≠ 0) (data : List (Key × V)) (v : V)
    (pgm : PGMWrapper S V) :
    (pgm.tryBulkLoad f segmentation epsilon (data ++ [(sentinel, v)])).Returns
      (⟨⟨pgm.keys ++ (data ++ [(sentinel, v)]).map Prod.fst,
        pgm.values ++ (data ++ [(sentinel, v)]).map Prod.snd⟩, pgm.index⟩,
          .error sentinelReserved) := by
  refine Returns.bind (tryNew_sentinel ?_ hE) (returns_pure.mpr rfl)
  rw [List.map_append, ← List.append_assoc]
  exact List.getLast?_concat

/-- A load that throws leaves the wrapper as it was if and only if it was given no data. -/
theorem tryBulkLoad_intact_iff {data : List (Key × V)} {pgm after : PGMWrapper S V} {e : Exception}
    (h : (pgm.tryBulkLoad f segmentation epsilon data).Returns (after, .error e)) :
    after = pgm ↔ data = [] := by
  rw [tryBulkLoad_error h]
  constructor
  · intro heq
    have hkeys := congrArg (fun pgm => pgm.keys.length) heq
    rw [List.length_append, List.length_map] at hkeys
    exact List.length_eq_zero_iff.mp (by omega)
  · rintro rfl
    simp

end Loads

/-! ## Two keys, and the sentinel -/

/-- A segmentation that never throws. -/
def Segmentation.throwing (segmentation : Segmentation S) : ThrowingSegmentation S where
  segments epsilon keys := ExceptT.lift (segmentation.segments epsilon keys)
  throws h := absurd h not_returns_lift_error
  ne_nil h := by
    have hout := returns_orFail.mpr h
    rw [orFail_lift] at hout
    exact segmentation.ne_nil hout

theorem Segmentation.uncaught_throwing (segmentation : Segmentation S) :
    segmentation.throwing.uncaught = segmentation := by
  simp only [ThrowingSegmentation.uncaught, Segmentation.throwing, orFail_lift]

/-- After the keys 1 and 11 have been loaded, loading the sentinel throws and leaves it in the
columns. -/
theorem tryBulkLoad_leaves_sentinel :
    (PGMWrapper.empty.tryBulkLoad fractions (oneSegment (1, 5)).throwing 1
        [(1, 10), (11, 20)]).Returns (twoKeys (1, 5) 11, .ok ⟨⟩) ∧
      ((twoKeys (1, 5) 11).tryBulkLoad fractions (oneSegment (1, 5)).throwing 1
        [(sentinel, 30)]).Returns
          (⟨⟨[1, 11, sentinel], [10, 20, 30]⟩, (twoKeys (1, 5) 11).index⟩,
            .error sentinelReserved) ∧
      (⟨⟨[1, 11, sentinel], [10, 20, 30]⟩, (twoKeys (1, 5) 11).index⟩ :
        PGMWrapper (Nat × Nat) Nat) ≠ twoKeys (1, 5) 11 := by
  refine ⟨tryBulkLoad_ok.mpr ?_, tryBulkLoad_sentinel (by decide) [] 30 _, fun hc => ?_⟩
  · rw [Segmentation.uncaught_throwing]
    exact twoKeys_load (by decide) (by decide) (by decide)
  · exact absurd (congrArg (fun pgm => pgm.keys.length) hc) (by decide)

theorem tryBulkLoad_intact_iff_sentinel :
    (⟨⟨[1, 11, sentinel], [10, 20, 30]⟩, (twoKeys (1, 5) 11).index⟩ :
      PGMWrapper (Nat × Nat) Nat) = twoKeys (1, 5) 11 ↔ [(sentinel, 30)] = [] :=
  tryBulkLoad_intact_iff
    (@tryBulkLoad_sentinel _ _ fractions (oneSegment (1, 5)).throwing 1 (by decide) [] 30 _)

end PGM
