import PrefetchBench.Search.Ranges
import PrefetchBench.Windowed.Lockstep

/-!
# PGM-index

`pgm::PGMIndex` over 64-bit keys, as far as `PGMWrapper` and the strategies use it: segments in
levels, stored back to back from the bottom level up, the build of the levels, and the search from
the root down.

Two parts of the library stand behind parameters.  `Floating` is its arithmetic on slopes: the
product of a slope and a key difference, converted to `size_t`, which can be any word when it is
out of range.  `Segmentation` is `make_segmentation_par`, which splits a sequence of keys into
at least one segment.  `EpsilonRecursive` has its default, for which `segment_for_key` scans a
level from its predicted position.
-/

namespace PGM

open Prog Ranges Windowed

/-- `uint64_t` -/
abbrev Key := Fin (2 ^ 64)

scoped instance keyNeZero : NeZero (2 ^ 64) := ⟨by decide⟩

scoped instance interceptNeZero : NeZero (2 ^ 32) := ⟨by decide⟩

/-- `sentinel` -/
def sentinel : Key := Fin.last (2 ^ 64 - 1)

theorem lt_sentinel_iff {k : Key} : k < sentinel ↔ k ≠ sentinel := Fin.lt_last_iff_ne_last

theorem le_sentinel (k : Key) : k ≤ sentinel := Fin.le_last k

/-- `EpsilonRecursive` -/
def epsilonRecursive : Nat := 4

/-- The arithmetic of the type `Floating` on slopes. -/
structure Floating (S : Type) where
  /-- The slope zero. -/
  zero : S
  /-- `size_t(slope * double(x))` -/
  scale : S → Key → Nat

/-- `Segment` -/
structure Segment (S : Type) where
  /-- The first key. -/
  key : Key
  /-- The slope. -/
  slope : S
  /-- The intercept, a `uint32_t`. -/
  intercept : Fin (2 ^ 32)
deriving DecidableEq

/-- `make_segmentation_par(n, epsilon, in, out)` -/
structure Segmentation (S : Type) where
  /-- The segments that are handed to `out`. -/
  segments : Nat → List Key → Prog (List (Segment S))
  /-- The last segment is handed out after the loop over the keys. -/
  ne_nil : ∀ {epsilon keys out}, (segments epsilon keys).Returns out → out ≠ []

/-- `PGMIndex` -/
structure PGMIndex (S : Type) where
  /-- The number of keys. -/
  n : Nat
  /-- The smallest key. -/
  firstKey : Key
  /-- The segments of all levels. -/
  segments : List (Segment S)
  /-- Where the levels start. -/
  levelsOffsets : List Nat

/-- `ApproxPos` -/
structure ApproxPos where
  /-- The position. -/
  pos : Nat
  /-- The lower end of the range. -/
  lo : Nat
  /-- The upper end of the range. -/
  hi : Nat

variable {S V : Type}

/-- `PGM_SUB_EPS` -/
def subEps (x epsilon : Nat) : Nat := if x ≤ epsilon then 0 else x - epsilon

/-- `PGM_ADD_EPS` -/
def addEps (x epsilon size : Nat) : Nat :=
  if size ≤ (x + epsilon + 2) % 2 ^ 64 then size else (x + epsilon + 2) % 2 ^ 64

/-- `Segment::operator()`: the unclamped prediction. -/
def Segment.position (f : Floating S) (s : Segment S) (k : Key) : Nat :=
  (f.scale s.slope (k - s.key) + s.intercept) % 2 ^ 64

/-! ## Building -/

/-- The state of `build`. -/
structure Levels (S : Type) where
  /-- The segments so far. -/
  segments : List (Segment S)
  /-- The offsets so far. -/
  levelsOffsets : List Nat
  /-- The number of segments of the last level. -/
  lastN : Nat

/-- `Segment(key, 0, last_n)` -/
def flatSegment (f : Floating S) (key : Key) (lastN : Nat) : Segment S :=
  ⟨key, f.zero, Fin.ofNat (2 ^ 32) lastN⟩

/-- What `build_level` adds behind the segments that are handed out, `back` the last of them, and
the number of segments it returns. -/
def closeLevel (f : Floating S) (last : Key) (lastN nSegments : Nat) (back : Segment S) :
    List (Segment S) × Nat :=
  if back.key = sentinel then ([], nSegments - 1)
  else if back.position f (sentinel - 1) < lastN then
    ([flatSegment f (last + 1) lastN, flatSegment f sentinel lastN], nSegments)
  else ([flatSegment f sentinel lastN], nSegments)

/-- `build_level` and the offset pushed after it, over the keys `keys` of the level below. -/
def buildLevel (f : Floating S) (segmentation : Segmentation S) (epsilon : Nat) (last : Key)
    (keys : List Key) (st : Levels S) : Prog (Levels S) := do
  let out ← segmentation.segments epsilon keys
  let back ← ofOption (st.segments ++ out).getLast?
  let close := closeLevel f last keys.length out.length back
  let segments := st.segments ++ (out ++ close.1)
  pure ⟨segments, st.levelsOffsets ++ [segments.length], close.2⟩

/-- `build`; it throws when the last key is the sentinel.  The room it reserves is
`n / (epsilon * epsilon)`. -/
def build (f : Floating S) (segmentation : Segmentation S) (epsilon : Nat) (data : List Key) :
    Prog (List (Segment S) × List Nat) := do
  match data.getLast? with
  | none => pure ([], [])
  | some last => do
      assert (decide (epsilon * epsilon % 2 ^ 64 ≠ 0))
      assert (decide (last ≠ sentinel))
      let st ← buildLevel f segmentation epsilon last data ⟨[], [0], data.length⟩
      let st ← whileM (fun st => pure (decide (1 < st.lastN))) (fun st => do
        let offset ← read st.levelsOffsets (st.levelsOffsets.length - 2)
        let keys := ((st.segments.drop offset).take st.lastN).map Segment.key
        buildLevel f segmentation epsilonRecursive last keys st) st
      pure (st.segments, st.levelsOffsets)

/-- The constructor over a sequence of keys. -/
def PGMIndex.new (f : Floating S) (segmentation : Segmentation S) (epsilon : Nat)
    (data : List Key) : Prog (PGMIndex S) := do
  let r ← build f segmentation epsilon data
  pure ⟨data.length, data.headD 0, r.1, r.2⟩

/-! ## Searching -/

namespace PGMIndex

variable (f : Floating S) (idx : PGMIndex S)

/-- `std::min<size_t>((*it)(k), std::next(it)->intercept)` -/
def clampedPosition (it : Nat) (k : Key) : Prog Nat := do
  let segment ← read idx.segments it
  let next ← read idx.segments (it + 1)
  pure (min (segment.position f k) next.intercept)

/-- `for (; std::next(lo)->key <= key; ++lo) continue;` -/
def scanLevel (key : Key) (lo : Nat) : Prog Nat :=
  loop (fun lo => do
    let next ← read idx.segments (lo + 1)
    if next.key ≤ key then pure (.inl (lo + 1)) else pure (.inr lo)) lo

/-- `segment_for_key`: from the root level down to the bottom one. -/
def segmentForKey (key : Key) : Prog Nat := do
  let root ← read idx.levelsOffsets (idx.levelsOffsets.length - 2)
  forRange (idx.levelsOffsets.length - 2) (fun j it => do
    let levelBegin ← read idx.levelsOffsets (idx.levelsOffsets.length - 3 - j)
    let pos ← idx.clampedPosition f it key
    idx.scanLevel key (levelBegin + subEps pos (epsilonRecursive + 1))) root

/-- `search` -/
def search (epsilon : Nat) (key : Key) : Prog ApproxPos := do
  let k := max idx.firstKey key
  let it ← idx.segmentForKey f k
  let pos ← idx.clampedPosition f it k
  pure ⟨pos, subEps pos epsilon, addEps pos epsilon idx.n⟩

end PGMIndex

/-! ## PGMWrapper -/

/-- `PGMWrapper` -/
structure PGMWrapper (S V : Type) extends Columns Key V where
  /-- The index over the keys. -/
  index : PGMIndex S

/-- A wrapper that has not been loaded. -/
def PGMWrapper.empty : PGMWrapper S V := ⟨⟨[], []⟩, ⟨0, 0, [], []⟩⟩

/-- `PGMWrapper::bulk_load`: the data is added to what is there. -/
def PGMWrapper.bulkLoad (f : Floating S) (segmentation : Segmentation S) (epsilon : Nat)
    (inputData : List (Key × V)) (pgm : PGMWrapper S V) : Prog (PGMWrapper S V) := do
  let keys := pgm.keys ++ inputData.map Prod.fst
  let values := pgm.values ++ inputData.map Prod.snd
  let index ← PGMIndex.new f segmentation epsilon keys
  pure ⟨⟨keys, values⟩, index⟩

end PGM
