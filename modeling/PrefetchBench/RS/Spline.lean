import Mathlib.Data.Rat.Floor
import PrefetchBench.Search.Ranges
import PrefetchBench.Windowed.Lockstep

/-!
# RadixSpline

`rs::RadixSpline`: a spline through some points of the sorted keys and their positions, with a
table from key prefixes to spline points.  A lookup narrows the spline to a few points by the
prefix of the key, finds its segment there, interpolates its position and returns a window of
`max_error` around it.

Keys are unsigned words of `w` bits.  Positions are kept as `double` by the code and are exact
rationals here.  A `throw` is a failure of the program, like a read outside an array or a division
by zero.
-/

namespace RS

open Prog Ranges

/-- `KeyType`, unsigned, of `w` bits. -/
abbrev Key (w : Nat) := Fin (2 ^ w)

scoped instance wordNeZero (w : Nat) : NeZero (2 ^ w) := ⟨(Nat.two_pow_pos w).ne'⟩

/-- `Coord` -/
structure Coord (w : Nat) where
  /-- The key. -/
  x : Key w
  /-- Its position. -/
  y : ℚ
deriving DecidableEq

/-! ## Key arithmetic -/

section Arithmetic

variable {w : Nat}

/-- `BitWidth` -/
def bitWidth (x : Nat) : Prog Nat :=
  if x = 0 then pure 1 else do
    let r ← whileM (fun r => pure (decide (0 < r.2))) (fun r => pure (r.1 + 1, r.2 >>> 1)) (0, x)
    pure r.1

/-- `static_cast<size_t>(x << s)`.  A type below the width of `int` is promoted to it. -/
def shiftLeft (w x s : Nat) : Prog Nat :=
  if 32 ≤ w then do
    assert (decide (s < w))
    pure (x * 2 ^ s % 2 ^ w)
  else do
    assert (decide (s < 32) && decide (x * 2 ^ s < 2 ^ 32))
    pure (if x * 2 ^ s < 2 ^ 31 then x * 2 ^ s else 2 ^ 64 - 2 ^ 32 + x * 2 ^ s)

/-- `static_cast<double>(a - b)`: a word from the width of `int` on, else an `int`. -/
def subToDouble (a b : Key w) : ℚ :=
  if 32 ≤ w then ((a - b : Key w) : Nat) else (a : Nat) - (b : Nat)

/-- `GetPrefix`, the same in `Builder` and in `RadixSpline`. -/
def getPrefix (numRadixBits : Nat) (minKey maxKey key : Key w) : Prog Nat :=
  if numRadixBits = 0 then pure 0 else do
    let maxPrefix := 2 ^ numRadixBits - 1
    let diff : Key w :=
      if key ≤ minKey then 0 else if maxKey ≤ key then maxKey - minKey else key - minKey
    let keyRange := maxKey - minKey
    let keyBits ← bitWidth keyRange
    let bucket ←
      if numRadixBits < keyBits then pure (diff.val >>> (keyBits - numRadixBits))
      else shiftLeft w diff (numRadixBits - keyBits)
    pure (if maxPrefix < bucket then maxPrefix else bucket)

end Arithmetic

/-! ## The index -/

/-- `RadixSpline` -/
structure RadixSpline (w : Nat) where
  /-- The smallest key. -/
  minKey : Key w
  /-- The largest key. -/
  maxKey : Key w
  /-- The number of keys. -/
  numKeys : Nat
  /-- The number of bits of a prefix. -/
  numRadixBits : Nat
  /-- Half the width of the windows. -/
  maxError : Nat
  /-- The spline. -/
  splinePoints : List (Coord w)
  /-- For each prefix, the first spline point with that prefix or a larger one. -/
  radixTable : List Nat

namespace RadixSpline

variable {w : Nat}

/-- The default constructor. -/
def empty : RadixSpline w := ⟨0, 0, 0, 0, 0, [], []⟩

/-- The constructor. -/
def new (minKey maxKey : Key w) (numKeys numRadixBits maxError : Nat)
    (splinePoints : List (Coord w)) (radixTable : List Nat) : Prog (RadixSpline w) := do
  assert (decide (numRadixBits < 64))
  assert (radixTable.isEmpty || decide (radixTable.length = 2 ^ numRadixBits + 1))
  pure ⟨minKey, maxKey, numKeys, numRadixBits, maxError, splinePoints, radixTable⟩

variable (s : RadixSpline w)

/-- `GetPrefix` -/
def getPrefix (key : Key w) : Prog Nat := RS.getPrefix s.numRadixBits s.minKey s.maxKey key

/-- The first part of `GetSplineSegment`: the spline points that the prefix of the key leaves. -/
def radixRange (key : Key w) : Prog Window := do
  let n := s.splinePoints.length
  if s.radixTable.isEmpty then pure ⟨0, n⟩ else do
    let bucket ← s.getPrefix key
    let searchBegin ← read s.radixTable bucket
    let searchEnd ← read s.radixTable (bucket + 1)
    let searchBegin := if 0 < searchBegin then searchBegin - 1 else searchBegin
    let searchEnd := if searchEnd < n then searchEnd + 1 else searchEnd
    let searchBegin := if n ≤ searchBegin then n - 1 else searchBegin
    let searchEnd := if n < searchEnd then n else searchEnd
    if searchEnd ≤ searchBegin then
      pure ⟨searchBegin, if n < searchBegin + 1 then n else searchBegin + 1⟩
    else pure ⟨searchBegin, searchEnd⟩

/-- `GetSplineSegment` -/
def getSplineSegment (key : Key w) : Prog Nat := do
  let n := s.splinePoints.length
  if n ≤ 1 then pure 0 else do
    let range ← s.radixRange key
    let it ← upperBound (fun point => decide (key < point.x)) s.splinePoints range.lo range.hi
    let idx := if it = 0 then 0 else it - 1
    pure (if n - 1 ≤ idx then n - 2 else idx)

/-- `ClampPosition` -/
def clampPosition (pos : ℚ) : Nat :=
  if pos ≤ 0 then 0 else if (s.numKeys : ℚ) ≤ pos then s.numKeys else ⌊pos⌋.toNat

/-- The last part of `GetEstimatedPosition`: the position on the segment.  A division by zero is a
failure. -/
def interpolate (left right : Coord w) (key : Key w) : Prog Nat :=
  if right.x = left.x then pure (s.clampPosition left.y) else do
    let xDiff := subToDouble right.x left.x
    let yDiff := right.y - left.y
    assert (decide (xDiff ≠ 0))
    let slope := yDiff / xDiff
    let estimated := left.y + slope * subToDouble key left.x
    pure (s.clampPosition estimated)

/-- `GetEstimatedPosition` -/
def getEstimatedPosition (key : Key w) : Prog Nat := do
  let n := s.splinePoints.length
  if n = 0 then pure 0 else do
    let front ← read s.splinePoints 0
    if n = 1 then pure (s.clampPosition front.y) else
    if key ≤ front.x then pure (s.clampPosition front.y) else do
    let back ← read s.splinePoints (n - 1)
    if back.x ≤ key then pure (s.clampPosition back.y) else do
    let segmentIdx ← s.getSplineSegment key
    let left ← read s.splinePoints segmentIdx
    let right ← read s.splinePoints (segmentIdx + 1)
    s.interpolate left right key

/-- `GetSearchBound` -/
def getSearchBound (key : Key w) : Prog Window :=
  if s.numKeys = 0 ∨ s.splinePoints = [] then pure ⟨0, 0⟩ else do
    let pos ← s.getEstimatedPosition key
    let lo := if s.maxError < pos then pos - s.maxError else 0
    let hi := (pos + s.maxError + 2) % 2 ^ 64
    let hi := if s.numKeys < hi then s.numKeys else hi
    let lo := if hi < lo then hi else lo
    pure ⟨lo, hi⟩

end RadixSpline

end RS
