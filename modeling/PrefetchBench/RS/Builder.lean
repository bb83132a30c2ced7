import PrefetchBench.RS.Spline

/-!
# Building a RadixSpline

`rs::Builder` takes the keys in nondecreasing order, makes a spline point of every
`max_error`-th of them and of the last one, and fills the radix table.  `RSWrapper::build` sorts
its input by key, together with the values, and hands the keys to a builder.
-/

namespace RS

open Prog Windowed

variable {w : Nat} {V : Type}

/-! ## Builder -/

/-- `Builder` -/
structure Builder (w : Nat) where
  /-- The smallest key that may be added. -/
  minKey : Key w
  /-- The largest key that may be added. -/
  maxKey : Key w
  /-- The number of bits of a prefix. -/
  numRadixBits : Nat
  /-- The distance of spline points, and half the width of the windows. -/
  maxError : Nat
  /-- The keys added so far. -/
  keys : List (Key w)

/-- The state of the loop in `BuildSplinePoints`. -/
structure SplineLoop (w : Nat) where
  /-- The spline points so far. -/
  splinePoints : List (Coord w)
  /-- The position of the last one. -/
  lastAdded : Nat
  /-- The next position. -/
  i : Nat

namespace Builder

/-- The constructor. -/
def new (minKey maxKey : Key w) (numRadixBits maxError : Nat) : Prog (Builder w) := do
  assert (decide (minKey ≤ maxKey))
  assert (decide (numRadixBits < 64))
  pure ⟨minKey, maxKey, numRadixBits, maxError, []⟩

variable (b : Builder w)

/-- `AddKey` -/
def addKey (key : Key w) : Prog (Builder w) := do
  assert (b.keys.getLast?.all fun last => decide (last ≤ key))
  assert (decide (b.minKey ≤ key) && decide (key ≤ b.maxKey))
  pure { b with keys := b.keys ++ [key] }

/-- `BuildSplinePoints` -/
def buildSplinePoints : Prog (List (Coord w)) := do
  let n := b.keys.length
  if n = 0 then pure [] else do
    let stride := max 1 b.maxError
    let first ← read b.keys 0
    let r ← whileM (fun r => pure (decide (r.i < n))) (fun r => do
      let x ← read b.keys r.i
      pure (⟨r.splinePoints ++ [⟨x, r.i⟩], r.i, r.i + stride⟩ : SplineLoop w))
      ⟨[⟨first, 0⟩], 0, stride⟩
    if r.lastAdded = n - 1 then pure r.splinePoints else do
      let x ← read b.keys (n - 1)
      pure (r.splinePoints ++ [⟨x, (n - 1 : Nat)⟩])

/-- `GetPrefix` -/
def getPrefix (key : Key w) : Prog Nat := RS.getPrefix b.numRadixBits b.minKey b.maxKey key

/-- The loops of `BuildRadixTable` that fill entries: `radix_table[table_pos++] = i` while
`more table_pos`. -/
def fillTable (more : Nat → Bool) (i : Nat) : List Nat × Nat → Prog (List Nat × Nat) :=
  whileM (fun r => pure (more r.2)) fun r => do
    let table ← write r.1 r.2 i
    pure (table, r.2 + 1)

/-- `BuildRadixTable` -/
def buildRadixTable (splinePoints : List (Coord w)) : Prog (List Nat) := do
  let radixLimit := 2 ^ b.numRadixBits
  let radixTable := List.replicate (radixLimit + 1) splinePoints.length
  if splinePoints = [] then pure radixTable else do
    let r ← forRange splinePoints.length (fun i r => do
      let point ← read splinePoints i
      let bucket ← b.getPrefix point.x
      fillTable (fun tablePos => decide (tablePos ≤ bucket) && decide (tablePos < radixLimit)) i r)
      (radixTable, 0)
    let r ← fillTable (fun tablePos => decide (tablePos ≤ radixLimit)) splinePoints.length r
    pure r.1

/-- `Finalize` -/
def finalize : Prog (RadixSpline w) := do
  let splinePoints ← b.buildSplinePoints
  let radixTable ← b.buildRadixTable splinePoints
  RadixSpline.new b.minKey b.maxKey b.keys.length b.numRadixBits b.maxError splinePoints radixTable

end Builder

/-- An index as its users make it: a builder is given the keys one by one and finalized. -/
def RadixSpline.ofKeys (minKey maxKey : Key w) (numRadixBits maxError : Nat)
    (keys : List (Key w)) : Prog (RadixSpline w) := do
  let builder ← Builder.new minKey maxKey numRadixBits maxError
  let builder ← forRange keys.length (fun i builder => do
    let key ← read keys i
    builder.addKey key) builder
  builder.finalize

/-! ## RSWrapper -/

/-- `RSWrapper` -/
structure RSWrapper (w : Nat) (V : Type) extends Columns (Key w) V where
  /-- The index over the keys. -/
  index : RadixSpline w

/-- The sort of `SortByKey`: positions, in a stable order by key. -/
def sortedOrder (keys : List (Key w)) : List (Fin keys.length) :=
  (List.finRange keys.length).mergeSort fun a b => decide (keys[a] ≤ keys[b])

/-- `SortByKey` -/
def sortByKey (keys : List (Key w)) (values : List V) (h : keys.length = values.length) :
    Columns (Key w) V :=
  if keys.IsChain (· ≤ ·) then ⟨keys, values⟩ else
    ⟨(sortedOrder keys).map keys.get, (sortedOrder keys).map fun i => values.get (i.cast h)⟩

/-- `RSWrapper::build` -/
def RSWrapper.build (numRadixBits maxError : Nat) (inputKeys : List (Key w))
    (inputValues : List V) : Prog (RSWrapper w V) :=
  if h : inputKeys.length = inputValues.length then
    if inputKeys = [] then pure ⟨⟨inputKeys, inputValues⟩, RadixSpline.empty⟩ else do
      let t := sortByKey inputKeys inputValues h
      let front ← read t.keys 0
      let back ← read t.keys (t.keys.length - 1)
      let builder ← Builder.new front back numRadixBits maxError
      let builder ← forRange t.keys.length (fun i builder => do
        let key ← read t.keys i
        builder.addKey key) builder
      let index ← builder.finalize
      pure ⟨t, index⟩
  else fail

end RS
