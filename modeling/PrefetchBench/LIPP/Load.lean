import PrefetchBench.LIPP.Index

/-!
# Loading a LIPP index

The memory of an index is its nodes and a pool of recycled two-key nodes.  `bulk_load` destroys the
old tree, which puts its two-key nodes into the pool, and builds the new one: a bulk build keeps a
stack of segments of the keys, gives the keys of a segment that are predicted to one position a
child of their own, and takes the nodes of segments of two keys from the pool.

The models are floating-point arithmetic.  A `Training` stands for what `PREDICT_POS` makes of
them: it is any choice of monotone predictions, for both ways of a bulk build.
-/

namespace LIPP

open Prog

variable {K V : Type}

/-! ## Memory -/

/-- The nodes, and the pool. -/
structure Store (K V : Type) where
  /-- The nodes. -/
  heap : Heap (Node K V)
  /-- The recycled nodes, the one that is used next first. -/
  pendingTwo : List Nat

/-- The index. -/
structure Index (K V : Type) extends Store K V where
  /-- The root. -/
  root : Nat

/-- A segment of the keys, and the memory for its node. -/
structure Segment where
  /-- The first key. -/
  first : Nat
  /-- The end of the keys. -/
  last : Nat
  /-- The memory. -/
  node : Nat

/-- `int` arithmetic: undefined when it overflows. -/
def toInt (x : Int) : Prog Int := do
  assert (decide (-2147483648 ≤ x ∧ x ≤ 2147483647))
  pure x

/-- Where the node predicts the keys of the training, or where the assertions on its model fail. -/
structure Training (K : Type) [LinearOrder K] where
  /-- The model of a node with so many items for two keys. -/
  two : (numItems : Nat) → K → K → Option (K →o Fin numItems)
  /-- The model of a node with so many items for the keys of a segment. -/
  bulk : (numItems : Nat) → List K → Option (K →o Fin numItems)
  /-- `static_cast<int>(size * BUILD_LR_REMAIN)` -/
  lrRemains : Nat → Int

/-! ## Writing to a node -/

/-- The model is replaced. -/
def Node.withModel (node : Node K V) (model : K → Fin node.numItems) : Node K V :=
  { node with
    predictPos := fun key => model key
    predictPos_lt := fun key => (model key).isLt }

/-- `BITMAP_CLEAR(none_bitmap, pos);` and the key and value of the item. -/
def Node.setData (node : Node K V) (pos : Nat) (key : K) (value : V) : Prog (Node K V) := do
  let noneBitmap ← node.noneBitmap.clear pos
  let items ← write node.items pos (.data key value)
  pure { node with noneBitmap := noneBitmap, items := items }

/-- `BITMAP_CLEAR(none_bitmap, pos); BITMAP_SET(child_bitmap, pos);` and the child. -/
def Node.setChild (node : Node K V) (pos ptr : Nat) : Prog (Node K V) := do
  let noneBitmap ← node.noneBitmap.clear pos
  let childBitmap ← node.childBitmap.set pos
  let items ← write node.items pos (.child ptr)
  pure { node with noneBitmap := noneBitmap, childBitmap := childBitmap, items := items }

/-- `RT_ASSERT(BITMAP_GET(none_bitmap, pos) == 1);` and the key and value where they are
predicted. -/
def Node.place (node : Node K V) (key : K) (value : V) : Prog (Node K V) := do
  assert (← node.noneBitmap.get (node.predictPos key))
  node.setData (node.predictPos key) key value

/-! ## Trees of none and of two keys -/

/-- The node of a tree without keys. -/
def noneNode : Node K V where
  isTwo := false
  buildSize := 0
  size := 0
  fixed := false
  numInserts := 0
  numInsertToData := 0
  numItems := 1
  predictPos _ := clampPos 1 0
  items := [.raw]
  noneBitmap := [1#8]
  childBitmap := [0#8]
  predictPos_lt _ := clampPos_lt (by decide)

/-- `build_tree_none` -/
def buildTreeNone (st : Store K V) : Prog (Nat × Store K V) := do
  let a := st.heap.alloc
  let heap ← a.2.put a.1 noneNode
  pure (a.1, { st with heap := heap })

/-- A fresh node for two keys, with a model that is replaced before it is used. -/
def twoNode : Node K V where
  isTwo := true
  buildSize := 2
  size := 2
  fixed := false
  numInserts := 0
  numInsertToData := 0
  numItems := 8
  predictPos _ := 0
  items := List.replicate 8 .raw
  noneBitmap := [0xff#8]
  childBitmap := [0#8]
  predictPos_lt _ := by decide

/-- A node for two keys, from the pool if it has one. -/
def takeTwo (st : Store K V) : Prog (Nat × Node K V × Store K V) :=
  match st.pendingTwo with
  | [] => pure (st.heap.alloc.1, twoNode, { st with heap := st.heap.alloc.2 })
  | p :: rest => do
      let node ← st.heap.get p
      pure (p, node, { st with pendingTwo := rest })

section Build

variable [LinearOrder K] (t : Training K)

/-- `build_tree_two`, once the keys are in order. -/
def buildTreeTwoInOrder (key1 : K) (value1 : V) (key2 : K) (value2 : V) (st : Store K V) :
    Prog (Nat × Store K V) := do
  assert (decide (key1 < key2))
  let r ← takeTwo st
  let model ← ofOption (t.two r.2.1.numItems key1 key2)
  let node ← (r.2.1.withModel model).place key1 value1
  let node ← node.place key2 value2
  let heap ← r.2.2.heap.put r.1 node
  pure (r.1, { r.2.2 with heap := heap })

/-- `build_tree_two` -/
def buildTreeTwo (key1 : K) (value1 : V) (key2 : K) (value2 : V) (st : Store K V) :
    Prog (Nat × Store K V) :=
  if key2 < key1 then buildTreeTwoInOrder t key2 value2 key1 value1 st
  else buildTreeTwoInOrder t key1 value1 key2 value2 st

/-! ## Trees of many keys -/

/-- `compute_gap_count` -/
def computeGapCount (size : Nat) : Nat :=
  if 1000000 ≤ size then 1 else if 100000 ≤ size then 2 else 5

/-- The node of a segment, with no item set. -/
def segmentNode (size numItems : Nat) (model : K → Fin numItems) : Node K V where
  isTwo := false
  buildSize := size
  size := size
  fixed := decide (1000000 < size)
  numInserts := 0
  numInsertToData := 0
  numItems := numItems
  predictPos key := model key
  items := List.replicate numItems .raw
  noneBitmap := List.replicate (Bitmap.bytes numItems) 0xff#8
  childBitmap := List.replicate (Bitmap.bytes numItems) 0#8
  predictPos_lt key := (model key).isLt

/-- The state of the loop over the keys of a segment. -/
structure Grouping (K V : Type) where
  /-- `item_i` -/
  itemI : Nat
  /-- `offset` -/
  offset : Nat
  /-- The node of the segment. -/
  node : Node K V
  /-- The memory of the nodes. -/
  heap : Heap (Node K V)
  /-- The segments to be built. -/
  stack : List Segment

/-- The end of a group: `next`, and `next_i` if a prediction was made. -/
def groupEnd (node : Node K V) (data : List (K × V)) (first size itemI offset : Nat) :
    Prog (Nat × Option Nat) :=
  loop (fun s : Nat × Option Nat =>
    if s.1 < size then do
      let item ← read data (first + s.1)
      let nextI := node.predictPos item.1
      if nextI = itemI then pure (.inl (s.1 + 1, some nextI)) else pure (.inr (s.1, some nextI))
    else pure (.inr s)) (offset + 1, none)

/-- A group of one key becomes an item, a larger one a child with a segment of its own. -/
def fileGroup (data : List (K × V)) (first next : Nat) (s : Grouping K V) :
    Prog (Grouping K V) :=
  if next = s.offset + 1 then do
    let item ← read data (first + s.offset)
    let node ← s.node.setData s.itemI item.1 item.2
    pure { s with node := node }
  else do
    let a := s.heap.alloc
    let node ← s.node.setChild s.itemI a.1
    pure { s with
      node := node
      heap := a.2
      stack := ⟨first + s.offset, first + next, a.1⟩ :: s.stack }

/-- The body of the loop over the keys of a segment. -/
def groupBody (data : List (K × V)) (first size : Nat) (s : Grouping K V) :
    Prog (Grouping K V ⊕ Grouping K V) :=
  if s.offset < size then do
    let r ← groupEnd s.node data first size s.itemI s.offset
    let s ← fileGroup data first r.1 s
    if size ≤ r.1 then pure (.inr s) else do
      let itemI ← ofOption r.2
      pure (.inl { s with itemI := itemI, offset := r.1 })
  else pure (.inr s)

/-- A segment of two keys: the node is copied. -/
def buildTwo (data : List (K × V)) (seg : Segment) (st : Store K V) : Prog (Store K V) := do
  let item1 ← read data seg.first
  let item2 ← read data (seg.first + 1)
  let r ← buildTreeTwo t item1.1 item1.2 item2.1 item2.2 st
  let node ← r.2.heap.get r.1
  let heap ← r.2.heap.put seg.node node
  let heap ← heap.release r.1
  pure { r.2 with heap := heap }

/-- `num_items` of a segment. -/
def numItemsOf (size : Nat) : Prog Nat := do
  let L ← toInt (size * (computeGapCount size + 1))
  let lrRemains ← toInt (t.lrRemains size)
  let twice ← toInt (lrRemains * 2)
  let numItems ← toInt (L + twice)
  assert (decide (0 < numItems))
  pure numItems.toNat

/-- A segment of more keys. -/
def buildMany (data : List (K × V)) (seg : Segment) (st : Store K V) (stack : List Segment) :
    Prog (Store K V × List Segment) := do
  let size := seg.last - seg.first
  let numItems ← numItemsOf t size
  let model ← ofOption (t.bulk numItems (((data.drop seg.first).take size).map Prod.fst))
  let node := segmentNode size numItems model
  let item ← read data seg.first
  let s ← loop (groupBody data seg.first size)
    ⟨node.predictPos item.1, 0, node, st.heap, stack⟩
  let heap ← s.heap.put seg.node s.node
  pure ({ st with heap := heap }, s.stack)

/-- The body of the loop over the segments. -/
def buildSegment (data : List (K × V)) (s : Store K V × List Segment) :
    Prog (Store K V × List Segment) :=
  match s.2 with
  | [] => pure s
  | seg :: stack => do
      assert (decide (seg.first + 2 ≤ seg.last))
      if seg.last - seg.first = 2 then do
        let st ← buildTwo t data seg s.1
        pure (st, stack)
      else buildMany t data seg s.1 stack

/-- `build_tree_bulk_fmcd`, `build_tree_bulk_fast` -/
def buildTreeBulk (data : List (K × V)) (st : Store K V) : Prog (Nat × Store K V) := do
  assert (decide (1 < data.length))
  let a := st.heap.alloc
  let s ← whileM (fun s => pure (!s.2.isEmpty)) (buildSegment t data)
    ({ st with heap := a.2 }, [⟨0, data.length, a.1⟩])
  pure (a.1, s.1)

end Build

/-! ## Destroying a tree -/

/-- The children of a node, onto the stack. -/
def pushChildren (node : Node K V) (stack : List Nat) : Prog (List Nat) :=
  forRange node.numItems (fun i stack => do
    if (← node.childBitmap.get i) then do
      let item ← read node.items i
      let c ← ofOption item.getChild
      pure (c :: stack)
    else pure stack) stack

/-- A two-key node is put into the pool, any other one is given back. -/
def recycle (p : Nat) (node : Node K V) (st : Store K V) : Prog (Store K V) :=
  if node.isTwo then do
    assert (decide (node.buildSize = 2))
    assert (decide (node.numItems = 8))
    let noneBitmap ← write node.noneBitmap 0 0xff#8
    let childBitmap ← write node.childBitmap 0 0#8
    let heap ← st.heap.put p { node with
      size := 2
      numInserts := 0
      numInsertToData := 0
      noneBitmap := noneBitmap
      childBitmap := childBitmap }
    pure ⟨heap, p :: st.pendingTwo⟩
  else do
    let heap ← st.heap.release p
    pure { st with heap := heap }

/-- The body of the loop over the nodes. -/
def destroyNode (s : Store K V × List Nat) : Prog (Store K V × List Nat) :=
  match s.2 with
  | [] => pure s
  | p :: stack => do
      let node ← s.1.heap.get p
      let stack ← pushChildren node stack
      let st ← recycle p node s.1
      pure (st, stack)

/-- `destroy_tree` -/
def destroyTree (root : Nat) (st : Store K V) : Prog (Store K V) := do
  let s ← whileM (fun s => pure (!s.2.isEmpty)) destroyNode (st, [root])
  pure s.1

end LIPP
