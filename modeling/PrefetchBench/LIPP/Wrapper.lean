import PrefetchBench.LIPP.Load

/-!
# The LIPP wrapper

What the wrapper does with an index: the constructor, which fills the pool, `bulk_load`, which
inserts a single key and builds more of them in bulk, and `verify`, which adds up the sizes.
-/

namespace LIPP

open Prog

variable {K V : Type}

section Insert

variable [LinearOrder K] (t : Training K)

/-! ## Inserting a key -/

/-- The keys of a tree in order, which is destroyed: `scan_and_destory_tree`. -/
def scanAndDestroyTree (root size : Nat) (st : Store K V) : Prog (List (K × V) × Store K V) := do
  let s ← whileM (fun s : Store K V × List (Nat × Nat) × List (Option (K × V)) =>
      pure (!s.2.1.isEmpty)) (fun s =>
    match s.2.1 with
    | [] => pure s
    | seg :: stack => do
        let node ← s.1.heap.get seg.2
        let r ← forRange node.numItems (fun i r => do
          if (← node.noneBitmap.get i) then pure r else do
            let item ← read node.items i
            if (← node.childBitmap.get i) then do
              let c ← ofOption item.getChild
              let child ← s.1.heap.get c
              pure (r.1 + child.size, (r.1, c) :: r.2.1, r.2.2)
            else do
              let data ← ofOption item.getData
              let array ← write r.2.2 r.1 (some data)
              pure (r.1 + 1, r.2.1, array)) (seg.1, stack, s.2.2)
        assert (decide (r.1 = seg.1 + node.size))
        let st ← recycle seg.2 node s.1
        pure (st, r.2.1, r.2.2)) (st, [(0, root)], List.replicate size none)
  let data ← s.2.2.mapM ofOption
  pure (data, s.1)

/-- The state of the way down. -/
structure Path (K V : Type) where
  /-- `path` -/
  path : List Nat
  /-- `insert_to_data` -/
  insertToData : Nat
  /-- The memory. -/
  store : Store K V

/-- A step of the way down: to a child, or to the item of the key, which is written. -/
def insertStep (key : K) (value : V) (s : Nat × Path K V) :
    Prog ((Nat × Path K V) ⊕ Path K V) := do
  let p := s.1
  let st := s.2.store
  assert (decide (s.2.path.length < 128))
  let path := s.2.path ++ [p]
  let old ← st.heap.get p
  let node : Node K V := { old with size := old.size + 1, numInserts := old.numInserts + 1 }
  let pos := node.predictPos key
  if (← node.noneBitmap.get pos) then do
    let node ← node.setData pos key value
    let heap ← st.heap.put p node
    pure (.inr ⟨path, 0, { st with heap := heap }⟩)
  else if (← node.childBitmap.get pos) then do
    let heap ← st.heap.put p node
    let item ← read node.items pos
    let c ← ofOption item.getChild
    pure (.inl (c, ⟨path, 0, { st with heap := heap }⟩))
  else do
    let item ← read node.items pos
    let data ← ofOption item.getData
    let childBitmap ← node.childBitmap.set pos
    let r ← buildTreeTwo t key value data.1 data.2 st
    let items ← write node.items pos (.child r.1)
    let heap ← r.2.heap.put p { node with childBitmap := childBitmap, items := items }
    pure (.inr ⟨path, 1, { r.2 with heap := heap }⟩)

/-- `path[i]->num_insert_to_data += insert_to_data;` -/
def countInserts (s : Path K V) : Prog (Path K V) :=
  forRange s.path.length (fun i s => do
    let p ← read s.path i
    let node ← s.store.heap.get p
    let heap ← s.store.heap.put p
      { node with numInsertToData := node.numInsertToData + s.insertToData }
    pure { s with store := { s.store with heap := heap } }) s

/-- `need_rebuild` -/
def Node.needRebuild (node : Node K V) : Bool :=
  !node.fixed && decide (node.buildSize * 4 ≤ node.size) && decide (64 ≤ node.size) &&
    decide (node.numInserts ≤ node.numInsertToData * 10)

/-- The first node of the way that has grown too much is built anew. -/
def rebuildStep (key : K) (r : Nat × Path K V) : Prog ((Nat × Path K V) ⊕ Path K V) := do
  let i := r.1
  let s := r.2
  if i < s.path.length then do
    let p ← read s.path i
    let node ← s.store.heap.get p
    if node.needRebuild then do
      let scan ← scanAndDestroyTree p node.size s.store
      let new ← buildTreeBulk t scan.1 scan.2
      let path ← write s.path i new.1
      if i = 0 then pure (.inr ⟨path, s.insertToData, new.2⟩) else do
        let q ← read path (i - 1)
        let parent ← new.2.heap.get q
        let items ← write parent.items (parent.predictPos key) (.child new.1)
        let heap ← new.2.heap.put q { parent with items := items }
        pure (.inr ⟨path, s.insertToData, { new.2 with heap := heap }⟩)
    else pure (.inl (i + 1, s))
  else pure (.inr s)

/-- `insert_tree` -/
def insertTree (root : Nat) (key : K) (value : V) (st : Store K V) : Prog (Nat × Store K V) := do
  let s ← loop (insertStep t key value) (root, ⟨[], 0, st⟩)
  let s ← countInserts s
  let s ← loop (rebuildStep t key) (0, s)
  let root ← read s.path 0
  pure (root, s.store)

/-! ## `bulk_load` -/

/-- `RT_ASSERT(vs[i].first > vs[i-1].first);` for all keys after the first one. -/
def assertIncreasing (vs : List (K × V)) (numKeys : Nat) : Prog Unit :=
  forRange (numKeys - 1) (fun i _ => do
    let item ← read vs (i + 1)
    let before ← read vs i
    assert (decide (before.1 < item.1))) ⟨⟩

/-- `LIPP::bulk_load` -/
def Index.bulkLoad (vs : List (K × V)) (numKeys : Int) (index : Index K V) :
    Prog (Index K V) := do
  if numKeys = 0 then do
    let st ← destroyTree index.root index.toStore
    let r ← buildTreeNone st
    pure ⟨r.2, r.1⟩
  else if numKeys = 1 then do
    let st ← destroyTree index.root index.toStore
    let r ← buildTreeNone st
    let item ← read vs 0
    let r ← insertTree t r.1 item.1 item.2 r.2
    pure ⟨r.2, r.1⟩
  else if numKeys = 2 then do
    let st ← destroyTree index.root index.toStore
    let item1 ← read vs 0
    let item2 ← read vs 1
    let r ← buildTreeTwo t item1.1 item1.2 item2.1 item2.2 st
    pure ⟨r.2, r.1⟩
  else do
    assert (decide (2 < numKeys))
    assertIncreasing vs numKeys.toNat
    let st ← destroyTree index.root index.toStore
    let r ← buildTreeBulk t (vs.take numKeys.toNat) st
    pure ⟨r.2, r.1⟩

/-- The constructor `LIPP`: so many two-key nodes are built and destroyed, to fill the pool.  The
code builds `1e7` of them. -/
def Index.new (count : Nat) (zero one : K) (dflt : V) : Prog (Index K V) := do
  let s ← forRange count (fun _ s => do
    let r ← buildTreeTwo t zero dflt one dflt s.1
    pure (r.2, s.2 ++ [r.1])) (⟨Heap.initial, []⟩, [])
  let st ← forRange count (fun i st => do
    let p ← read s.2 i
    destroyTree p st) s.1
  let r ← buildTreeNone st
  pure ⟨r.2, r.1⟩

end Insert

/-! ## The wrapper -/

/-- `LIPPWrapper` -/
structure LIPPWrapper (K V : Type) where
  /-- `index_` -/
  index : Index K V
  /-- `size_` -/
  size : Nat

/-- `static_cast<int>`: the value modulo `2^32`. -/
def castInt (n : Nat) : Int := Int.bmod n (2 ^ 32)

/-- The constructor of the wrapper. -/
def LIPPWrapper.new [LinearOrder K] (t : Training K) (count : Nat) (zero one : K) (dflt : V) :
    Prog (LIPPWrapper K V) := do
  let index ← Index.new t count zero one dflt
  pure ⟨index, 0⟩

/-- `LIPPWrapper::bulk_load` -/
def LIPPWrapper.bulkLoad [LinearOrder K] (t : Training K) (w : LIPPWrapper K V)
    (data : List (K × V)) : Prog (LIPPWrapper K V) :=
  if data = [] then do
    let index ← w.index.bulkLoad t [] 0
    pure ⟨index, 0⟩
  else do
    assert (decide (data.IsChain fun lhs rhs => ¬ rhs.1 < lhs.1))
    let index ← w.index.bulkLoad t data (castInt data.length)
    pure ⟨index, data.length⟩

/-- One load after the other. -/
def LIPPWrapper.bulkLoads [LinearOrder K] (t : Training K) (w : LIPPWrapper K V)
    (loads : List (List (K × V))) : Prog (LIPPWrapper K V) :=
  loads.foldlM (LIPPWrapper.bulkLoad t) w

/-- The sum of the sizes below a node, and its children onto the stack. -/
def sumSizes (heap : Heap (Node K V)) (node : Node K V) (stack : List Nat) :
    Prog (Nat × List Nat) :=
  forRange node.numItems (fun i s => do
    if (← node.childBitmap.get i) then do
      let item ← read node.items i
      let c ← ofOption item.getChild
      let child ← heap.get c
      pure (s.1 + child.size, c :: s.2)
    else if (← node.noneBitmap.get i) then pure s
    else pure (s.1 + 1, s.2)) (0, stack)

/-- The body of the loop over the nodes. -/
def verifyNode (heap : Heap (Node K V)) (s : List Nat) : Prog (List Nat) :=
  match s with
  | [] => pure s
  | p :: stack => do
      let node ← heap.get p
      let r ← sumSizes heap node stack
      assert (decide (r.1 = node.size))
      pure r.2

/-- `verify` -/
def verify (heap : Heap (Node K V)) (root : Nat) : Prog Unit := do
  let _ ← whileM (fun s => pure (!s.isEmpty)) (verifyNode heap) [root]
  pure ⟨⟩

end LIPP
