import PrefetchBench.BTree.FindGroup
import PrefetchBench.BTree.Interleaved
import PrefetchBench.Batch.Ring

/-!
# find_spp

`find_spp` keeps a ring of queries that walk down their search paths, and refills a slot as soon
as its query is answered.  Below a root it answers every key as `find` does.  On a tree without a
root it returns before it writes a flag, so flags that were set before stay set.
-/

namespace BTree

open Prog KeyArray Batch

variable {K D : Type} [LinearOrder K]

/-- `QueryState`; the node of a slot that was never filled is not initialized. -/
structure QueryState (K D : Type) where
  /-- The node the query is at. -/
  currNode : Option (Node K D)
  /-- The index of the query. -/
  keyIdx : Nat
  /-- The slot has a query. -/
  isActive : Bool

/-- The binary search in the nodes. -/
def ringLower : NodeSearch K := fun slotuse slotkey key => search slotkey key ⟨0, slotuse⟩

theorem ringLower_exact : (ringLower (K := K)).Exact := by
  intro slotuse slotkey key hs
  rw [ringLower, ← bisect_zero_eq_lowerBound hs]
  exact search_returns hs.le_length

/-- The slots of the ring. -/
def ringMachine (root : Node K D) (keys : List K) : Machine (QueryState K D) D where
  blank := ⟨none, 0, false⟩
  isDone s := !s.isActive
  index s := s.keyIdx
  init _ i := ⟨some root, i, true⟩
  step s out :=
    if s.isActive then do
      let currNode ← ofOption s.currNode
      if currNode.isLeafNode then do
        let out ← retireSlot ringLower true keys s.keyIdx s.currNode out
        pure (.finish { s with isActive := false } out)
      else do
        let child ← stepSlot ringLower keys s.keyIdx s.currNode
        pure (.stay { s with currNode := some child })
    else pure (.stay s)

/-- `find_spp` of a map, with the vectors as they are passed in and the history of its ring. -/
def Tree.findSpp (N : Nat) (t : Tree K D) (keys : List K) (prior : Out D) (dflt : D) :
    Prog (Out D × List Event) :=
  match t.root with
  | none => pure (grown keys prior dflt, [])
  | some root =>
      if keys.isEmpty then pure (grown keys prior dflt, []) else do
        let st ← (ringMachine root keys).runRing (fun s => { s with isActive := false }) N
          keys.length (grown keys prior dflt)
        pure (st.out, st.log)

/-! ## Below a root -/

/-- A slot of the ring that is on level `l` of the search path of query `i`. -/
def RingBusy (tr : Traits) (root : Node K D) (keys : List K) (i l : Nat) (s : QueryState K D) :
    Prop :=
  s.isActive = true ∧ s.keyIdx = i ∧ SlotPath tr root keys i l s.currNode

section FindSpp

variable {tr : Traits} {t : Tree K D} {root : Node K D} {keys : List K} {prior : Out D} {dflt : D}
  {N : Nat}

theorem ringMachine_sound (ht : t.root = some root) (hroot : VerifyNode tr root.level root)
    (keys : List K) (prior : Out D) (dflt : D) :
    (ringMachine root keys).Sound (keys.map t.lookup) (grown keys prior dflt)
      (RingBusy tr root keys) (fun _ => root.level) where
  blank := rfl
  idle s out h := by
    have hs : s.isActive = false := by simpa [ringMachine] using h
    simp only [ringMachine, hs]
    exact returns_pure.mpr rfl
  load s i _ hi := ⟨rfl, rfl, slotPath_root (by rwa [List.length_map] at hi)⟩
  busy i m s h := by
    obtain ⟨hs, hi, _⟩ := h
    exact ⟨by simp [ringMachine, hs], hi⟩
  step i l s _ h done := by
    obtain ⟨hs, rfl, hpath⟩ := h
    obtain ⟨n, key, hn, hkey, honpath⟩ := id hpath
    simp only [ringMachine, hs]
    refine (returns_ofOption.mpr hn).seq ?_
    cases l with
    | zero =>
        rw [if_pos ((honpath.isLeafNode hroot).mpr rfl)]
        have hset := hpath.settles ringLower_exact (fits_grown t.lookup keys prior dflt) ht hroot
          true fun key hkey => getElem?_answers t.lookup hkey
        exact (hset done).seq (Ensures.pure ⟨rfl, rfl⟩)
    | succ l =>
        rw [if_neg fun hc => Nat.succ_ne_zero l ((honpath.isLeafNode hroot).mp hc)]
        apply Ensures.bind (hpath.step ringLower_exact hroot)
        intro child hchild
        exact Ensures.pure ⟨l, Nat.lt_succ_self l, rfl, rfl, hchild⟩

/-- Below a root `find_spp` ends, looks up every key, and loads and retires each of them once. -/
theorem Tree.findSpp_ensures (ht : t.Verified tr) (hr : t.root = some root) (hN : 1 ≤ N) :
    (t.findSpp N keys prior dflt).Ensures fun r =>
      r.1 = answered (keys.map t.lookup) (grown keys prior dflt) ∧
        HandledOnce keys.length r.2 := by
  rw [Tree.findSpp, hr]
  by_cases hk : keys = []
  · subst hk
    exact Ensures.pure ⟨(answered_nil _).symm, fun i hi => absurd hi (Nat.not_lt_zero i)⟩
  · simp only [List.isEmpty_iff, hk, if_false]
    have hsound := ringMachine_sound hr (ht root hr) keys prior dflt
    have hclose : ∀ s : QueryState K D, (ringMachine root keys).isDone s = true →
        { s with isActive := false } = s := by
      rintro ⟨currNode, keyIdx, isActive⟩ h
      have hs : isActive = false := by simpa [ringMachine] using h
      rw [hs]
    apply Ensures.bind (hsound.runRing_queries hclose hN)
    intro st hst
    exact Ensures.pure hst

/-! ## Agreement with find -/

/-- `find_spp` ends and agrees with `find` on every key; a ring loads and retires each key once. -/
def SppAgrees (N : Nat) (innerBinary leafBinary : Bool) (t : Tree K D) (keys : List K)
    (prior : Out D) (dflt : D) : Prop :=
  ∃ out log, (t.findSpp N keys prior dflt).Returns (out, log) ∧
    FindAgrees innerBinary leafBinary t keys out ∧
    (t.root ≠ none → HandledOnce keys.length log)

/-- `find_spp` agrees with `find` unless there is no root and a flag of a key is set beforehand. -/
theorem findSpp_agrees_iff (ht : t.Verified tr) (hN : 1 ≤ N) (innerBinary leafBinary : Bool)
    (keys : List K) (prior : Out D) (dflt : D) :
    SppAgrees N innerBinary leafBinary t keys prior dflt ↔
      (t.root = none → ∀ i, i < keys.length → prior.found[i]? ≠ some true) := by
  cases hr : t.root with
  | none =>
      have hg : (t.findSpp N keys prior dflt).Returns (grown keys prior dflt, []) := by
        rw [Tree.findSpp, hr]
        exact returns_pure.mpr rfl
      have hiff : FindAgrees innerBinary leafBinary t keys (grown keys prior dflt) ↔
          ∀ i, i < keys.length → prior.found[i]? ≠ some true :=
        findAgrees_grown_iff hr innerBinary leafBinary
      constructor
      · rintro ⟨out, log, hout, h, _⟩ _
        cases hout.det hg
        exact hiff.mp h
      · intro h
        exact ⟨_, _, hg, hiff.mpr (h rfl), fun hne => absurd hr hne⟩
  | some root =>
      have hens : (t.findSpp N keys prior dflt).Ensures _ := Tree.findSpp_ensures ht hr hN
      obtain ⟨⟨out, log⟩, hret, rfl, hlog⟩ := hens
      constructor
      · intro _ hnone
        cases hnone
      · intro _
        exact ⟨_, log, hret, findAgrees_answered ht (fun _ _ => rfl) innerBinary leafBinary,
          fun _ => hlog⟩

end FindSpp

theorem findSpp_agrees_iff_twoSlots :
    SppAgrees 2 true false (⟨some (.leaf ⟨0, 2, [1, 3], [10, 30]⟩)⟩ : Tree Nat Nat) [3, 4, 1]
        ⟨[true], [7]⟩ 0 ↔
      ((⟨some (.leaf ⟨0, 2, [1, 3], [10, 30]⟩)⟩ : Tree Nat Nat).root = none →
        ∀ i, i < [3, 4, 1].length → ([true] : List Bool)[i]? ≠ some true) :=
  @findSpp_agrees_iff Nat Nat _ ⟨4, 4, false, by decide, by decide⟩ _ _
    (fun root hr => by cases hr; decide) (by decide) true false [3, 4, 1] ⟨[true], [7]⟩ 0

/-- A flag that was set beforehand stays set on an empty tree. -/
theorem findSpp_stale : ¬ SppAgrees 4 true true (⟨none⟩ : Tree Nat Nat) [1] ⟨[true], [7]⟩ 0 := by
  rintro ⟨out, log, hout, h, _⟩
  have hg : ((⟨none⟩ : Tree Nat Nat).findSpp 4 [1] ⟨[true], [7]⟩ 0).Returns
      (⟨[true], [7]⟩, []) := returns_pure.mpr rfl
  cases hout.det hg
  obtain ⟨r, hr, hiff, _⟩ := h 0 1 rfl
  have hnone : ((⟨none⟩ : Tree Nat Nat).find true true 1).Returns none := returns_pure.mpr rfl
  cases hr.det hnone
  exact hiff.mp rfl rfl

end BTree
