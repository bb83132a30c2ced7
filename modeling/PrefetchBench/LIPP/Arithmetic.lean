import PrefetchBench.LIPP.Exact

/-!
# The numbers of a load

A load turns the number of keys into an `int`, and a bulk build multiplies the sizes of its
segments by a gap factor in `int`.  The factor falls with the size, from 6 to 3 to 2, so the
products that count are those of the largest segment, which is the one of all keys.  They are in
range exactly for fewer than `2^30` keys (`segment_inRange_iff`), and so are the numbers of a load
(`loadInRange_iff`).
-/

namespace LIPP

open Prog

variable {K V : Type}

/-! ## One segment -/

/-- `mid1_pos` -/
def mid1Pos (size : Nat) : Nat := (size - 1) / 3

/-- `mid2_pos` -/
def mid2Pos (size : Nat) : Nat := (size - 1) * 2 / 3

theorem toInt_returns {x : Int} : (toInt x).Returns x ↔ -2147483648 ≤ x ∧ x ≤ 2147483647 := by
  rw [toInt, returns_assert_bind, decide_eq_true_iff]
  constructor
  · intro h
    exact h.1
  · intro h
    exact ⟨h, returns_pure.mpr rfl⟩

/-- The `int` arithmetic for a segment is defined. -/
structure SegmentInRange [LinearOrder K] (t : Training K) (size : Nat) : Prop where
  /-- `num_items`, with the gaps. -/
  numItems : (numItemsOf t size).Returns (size * (computeGapCount size + 1))
  /-- `(size - 1) * 2` -/
  twice : (toInt ((size - 1 : Nat) * 2)).Returns ((size - 1 : Nat) * 2)
  /-- `mid1_pos * (BUILD_GAP_CNT + 1)` -/
  mid1 : (toInt (mid1Pos size * (computeGapCount size + 1))).Returns
    (mid1Pos size * (computeGapCount size + 1))
  /-- `mid2_pos * (BUILD_GAP_CNT + 1)` -/
  mid2 : (toInt (mid2Pos size * (computeGapCount size + 1))).Returns
    (mid2Pos size * (computeGapCount size + 1))
  /-- `bitmap_size` -/
  bitmapSize : (toInt (Bitmap.bytes (size * (computeGapCount size + 1)))).Returns
    (Bitmap.bytes (size * (computeGapCount size + 1)))

/-- The factor is at least 2, and 2 for large segments. -/
theorem computeGapCount_cases (size : Nat) :
    (1000000 ≤ size ∧ computeGapCount size = 1) ∨ (size < 1000000 ∧ 1 ≤ computeGapCount size ∧
      computeGapCount size ≤ 5) := by
  rw [computeGapCount]
  split_ifs <;> omega

/-- A size times a factor. -/
theorem mul_gap_le {size pos : Nat} (hsize : size < 2 ^ 30) (hpos : pos ≤ size) :
    pos * (computeGapCount size + 1) < 2 ^ 31 := by
  rcases computeGapCount_cases size with ⟨_, hgap⟩ | ⟨hsmall, _, hgap⟩
  · rw [hgap]
    omega
  · calc pos * (computeGapCount size + 1) ≤ 1000000 * 6 := Nat.mul_le_mul (by omega) (by omega)
      _ < 2 ^ 31 := by norm_num

section Training

variable [LinearOrder K] {t : Training K} {size : Nat}

/-- The first product is in range. -/
theorem lt_of_numItemsOf {numItems : Nat} (h : (numItemsOf t size).Returns numItems) :
    size * (computeGapCount size + 1) < 2 ^ 31 := by
  obtain ⟨L, hL, _⟩ := returns_bind.mp h
  obtain ⟨hrange, _⟩ := returns_assert_bind.mp hL
  have hle := (of_decide_eq_true hrange).2
  have hcast : ((size * (computeGapCount size + 1) : Nat) : Int) ≤ 2147483647 := by
    push_cast
    exact hle
  omega

/-- Without `BUILD_LR_REMAIN` the first product is the number of items. -/
theorem numItemsOf_returns (hlr : t.lrRemains size = 0) (hpos : 0 < size)
    (hlt : size * (computeGapCount size + 1) < 2 ^ 31) :
    (numItemsOf t size).Returns (size * (computeGapCount size + 1)) := by
  have hitems : 0 < size * (computeGapCount size + 1) := Nat.mul_pos hpos (Nat.succ_pos _)
  have hcast : ((size : Int) * (computeGapCount size + 1)) =
      ((size * (computeGapCount size + 1) : Nat) : Int) := by
    push_cast
    rfl
  rw [numItemsOf, hlr, hcast]
  refine (toInt_returns.mpr (by omega)).bind ?_
  refine (toInt_returns.mpr (by decide)).bind ?_
  refine (toInt_returns.mpr (by decide)).bind ?_
  rw [zero_mul, add_zero]
  refine (toInt_returns.mpr (by omega)).bind ?_
  rw [returns_assert_bind, returns_pure]
  exact ⟨decide_eq_true (by omega), Int.toNat_natCast _⟩

/-- The arithmetic for a segment is defined below `2^30` keys only. -/
theorem segment_inRange_iff (hlr : t.lrRemains size = 0) (hpos : 0 < size) :
    SegmentInRange t size ↔ size < 2 ^ 30 := by
  constructor
  · intro h
    have hlt := lt_of_numItemsOf h.numItems
    rcases computeGapCount_cases size with ⟨_, hgap⟩ | ⟨hsmall, _⟩
    · rw [hgap] at hlt
      omega
    · omega
  · intro hsize
    have hitems := mul_gap_le hsize (Nat.le_refl size)
    have hmid1 : mid1Pos size ≤ size := by
      rw [mid1Pos]
      omega
    have hmid2 : mid2Pos size ≤ size := by
      rw [mid2Pos]
      omega
    have hmul1 := mul_gap_le hsize hmid1
    have hmul2 := mul_gap_le hsize hmid2
    refine ⟨numItemsOf_returns hlr hpos hitems, ?_, ?_, ?_, ?_⟩
    · rw [toInt_returns]
      omega
    · rw [toInt_returns]
      norm_cast
      omega
    · rw [toInt_returns]
      norm_cast
      omega
    · rw [toInt_returns, Bitmap.bytes]
      omega

end Training

/-! ## The segments of a build -/

section Segments

variable {data : List (K × V)}

/-- The segments have at least two keys, and keys of the data only. -/
def Within (total : Nat) (stack : List Segment) : Prop :=
  ∀ seg ∈ stack, seg.first + 2 ≤ seg.last ∧ seg.last ≤ total

theorem Within.cons {total : Nat} {seg : Segment} {stack : List Segment}
    (h : Within total stack) (hlong : seg.first + 2 ≤ seg.last) (hlast : seg.last ≤ total) :
    Within total (seg :: stack) := by
  intro seg' hseg'
  cases hseg' with
  | head => exact ⟨hlong, hlast⟩
  | tail _ hmem => exact h seg' hmem

/-- A group of several keys becomes a segment inside of the one it comes from. -/
theorem fileGroup_within {total first size next : Nat} {s s' : Grouping K V}
    (h : (fileGroup data first next s).Returns s') (hs : Within total s.stack)
    (hnext : s.offset < next) (hsize : next ≤ size) (htotal : first + size ≤ total) :
    Within total s'.stack := by
  rw [fileGroup] at h
  split at h
  · obtain ⟨item, _, h⟩ := returns_bind.mp h
    obtain ⟨node, _, h⟩ := returns_bind.mp h
    cases returns_pure.mp h
    exact hs
  · obtain ⟨node, _, h⟩ := returns_bind.mp h
    cases returns_pure.mp h
    apply hs.cons
    · dsimp only
      omega
    · dsimp only
      omega

/-- A turn of the loop over the keys. -/
theorem groupBody_within {total first size : Nat} {s : Grouping K V}
    {r : Grouping K V ⊕ Grouping K V} (h : (groupBody data first size s).Returns r)
    (hs : Within total s.stack) (htotal : first + size ≤ total) :
    Within total (r.elim Grouping.stack Grouping.stack) := by
  rw [groupBody] at h
  split at h
  · rename_i hlt
    obtain ⟨e, hend, h⟩ := returns_bind.mp h
    obtain ⟨hgroup, _⟩ := groupEnd_returns hend hlt
    obtain ⟨s1, hfile, h⟩ := returns_bind.mp h
    have hs1 := fileGroup_within hfile hs hgroup.1 hgroup.2.1 htotal
    split at h
    · cases returns_pure.mp h
      exact hs1
    · obtain ⟨itemI, _, h⟩ := returns_bind.mp h
      cases returns_pure.mp h
      exact hs1
  · cases returns_pure.mp h
    exact hs

variable [LinearOrder K] {t : Training K}

/-- A turn of the loop over the segments. -/
theorem buildSegment_within {total : Nat} {s s' : Store K V × List Segment}
    (h : (buildSegment t data s).Returns s') (hs : Within total s.2) : Within total s'.2 := by
  obtain ⟨st, stack⟩ := s
  cases stack with
  | nil =>
      cases returns_pure.mp h
      exact hs
  | cons seg stack =>
      have hrest : Within total stack := fun seg' hmem => hs seg' (List.mem_cons_of_mem _ hmem)
      obtain ⟨_, h⟩ := returns_assert_bind.mp h
      split at h
      · obtain ⟨st', _, h⟩ := returns_bind.mp h
        cases returns_pure.mp h
        exact hrest
      · obtain ⟨numItems, _, h⟩ := returns_bind.mp h
        obtain ⟨model, _, h⟩ := returns_bind.mp h
        obtain ⟨item, _, h⟩ := returns_bind.mp h
        obtain ⟨g, hloop, h⟩ := returns_bind.mp h
        obtain ⟨heap, _, h⟩ := returns_bind.mp h
        cases returns_pure.mp h
        obtain ⟨hlong, hlast⟩ := hs seg (List.mem_cons_self ..)
        have htotal : seg.first + (seg.last - seg.first) ≤ total := by omega
        exact Returns.loop_inv (P := fun g : Grouping K V => Within total g.stack)
          (Q := fun g : Grouping K V => Within total g.stack)
          (fun g g' hg hbody => groupBody_within hbody hg htotal)
          (fun g g' hg hbody => groupBody_within hbody hg htotal) hrest hloop

/-- A bulk build of the data comes to the segment, from some store. -/
def BuildsSegment (t : Training K) (data : List (K × V)) (seg : Segment) : Prop :=
  ∃ (st : Store K V) (a k : Nat) (s : Store K V × List Segment),
    AtHead (fun s => pure (!s.2.isEmpty)) (buildSegment t data) (st, [⟨0, data.length, a⟩]) k s ∧
      s.2.head? = some seg

theorem BuildsSegment.within {seg : Segment} (h : BuildsSegment t data seg)
    (hdata : 2 ≤ data.length) : seg.first + 2 ≤ seg.last ∧ seg.last ≤ data.length := by
  obtain ⟨st, a, k, s, hat, hhead⟩ := h
  have hs := hat.keeps (P := fun _ s => Within data.length s.2) ?_ ?_
  · exact hs seg (List.mem_of_head? hhead)
  · intro seg' hseg'
    rw [List.mem_singleton.mp hseg']
    exact ⟨by dsimp only; omega, Nat.le_refl _⟩
  · intro _ s s' hs _ hbody
    exact buildSegment_within hbody hs

/-- The build starts with all keys. -/
theorem buildsSegment_all (t : Training K) (data : List (K × V)) :
    BuildsSegment t data ⟨0, data.length, 0⟩ :=
  ⟨⟨Heap.initial, []⟩, 0, 0, _, .start, rfl⟩

end Segments

/-! ## A load -/

section Load

variable [LinearOrder K] {data : List (K × V)}

/-- The assertions of `LIPPWrapper::bulk_load` and `LIPP::bulk_load` on the data are passed. -/
def Accepts (data : List (K × V)) : Prop :=
  data.IsChain (fun lhs rhs => ¬ rhs.1 < lhs.1) ∧
    (castInt data.length = 0 ∨ castInt data.length = 1 ∨ castInt data.length = 2 ∨
      2 < castInt data.length ∧ (assertIncreasing data (castInt data.length).toNat).Returns ⟨⟩)

/-- The numbers of a load are in range. -/
structure LoadInRange (t : Training K) (data : List (K × V)) : Prop where
  /-- The `int` that is passed on is the number of keys. -/
  passed : castInt data.length = data.length
  /-- After the load, in whatever state the wrapper was, `size()` is the number of its keys. -/
  counted : ∀ (w w' : LIPPWrapper K V) (last : List (K × V)), w.Loaded last →
    (w.bulkLoad t data).Returns w' →
    w'.size = {key | (existsKey w'.index.heap w'.index.root key).Returns true}.ncard
  /-- The arithmetic for every segment of the bulk build is defined. -/
  segments : 2 < castInt data.length →
    ∀ seg, BuildsSegment t (data.take (castInt data.length).toNat) seg →
      SegmentInRange t (seg.last - seg.first)

theorem bmod_natCast_le (n m : Nat) : Int.bmod n m ≤ n := by
  have hmod : ((n : Int) % m) ≤ n := by exact_mod_cast Nat.mod_le n m
  rw [Int.bmod_def]
  split
  · exact hmod
  · exact (sub_le_self _ (Nat.cast_nonneg _)).trans hmod

theorem castInt_le (n : Nat) : castInt n ≤ n := bmod_natCast_le n _

/-- Only a negative `int` ends the process. -/
theorem accepts_iff (hsorted : data.Pairwise fun x y => x.1 < y.1) :
    Accepts data ↔ 0 ≤ castInt data.length := by
  constructor
  · rintro ⟨_, h⟩
    omega
  · intro hnonneg
    have hle := castInt_le data.length
    refine ⟨(hsorted.imp fun hlt => hlt.not_gt).isChain, ?_⟩
    have hassert : (assertIncreasing data (castInt data.length).toNat).Returns ⟨⟩ := by
      apply Ensures.returns
      refine Ensures.forRange (fun _ _ => True) trivial ?_ |>.mono fun _ _ => rfl
      intro i hi _ _
      have hlt : i + 1 < data.length := by omega
      refine Returns.seq (returns_read.mpr (List.getElem?_eq_getElem hlt)) ?_
      refine Returns.seq (returns_read.mpr (List.getElem?_eq_getElem (Nat.lt_of_succ_lt hlt))) ?_
      have hpair := List.pairwise_iff_getElem.mp hsorted i (i + 1) (Nat.lt_of_succ_lt hlt) hlt
        (Nat.lt_succ_self i)
      exact Ensures.assert (decide_eq_true hpair) trivial
    have hcases : castInt data.length = 0 ∨ castInt data.length = 1 ∨ castInt data.length = 2 ∨
        2 < castInt data.length := by omega
    exact hcases.imp_right (Or.imp_right (Or.imp_right fun hmany => ⟨hmany, hassert⟩))

/-- A wrapper that counts what it holds. -/
theorem LIPPWrapper.Loaded.counted {w : LIPPWrapper K V} (hw : w.Loaded data)
    (hsorted : data.Pairwise fun x y => x.1 < y.1) (hpassed : castInt data.length = data.length) :
    {key | (existsKey w.index.heap w.index.root key).Returns true}.ncard = data.length := by
  have hindex := hw.index
  rw [hpassed, Int.toNat_natCast, List.take_length] at hindex
  have hexactly := LIPPWrapper.exactly_of_loaded hindex hsorted
  have hkeys : {key | (existsKey w.index.heap w.index.root key).Returns true} =
      ((data.map Prod.fst).toFinset : Set K) := by
    ext key
    obtain ⟨b, hb, hiff⟩ := hexactly.exists_iff key
    rw [Set.mem_ofPred_eq, List.coe_toFinset, Set.mem_ofPred_eq, List.mem_map]
    constructor
    · intro h
      obtain ⟨value, hmem⟩ := hiff.mp (hb.det h)
      exact ⟨_, hmem, rfl⟩
    · rintro ⟨item, hmem, rfl⟩
      exact hiff.mpr ⟨item.2, hmem⟩ ▸ hb
  have hnodup : (data.map Prod.fst).Nodup :=
    List.pairwise_map.mpr (hsorted.imp fun hlt => hlt.ne)
  rw [hkeys, Set.ncard_coe_finset, List.toFinset_card_of_nodup hnodup, List.length_map]

theorem LIPPWrapper.bulkLoad_size {t : Training K} {w w' : LIPPWrapper K V}
    (h : (w.bulkLoad t data).Returns w') : w'.size = data.length := by
  rw [LIPPWrapper.bulkLoad] at h
  split at h
  · rename_i hnil
    obtain ⟨_, _, h⟩ := returns_bind.mp h
    cases returns_pure.mp h
    rw [hnil]
    rfl
  · obtain ⟨_, h⟩ := returns_assert_bind.mp h
    obtain ⟨_, _, h⟩ := returns_bind.mp h
    cases returns_pure.mp h
    rfl

/-- The numbers of a load are in range below `2^30` keys only. -/
theorem loadInRange_iff {t : Training K} (hlr : ∀ size, t.lrRemains size = 0)
    (hsorted : data.Pairwise fun x y => x.1 < y.1) :
    LoadInRange t data ↔ data.length < 2 ^ 30 := by
  constructor
  · intro h
    have hpassed := h.passed
    have hlt := castInt_lt data.length
    by_contra hlen
    have hall := h.segments (by omega) _ (buildsSegment_all t _)
    rw [hpassed, Int.toNat_natCast, List.take_length,
      segment_inRange_iff (hlr _) (by dsimp only; omega)] at hall
    exact hlen hall
  · intro hlen
    have hpassed : castInt data.length = data.length := castInt_of_lt (hlen.trans (by decide))
    refine ⟨hpassed, ?_, ?_⟩
    · intro w w' last hw hload
      rw [LIPPWrapper.bulkLoad_size hload, (hw.bulkLoad hsorted hload).counted hsorted hpassed]
    · intro hmany seg hseg
      rw [hpassed, Int.toNat_natCast, List.take_length] at hseg
      obtain ⟨hlong, hlast⟩ := hseg.within (by omega)
      rw [segment_inRange_iff (hlr _) (by omega)]
      omega

/-- For the data that a load accepts, its numbers are in range exactly below `2^30` keys.  The
load accepts all increasing data but those whose number of keys is a negative `int`. -/
theorem accepted_inRange_iff (t : Training K) (hlr : ∀ size, t.lrRemains size = 0)
    (hsorted : data.Pairwise fun x y => x.1 < y.1) :
    (Accepts data → LoadInRange t data) ↔
      (0 ≤ castInt data.length → data.length < 2 ^ 30) := by
  rw [accepts_iff hsorted, loadInRange_iff hlr hsorted]

end Load

theorem accepted_inRange_keysBelow :
    (Accepts (keysBelow 100) → LoadInRange exactTraining (keysBelow 100)) ↔
      (0 ≤ castInt (keysBelow 100).length → (keysBelow 100).length < 2 ^ 30) :=
  accepted_inRange_iff exactTraining (fun _ => rfl) (keysBelow_sorted 100)

/-- As many keys as make the `int` zero, and as many as make `num_items` overflow. -/
theorem accepted_out_of_range :
    ¬ (Accepts (keysBelow (2 ^ 32)) → LoadInRange exactTraining (keysBelow (2 ^ 32))) ∧
      ¬ (Accepts (keysBelow (2 ^ 30)) → LoadInRange exactTraining (keysBelow (2 ^ 30))) := by
  constructor
  · rw [accepts_iff (keysBelow_sorted _), loadInRange_iff (fun _ => rfl) (keysBelow_sorted _),
      length_keysBelow]
    decide
  · rw [accepts_iff (keysBelow_sorted _), loadInRange_iff (fun _ => rfl) (keysBelow_sorted _),
      length_keysBelow]
    decide

end LIPP
