import PrefetchBench.BTree.Lookup

/-!
# Vector search of the node keys

`simd_lower_bound_u64` compares a block of keys at once.  The vector units compare signed words
only, so the code flips the sign bit of both sides first, which turns the unsigned order of the
keys into the signed one (`slt_flipSign`).  A block without a candidate lies below the sought key
and is skipped; in the first block with one, the lowest candidate is the slot: it is found by
counting the trailing zeros of the complemented lane mask (`candidateMask_ctz`).  What is left after
the last whole block is scanned.

The blocks have 8 keys with AVX-512 and 4 with AVX2; without either the scan does all the work.
For keys of another type than `uint64_t` the code falls back to binary search.
-/

namespace BTree

open Prog KeyArray

variable {K : Type}

/-- The instruction set the code is compiled for. -/
inductive Isa where
  | avx512
  | avx2
  | scalar

/-- The number of keys in a block; none without vector instructions. -/
def Isa.blockSize : Isa → Option Nat
  | .avx512 => some 8
  | .avx2 => some 4
  | .scalar => none

/-- An unaligned load of `size` keys: undefined beyond the array. -/
def loadBlock (keys : List K) (pos size : Nat) : Prog (List K) :=
  ofOption (if pos + size ≤ keys.length then some ((keys.drop pos).take size) else none)

theorem getElem?_block {keys : List K} {pos j : Nat} (size : Nat) (hj : j < size) :
    ((keys.drop pos).take size)[j]? = keys[pos + j]? := by
  rw [List.getElem?_take_of_lt hj, List.getElem?_drop]

variable [LinearOrder K]

/-- `std::is_same<Key, uint64_t>`: the keys are 64-bit words, in unsigned order. -/
structure IsU64 (K : Type) [LinearOrder K] where
  /-- The word of a key. -/
  word : K → BitVec 64
  /-- The keys are ordered as their words. -/
  lt_iff : ∀ a b, a < b ↔ (word a).toNat < (word b).toNat

/-- The type of the words. -/
scoped instance u64NeZero : NeZero (2 ^ 64) := ⟨by decide⟩

/-- The words in the order of `Fin`. -/
def IsU64.fin : IsU64 (Fin (2 ^ 64)) where
  word a := BitVec.ofFin a
  lt_iff _ _ := Iff.rfl

/-- `_mm512_xor_si512(x, sign)` on one lane. -/
def flipSign (x : BitVec 64) : BitVec 64 := x ^^^ 0x8000000000000000#64

/-- `_mm512_cmpgt_epi64_mask(query, values)`, and `_mm256_movemask_pd` of the AVX2 comparison: bit
`j` is the signed comparison of the flipped words in lane `j`. -/
def greaterMask (u64 : IsU64 K) (key : K) (values : List K) : BitVec 32 :=
  (BitVec.ofBoolListLE (values.map fun v =>
    (flipSign (u64.word v)).slt (flipSign (u64.word key)))).setWidth 32

/-- The bits of the lanes of a block: `0xFF` for 8 lanes, `0xF` for 4. -/
def laneBits (size : Nat) : BitVec 32 := BitVec.ofNat 32 (2 ^ size - 1)

/-- The lanes of a block whose key is not below the sought one: `(~greater) & 0xFF`. -/
def candidateMask (u64 : IsU64 K) (size : Nat) (key : K) (values : List K) : BitVec 32 :=
  ~~~(greaterMask u64 key values) &&& laneBits size

/-- `for (; pos + size <= slotuse; pos += size)` compare a block: the slot of the first candidate,
or the first position without a whole block. -/
def blockSearch (u64 : IsU64 K) (size slotuse : Nat) (keys : List K) (key : K) :
    Prog (Nat ⊕ Nat) :=
  loop (fun pos =>
    if pos + size ≤ slotuse then do
      let values ← loadBlock keys pos size
      let mask := candidateMask u64 size key values
      -- `pos + __builtin_ctz(candidate_mask)`
      if mask ≠ 0#32 then pure (.inr (.inl (pos + mask.ctz.toNat))) else pure (.inl (pos + size))
    else pure (.inr (.inr pos))) 0

/-- `simd_lower_bound_u64` -/
def simdLowerBoundU64 (isa : Isa) (u64 : Option (IsU64 K)) : NodeSearch K :=
  fun slotuse slotkey key =>
    if slotuse = 0 then pure 0 else
      match u64 with
      | none => findLowerBranchless slotuse slotkey key
      | some u64 =>
          match isa.blockSize with
          | none => scanFrom slotkey key slotuse 0
          | some size => do
              match (← blockSearch u64 size slotuse slotkey key) with
              | .inl slot => pure slot
              | .inr pos => scanFrom slotkey key slotuse pos

/-! ## Flipping the sign bit -/

theorem toNat_flipSign (x : BitVec 64) :
    (flipSign x).toNat = if x.toNat < 2 ^ 63 then x.toNat + 2 ^ 63 else x.toNat - 2 ^ 63 := by
  have hx := x.isLt
  have hmod : (x.toNat ^^^ 2 ^ 63) % 2 ^ 63 = x.toNat % 2 ^ 63 := by
    rw [Nat.xor_mod_two_pow, Nat.mod_self, Nat.xor_zero]
  have hdiv : (x.toNat ^^^ 2 ^ 63) / 2 ^ 63 = x.toNat / 2 ^ 63 ^^^ 1 := by
    rw [Nat.xor_div_two_pow, Nat.div_self (by decide)]
  have hval : (flipSign x).toNat = x.toNat ^^^ 2 ^ 63 := by
    rw [flipSign, BitVec.toNat_xor]
    rfl
  rw [hval]
  by_cases h : x.toNat < 2 ^ 63
  · rw [if_pos h]
    rw [Nat.div_eq_of_lt h] at hdiv
    have h1 : 0 ^^^ 1 = 1 := rfl
    omega
  · rw [if_neg h]
    have hq : x.toNat / 2 ^ 63 = 1 := by omega
    rw [hq] at hdiv
    have h1 : 1 ^^^ 1 = 0 := rfl
    omega

/-- The signed order of flipped words is the unsigned order of the words. -/
theorem slt_flipSign (x y : BitVec 64) :
    (flipSign x).slt (flipSign y) = decide (x.toNat < y.toNat) := by
  have hx := x.isLt
  have hy := y.isLt
  rw [BitVec.slt, BitVec.toInt_eq_toNat_cond, BitVec.toInt_eq_toNat_cond, toNat_flipSign,
    toNat_flipSign]
  refine decide_eq_decide.mpr ?_
  split <;> split <;> split <;> split <;> omega

/-! ## The search -/

theorem getLsbD_laneBits {size i : Nat} (h : size ≤ 32) :
    (laneBits size).getLsbD i = decide (i < size) := by
  rw [laneBits, BitVec.getLsbD_ofNat, Nat.testBit_two_pow_sub_one]
  by_cases hi : i < size
  · simp [hi, hi.trans_le h]
  · simp [hi]

/-- A bit of the mask is set exactly for a lane whose key is not below the sought one. -/
theorem getLsbD_candidateMask (u64 : IsU64 K) {size i : Nat} (hsize : size ≤ 32) {key : K}
    {values : List K} (hlen : values.length = size) :
    (candidateMask u64 size key values).getLsbD i = true ↔ ∃ v ∈ values[i]?, key ≤ v := by
  rw [candidateMask, BitVec.getLsbD_and, BitVec.getLsbD_not, getLsbD_laneBits hsize, greaterMask,
    BitVec.getLsbD_setWidth, BitVec.getLsbD_ofBoolListLE]
  by_cases hi : i < size
  · have h32 : i < 32 := hi.trans_le hsize
    obtain ⟨v, hv⟩ := exists_getElem? values (hlen.symm ▸ hi)
    have hslt : (flipSign (u64.word v)).slt (flipSign (u64.word key)) = decide (v < key) := by
      rw [slt_flipSign, decide_eq_decide, u64.lt_iff]
    simp [hi, h32, List.getD_eq_getElem?_getD, hv, hslt]
  · have hnone : values[i]? = none := List.getElem?_eq_none (by omega)
    simp [hi, hnone]

/-- A block has no candidate exactly when all its keys are below the sought one. -/
theorem candidateMask_eq_zero (u64 : IsU64 K) {size : Nat} (hsize : size ≤ 32) {key : K}
    {values : List K} (hlen : values.length = size) (h : candidateMask u64 size key values = 0#32)
    {i : Nat} {v : K} (hv : values[i]? = some v) : v < key := by
  by_contra hc
  have hbit := (getLsbD_candidateMask u64 hsize hlen).mpr ⟨v, hv, not_lt.mp hc⟩
  rw [h, BitVec.getLsbD_zero] at hbit
  cases hbit

/-- Otherwise its trailing zeros count the lanes before the first candidate. -/
theorem candidateMask_ctz (u64 : IsU64 K) {size : Nat} (hsize : size ≤ 32) {key : K}
    {values : List K} (hlen : values.length = size)
    (h : candidateMask u64 size key values ≠ 0#32) :
    (∃ v ∈ values[(candidateMask u64 size key values).ctz.toNat]?, key ≤ v) ∧
      ∀ i v, i < (candidateMask u64 size key values).ctz.toNat → values[i]? = some v → v < key := by
  constructor
  · exact (getLsbD_candidateMask u64 hsize hlen).mp (BitVec.getLsbD_true_ctz_of_ne_zero h)
  · intro i v hi hv
    by_contra hc
    have hbit := (getLsbD_candidateMask u64 hsize hlen).mpr ⟨v, hv, not_lt.mp hc⟩
    rw [BitVec.getLsbD_false_of_lt_ctz hi] at hbit
    cases hbit

/-- A block without candidates lies below the lower bound, and the first candidate is it. -/
theorem blockSearch_ensures (u64 : IsU64 K) {size slotuse : Nat} (hsize : 0 < size)
    (h32 : size ≤ 32) {keys : List K} (key : K) (hn : slotuse ≤ keys.length) :
    (blockSearch u64 size slotuse keys key).Ensures fun r =>
      match r with
      | .inl slot => slot = lowerBound keys key slotuse
      | .inr pos => pos ≤ lowerBound keys key slotuse := by
  refine Ensures.loop (fun m pos => m = slotuse - pos ∧ pos ≤ lowerBound keys key slotuse) ?_
    slotuse 0 ⟨rfl, Nat.zero_le _⟩
  rintro m pos ⟨rfl, hpos⟩
  have hle := lowerBound_le keys key slotuse
  by_cases hblock : pos + size ≤ slotuse
  · rw [if_pos hblock]
    have hload : (loadBlock keys pos size).Returns ((keys.drop pos).take size) := by
      rw [loadBlock, returns_ofOption, if_pos (by omega)]
    refine hload.seq ?_
    have hlen : ((keys.drop pos).take size).length = size := by
      simp only [List.length_take, List.length_drop]
      omega
    by_cases hany : candidateMask u64 size key ((keys.drop pos).take size) ≠ 0#32
    · rw [if_pos hany]
      obtain ⟨⟨v, hv, hkv⟩, hbelow⟩ := candidateMask_ctz u64 h32 hlen hany
      have hidx := (List.getElem?_eq_some_iff.mp hv).1
      rw [hlen] at hidx
      refine Ensures.pure (lowerBound_eq (by omega) hn ?_ ?_).symm
      · intro i x hi hx
        by_cases hip : i < pos
        · exact lt_of_lt_lowerBound (hip.trans_le hpos) hx
        · obtain ⟨j, rfl⟩ := Nat.exists_eq_add_of_le (not_lt.mp hip)
          rw [← getElem?_block size (by omega)] at hx
          exact hbelow j x (by omega) hx
      · intro x _ hx
        rw [← getElem?_block size hidx] at hx
        exact Option.some.inj (hv.symm.trans hx) ▸ hkv
    · rw [if_neg hany]
      refine Ensures.pure ⟨slotuse - (pos + size), by omega, rfl, ?_⟩
      by_contra hc
      obtain ⟨j, hj⟩ := Nat.exists_eq_add_of_le hpos
      obtain ⟨x, hx⟩ := exists_getElem? keys (i := lowerBound keys key slotuse) (by omega)
      have hkx := le_of_lowerBound (by omega) hx
      rw [hj, ← getElem?_block size (by omega)] at hx
      exact (candidateMask_eq_zero u64 h32 hlen (not_not.mp hany) hx).not_ge hkx
  · rw [if_neg hblock]
    exact Ensures.pure hpos

/-- Every form of the search finds the lower bound. -/
theorem simdLowerBoundU64_exact (isa : Isa) (u64 : Option (IsU64 K)) :
    (simdLowerBoundU64 isa u64).Exact := by
  intro slotuse slotkey key hs
  have hlen := hs.le_length
  simp only [simdLowerBoundU64]
  by_cases h0 : slotuse = 0
  · subst h0
    rw [if_pos rfl, returns_pure]
    exact (Nat.le_zero.mp (lowerBound_le slotkey key 0)).symm
  · rw [if_neg h0]
    cases u64 with
    | none => exact findLowerBranchless_exact key hs
    | some u64 =>
        have hblocks : ∀ size, 0 < size → size ≤ 32 → (do
            match (← blockSearch u64 size slotuse slotkey key) with
            | .inl slot => pure slot
            | .inr pos => scanFrom slotkey key slotuse pos : Prog Nat).Returns
              (lowerBound slotkey key slotuse) := by
          intro size hsize h32
          obtain ⟨r, hr, hspec⟩ := blockSearch_ensures u64 hsize h32 key hlen
          refine hr.bind ?_
          cases r with
          | inl slot => exact returns_pure.mpr hspec
          | inr pos => exact scanFrom_returns hlen hspec
        cases isa with
        | avx512 => exact hblocks 8 (by decide) (by decide)
        | avx2 => exact hblocks 4 (by decide) (by decide)
        | scalar => exact scanFrom_returns hlen (Nat.zero_le _)

/-! ## Agreement with the scalar search -/

/-- Whatever the cells from `slotuse` on hold, and even without such cells, all forms return the
slot of `find_lower`: the least slot whose key is not below the sought one, or `slotuse` without
one. -/
theorem simdLowerBoundU64_findLower (u64 : IsU64 K) {slotuse : Nat} {slotkey : List K} (key : K)
    (hs : SortedTo slotkey slotuse) :
    ∃ slot, IsLeast {s | s = slotuse ∨ s < slotuse ∧ ∃ x ∈ slotkey[s]?, key ≤ x} slot ∧
      ∀ cells : List K, cells.take slotuse = slotkey.take slotuse →
        (findLowerBranchless slotuse cells key).Returns slot ∧
          ∀ isa, (simdLowerBoundU64 isa (some u64) slotuse cells key).Returns slot := by
  refine ⟨lowerBound slotkey key slotuse, lowerBound_isLeast key hs.le_length, ?_⟩
  intro cells hcells
  have hs' := SortedTo.of_take_eq hs hcells
  have hlb : lowerBound cells key slotuse = lowerBound slotkey key slotuse := by
    rw [lowerBound, hcells, lowerBound]
  constructor
  · exact hlb ▸ findLowerBranchless_exact key hs'
  · intro isa
    exact hlb ▸ simdLowerBoundU64_exact isa (some u64) key hs'

/-- Keys on both sides of the sign bit, in a node that no block width divides. -/
theorem simdLowerBoundU64_findLower_signs :
    ∃ slot, IsLeast {s | s = 9 ∨ s < 9 ∧ ∃ x ∈ ([1, 2, 2, 5, 9, 2 ^ 63 - 1, 2 ^ 63, 2 ^ 63 + 1,
        2 ^ 64 - 1] : List (Fin (2 ^ 64)))[s]?, 2 ^ 63 ≤ x} slot ∧
      ∀ cells : List (Fin (2 ^ 64)), cells.take 9 = [1, 2, 2, 5, 9, 2 ^ 63 - 1, 2 ^ 63, 2 ^ 63 + 1,
          2 ^ 64 - 1] →
        (findLowerBranchless 9 cells (2 ^ 63)).Returns slot ∧
          ∀ isa, (simdLowerBoundU64 isa (some IsU64.fin) 9 cells (2 ^ 63)).Returns slot :=
  simdLowerBoundU64_findLower IsU64.fin (2 ^ 63) (by decide +kernel)

end BTree
