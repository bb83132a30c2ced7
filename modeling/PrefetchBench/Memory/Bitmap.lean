import PrefetchBench.Prog.Basic

/-!
# Bitmaps

Arrays of bytes as arrays of bits.  Setting or clearing a bit changes that bit and no other
(`Bitmap.set_ensures`, `Bitmap.clear_ensures`).
-/

open Prog

/-- An array of bytes. -/
abbrev Bitmap := List (BitVec 8)

namespace Bitmap

/-- `BITMAP_SIZE(num_items)` -/
def bytes (numItems : Nat) : Nat := (numItems + 8 - 1) / 8

/-- `BITMAP_GET(bitmap, pos) == 1` -/
def get (b : Bitmap) (pos : Nat) : Prog Bool := do
  let byte ← read b (pos / 8)
  pure (decide ((byte >>> (pos % 8)) &&& 1#8 = 1#8))

/-- `BITMAP_SET(bitmap, pos)` -/
def set (b : Bitmap) (pos : Nat) : Prog Bitmap := do
  let byte ← read b (pos / 8)
  write b (pos / 8) (byte ||| 1#8 <<< (pos % 8))

/-- `BITMAP_CLEAR(bitmap, pos)` -/
def clear (b : Bitmap) (pos : Nat) : Prog Bitmap := do
  let byte ← read b (pos / 8)
  write b (pos / 8) (byte &&& ~~~(1#8 <<< (pos % 8)))

/-- The bit at a position, if the array has it. -/
def bit (b : Bitmap) (pos : Nat) : Option Bool :=
  (b[pos / 8]?).map fun byte => byte.getLsbD (pos % 8)

variable {b b' : Bitmap} {pos numItems : Nat}

/-! ## Bytes -/

theorem getLsbD_one_shift (i : Nat) {j : Nat} (hj : j < 8) :
    (1#8 <<< i).getLsbD j = decide (j = i) := by
  rw [BitVec.getLsbD_shiftLeft, BitVec.getLsbD_one]
  by_cases h : j = i
  · simp [h]
    omega
  · simp [h]
    omega

theorem shift_and_one (byte : BitVec 8) {i : Nat} (hi : i < 8) :
    decide ((byte >>> i) &&& 1#8 = 1#8) = byte.getLsbD i := by
  interval_cases i <;> revert byte <;> decide

theorem getLsbD_set (byte : BitVec 8) (i : Nat) {j : Nat} (hj : j < 8) :
    (byte ||| 1#8 <<< i).getLsbD j = (byte.getLsbD j || decide (j = i)) := by
  rw [BitVec.getLsbD_or, getLsbD_one_shift i hj]

theorem getLsbD_clear (byte : BitVec 8) (i : Nat) {j : Nat} (hj : j < 8) :
    (byte &&& ~~~(1#8 <<< i)).getLsbD j = (byte.getLsbD j && !decide (j = i)) := by
  rw [BitVec.getLsbD_and, BitVec.getLsbD_not, getLsbD_one_shift i hj]
  simp [hj]

/-! ## Arrays of bytes -/

/-- Reading a bit. -/
theorem returns_get {x : Bool} : (b.get pos).Returns x ↔ b.bit pos = some x := by
  rw [get, bit, returns_bind, Option.map_eq_some_iff]
  simp only [returns_read, returns_pure, shift_and_one _ (Nat.mod_lt pos (by decide : 0 < 8))]

theorem lt_length_of_bit {x : Bool} (h : b.bit pos = some x) : pos / 8 < b.length := by
  obtain ⟨byte, hbyte, _⟩ := Option.map_eq_some_iff.mp h
  exact (List.getElem?_eq_some_iff.mp hbyte).1

/-- A change of one byte that changes one bit of it. -/
theorem bit_update {byte byte' : BitVec 8} {x : Bool} (hbyte : b[pos / 8]? = some byte)
    (h : ∀ j, j < 8 → byte'.getLsbD j = if j = pos % 8 then x else byte.getLsbD j) (i : Nat) :
    bit (List.set b (pos / 8) byte') i = if i = pos then some x else b.bit i := by
  rw [bit, bit]
  by_cases hi : pos / 8 = i / 8
  · have hlt := (List.getElem?_eq_some_iff.mp hbyte).1
    rw [hi] at hbyte hlt
    rw [hi, List.getElem?_set_self hlt, Option.map_some, hbyte, Option.map_some,
      h _ (Nat.mod_lt i (by decide))]
    have hiff : i % 8 = pos % 8 ↔ i = pos := by omega
    simp only [hiff]
    split <;> rfl
  · rw [List.getElem?_set_ne hi, if_neg (by rintro rfl; exact hi rfl)]

theorem set_ensures {x : Bool} (h : b.bit pos = some x) :
    (b.set pos).Ensures fun b' => b'.length = b.length ∧
      ∀ i, bit b' i = if i = pos then some true else b.bit i := by
  obtain ⟨byte, hbyte, _⟩ := Option.map_eq_some_iff.mp h
  refine (returns_read.mpr hbyte).seq
    (Ensures.write (lt_length_of_bit h) ⟨List.length_set, bit_update hbyte fun j hj => ?_⟩)
  rw [getLsbD_set byte _ hj]
  by_cases hj' : j = pos % 8
  · simp [hj']
  · simp [hj']

theorem clear_ensures {x : Bool} (h : b.bit pos = some x) :
    (b.clear pos).Ensures fun b' => b'.length = b.length ∧
      ∀ i, bit b' i = if i = pos then some false else b.bit i := by
  obtain ⟨byte, hbyte, _⟩ := Option.map_eq_some_iff.mp h
  refine (returns_read.mpr hbyte).seq
    (Ensures.write (lt_length_of_bit h) ⟨List.length_set, bit_update hbyte fun j hj => ?_⟩)
  rw [getLsbD_clear byte _ hj]
  by_cases hj' : j = pos % 8
  · simp [hj']
  · simp [hj']

theorem bit_replicate {byte : BitVec 8} (h : pos < numItems) :
    bit (List.replicate (bytes numItems) byte) pos = some (byte.getLsbD (pos % 8)) := by
  rw [bit, List.getElem?_replicate, if_pos (by rw [bytes]; omega), Option.map_some]

/-- All bits set. -/
theorem bit_ones (h : pos < numItems) :
    bit (List.replicate (bytes numItems) 0xff#8) pos = some true := by
  rw [bit_replicate h]
  have hlt := Nat.mod_lt pos (by decide : 0 < 8)
  interval_cases pos % 8 <;> rfl

/-- No bit set. -/
theorem bit_zeros (h : pos < numItems) :
    bit (List.replicate (bytes numItems) 0#8) pos = some false := by
  rw [bit_replicate h, BitVec.getLsbD_zero]

end Bitmap
