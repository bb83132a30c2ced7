import Mathlib

/-!
# Dividing into parts of bounded size

`parts n m` is the least number of parts of at most `m` into which `n` can be divided.  Giving each
part in turn the quotient of what is left by the parts that are left keeps every part between the
bounds that hold on average (`share_bounds`), and where at least two parts are needed no part gets
less than half of `m` (`half_mul_parts`).

Dividing the parts again, up to a single one, gives the shape of the smallest tree over `n` items
(`narrowed`, `narrowedSum`).
-/

namespace Ordered

variable {n m p k a b : Nat}

/-- The least number of parts of at most `m`. -/
def parts (n m : Nat) : Nat := (n + m - 1) / m

theorem parts_le_iff (hm : 0 < m) : parts n m ≤ k ↔ n ≤ m * k := by
  rw [parts, ← Nat.ceilDiv_eq_add_pred_div]
  exact ceilDiv_le_iff_le_mul hm

theorem le_mul_parts (n : Nat) (hm : 0 < m) : n ≤ m * parts n m :=
  (parts_le_iff hm).mp le_rfl

theorem lt_parts_iff (hm : 0 < m) : k < parts n m ↔ m * k < n := by
  rw [← not_le, parts_le_iff hm, not_le]

theorem parts_pos (hm : 0 < m) (hn : 0 < n) : 0 < parts n m := by
  rwa [lt_parts_iff hm, Nat.mul_zero]

/-- More than one thing, in parts of two or more, makes fewer parts. -/
theorem parts_lt (hm : 2 ≤ m) (hn : 2 ≤ n) : parts n m < n := by
  have hle : parts n m ≤ n - 1 := by
    rw [parts_le_iff (by omega)]
    calc n ≤ 2 * (n - 1) := by omega
      _ ≤ m * (n - 1) := Nat.mul_le_mul_right _ hm
  omega

/-! ## Shares -/

/-- The next part gets a share between the bounds, and what is left keeps them. -/
theorem share_bounds (hp : 0 < p) (ha : a * p ≤ n) (hb : n ≤ b * p) :
    (a ≤ n / p ∧ n / p ≤ b) ∧ a * (p - 1) ≤ n - n / p ∧ n - n / p ≤ b * (p - 1) := by
  have hlow : a ≤ n / p := (Nat.le_div_iff_mul_le hp).mpr ha
  have hhigh : n / p ≤ b := Nat.div_le_of_le_mul (by rwa [Nat.mul_comm])
  obtain ⟨q, rfl⟩ : ∃ q, p = q + 1 := ⟨p - 1, by omega⟩
  have hsplit := Nat.div_add_mod n (q + 1)
  have hmod := Nat.mod_lt n hp
  rw [Nat.add_mul, Nat.one_mul] at hsplit
  rw [Nat.add_sub_cancel]
  have hrest : n - n / (q + 1) = q * (n / (q + 1)) + n % (q + 1) := by omega
  refine ⟨⟨hlow, hhigh⟩, ?_, ?_⟩
  · calc a * q = q * a := Nat.mul_comm ..
      _ ≤ q * (n / (q + 1)) := Nat.mul_le_mul_left q hlow
      _ ≤ n - n / (q + 1) := by omega
  · rcases Nat.eq_or_lt_of_le hhigh with heq | hlt
    · rw [heq] at hsplit hrest ⊢
      rw [Nat.mul_add, Nat.mul_one] at hb
      rw [Nat.mul_comm q b] at hsplit
      omega
    · have hmul : q * (n / (q + 1)) ≤ q * (b - 1) := Nat.mul_le_mul_left q (by omega)
      have hb' : q * (b - 1) + q = b * q := by
        rw [← Nat.mul_succ, Nat.mul_comm]
        congr 1
        omega
      omega

/-- Every one of several parts can have half of the bound. -/
theorem half_mul_parts (hm : 0 < m) (h : 2 ≤ parts n m) : (m + 1) / 2 * parts n m ≤ n := by
  have hlt : m * (parts n m - 1) < n := (lt_parts_iff hm).mp (by omega)
  obtain ⟨q, hq⟩ : ∃ q, parts n m = q + 2 := ⟨parts n m - 2, by omega⟩
  rw [hq] at hlt ⊢
  rw [show q + 2 - 1 = q + 1 by omega] at hlt
  have hhalf : (m + 1) / 2 * 2 ≤ m + 1 := Nat.div_mul_le_self ..
  have hle : (m + 1) / 2 ≤ m := by omega
  have hmul := Nat.mul_le_mul_right q hle
  rw [Nat.mul_add] at hlt ⊢
  omega

/-- What every part has at least. -/
def least (n m : Nat) : Nat := if parts n m ≤ 1 then n else (m + 1) / 2

theorem least_mul_parts (hm : 0 < m) : least n m * parts n m ≤ n := by
  rw [least]
  split
  · rename_i hone
    calc n * parts n m ≤ n * 1 := Nat.mul_le_mul_left n hone
      _ = n := Nat.mul_one n
  · exact half_mul_parts hm (by omega)

theorem le_least (ha : a ≤ n) (hb : a ≤ (m + 1) / 2) : a ≤ least n m := by
  rw [least]
  split
  · exact ha
  · exact hb

theorem least_of_several (h : 2 ≤ parts n m) : least n m = (m + 1) / 2 := by
  rw [least, if_neg (by omega)]

/-! ## Dividing again and again -/

/-- The number of parts after dividing `k` times. -/
def narrowed (m n : Nat) : Nat → Nat
  | 0 => n
  | k + 1 => parts (narrowed m n k) m

/-- The number of all parts on the way. -/
def narrowedSum (m n : Nat) : Nat → Nat
  | 0 => 0
  | k + 1 => narrowedSum m n k + narrowed m n (k + 1)

theorem narrowed_pos (hm : 0 < m) (hn : 0 < n) : ∀ k, 0 < narrowed m n k
  | 0 => hn
  | k + 1 => parts_pos hm (narrowed_pos hm hn k)

theorem narrowedSum_mono {j k : Nat} (h : j ≤ k) : narrowedSum m n j ≤ narrowedSum m n k := by
  induction h with
  | refl => exact le_rfl
  | step _ ih =>
      rw [narrowedSum]
      omega

end Ordered
