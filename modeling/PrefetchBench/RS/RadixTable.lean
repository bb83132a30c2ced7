import PrefetchBench.RS.Greedy

/-!
# RadixSplineIndex

`rs::RadixSplineIndex`: the spline of `selectPoints` with a table that has an entry for each
prefix of `RadixBits` bits.  The entry is the last spline point at or below the first key with
that prefix (`Built.table`), and a lookup interpolates between the points of the entries for the
prefix of the key and for the next prefix.

`K` is unsigned, of `w` bits; the results are about `uint64_t`.  `Error` and `RadixBits` are
parameters of the template, and a `RadixBits` that makes a shift undefined makes the program fail.
-/

namespace RS

open Prog

/-- `RadixSplineIndex` -/
structure RadixSplineIndex (w : Nat) where
  /-- `Error`, half the width of the windows. -/
  error : Nat
  /-- `RadixBits`, the number of bits of a prefix. -/
  radixBits : Nat
  /-- The sorted keys. -/
  keys : List (Key w)
  /-- Their values. -/
  values : List Nat
  /-- The spline. -/
  splinePoints : List (SplinePoint w)
  /-- For each prefix, a spline point. -/
  radixTable : List Nat
deriving DecidableEq

namespace RadixSplineIndex

variable {w : Nat}

/-! ## Building -/

/-- `static_cast<K>(i) << (64 - RadixBits)` -/
def bucketPrefix (radixBits i : Nat) : Prog (Key w) := do
  let x ← shiftLeft w (i % 2 ^ w) (64 - radixBits)
  pure (Fin.ofNat _ x)

/-- The `while` loop: the last spline point at or below a key, from some spline point on. -/
def advance (splinePoints : List (SplinePoint w)) (bucketPrefix : Key w) : Nat → Prog Nat :=
  whileM (fun splineIdx =>
    if splineIdx + 1 < splinePoints.length then do
      let point ← read splinePoints (splineIdx + 1)
      pure (decide (point.1 ≤ bucketPrefix))
    else pure false) (fun splineIdx => pure (splineIdx + 1))

/-- The second step of `build`. -/
def buildRadixTable (radixBits : Nat) (splinePoints : List (SplinePoint w)) : Prog (List Nat) := do
  assert (decide (radixBits < 64))
  let tableSize := 2 ^ radixBits + 1
  let r ← forRange tableSize (fun i r => do
    let bucketPrefix ← bucketPrefix radixBits i
    let splineIdx ← advance splinePoints bucketPrefix r.2
    let radixTable ← write r.1 i splineIdx
    pure (radixTable, splineIdx)) (List.replicate tableSize 0, 0)
  write r.1 (tableSize - 1) (splinePoints.length - 1)

/-- The constructor, with `build`. -/
def new (error radixBits : Nat) (keys : List (Key w)) (vals : List Nat) :
    Prog (RadixSplineIndex w) := do
  assert (vals.isEmpty || decide (vals.length = keys.length))
  let values := if vals.isEmpty then List.range keys.length else vals
  if keys = [] then pure ⟨error, radixBits, keys, values, [], []⟩ else do
    let splinePoints ← selectPoints error keys
    let radixTable ← buildRadixTable radixBits splinePoints
    pure ⟨error, radixBits, keys, values, splinePoints, radixTable⟩

/-! ## Lookup -/

/-- `static_cast<size_t>(d)`, towards zero: undefined when it does not fit. -/
def toSize (d : ℚ) : Prog Nat := do
  assert (decide (-1 < d) && decide (d < 2 ^ 64))
  pure ⌊d⌋.toNat

variable (s : RadixSplineIndex w)

/-- The first part of `search`: the spline points `(x1, y1)` and `(x2, y2)`. -/
def bracket (key : Key w) : Prog (SplinePoint w × SplinePoint w) := do
  assert (decide (64 - s.radixBits < max 32 w))
  let bucket := (key : Nat) >>> (64 - s.radixBits)
  let splineStart ← read s.radixTable bucket
  let splineEnd ← read s.radixTable (bucket + 1)
  let left ← read s.splinePoints splineStart
  let right ← read s.splinePoints splineEnd
  pure (left, right)

/-- The predicted position.  A division by zero is infinite or not a number, which no `size_t`
can hold. -/
def predict (left right : SplinePoint w) (key : Key w) : Prog Nat :=
  if right.1 ≤ key then pure right.2 else do
    assert (decide (right.1 ≠ left.1))
    let slope := ((right.2 - left.2 : Nat) : ℚ) / subToDouble right.1 left.1
    toSize (left.2 + slope * subToDouble key left.1)

/-- `search` -/
def search (key : Key w) : Prog Window :=
  if s.keys = [] then pure ⟨0, 0⟩ else do
    let points ← s.bracket key
    let pred ← predict points.1 points.2 key
    let lo := if s.error < pred then pred - s.error else 0
    let hi := min ((pred + s.error + 1) % 2 ^ 64) s.keys.length
    pure ⟨lo, hi⟩

/-! ## The table -/

/-- The last spline point at or below a bound, or the first one. -/
def lastUpTo (splinePoints : List (SplinePoint w)) (bound : Nat) : Nat :=
  splinePoints.tail.findIdx fun p => decide (bound < p.1)

section Advance

variable {splinePoints : List (SplinePoint w)} {t u k : Nat}

theorem lastUpTo_lt (h : splinePoints ≠ []) (t : Nat) :
    lastUpTo splinePoints t < splinePoints.length := by
  have hle : lastUpTo splinePoints t ≤ splinePoints.tail.length := List.findIdx_le_length
  rw [List.length_tail] at hle
  have := List.length_pos_iff.mpr h
  omega

/-- Later bounds have later spline points. -/
theorem lastUpTo_mono (splinePoints : List (SplinePoint w)) (htu : t ≤ u) :
    lastUpTo splinePoints t ≤ lastUpTo splinePoints u := by
  apply List.findIdx_le_findIdx
  intro p _ hp
  exact decide_eq_true (htu.trans_lt (of_decide_eq_true hp))

/-- The spline points in between are at or below the bound. -/
theorem le_of_le_lastUpTo {p : SplinePoint w} (hk : k < lastUpTo splinePoints t)
    (hp : splinePoints[k + 1]? = some p) : (p.1 : Nat) ≤ t := by
  rw [← List.getElem?_tail] at hp
  obtain ⟨_, rfl⟩ := List.getElem?_eq_some_iff.mp hp
  exact not_lt.mp (of_decide_eq_false (List.not_of_lt_findIdx hk))

/-- The next one is above it. -/
theorem lt_of_lastUpTo {p : SplinePoint w}
    (hp : splinePoints[lastUpTo splinePoints t + 1]? = some p) : t < p.1 := by
  rw [← List.getElem?_tail] at hp
  obtain ⟨hlt, rfl⟩ := List.getElem?_eq_some_iff.mp hp
  exact of_decide_eq_true (List.findIdx_getElem (w := hlt))

/-- The loop goes on to the last spline point at or below its key, unless it starts behind it. -/
theorem advance_ensures {x : Key w} (hk : k < splinePoints.length) :
    (advance splinePoints x k).Ensures fun k' => k' < splinePoints.length ∧
      (k ≤ lastUpTo splinePoints x → k' = lastUpTo splinePoints x) := by
  refine Ensures.whileM (fun m k' => m = splinePoints.length - k' ∧ k' < splinePoints.length ∧
    (k ≤ lastUpTo splinePoints x → k' ≤ lastUpTo splinePoints x)) ?_ _ _ ⟨rfl, hk, id⟩
  rintro m k' ⟨rfl, hlt, hle⟩
  split
  · rename_i hnext
    obtain ⟨p, hp⟩ := KeyArray.exists_getElem? splinePoints hnext
    refine ⟨_, (returns_read.mpr hp).bind (returns_pure.mpr rfl), ?_, ?_⟩
    · intro hgo
      have hpx : p.1 ≤ x := of_decide_eq_true hgo
      refine Ensures.pure ⟨_, ?_, rfl, hnext, ?_⟩
      · omega
      · intro hkx
        apply Nat.lt_of_le_of_ne (hle hkx)
        rintro rfl
        exact absurd (lt_of_lastUpTo hp) (not_lt.mpr hpx)
    · intro hstop
      have hpx : ¬ p.1 ≤ x := of_decide_eq_false hstop
      refine ⟨hlt, fun hkx => le_antisymm (hle hkx) (not_lt.mp ?_)⟩
      intro hmore
      exact hpx (le_of_le_lastUpTo hmore hp)
  · rename_i hend
    refine ⟨_, returns_pure.mpr rfl, ?_, ?_⟩
    · intro hgo
      cases hgo
    · intro _
      have hbound := lastUpTo_lt (List.ne_nil_of_length_pos (Nat.zero_lt_of_lt hlt)) (x : Nat)
      exact ⟨hlt, fun hkx => by have := hle hkx; omega⟩

end Advance

section Table

variable {radixBits : Nat} {splinePoints : List (SplinePoint 64)}

/-- The prefixes, but for the one behind the last, are not cut off. -/
theorem bucketPrefix_ensures (hbits : 1 ≤ radixBits) (i : Nat) :
    (bucketPrefix (w := 64) radixBits i).Ensures fun x =>
      i < 2 ^ radixBits → radixBits < 64 → (x : Nat) = i * 2 ^ (64 - radixBits) := by
  rw [bucketPrefix, shiftLeft, if_pos (by decide)]
  apply Ensures.bind (P := fun x => x = i % 2 ^ 64 * 2 ^ (64 - radixBits) % 2 ^ 64)
  · have hshift : 64 - radixBits < 64 := by omega
    exact Ensures.assert_bind (decide_eq_true hshift) (Ensures.pure rfl)
  · rintro x rfl
    apply Ensures.pure
    intro hi hlt
    have hfit : i * 2 ^ (64 - radixBits) < 2 ^ 64 := by
      calc i * 2 ^ (64 - radixBits) < 2 ^ radixBits * 2 ^ (64 - radixBits) :=
            Nat.mul_lt_mul_of_pos_right hi (Nat.two_pow_pos _)
        _ = 2 ^ 64 := by rw [← Nat.pow_add, Nat.add_sub_cancel' hlt.le]
    have hi64 : i < 2 ^ 64 := (Nat.le_mul_of_pos_right i (Nat.two_pow_pos _)).trans_lt hfit
    rw [Fin.ofNat, Nat.mod_eq_of_lt hi64, Nat.mod_eq_of_lt hfit]
    exact Nat.mod_eq_of_lt hfit

/-- The entry for a prefix. -/
def entry (radixBits : Nat) (splinePoints : List (SplinePoint 64)) (i : Nat) : Nat :=
  lastUpTo splinePoints (i * 2 ^ (64 - radixBits))

theorem entry_mono {i j : Nat} (hij : i ≤ j) :
    entry radixBits splinePoints i ≤ entry radixBits splinePoints j :=
  lastUpTo_mono _ (Nat.mul_le_mul_right _ hij)

/-- Behind the last prefix there are no keys. -/
theorem entry_last (hlt : radixBits < 64) :
    entry radixBits splinePoints (2 ^ radixBits) = splinePoints.length - 1 := by
  have hall : lastUpTo splinePoints (2 ^ 64) = splinePoints.tail.length := by
    apply List.findIdx_eq_length_of_false
    intro p _
    exact decide_eq_false (not_lt.mpr p.1.isLt.le)
  rw [entry, ← Nat.pow_add, Nat.add_sub_cancel' hlt.le, hall, List.length_tail]

/-- The table before the loop looks at prefix `i`. -/
structure Tabling (radixBits : Nat) (splinePoints : List (SplinePoint 64)) (i : Nat)
    (r : List Nat × Nat) : Prop where
  /-- The size of the table. -/
  length_eq : r.1.length = 2 ^ radixBits + 1
  /-- The entries so far, but for the last one, are final. -/
  done : ∀ t, t < i → t < 2 ^ radixBits → r.1[t]? = some (entry radixBits splinePoints t)
  /-- The loop is inside the spline. -/
  inside : r.2 < splinePoints.length
  /-- The spline point is not behind those that the next prefixes look for. -/
  ahead : i < 2 ^ radixBits → r.2 ≤ entry radixBits splinePoints i

/-- One prefix. -/
theorem Tabling.next {i : Nat} {r : List Nat × Nat} (h : Tabling radixBits splinePoints i r)
    (hi : i < 2 ^ radixBits + 1) {k : Nat} (hk : k < splinePoints.length)
    (heq : i < 2 ^ radixBits → k = entry radixBits splinePoints i) :
    Tabling radixBits splinePoints (i + 1) (r.1.set i k, k) := by
  refine ⟨?_, ?_, hk, ?_⟩
  · rw [List.length_set]
    exact h.length_eq
  · intro t ht hlt
    rcases Nat.lt_succ_iff_lt_or_eq.mp ht with hti | rfl
    · rw [List.getElem?_set_ne hti.ne']
      exact h.done t hti hlt
    · rw [List.getElem?_set_self (h.length_eq.symm ▸ hi), heq hlt]
  · intro hlt
    rw [heq (Nat.lt_of_succ_lt hlt)]
    exact entry_mono (Nat.le_succ i)

/-- The table has the entry of every prefix. -/
theorem buildRadixTable_ensures (hbits : 1 ≤ radixBits) (hlt : radixBits < 64)
    (hne : splinePoints ≠ []) :
    (buildRadixTable radixBits splinePoints).Ensures fun table => ∀ i, i ≤ 2 ^ radixBits →
      table[i]? = some (entry radixBits splinePoints i) := by
  refine Ensures.assert_bind (decide_eq_true hlt) ?_
  apply Ensures.bind (Ensures.forRange (Tabling radixBits splinePoints) ?_ ?_)
  · intro r h
    refine Ensures.write (h.length_eq.symm ▸ Nat.lt_succ_self _) ?_
    intro i hi
    rcases Nat.lt_or_eq_of_le hi with hi | rfl
    · rw [Nat.add_sub_cancel, List.getElem?_set_ne hi.ne']
      exact h.done i (hi.trans (Nat.lt_succ_self _)) hi
    · rw [Nat.add_sub_cancel, List.getElem?_set_self (h.length_eq.symm ▸ Nat.lt_succ_self _),
        entry_last hlt]
  · refine ⟨List.length_replicate, ?_, List.length_pos_iff.mpr hne, fun _ => Nat.zero_le _⟩
    intro t ht
    cases ht
  · intro i hi r h
    apply Ensures.bind (bucketPrefix_ensures hbits i)
    intro x hx
    apply Ensures.bind (advance_ensures (x := x) h.inside)
    intro k hk
    have heq : i < 2 ^ radixBits → k = entry radixBits splinePoints i := by
      intro hi'
      rw [hx hi' hlt] at hk
      exact hk.2 (h.ahead hi')
    have hwrite : (write r.1 i k).Returns (r.1.set i k) :=
      returns_write.mpr ⟨h.length_eq.symm ▸ hi, rfl⟩
    exact hwrite.seq (Ensures.pure (h.next hi hk.1 heq))

/-- The index is built over these keys. -/
structure Built (error radixBits : Nat) (keys : List (Key 64)) (s : RadixSplineIndex 64) :
    Prop where
  /-- The error. -/
  error_eq : s.error = error
  /-- The number of bits. -/
  radixBits_eq : s.radixBits = radixBits
  /-- The keys. -/
  keys_eq : s.keys = keys
  /-- The spline. -/
  selected : Selected error keys s.splinePoints
  /-- The table. -/
  table : ∀ i, i ≤ 2 ^ radixBits → s.radixTable[i]? = some (entry radixBits s.splinePoints i)

theorem Selected.ne_nil {w error : Nat} {keys : List (Key w)} {points : List (SplinePoint w)}
    (h : Selected error keys points) (hkeys : keys ≠ []) : points ≠ [] := by
  rintro rfl
  obtain ⟨k, ks, rfl⟩ := List.exists_cons_of_ne_nil hkeys
  cases h.head

theorem new_ensures {error : Nat} {keys : List (Key 64)} {vals : List Nat} (hbits : 1 ≤ radixBits)
    (hlt : radixBits < 64) (hvals : vals = [] ∨ vals.length = keys.length) (hkeys : keys ≠ [])
    (hsorted : keys.Pairwise (· ≤ ·)) :
    (new error radixBits keys vals).Ensures (Built error radixBits keys) := by
  have hassert : (vals.isEmpty || decide (vals.length = keys.length)) = true := by
    rcases hvals with rfl | hlen
    · rfl
    · simp [hlen]
  refine Ensures.assert_bind hassert ?_
  rw [if_neg hkeys]
  apply Ensures.bind (selectPoints_ensures hkeys hsorted)
  intro points hpoints
  apply Ensures.bind (buildRadixTable_ensures hbits hlt (hpoints.ne_nil hkeys))
  intro table htable
  exact Ensures.pure ⟨rfl, rfl, rfl, hpoints, htable⟩

end Table

end RadixSplineIndex

end RS
