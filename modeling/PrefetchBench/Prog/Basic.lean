import Mathlib

/-!
# Programs with loops

A `Prog` is what a piece of imperative code returns within a budget of loop iterations.
`none` stands for two failures that a caller cannot tell apart: the budget ran out, or the code
did something undefined (a read outside an array, a failed assertion).  A larger budget never
changes a result, and every program carries the proof of that (`Prog.mono`), so *the* result of
a program makes sense without naming a budget (`Prog.Returns`, `Prog.Returns.det`).

`Prog.Ensures x Q` is total correctness: `x` returns, and what it returns satisfies `Q`.  The
rules at the end compose it along `>>=`, and derive it for loops from an invariant indexed by a
bound on the iterations that are left.
-/

/-- A program: its result under every budget of loop iterations. -/
structure Prog (α : Type) where
  /-- The result within a budget. -/
  run : Nat → Option α
  /-- One more unit of budget keeps a result. -/
  mono : ∀ {n : Nat} {a : α}, run n = some a → run (n + 1) = some a

namespace Prog

variable {α β σ : Type}

/-! ## Results do not depend on the budget -/

theorem mono_add {x : Prog α} {n : Nat} {a : α} (h : x.run n = some a) :
    ∀ k, x.run (n + k) = some a
  | 0 => h
  | k + 1 => x.mono (mono_add h k)

theorem mono_le {x : Prog α} {n m : Nat} {a : α} (h : x.run n = some a) (hnm : n ≤ m) :
    x.run m = some a := by
  obtain ⟨k, rfl⟩ := Nat.exists_eq_add_of_le hnm
  exact mono_add h k

/-- `x` returns `a` under some budget, and so under every larger one. -/
def Returns (x : Prog α) (a : α) : Prop := ∃ n, x.run n = some a

/-- A program has at most one result. -/
theorem Returns.det {x : Prog α} {a b : α} (ha : x.Returns a) (hb : x.Returns b) : a = b := by
  obtain ⟨n, hn⟩ := ha
  obtain ⟨m, hm⟩ := hb
  have h1 := mono_le hn (Nat.le_max_left n m)
  have h2 := mono_le hm (Nat.le_max_right n m)
  exact Option.some.inj (h1.symm.trans h2)

/-- Total correctness: `x` returns, and its result satisfies `Q`. -/
def Ensures (x : Prog α) (Q : α → Prop) : Prop := ∃ a, x.Returns a ∧ Q a

theorem Ensures.returns {x : Prog α} {a : α} (h : x.Ensures (· = a)) : x.Returns a := by
  obtain ⟨b, hb, rfl⟩ := h
  exact hb

theorem Returns.ensures {x : Prog α} {a : α} {Q : α → Prop} (h : x.Returns a) (hQ : Q a) :
    x.Ensures Q := ⟨a, h, hQ⟩

/-- A result known from elsewhere has every property the program ensures. -/
theorem Ensures.of_returns {x : Prog α} {a : α} {Q : α → Prop} (h : x.Ensures Q)
    (ha : x.Returns a) : Q a := by
  obtain ⟨b, hb, hQ⟩ := h
  exact ha.det hb ▸ hQ

theorem Ensures.mono {x : Prog α} {P Q : α → Prop} (h : x.Ensures P) (hPQ : ∀ a, P a → Q a) :
    x.Ensures Q := by
  obtain ⟨a, ha, hP⟩ := h
  exact ⟨a, ha, hPQ a hP⟩

theorem Ensures.and {x : Prog α} {P Q : α → Prop} (hP : x.Ensures P) (hQ : x.Ensures Q) :
    x.Ensures fun a => P a ∧ Q a := by
  obtain ⟨a, ha, h⟩ := hP
  exact ⟨a, ha, h, hQ.of_returns ha⟩

/-! ## Sequencing -/

/-- A program without loops. -/
def ofOption (o : Option α) : Prog α := ⟨fun _ => o, fun h => h⟩

/-- Undefined behaviour. -/
def fail : Prog α := ofOption none

theorem bind_mono (x : Prog α) (f : α → Prog β) {n : Nat} {b : β}
    (h : ((x.run n).bind fun a => (f a).run n) = some b) :
    ((x.run (n + 1)).bind fun a => (f a).run (n + 1)) = some b := by
  obtain ⟨a, ha, hf⟩ := Option.bind_eq_some_iff.mp h
  exact Option.bind_eq_some_iff.mpr ⟨a, x.mono ha, (f a).mono hf⟩

instance : Monad Prog where
  pure a := ofOption (some a)
  bind x f := ⟨fun n => (x.run n).bind fun a => (f a).run n, bind_mono x f⟩

theorem ext {x y : Prog α} (h : ∀ n, x.run n = y.run n) : x = y := by
  cases x
  cases y
  congr 1
  exact funext h

@[simp] theorem run_pure (a : α) (n : Nat) : (pure a : Prog α).run n = some a := rfl

@[simp] theorem run_bind (x : Prog α) (f : α → Prog β) (n : Nat) :
    (x >>= f).run n = (x.run n).bind fun a => (f a).run n := rfl

instance : LawfulMonad Prog := LawfulMonad.mk' Prog
  (fun x => ext fun n => by
    show (x.run n).bind (fun a => some a) = x.run n
    simp)
  (fun _ _ => ext fun _ => rfl)
  (fun _ _ _ => ext fun _ => by simp [Option.bind_assoc])

theorem returns_pure {a b : α} : (pure a : Prog α).Returns b ↔ a = b := by
  constructor
  · rintro ⟨n, h⟩
    exact Option.some.inj h
  · rintro rfl
    exact ⟨0, rfl⟩

theorem returns_ofOption {o : Option α} {a : α} : (ofOption o).Returns a ↔ o = some a :=
  ⟨fun ⟨_, h⟩ => h, fun h => ⟨0, h⟩⟩

theorem returns_bind {x : Prog α} {f : α → Prog β} {b : β} :
    (x >>= f).Returns b ↔ ∃ a, x.Returns a ∧ (f a).Returns b := by
  constructor
  · rintro ⟨n, h⟩
    obtain ⟨a, ha, hf⟩ := Option.bind_eq_some_iff.mp h
    exact ⟨a, ⟨n, ha⟩, ⟨n, hf⟩⟩
  · rintro ⟨a, ⟨n, hn⟩, ⟨m, hm⟩⟩
    refine ⟨max n m, Option.bind_eq_some_iff.mpr ⟨a, ?_, ?_⟩⟩
    · exact mono_le hn (Nat.le_max_left n m)
    · exact mono_le hm (Nat.le_max_right n m)

theorem Ensures.pure {a : α} {Q : α → Prop} (h : Q a) : (pure a : Prog α).Ensures Q :=
  ⟨a, returns_pure.mpr rfl, h⟩

theorem Ensures.bind {x : Prog α} {f : α → Prog β} {P : α → Prop} {Q : β → Prop}
    (hx : x.Ensures P) (hf : ∀ a, P a → (f a).Ensures Q) : (x >>= f).Ensures Q := by
  obtain ⟨a, ha, hP⟩ := hx
  obtain ⟨b, hb, hQ⟩ := hf a hP
  exact ⟨b, returns_bind.mpr ⟨a, ha, hb⟩, hQ⟩

theorem Returns.bind {x : Prog α} {f : α → Prog β} {a : α} {b : β} (hx : x.Returns a)
    (hf : (f a).Returns b) : (x >>= f).Returns b := returns_bind.mpr ⟨a, hx, hf⟩

theorem Returns.bind_iff {x : Prog α} {f : α → Prog β} {a : α} {b : β} (hx : x.Returns a) :
    (x >>= f).Returns b ↔ (f a).Returns b := by
  constructor
  · intro h
    obtain ⟨a', ha', hf⟩ := returns_bind.mp h
    exact hx.det ha' ▸ hf
  · exact hx.bind

/-- Run a first program whose result is known, then the rest. -/
theorem Returns.seq {x : Prog α} {f : α → Prog β} {a : α} {Q : β → Prop} (hx : x.Returns a)
    (hf : (f a).Ensures Q) : (x >>= f).Ensures Q :=
  Ensures.bind (hx.ensures rfl) (by rintro _ rfl; exact hf)

theorem Returns.map {x : Prog α} {a : α} (f : α → β) (hx : x.Returns a) :
    (f <$> x).Returns (f a) := by
  rw [map_eq_pure_bind]
  exact hx.bind (returns_pure.mpr rfl)

/-! ## Arrays -/

/-- `xs[i]`: undefined outside the array. -/
def read (xs : List α) (i : Nat) : Prog α := ofOption xs[i]?

/-- `xs[i] = a`: undefined outside the array. -/
def write (xs : List α) (i : Nat) (a : α) : Prog (List α) :=
  ofOption (if i < xs.length then some (xs.set i a) else none)

/-- An assertion of the code: nothing is promised when it fails. -/
def assert (b : Bool) : Prog Unit := ofOption (if b then some ⟨⟩ else none)

theorem returns_read {xs : List α} {i : Nat} {a : α} :
    (read xs i).Returns a ↔ xs[i]? = some a := returns_ofOption

theorem returns_write {xs ys : List α} {i : Nat} {a : α} :
    (write xs i a).Returns ys ↔ i < xs.length ∧ xs.set i a = ys := by
  rw [write, returns_ofOption]
  split
  · rename_i h
    simp [h]
  · rename_i h
    simp [h]

theorem Ensures.read {xs : List α} {i : Nat} {a : α} {Q : α → Prop} (hi : xs[i]? = some a)
    (hQ : Q a) : (read xs i).Ensures Q := (returns_read.mpr hi).ensures hQ

theorem Ensures.write {xs : List α} {i : Nat} {a : α} {Q : List α → Prop} (hi : i < xs.length)
    (hQ : Q (xs.set i a)) : (write xs i a).Ensures Q :=
  (returns_write.mpr ⟨hi, rfl⟩).ensures hQ

theorem returns_assert {b : Bool} {u : Unit} : (assert b).Returns u ↔ b = true := by
  rw [assert, returns_ofOption]
  cases b <;> simp

theorem returns_assert_bind {b : Bool} {f : Unit → Prog β} {r : β} :
    (assert b >>= f).Returns r ↔ b = true ∧ (f ⟨⟩).Returns r := by
  rw [returns_bind]
  constructor
  · rintro ⟨_, hb, hf⟩
    exact ⟨returns_assert.mp hb, hf⟩
  · rintro ⟨hb, hf⟩
    exact ⟨⟨⟩, returns_assert.mpr hb, hf⟩

theorem Ensures.assert {b : Bool} {Q : Unit → Prop} (hb : b = true) (hQ : Q ⟨⟩) :
    (assert b).Ensures Q := (returns_assert.mpr hb).ensures hQ

/-- An assertion that holds is passed. -/
theorem Ensures.assert_bind {b : Bool} {f : Unit → Prog β} {Q : β → Prop} (hb : b = true)
    (hf : (f ⟨⟩).Ensures Q) : (Prog.assert b >>= f).Ensures Q :=
  Returns.seq (a := ⟨⟩) (returns_assert.mpr hb) hf

/-! ## Loops -/

/-- A loop within a budget: one unit is spent per iteration. -/
def loopRun (body : σ → Prog (σ ⊕ β)) : Nat → σ → Option β
  | 0, _ => none
  | n + 1, s =>
      match (body s).run n with
      | none => none
      | some (.inl s') => loopRun body n s'
      | some (.inr b) => some b

theorem loopRun_mono (body : σ → Prog (σ ⊕ β)) :
    ∀ {n : Nat} {s : σ} {b : β}, loopRun body n s = some b → loopRun body (n + 1) s = some b
  | 0, _, _, h => by simp [loopRun] at h
  | n + 1, s, b, h => by
      rw [loopRun] at h ⊢
      cases hr : (body s).run n with
      | none => simp [hr] at h
      | some r =>
          rw [(body s).mono hr]
          rw [hr] at h
          cases r with
          | inl s' => exact loopRun_mono body h
          | inr b' => exact h

/-- `for (;;)`: run `body` until it breaks with a result. -/
def loop (body : σ → Prog (σ ⊕ β)) (s : σ) : Prog β :=
  ⟨fun n => loopRun body n s, loopRun_mono body⟩

/-- `while (c) body`. -/
def whileM (c : σ → Prog Bool) (body : σ → Prog σ) (s : σ) : Prog σ :=
  loop (fun s => do
    match (← c s) with
    | true => return .inl (← body s)
    | false => return .inr s) s

/-- `for (i = start; count times; ++i) body`. -/
def forFrom (body : Nat → σ → Prog σ) : Nat → Nat → σ → Prog σ
  | _, 0, s => pure s
  | start, count + 1, s => do
      let s' ← body start s
      forFrom body (start + 1) count s'

/-- `for (i = 0; i < n; ++i) body`. -/
def forRange (n : Nat) (body : Nat → σ → Prog σ) (s : σ) : Prog σ := forFrom body 0 n s

/-- The loop equation. -/
theorem loop_returns (body : σ → Prog (σ ⊕ β)) (s : σ) (b : β) :
    (loop body s).Returns b ↔
      (body s).Returns (.inr b) ∨ ∃ s', (body s).Returns (.inl s') ∧ (loop body s').Returns b := by
  constructor
  · rintro ⟨n, h⟩
    cases n with
    | zero => exact absurd h (by simp [loop, loopRun])
    | succ n =>
        simp only [loop, loopRun] at h
        cases hr : (body s).run n with
        | none => simp [hr] at h
        | some r =>
            rw [hr] at h
            cases r with
            | inl s' => exact Or.inr ⟨s', ⟨n, hr⟩, ⟨n, h⟩⟩
            | inr b' =>
                cases h
                exact Or.inl ⟨n, hr⟩
  · rintro (⟨n, h⟩ | ⟨s', ⟨n, hn⟩, ⟨m, hm⟩⟩)
    · refine ⟨n + 1, ?_⟩
      show loopRun body (n + 1) s = some b
      simp only [loopRun, h]
    · refine ⟨max n m + 1, ?_⟩
      show loopRun body (max n m + 1) s = some b
      simp only [loopRun, mono_le hn (Nat.le_max_left n m)]
      exact mono_le (x := loop body s') hm (Nat.le_max_right n m)

/-- The rule for loops.  `Inv m s` is the invariant, with `m` a bound on the iterations left. -/
theorem Ensures.loop {body : σ → Prog (σ ⊕ β)} {Q : β → Prop} (Inv : Nat → σ → Prop)
    (hstep : ∀ m s, Inv m s → (body s).Ensures fun r =>
      match r with
      | .inl s' => ∃ m' < m, Inv m' s'
      | .inr b => Q b) :
    ∀ m s, Inv m s → (loop body s).Ensures Q := by
  intro m
  induction m using Nat.strongRecOn with
  | _ m ih =>
    intro s hs
    obtain ⟨r, hr, hQ⟩ := hstep m s hs
    cases r with
    | inl s' =>
        obtain ⟨m', hlt, hs'⟩ := hQ
        obtain ⟨b, hb, hQb⟩ := ih m' hlt s' hs'
        exact ⟨b, (loop_returns body s b).mpr (Or.inr ⟨s', hr, hb⟩), hQb⟩
    | inr b => exact ⟨b, (loop_returns body s b).mpr (Or.inl hr), hQ⟩

/-- The rule for `while` loops with an invariant and a bound on the iterations left. -/
theorem Ensures.whileM {c : σ → Prog Bool} {body : σ → Prog σ} {Q : σ → Prop}
    (Inv : Nat → σ → Prop)
    (hstep : ∀ m s, Inv m s → ∃ b, (c s).Returns b ∧
      (b = true → (body s).Ensures fun s' => ∃ m' < m, Inv m' s') ∧ (b = false → Q s)) :
    ∀ m s, Inv m s → (whileM c body s).Ensures Q := by
  refine Ensures.loop Inv fun m s hs => ?_
  obtain ⟨b, hb, hbody, hQ⟩ := hstep m s hs
  refine hb.seq ?_
  cases b with
  | true =>
      obtain ⟨s', hs', hInv⟩ := hbody rfl
      exact hs'.seq (Ensures.pure hInv)
  | false => exact Ensures.pure (hQ rfl)

/-- The loop equation of `while`. -/
theorem whileM_returns (c : σ → Prog Bool) (body : σ → Prog σ) (s t : σ) :
    (whileM c body s).Returns t ↔
      ((c s).Returns false ∧ s = t) ∨
        ∃ s', (c s).Returns true ∧ (body s).Returns s' ∧ (whileM c body s').Returns t := by
  simp only [whileM]
  rw [loop_returns]
  constructor
  · rintro (h | ⟨s', h, ht⟩)
    · obtain ⟨b, hb, h⟩ := returns_bind.mp h
      cases b with
      | true =>
          obtain ⟨s', _, h⟩ := returns_bind.mp h
          cases returns_pure.mp h
      | false =>
          cases returns_pure.mp h
          exact Or.inl ⟨hb, rfl⟩
    · obtain ⟨b, hb, h⟩ := returns_bind.mp h
      cases b with
      | true =>
          obtain ⟨s'', hs, h⟩ := returns_bind.mp h
          cases returns_pure.mp h
          exact Or.inr ⟨s', hb, hs, ht⟩
      | false => cases returns_pure.mp h
  · rintro (⟨hb, rfl⟩ | ⟨s', hb, hs, ht⟩)
    · exact Or.inl (hb.bind (returns_pure.mpr rfl))
    · exact Or.inr ⟨s', hb.bind (hs.bind (returns_pure.mpr rfl)), ht⟩

/-! ## Invariants of runs that return -/

/-- Partial correctness of loops: what every iteration keeps holds where the loop breaks. -/
theorem Returns.loop_inv {body : σ → Prog (σ ⊕ β)} {P : σ → Prop} {Q : β → Prop}
    (hstep : ∀ s s', P s → (body s).Returns (.inl s') → P s')
    (hbreak : ∀ s b, P s → (body s).Returns (.inr b) → Q b) {s : σ} {b : β} (hs : P s)
    (h : (loop body s).Returns b) : Q b := by
  obtain ⟨n, hn⟩ := h
  induction n generalizing s with
  | zero => cases hn
  | succ n ih =>
      change loopRun body (n + 1) s = some b at hn
      rw [loopRun] at hn
      cases hr : (body s).run n with
      | none =>
          rw [hr] at hn
          cases hn
      | some r =>
          rw [hr] at hn
          cases r with
          | inl s' => exact ih (hstep s s' hs ⟨n, hr⟩) hn
          | inr b' =>
              cases hn
              exact hbreak s b hs ⟨n, hr⟩

/-- Partial correctness of `while` loops. -/
theorem Returns.whileM_inv {c : σ → Prog Bool} {body : σ → Prog σ} {P : σ → Prop}
    (hbody : ∀ s s', P s → (c s).Returns true → (body s).Returns s' → P s') {s t : σ} (hs : P s)
    (h : (whileM c body s).Returns t) : P t ∧ (c t).Returns false := by
  rw [whileM] at h
  refine Returns.loop_inv (P := P) (Q := fun t => P t ∧ (c t).Returns false)
    (fun s s' hs hr => ?_) (fun s t hs hr => ?_) hs h
  · obtain ⟨b, hb, hr⟩ := returns_bind.mp hr
    cases b with
    | true =>
        obtain ⟨s'', hs'', hr⟩ := returns_bind.mp hr
        cases returns_pure.mp hr
        exact hbody s s' hs hb hs''
    | false => cases returns_pure.mp hr
  · obtain ⟨b, hb, hr⟩ := returns_bind.mp hr
    cases b with
    | true =>
        obtain ⟨s'', _, hr⟩ := returns_bind.mp hr
        cases returns_pure.mp hr
    | false =>
        cases returns_pure.mp hr
        exact ⟨hs, hb⟩

theorem Returns.forFrom_inv {body : Nat → σ → Prog σ} :
    ∀ (count start : Nat) {s s' : σ}, (forFrom body start count s).Returns s' → ∀ i, start ≤ i →
      i < start + count → ∃ t t', (body i t).Returns t'
  | 0, start, _, _, _, i, h1, h2 => absurd h2 (by omega)
  | count + 1, start, s, s', h, i, h1, h2 => by
      obtain ⟨t, ht, h⟩ := returns_bind.mp h
      rcases Nat.eq_or_lt_of_le h1 with rfl | hlt
      · exact ⟨s, t, ht⟩
      · exact Returns.forFrom_inv count (start + 1) h i hlt (by omega)

/-- Partial correctness of `for` loops. -/
theorem Returns.forFrom_keeps {body : Nat → σ → Prog σ} {P : Nat → σ → Prop} :
    ∀ (count start : Nat) {s t : σ}, (forFrom body start count s).Returns t → P start s →
      (∀ i s s', start ≤ i → i < start + count → P i s → (body i s).Returns s' → P (i + 1) s') →
      P (start + count) t
  | 0, _, _, _, h, hs, _ => by
      cases returns_pure.mp h
      exact hs
  | count + 1, start, s, t, h, hs, hbody => by
      obtain ⟨s', hs', h⟩ := returns_bind.mp h
      have ht := Returns.forFrom_keeps count (start + 1) h
        (hbody start s s' (Nat.le_refl _) (by omega) hs hs')
        fun i s s' hi hlt => hbody i s s' (by omega) (by omega)
      rwa [show start + 1 + count = start + (count + 1) by omega] at ht

/-- What every iteration of a `for` loop keeps holds after it. -/
theorem Returns.forRange_keeps {n : Nat} {body : Nat → σ → Prog σ} (P : Nat → σ → Prop) {s t : σ}
    (h : (forRange n body s).Returns t) (hs : P 0 s)
    (hbody : ∀ i s s', i < n → P i s → (body i s).Returns s' → P (i + 1) s') : P n t := by
  have ht := Returns.forFrom_keeps (P := P) n 0 h hs fun i s s' _ hi => hbody i s s' (by omega)
  rwa [Nat.zero_add] at ht

/-- When a `for` loop returns, every iteration has returned. -/
theorem Returns.forRange_inv {n : Nat} {body : Nat → σ → Prog σ} {s s' : σ}
    (h : (forRange n body s).Returns s') (i : Nat) (hi : i < n) :
    ∃ t t', (body i t).Returns t' :=
  Returns.forFrom_inv n 0 h i (Nat.zero_le i) (by omega)

theorem Ensures.forFrom {body : Nat → σ → Prog σ} {P : Nat → σ → Prop} :
    ∀ (count start : Nat) (s : σ), P start s →
      (∀ i, start ≤ i → i < start + count → ∀ s, P i s → (body i s).Ensures (P (i + 1))) →
      (forFrom body start count s).Ensures (P (start + count))
  | 0, _, _, hs, _ => Ensures.pure hs
  | count + 1, start, s, hs, hbody => by
      rw [Prog.forFrom]
      refine Ensures.bind (hbody start (Nat.le_refl _) (by omega) s hs) fun s' hs' => ?_
      have h := Ensures.forFrom count (start + 1) s' hs'
        fun i hi hlt => hbody i (by omega) (by omega)
      rwa [show start + 1 + count = start + (count + 1) by omega] at h

/-- The rule for counting loops: `P i` holds before iteration `i`. -/
theorem Ensures.forRange {n : Nat} {body : Nat → σ → Prog σ} (P : Nat → σ → Prop) {s : σ}
    (h0 : P 0 s) (hbody : ∀ i, i < n → ∀ s, P i s → (body i s).Ensures (P (i + 1))) :
    (forRange n body s).Ensures (P n) := by
  have h := Ensures.forFrom (P := P) n 0 s h0 fun i _ hi => hbody i (by omega)
  rwa [Nat.zero_add] at h

end Prog
