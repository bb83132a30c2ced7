import PrefetchBench.Prog.Basic

/-!
# The iterations of a loop

`AtHead c body s k t`: after `k` iterations, the loop `while (c) body` from `s` evaluates its
condition in the state `t`.  What holds at the head of a loop is proved by induction on it
(`AtHead.keeps`), and a bound on the iterations left bounds their number (`AtHead.ends`), also
between two heads (`AtHead.falls`).  What holds between the state at the head and the result is
proved backwards (`Returns.whileM_rel`).
-/

namespace Prog

variable {σ : Type} {c : σ → Prog Bool} {body : σ → Prog σ}

/-- The states in which a `while` loop evaluates its condition. -/
inductive AtHead (c : σ → Prog Bool) (body : σ → Prog σ) (s : σ) : Nat → σ → Prop where
  | start : AtHead c body s 0 s
  | next {k : Nat} {t t' : σ} :
      AtHead c body s k t → (c t).Returns true → (body t).Returns t' →
      AtHead c body s (k + 1) t'

/-- A loop is at its head after one iteration more than after its first one. -/
theorem AtHead.cons {s s' t : σ} {k : Nat} (hc : (c s).Returns true) (hb : (body s).Returns s')
    (h : AtHead c body s' k t) : AtHead c body s (k + 1) t := by
  induction h with
  | start => exact .next .start hc hb
  | next _ hc' hb' ih => exact .next ih hc' hb'

/-- What every iteration keeps holds at the head of the loop. -/
theorem AtHead.keeps {P : Nat → σ → Prop} {s t : σ} {k : Nat} (h : AtHead c body s k t)
    (h0 : P 0 s)
    (hbody : ∀ k t t', P k t → (c t).Returns true → (body t).Returns t' → P (k + 1) t') :
    P k t := by
  induction h with
  | start => exact h0
  | next _ hc hb ih => exact hbody _ _ _ ih hc hb

/-- A loop is at one state at a time. -/
theorem AtHead.det {s t t' : σ} {k : Nat} (h : AtHead c body s k t)
    (h' : AtHead c body s k t') : t = t' := by
  induction h generalizing t' with
  | start =>
      cases h'
      rfl
  | next _ _ hb ih =>
      cases h' with
      | next h' _ hb' =>
          cases ih h'
          exact hb.det hb'

/-- The head of a loop before a later head of it. -/
theorem AtHead.split {s t : σ} {k : Nat} :
    ∀ m, AtHead c body s (k + m) t → ∃ u, AtHead c body s k u ∧ AtHead c body u m t := by
  intro m
  induction m generalizing t with
  | zero =>
      intro h
      exact ⟨t, h, .start⟩
  | succ m ih =>
      intro h
      cases h with
      | next h hc hb =>
          obtain ⟨u, hk, hm⟩ := ih h
          exact ⟨u, hk, .next hm hc hb⟩

/-- A measure that every iteration lowers bounds the iterations between two heads. -/
theorem AtHead.falls {Inv : σ → Prop} {left : σ → Nat} {s t : σ} {k : Nat}
    (h : AtHead c body s k t) (hs : Inv s)
    (hbody : ∀ t t', Inv t → (c t).Returns true → (body t).Returns t' →
      Inv t' ∧ left t' < left t) :
    Inv t ∧ left t + k ≤ left s := by
  induction h with
  | start => exact ⟨hs, Nat.le_refl _⟩
  | next _ hc hb ih =>
      obtain ⟨hInv, hle⟩ := ih
      obtain ⟨hInv', hlt⟩ := hbody _ _ hInv hc hb
      exact ⟨hInv', by omega⟩

/-- A loop ends within a bound on the iterations left. -/
theorem AtHead.ends {Inv : Nat → σ → Prop}
    (hstep : ∀ m s, Inv m s → ∃ b, (c s).Returns b ∧
      (b = true → (body s).Ensures fun s' => ∃ m' < m, Inv m' s')) :
    ∀ m s, Inv m s → ∃ k ≤ m, ∃ t, AtHead c body s k t ∧ (c t).Returns false := by
  intro m
  induction m using Nat.strongRecOn with
  | _ m ih =>
    intro s hs
    obtain ⟨b, hb, hbody⟩ := hstep m s hs
    cases b with
    | false => exact ⟨0, Nat.zero_le m, s, .start, hb⟩
    | true =>
        obtain ⟨s', hs', m', hlt, hInv⟩ := hbody rfl
        obtain ⟨k, hk, t, ht, hend⟩ := ih m' hlt s' hInv
        exact ⟨k + 1, Nat.succ_le_of_lt (hk.trans_lt hlt), t, .cons hb hs' ht, hend⟩

/-- What holds between the state of a loop and its result, from the last iteration back to the
first one. -/
theorem Returns.loop_rel {β : Type} {body : σ → Prog (σ ⊕ β)} {R : σ → β → Prop}
    (hbreak : ∀ s b, (body s).Returns (.inr b) → R s b)
    (hstep : ∀ s s' b, (body s).Returns (.inl s') → R s' b → R s b) {s : σ} {b : β}
    (h : (loop body s).Returns b) : R s b := by
  obtain ⟨n, hn⟩ := h
  induction n generalizing s with
  | zero => cases hn
  | succ n ih =>
      change loopRun body (n + 1) s = some b at hn
      rw [loopRun] at hn
      cases hr : (body s).run n with
      | none =>
          rw [hr] at hn
          cases hn
      | some r =>
          rw [hr] at hn
          cases r with
          | inl s' => exact hstep s s' b ⟨n, hr⟩ (ih hn)
          | inr b' =>
              cases hn
              exact hbreak s b ⟨n, hr⟩

/-- The same for `while` loops. -/
theorem Returns.whileM_rel {R : σ → σ → Prop} (hend : ∀ s, (c s).Returns false → R s s)
    (hbody : ∀ s s' t, (c s).Returns true → (body s).Returns s' → R s' t → R s t) {s t : σ}
    (h : (whileM c body s).Returns t) : R s t := by
  rw [whileM] at h
  apply Returns.loop_rel ?_ ?_ h
  · intro s t hr
    obtain ⟨b, hb, hr⟩ := returns_bind.mp hr
    cases b with
    | true =>
        obtain ⟨s', _, hr⟩ := returns_bind.mp hr
        cases returns_pure.mp hr
    | false =>
        cases returns_pure.mp hr
        exact hend s hb
  · intro s s' t hr hR
    obtain ⟨b, hb, hr⟩ := returns_bind.mp hr
    cases b with
    | true =>
        obtain ⟨s'', hs, hr⟩ := returns_bind.mp hr
        cases returns_pure.mp hr
        exact hbody s s' t hb hs hR
    | false => cases returns_pure.mp hr

end Prog
