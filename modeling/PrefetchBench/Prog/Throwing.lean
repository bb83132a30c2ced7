import PrefetchBench.Prog.Basic

/-!
# Programs that throw

A `Throwing` program ends with a result or with an exception, which its caller can catch.
`orFail` is the program for a caller that catches nothing: an exception is like undefined behaviour
then.  It goes through sequencing and loops (`orFail_bind`, `orFail_tryWhile`), so a program
translated with and without its exceptions is the same up to `orFail`, and what it returns is the
same (`returns_orFail`).
-/

namespace Prog

/-- Programs that may throw exceptions from `E`. -/
abbrev Throwing (E α : Type) := ExceptT E Prog α

variable {E α β σ : Type}

/-- A program whose exceptions nobody catches. -/
def orFail (x : Throwing E α) : Prog α := do
  match (← x.run) with
  | .ok a => pure a
  | .error _ => fail

theorem returns_orFail {x : Throwing E α} {a : α} :
    (orFail x).Returns a ↔ x.run.Returns (.ok a) := by
  constructor
  · intro h
    obtain ⟨r, hr, h⟩ := returns_bind.mp h
    cases r with
    | ok b => exact returns_pure.mp h ▸ hr
    | error e => cases returns_ofOption.mp h
  · intro h
    exact Returns.bind h (returns_pure.mpr rfl)

@[simp] theorem orFail_pure (a : α) : orFail (pure a : Throwing E α) = pure a := rfl

@[simp] theorem orFail_throw (e : E) : orFail (throw e : Throwing E α) = fail := rfl

/-- A program that does not throw. -/
@[simp] theorem orFail_lift (x : Prog α) : orFail (ExceptT.lift x : Throwing E α) = x := by
  refine ext fun n => ?_
  show ((x.run n).bind fun a => some (Except.ok a)).bind _ = x.run n
  cases x.run n with
  | none => rfl
  | some a => rfl

theorem not_returns_lift_error {x : Prog α} {e : E} :
    ¬ (ExceptT.lift x : Throwing E α).run.Returns (.error e) := by
  rintro ⟨n, h⟩
  change ((x.run n).bind fun a => some (Except.ok a)) = some (.error e) at h
  obtain ⟨_, _, h⟩ := Option.bind_eq_some_iff.mp h
  cases h

/-- An exception of the first program is one of the sequence. -/
@[simp] theorem orFail_bind (x : Throwing E α) (f : α → Throwing E β) :
    orFail (x >>= f) = orFail x >>= fun a => orFail (f a) := by
  refine ext fun n => ?_
  show ((x.run.run n).bind fun r => (ExceptT.bindCont f r).run n).bind _ =
    ((x.run.run n).bind _).bind _
  cases x.run.run n with
  | none => rfl
  | some r => cases r <;> rfl

/-- `while (c) body`, where `body` may throw. -/
def tryWhile (c : σ → Bool) (body : σ → Throwing E σ) (s : σ) : Throwing E σ :=
  ExceptT.mk (loop (fun s =>
    if c s then do
      match (← (body s).run) with
      | .ok s' => pure (.inl s')
      | .error e => pure (.inr (.error e))
    else pure (.inr (.ok s))) s)

theorem run_orFail (x : Throwing E α) (n : Nat) :
    (orFail x).run n = (x.run.run n).bind Except.toOption := by
  show (x.run.run n).bind _ = _
  cases x.run.run n with
  | none => rfl
  | some r => cases r <;> rfl

theorem run_loop_succ (body : σ → Prog (σ ⊕ β)) (s : σ) (n : Nat) :
    (loop body s).run (n + 1) =
      ((body s).run n).bind (Sum.elim (fun s' => (loop body s').run n) some) := by
  show loopRun body (n + 1) s = _
  rw [loopRun]
  cases (body s).run n with
  | none => rfl
  | some r => cases r <;> rfl

theorem run_whileM_succ (c : σ → Bool) (body : σ → Prog σ) (s : σ) (n : Nat) :
    (whileM (fun s => pure (c s)) body s).run (n + 1) =
      if c s then ((body s).run n).bind fun s' => (whileM (fun s => pure (c s)) body s').run n
      else some s := by
  rw [whileM, run_loop_succ]
  cases hc : c s with
  | false => rfl
  | true =>
      rw [run_bind, run_pure, Option.bind_some, run_bind]
      cases (body s).run n <;> rfl

theorem run_tryWhile_succ (c : σ → Bool) (body : σ → Throwing E σ) (s : σ) (n : Nat) :
    (tryWhile c body s).run.run (n + 1) =
      if c s then ((body s).run.run n).bind fun
        | .ok s' => (tryWhile c body s').run.run n
        | .error e => some (.error e)
      else some (.ok s) := by
  rw [tryWhile, ExceptT.run_mk, run_loop_succ]
  cases hc : c s with
  | false => rfl
  | true =>
      rw [if_pos rfl, if_pos rfl, run_bind]
      cases (body s).run.run n with
      | none => rfl
      | some r => cases r <;> rfl

/-- A loop whose exceptions nobody catches is the loop over the iterations that throw nothing. -/
@[simp] theorem orFail_tryWhile (c : σ → Bool) (body : σ → Throwing E σ) (s : σ) :
    orFail (tryWhile c body s) = whileM (fun s => pure (c s)) (fun s => orFail (body s)) s := by
  refine ext fun n => ?_
  induction n generalizing s with
  | zero => rfl
  | succ n ih =>
      rw [run_orFail, run_tryWhile_succ, run_whileM_succ, run_orFail]
      cases c s with
      | false => rfl
      | true =>
          cases (body s).run.run n with
          | none => rfl
          | some r =>
              cases r with
              | ok s' =>
                  have h := ih s'
                  rw [run_orFail] at h
                  exact h
              | error e => rfl

/-! ## What is thrown -/

/-- Every exception that a program throws has a property. -/
def OnlyThrows (x : Throwing E α) (P : E → Prop) : Prop := ∀ e, x.run.Returns (.error e) → P e

section Thrown

variable {P : E → Prop}

theorem onlyThrows_pure (a : α) : OnlyThrows (pure a : Throwing E α) P := by
  intro e h
  cases (returns_pure.mp h : Except.ok a = .error e)

theorem onlyThrows_throw {e : E} (h : P e) : OnlyThrows (throw e : Throwing E α) P := by
  intro e' h'
  cases (returns_pure.mp h' : (Except.error e : Except E α) = .error e')
  exact h

theorem onlyThrows_lift (x : Prog α) : OnlyThrows (ExceptT.lift x : Throwing E α) P :=
  fun _ h => absurd h not_returns_lift_error

theorem OnlyThrows.bind {x : Throwing E α} {f : α → Throwing E β} (hx : OnlyThrows x P)
    (hf : ∀ a, OnlyThrows (f a) P) : OnlyThrows (x >>= f) P := by
  intro e h
  obtain ⟨r, hr, h⟩ := returns_bind.mp h
  cases r with
  | ok a => exact hf a e h
  | error e' =>
      cases (returns_pure.mp h : (Except.error e' : Except E β) = .error e)
      exact hx e hr

theorem OnlyThrows.foldlM {body : σ → α → Throwing E σ} (h : ∀ s a, OnlyThrows (body s a) P)
    (l : List α) (s : σ) : OnlyThrows (l.foldlM body s) P := by
  induction l generalizing s with
  | nil => exact onlyThrows_pure s
  | cons a l ih =>
      rw [List.foldlM_cons]
      exact (h s a).bind fun s' => ih s'

end Thrown

end Prog
