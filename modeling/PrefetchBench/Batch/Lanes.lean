import PrefetchBench.Batch.Output

/-!
# Serial and lockstep schedules

The two schedules that walk the queries in order.  The serial one answers them one by one.  The
lockstep one cuts them into groups of `N` (`groups`) and keeps one lane of local state per query
of a group; each inner `for` loop of the code updates every lane once (`lanes`).  Since a lane is
updated from its own state and its own query only, a loop over the lanes is judged lane by lane
(`Ensures.lanes`), and so are many loops in a row (`Ensures.rounds`).

A step of a schedule *settles* query `i` when it turns a partly answered batch into the one
where `i` is answered as well, whatever was answered before (`Settles`).
-/

namespace Batch

open Prog

variable {V A B σ : Type} {ans : List (Option V)} {prior : Out V}

/-! ## Settling a query -/

/-- `body` answers query `i`, in whatever state the batch is. -/
def Settles (ans : List (Option V)) (prior : Out V) (i : Nat) (body : Out V → Prog (Out V)) :
    Prop :=
  ∀ done : Nat → Prop, (body (progress ans prior done)).Returns
    (progress ans prior fun j => j = i ∨ done j)

theorem settles_hit {i : Nat} {v : V} (hp : Fits ans prior)
    (hi : ans[i]? = some (some v)) : Settles ans prior i fun out => out.hit i v :=
  fun _ => hit_progress hp hi

theorem settles_mark {i : Nat} {v : V} (hp : Fits ans prior) (hi : ans[i]? = some (some v))
    (hv : prior.results[i]? = some v) : Settles ans prior i fun out => out.mark i :=
  fun _ => mark_progress hp hi hv

theorem settles_miss {i : Nat} (hp : Fits ans prior) (hi : ans[i]? = some none) :
    Settles ans prior i fun out => out.miss i :=
  fun _ => miss_progress hp hi

theorem settles_pure {i : Nat} (hi : ans[i]? = some none)
    (hfalse : prior.found[i]? = some false) : Settles ans prior i pure :=
  fun _ => returns_pure.mpr (progress_insert_none hi hfalse)

/-- Settling the next query in order. -/
theorem Settles.next {i : Nat} {body : Out V → Prog (Out V)} (h : Settles ans prior i body) :
    (body (progress ans prior (· < i))).Returns (progress ans prior (· < i + 1)) := by
  have he : progress ans prior (fun j => j = i ∨ j < i) = progress ans prior (· < i + 1) :=
    progress_congr fun j => by omega
  rw [← he]
  exact h _

/-! ## The serial schedule -/

/-- One query after the other. -/
theorem serial_returns {body : Nat → Out V → Prog (Out V)}
    (hbody : ∀ i, i < ans.length → Settles ans prior i (body i)) :
    (forRange ans.length body prior).Returns (answered ans prior) := by
  refine Ensures.returns ?_
  rw [← progress_lt]
  refine Ensures.forRange (fun i out => out = progress ans prior (· < i))
    (progress_none fun i => by omega).symm fun i hi out hout => ?_
  rw [hout]
  exact (hbody i hi).next.ensures rfl

/-- The serial schedule over a vector of queries. -/
theorem serial_queries {Q : Type} {answer : Q → Option V} {queries : List Q} {prior : Out V}
    {body : Nat → Out V → Prog (Out V)}
    (hbody : ∀ i q, queries[i]? = some q → Settles (queries.map answer) prior i (body i)) :
    (forRange queries.length body prior).Returns (answered (queries.map answer) prior) := by
  have h : (forRange (queries.map answer).length body prior).Returns _ :=
    serial_returns fun i hi => by
      rw [List.length_map] at hi
      exact hbody i _ (List.getElem?_eq_getElem hi)
  rwa [List.length_map] at h

/-! ## Lanes -/

/-- `for (i = start; ...; ++i) lane[i] = f(i, lane[i]);` -/
def lanesFrom (f : Nat → A → Prog B) : Nat → List A → Prog (List B)
  | _, [] => pure []
  | i, a :: as => do
      let b ← f i a
      let bs ← lanesFrom f (i + 1) as
      pure (b :: bs)

/-- `for (i = 0; i < size; ++i) lane[i] = f(i, lane[i]);` -/
def lanes (f : Nat → A → Prog B) (as : List A) : Prog (List B) := lanesFrom f 0 as

/-- `size` lanes, and `P i` holds of lane `i`. -/
structure AllLanes (size : Nat) (P : Nat → A → Prop) (as : List A) : Prop where
  /-- The number of lanes. -/
  length_eq : as.length = size
  /-- The property of each lane. -/
  lane : ∀ i a, as[i]? = some a → P i a

theorem AllLanes.mono {size : Nat} {P Q : Nat → A → Prop} {as : List A}
    (h : AllLanes size P as) (hPQ : ∀ i a, i < size → P i a → Q i a) : AllLanes size Q as := by
  refine ⟨h.length_eq, fun i a ha => hPQ i a ?_ (h.lane i a ha)⟩
  rw [← h.length_eq]
  exact (List.getElem?_eq_some_iff.mp ha).1

theorem AllLanes.get {size : Nat} {P : Nat → A → Prop} {as : List A} (h : AllLanes size P as)
    {i : Nat} (hi : i < size) : ∃ a, as[i]? = some a ∧ P i a := by
  have hlt : i < as.length := by rw [h.length_eq]; exact hi
  exact ⟨as[i], List.getElem?_eq_getElem hlt, h.lane i _ (List.getElem?_eq_getElem hlt)⟩

theorem allLanes_replicate {size : Nat} {P : Nat → A → Prop} {a : A}
    (h : ∀ i, i < size → P i a) : AllLanes size P (List.replicate size a) := by
  refine ⟨List.length_replicate, fun i b hb => ?_⟩
  rw [List.getElem?_replicate] at hb
  split at hb
  · rename_i hi
    cases hb
    exact h i hi
  · cases hb

theorem AllLanes.map {size : Nat} {P : Nat → A → Prop} {Q : Nat → B → Prop} {as : List A}
    {f : A → B} (h : AllLanes size P as) (hf : ∀ i a, i < size → P i a → Q i (f a)) :
    AllLanes size Q (as.map f) := by
  refine ⟨by rw [List.length_map]; exact h.length_eq, fun i b hb => ?_⟩
  rw [List.getElem?_map] at hb
  obtain ⟨a, ha, rfl⟩ := Option.map_eq_some_iff.mp hb
  have hi : i < size := by
    rw [← h.length_eq]
    exact (List.getElem?_eq_some_iff.mp ha).1
  exact hf i a hi (h.lane i a ha)

theorem Ensures.lanesFrom {f : Nat → A → Prog B} {Q : Nat → B → Prop} :
    ∀ (start : Nat) (as : List A),
      (∀ i a, as[i]? = some a → (f (start + i) a).Ensures (Q (start + i))) →
      (lanesFrom f start as).Ensures fun bs =>
        bs.length = as.length ∧ ∀ i b, bs[i]? = some b → Q (start + i) b
  | _, [], _ => Ensures.pure ⟨rfl, by simp⟩
  | start, a :: as, h => by
      rw [Batch.lanesFrom]
      refine Ensures.bind (h 0 a rfl) fun b hb => ?_
      have htail := Ensures.lanesFrom (Q := Q) (start + 1) as fun i a' ha' => by
        have := h (i + 1) a' (by simpa using ha')
        rwa [show start + 1 + i = start + (i + 1) by omega]
      refine Ensures.bind htail fun bs hbs => Ensures.pure ⟨by simp [hbs.1], ?_⟩
      rintro (_ | i) b' hb'
      · cases hb'
        exact hb
      · have := hbs.2 i b' (by simpa using hb')
        rwa [show start + 1 + i = start + (i + 1) by omega] at this

/-- The rule for a loop over the lanes: each lane is judged by itself. -/
theorem Ensures.lanes {size : Nat} {f : Nat → A → Prog B} {P : Nat → A → Prop}
    {Q : Nat → B → Prop} {as : List A} (has : AllLanes size P as)
    (hf : ∀ i a, i < size → P i a → (f i a).Ensures (Q i)) :
    (lanes f as).Ensures (AllLanes size Q) := by
  refine (Ensures.lanesFrom (Q := Q) 0 as fun i a ha => ?_).mono fun bs hbs => ?_
  · have hi : i < size := by
      rw [← has.length_eq]
      exact (List.getElem?_eq_some_iff.mp ha).1
    rw [Nat.zero_add]
    exact hf i a hi (has.lane i a ha)
  · exact ⟨hbs.1.trans has.length_eq, fun i b hb => by simpa using hbs.2 i b hb⟩

/-- The rule for a fixed number of loops over the lanes. -/
theorem Ensures.rounds {size rounds : Nat} {f : Nat → A → Prog A} (P : Nat → Nat → A → Prop)
    {init : List A} (has : AllLanes size (P 0) init)
    (hf : ∀ k i a, i < size → P k i a → (f i a).Ensures (P (k + 1) i)) :
    (forRange rounds (fun _ => Batch.lanes f) init).Ensures (AllLanes size (P rounds)) :=
  Ensures.forRange (fun k as => AllLanes size (P k) as) has
    fun k _ _ has => Ensures.lanes has (hf k)

/-! ## Groups of queries -/

/-- `for (start = 0; start < n; start += N)` with the size of each group. -/
def groups (N n : Nat) (body : Nat → Nat → σ → Prog σ) (s : σ) : Prog σ := do
  let r ← whileM (fun r => pure (decide (r.1 < n))) (fun r => do
    let s ← body r.1 (min N (n - r.1)) r.2
    pure (r.1 + N, s)) (0, s)
  pure r.2

/-- The rule for groups: `P i` holds when the queries before `i` have been dealt with. -/
theorem Ensures.groups {N n : Nat} (hN : 1 ≤ N) {body : Nat → Nat → σ → Prog σ} {s : σ}
    (P : Nat → σ → Prop) (h0 : P 0 s)
    (hbody : ∀ start size s, 1 ≤ size → start + size ≤ n → P start s →
      (body start size s).Ensures (P (start + size))) :
    (groups N n body s).Ensures (P n) := by
  refine Ensures.bind (P := fun r => P n r.2) ?_ fun r hr => Ensures.pure hr
  refine Ensures.whileM (fun m r => m = n - r.1 ∧ P (min r.1 n) r.2) ?_ n (0, s)
    ⟨rfl, by simpa using h0⟩
  rintro m ⟨start, s⟩ ⟨rfl, hP⟩
  refine ⟨_, returns_pure.mpr rfl, fun hlt => ?_, fun hge => ?_⟩
  · have hlt' : start < n := by simpa using hlt
    rw [Nat.min_eq_left (by simpa using hlt'.le)] at hP
    refine Ensures.bind (hbody start (min N (n - start)) s (by omega) (by omega) hP)
      fun s' hs' => Ensures.pure ⟨n - (start + N), by simp only; omega, rfl, ?_⟩
    rwa [show min (start + N) n = start + min N (n - start) by omega]
  · have hge' : n ≤ start := by simpa using hge
    rwa [Nat.min_eq_right hge'] at hP

/-- A group that settles its queries in order, from the state its lanes have reached. -/
theorem collect_ensures {start size : Nat} {body : Nat → Out V → Prog (Out V)} {out : Out V}
    (hout : out = progress ans prior (· < start))
    (hbody : ∀ i, i < size → Settles ans prior (start + i) (body i)) :
    (forRange size body out).Ensures (· = progress ans prior (· < start + size)) :=
  Ensures.forRange (fun i out => out = progress ans prior (· < start + i)) hout
    fun i hi out hout => by
      rw [hout]
      exact (hbody i hi).next.ensures rfl

/-- Groups that each settle their own queries answer the batch. -/
theorem groups_returns {N : Nat} (hN : 1 ≤ N) {body : Nat → Nat → Out V → Prog (Out V)}
    (hbody : ∀ start size, 1 ≤ size → start + size ≤ ans.length →
      (body start size (progress ans prior (· < start))).Ensures
        (· = progress ans prior (· < start + size))) :
    (groups N ans.length body prior).Returns (answered ans prior) := by
  refine Ensures.returns ?_
  rw [← progress_lt]
  refine Ensures.groups hN (fun i out => out = progress ans prior (· < i))
    (progress_none fun i => by omega).symm fun start size out h1 h2 hout => ?_
  rw [hout]
  exact hbody start size h1 h2

/-- The schedule in groups over a vector of queries. -/
theorem groups_queries {Q : Type} {answer : Q → Option V} {queries : List Q} {prior : Out V}
    {N : Nat} (hN : 1 ≤ N) {body : Nat → Nat → Out V → Prog (Out V)}
    (hbody : ∀ start size, 1 ≤ size → start + size ≤ queries.length →
      (body start size (progress (queries.map answer) prior (· < start))).Ensures
        (· = progress (queries.map answer) prior (· < start + size))) :
    (groups N queries.length body prior).Returns (answered (queries.map answer) prior) := by
  have h : (groups N (queries.map answer).length body prior).Returns _ :=
    groups_returns hN fun start size h1 h2 => hbody start size h1 (by rwa [List.length_map] at h2)
  rwa [List.length_map] at h

end Batch
