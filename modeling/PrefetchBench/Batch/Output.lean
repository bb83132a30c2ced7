import PrefetchBench.Prog.Basic

/-!
# The output of a batch

A batch of queries fills two vectors: a flag and a value per query.  Each query has an answer
of its own, `some v` or `none`, and `answered` is what the vectors hold once every query has
been answered.  On the way there the queries are answered in an order that depends on the
schedule.  `progress ans prior done` is what vectors that held `prior` hold when exactly the
queries in `done` have been answered, and answering one more query adds it to `done`
(`hit_progress`, `miss_progress`), in whatever order that happens.
-/

namespace Batch

open Prog

variable {V : Type}

/-- The two vectors a batch fills. -/
@[ext] structure Out (V : Type) where
  /-- `found[i]`: query `i` has a value. -/
  found : List Bool
  /-- `results[i]`: that value. -/
  results : List V
deriving DecidableEq, Repr

/-- `xs.resize(n)`: cut, or pad with the default value. -/
def resize (xs : List V) (n : Nat) (dflt : V) : List V :=
  xs.take n ++ List.replicate (n - xs.length) dflt

/-- `if (xs.size() < n) xs.resize(n);` -/
def grow (xs : List V) (n : Nat) (dflt : V) : List V :=
  if xs.length < n then resize xs n dflt else xs

/-- The vectors before any query is answered. -/
def Out.fresh (n : Nat) (results : List V) (dflt : V) : Out V :=
  ⟨List.replicate n false, resize results n dflt⟩

/-- `results[i] = v; found[i] = true;` -/
def Out.hit (out : Out V) (i : Nat) (v : V) : Prog (Out V) := do
  let results ← write out.results i v
  let found ← write out.found i true
  pure ⟨found, results⟩

/-- `found[i] = true;` -/
def Out.mark (out : Out V) (i : Nat) : Prog (Out V) := do
  let found ← write out.found i true
  pure ⟨found, out.results⟩

/-- `found[i] = false;` -/
def Out.miss (out : Out V) (i : Nat) : Prog (Out V) := do
  let found ← write out.found i false
  pure ⟨found, out.results⟩

@[simp] theorem length_resize (xs : List V) (n : Nat) (dflt : V) :
    (resize xs n dflt).length = n := by
  simp only [resize, List.length_append, List.length_take, List.length_replicate]
  omega

theorem getElem?_resize (xs : List V) {n i : Nat} (dflt : V) (hi : i < n) :
    (resize xs n dflt)[i]? = some (xs[i]?.getD dflt) := by
  rw [resize]
  by_cases h : i < xs.length
  · rw [List.getElem?_append_left (by simp; omega), List.getElem?_take_of_lt hi]
    simp [List.getElem?_eq_getElem h]
  · rw [List.getElem?_append_right (by simp; omega), List.getElem?_replicate]
    simp only [List.length_take]
    rw [if_pos (by omega), List.getElem?_eq_none (by omega)]
    rfl

theorem length_le_grow (xs : List V) (n : Nat) (dflt : V) : n ≤ (grow xs n dflt).length := by
  rw [grow]
  split
  · simp
  · omega

theorem getElem?_grow (xs : List V) {n i : Nat} (dflt : V) (hi : i < n) :
    (grow xs n dflt)[i]? = some (xs[i]?.getD dflt) := by
  rw [grow]
  split
  · exact getElem?_resize xs dflt hi
  · rw [List.getElem?_eq_getElem (by omega)]
    rfl

theorem mapIdx_congr {α β : Type} {f g : Nat → α → β} {xs : List α} (h : ∀ i x, f i x = g i x) :
    xs.mapIdx f = xs.mapIdx g := by
  rw [show f = g from funext fun i => funext (h i)]

theorem mapIdx_self {α : Type} {f : Nat → α → α} {xs : List α} (h : ∀ i x, f i x = x) :
    xs.mapIdx f = xs := by
  rw [mapIdx_congr (g := fun _ x => x) h]
  exact List.ext_getElem (by simp) fun i _ _ => by simp

/-- The vectors have an entry for every answer. -/
structure Fits (ans : List (Option V)) (prior : Out V) : Prop where
  /-- A flag for every answer. -/
  found : ans.length ≤ prior.found.length
  /-- A value for every answer. -/
  results : ans.length ≤ prior.results.length

/-! ## Partly answered batches -/

section Progress

open Classical

/-- The vectors once the queries in `done` have been answered. -/
noncomputable def progress (ans : List (Option V)) (prior : Out V) (done : Nat → Prop) : Out V :=
  ⟨prior.found.mapIdx fun i b => if done i then (ans[i]?.join).isSome else b,
    prior.results.mapIdx fun i p => if done i then (ans[i]?.join).getD p else p⟩

end Progress

/-- The vectors once every query has been answered. -/
def answered (ans : List (Option V)) (prior : Out V) : Out V :=
  ⟨prior.found.mapIdx fun i b => if i < ans.length then (ans[i]?.join).isSome else b,
    prior.results.mapIdx fun i p => (ans[i]?.join).getD p⟩

variable {ans : List (Option V)} {prior : Out V} {done : Nat → Prop}

theorem progress_congr {done' : Nat → Prop} (h : ∀ i, done i ↔ done' i) :
    progress ans prior done = progress ans prior done' := by
  rw [show done = done' from funext fun i => propext (h i)]

theorem progress_none (h : ∀ i, ¬ done i) : progress ans prior done = prior := by
  simp only [progress, h, if_false, mapIdx_self fun _ _ => rfl]

theorem progress_all (h : ∀ i, done i ↔ i < ans.length) :
    progress ans prior done = answered ans prior := by
  simp only [progress, answered, h]
  congr 1
  refine mapIdx_congr fun i p => ?_
  by_cases hi : i < ans.length
  · rw [if_pos hi]
  · rw [if_neg hi, List.getElem?_eq_none (not_lt.mp hi)]
    rfl

theorem progress_lt : progress ans prior (· < ans.length) = answered ans prior :=
  progress_all fun _ => Iff.rfl

theorem answered_nil (prior : Out V) : answered [] prior = prior := by
  have hall : progress [] prior (fun _ => False) = answered [] prior := progress_all (by simp)
  rw [← hall, progress_none (by simp)]

/-! ### Answering one more query -/

section Insert

variable {i : Nat} {a : Option V}

theorem found_set_progress (hi : ans[i]? = some a) :
    (progress ans prior done).found.set i a.isSome =
      (progress ans prior fun j => j = i ∨ done j).found := by
  refine List.ext_getElem (by simp [progress]) fun j h1 _ => ?_
  rw [List.getElem_set]
  by_cases hj : j = i
  · subst hj
    simp [progress, hi]
  · rw [if_neg (Ne.symm hj)]
    by_cases hd : done j <;> simp [progress, hj, hd]

theorem results_set_progress {v : V} (hi : ans[i]? = some (some v)) :
    (progress ans prior done).results.set i v =
      (progress ans prior fun j => j = i ∨ done j).results := by
  refine List.ext_getElem (by simp [progress]) fun j h1 _ => ?_
  rw [List.getElem_set]
  by_cases hj : j = i
  · subst hj
    simp [progress, hi]
  · rw [if_neg (Ne.symm hj)]
    by_cases hd : done j <;> simp [progress, hj, hd]

/-- A flag that is right from the start need not be written. -/
theorem found_progress (hi : ans[i]? = some a) (hfound : prior.found[i]? = some a.isSome) :
    (progress ans prior done).found = (progress ans prior fun j => j = i ∨ done j).found := by
  obtain ⟨_, hb⟩ := List.getElem?_eq_some_iff.mp hfound
  refine List.ext_getElem (by simp [progress]) fun j h1 _ => ?_
  by_cases hj : j = i
  · subst hj
    simp [progress, hi, hb]
  · by_cases hd : done j <;> simp [progress, hj, hd]

/-- A value that is there from the start need not be written. -/
theorem results_progress (hi : ans[i]? = some a)
    (hresults : ∀ p, prior.results[i]? = some p → a.getD p = p) :
    (progress ans prior done).results = (progress ans prior fun j => j = i ∨ done j).results := by
  refine List.ext_getElem (by simp [progress]) fun j h1 _ => ?_
  by_cases hj : j = i
  · subst hj
    have hlt : j < prior.results.length := by simpa [progress] using h1
    have hget := hresults _ (List.getElem?_eq_getElem hlt)
    simp [progress, hi, hget]
  · by_cases hd : done j <;> simp [progress, hj, hd]

theorem lt_found_progress (hp : Fits ans prior) (hi : ans[i]? = some a) :
    i < (progress ans prior done).found.length := by
  have hlt := (List.getElem?_eq_some_iff.mp hi).1
  simpa [progress] using hlt.trans_le hp.found

theorem lt_results_progress (hp : Fits ans prior) (hi : ans[i]? = some a) :
    i < (progress ans prior done).results.length := by
  have hlt := (List.getElem?_eq_some_iff.mp hi).1
  simpa [progress] using hlt.trans_le hp.results

/-- Writing the value of a query answers it. -/
theorem hit_progress {v : V} (hp : Fits ans prior) (hi : ans[i]? = some (some v)) :
    ((progress ans prior done).hit i v).Returns
      (progress ans prior fun j => j = i ∨ done j) := by
  refine Returns.bind (returns_write.mpr ⟨lt_results_progress hp hi, rfl⟩) ?_
  refine Returns.bind (returns_write.mpr ⟨lt_found_progress hp hi, rfl⟩) ?_
  rw [returns_pure, results_set_progress hi]
  congr 1
  exact found_set_progress hi

/-- Setting the flag alone answers a query whose value is there already. -/
theorem mark_progress {v : V} (hp : Fits ans prior) (hi : ans[i]? = some (some v))
    (hv : prior.results[i]? = some v) :
    ((progress ans prior done).mark i).Returns
      (progress ans prior fun j => j = i ∨ done j) := by
  refine Returns.bind (returns_write.mpr ⟨lt_found_progress hp hi, rfl⟩) ?_
  rw [returns_pure]
  congr 1
  · exact found_set_progress hi
  · refine results_progress hi fun p hget => ?_
    exact Option.some.inj (hv.symm.trans hget)

/-- Writing a false flag answers a query without a value. -/
theorem miss_progress (hp : Fits ans prior) (hi : ans[i]? = some none) :
    ((progress ans prior done).miss i).Returns
      (progress ans prior fun j => j = i ∨ done j) := by
  refine Returns.bind (returns_write.mpr ⟨lt_found_progress hp hi, rfl⟩) ?_
  rw [returns_pure]
  congr 1
  · exact found_set_progress hi
  · exact results_progress hi fun _ _ => rfl

/-- Such a query is also answered by leaving both vectors alone, if its flag starts out false. -/
theorem progress_insert_none (hi : ans[i]? = some none) (hfalse : prior.found[i]? = some false) :
    progress ans prior done = progress ans prior fun j => j = i ∨ done j := by
  ext1
  · exact found_progress hi hfalse
  · exact results_progress hi fun _ _ => rfl

end Insert

/-! ## Answered batches, query by query -/

variable {Q : Type} {answer : Q → Option V} {queries : List Q} {results : List V} {dflt : V}

theorem getElem?_answers (answer : Q → Option V) {i : Nat} {q : Q} (h : queries[i]? = some q) :
    (queries.map answer)[i]? = some (answer q) := by
  rw [List.getElem?_map, h, Option.map_some]

/-- The flag of an answered query. -/
theorem found_answered {i : Nat} {q : Q} (hp : Fits (queries.map answer) prior)
    (hq : queries[i]? = some q) :
    (answered (queries.map answer) prior).found[i]? = some (answer q).isSome := by
  obtain ⟨hi, rfl⟩ := List.getElem?_eq_some_iff.mp hq
  have hf := hp.found
  rw [List.length_map] at hf
  simp [answered, hi, List.getElem?_eq_getElem (show i < prior.found.length by omega)]

/-- The value of an answered query. -/
theorem results_answered {i : Nat} {q : Q} {p : V} (hq : queries[i]? = some q)
    (hprior : prior.results[i]? = some p) :
    (answered (queries.map answer) prior).results[i]? = some ((answer q).getD p) := by
  simp [answered, hq, hprior]

/-- The batch of `queries` when query `q` has the answer `answer q`. -/
def lookupAll (answer : Q → Option V) (queries : List Q) (results : List V)
    (dflt : V) : Out V :=
  answered (queries.map answer) (Out.fresh queries.length results dflt)

theorem fits_fresh (answer : Q → Option V) (queries : List Q) (results : List V) (dflt : V) :
    Fits (queries.map answer) (Out.fresh queries.length results dflt) :=
  ⟨by simp [Out.fresh], by simp [Out.fresh]⟩

theorem found_fresh {n i : Nat} (results : List V) (dflt : V) (hi : i < n) :
    (Out.fresh n results dflt).found[i]? = some false := by
  simp [Out.fresh, hi]

/-- A batch in which no query has an answer is left as it starts. -/
theorem fresh_eq_lookupAll (h : ∀ q ∈ queries, answer q = none) :
    Out.fresh queries.length results dflt = lookupAll answer queries results dflt := by
  have hjoin : ∀ i : Nat, ((queries.map answer)[i]?).join = none := by
    intro i
    rw [List.getElem?_map]
    cases hq : queries[i]? with
    | none => rfl
    | some q => rw [Option.map_some, h q (List.mem_of_getElem? hq)]; rfl
  simp only [lookupAll, answered, hjoin, Out.fresh]
  congr 1
  · exact List.ext_getElem (by simp) fun i _ _ => by simp
  · exact (mapIdx_self fun _ _ => rfl).symm

@[simp] theorem length_found_lookupAll :
    (lookupAll answer queries results dflt).found.length = queries.length := by
  simp [lookupAll, answered, Out.fresh]

@[simp] theorem length_results_lookupAll :
    (lookupAll answer queries results dflt).results.length = queries.length := by
  simp [lookupAll, answered, Out.fresh]

theorem lookupAll_congr {answer' : Q → Option V} (h : ∀ q ∈ queries, answer q = answer' q) :
    lookupAll answer queries results dflt = lookupAll answer' queries results dflt := by
  rw [lookupAll, lookupAll, List.map_congr_left h]

theorem found_lookupAll {i : Nat} {q : Q} (hq : queries[i]? = some q) :
    (lookupAll answer queries results dflt).found[i]? = some (answer q).isSome :=
  found_answered (fits_fresh answer queries results dflt) hq

theorem results_lookupAll {i : Nat} {q : Q} (hq : queries[i]? = some q) :
    (lookupAll answer queries results dflt).results[i]? =
      some ((answer q).getD (results[i]?.getD dflt)) := by
  obtain ⟨hi, _⟩ := List.getElem?_eq_some_iff.mp hq
  exact results_answered hq (getElem?_resize results dflt hi)

end Batch
