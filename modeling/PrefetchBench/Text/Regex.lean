import PrefetchBench.Text.Strings

/-!
# Regular expressions

The expressions that `re` is used with here: literal texts, repeated classes of characters, and
groups, one after the other.  `Regex.run` lists the ways to match at the start of a text in the
order in which backtracking tries them, and `Regex.search` takes the first one at the leftmost
place.  What a match is does not depend on that order (`Matches`), and `search` finds a match if
there is one (`search_of_occurs`).
-/

/-- The groups of a match, with what they matched. -/
abbrev Captures := List (String × Str)

/-- `match.group(name)` -/
def matched (caps : Captures) (name : String) : Str := (caps.lookup name).getD []

/-- A regular expression. -/
inductive Regex where
  /-- The text itself. -/
  | lit (t : Str)
  /-- A class repeated at least `lo` times, and at most `hi` times if that is a number. -/
  | rep (p : Char → Bool) (lo : Nat) (hi : Option Nat) (greedy : Bool)
  /-- `r`, then `s`. -/
  | seq (r s : Regex)
  /-- `(?P<name>r)` -/
  | group (name : String) (r : Regex)

namespace Regex

open Text

variable {r s : Regex} {t input rest : Str} {caps : Captures}

/-! ## Matching -/

/-- How often a class can be repeated at the start of a text, first choice first. -/
def counts (p : Char → Bool) (lo : Nat) (hi : Option Nat) (greedy : Bool) (input : Str) :
    List Nat :=
  let most := min (input.takeWhile p).length (hi.getD input.length)
  let ascending := (List.range (most + 1)).filter (lo ≤ ·)
  if greedy then ascending.reverse else ascending

/-- The ways to match at the start of a text, with what is left of it. -/
def run : Regex → Str → List (Str × Captures)
  | lit t, input => if t.isPrefixOf input then [(input.drop t.length, [])] else []
  | rep p lo hi greedy, input =>
      (counts p lo hi greedy input).map fun n => (input.drop n, [])
  | seq r s, input =>
      (r.run input).flatMap fun m => (s.run m.1).map fun m' => (m'.1, m.2 ++ m'.2)
  | group name r, input =>
      (r.run input).map fun m => (m.1, (name, input.take (input.length - m.1.length)) :: m.2)

/-- `re.search(r, input)` -/
def search (r : Regex) : Str → Option Captures
  | [] => (r.run []).head?.map Prod.snd
  | c :: cs =>
      match (r.run (c :: cs)).head? with
      | some m => some m.2
      | none => r.search cs

/-- One after the other. -/
def seqs (rs : List Regex) : Regex := rs.foldr seq (lit [])

/-! ## What a match is -/

/-- The expression matches the whole text. -/
inductive Matches : Regex → Str → Captures → Prop where
  | lit {t : Str} : Matches (lit t) t []
  | rep {p : Char → Bool} {lo : Nat} {hi : Option Nat} {greedy : Bool} {t : Str} :
      (∀ c ∈ t, p c = true) → lo ≤ t.length → (∀ m, hi = some m → t.length ≤ m) →
      Matches (rep p lo hi greedy) t []
  | seq {r s : Regex} {t t' : Str} {caps caps' : Captures} :
      Matches r t caps → Matches s t' caps' → Matches (seq r s) (t ++ t') (caps ++ caps')
  | group {name : String} {r : Regex} {t : Str} {caps : Captures} :
      Matches r t caps → Matches (group name r) t ((name, t) :: caps)

theorem matches_lit : Matches (lit t) input caps ↔ input = t ∧ caps = [] := by
  constructor
  · intro h
    cases h
    exact ⟨rfl, rfl⟩
  · rintro ⟨rfl, rfl⟩
    exact .lit

theorem matches_rep {p : Char → Bool} {lo : Nat} {hi : Option Nat} {greedy : Bool} :
    Matches (rep p lo hi greedy) t caps ↔
      (∀ c ∈ t, p c = true) ∧ lo ≤ t.length ∧ (∀ m, hi = some m → t.length ≤ m) ∧ caps = [] := by
  constructor
  · intro h
    cases h with
    | rep hp hlo hhi => exact ⟨hp, hlo, hhi, rfl⟩
  · rintro ⟨hp, hlo, hhi, rfl⟩
    exact .rep hp hlo hhi

theorem matches_seq : Matches (seq r s) t caps ↔ ∃ t₁ t₂ c₁ c₂, t = t₁ ++ t₂ ∧ caps = c₁ ++ c₂ ∧
    Matches r t₁ c₁ ∧ Matches s t₂ c₂ := by
  constructor
  · intro h
    cases h with
    | seq hr hs => exact ⟨_, _, _, _, rfl, rfl, hr, hs⟩
  · rintro ⟨t₁, t₂, c₁, c₂, rfl, rfl, hr, hs⟩
    exact .seq hr hs

theorem matches_group {name : String} : Matches (group name r) t caps ↔
    ∃ caps', caps = (name, t) :: caps' ∧ Matches r t caps' := by
  constructor
  · intro h
    cases h with
    | group h => exact ⟨_, rfl, h⟩
  · rintro ⟨caps', rfl, h⟩
    exact .group h

theorem matches_nil : Matches (seqs []) t caps ↔ t = [] ∧ caps = [] := matches_lit

theorem matches_cons {rs : List Regex} : Matches (seqs (r :: rs)) t caps ↔
    ∃ t₁ t₂ c₁ c₂, t = t₁ ++ t₂ ∧ caps = c₁ ++ c₂ ∧ Matches r t₁ c₁ ∧ Matches (seqs rs) t₂ c₂ :=
  matches_seq

/-- A literal text in front. -/
theorem matches_cons_lit {rs : List Regex} {l : Str} : Matches (seqs (lit l :: rs)) t caps ↔
    ∃ t', t = l ++ t' ∧ Matches (seqs rs) t' caps := by
  rw [matches_cons]
  constructor
  · rintro ⟨t₁, t₂, c₁, c₂, rfl, rfl, hl, hrest⟩
    obtain ⟨rfl, rfl⟩ := matches_lit.mp hl
    exact ⟨t₂, rfl, hrest⟩
  · rintro ⟨t', rfl, hrest⟩
    exact ⟨l, t', [], caps, rfl, rfl, .lit, hrest⟩

/-- A repeated class in front. -/
theorem matches_cons_rep {rs : List Regex} {p : Char → Bool} {lo : Nat} {hi : Option Nat}
    {greedy : Bool} : Matches (seqs (rep p lo hi greedy :: rs)) t caps ↔
      ∃ w t', t = w ++ t' ∧ (∀ c ∈ w, p c = true) ∧ lo ≤ w.length ∧
        (∀ m, hi = some m → w.length ≤ m) ∧ Matches (seqs rs) t' caps := by
  rw [matches_cons]
  constructor
  · rintro ⟨t₁, t₂, c₁, c₂, rfl, rfl, hw, hrest⟩
    obtain ⟨hp, hlo, hhi, rfl⟩ := matches_rep.mp hw
    exact ⟨t₁, t₂, rfl, hp, hlo, hhi, hrest⟩
  · rintro ⟨w, t', rfl, hp, hlo, hhi, hrest⟩
    exact ⟨w, t', [], caps, rfl, rfl, .rep hp hlo hhi, hrest⟩

/-- A class repeated any number of times in front. -/
theorem matches_cons_many {rs : List Regex} {p : Char → Bool} {lo : Nat} {greedy : Bool} :
    Matches (seqs (rep p lo none greedy :: rs)) t caps ↔
      ∃ w t', t = w ++ t' ∧ (∀ c ∈ w, p c = true) ∧ lo ≤ w.length ∧
        Matches (seqs rs) t' caps := by
  rw [matches_cons_rep]
  simp only [reduceCtorEq, false_implies, implies_true, true_and]

/-- A group in front. -/
theorem matches_cons_group {rs : List Regex} {name : String} :
    Matches (seqs (group name r :: rs)) t caps ↔
      ∃ g t' c c', t = g ++ t' ∧ caps = (name, g) :: (c ++ c') ∧ Matches r g c ∧
        Matches (seqs rs) t' c' := by
  rw [matches_cons]
  constructor
  · rintro ⟨t₁, t₂, c₁, c₂, rfl, rfl, hg, hrest⟩
    obtain ⟨c, rfl, hr⟩ := matches_group.mp hg
    exact ⟨t₁, t₂, c, c₂, rfl, rfl, hr, hrest⟩
  · rintro ⟨g, t', c, c', rfl, rfl, hr, hrest⟩
    exact ⟨g, t', (name, g) :: c, c', rfl, rfl, .group hr, hrest⟩

/-! ## Running finds the matches -/

theorem mem_counts {p : Char → Bool} {lo n : Nat} {hi : Option Nat} {greedy : Bool} :
    n ∈ counts p lo hi greedy input ↔
      lo ≤ n ∧ n ≤ (input.takeWhile p).length ∧ ∀ m, hi = some m → n ≤ m := by
  have hmem : n ∈ counts p lo hi greedy input ↔
      n < min (input.takeWhile p).length (hi.getD input.length) + 1 ∧ lo ≤ n := by
    cases greedy <;> simp [counts]
  have htake : (input.takeWhile p).length ≤ input.length := (List.takeWhile_sublist p).length_le
  rw [hmem]
  cases hi with
  | none =>
      simp only [Option.getD_none, reduceCtorEq, false_implies, implies_true, and_true]
      omega
  | some m =>
      simp only [Option.getD_some, Option.some.injEq, forall_eq']
      omega

theorem le_takeWhile_iff {p : Char → Bool} {n : Nat} (h : n ≤ input.length) :
    n ≤ (input.takeWhile p).length ↔ ∀ c ∈ input.take n, p c = true := by
  induction input generalizing n with
  | nil => simpa using h
  | cons d input ih =>
      cases n with
      | zero => simp
      | succ n =>
          cases hd : p d with
          | false => simp [hd]
          | true => simpa [hd] using ih (Nat.le_of_succ_le_succ h)

/-- The ways to match at the start of a text. -/
theorem mem_run (r : Regex) (input rest : Str) (caps : Captures) :
    (rest, caps) ∈ r.run input ↔ ∃ t, input = t ++ rest ∧ Matches r t caps := by
  induction r generalizing input rest caps with
  | lit l =>
      simp only [run, matches_lit, List.isPrefixOf_iff_prefix]
      constructor
      · intro h
        split at h
        · rename_i hl
          obtain ⟨tail, rfl⟩ := hl
          simp only [List.drop_left, List.mem_singleton, Prod.mk.injEq] at h
          obtain ⟨rfl, rfl⟩ := h
          exact ⟨l, rfl, rfl, rfl⟩
        · cases h
      · rintro ⟨t, rfl, rfl, rfl⟩
        simp
  | rep p lo hi greedy =>
      simp only [run, List.mem_map, mem_counts, matches_rep]
      constructor
      · rintro ⟨n, ⟨hlo, hn, hhi⟩, h⟩
        obtain ⟨rfl, rfl⟩ := Prod.mk.inj h
        have hle : n ≤ input.length := hn.trans (List.takeWhile_sublist p).length_le
        refine ⟨input.take n, (List.take_append_drop n input).symm,
          (le_takeWhile_iff hle).mp hn, ?_, ?_, rfl⟩
        · rwa [List.length_take_of_le hle]
        · rwa [List.length_take_of_le hle]
      · rintro ⟨t, rfl, hp, hlo, hhi, rfl⟩
        refine ⟨t.length, ⟨hlo, ?_, hhi⟩, by rw [List.drop_left]⟩
        rw [le_takeWhile_iff (by simp), List.take_left]
        exact hp
  | seq r s ihr ihs =>
      simp only [run, List.mem_flatMap, List.mem_map, matches_seq]
      constructor
      · rintro ⟨⟨rest₁, c₁⟩, hr, ⟨rest₂, c₂⟩, hs, h⟩
        obtain ⟨rfl, rfl⟩ := Prod.mk.inj h
        obtain ⟨t₁, rfl, ht₁⟩ := (ihr _ _ _).mp hr
        obtain ⟨t₂, rfl, ht₂⟩ := (ihs _ _ _).mp hs
        exact ⟨t₁ ++ t₂, by rw [List.append_assoc], t₁, t₂, c₁, c₂, rfl, rfl, ht₁, ht₂⟩
      · rintro ⟨t, rfl, t₁, t₂, c₁, c₂, rfl, rfl, ht₁, ht₂⟩
        refine ⟨(t₂ ++ rest, c₁), (ihr _ _ _).mpr ⟨t₁, by rw [List.append_assoc], ht₁⟩,
          (rest, c₂), (ihs _ _ _).mpr ⟨t₂, rfl, ht₂⟩, rfl⟩
  | group name r ih =>
      simp only [run, List.mem_map, matches_group]
      constructor
      · rintro ⟨⟨rest', c⟩, hr, h⟩
        obtain ⟨rfl, rfl⟩ := Prod.mk.inj h
        obtain ⟨t, rfl, ht⟩ := (ih _ _ _).mp hr
        exact ⟨t, rfl, c, by simp, ht⟩
      · rintro ⟨t, rfl, c, rfl, ht⟩
        exact ⟨(rest, c), (ih _ _ _).mpr ⟨t, rfl, ht⟩, by simp⟩

/-! ## Searching -/

/-- The expression matches somewhere in the text. -/
def Occurs (r : Regex) (input : Str) (caps : Captures) : Prop :=
  ∃ pre t post, input = pre ++ (t ++ post) ∧ Matches r t caps

theorem run_eq_nil_iff {input : Str} : r.run input = [] ↔
    ∀ t rest caps, input = t ++ rest → ¬ Matches r t caps := by
  rw [List.eq_nil_iff_forall_not_mem]
  constructor
  · intro h t rest caps hinput hmatch
    exact h (rest, caps) ((mem_run r input rest caps).mpr ⟨t, hinput, hmatch⟩)
  · rintro h ⟨rest, caps⟩ hmem
    obtain ⟨t, hinput, hmatch⟩ := (mem_run r input rest caps).mp hmem
    exact h t rest caps hinput hmatch

theorem occurs_of_head {input : Str} {m : Str × Captures} (h : (r.run input).head? = some m) :
    Occurs r input m.2 := by
  obtain ⟨t, hinput, hmatch⟩ := (mem_run r input m.1 m.2).mp (List.mem_of_head? h)
  exact ⟨[], t, m.1, hinput, hmatch⟩

/-- What `search` finds is a match. -/
theorem occurs_of_search (h : r.search input = some caps) : Occurs r input caps := by
  induction input with
  | nil =>
      obtain ⟨m, hm, rfl⟩ := Option.map_eq_some_iff.mp h
      exact occurs_of_head hm
  | cons c cs ih =>
      rw [search] at h
      cases hm : (r.run (c :: cs)).head? with
      | some m =>
          rw [hm] at h
          cases h
          exact occurs_of_head hm
      | none =>
          rw [hm] at h
          obtain ⟨pre, t, post, rfl, hmatch⟩ := ih h
          exact ⟨c :: pre, t, post, rfl, hmatch⟩

/-- `search` finds a match if there is one. -/
theorem search_of_occurs (h : Occurs r input caps) :
    ∃ caps', r.search input = some caps' ∧ Occurs r input caps' := by
  suffices hsome : ∃ caps', r.search input = some caps' by
    obtain ⟨caps', hsearch⟩ := hsome
    exact ⟨caps', hsearch, occurs_of_search hsearch⟩
  induction input with
  | nil =>
      obtain ⟨pre, t, post, hinput, hmatch⟩ := h
      obtain rfl : pre = [] := (List.nil_eq_append_iff.mp hinput).1
      have hmem := (mem_run r [] post caps).mpr ⟨t, hinput, hmatch⟩
      obtain ⟨m, ms, hrun⟩ := List.exists_cons_of_ne_nil (List.ne_nil_of_mem hmem)
      exact ⟨m.2, by rw [search, hrun]; rfl⟩
  | cons c cs ih =>
      rw [search]
      cases hm : (r.run (c :: cs)).head? with
      | some m => exact ⟨m.2, rfl⟩
      | none =>
          obtain ⟨pre, t, post, hinput, hmatch⟩ := h
          cases pre with
          | nil =>
              have hnil := run_eq_nil_iff.mp (List.head?_eq_none_iff.mp hm)
              exact absurd hmatch (hnil t post caps hinput)
          | cons d pre =>
              obtain ⟨rfl, hcs⟩ := List.cons.inj hinput
              exact ih ⟨pre, t, post, hcs, hmatch⟩

/-- Characters that every match has. -/
def needs : Regex → Str
  | lit t => t
  | rep .. => []
  | seq r s => r.needs ++ s.needs
  | group _ r => r.needs

theorem Matches.needs {c : Char} (h : Matches r t caps) (hc : c ∈ r.needs) : c ∈ t := by
  induction h with
  | lit => exact hc
  | rep => cases hc
  | seq _ _ ihr ihs =>
      rcases List.mem_append.mp hc with hc | hc
      · exact List.mem_append_left _ (ihr hc)
      · exact List.mem_append_right _ (ihs hc)
  | group _ ih => exact ih hc

/-- Without such a character there is no match. -/
theorem search_eq_none {c : Char} (hc : c ∈ r.needs) (h : c ∉ input) : r.search input = none := by
  cases hsearch : r.search input with
  | none => rfl
  | some caps =>
      obtain ⟨pre, t, post, rfl, hmatch⟩ := occurs_of_search hsearch
      exact absurd (List.mem_append_right _ (List.mem_append_left _ (hmatch.needs hc))) h

end Regex
