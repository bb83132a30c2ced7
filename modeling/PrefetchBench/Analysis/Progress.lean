import PrefetchBench.Analysis.Parser
import PrefetchBench.Analysis.Printer

/-!
# Progress lines

Where the progress pattern matches a printed progress line, it finds the name of the strategy and
the average as they were printed.  It matches exactly when the name has fewer than 25 characters:
there is no white space behind a longer one (`parseLine_progressLine`).
-/

namespace Analysis

open Text Regex

/-! ## Numbers -/

theorem matches_number {n : Str} {caps : Captures} (h : Matches number n caps) :
    caps = [] ∧ n ≠ [] ∧ ∀ c ∈ n, c.isDigit = true ∨ c = '.' := by
  obtain ⟨a, t, rfl, ha, hne, h₁⟩ := matches_cons_many.mp h
  obtain ⟨p, t, rfl, hp, _, _, h₂⟩ := matches_cons_rep.mp h₁
  obtain ⟨b, t, rfl, hb, _, h₃⟩ := matches_cons_many.mp h₂
  obtain ⟨rfl, rfl⟩ := matches_nil.mp h₃
  refine ⟨rfl, List.append_ne_nil_of_left_ne_nil (List.length_pos_iff.mp hne) _, fun c hc => ?_⟩
  rcases List.mem_append.mp hc with hc | hc
  · exact Or.inl (ha c hc)
  · rcases List.mem_append.mp hc with hc | hc
    · exact Or.inr (by simpa using hp c hc)
    · exact Or.inl (hb c (by simpa using hc))

theorem word_number {n : Str} {caps : Captures} (h : Matches number n caps) : Word n := by
  obtain ⟨_, hne, hdigits⟩ := matches_number h
  refine ⟨hne, fun c hc => ?_⟩
  rcases hdigits c hc with hdigit | rfl
  · exact not_space_of_isDigit hdigit
  · rfl

theorem number_fixedText (prec : Nat) (q : ℚ≥0) : Matches number (fixedText prec q) [] := by
  refine matches_cons_many.mpr ⟨_, _, rfl, fun c hc => isDigit_of_mem_natText hc,
    List.length_pos_iff.mpr (natText_ne_nil _), ?_⟩
  refine matches_cons_rep.mpr ⟨['.'], _, rfl, by simp, Nat.zero_le _, by simp, ?_⟩
  refine matches_cons_many.mpr ⟨lastDigits prec _, [], (List.append_nil _).symm,
    fun c hc => isDigit_of_mem_lastDigits hc, Nat.zero_le _, ?_⟩
  exact matches_nil.mpr ⟨rfl, rfl⟩

/-! ## Names -/

/-- What is between the parentheses of a name. -/
def Strategy.inner : Strategy → Str
  | .noPrefetch => Analysis.noPrefetch
  | .run family N => family.label ++ ([',',' '] ++ family.letter :: '=' :: natText N)

theorem Strategy.name_eq (s : Strategy) :
    s.name = ['L','I','P','P',' ','('] ++ (s.inner ++ [')']) := by
  cases s with
  | noPrefetch => rfl
  | run family N => simp [Strategy.name, Strategy.inner]

/-- Characters that the parts of a line are told apart by. -/
def marks : Str := ['(',')','L','T','x','║','\n']

theorem not_isDigit_of_mem_marks : ∀ c ∈ marks, c.isDigit = false := by simp [marks]

theorem Family.notMem_marks (family : Family) :
    ∀ c ∈ marks, c ∉ family.label ∧ c ∉ [',',' ','='] ∧ c ≠ family.letter := by
  cases family <;> simp [marks, Family.label, Family.letter]

theorem notMem_natText {c : Char} (hc : c.isDigit = false) (n : Nat) : c ∉ natText n := by
  intro hmem
  rw [isDigit_of_mem_natText hmem] at hc
  cases hc

/-- They are not between the parentheses of a name. -/
theorem Strategy.notMem_inner (s : Strategy) {c : Char} (hc : c ∈ marks) : c ∉ s.inner := by
  cases s with
  | noPrefetch =>
      revert c
      simp [marks, Strategy.inner, Analysis.noPrefetch]
  | run family N =>
      obtain ⟨hlabel, hpunctuation, hletter⟩ := family.notMem_marks c hc
      have hdigits := notMem_natText (not_isDigit_of_mem_marks c hc) N
      simp_all [Strategy.inner]

/-! ## Matches -/

theorem matches_lippPattern {g : Str} {caps : Captures} (h : Matches lippPattern g caps) :
    caps = [] ∧ ∃ w b, g = ['L','I','P','P'] ++ (w ++ '(' :: (b ++ [')'])) ∧ Blank w ∧ ')' ∉ b := by
  obtain ⟨t, rfl, h₁⟩ := matches_cons_lit.mp h
  obtain ⟨w, t, rfl, hw, _, h₂⟩ := matches_cons_many.mp h₁
  obtain ⟨t, rfl, h₃⟩ := matches_cons_lit.mp h₂
  obtain ⟨b, t, rfl, hb, _, h₄⟩ := matches_cons_many.mp h₃
  obtain ⟨t, rfl, h₅⟩ := matches_cons_lit.mp h₄
  obtain ⟨rfl, rfl⟩ := matches_nil.mp h₅
  exact ⟨rfl, w, b, rfl, hw, fun hc => by simpa using hb _ hc⟩

theorem lippPattern_name (s : Strategy) : Matches lippPattern s.name [] := by
  rw [s.name_eq]
  refine matches_cons_lit.mpr ⟨' ' :: '(' :: (s.inner ++ [')']), rfl, ?_⟩
  refine matches_cons_many.mpr ⟨[' '], _, rfl, by simp [space], Nat.zero_le _, ?_⟩
  refine matches_cons_lit.mpr ⟨s.inner ++ [')'], rfl, ?_⟩
  refine matches_cons_many.mpr ⟨s.inner, [')'], rfl, fun c hc => ?_, Nat.zero_le _, ?_⟩
  · have hclose : ')' ∉ s.inner := s.notMem_inner (by simp [marks])
    simpa using fun heq : c = ')' => hclose (heq ▸ hc)
  · exact matches_cons_lit.mpr ⟨[], rfl, matches_nil.mpr ⟨rfl, rfl⟩⟩

theorem matches_progressPattern {t : Str} {caps : Captures} (h : Matches progressPattern t caps) :
    ∃ w₁ g w₃ y w₄ w₅ n w₆, t = ['T','e','s','t','i','n','g'] ++ (w₁ ++ (g ++ (w₃ ++ (y ++
        (['D','o','n','e'] ++ (w₄ ++ (['(','A','v','g',':'] ++ (w₅ ++ (n ++ (w₆ ++
          ['m','s',')'])))))))))) ∧
      (Blank w₁ ∧ Matches lippPattern g [] ∧ Blank w₃ ∧ w₃ ≠ []) ∧
      (Blank w₄ ∧ Blank w₅ ∧ Matches number n [] ∧ Blank w₆) ∧
      caps = [("strategy", g), ("avg_time", n)] := by
  obtain ⟨t, rfl, h₁⟩ := matches_cons_lit.mp h
  obtain ⟨w₁, t, rfl, hw₁, _, h₂⟩ := matches_cons_many.mp h₁
  obtain ⟨g, t, c, c', rfl, rfl, hg, h₃⟩ := matches_cons_group.mp h₂
  obtain ⟨w₃, t, rfl, hw₃, hlen, h₄⟩ := matches_cons_many.mp h₃
  obtain ⟨y, t, rfl, _, _, h₅⟩ := matches_cons_many.mp h₄
  obtain ⟨t, rfl, h₆⟩ := matches_cons_lit.mp h₅
  obtain ⟨w₄, t, rfl, hw₄, _, h₇⟩ := matches_cons_many.mp h₆
  obtain ⟨t, rfl, h₈⟩ := matches_cons_lit.mp h₇
  obtain ⟨w₅, t, rfl, hw₅, _, h₉⟩ := matches_cons_many.mp h₈
  obtain ⟨n, t, d, d', rfl, rfl, hn, h₁₀⟩ := matches_cons_group.mp h₉
  obtain ⟨w₆, t, rfl, hw₆, _, h₁₁⟩ := matches_cons_many.mp h₁₀
  obtain ⟨t, rfl, h₁₂⟩ := matches_cons_lit.mp h₁₁
  obtain ⟨rfl, rfl⟩ := matches_nil.mp h₁₂
  obtain ⟨rfl, _⟩ := matches_lippPattern hg
  obtain ⟨rfl, _⟩ := matches_number hn
  exact ⟨w₁, g, w₃, y, w₄, w₅, n, w₆, rfl, ⟨hw₁, hg, hw₃, List.length_pos_iff.mp hlen⟩,
    ⟨hw₄, hw₅, hn, hw₆⟩, rfl⟩

/-! ## Lines -/

/-- A progress line behind its `D`. -/
def afterDone (avgTime : ℚ≥0) : Str :=
  ['o','n','e',' ','(','A','v','g'] ++
    ':' :: ([' '] ++ (fixedText 2 avgTime ++ [' ']) ++ 'm' :: ['s',')','\n'])

theorem progressLine_eq (s : Strategy) (avgTime : ℚ≥0) :
    progressLine s.name avgTime ++ ['\n'] =
      [' ',' '] ++ 'T' :: (['e','s','t','i','n','g'] ++ ([' '] ++ 'L' :: (['I','P','P',' '] ++
        '(' :: (s.inner ++ ')' :: (List.replicate (25 - s.name.length) ' ' ++ ['.','.','.',' '] ++
          'D' :: afterDone avgTime))))) := by
  rw [progressLine, padRight]
  generalize List.replicate (25 - s.name.length) ' ' = pad
  simp [s.name_eq, afterDone]

theorem notMem_fixedText {c : Char} (hdigit : c.isDigit = false) (hpoint : c ≠ '.') (prec : Nat)
    (q : ℚ≥0) : c ∉ fixedText prec q := by
  intro hmem
  rcases solid_of_mem_fixedText hmem with h | h
  · rw [h] at hdigit
    cases hdigit
  · exact hpoint h

theorem notMem_afterDone {c : Char} (hc : c = 'T' ∨ c = 'D') (avgTime : ℚ≥0) :
    c ∉ afterDone avgTime := by
  have hnumber : c ∉ fixedText 2 avgTime := by
    rcases hc with rfl | rfl <;> exact notMem_fixedText rfl (by decide) 2 avgTime
  rcases hc with rfl | rfl <;> simp [afterDone, hnumber]

/-- What the progress pattern finds in a progress line. -/
theorem progressLine_occurs {s : Strategy} {avgTime : ℚ≥0} {caps : Captures}
    (h : Occurs progressPattern (progressLine s.name avgTime ++ ['\n']) caps) :
    s.name.length < 25 ∧ caps = [("strategy", s.name), ("avg_time", fixedText 2 avgTime)] := by
  obtain ⟨pre, t, post, hline, hmatch⟩ := h
  obtain ⟨w₁, g, w₃, y, w₄, w₅, n, w₆, rfl, ⟨hw₁, hg, hw₃, hne⟩, ⟨hw₄, hw₅, hn, hw₆⟩, rfl⟩ :=
    matches_progressPattern hmatch
  obtain ⟨_, w, b, rfl, hw, hb⟩ := matches_lippPattern hg
  rw [progressLine_eq] at hline
  have hT : 'T' ∉ ['e','s','t','i','n','g'] ++ ([' '] ++ 'L' :: (['I','P','P',' '] ++
      '(' :: (s.inner ++ ')' :: (List.replicate (25 - s.name.length) ' ' ++ ['.','.','.',' '] ++
        'D' :: afterDone avgTime)))) := by
    have hinner : 'T' ∉ s.inner := s.notMem_inner (by simp [marks])
    have hafter := notMem_afterDone (Or.inl rfl) avgTime
    simp [hinner, hafter]
  have hpieces : pre ++ 'T' :: (['e','s','t','i','n','g'] ++ (w₁ ++ 'L' :: (['I','P','P'] ++ w ++
      '(' :: (b ++ ')' :: (w₃ ++ y ++ 'D' :: (['o','n','e'] ++ (w₄ ++ ['(','A','v','g']) ++
        ':' :: (w₅ ++ (n ++ w₆) ++ 'm' :: 's' :: ')' :: post))))))) =
          [' ',' '] ++ 'T' :: (['e','s','t','i','n','g'] ++ ([' '] ++ 'L' ::
            (['I','P','P',' '] ++ '(' :: (s.inner ++ ')' ::
              (List.replicate (25 - s.name.length) ' ' ++ ['.','.','.',' '] ++
                'D' :: afterDone avgTime))))) := by
    rw [hline]
    simp
  -- the line is taken apart from the left, at characters that the pieces do not have
  obtain ⟨_, htail⟩ := split_only (by simp) hT hpieces
  obtain ⟨_, htail⟩ := split_first (hw₁.notMem rfl) (by simp)
    (List.append_cancel_left htail)
  have hopen : '(' ∉ w := hw.notMem rfl
  obtain ⟨hlipp, htail⟩ := split_first (by simp [hopen]) (by simp) htail
  obtain ⟨hinner, htail⟩ := split_first hb (s.notMem_inner (by simp [marks])) htail
  have hD : 'D' ∉ List.replicate (25 - s.name.length) ' ' ++ ['.','.','.',' '] := by simp
  obtain ⟨hpad, htail⟩ := split_only hD (notMem_afterDone (Or.inr rfl) avgTime) htail
  have hcolon : ':' ∉ w₄ := hw₄.notMem rfl
  obtain ⟨_, htail⟩ := split_first (by simp [hcolon]) (by simp) htail
  have hm : 'm' ∉ w₅ ++ (n ++ w₆) := by
    have hn' : 'm' ∉ n := fun hmem => by simpa using (matches_number hn).2.2 _ hmem
    simp [hn', hw₅.notMem (c := 'm') rfl, hw₆.notMem (c := 'm') rfl]
  obtain ⟨hnumber, _⟩ := split_first hm
    (by simp [notMem_fixedText (c := 'm') rfl (by decide) 2 avgTime]) htail
  constructor
  · -- there is white space behind the name
    by_contra hlen
    have hzero : 25 - s.name.length = 0 := by omega
    obtain ⟨c, w₃', rfl⟩ := List.exists_cons_of_ne_nil hne
    rw [hzero] at hpad
    obtain rfl : c = '.' := (List.cons.inj hpad).1
    exact absurd (hw₃ '.' List.mem_cons_self) (by decide)
  · have hspace : w = [' '] :=
      List.append_cancel_left (show ['I','P','P'] ++ w = ['I','P','P'] ++ [' '] from hlipp)
    have hblank : Blank [' '] := blank_replicate 1
    have hwords := (word_number hn).words_between hw₅ hw₆
    rw [hnumber, (word_fixedText avgTime).words_between hblank hblank] at hwords
    rw [← (List.cons.inj hwords).1, s.name_eq, hspace, hinner]
    rfl

/-- Behind a name with fewer than 25 characters it finds that. -/
theorem occurs_progressLine {s : Strategy} (hlen : s.name.length < 25) (avgTime : ℚ≥0) :
    Occurs progressPattern (progressLine s.name avgTime ++ ['\n'])
      [("strategy", s.name), ("avg_time", fixedText 2 avgTime)] := by
  have hblank : Blank [' '] := blank_replicate 1
  have hpad : 0 < (List.replicate (25 - s.name.length) ' ').length := by simpa using hlen
  refine ⟨[' ',' '], ['T','e','s','t','i','n','g'] ++ ([' '] ++ (s.name ++
    (List.replicate (25 - s.name.length) ' ' ++ (['.','.','.',' '] ++ (['D','o','n','e'] ++
      ([' '] ++ (['(','A','v','g',':'] ++ ([' '] ++ (fixedText 2 avgTime ++ ([' '] ++
        (['m','s',')'] ++ []))))))))))), ['\n'], by simp [progressLine, padRight], ?_⟩
  refine matches_cons_lit.mpr ⟨_, rfl, ?_⟩
  refine matches_cons_many.mpr ⟨[' '], _, rfl, hblank, Nat.le_refl 1, ?_⟩
  refine matches_cons_group.mpr ⟨_, _, [], _, rfl, rfl, lippPattern_name s, ?_⟩
  refine matches_cons_many.mpr ⟨_, _, rfl, blank_replicate _, hpad, ?_⟩
  refine matches_cons_many.mpr ⟨['.','.','.',' '], _, rfl, by simp, Nat.zero_le _, ?_⟩
  refine matches_cons_lit.mpr ⟨_, rfl, ?_⟩
  refine matches_cons_many.mpr ⟨[' '], _, rfl, hblank, Nat.le_refl 1, ?_⟩
  refine matches_cons_lit.mpr ⟨_, rfl, ?_⟩
  refine matches_cons_many.mpr ⟨[' '], _, rfl, hblank, Nat.zero_le 1, ?_⟩
  refine matches_cons_group.mpr ⟨_, _, [], _, rfl, rfl, number_fixedText 2 avgTime, ?_⟩
  refine matches_cons_many.mpr ⟨[' '], _, rfl, hblank, Nat.zero_le 1, ?_⟩
  exact matches_cons_lit.mpr ⟨[], rfl, matches_nil.mpr ⟨rfl, rfl⟩⟩

/-! ## Strategies -/

/-- What the plots call a family. -/
def Family.plotName : Family → Str
  | .groupPrefetch => Analysis.groupPrefetch
  | .spp => Analysis.spp
  | .vectorized => Analysis.vectorized
  | .fsmAmac => Analysis.fsmAmac

/-- What a strategy is plotted as. -/
def Strategy.key : Strategy → Key
  | .noPrefetch => (Analysis.noPrefetch, none, 0)
  | .run family N => (family.plotName, some [family.letter], N)

/-- Different strategies are plotted as different ones. -/
theorem Strategy.key_injective : Function.Injective Strategy.key := by
  intro s s' h
  cases s with
  | noPrefetch =>
      cases s' with
      | noPrefetch => rfl
      | run family N => cases congrArg (fun key : Key => key.2.1) h
  | run family N =>
      cases s' with
      | noPrefetch => cases congrArg (fun key : Key => key.2.1) h
      | run family' N' =>
          have hname : family.plotName = family'.plotName := congrArg Prod.fst h
          obtain rfl : N = N' := congrArg (fun key : Key => key.2.2) h
          cases family <;> cases family' <;> first | rfl | exact absurd hname (by decide)

theorem Strategy.name_eq_cons (s : Strategy) :
    s.name = 'L' :: (['I','P','P',' ','('] ++ s.inner ++ [')']) := by
  rw [s.name_eq]
  simp

theorem Strategy.strip_name (s : Strategy) : strip s.name = s.name := by
  rw [s.name_eq_cons]
  exact strip_append_right rfl rfl fun c hc => absurd hc List.not_mem_nil

theorem matches_strategyPattern {t : Str} {caps : Captures} (h : Matches strategyPattern t caps) :
    ∃ w a w' b n, t = ['L','I','P','P'] ++ (w ++ '(' :: (a ++ ',' :: (w' ++ (b ++ '=' ::
        (n ++ [')']))))) ∧ Blank w ∧ ',' ∉ a ∧ (Blank w' ∧ b.length = 1 ∧
          ∀ c ∈ b, c.isUpper = true) ∧ (∀ c ∈ n, c.isDigit = true) ∧
            caps = [("1", a), ("2", b), ("3", n)] := by
  obtain ⟨t, rfl, h₁⟩ := matches_cons_lit.mp h
  obtain ⟨w, t, rfl, hw, _, h₂⟩ := matches_cons_many.mp h₁
  obtain ⟨t, rfl, h₃⟩ := matches_cons_lit.mp h₂
  obtain ⟨a, t, c, c', rfl, rfl, ha, h₄⟩ := matches_cons_group.mp h₃
  obtain ⟨t, rfl, h₅⟩ := matches_cons_lit.mp h₄
  obtain ⟨w', t, rfl, hw', _, h₆⟩ := matches_cons_many.mp h₅
  obtain ⟨b, t, d, d', rfl, rfl, hb, h₇⟩ := matches_cons_group.mp h₆
  obtain ⟨t, rfl, h₈⟩ := matches_cons_lit.mp h₇
  obtain ⟨n, t, e, e', rfl, rfl, hn, h₉⟩ := matches_cons_group.mp h₈
  obtain ⟨t, rfl, h₁₀⟩ := matches_cons_lit.mp h₉
  obtain ⟨rfl, rfl⟩ := matches_nil.mp h₁₀
  obtain ⟨ha', _, _, rfl⟩ := matches_rep.mp ha
  obtain ⟨hb', hlo, hhi, rfl⟩ := matches_rep.mp hb
  obtain ⟨hn', _, _, rfl⟩ := matches_rep.mp hn
  exact ⟨w, a, w', b, n, rfl, hw, fun hc => by simpa using ha' _ hc,
    ⟨hw', Nat.le_antisymm (hhi 1 rfl) hlo, hb'⟩, hn', rfl⟩

theorem Family.label_spec (family : Family) :
    '(' ∉ family.label ∧ ',' ∉ family.label ∧ family.label ≠ [] ∧
      strip family.label = family.label := by
  cases family <;> decide

theorem Family.letter_spec (family : Family) :
    family.letter.isUpper = true ∧ family.letter ≠ '(' ∧ family.letter ≠ '=' := by
  cases family <;> decide

/-- What the strategy pattern finds in the name of a strategy. -/
theorem name_occurs {family : Family} {N : Nat} {caps : Captures}
    (h : Occurs strategyPattern (Strategy.run family N).name caps) :
    caps = [("1", family.label), ("2", [family.letter]), ("3", natText N)] := by
  obtain ⟨pre, t, post, hname, hmatch⟩ := h
  obtain ⟨w, a, w', b, n, rfl, hw, ha, ⟨hw', hb, hupper⟩, hn, rfl⟩ :=
    matches_strategyPattern hmatch
  obtain ⟨hopen, hcomma, _, _⟩ := family.label_spec
  obtain ⟨_, hletter, hletter'⟩ := family.letter_spec
  have hdigits : ∀ c ∈ ['(',')','='], c ∉ natText N :=
    fun c hc => notMem_natText (by revert c; simp) N
  have hpieces : pre ++ (['L','I','P','P'] ++ w) ++ '(' :: (a ++ ',' :: (w' ++ b ++ '=' ::
      (n ++ ')' :: post))) = ['L','I','P','P',' '] ++ '(' :: (family.label ++ ',' ::
        ([' '] ++ [family.letter] ++ '=' :: (natText N ++ ')' :: []))) := by
    rw [Strategy.name] at hname
    simp only [List.append_assoc, List.cons_append, List.nil_append] at hname ⊢
    exact hname.symm
  obtain ⟨_, htail⟩ := split_only (by simp)
    (by simp [hopen, hletter.symm, hdigits '(' (by simp)]) hpieces
  obtain ⟨hlabel, htail⟩ := split_first ha hcomma htail
  have hequals : '=' ∉ w' ++ b := by
    have hb' : '=' ∉ b := fun hmem => absurd (hupper _ hmem) (by decide)
    simp [hw'.notMem (c := '=') rfl, hb']
  obtain ⟨hparameter, htail⟩ := split_first hequals (by simp [hletter'.symm]) htail
  have hclose : ')' ∉ n := fun hmem => absurd (hn _ hmem) (by decide)
  obtain ⟨hnumber, _⟩ := split_first hclose (hdigits ')' (by simp)) htail
  rw [hlabel, List.append_inj_right' hparameter hb, hnumber]

theorem occurs_name (family : Family) (N : Nat) :
    Occurs strategyPattern (Strategy.run family N).name
      [("1", family.label), ("2", [family.letter]), ("3", natText N)] := by
  obtain ⟨_, hcomma, hne, _⟩ := family.label_spec
  obtain ⟨hupper, _, _⟩ := family.letter_spec
  refine ⟨[], ['L','I','P','P'] ++ ([' '] ++ (['('] ++ (family.label ++ ([','] ++ ([' '] ++
    ([family.letter] ++ (['='] ++ (natText N ++ ([')'] ++ []))))))))), [],
    by simp [Strategy.name], ?_⟩
  refine matches_cons_lit.mpr ⟨_, rfl, ?_⟩
  refine matches_cons_many.mpr ⟨[' '], _, rfl, blank_replicate 1, Nat.zero_le 1, ?_⟩
  refine matches_cons_lit.mpr ⟨_, rfl, ?_⟩
  refine matches_cons_group.mpr ⟨_, _, [], _, rfl, rfl, matches_rep.mpr
    ⟨fun c hc => ?_, List.length_pos_iff.mpr hne, by simp, rfl⟩, ?_⟩
  · simpa using fun heq : c = ',' => hcomma (heq ▸ hc)
  refine matches_cons_lit.mpr ⟨_, rfl, ?_⟩
  refine matches_cons_many.mpr ⟨[' '], _, rfl, blank_replicate 1, Nat.zero_le 1, ?_⟩
  refine matches_cons_group.mpr ⟨_, _, [], _, rfl, rfl, matches_rep.mpr
    ⟨by simpa using hupper, Nat.le_refl 1, by simp, rfl⟩, ?_⟩
  refine matches_cons_lit.mpr ⟨_, rfl, ?_⟩
  refine matches_cons_group.mpr ⟨_, _, [], _, rfl, rfl, matches_rep.mpr
    ⟨fun c hc => isDigit_of_mem_natText hc, List.length_pos_iff.mpr (natText_ne_nil N), by simp,
      rfl⟩, ?_⟩
  exact matches_cons_lit.mpr ⟨[], rfl, matches_nil.mpr ⟨rfl, rfl⟩⟩

/-- `_parse_strategy` inverts the names. -/
theorem Strategy.parseStrategy_name (s : Strategy) : parseStrategy s.name = s.key := by
  rw [parseStrategy, s.strip_name]
  cases s with
  | noPrefetch => exact if_pos (Or.inl rfl)
  | run family N =>
      obtain ⟨caps, hsearch, hoccurs⟩ := search_of_occurs (occurs_name family N)
      obtain rfl := name_occurs hoccurs
      have hequals : '=' ∈ (Strategy.run family N).name := by simp [Strategy.name]
      have hother : ¬ ((Strategy.run family N).name =
          ['L','I','P','P',' ','('] ++ (Analysis.noPrefetch ++ [')']) ∨
            (Strategy.run family N).name = Analysis.noPrefetch) := by
        rintro (h | h)
        · rw [h] at hequals
          exact absurd hequals (by decide)
        · rw [h] at hequals
          exact absurd hequals (by decide)
      rw [if_neg hother, hsearch]
      obtain ⟨_, _, _, hstrip⟩ := family.label_spec
      have hmapping : nameMapping family.label = family.plotName := by cases family <;> rfl
      simp [matched, List.lookup, hstrip, hmapping, Strategy.key]

/-! ## Rows -/

theorem Strategy.keepRow_name (s : Strategy) (avgTime latency throughput : Double) :
    keepRow s.name avgTime latency throughput =
      some ⟨s.name, s.key, avgTime, latency, throughput⟩ := by
  have hlipp : ['L','I','P','P'].isPrefixOf s.name = true := by
    rw [s.name_eq_cons]
    rfl
  rw [keepRow, if_neg (fun h => h.1 hlipp), s.parseStrategy_name]

/-- The row that the progress line of a strategy is for. -/
def progressRow (s : Strategy) (avgTime : ℚ≥0) : Row :=
  let avg := Double.round (roundTo 2 avgTime)
  ⟨s.name, s.key, avg, avg, throughputOf avg⟩

/-- A progress line gives the row of its strategy, if the name is short enough. -/
theorem parseLine_progressLine (s : Strategy) (avgTime : ℚ≥0) :
    parseLine (progressLine s.name avgTime ++ ['\n']) =
      if s.name.length < 25 then some (progressRow s avgTime) else none := by
  have htable : tablePattern.search (progressLine s.name avgTime ++ ['\n']) = none := by
    have hinner : '║' ∉ s.inner := s.notMem_inner (by simp [marks])
    have hnumber := notMem_fixedText (c := '║') rfl (by decide) 2 avgTime
    refine search_eq_none (c := '║') (by simp [tablePattern, seqs, needs]) ?_
    rw [progressLine_eq]
    simp [hinner, hnumber, afterDone]
  rcases Nat.lt_or_ge s.name.length 25 with hlen | hlen
  · obtain ⟨caps, hsearch, hoccurs⟩ := search_of_occurs (occurs_progressLine hlen avgTime)
    obtain ⟨_, rfl⟩ := progressLine_occurs hoccurs
    have hname : matched [("strategy", s.name), ("avg_time", fixedText 2 avgTime)] "strategy" =
        s.name := rfl
    have havg : matched [("strategy", s.name), ("avg_time", fixedText 2 avgTime)] "avg_time" =
        fixedText 2 avgTime := rfl
    simp only [parseLine, htable, hsearch, hname, havg]
    rw [s.strip_name, s.keepRow_name, Double.ofText_fixedText (by decide), if_pos hlen]
    rfl
  · have hprogress : progressPattern.search (progressLine s.name avgTime ++ ['\n']) = none := by
      cases hsearch : progressPattern.search (progressLine s.name avgTime ++ ['\n']) with
      | none => rfl
      | some caps =>
          exact absurd (progressLine_occurs (occurs_of_search hsearch)).1 (not_lt.mpr hlen)
    simp only [parseLine, htable, hprogress]
    rw [if_neg (not_lt.mpr hlen)]

end Analysis
