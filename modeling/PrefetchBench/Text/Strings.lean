import Mathlib

/-!
# Text

Text as lists of characters: padding to a width, lines, white space, and the words between white
space.  `words_layout` is about columns that are printed one behind the other: where the white
space before a column is missing, it runs together with the one before.
-/

/-- A text. -/
abbrev Str := List Char

namespace Text

variable {s t w : Str} {c : Char}

/-! ## Characters -/

/-- White space. -/
def space (c : Char) : Bool :=
  let n := c.toNat
  decide (9 ≤ n ∧ n ≤ 13) || decide (28 ≤ n ∧ n ≤ 32) || n == 0x85 || n == 0xA0 || n == 0x1680 ||
    decide (0x2000 ≤ n ∧ n ≤ 0x200A) || n == 0x2028 || n == 0x2029 || n == 0x202F || n == 0x205F ||
    n == 0x3000

/-- The text is white space. -/
def Blank (s : Str) : Prop := ∀ c ∈ s, space c = true

/-- The text has characters, and none of them is white space. -/
structure Word (s : Str) : Prop where
  /-- There is a character. -/
  ne_nil : s ≠ []
  /-- No character is white space. -/
  solid : ∀ c ∈ s, space c = false

/-- The visible characters of ASCII are not white space. -/
theorem not_space (h : 32 < c.toNat ∧ c.toNat < 127) : space c = false := by
  simp only [space, Bool.or_eq_false_iff, decide_eq_false_iff_not, beq_eq_false_iff_ne]
  omega

theorem not_space_of_isDigit (h : c.isDigit = true) : space c = false := by
  have hle : 48 ≤ c.toNat ∧ c.toNat ≤ 57 := by simpa [Char.isDigit, UInt32.le_iff_toNat_le] using h
  exact not_space (by omega)

theorem Blank.append (hs : Blank s) (ht : Blank t) : Blank (s ++ t) :=
  List.forall_mem_append.mpr ⟨hs, ht⟩

theorem Blank.notMem (h : Blank s) (hc : space c = false) : c ∉ s := by
  intro hmem
  rw [h c hmem] at hc
  cases hc

theorem blank_replicate (n : Nat) : Blank (List.replicate n ' ') := by
  intro c hc
  rw [List.eq_of_mem_replicate hc]
  rfl

/-! ## Splitting at a character -/

/-- Two ways to split a text at the first place of a character are the same. -/
theorem split_first {x x' y y' : Str} (hx : c ∉ x) (hx' : c ∉ x')
    (h : x ++ c :: y = x' ++ c :: y') : x = x' ∧ y = y' := by
  induction x generalizing x' with
  | nil =>
      cases x' with
      | nil => exact ⟨rfl, (List.cons.inj h).2⟩
      | cons d x' =>
          obtain rfl : c = d := (List.cons.inj h).1
          exact absurd List.mem_cons_self hx'
  | cons d x ih =>
      cases x' with
      | nil =>
          obtain rfl : d = c := (List.cons.inj h).1
          exact absurd List.mem_cons_self hx
      | cons d' x' =>
          obtain ⟨rfl, htail⟩ := List.cons.inj h
          obtain ⟨rfl, rfl⟩ := ih (fun hc => hx (List.mem_cons_of_mem _ hc))
            (fun hc => hx' (List.mem_cons_of_mem _ hc)) htail
          exact ⟨rfl, rfl⟩

/-- Where a character occurs once, there is one way to split the text at it. -/
theorem split_only {x x' y y' : Str} (hx : c ∉ x) (hy : c ∉ y)
    (h : x' ++ c :: y' = x ++ c :: y) : x' = x ∧ y' = y := by
  obtain ⟨rfl, _, rfl⟩ := (List.append_cons_inj_of_notMem hx hy).mp h.symm
  exact ⟨rfl, rfl⟩

/-! ## Padding -/

/-- `std::left << std::setw(n) << s` -/
def padRight (n : Nat) (s : Str) : Str := s ++ List.replicate (n - s.length) ' '

/-- `std::right << std::setw(n) << s` -/
def padLeft (n : Nat) (s : Str) : Str := List.replicate (n - s.length) ' ' ++ s

/-! ## Lines -/

/-- The lines of a text, each with its newline. -/
def lines : Str → List Str
  | [] => []
  | c :: cs =>
      if c = '\n' then [c] :: lines cs
      else match lines cs with
        | [] => [[c]]
        | l :: ls => (c :: l) :: ls

theorem lines_append {l : Str} (h : '\n' ∉ l) (rest : Str) :
    lines (l ++ '\n' :: rest) = (l ++ ['\n']) :: lines rest := by
  induction l with
  | nil => simp [lines]
  | cons c l ih =>
      have hc : c ≠ '\n' := fun hc => h (hc ▸ List.mem_cons_self)
      have hl := ih fun hmem => h (List.mem_cons_of_mem _ hmem)
      simp only [List.cons_append, lines, hc, if_false, hl]

/-- A text that is printed line by line has these lines. -/
theorem lines_flatten {ls : List Str} (h : ∀ l ∈ ls, '\n' ∉ l) :
    lines (ls.map (· ++ ['\n'])).flatten = ls.map (· ++ ['\n']) := by
  induction ls with
  | nil => rfl
  | cons l ls ih =>
      obtain ⟨hl, hls⟩ := List.forall_mem_cons.mp h
      simp only [List.map_cons, List.flatten_cons, List.append_assoc, List.singleton_append]
      rw [lines_append hl, ih hls]

/-! ## Stripping -/

/-- `s.strip()` -/
def strip (s : Str) : Str := (s.dropWhile space).rdropWhile space

theorem strip_append_left (hw : Blank w) : strip (w ++ s) = strip s := by
  rw [strip, List.dropWhile_append_of_pos hw, strip]

/-- White space around a text that neither starts nor ends with it is stripped. -/
theorem strip_append_right {d : Char} (hc : space c = false) (hd : space d = false)
    (hw : Blank w) : strip (c :: (s ++ d :: w)) = c :: (s ++ [d]) := by
  have hdrop : (c :: (s ++ d :: w)).dropWhile space = c :: s ++ d :: w := by
    rw [List.dropWhile_cons_of_neg (by simp [hc]), List.cons_append]
  have hrev : ∀ x ∈ w.reverse, space x = true := fun x hx => hw x (List.mem_reverse.mp hx)
  rw [strip, hdrop, List.rdropWhile, List.reverse_append, List.reverse_cons, List.append_assoc,
    List.dropWhile_append_of_pos hrev, List.singleton_append,
    List.dropWhile_cons_of_neg (by simp [hd])]
  simp

/-! ## Words -/

/-- The words of a text. -/
def words (s : Str) : List Str := (s.splitOnP space).filter (· ≠ [])

theorem words_append_cons (hc : space c = true) : words (s ++ c :: t) = words s ++ words t := by
  rw [words, List.splitOnP_append_cons s t hc, List.filter_append, words, words]

theorem words_cons (hc : space c = true) : words (c :: t) = words t :=
  words_append_cons (s := []) hc

theorem words_blank_append (hw : Blank w) : words (w ++ t) = words t := by
  induction w with
  | nil => rfl
  | cons c w ih =>
      obtain ⟨hc, hw⟩ := List.forall_mem_cons.mp hw
      rw [List.cons_append, words_cons hc, ih hw]

theorem Word.words (h : Word s) : words s = [s] := by
  rw [Text.words, List.splitOnP_eq_singleton h.solid,
    List.filter_cons_of_pos (by simpa using h.ne_nil)]
  rfl

/-- White space separates words. -/
theorem words_append (hne : w ≠ []) (hw : Blank w) :
    words (s ++ (w ++ t)) = words s ++ words t := by
  cases w with
  | nil => exact absurd rfl hne
  | cons c w =>
      obtain ⟨hc, hw⟩ := List.forall_mem_cons.mp hw
      rw [List.cons_append, words_append_cons hc, words_blank_append hw]

theorem Word.words_append (h : Word s) (hne : w ≠ []) (hw : Blank w) :
    Text.words (s ++ (w ++ t)) = s :: Text.words t := by
  rw [Text.words_append hne hw, h.words, List.singleton_append]

/-- White space around a word. -/
theorem Word.words_between {w' : Str} (h : Word s) (hw : Blank w) (hw' : Blank w') :
    Text.words (w ++ (s ++ w')) = [s] := by
  rw [words_blank_append hw]
  cases w' with
  | nil => rw [List.append_nil, h.words]
  | cons c w' =>
      have hwords := h.words_append (t := []) (List.cons_ne_nil c w') hw'
      rwa [List.append_nil] at hwords

/-- A text without words is white space. -/
theorem blank_of_words (h : words s = []) : Blank s := by
  induction s with
  | nil => exact fun c hc => absurd hc List.not_mem_nil
  | cons c s ih =>
      cases hc : space c with
      | true =>
          rw [words_cons hc] at h
          exact List.forall_mem_cons.mpr ⟨hc, ih h⟩
      | false =>
          rw [words, List.filter_eq_nil_iff] at h
          obtain ⟨first, rest, hsplit⟩ := List.exists_cons_of_ne_nil (List.splitOnP_ne_nil space s)
          have hmem : (c :: first) ∈ (c :: s).splitOnP space := by
            rw [List.splitOnP_cons_eq_if_modifyHead, hc, hsplit]
            exact List.mem_cons_self
          exact absurd (List.cons_ne_nil c first) (by simpa using h _ hmem)

/-! ## Columns -/

/-- Columns printed one behind the other, each with the white space before it. -/
def layout (cols : List (Str × Str)) : Str := cols.flatMap fun col => col.1 ++ col.2

/-- Every column has white space before it. -/
def Apart (cols : List (Str × Str)) : Prop := ∀ col ∈ cols, col.1 ≠ []

@[simp] theorem layout_nil : layout [] = [] := rfl

@[simp] theorem layout_cons (col : Str × Str) (cols : List (Str × Str)) :
    layout (col :: cols) = col.1 ++ (col.2 ++ layout cols) := by
  simp [layout]

theorem notMem_layout {cols : List (Str × Str)} (hc : space c = false)
    (hcols : ∀ col ∈ cols, Blank col.1 ∧ c ∉ col.2) : c ∉ layout cols := by
  intro hmem
  obtain ⟨col, hcol, hmem⟩ := List.mem_flatMap.mp hmem
  rcases List.mem_append.mp hmem with hmem | hmem
  · exact (hcols col hcol).1.notMem hc hmem
  · exact (hcols col hcol).2 hmem

theorem words_apart {cols : List (Str × Str)} (hcols : ∀ col ∈ cols, Blank col.1 ∧ Word col.2)
    (h : Apart cols) : words (s ++ layout cols) = words s ++ cols.map Prod.snd := by
  induction cols generalizing s with
  | nil => simp
  | cons col cols ih =>
      obtain ⟨⟨hblank, hword⟩, hcols⟩ := List.forall_mem_cons.mp hcols
      obtain ⟨hne, h⟩ := List.forall_mem_cons.mp h
      rw [layout_cons, words_append hne hblank, ih hcols h, hword.words, List.map_cons,
        List.singleton_append]

/-- Columns without white space between them make fewer words. -/
theorem words_layout (p t : Str) (cols : List (Str × Str)) (hp : Blank p) (ht : Word t)
    (hcols : ∀ col ∈ cols, Blank col.1 ∧ Word col.2) :
    (words (layout ((p, t) :: cols))).length ≤ cols.length ∨
      words (layout ((p, t) :: cols)) = t :: cols.map Prod.snd := by
  induction cols generalizing p t with
  | nil =>
      refine Or.inr ?_
      rw [layout_cons, words_blank_append hp, layout_nil, List.append_nil, ht.words]
      rfl
  | cons col cols ih =>
      obtain ⟨p', t'⟩ := col
      obtain ⟨⟨hblank, hword⟩, hrest⟩ := List.forall_mem_cons.mp hcols
      cases p' with
      | nil =>
          -- the two columns are one word
          have hjoin : Word (t ++ t') :=
            ⟨List.append_ne_nil_of_left_ne_nil ht.ne_nil _,
              List.forall_mem_append.mpr ⟨ht.solid, hword.solid⟩⟩
          have hlayout : layout ((p, t) :: ([], t') :: cols) = layout ((p, t ++ t') :: cols) := by
            simp
          rw [hlayout]
          rcases ih p (t ++ t') hp hjoin hrest with h | h
          · exact Or.inl (Nat.le_succ_of_le h)
          · exact Or.inl (by rw [h]; simp)
      | cons c p' =>
          have hwords : words (layout ((p, t) :: (c :: p', t') :: cols)) =
              t :: words (layout ((c :: p', t') :: cols)) := by
            rw [layout_cons, words_blank_append hp, layout_cons,
              ht.words_append (List.cons_ne_nil c p') hblank, words_blank_append hblank]
          rw [hwords]
          rcases ih (c :: p') t' hblank hword hrest with h | h
          · exact Or.inl (Nat.succ_le_succ h)
          · exact Or.inr (by rw [h]; rfl)

/-- What is printed in columns can be read as that many columns with white space between them in
one way only. -/
theorem layout_inj {cols cols' : List (Str × Str)}
    (hcols : ∀ col ∈ cols, Blank col.1 ∧ Word col.2) (hapart : Apart cols)
    (hcols' : ∀ col ∈ cols', Blank col.1 ∧ Word col.2) (hlen : cols'.length = cols.length)
    (hne : cols' ≠ []) (h : s ++ layout cols = layout cols') :
    Blank s ∧ cols.map Prod.snd = cols'.map Prod.snd := by
  cases cols' with
  | nil => exact absurd rfl hne
  | cons col cols' =>
      obtain ⟨p, t⟩ := col
      obtain ⟨⟨hblank, hword⟩, hrest⟩ := List.forall_mem_cons.mp hcols'
      have hwords := words_apart (s := s) hcols hapart
      rw [h] at hwords
      have hcount := congrArg List.length hwords
      rw [List.length_append, List.length_map, ← hlen, List.length_cons] at hcount
      rcases words_layout p t cols' hblank hword hrest with hle | heq
      · exact absurd hle (by omega)
      · have hzero : (words s).length = 0 := by
          rw [heq, List.length_cons, List.length_map] at hcount
          omega
        have hnil := List.length_eq_zero_iff.mp hzero
        refine ⟨blank_of_words hnil, ?_⟩
        rw [heq, hnil, List.nil_append] at hwords
        exact hwords.symm

end Text
