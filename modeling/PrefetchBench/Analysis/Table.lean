import PrefetchBench.Analysis.Progress

/-!
# The rows of the table

Where the table pattern matches the row of a strategy, it finds the name of the strategy and the
numbers as they were printed: the last `)` of the row is the one of the name, and behind it there
are as many words as the pattern has numbers only if there is white space between the columns
(`Text.layout_inj`).  Nothing else of the table gives a row.
-/

namespace Analysis

open Text Regex

section Columns

variable {baselineTime : Double} {first : Bool} {r : TestResult}

/-! ## The columns of a row -/

/-- The speedup as it is printed, without its `x`. -/
def speedupText (baselineTime : Double) (first : Bool) (r : TestResult) : Str :=
  if first then ['1','.','0','0'] else (baselineTime.div r.avgTimeMs).text 2

/-- The columns of a row behind the name, with the white space before them. -/
def rowColumns (baselineTime : Double) (first : Bool) (r : TestResult) : List (Str × Str) :=
  [(List.replicate (wName - r.strategyName.length) ' ' ++
      List.replicate (wTime - (r.avgTimeMs.text 1).length) ' ', r.avgTimeMs.text 1),
    (List.replicate (wLat - (r.avgLatencyNs.text 1).length) ' ', r.avgLatencyNs.text 1),
    (List.replicate (wTp - (r.queryThroughput.text 2).length) ' ', r.queryThroughput.text 2),
    (List.replicate (wSpd - 1 - (speedupText baselineTime first r).length) ' ',
      speedupText baselineTime first r)]

theorem speedupColumn_eq : speedupColumn baselineTime first r =
    List.replicate (wSpd - 1 - (speedupText baselineTime first r).length) ' ' ++
      (speedupText baselineTime first r ++ ['x']) := by
  cases first with
  | false => simp [speedupColumn, speedupText, padLeft]
  | true => rfl

theorem rowLine_eq {s : Strategy} (hname : r.strategyName = s.name) :
    rowLine baselineTime first r ++ ['\n'] =
      '║' :: ([' ','L','I','P','P',' ','('] ++ s.inner ++ ')' ::
        layout (rowColumns baselineTime first r) ++ 'x' :: [' ']) ++ '║' :: ['\n'] := by
  rw [rowLine, speedupColumn_eq, padRight, rowColumns, hname]
  generalize List.replicate (wName - s.name.length) ' ' = pad
  simp [padLeft, s.name_eq]

/-- The characters of a printed number. -/
theorem mem_text {x : Double} {prec : Nat} {c : Char} (h : c ∈ x.text prec) :
    c.isDigit = true ∨ c ∈ ['.','i','n','f'] := by
  cases x with
  | finite q =>
      rcases solid_of_mem_fixedText h with h | rfl
      · exact Or.inl h
      · exact Or.inr (by simp)
  | inf => exact Or.inr (List.mem_cons_of_mem '.' h)

theorem speedupText_eq (baselineTime : Double) (first : Bool) (r : TestResult) :
    ∃ x : Double, speedupText baselineTime first r = x.text 2 ∧
      (first = true → x = .finite 1) := by
  cases first with
  | false => exact ⟨_, rfl, fun h => by cases h⟩
  | true =>
      have hone : (['1','.','0','0'] : Str) = Double.text 2 (.finite 1) := by decide +kernel
      exact ⟨.finite 1, hone, fun _ => rfl⟩

theorem rowColumns_spec {col : Str × Str} (h : col ∈ rowColumns baselineTime first r) :
    Blank col.1 ∧ ∃ (x : Double) (prec : Nat), col.2 = x.text prec := by
  obtain ⟨x, hx, _⟩ := speedupText_eq baselineTime first r
  simp only [rowColumns, List.mem_cons, List.not_mem_nil, or_false] at h
  rcases h with rfl | rfl | rfl | rfl
  · exact ⟨(blank_replicate _).append (blank_replicate _), _, _, rfl⟩
  · exact ⟨blank_replicate _, _, _, rfl⟩
  · exact ⟨blank_replicate _, _, _, rfl⟩
  · exact ⟨blank_replicate _, x, 2, hx⟩

theorem word_rowColumns {col : Str × Str} (h : col ∈ rowColumns baselineTime first r) :
    Blank col.1 ∧ Word col.2 := by
  obtain ⟨hblank, x, prec, htext⟩ := rowColumns_spec h
  rw [htext]
  exact ⟨hblank, Double.word_text prec x⟩

/-- Visible characters that numbers are not printed with. -/
theorem notMem_rowColumns {c : Char} (hspace : space c = false) (hdigit : c.isDigit = false)
    (hc : c ∉ ['.','i','n','f']) : c ∉ layout (rowColumns baselineTime first r) := by
  refine notMem_layout hspace fun col hcol => ?_
  obtain ⟨hblank, x, prec, htext⟩ := rowColumns_spec hcol
  refine ⟨hblank, fun hmem => ?_⟩
  rw [htext] at hmem
  rcases mem_text hmem with h | h
  · rw [h] at hdigit
    cases hdigit
  · exact hc h

/-- The table pattern can read the columns. -/
structure Readable (baselineTime : Double) (first : Bool) (r : TestResult) : Prop where
  /-- Every column has white space before it. -/
  apart : Apart (rowColumns baselineTime first r)
  /-- Every column is a number. -/
  finite : ∀ col ∈ rowColumns baselineTime first r, col.2 ≠ ['i','n','f']

theorem number_text {x : Double} {prec : Nat} (h : x.text prec ≠ ['i','n','f']) :
    Matches number (x.text prec) [] := by
  cases x with
  | finite q => exact number_fixedText prec q
  | inf => exact absurd rfl h

theorem Readable.number (h : Readable baselineTime first r) {col : Str × Str}
    (hcol : col ∈ rowColumns baselineTime first r) : Matches number col.2 [] := by
  have hfinite := h.finite col hcol
  obtain ⟨_, x, prec, htext⟩ := rowColumns_spec hcol
  rw [htext] at hfinite ⊢
  exact number_text hfinite

/-! ## Matches -/

/-- What the groups of the table pattern are called. -/
def tableGroups : List String := ["avg_time", "latency", "throughput", "speedup"]

theorem matches_tablePattern {t : Str} {caps : Captures} (h : Matches tablePattern t caps) :
    ∃ w₀ g cols w₅, t = '║' :: (w₀ ++ g ++ layout cols ++ 'x' :: w₅ ++ ['║']) ∧ Blank w₀ ∧
      cols.length = 4 ∧ Apart cols ∧
        (∀ col ∈ cols, Blank col.1 ∧ Matches Analysis.number col.2 []) ∧
          caps = ("strategy", g) :: tableGroups.zip (cols.map Prod.snd) := by
  obtain ⟨t, rfl, h₁⟩ := matches_cons_lit.mp h
  obtain ⟨w₀, t, rfl, hw₀, _, h₂⟩ := matches_cons_many.mp h₁
  obtain ⟨g, t, c, c', rfl, rfl, hg, h₃⟩ := matches_cons_group.mp h₂
  obtain ⟨w₁, t, rfl, hw₁, hlen₁, h₄⟩ := matches_cons_many.mp h₃
  obtain ⟨n₁, t, c₁, d₁, rfl, rfl, hn₁, h₅⟩ := matches_cons_group.mp h₄
  obtain ⟨w₂, t, rfl, hw₂, hlen₂, h₆⟩ := matches_cons_many.mp h₅
  obtain ⟨n₂, t, c₂, d₂, rfl, rfl, hn₂, h₇⟩ := matches_cons_group.mp h₆
  obtain ⟨w₃, t, rfl, hw₃, hlen₃, h₈⟩ := matches_cons_many.mp h₇
  obtain ⟨n₃, t, c₃, d₃, rfl, rfl, hn₃, h₉⟩ := matches_cons_group.mp h₈
  obtain ⟨w₄, t, rfl, hw₄, hlen₄, h₁₀⟩ := matches_cons_many.mp h₉
  obtain ⟨n₄, t, c₄, d₄, rfl, rfl, hn₄, h₁₁⟩ := matches_cons_group.mp h₁₀
  obtain ⟨t, rfl, h₁₂⟩ := matches_cons_lit.mp h₁₁
  obtain ⟨w₅, t, rfl, _, _, h₁₃⟩ := matches_cons_many.mp h₁₂
  obtain ⟨t, rfl, h₁₄⟩ := matches_cons_lit.mp h₁₃
  obtain ⟨rfl, rfl⟩ := matches_nil.mp h₁₄
  obtain ⟨_, _, _, rfl⟩ := matches_rep.mp hg
  obtain ⟨rfl, _⟩ := matches_number hn₁
  obtain ⟨rfl, _⟩ := matches_number hn₂
  obtain ⟨rfl, _⟩ := matches_number hn₃
  obtain ⟨rfl, _⟩ := matches_number hn₄
  refine ⟨w₀, g, [(w₁, n₁), (w₂, n₂), (w₃, n₃), (w₄, n₄)], w₅, by simp, hw₀, rfl, ?_, ?_, rfl⟩
  · simp only [Apart, List.forall_mem_cons]
    exact ⟨List.length_pos_iff.mp hlen₁, List.length_pos_iff.mp hlen₂,
      List.length_pos_iff.mp hlen₃, List.length_pos_iff.mp hlen₄, by simp⟩
  · simp only [List.forall_mem_cons]
    exact ⟨⟨hw₁, hn₁⟩, ⟨hw₂, hn₂⟩, ⟨hw₃, hn₃⟩, ⟨hw₄, hn₄⟩, by simp⟩

/-- The part of a line between its two `║`. -/
theorem between_bars {pre post a b : Str} (hb : '║' ∉ b)
    (h : pre ++ '║' :: (a ++ '║' :: post) = '║' :: (b ++ '║' :: ['\n'])) : a = b := by
  cases pre with
  | nil => exact (split_only hb (by simp) (List.cons.inj h).2).1
  | cons c pre =>
      have htail := (split_only hb (by simp) (List.cons.inj h).2).2
      have hmem : '║' ∈ ['\n'] := htail ▸ List.mem_append_right a List.mem_cons_self
      exact absurd hmem (by simp)

/-- Where a name and columns are read off a name and columns, they are the same: the last `)` is
the one of the name. -/
theorem name_columns {s : Strategy} {w₀ g : Str} {cols cols' : List (Str × Str)} (hw₀ : Blank w₀)
    (hcols : ∀ col ∈ cols, Blank col.1 ∧ Matches number col.2 []) (hapart : Apart cols)
    (hcols' : ∀ col ∈ cols', Blank col.1 ∧ Word col.2) (hclose : ')' ∉ layout cols')
    (hlen : cols'.length = cols.length) (hne : cols' ≠ [])
    (h : w₀ ++ g ++ layout cols =
      [' ','L','I','P','P',' ','('] ++ s.inner ++ ')' :: layout cols') :
    strip g = s.name ∧ cols.map Prod.snd = cols'.map Prod.snd := by
  have hnumbers : ')' ∉ layout cols := by
    refine notMem_layout rfl fun col hcol => ⟨(hcols col hcol).1, fun hmem => ?_⟩
    exact absurd ((matches_number (hcols col hcol).2).2.2 _ hmem) (by decide)
  have hmem : ')' ∈ w₀ ++ g ++ layout cols := by
    rw [h]
    simp
  have hg : ')' ∈ g := by
    simpa [hnumbers, hw₀.notMem (c := ')') rfl] using hmem
  obtain ⟨g₁, g₂, rfl⟩ := List.append_of_mem hg
  have hinner : ')' ∉ [' ','L','I','P','P',' ','('] ++ s.inner := by
    have hinner : ')' ∉ s.inner := s.notMem_inner (by simp [marks])
    simp [hinner]
  have hsplit : w₀ ++ g₁ ++ ')' :: (g₂ ++ layout cols) =
      [' ','L','I','P','P',' ','('] ++ s.inner ++ ')' :: layout cols' := by
    rw [← h]
    simp
  obtain ⟨hfront, hbehind⟩ := split_only hinner hclose hsplit
  have hwords : ∀ col ∈ cols, Blank col.1 ∧ Word col.2 :=
    fun col hcol => ⟨(hcols col hcol).1, word_number (hcols col hcol).2⟩
  obtain ⟨hblank, htexts⟩ := layout_inj hwords hapart hcols' hlen hne hbehind
  refine ⟨?_, htexts⟩
  have hspace : Blank [' '] := blank_replicate 1
  calc strip (g₁ ++ ')' :: g₂) = strip (w₀ ++ g₁ ++ ')' :: g₂) := by
        rw [List.append_assoc, strip_append_left hw₀]
    _ = strip ([' '] ++ 'L' :: (['I','P','P',' ','('] ++ s.inner ++ ')' :: g₂)) := by
        rw [hfront]
        simp
    _ = s.name := by
        rw [strip_append_left hspace, strip_append_right rfl rfl hblank,
          s.name_eq_cons]

/-- What the table pattern finds in the row of a strategy. -/
theorem rowLine_occurs {s : Strategy} {caps : Captures} (hname : r.strategyName = s.name)
    (h : Occurs tablePattern (rowLine baselineTime first r ++ ['\n']) caps) :
    ∃ g, strip g = s.name ∧ caps = ("strategy", g) ::
      tableGroups.zip ((rowColumns baselineTime first r).map Prod.snd) := by
  obtain ⟨pre, t, post, hline, hmatch⟩ := h
  obtain ⟨w₀, g, cols, w₅, rfl, hw₀, hlen, hapart, hcols, rfl⟩ := matches_tablePattern hmatch
  rw [rowLine_eq hname] at hline
  have hbar : '║' ∉ s.inner := s.notMem_inner (by simp [marks])
  have hbar' : '║' ∉ layout (rowColumns baselineTime first r) :=
    notMem_rowColumns rfl rfl (by simp)
  have hx : 'x' ∉ s.inner := s.notMem_inner (by simp [marks])
  have hx' : 'x' ∉ layout (rowColumns baselineTime first r) :=
    notMem_rowColumns rfl rfl (by simp)
  have hinside : w₀ ++ g ++ layout cols ++ 'x' :: w₅ =
      [' ','L','I','P','P',' ','('] ++ s.inner ++ ')' ::
        layout (rowColumns baselineTime first r) ++ 'x' :: [' '] :=
    between_bars (by simp [hbar, hbar']) (by simpa using hline.symm)
  obtain ⟨hrow, _⟩ := split_only (by simp [hx, hx']) (by simp) hinside
  have hclose : ')' ∉ layout (rowColumns baselineTime first r) :=
    notMem_rowColumns rfl rfl (by simp)
  obtain ⟨hstrip, htexts⟩ := name_columns hw₀ hcols hapart (fun _ => word_rowColumns) hclose
    hlen.symm (List.cons_ne_nil _ _) hrow
  exact ⟨g, hstrip, by rw [htexts]⟩

/-- A name, and numbers with white space before them. -/
theorem occurs_tablePattern (s : Strategy) {w₁ n₁ w₂ n₂ w₃ n₃ w₄ n₄ : Str}
    (hcols : ∀ col ∈ [(w₁, n₁), (w₂, n₂), (w₃, n₃), (w₄, n₄)],
      Blank col.1 ∧ col.1 ≠ [] ∧ Matches number col.2 []) :
    Occurs tablePattern ('║' :: ([' ','L','I','P','P',' ','('] ++ s.inner ++ ')' ::
      layout [(w₁, n₁), (w₂, n₂), (w₃, n₃), (w₄, n₄)] ++ 'x' :: [' ']) ++ '║' :: ['\n'])
        (("strategy", s.name) :: tableGroups.zip [n₁, n₂, n₃, n₄]) := by
  simp only [List.forall_mem_cons] at hcols
  obtain ⟨⟨hw₁, hne₁, hn₁⟩, ⟨hw₂, hne₂, hn₂⟩, ⟨hw₃, hne₃, hn₃⟩, ⟨hw₄, hne₄, hn₄⟩, _⟩ := hcols
  have hnewline : '\n' ∉ s.name := by
    have hinner : '\n' ∉ s.inner := s.notMem_inner (by simp [marks])
    rw [s.name_eq]
    simp [hinner]
  have hlength : 0 < s.name.length := by
    rw [s.name_eq_cons]
    exact Nat.succ_pos _
  have hspace : Blank [' '] := blank_replicate 1
  refine ⟨[], ['║'] ++ ([' '] ++ (s.name ++ (w₁ ++ (n₁ ++ (w₂ ++ (n₂ ++ (w₃ ++ (n₃ ++ (w₄ ++
    (n₄ ++ (['x'] ++ ([' '] ++ (['║'] ++ []))))))))))))), ['\n'], by simp [s.name_eq], ?_⟩
  refine matches_cons_lit.mpr ⟨_, rfl, ?_⟩
  refine matches_cons_many.mpr ⟨[' '], _, rfl, hspace, Nat.zero_le 1, ?_⟩
  refine matches_cons_group.mpr ⟨_, _, [], _, rfl, rfl, matches_rep.mpr
    ⟨fun c hc => ?_, hlength, by simp, rfl⟩, ?_⟩
  · simpa using fun heq : c = '\n' => hnewline (heq ▸ hc)
  refine matches_cons_many.mpr ⟨_, _, rfl, hw₁, List.length_pos_iff.mpr hne₁, ?_⟩
  refine matches_cons_group.mpr ⟨_, _, [], _, rfl, rfl, hn₁, ?_⟩
  refine matches_cons_many.mpr ⟨_, _, rfl, hw₂, List.length_pos_iff.mpr hne₂, ?_⟩
  refine matches_cons_group.mpr ⟨_, _, [], _, rfl, rfl, hn₂, ?_⟩
  refine matches_cons_many.mpr ⟨_, _, rfl, hw₃, List.length_pos_iff.mpr hne₃, ?_⟩
  refine matches_cons_group.mpr ⟨_, _, [], _, rfl, rfl, hn₃, ?_⟩
  refine matches_cons_many.mpr ⟨_, _, rfl, hw₄, List.length_pos_iff.mpr hne₄, ?_⟩
  refine matches_cons_group.mpr ⟨_, _, [], _, rfl, rfl, hn₄, ?_⟩
  refine matches_cons_lit.mpr ⟨_, rfl, ?_⟩
  refine matches_cons_many.mpr ⟨[' '], _, rfl, hspace, Nat.zero_le 1, ?_⟩
  exact matches_cons_lit.mpr ⟨[], rfl, matches_nil.mpr ⟨rfl, rfl⟩⟩

/-- Where it can read the columns, it finds them. -/
theorem occurs_rowLine {s : Strategy} (hname : r.strategyName = s.name)
    (h : Readable baselineTime first r) :
    Occurs tablePattern (rowLine baselineTime first r ++ ['\n']) (("strategy", s.name) ::
      tableGroups.zip ((rowColumns baselineTime first r).map Prod.snd)) := by
  rw [rowLine_eq hname]
  exact occurs_tablePattern s fun col hcol =>
    ⟨(rowColumns_spec hcol).1, h.apart col hcol, h.number hcol⟩

/-! ## Rows -/

/-- The row that the table has for a strategy. -/
def tableRow (s : Strategy) (r : TestResult) : Row :=
  ⟨s.name, s.key, .ofText (r.avgTimeMs.text 1), .ofText (r.avgLatencyNs.text 1),
    .ofText (r.queryThroughput.text 2)⟩

theorem parseLine_of_search {s : Strategy} (hname : r.strategyName = s.name) {caps : Captures}
    (h : tablePattern.search (rowLine baselineTime first r ++ ['\n']) = some caps) :
    parseLine (rowLine baselineTime first r ++ ['\n']) = some (tableRow s r) := by
  obtain ⟨g, hstrip, rfl⟩ := rowLine_occurs hname (occurs_of_search h)
  generalize hcaps : ("strategy", g) ::
    tableGroups.zip ((rowColumns baselineTime first r).map Prod.snd) = caps at h
  have hstrategy : matched caps "strategy" = g := by rw [← hcaps]; rfl
  have havg : matched caps "avg_time" = r.avgTimeMs.text 1 := by rw [← hcaps]; rfl
  have hlatency : matched caps "latency" = r.avgLatencyNs.text 1 := by rw [← hcaps]; rfl
  have hthroughput : matched caps "throughput" = r.queryThroughput.text 2 := by rw [← hcaps]; rfl
  simp only [parseLine, h, hstrategy, havg, hlatency, hthroughput, hstrip]
  exact s.keepRow_name _ _ _

/-- A row of the table gives the row of its strategy, or none. -/
theorem parseLine_rowLine {s : Strategy} (hname : r.strategyName = s.name) :
    parseLine (rowLine baselineTime first r ++ ['\n']) = none ∨
      parseLine (rowLine baselineTime first r ++ ['\n']) = some (tableRow s r) := by
  cases hsearch : tablePattern.search (rowLine baselineTime first r ++ ['\n']) with
  | some caps => exact Or.inr (parseLine_of_search hname hsearch)
  | none =>
      have hprogress : progressPattern.search (rowLine baselineTime first r ++ ['\n']) = none := by
        have hinner : 'T' ∉ s.inner := s.notMem_inner (by simp [marks])
        have hlayout : 'T' ∉ layout (rowColumns baselineTime first r) :=
          notMem_rowColumns rfl rfl (by simp)
        refine search_eq_none (c := 'T') (by simp [progressPattern, seqs, needs]) ?_
        rw [rowLine_eq hname]
        simp [hinner, hlayout]
      simp only [parseLine, hsearch, hprogress]
      exact Or.inl trivial

/-- It gives the row where the columns can be read. -/
theorem parseLine_readable {s : Strategy} (hname : r.strategyName = s.name)
    (h : Readable baselineTime first r) :
    parseLine (rowLine baselineTime first r ++ ['\n']) = some (tableRow s r) := by
  obtain ⟨caps, hsearch, _⟩ := search_of_occurs (occurs_rowLine hname h)
  exact parseLine_of_search hname hsearch

end Columns

/-! ## The other lines -/

/-- The lines above the rows. -/
def headLines : List Str := [[], printLine '╔' '═' '╗', titleLine, printLine '╠' '═' '╣']

theorem parseLine_eq_none {line : Str} (hx : 'x' ∉ line) (hD : 'D' ∉ line) :
    parseLine line = none := by
  have htable : tablePattern.search line = none :=
    search_eq_none (by simp [tablePattern, seqs, needs]) hx
  have hprogress : progressPattern.search line = none :=
    search_eq_none (by simp [progressPattern, seqs, needs]) hD
  simp only [parseLine, htable, hprogress]

theorem parseLine_headLines {line : Str} (h : line ∈ headLines) :
    parseLine (line ++ ['\n']) = none := by
  simp only [headLines, List.mem_cons, List.not_mem_nil, or_false] at h
  rcases h with rfl | rfl | rfl | rfl
  · exact parseLine_eq_none (by simp) (by simp)
  · exact parseLine_eq_none (by simp [printLine]) (by simp [printLine])
  · exact parseLine_eq_none (by simp [titleLine, padRight, padLeft])
      (by simp [titleLine, padRight, padLeft])
  · exact parseLine_eq_none (by simp [printLine]) (by simp [printLine])

end Analysis
