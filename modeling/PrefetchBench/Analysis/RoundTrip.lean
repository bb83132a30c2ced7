import PrefetchBench.Analysis.Table

/-!
# What the parser makes of the output

The data frame has of every strategy the first row that a line of the file gives
(`filter_parseLippResults`).  In the output these are the progress lines, and for the names that
are too long for the progress pattern the rows of the table.
-/

namespace Analysis

open Text

/-! ## The first row of a strategy -/

/-- The state has the first row of every strategy. -/
structure ParseState.Firsts (st : ParseState) (rows : List Row) : Prop where
  /-- `seen` has the keys of the rows. -/
  seen : st.seen = st.rows.map Row.key
  /-- There is one row of a strategy, the first. -/
  first : ∀ key, st.rows.filter (·.key = key) = (rows.find? (·.key = key)).toList

theorem ParseState.Firsts.mem_seen {st : ParseState} {rows : List Row} (h : st.Firsts rows)
    (key : Key) : key ∈ st.seen ↔ rows.find? (·.key = key) ≠ none := by
  have hmem : key ∈ st.seen ↔ st.rows.filter (·.key = key) ≠ [] := by
    rw [h.seen, ne_eq, List.filter_eq_nil_iff]
    simp
  rw [hmem, h.first key]
  cases rows.find? (·.key = key) <;> simp

/-- One line. -/
theorem ParseState.Firsts.readLine {st : ParseState} {rows : List Row} (h : st.Firsts rows)
    (line : Str) : (readLine st line).Firsts (rows ++ (parseLine line).toList) := by
  rw [Analysis.readLine]
  cases parseLine line with
  | none => simpa using h
  | some row =>
      have hmem := h.mem_seen row.key
      simp only [Option.toList_some]
      split
      · rename_i hseen
        -- a row of the strategy is there, and stays
        refine ⟨h.seen, fun key => ?_⟩
        rw [h.first key, List.find?_append]
        cases hfind : rows.find? (·.key = key) with
        | some first => rfl
        | none =>
            have hother : row.key ≠ key := fun heq => hmem.mp hseen (heq ▸ hfind)
            simp [hother]
      · rename_i hseen
        have hnone : rows.find? (·.key = row.key) = none :=
          by_contra fun hne => hseen (hmem.mpr hne)
        refine ⟨by rw [h.seen, List.map_append]; rfl, fun key => ?_⟩
        rw [List.filter_append, h.first key, List.find?_append]
        rcases eq_or_ne row.key key with rfl | hother
        · rw [hnone]
          simp
        · simp [hother]

/-- All lines. -/
theorem ParseState.Firsts.foldl {st : ParseState} {rows : List Row} (h : st.Firsts rows)
    (ls : List Str) : (ls.foldl Analysis.readLine st).Firsts (rows ++ ls.filterMap parseLine) := by
  induction ls generalizing st rows with
  | nil => simpa using h
  | cons line ls ih =>
      have hstep := ih (h.readLine line)
      rw [List.append_assoc] at hstep
      cases hline : parseLine line with
      | none => simpa [hline] using hstep
      | some row => simpa [hline] using hstep

theorem firsts_nil : ParseState.Firsts ⟨[], []⟩ [] := ⟨rfl, fun _ => rfl⟩

/-- The data frame has of every strategy the first row that a line gives. -/
theorem filter_parseLippResults (file : Str) (key : Key) :
    (parseLippResults file).filter (·.key = key) =
      (((lines file).filterMap parseLine).find? (·.key = key)).toList := by
  have hfirst := (firsts_nil.foldl (lines file)).first key
  rw [List.nil_append] at hfirst
  have hperm : ((parseLippResults file).filter (·.key = key)).Perm
      (((lines file).filterMap parseLine).find? (·.key = key)).toList := by
    rw [← hfirst]
    exact (List.mergeSort_perm _ _).filter _
  revert hperm
  cases ((lines file).filterMap parseLine).find? (·.key = key) with
  | none => exact fun h => h.eq_nil
  | some row => exact fun h => List.perm_singleton.mp h

theorem nodup_parseLippResults (file : Str) : ((parseLippResults file).map Row.key).Nodup := by
  rw [List.nodup_iff_count_le_one]
  intro key
  have hcount : ((parseLippResults file).map Row.key).count key =
      ((parseLippResults file).filter (·.key = key)).length := by
    rw [List.count_eq_countP, List.countP_map, List.countP_eq_length_filter]
    exact congrArg List.length (List.filter_congr fun row _ => beq_eq_decide row.key key)
  rw [hcount, filter_parseLippResults]
  exact Option.length_toList_le

/-! ## The lines of the output -/

theorem newline_notMem_progressLine (s : Strategy) (avgTime : ℚ≥0) :
    '\n' ∉ progressLine s.name avgTime := by
  have hinner : '\n' ∉ s.inner := s.notMem_inner (by simp [marks])
  have hnumber := notMem_fixedText (c := '\n') rfl (by decide) 2 avgTime
  simp [progressLine, padRight, s.name_eq, hinner, hnumber]

theorem newline_notMem_rowLine {baselineTime : Double} {first : Bool} {r : TestResult}
    {s : Strategy} (hname : r.strategyName = s.name) : '\n' ∉ rowLine baselineTime first r := by
  have hinner : '\n' ∉ s.inner := s.notMem_inner (by simp [marks])
  have htext : ∀ (x : Double) (prec : Nat), '\n' ∉ x.text prec := by
    intro x prec hmem
    rcases mem_text hmem with h | h
    · cases h
    · exact absurd h (by simp)
  obtain ⟨x, hx, _⟩ := speedupText_eq baselineTime first r
  simp [rowLine, speedupColumn_eq, padRight, padLeft, hname, s.name_eq, hinner, htext, hx]

theorem newline_notMem_headLines {line : Str} (h : line ∈ headLines) : '\n' ∉ line := by
  simp only [headLines, List.mem_cons, List.not_mem_nil, or_false] at h
  rcases h with rfl | rfl | rfl | rfl
  · simp
  · simp [printLine]
  · simp [titleLine, padRight, padLeft]
  · simp [printLine]

/-- The first average, which the speedups are for. -/
def Runs.baselineTime (runs : Runs) : Double :=
  (runs.head?.map fun run => .finite run.2).getD (.finite 1)

/-- The rows of a table. -/
def rowLines (baselineTime : Double) (queryCount : Nat) (runs : Runs) : List Str :=
  runs.mapIdx fun i run => rowLine baselineTime (i == 0) (testResult run.1.name run.2 queryCount)

theorem printResultsTable_results (runs : Runs) (queryCount : Nat) :
    printResultsTable (runs.results queryCount) =
      headLines ++ rowLines runs.baselineTime queryCount runs := by
  have hbaseline : ((runs.results queryCount).head?.map TestResult.avgTimeMs).getD (.finite 1) =
      runs.baselineTime := by
    cases runs <;> rfl
  have hrows : ((runs.results queryCount).mapIdx fun i r => rowLine runs.baselineTime (i == 0) r) =
      rowLines runs.baselineTime queryCount runs := by
    apply List.ext_getElem?
    intro i
    simp [Runs.results, rowLines, Function.comp_def]
  simp only [printResultsTable, hbaseline, hrows]
  rfl

theorem mem_rowLines {baselineTime : Double} {queryCount : Nat} {runs : Runs} {line : Str}
    (h : line ∈ rowLines baselineTime queryCount runs) : ∃ run ∈ runs, ∃ first,
      line = rowLine baselineTime first (testResult run.1.name run.2 queryCount) := by
  obtain ⟨i, hi, rfl⟩ := List.mem_mapIdx.mp h
  exact ⟨_, List.getElem_mem hi, _, rfl⟩

/-- The lines of the output are the printed ones. -/
theorem lines_output (runs : Runs) (queryCount printed : Nat) :
    lines (output runs queryCount printed) =
      ((runs.map fun run => progressLine run.1.name run.2) ++
        (headLines ++ rowLines runs.baselineTime queryCount runs).take printed).map
          (· ++ ['\n']) := by
  rw [output, printResultsTable_results]
  refine lines_flatten fun line hline => ?_
  rcases List.mem_append.mp hline with hline | hline
  · obtain ⟨run, _, rfl⟩ := List.mem_map.mp hline
    exact newline_notMem_progressLine run.1 run.2
  · rcases List.mem_append.mp (List.mem_of_mem_take hline) with hline | hline
    · exact newline_notMem_headLines hline
    · obtain ⟨run, _, first, rfl⟩ := mem_rowLines hline
      exact newline_notMem_rowLine rfl

/-! ## The rows of the output -/

/-- The rows that progress lines give. -/
def progressRows (runs : Runs) : List Row :=
  runs.filterMap fun run => parseLine (progressLine run.1.name run.2 ++ ['\n'])

/-- The rows that the first `n` rows of a table give. -/
def tableRows (baselineTime : Double) (queryCount n : Nat) (runs : Runs) : List Row :=
  ((rowLines baselineTime queryCount runs).take n).filterMap fun line => parseLine (line ++ ['\n'])

/-- The lines above the table give no rows. -/
theorem filterMap_output (runs : Runs) (queryCount printed : Nat) :
    (lines (output runs queryCount printed)).filterMap parseLine =
      progressRows runs ++ tableRows runs.baselineTime queryCount (printed - 4) runs := by
  have hhead : (headLines.take printed).filterMap (parseLine ∘ (· ++ ['\n'])) = [] :=
    List.filterMap_eq_nil_iff.mpr fun line hline =>
      parseLine_headLines (List.mem_of_mem_take hline)
  have hlength : headLines.length = 4 := rfl
  rw [lines_output, List.filterMap_map, List.filterMap_append, List.filterMap_map,
    List.take_append, List.filterMap_append, hhead, List.nil_append, hlength, progressRows,
    tableRows]
  simp only [Function.comp_def]

theorem mem_progressRows {runs : Runs} {row : Row} (h : row ∈ progressRows runs) :
    ∃ run ∈ runs, run.1.name.length < 25 ∧ row = progressRow run.1 run.2 := by
  obtain ⟨run, hrun, hrow⟩ := List.mem_filterMap.mp h
  rw [parseLine_progressLine] at hrow
  split at hrow
  · rename_i hlen
    cases hrow
    exact ⟨run, hrun, hlen, rfl⟩
  · cases hrow

theorem mem_tableRows {baselineTime : Double} {queryCount n : Nat} {runs : Runs} {row : Row}
    (h : row ∈ tableRows baselineTime queryCount n runs) :
    ∃ run ∈ runs, row = tableRow run.1 (testResult run.1.name run.2 queryCount) := by
  obtain ⟨line, hline, hrow⟩ := List.mem_filterMap.mp h
  obtain ⟨run, hrun, first, rfl⟩ := mem_rowLines (List.mem_of_mem_take hline)
  have hname : (testResult run.1.name run.2 queryCount).strategyName = run.1.name := rfl
  rcases parseLine_rowLine hname with hnone | hsome
  · rw [hnone] at hrow
    cases hrow
  · rw [hsome] at hrow
    cases hrow
    exact ⟨run, hrun, rfl⟩

/-- Rows of other strategies. -/
theorem find_eq_none {runs : Runs} {rows : List Row} {s : Strategy}
    (hrows : ∀ row ∈ rows, ∃ run ∈ runs, row.key = run.1.key) (hruns : ∀ run ∈ runs, run.1 ≠ s) :
    rows.find? (·.key = s.key) = none := by
  refine List.find?_eq_none.mpr fun row hrow => ?_
  obtain ⟨run, hrun, hkey⟩ := hrows row hrow
  simpa [hkey] using fun heq => hruns run hrun (Strategy.key_injective heq)

section First

variable {before after : Runs} {s : Strategy} {avgTime : ℚ≥0}

/-- The first progress line of a strategy gives its row. -/
theorem find_progressRows (hfirst : ∀ run ∈ before, run.1 ≠ s) (hlen : s.name.length < 25) :
    (progressRows (before ++ (s, avgTime) :: after)).find? (·.key = s.key) =
      some (progressRow s avgTime) := by
  have hbefore : (progressRows before).find? (·.key = s.key) = none := by
    refine find_eq_none (fun row hrow => ?_) hfirst
    obtain ⟨run, hrun, _, rfl⟩ := mem_progressRows hrow
    exact ⟨run, hrun, rfl⟩
  have hline : parseLine (progressLine s.name avgTime ++ ['\n']) =
      some (progressRow s avgTime) := by
    rw [parseLine_progressLine, if_pos hlen]
  rw [progressRows] at hbefore ⊢
  rw [List.filterMap_append, List.find?_append, hbefore, Option.none_or]
  simp only [List.filterMap_cons, hline]
  exact List.find?_cons_of_pos (by simp [progressRow])

/-- A name that is too long has no row from progress lines. -/
theorem find_progressRows_long (runs : Runs) (hlen : 25 ≤ s.name.length) :
    (progressRows runs).find? (·.key = s.key) = none := by
  have hshort : ∀ row ∈ progressRows runs,
      ∃ run ∈ runs.filter fun run => run.1.name.length < 25, row.key = run.1.key := by
    intro row hrow
    obtain ⟨run, hrun, hshort, rfl⟩ := mem_progressRows hrow
    exact ⟨run, List.mem_filter.mpr ⟨hrun, by simpa using hshort⟩, rfl⟩
  refine find_eq_none hshort fun run hrun heq => ?_
  have hname := of_decide_eq_true (List.mem_filter.mp hrun).2
  rw [heq] at hname
  exact absurd hname (not_lt.mpr hlen)

/-- The first row of a strategy in the table gives its row. -/
theorem find_tableRows {baselineTime : Double} {queryCount n : Nat}
    (hfirst : ∀ run ∈ before, run.1 ≠ s) (hn : before.length < n)
    (hreadable :
      Readable baselineTime (before.length == 0) (testResult s.name avgTime queryCount)) :
    (tableRows baselineTime queryCount n (before ++ (s, avgTime) :: after)).find?
      (·.key = s.key) = some (tableRow s (testResult s.name avgTime queryCount)) := by
  have hbefore : (tableRows baselineTime queryCount n before).find? (·.key = s.key) = none := by
    refine find_eq_none (fun row hrow => ?_) hfirst
    obtain ⟨run, hrun, rfl⟩ := mem_tableRows hrow
    exact ⟨run, hrun, rfl⟩
  obtain ⟨m, hm⟩ : ∃ m, n - before.length = m + 1 := ⟨n - before.length - 1, by omega⟩
  have hline : parseLine (rowLine baselineTime (before.length == 0)
      (testResult s.name avgTime queryCount) ++ ['\n']) =
        some (tableRow s (testResult s.name avgTime queryCount)) :=
    parseLine_readable rfl hreadable
  rw [tableRows, rowLines] at hbefore ⊢
  rw [List.mapIdx_append, List.take_append, List.length_mapIdx, hm, List.mapIdx_cons,
    List.take_succ_cons, List.filterMap_append, List.find?_append, hbefore, Option.none_or]
  simp only [Nat.zero_add, List.filterMap_cons, hline]
  exact List.find?_cons_of_pos (by simp [tableRow])

/-- A strategy with a short name has the row of its first progress line, with the table or without
it. -/
theorem filter_output_short (queryCount printed : Nat) (hfirst : ∀ run ∈ before, run.1 ≠ s)
    (hlen : s.name.length < 25) :
    (parseLippResults (output (before ++ (s, avgTime) :: after) queryCount printed)).filter
      (·.key = s.key) = [progressRow s avgTime] := by
  rw [filter_parseLippResults, filterMap_output, List.find?_append,
    find_progressRows hfirst hlen, Option.some_or, Option.toList_some]

/-- A strategy with a long name has the rows that the table gives. -/
theorem filter_output_long (runs : Runs) (queryCount printed : Nat) (hlen : 25 ≤ s.name.length) :
    (parseLippResults (output runs queryCount printed)).filter (·.key = s.key) =
      ((tableRows runs.baselineTime queryCount (printed - 4) runs).find?
        (·.key = s.key)).toList := by
  rw [filter_parseLippResults, filterMap_output, List.find?_append,
    find_progressRows_long runs hlen, Option.none_or]

end First

/-! ## Round trip -/

theorem mem_output {runs : Runs} {queryCount printed : Nat} {row : Row}
    (h : row ∈ (lines (output runs queryCount printed)).filterMap parseLine) :
    ∃ run ∈ runs, row.strategy = run.1.name ∧ row.key = run.1.key := by
  rw [filterMap_output] at h
  rcases List.mem_append.mp h with h | h
  · obtain ⟨run, hrun, _, rfl⟩ := mem_progressRows h
    exact ⟨run, hrun, rfl, rfl⟩
  · obtain ⟨run, hrun, rfl⟩ := mem_tableRows h
    exact ⟨run, hrun, rfl, rfl⟩

/-- The parser inverts the printer, up to the two decimals of a progress line: every row is for a
strategy that was run, no strategy has two, and a strategy has the row of its progress line, or the
one of the table where its name has no white space behind it in a progress line. -/
theorem parseLippResults_output (runs : Runs) (queryCount printed : Nat) :
    (∀ row ∈ parseLippResults (output runs queryCount printed),
      ∃ run ∈ runs, row.strategy = run.1.name ∧ row.key = run.1.key) ∧
    ((parseLippResults (output runs queryCount printed)).map Row.key).Nodup ∧
    ∀ before s avgTime after, runs = before ++ (s, avgTime) :: after →
      (∀ run ∈ before, run.1 ≠ s) →
      (s.name.length < 25 →
        (parseLippResults (output runs queryCount printed)).filter (·.key = s.key) =
          [progressRow s avgTime]) ∧
      (25 ≤ s.name.length → before.length + 4 < printed →
        Readable runs.baselineTime (before.length == 0) (testResult s.name avgTime queryCount) →
        (parseLippResults (output runs queryCount printed)).filter (·.key = s.key) =
          [tableRow s (testResult s.name avgTime queryCount)]) := by
  refine ⟨fun row hrow => ?_, ?_, ?_⟩
  · have hfilter : row ∈ (parseLippResults (output runs queryCount printed)).filter
        (·.key = row.key) := List.mem_filter.mpr ⟨hrow, by simp⟩
    rw [filter_parseLippResults, Option.mem_toList] at hfilter
    exact mem_output (List.mem_of_find?_eq_some hfilter)
  · exact nodup_parseLippResults _
  · rintro before s avgTime after rfl hfirst
    refine ⟨filter_output_short queryCount printed hfirst, fun hlen hprinted hreadable => ?_⟩
    rw [filter_output_long _ queryCount printed hlen,
      find_tableRows hfirst (by omega) hreadable, Option.toList_some]

/-- Two strategies and the whole table. -/
theorem parseLippResults_output_two :
    (parseLippResults (output [(.noPrefetch, 1 / 4), (.run .vectorized 1024, 3)] 1000000
        6)).filter (·.key = Strategy.noPrefetch.key) = [progressRow .noPrefetch (1 / 4)] ∧
      (parseLippResults (output [(.noPrefetch, 1 / 4), (.run .vectorized 1024, 3)] 1000000
        6)).filter (·.key = (Strategy.run .vectorized 1024).key) =
          [tableRow (.run .vectorized 1024)
            (testResult (Strategy.run .vectorized 1024).name 3 1000000)] := by
  have hreadable : Readable (.finite (1 / 4)) false
      (testResult (Strategy.run .vectorized 1024).name 3 1000000) :=
    ⟨fun col hcol => by revert col; decide +kernel, by decide +kernel⟩
  obtain ⟨_, _, h⟩ :=
    parseLippResults_output [(.noPrefetch, 1 / 4), (.run .vectorized 1024, 3)] 1000000 6
  exact ⟨(h [] _ _ _ rfl (by simp)).1 (by decide +kernel),
    (h [(.noPrefetch, 1 / 4)] _ _ [] rfl (by simp)).2 (by decide +kernel) (by simp) hreadable⟩

/-- The parsed latency and throughput are not the printed ones where there are not a million
queries, and a long name has no row without the table, or where its columns touch. -/
theorem output_not_inverted :
    (∃ row ∈ parseLippResults (output [(.noPrefetch, 1)] 1000 5),
      row.key = Strategy.noPrefetch.key ∧ row.latency = .finite 1 ∧
        row.throughput = .finite 1000) ∧
    (rowLine (.finite 1) true (testResult Strategy.noPrefetch.name 1 1000) ++ ['\n'] ∈
        lines (output [(.noPrefetch, 1)] 1000 5) ∧
      Double.ofText ((testResult Strategy.noPrefetch.name 1 1000).avgLatencyNs.text 1) =
        .finite 1000 ∧
      Double.ofText ((testResult Strategy.noPrefetch.name 1 1000).queryThroughput.text 2) =
        .finite 1) ∧
    (parseLippResults (output [(.run .vectorized 1024, 1)] 1000 0)).filter
      (·.key = (Strategy.run .vectorized 1024).key) = [] ∧
    (parseLippResults (output [(.run .vectorized 10000, 10 ^ 13)] 1000 5)).filter
      (·.key = (Strategy.run .vectorized 10000).key) = [] := by
  refine ⟨⟨progressRow .noPrefetch 1, ?_, rfl, by decide +kernel, by decide +kernel⟩,
    ⟨?_, by decide +kernel, by decide +kernel⟩, ?_, ?_⟩
  · have hfilter := @filter_output_short [] [] .noPrefetch 1 1000 5 (by simp) (by decide +kernel)
    exact List.mem_of_mem_filter (hfilter ▸ List.mem_singleton_self _)
  · rw [lines_output]
    refine List.mem_map_of_mem (List.mem_append_right _ ?_)
    simp [headLines, rowLines, Runs.baselineTime]
  · rw [filter_output_long _ 1000 0 (by decide +kernel), tableRows, Nat.zero_sub, List.take_zero]
    rfl
  · have hline : parseLine (rowLine (.finite (10 ^ 13)) true
        (testResult (Strategy.run .vectorized 10000).name (10 ^ 13) 1000) ++ ['\n']) = none := by
      decide +kernel
    have hrows : tableRows (Runs.baselineTime [(.run .vectorized 10000, 10 ^ 13)]) 1000 (5 - 4)
        [(.run .vectorized 10000, 10 ^ 13)] = [] := by
      simp [tableRows, rowLines, Runs.baselineTime, hline]
    rw [filter_output_long _ 1000 5 (by decide +kernel), hrows]
    rfl

end Analysis
