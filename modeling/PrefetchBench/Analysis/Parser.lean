import PrefetchBench.Text.Regex
import PrefetchBench.Text.Decimal

/-!
# Reading the output of the LIPP benchmark

`parse_lipp_results` of `visualize_LIPP.py` over the text of a file.  The rows are those of the
data frame that it returns.  A digit is one of ASCII, and a line ends with a newline: the output
has no others.
-/

namespace Analysis

open Text Regex

/-! ## Patterns -/

/-- `\s*` -/
def blanks : Regex := rep space 0 none true

/-- `\s+` -/
def blanks1 : Regex := rep space 1 none true

/-- `\d+\.?\d*` -/
def number : Regex :=
  seqs [rep Char.isDigit 1 none true, rep (· == '.') 0 (some 1) true,
    rep Char.isDigit 0 none true]

/-- `.`, repeated as little as possible. -/
def anything (lo : Nat) : Regex := rep (· != '\n') lo none false

/-- `LIPP\s*\(([^,]+),\s*([A-Z])=(\d+)\)` -/
def strategyPattern : Regex :=
  seqs [lit ['L','I','P','P'], blanks, lit ['('], group "1" (rep (· != ',') 1 none true),
    lit [','], blanks, group "2" (rep Char.isUpper 1 (some 1) true), lit ['='],
    group "3" (rep Char.isDigit 1 none true), lit [')']]

/-- `table_pattern` -/
def tablePattern : Regex :=
  seqs [lit ['║'], blanks, group "strategy" (anything 1), blanks1, group "avg_time" number,
    blanks1, group "latency" number, blanks1, group "throughput" number, blanks1,
    group "speedup" number, lit ['x'], blanks, lit ['║']]

/-- `LIPP\s*\([^)]*\)` -/
def lippPattern : Regex :=
  seqs [lit ['L','I','P','P'], blanks, lit ['('], rep (· != ')') 0 none true, lit [')']]

/-- `progress_pattern` -/
def progressPattern : Regex :=
  seqs [lit ['T','e','s','t','i','n','g'], blanks1, group "strategy" lippPattern, blanks1,
    anything 0, lit ['D','o','n','e'], blanks1, lit ['(','A','v','g',':'], blanks,
    group "avg_time" number, blanks, lit ['m','s',')']]

/-! ## Rows -/

/-- What a strategy is plotted as: its group, the letter of its parameter and the parameter. -/
abbrev Key := Str × Option Str × Nat

/-- `No Prefetch` -/
def noPrefetch : Str := ['N','o',' ','P','r','e','f','e','t','c','h']

/-- `Group Prefetch` -/
def groupPrefetch : Str := ['G','r','o','u','p',' ','P','r','e','f','e','t','c','h']

/-- `SPP` -/
def spp : Str := ['S','P','P']

/-- `Vectorized` -/
def vectorized : Str := ['V','e','c','t','o','r','i','z','e','d']

/-- `FSM AMAC` -/
def fsmAmac : Str := ['F','S','M',' ','A','M','A','C']

/-- `name_mapping.get(raw_name, raw_name)` -/
def nameMapping (rawName : Str) : Str :=
  if rawName = ['G','r','p','P','r','e','f'] then groupPrefetch
  else if rawName = spp then spp
  else if rawName = vectorized then vectorized
  else if rawName = fsmAmac then fsmAmac
  else rawName

/-- `_parse_strategy` -/
def parseStrategy (strategy : Str) : Key :=
  let strategy := strip strategy
  if strategy = ['L','I','P','P',' ','('] ++ (noPrefetch ++ [')']) ∨ strategy = noPrefetch then
    (noPrefetch, none, 0)
  else
    match strategyPattern.search strategy with
    | none => (strategy, none, 0)
    | some m =>
        (nameMapping (strip (matched m "1")), some (matched m "2"), readNat (matched m "3"))

/-- A row of the data frame. -/
structure Row where
  /-- `strategy` -/
  strategy : Str
  /-- `strategy_group`, `param_letter` and `parameter` -/
  key : Key
  /-- `avg_time_ms` -/
  avgTimeMs : Double
  /-- `latency` -/
  latency : Double
  /-- `throughput` -/
  throughput : Double
deriving DecidableEq

/-- `1000.0 / avg_time if avg_time > 0 else 0.0` -/
def throughputOf (avgTime : Double) : Double :=
  if avgTime.pos then Double.div (.finite (1000 : ℕ)) avgTime else .finite 0

/-- Only the strategies of LIPP are kept. -/
def keepRow (strategy : Str) (avgTime latency throughput : Double) : Option Row :=
  if ¬ ['L','I','P','P'].isPrefixOf strategy ∧ strategy ≠ noPrefetch then none
  else some ⟨strategy, parseStrategy strategy, avgTime, latency, throughput⟩

/-- The row of a line, if there is one. -/
def parseLine (line : Str) : Option Row :=
  match tablePattern.search line with
  | some m =>
      keepRow (strip (matched m "strategy")) (.ofText (matched m "avg_time"))
        (.ofText (matched m "latency")) (.ofText (matched m "throughput"))
  | none =>
      match progressPattern.search line with
      | some m =>
          let avgTime := Double.ofText (matched m "avg_time")
          keepRow (strip (matched m "strategy")) avgTime avgTime (throughputOf avgTime)
      | none => none

/-- The rows so far, and the keys in `seen`. -/
structure ParseState where
  /-- `rows` -/
  rows : List Row
  /-- `seen` -/
  seen : List Key

/-- What is done with a line: the first occurrence is preferred. -/
def readLine (st : ParseState) (line : Str) : ParseState :=
  match parseLine line with
  | none => st
  | some row =>
      if row.key ∈ st.seen then st else ⟨st.rows ++ [row], st.seen ++ [row.key]⟩

/-- `strategy_order` -/
def strategyOrder (strategyGroup : Str) : Nat :=
  if strategyGroup = noPrefetch then 0
  else if strategyGroup = groupPrefetch then 1
  else if strategyGroup = spp then 2
  else if strategyGroup = vectorized then 3
  else if strategyGroup = fsmAmac then 4
  else 99

/-- `sort_values(["strategy_order", "parameter"])` -/
def sortRows (rows : List Row) : List Row :=
  rows.mergeSort fun a b =>
    decide (strategyOrder a.key.1 < strategyOrder b.key.1 ∨
      strategyOrder a.key.1 = strategyOrder b.key.1 ∧ a.key.2.2 ≤ b.key.2.2)

/-- `parse_lipp_results` -/
def parseLippResults (file : Str) : List Row :=
  sortRows ((lines file).foldl readLine ⟨[], []⟩).rows

end Analysis
