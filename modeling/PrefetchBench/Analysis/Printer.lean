import PrefetchBench.Text.Decimal

/-!
# The output of the LIPP benchmark

The lines that `main.cpp` prints about the strategies: one progress line for each of them while
they run, and the table at the end.  The times are measured, so the average of a strategy is given
here, as any nonnegative number; the text that is printed depends on nothing else but the name of
the strategy, its place in the list and the number of queries.
-/

namespace Analysis

open Text

/-! ## Strategies -/

/-- The families that `LIPPBenchRunner::run_all` runs for every `N`. -/
inductive Family where
  | groupPrefetch
  | spp
  | vectorized
  | fsmAmac
deriving DecidableEq

/-- The name of a family in the names of its strategies. -/
def Family.label : Family → Str
  | .groupPrefetch => ['G','r','p','P','r','e','f']
  | .spp => ['S','P','P']
  | .vectorized => ['V','e','c','t','o','r','i','z','e','d']
  | .fsmAmac => ['F','S','M',' ','A','M','A','C']

/-- The letter of the parameter. -/
def Family.letter : Family → Char
  | .groupPrefetch => 'G'
  | .spp => 'D'
  | .vectorized => 'V'
  | .fsmAmac => 'P'

/-- The strategies of `test_lipp_strategies`. -/
inductive Strategy where
  | noPrefetch
  | run (family : Family) (N : Nat)
deriving DecidableEq

/-- The name that is given to `run_benchmark`: `LIPP (No Prefetch)`, or the family and its
parameter as in `LIPP (SPP, D=8)`. -/
def Strategy.name : Strategy → Str
  | .noPrefetch =>
      ['L','I','P','P',' ','(','N','o',' ','P','r','e','f','e','t','c','h',')']
  | .run family N =>
      ['L','I','P','P',' ','('] ++ (family.label ++
        ([',',' '] ++ family.letter :: '=' :: (natText N ++ [')'])))

/-- `TestResult`, without the times that are not printed. -/
structure TestResult where
  /-- `strategy_name` -/
  strategyName : Str
  /-- `avg_time_ms` -/
  avgTimeMs : Double
  /-- `query_throughput` -/
  queryThroughput : Double
  /-- `avg_latency_ns` -/
  avgLatencyNs : Double

/-! ## Progress lines -/

/-- What `run_benchmark` prints, without the newline: `  Testing `, the name, `... ` and
`Done (Avg: `, the average, ` ms)`. -/
def progressLine (name : Str) (avgTime : ℚ≥0) : Str :=
  [' ',' ','T','e','s','t','i','n','g',' '] ++ (padRight 25 name ++ (['.','.','.',' '] ++
    (['D','o','n','e',' ','(','A','v','g',':',' '] ++
      (fixedText 2 avgTime ++ [' ','m','s',')']))))

/-- What `run_benchmark` returns. -/
def testResult (name : Str) (avgTime : ℚ≥0) (queryCount : Nat) : TestResult :=
  let queries := Double.round queryCount
  let avg := Double.finite avgTime
  ⟨name, avg, (((queries.div avg).mul (.finite 1000)).div (.finite 1000000)),
    (avg.mul (.finite 1000000)).div queries⟩

/-! ## The table -/

/-- `W_NAME` -/
def wName : Nat := 26

/-- `W_TIME` -/
def wTime : Nat := 14

/-- `W_LAT` -/
def wLat : Nat := 14

/-- `W_TP` -/
def wTp : Nat := 18

/-- `W_SPD` -/
def wSpd : Nat := 10

/-- `TOTAL_WIDTH` -/
def totalWidth : Nat := wName + wTime + wLat + wTp + wSpd + 2

/-- `print_line`, for parts of one character. -/
def printLine (left mid right : Char) : Str :=
  left :: (List.replicate totalWidth mid ++ [right])

/-- The line with the titles `Strategy`, `Avg Time(ms)`, `Latency(ns)`, `Throughput(M/Ops)` and
`Speedup`. -/
def titleLine : Str :=
  ['║',' '] ++ (padRight wName ['S','t','r','a','t','e','g','y'] ++
    (padLeft wTime ['A','v','g',' ','T','i','m','e','(','m','s',')'] ++
      (padLeft wLat ['L','a','t','e','n','c','y','(','n','s',')'] ++
        (padLeft wTp ['T','h','r','o','u','g','h','p','u','t','(','M','/','O','p','s',')'] ++
          (padLeft wSpd ['S','p','e','e','d','u','p'] ++ [' ','║'])))))

/-- The last column of a row. -/
def speedupColumn (baselineTime : Double) (first : Bool) (r : TestResult) : Str :=
  if first then padLeft wSpd ['1','.','0','0','x']
  else padLeft (wSpd - 1) ((baselineTime.div r.avgTimeMs).text 2) ++ ['x']

/-- The row of a strategy. -/
def rowLine (baselineTime : Double) (first : Bool) (r : TestResult) : Str :=
  ['║',' '] ++ (padRight wName r.strategyName ++ (padLeft wTime (r.avgTimeMs.text 1) ++
    (padLeft wLat (r.avgLatencyNs.text 1) ++ (padLeft wTp (r.queryThroughput.text 2) ++
      (speedupColumn baselineTime first r ++ [' ','║'])))))

/-- The lines of `print_results_table`. -/
def printResultsTable (results : List TestResult) : List Str :=
  let baselineTime := (results.head?.map TestResult.avgTimeMs).getD (.finite 1)
  [[], printLine '╔' '═' '╗', titleLine, printLine '╠' '═' '╣'] ++
    results.mapIdx fun i r => rowLine baselineTime (i == 0) r

/-! ## The output -/

/-- The strategies that were run, with their averages. -/
abbrev Runs := List (Strategy × ℚ≥0)

/-- The results of the runs. -/
def Runs.results (runs : Runs) (queryCount : Nat) : List TestResult :=
  runs.map fun run => testResult run.1.name run.2 queryCount

/-- The output: the progress lines, and as much of the table as was printed. -/
def output (runs : Runs) (queryCount printed : Nat) : Str :=
  ((runs.map fun run => progressLine run.1.name run.2) ++
    (printResultsTable (runs.results queryCount)).take printed).map (· ++ ['\n']) |>.flatten

end Analysis
