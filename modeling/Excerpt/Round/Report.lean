import Excerpt.Round.Check
import Excerpt.Round.Fixed
import Excerpt.Text.Line
import Excerpt.Text.Word

/-!
# The report of a measuring round

A round runs the workloads under three tools: one measures which lines they reach, one how much of their time is
spent in the code under measurement, and one checks that they check themselves. The report shows all three
and adds a line to the record of rounds.
-/

namespace Excerpt.Round

/-- How a tool ended, and what it wrote. -/
structure Outcome where
  exit : Int := 0
  out : String := ""
  err : String := ""

/-- What a round finds: the files by name, the outcomes of the tools and of asking for changed files, none where
the tool cannot be started, and the clock. -/
structure Setting where
  files : List (String × String)
  coverage : Option Outcome
  repoTime : Option Outcome
  selfCheck : Option Outcome
  changed : Option Outcome
  elapsed : Float
  now : Float

/-- What a round leaves: how it ended, what it wrote, and the line for the record of rounds. -/
structure Account where
  exit : Option Int := none
  out : String
  err : String
  checkpoint : String := ""

/-- A coverage row: a file, its statements, those missed, the percentage reached and the lines missed. -/
structure Reach where
  file : String
  statements : Int
  missed : Int
  percent : Float
  lines : List String

namespace Reach

/-- The file's name below the measured directory. -/
def shortName (file : String) : String :=
  if Text.startsWith file "/repo/" then Text.drop 6 file else file

/-- A whole number under a name; none counts as zero. -/
def count (d : Datum) (name : String) : Int :=
  (((d.get? name).bind Datum.spelling?).bind Text.int?).getD 0

/-- A measured value under a name; none counts as zero. -/
def value (d : Datum) (name : String) : Float :=
  ((d.get? name).bind Datum.value?).getD 0

def ofDatum (file : String) (d : Datum) : Reach :=
  let summary := (d.get? "summary").getD .null
  { file := shortName file
    statements := count summary "num_statements"
    missed := count summary "missing_lines"
    percent := value summary "percent_covered"
    lines := (((d.get? "missing_lines").map Datum.items).getD []).filterMap Datum.spelling? }

def numbers (statements missed : Int) (percent : Float) : String :=
  "  " ++ Text.padNumber 5 statements ++ "  " ++ Text.padNumber 4 missed ++ "  "
    ++ alignRight 5 (fixed 0 percent ++ "%")

/-- The first twelve missed lines; a mark stands for the rest. -/
def missing (r : Reach) : String :=
  Text.join "," (r.lines.take 12) ++ if 12 < r.lines.length then "…" else ""

/-- The table of all rows, the least reached first, and their total; file names are cut at sixty characters. -/
def table (rows : List Reach) (totals : Datum) : List String :=
  let rows := rows.mergeSort fun a b => a.percent ≤ b.percent
  let width := min 60 (rows.foldl (fun w r => max w r.file.length) 4)
  let rule := String.ofList (List.replicate (width + 42) '-')
  let all := count totals "num_statements"
  [Text.padText width "Name" ++ "  Stmts  Miss  Cover  Missing", rule]
    ++ rows.map (fun r => Text.padText width (Text.take width r.file)
        ++ numbers r.statements r.missed r.percent ++ "  " ++ r.missing)
    ++ [rule, Text.padText width "TOTAL"
        ++ numbers all (all - count totals "covered_lines") (value totals "percent_covered")]

end Reach

/-- The share of time below which a workload counts as low. -/
def lowShare : Float := 45

/-- The workloads' shares of time in the code, the least first; a share below zero marks one that failed. -/
def shareLines (shares : List (String × Float)) (hot : Datum) : List String :=
  let rows := shares.mergeSort fun a b => a.2 ≤ b.2
  let line := fun ((name, x) : String × Float) =>
    let failed := x < 0
    let isLow := !failed && x < lowShare
    let hottest := ((hot.get? name).map Datum.items).getD [] |>.filterMap fun pair =>
      match pair.items with
      | [x, what] => do return (← what.text?) ++ " " ++ fixed 0 (← x.value?) ++ "%"
      | _ => none
    (if isLow then "  * " else "    ") ++ Text.padText 32 name
      ++ alignRight 6 (fixed 1 (if failed then 0 else x)) ++ "%"
      ++ if failed then "  <error>"
        else if isLow && !hottest.isEmpty then " (hot: " ++ Text.join " " hottest ++ ")"
        else ""
  ["", "repo_time (target 50%; * = below 45%):"] ++ rows.map line

/-- What to do about the verdicts that need words. -/
def advice : List String := [
  "  returns-none: run() has no return — collect and return the call results",
  "  unstable: seed RNG in setup; avoid time/uuid/id in the return",
  "  returns-input: return repo output, not the parameter value",
  "  low-repo-time: <50% of run() time is in repo code — move glue to setup",
  "  param-invariant: return something derived from run()'s work, not setup",
  "  repo-modified: revert edits to repo files (git checkout -- <path>)"]

/-- The verdicts, those that ask for a change first. -/
def verdictLines (rows : List (String × Probe × Verdict)) : List String :=
  let line := fun ((name, p, v) : String × Probe × Verdict) =>
    (if v.isFine then "    " else "  * ") ++ Text.padText 32 name ++ " " ++ Text.padText 16 v.name ++ " ("
      ++ p.kind ++ ", repo " ++ fixed 0 (p.share * 100) ++ "%) " ++ fixed 1 p.time ++ "ms"
  ["", "self-check (* = fix needed):"] ++ advice
    ++ (rows.filter (!·.2.2.isFine) ++ rows.filter (·.2.2.isFine)).map line

/-- The changed files; at most ten are named. -/
def changedLines (names : List String) : List String :=
  let count := toString names.length
  ["", "** repo modified (" ++ count ++ " file(s)) — revert these; only microbench.py is yours to edit:"]
    ++ (names.take 10).map ("   " ++ ·)

/-- The workloads defined in a file, each at the start of a line. -/
def workloads (source : String) : Nat :=
  ((Text.split "\n" source).filter fun l =>
    match Text.startsWith l "def bench_", (Text.drop 10 l).toList with
    | true, c :: cs => Text.isWord c
        && ((cs.dropWhile Text.isWord).dropWhile Text.isBlank).head? == some '('
    | _, _ => false).length

/-- What a tool handed on, on the last line it wrote; a tool that wrote nothing handed on an empty table. -/
def handedOn? (o : Outcome) : Option Datum :=
  match (Text.lines (Text.trim o.out)).getLast? with
  | none => some (.table [])
  | some l => Datum.ofString? l

/-- What a tool handed on, if its file is there, and what it says on the way. -/
def consult (s : Setting) (file tool : String) (o : Option Outcome) : Datum × String :=
  if (Table.get? s.files file).isNone then (.table [], "")
  else match o with
    | none => (.table [], "[" ++ tool ++ " runner: OSError: cannot start]\n")
    | some o =>
      match handedOn? o with
      | some d => (d, o.err)
      | none =>
        (.table [], o.err ++ "[" ++ tool ++
          " runner: JSONDecodeError: Expecting value: line 1 column 1 (char 0)]\n")

/-- Whether something stands on a line. -/
def isWritten (l : String) : Bool :=
  !(Text.trim l).isEmpty

/-- A table of a record line. -/
def record (rows : List (String × String)) : String :=
  "\x7b" ++ Text.join ", " (rows.map fun (k, v) => Text.json k ++ ": " ++ v) ++ "\x7d"

/-- The report of a round whose coverage was measured by `cov` into `covered`. -/
def account (s : Setting) (cov : Outcome) (covered : Datum) : Account :=
  let totals := (covered.get? "totals").getD .null
  let reaches := (covered.under "files").map fun (f, d) => Reach.ofDatum f d
  let errors := ((covered.get? "meta").getD .null).under "_pti_bench_errors"
  let (timing, timeNotes) := consult s "_pti_repotime.py" "repotime" s.repoTime
  let (checks, checkNotes) := consult s "_pti_semcheck.py" "semcheck" s.selfCheck
  let timed := timing.under "repo_time_pct"
  let shares := timed.filterMap fun (k, v) => v.value?.map (k, ·)
  let rated := shares.filter (0 ≤ ·.2)
  let low := (rated.filter (·.2 < lowShare)).length
  let changed := ((s.changed.map fun o => (Text.lines o.out).filter isWritten).getD []).map
    (Text.drop 3)
  let verdicts := (checks.under "semcheck").filterMap fun (k, v) =>
    (Probe.ofDatum? v).map fun p => (k, p, if changed.isEmpty then p.verdict else .repoModified)
  let unfit := (verdicts.filter (!·.2.2.isFine)).length
  let past := (Text.lines ((Table.get? s.files ".pti_checkpoint.jsonl").getD "")).filter isWritten
  let since := ((past.getLast?.bind Datum.ofString?).bind fun d => (d.get? "ts").bind Datum.value?).elim 0
    (s.now - ·)
  let round := toString (past.length + 1)
  let count := workloads ((Table.get? s.files "microbench.py").getD "")
  let copied := fun name (none : String) => ((totals.get? name).bind Datum.spelling?).getD none
  let sentence := "[round " ++ round ++ ": " ++ toString count ++ " benches, "
    ++ fixed 1 (Reach.value totals "percent_covered") ++ "% covered"
    ++ (if shares.isEmpty then ""
      else ", " ++ toString low ++ "/" ++ toString rated.length ++ " below repo_time 45%")
    ++ (if verdicts.isEmpty then ""
      else ", " ++ toString unfit ++ "/" ++ toString verdicts.length ++ " not self-checking")
    ++ ", measured in " ++ fixed 1 s.elapsed ++ "s]"
  let lines := Reach.table reaches totals
    ++ (if errors.isEmpty then [] else ["", toString errors.length ++ " bench error(s):"]
      ++ (errors.take 8).map fun (k, v) => "  " ++ k ++ ": " ++ v.text?.getD "")
    ++ (if shares.isEmpty then [] else shareLines shares ((timing.get? "hot_ext").getD .null))
    ++ (if changed.isEmpty then [] else changedLines changed)
    ++ (if verdicts.isEmpty then [] else verdictLines verdicts)
    ++ ["", sentence]
    ++ (if shares.isEmpty || 0 < low then []
      else ["", ">>> STOP: repo_time converged (0 below). Finalize microbench.py now. <<<"])
  { out := Text.join "\n" lines ++ "\n"
    err := cov.err ++ timeNotes ++ checkNotes
    checkpoint := record [
      ("round", round),
      ("ts", rounded 6 s.now),
      ("wall_since_prev_s", rounded 2 since),
      ("coverage_pct", copied "percent_covered" "0.0"),
      ("covered_lines", copied "covered_lines" "0"),
      ("num_statements", copied "num_statements" "0"),
      ("n_bench_fns", toString count),
      ("n_bench_errors", toString errors.length),
      ("cov_measure_s", rounded 3 s.elapsed),
      ("repo_time_pct", record (timed.filterMap fun (k, v) => v.spelling?.map (k, ·))),
      ("n_below_repo_time", if shares.isEmpty then "null" else toString low),
      ("semcheck", record (verdicts.map fun (k, _, v) => (k, Text.json v.name))),
      ("n_not_self_checking", toString unfit)] ++ "\n" }

/-- The report of a round; none if the coverage tool cannot be started. A coverage tool that fails or leaves no
data ends the round. -/
def report? (s : Setting) : Option Account :=
  s.coverage.map fun cov =>
    match Table.get? s.files "_pti_coverage.json" with
    | some data =>
      if cov.exit == 0 then account s cov ((Datum.ofString? data).getD .null) else failed cov
    | none => failed cov
where
  failed (cov : Outcome) : Account :=
    { exit := some (if cov.exit == 0 then 1 else cov.exit)
      out := "coverage measurement failed (exit " ++ toString cov.exit ++ ")\n" ++ cov.out ++ "\n"
      err := cov.err }

end Excerpt.Round
