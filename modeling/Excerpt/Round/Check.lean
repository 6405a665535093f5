import Excerpt.Round.Datum

/-!
# The self-check of a round

A workload checks itself if what it returns depends on the work it does: the same twice over, different for
different parameters, and neither nothing nor its input. The time it takes is to be long enough to measure and
spent in the code under measurement.
-/

namespace Excerpt.Round

/-- What the self-check finds of a workload. -/
inductive Verdict where
  | repoModified
  | error
  | returnsNone
  | unstable
  | returnsInput
  | lowRepoTime
  | paramInvariant
  | tooFast
  | unparameterised
  | ok
deriving Repr, DecidableEq

namespace Verdict

def name : Verdict → String
  | repoModified => "repo-modified"
  | error => "error"
  | returnsNone => "returns-none"
  | unstable => "unstable"
  | returnsInput => "returns-input"
  | lowRepoTime => "low-repo-time"
  | paramInvariant => "param-invariant"
  | tooFast => "too-fast"
  | unparameterised => "ok-unparam"
  | ok => "ok"

/-- Whether a verdict asks for no change. -/
def isFine (v : Verdict) : Bool :=
  v == ok || v == unparameterised

end Verdict

/-- What was seen of a workload: the kind of its result, the prints of results of two equal runs, those of its
parameters, those by parameter, and by run the share of time in the code and the time in milliseconds. -/
structure Probe where
  kind : String
  repeated : List String
  inputs : List String
  byParameter : List (String × String)
  shares : List Float
  times : List Float

namespace Probe

/-- The middle of some values, between the two middle ones if their number is even. -/
def median (xs : List Float) : Float :=
  let xs := xs.mergeSort (· ≤ ·)
  let n := xs.length
  let nth := fun i => (xs[i]?).getD 0
  if n == 0 then 0 else if n % 2 == 1 then nth (n / 2) else (nth (n / 2 - 1) + nth (n / 2)) / 2

def least? : List Float → Option Float
  | [] => none
  | x :: xs => some (xs.foldl (fun m y => if y < m then y else m) x)

/-- The least share of time in the code. -/
def share (p : Probe) : Float :=
  (least? p.shares).getD 0

def time (p : Probe) : Float :=
  median p.times

/-- What is read off a row of the self-check; only a table tells of a workload. -/
def ofDatum? : Datum → Option Probe
  | .table rows =>
    let d := Datum.table rows
    let texts := fun name => (((d.get? name).map Datum.items).getD []).filterMap Datum.text?
    some
      { kind := ((d.get? "ret_type").bind Datum.text?).getD "?"
        repeated := texts "fp_stable"
        inputs := texts "param_fps"
        byParameter := (d.under "fp_by_param").filterMap fun (k, v) => v.text?.map (k, ·)
        shares := (d.under "repo_frac").filterMap (·.2.value?)
        times := (d.under "repo_tt_ms").filterMap (·.2.value?) }
  | _ => none

/-- The verdict on a workload while the files under measurement are as they were. -/
def verdict (p : Probe) : Verdict :=
  if p.kind.startsWith "<" || p.kind == "?" then .error
  else if p.kind == "NoneType" then .returnsNone
  else match p.repeated with
    | a :: b :: _ =>
      if a != b then .unstable
      else if p.inputs.contains a then .returnsInput
      else if (least? p.shares).any (· < 0.5) then .lowRepoTime
      else if 2 ≤ p.byParameter.length && (p.byParameter.map (·.2)).eraseDups.length == 1 then .paramInvariant
      else if !p.times.isEmpty && p.time < 1 then .tooFast
      else if p.byParameter.isEmpty then .unparameterised
      else .ok
    | _ => .unstable

end Probe

end Excerpt.Round
