/-!
# Runs of letters

Most letters change case by a fixed distance along a run of code points, in which every letter or every second
one is of the same case.
-/

namespace Excerpt.Text

/-- A run of letters of one case: the first and last code point, the step between two of them, and the distance
to the same letters in the other case. -/
structure CaseRun where
  first : Nat
  last : Nat
  step : Nat
  distance : Int

namespace CaseRun

/-- Whether a letter belongs to a run. -/
def has (r : CaseRun) (c : Char) : Bool :=
  r.first ≤ c.toNat && c.toNat ≤ r.last && (c.toNat - r.first) % r.step == 0

/-- The letter in the other case, if one of the runs has it. -/
def shift (runs : List CaseRun) (c : Char) : Char :=
  match runs.find? (·.has c) with
  | some r => Char.ofNat ((c.toNat : Int) + r.distance).toNat
  | none => c

end CaseRun

end Excerpt.Text
