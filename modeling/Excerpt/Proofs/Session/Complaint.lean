import Excerpt.Proofs.Session.Omission
import Excerpt.Template.Render

/-!
# Citations that complain

A citation that cannot be shown is written as a complaint. Most of what can go
wrong goes wrong while the passage is looked for, and then the regions are as they
were. One thing goes wrong later: a header without a link names the file from the
repository, and a file elsewhere has no such name. By then the lines of the
passage have been taken out of the regions, and they are not put back.

Two kinds of citation do not even complain: one whose path is no text, and one
whose file is to be collected and cannot be copied.
-/

namespace Excerpt

open Option Outcome

namespace Citation

/-- What every complaint starts with. -/
def mark : String := "❌ **ERROR**: "

end Citation

namespace Session

variable {ε : Type} {s s' t : Session} {c : Citation} {f : Failure} {passage : Passage}

instance (s : Session) (c : Citation) : Decidable (s.Headed c) :=
  inferInstanceAs (Decidable (_ ∨ _))

/-- What is wrong with a citation. -/
def objection (s : Session) (c : Citation) : Option Failure :=
  match s.found c with
  | .error f => some f
  | .ok _ =>
    if s.Headed c then none
    else some (.notBelow (s.locate c.path).toString s.repo.toString)

/-- Why the file of a citation that failed cannot be collected. -/
def uncollected (s : Session) (p : Path) (f : Failure) : Option Failure :=
  if isRefusal f then none
  else s.collector.bind fun k => (k.collect s.folder p f.message none).2.2

/-- What answering a citation does: `answer` is given, and the session becomes `t`. -/
structure Cited (s : Session) (c : Citation) (answer : Except Failure String) (t : Session) :
    Prop where
  repo : t.repo = s.repo
  folder : s.collector = none → t.folder = s.folder
  collector : s.collector = none → t.collector = none
  /-- Where no passage is found, the regions stay as they are. -/
  regions_of_error : ∀ {f}, s.found c = .error f → t.regions = s.regions
  /-- A passage that is found is taken out of the regions, whatever happens next. -/
  regions_of_found : ∀ {passage : Passage}, s.found c = .ok passage →
    t.regions = s.regions.map (·.subtract (s.locate c.path) passage.first passage.last)
  shown : s.objection c = none →
    ∃ block : String, answer = .ok block ∧ block.toList.head? = some '📍'
  refused : ∀ {f}, s.objection c = some f →
    answer = match s.uncollected (s.locate c.path) f with
      | some e => .error e
      | none => .ok (Citation.complaint f)

section Answer

variable {answer : Except Failure String} {text : String}

end Answer

theorem Cited.regions_eq_iff {answer : Except Failure String} {r : RegionSet}
    (h : Cited s c answer t) (hf : s.found c = .ok passage) (hre : s.regions = some r)
    (hr : r.WellFormed) : t.regions = s.regions ↔ ∀ n, r.covers (s.locate c.path) n → ¬ passage.Spans n := by
  rw [h.regions_of_found hf, hre, map_some, some.injEq, RegionSet.subtract_eq_self_iff hr]
  rfl

end Session

namespace Citation

variable {a : Arguments} {bound : Table String Value}

end Citation

namespace Template

open Session (Work)

variable {s t : Session} {a : Arguments} {bound : Table String Value}

theorem run_citing {α : Type} {w : Work Failure α} {answer : Except Failure α}
    (h : w.run.run s = (answer, t)) : (citing w).run.run s = (answer.mapError .failed, t) := by
  change Prod.map (Except.mapError RenderError.failed) id (w.run.run s) = _
  rw [h]
  rfl

end Template

end Excerpt
