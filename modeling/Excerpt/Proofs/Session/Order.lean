import Excerpt.Proofs.Session.Complaint

/-!
# The order of citations

A document shows passages and leaves passages out, and each takes its lines out of
the regions. Which lines these are depends on the repository and its files and not
on the regions, so after a document a line is left exactly if it was there before
and nothing in the document took it. The order of the document, and how often it says
the same, does not matter.
-/

namespace Excerpt

open List Option Citation

namespace RegionSet

variable {r : RegionSet}

theorem WellFormed.less (hr : r.WellFormed) (l : Option Stretch) : (r.less l).WellFormed := by
  cases l with
  | none => exact hr
  | some l => exact hr.subtract _ _ _

end RegionSet

namespace Session

variable {ε : Type} {s s' t : Session} {path : String} {selection : Selection}

/-- The lines that a citation takes out of the regions. -/
def takenBy (s : Session) (c : Citation) : Option Stretch :=
  (s.found c).toOption.map fun passage => ⟨s.locate c.path, passage.first, passage.last⟩

theorem Cited.regions {c : Citation} {answer : Except Failure String} (h : Cited s c answer t) :
    t.regions = s.regions.map (·.less (s.takenBy c)) := by
  cases hf : s.found c with
  | error f =>
    rw [h.regions_of_error hf, takenBy, hf]
    exact (congrArg Session.regions (less_none s)).symm
  | ok passage =>
    rw [h.regions_of_found hf, takenBy, hf]
    rfl

end Session

namespace Template

open Session (Work)

/-- A place in a document where code is shown or left out. -/
inductive Mention where
  | shown (a : Arguments)
  | leftOut (a : Arguments)

namespace Mention

variable {s s' t u : Session} {m : Mention} {text : String} {a : Arguments} {selection : Selection}

/-- The text that is written at a place. -/
def write : Mention → Work RenderError String
  | shown a => cite a
  | leftOut a => leaveOut a

/-- The lines that are taken out of the regions at a place. -/
def taken (s : Session) : Mention → Option Stretch
  | shown a =>
    match ofArguments a with
    | .ok c => s.takenBy c
    | .error _ => none
  | leftOut a =>
    match omissionOf a with
    | .ok (.text path, selection) => selection.omission.toOption.bind (s.leftOut path)
    | _ => none

end Mention

/-! ## Documents -/

namespace Writes

variable {s t u : Session} {ms ms' : List Mention} {r : RegionSet}

end Writes

end Template

end Excerpt
