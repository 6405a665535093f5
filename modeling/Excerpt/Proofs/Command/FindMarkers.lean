import Excerpt.Proofs.Command.Markers

/-!
# Runs that take markers out

A run says what it finds and takes the directives out of one file after the other. The console refuses a
line that is no markup, such as the path of a file with a bracket and a slash in it, and the run stops
there. A run that comes to its end leaves the lines that are no directives. Every other byte is kept only
if all these lines end with a line feed, since this is what is written behind each of them.
-/

namespace Excerpt

open List Text RegionSet

namespace Shell

open MarkerLine

variable {f g : Folder} {p q : Path} {files : List Path} {found : Table Path (List MarkerLine)}
  {text : String} {α : Type} {t : Task Unit}

/-! ## Runs -/

/-- The shell with another output. -/
def wrote (s : Shell) (out : String) : Shell :=
  { s with output := out }

/-- The task only writes a text, or the console refuses a line of it. -/
def Quiet (t : Task Unit) : Prop :=
  (∃ text, ∀ s, t.run.run s = (.ok (), s.wrote (s.output ++ text))) ∨
    ∃ e, ∀ s, ∃ out, t.run.run s = (.error (.markup e), s.wrote out)

/-- The console takes every line of the run. -/
def Taken {α : Type} (t : Task α) (s : Shell) : Prop :=
  ∀ e, (t.run.run s).1 ≠ .error (.markup e)

section Quiet

variable {t u : Task Unit} {s : Shell}

theorem Quiet.bind (ht : Quiet t) (hu : Quiet u) : Quiet (t >>= fun _ => u) := by
  rcases ht with ⟨text, ht⟩ | ⟨e, ht⟩
  · rcases hu with ⟨more, hu⟩ | ⟨e, hu⟩
    · refine .inl ⟨text ++ more, fun s => ?_⟩
      rw [run_bind_of_ok (ht s), hu, ← String.append_assoc]
      rfl
    · refine .inr ⟨e, fun s => ?_⟩
      rw [run_bind_of_ok (ht s)]
      exact hu _
  · refine .inr ⟨e, fun s => ?_⟩
    obtain ⟨out, hout⟩ := ht s
    exact ⟨out, run_bind_of_error hout⟩

theorem Taken.bind {β : Type} {k : Unit → Task β} (h : Taken (t >>= k) s) (ht : Quiet t) :
    (∃ text, ∀ s, t.run.run s = (.ok (), s.wrote (s.output ++ text))) ∧ ∃ s', Taken (k ()) s' := by
  rcases ht with ⟨text, ht⟩ | ⟨e, ht⟩
  · unfold Taken at h
    rw [run_bind_of_ok (ht s)] at h
    exact ⟨⟨text, ht⟩, _, h⟩
  · obtain ⟨out, hout⟩ := ht s
    exact absurd (congrArg Prod.fst (run_bind_of_error hout)) (h e)

end Quiet

/-- The run takes the directives out of the files of the table, or of the first of them up to a line
that the console refuses. -/
def Clears {α : Type} (t : Task α) (s : Shell) (found : Table Path (List MarkerLine)) : Prop :=
  (∃ a out, t.run.run s = (.ok a, { s with folder := cleared s.folder found, output := out })) ∨
    ∃ e part out, part <+: found ∧
      t.run.run s = (.error (.markup e), { s with folder := cleared s.folder part, output := out })

theorem Clears.bind {t : Task α} {k : α → Task Unit} {s : Shell} (ht : Clears t s found)
    (hk : ∀ a, Quiet (k a)) : Clears (t >>= k) s found := by
  rcases ht with ⟨a, out, ht⟩ | ⟨e, part, out, hp, ht⟩
  · rcases hk a with ⟨text, hk⟩ | ⟨e, hk⟩
    · exact .inl ⟨(), _, (run_bind_of_ok ht).trans (hk _)⟩
    · obtain ⟨out', hout⟩ := hk { s with folder := cleared s.folder found, output := out }
      exact .inr ⟨e, found, out', prefix_rfl, (run_bind_of_ok ht).trans hout⟩
  · exact .inr ⟨e, part, out, hp, run_bind_of_error ht⟩

variable {o : MarkerOptions} {s : Shell} {names : String}

/-- A shell in whose repository the file of the name has changed. -/
def oneFile (name content : String) : Shell where
  folder := ⟨[(.ofString ("/v/" ++ name), Bytes.ofString content)], [], .ofString "/v"⟩
  git := .repository ⟨none, none, [], [], [("o..HEAD", name ++ "\n")], [], [], []⟩
  input := ""
  readTags := fun _ => .noSetup
  program := .ofString "/p"
  checkout := .ofString "/c"
  time := ""
  collector := none
  output := ""

/-- A directive between two lines. -/
def betweenLines : String := "int a;\r\n//@@start m\r\nint b;\r\n"

def between : Shell := oneFile "a.cpp" betweenLines

end Shell

end Excerpt
