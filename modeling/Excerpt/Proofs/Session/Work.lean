import Excerpt.Proofs.Except
import Excerpt.Proofs.Git.Reference
import Excerpt.Session
import Mathlib.Tactic.Basic

/-!
# Runs of work

Work on a session is a chain of steps, each of which succeeds or ends the work.
Most steps only ask about the repository or make notes. Showing a passage has one
step that does more: it takes the lines of the passage out of the regions, and what
is shown after it does not depend on the regions. So a run that shows code is
described by the passage that it found.
-/

namespace Excerpt

open Excerpt.Language Outcome

namespace Citation

theorem head_append {text : String} {c : Char} (h : text.toList.head? = some c) (more : String) :
    (text ++ more).toList.head? = some c := by
  rw [String.toList_append, List.head?_append, h, Option.some_or]

end Citation

namespace Hub

theorem head_plain (file : String) (first last : Option Int) :
    (plain file first last).toList.head? = some '📍' := by
  iterate 2 refine Citation.head_append ?_ _
  decide

theorem head_linked (file page : String) (showOld : Bool) (first last oldFirst oldLast : Option Int) :
    (linked file page showOld first last oldFirst oldLast).toList.head? = some '📍' := by
  iterate 7 refine Citation.head_append ?_ _
  decide

theorem head_reference (g : Git) (p : Path) (first last : Option Int) (showOld : Bool) (h : Hub) :
    ((reference g p first last showOld).run h).1.toList.head? = some '📍' := by
  unfold reference
  rw [StateT.run_bind, StateT.run_get, pure_bind, StateT.run_bind]
  obtain ⟨site, h'⟩ := (askSite g).run h
  generalize committedLine? g p first = m, committedLine? g p _ = m'
  change (StateT.run (_ : StateM Hub String) h').1.toList.head? = _
  cases site.blob? with
  | none => exact head_plain _ _ _
  | some page => exact head_linked _ _ _ _ _ _ _

end Hub

namespace Session

variable {ε α β : Type} {m : Work ε α} {f : α → Work ε β} {s t s' : Session} {p : Path}
  {c : Citation} {block : String}

theorem run_lift (x : Except ε α) : (liftM x : Work ε α).run.run s = (x, s) := rfl

/-- The session with lines of a file taken out of the regions. -/
def without (s : Session) (p : Path) (first last : Int) : Session :=
  { s with regions := s.regions.map (·.subtract p first last) }

theorem run_cover (p : Path) (first last : Int) :
    (cover p first last : Work ε Unit).run.run s = (.ok (), s.without p first last) := rfl

/-- The session `t` is `s` but for what is known about the repository and the notes. -/
structure Keeps (s t : Session) : Prop where
  repo : t.repo = s.repo
  remap : t.remap = s.remap
  git : t.git = s.git
  folder : t.folder = s.folder
  regions : t.regions = s.regions
  collector : t.collector = s.collector
  readTags : t.readTags = s.readTags
  tags : t.tags = s.tags
  filters : t.filters = s.filters

theorem Keeps.refl (s : Session) : Keeps s s :=
  ⟨rfl, rfl, rfl, rfl, rfl, rfl, rfl, rfl, rfl⟩

theorem Keeps.of_hub (s : Session) (hub : Hub) : Keeps s { s with hub := hub } :=
  ⟨rfl, rfl, rfl, rfl, rfl, rfl, rfl, rfl, rfl⟩

theorem Keeps.of_notes (s : Session) (notes : List Note) : Keeps s { s with notes := notes } :=
  ⟨rfl, rfl, rfl, rfl, rfl, rfl, rfl, rfl, rfl⟩

theorem Keeps.trans (h : Keeps s t) (h' : Keeps t s') : Keeps s s' where
  repo := h'.repo.trans h.repo
  remap := h'.remap.trans h.remap
  git := h'.git.trans h.git
  folder := h'.folder.trans h.folder
  regions := h'.regions.trans h.regions
  collector := h'.collector.trans h.collector
  readTags := h'.readTags.trans h.readTags
  tags := h'.tags.trans h.tags
  filters := h'.filters.trans h.filters

theorem Keeps.without (h : Keeps s t) (p : Path) (first last : Int) :
    Keeps (s.without p first last) (t.without p first last) := by
  refine { h with regions := ?_ }
  rw [Session.without, Session.without, h.regions]

theorem Keeps.regions_of_without {r : RegionSet} {first last : Int}
    (h : Keeps (s.without p first last) t) (hr : s.regions = some r) :
    t.regions = some (r.subtract p first last) := by
  rw [h.regions, Session.without, hr, Option.map_some]

/-! ## Steps of a run -/

/-- A passage as a citation shows it, from line number `first` on. -/
def displayed (g : Git) (c : Citation) (p : Path) (code : String) (first : Int) : String :=
  if c.blame then Hub.blamed g p code first
  else if c.numbered then Citation.withNumbers code first
  else code

/-- The number that a line is shown under. -/
def numberOf (s : Session) (p : Path) (line : Int) : Int :=
  if s.remap then Hub.mapped s.git s.hub p line else line

/-- The passage that a request finds in a file. -/
def sought (s : Session) (path : String) (request : Except Failure Request) :
    Except Failure Passage := do
  let language ← ofPath (s.locate path)
  let request ← request
  ((Source.ofFolder s.folder (s.locate path)).extract language request).outcome

def found (s : Session) (c : Citation) : Except Failure Passage :=
  s.sought c.path (c.selection.request c.path)

/-- A header of the citation can be had: it is a link, or the file lies in the repository. -/
def Headed (s : Session) (c : Citation) : Prop :=
  c.link = true ∨ Hub.relative? s.repo (s.locate c.path) ≠ none

theorem exists_run_passage (s : Session) (path : String) (request : Except Failure Request) :
    ∃ notes, (passage (s.locate path) request).run.run s =
      (s.sought path request, { s with notes := notes }) := by
  unfold passage sought
  cases ofPath (s.locate path) with
  | error f => exact ⟨s.notes, rfl⟩
  | ok language =>
    cases request with
    | error f => exact ⟨s.notes, rfl⟩
    | ok request => exact ⟨_, rfl⟩

theorem exists_run_shownLine (p : Path) (line : Int) (s : Session) :
    ∃ t, Keeps s t ∧ (shownLine p line : Work ε Int).run.run s = (.ok (s.numberOf p line), t) := by
  unfold shownLine numberOf
  rw [run_bind_of_ok run_get]
  split
  · obtain ⟨hub, hrun, -⟩ := Hub.exists_run_committedLine s.git p s.hub line
    have hask : (askHub (Hub.committedLine s.git p line) : Work ε Int).run.run s = (.ok ((Hub.committedLine
        s.git p line).run s.hub).1, { s with hub := ((Hub.committedLine s.git p line).run s.hub).2 }) := rfl
    exact ⟨_, Keeps.of_hub s hub, by rw [hask, hrun]⟩
  · exact ⟨s, Keeps.refl s, rfl⟩

theorem exists_run_noteBlame (p : Path) (first last : Int) (s : Session) :
    ∃ t, Keeps s t ∧ (noteBlame p first last : Work ε Unit).run.run s = (.ok (), t) := by
  unfold noteBlame
  rw [run_bind_of_ok run_get]
  split
  · exact ⟨s, Keeps.refl s, rfl⟩
  · exact ⟨_, Keeps.of_notes s _, rfl⟩
  · exact ⟨_, Keeps.of_notes s _, rfl⟩

theorem exists_run_decorated (c : Citation) (p : Path) (code : String) (first : Int) (s : Session) :
    ∃ t, Keeps s t ∧ (decorated c p code first : Work ε String).run.run s =
      (.ok (displayed s.git c p code first), t) := by
  unfold decorated displayed
  split
  · obtain ⟨t, hk, ht⟩ := exists_run_noteBlame p first _ s
    refine ⟨t, hk, ?_⟩
    rw [run_bind_of_ok ht, run_bind_of_ok run_get, hk.git]
    rfl
  · split
    · exact ⟨s, Keeps.refl s, rfl⟩
    · exact ⟨s, Keeps.refl s, rfl⟩

theorem exists_run_noteSite (s : Session) :
    ∃ t, Keeps s t ∧ (noteSite : Work ε Unit).run.run s = (.ok (), t) := by
  unfold noteSite
  rw [run_bind_of_ok run_get]
  split
  · split
    · exact ⟨_, Keeps.of_notes s _, rfl⟩
    · exact ⟨s, Keeps.refl s, rfl⟩
  · exact ⟨s, Keeps.refl s, rfl⟩

/-- A header can be had of every file if it is a link, and else of a file in the repository. -/
theorem exists_run_header {link : Bool} (first last a b : Int)
    (h : link = true ∨ Hub.relative? s.repo p ≠ none) :
    ∃ (text : String) (t : Session), Keeps s t ∧ text.toList.head? = some '📍' ∧
      (header link p first last a b).run.run s = (.ok text, t) := by
  unfold header
  rw [run_bind_of_ok run_get]
  split
  · obtain ⟨t, hk, ht⟩ := exists_run_noteSite s
    rw [run_bind_of_ok ht]
    exact ⟨_, _, hk.trans (Keeps.of_hub t _), Hub.head_reference _ _ _ _ _ _, rfl⟩
  · next hl =>
      split
      · next hn => exact absurd hn (h.resolve_left hl)
      · refine ⟨_, _, Keeps.refl s, ?_, rfl⟩
        iterate 2 refine Citation.head_append ?_ _
        decide

/-! ## Showing a passage -/

/-- A citation that finds no passage fails with what was wrong, and keeps the regions. -/
theorem exists_run_shown_of_error {f : Failure} (h : s.found c = .error f) :
    ∃ t, Keeps s t ∧ (shown c).run.run s = (.error f, t) := by
  obtain ⟨notes, hrun⟩ := exists_run_passage s c.path (c.selection.request c.path)
  refine ⟨_, Keeps.of_notes s notes, ?_⟩
  unfold shown
  rw [run_bind_of_ok run_get]
  exact run_bind_of_error (hrun.trans (by rw [← found, h]))

/-- A citation that finds a passage takes its lines out of the regions, whether or not a
header can be had. If so, the passage is shown below it. -/
theorem exists_run_shown_of_found {passage : Passage} (h : s.found c = .ok passage) :
    ∃ t, Keeps (s.without (s.locate c.path) passage.first passage.last) t ∧
      ((∃ header : String, s.Headed c ∧ header.toList.head? = some '📍' ∧
          (shown c).run.run s = (.ok (Citation.block header (c.languageName (s.locate c.path))
            (displayed s.git c (s.locate c.path) passage.text
              (s.numberOf (s.locate c.path) passage.first))), t)) ∨ ¬ s.Headed c ∧ (shown c).run.run s =
          (.error (.notBelow (s.locate c.path).toString s.repo.toString), t)) := by
  obtain ⟨notes, hp⟩ := exists_run_passage s c.path (c.selection.request c.path)
  rw [← found, h] at hp
  have hc := (Keeps.of_notes s notes).without (s.locate c.path) passage.first passage.last
  obtain ⟨t₁, hk, ha⟩ := exists_run_shownLine (ε := Failure) (s.locate c.path) passage.first
    ({ s with notes := notes }.without (s.locate c.path) passage.first passage.last)
  change _ = (Except.ok (s.numberOf (s.locate c.path) passage.first), t₁) at ha
  replace hk := hc.trans hk
  obtain ⟨t₂, hk', hb⟩ := exists_run_shownLine (ε := Failure) (s.locate c.path) passage.last t₁
  replace hk := hk.trans hk'
  have hre : t₂.repo = s.repo := hk.repo
  unfold shown
  rw [run_bind_of_ok run_get, run_bind_of_ok hp, run_bind_of_ok (run_cover _ _ _),
    run_bind_of_ok ha, run_bind_of_ok hb]
  by_cases hh : s.Headed c
  · obtain ⟨text, t₃, hk₃, hhe, ht⟩ := exists_run_header passage.first passage.last
      (s.numberOf (s.locate c.path) passage.first) (t₁.numberOf (s.locate c.path) passage.last) (s := t₂)
      (hh.imp_right fun hr => hre ▸ hr)
    replace hk := hk.trans hk₃
    obtain ⟨t₄, hk₄, hco⟩ := exists_run_decorated (ε := Failure) c (s.locate c.path) passage.text
      (s.numberOf (s.locate c.path) passage.first) t₃
    refine ⟨t₄, hk.trans hk₄, .inl ⟨text, hh, hhe, ?_⟩⟩
    rw [hk.git] at hco
    rw [run_bind_of_ok ht, run_bind_of_ok hco]
    rfl
  · obtain ⟨hl, hr⟩ := not_or.1 hh
    refine ⟨t₂, hk, .inr ⟨hh, run_bind_of_error ?_⟩⟩
    unfold header
    rw [run_bind_of_ok run_get, if_neg hl, hre, not_not.1 hr]
    rfl

/-- A run that shows code: the passage that was asked for was found, its lines were
taken out of the regions, and it is shown below a header. -/
theorem exists_of_shown (h : (shown c).run.run s = (.ok block, s')) : ∃ language request found header,
      ofPath (s.locate c.path) = .ok language ∧ c.selection.request c.path = .ok request ∧
      ((Source.ofFolder s.folder (s.locate c.path)).extract language request).outcome = .ok found ∧
      s.Headed c ∧ Keeps (s.without (s.locate c.path) found.first found.last) s' ∧
      block = Citation.block header (c.languageName (s.locate c.path))
        (displayed s.git c (s.locate c.path) found.text (s.numberOf (s.locate c.path) found.first)) := by
  cases hf : s.found c with
  | error f =>
    obtain ⟨t, -, hrun⟩ := exists_run_shown_of_error hf
    cases hrun.symm.trans h
  | ok passage =>
    obtain ⟨language, hl, hex⟩ := bind_eq_ok.1 hf
    obtain ⟨request, hr, hex⟩ := bind_eq_ok.1 hex
    obtain ⟨t, hk, ⟨header, hh, -, hrun⟩ | ⟨-, hrun⟩⟩ := exists_run_shown_of_found hf
    · cases hrun.symm.trans h
      exact ⟨language, request, passage, header, hl, hr, hex, hh, hk, rfl⟩
    · cases hrun.symm.trans h

/-- What is found is shown, if a header can be had of its file. -/
theorem exists_run_shown {language : Language} {request : Request} {found : Passage}
    (hl : ofPath (s.locate c.path) = .ok language)
    (hr : c.selection.request c.path = .ok request)
    (hf : ((Source.ofFolder s.folder (s.locate c.path)).extract language request).outcome =
      .ok found) (h : s.Headed c) :
    ∃ header s', (shown c).run.run s = (.ok (Citation.block header (c.languageName (s.locate c.path))
      (displayed s.git c (s.locate c.path) found.text (s.numberOf (s.locate c.path) found.first))), s') := by
  obtain ⟨t, -, ⟨header, -, -, hrun⟩ | ⟨hnot, -⟩⟩ :=
    exists_run_shown_of_found (bind_eq_ok.2 ⟨language, hl, bind_eq_ok.2 ⟨request, hr, hf⟩⟩)
  · exact ⟨header, t, hrun⟩
  · exact absurd h hnot

theorem run_cite_of_ok (h : (shown c).run.run s = (.ok block, s')) :
    (cite c).run.run s = (.ok block, s') := by
  unfold cite
  rw [ExceptT.run_tryCatch, StateT.run_bind, h]
  rfl

end Session

end Excerpt
