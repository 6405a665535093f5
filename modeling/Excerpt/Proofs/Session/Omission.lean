import Excerpt.Proofs.Passage
import Excerpt.Proofs.Region.Edit
import Excerpt.Proofs.Session.Work

/-!
# Leaving out and showing

What a document leaves out is looked for by the same selectors as what it shows,
and both take the lines that they find out of the regions. The two agree on all
selections but those of a section within a definition: such a section is shown
alone, but it is left out with the definition around it.
-/

namespace Excerpt

open Excerpt.Language

namespace Request

variable {request : Request}

/-- What is asked for when what a request asks for is left out: a section of a definition is not
told apart from the definition. -/
def whole : Request → Request
  | functionSection name _ => function name
  | overload name none => function name
  | macroSection spec _ => macroUse spec
  | recordSection kind name _ => record kind name
  | request => request

/-- Whether a section of a C++ definition is asked for. -/
def isSection : Request → Bool
  | functionSection _ _ => true
  | macroSection _ _ => true
  | recordSection _ _ _ => true
  | _ => false

theorem whole_ne_lines (h : request.isSection) (first last : Int) :
    request.whole ≠ lines first last := by
  cases request with
  | functionSection name marker => simp [whole]
  | macroSection spec marker => simp [whole]
  | recordSection kind name marker => simp [whole]
  | _ => cases h

theorem extract_whole {source : Source} {language : Language}
    {found : Passage} (h : request.isSection = false)
    (hf : (source.extract language request).outcome = .ok found) :
    (source.extract language request.whole).outcome = .ok found := by
  cases request with
  | functionSection name marker => cases h
  | macroSection spec marker => cases h
  | recordSection kind name marker => cases h
  | overload name part =>
    cases part with
    | some part => exact hf
    | none =>
      cases language with
      | cpp => exact hf
      | proto => cases hf
      | plain => cases hf
  | _ => exact hf

end Request

namespace Selection

/-- Only such things are selected as can be left out too. -/
structure Shared (s : Selection) : Prop where
  signature : s.signature = none
  message : s.message = none
  enum : s.enum = none
  service : s.service = none

/-- A marker is given together with a definition that counts. -/
def Divided (s : Selection) : Prop :=
  s.marker ≠ none ∧ (s.function ≠ none ∨ s.macroUse ≠ none ∨
    s.macroDefinition = none ∧ (s.record ≠ none ∨ s.value ≠ none))

variable {selection : Selection} {path : String} {request : Request}

/-- Leaving out asks for the whole of what showing asks for, which is something else for
divided selections only. -/
theorem omission_of_request (hsh : selection.Shared) (h : selection.request path = .ok request) :
    selection.omission = .ok (some request.whole) ∧ (request.isSection ↔ selection.Divided) := by
  obtain ⟨function, record, value, macroUse, macroDefinition, lines, marker, signature, message,
    enum, service⟩ := selection
  obtain ⟨hs, hm, hen, hse⟩ := hsh
  subst hs hm hen hse
  -- the selectors in the order in which they count
  cases function with
  | some name =>
    cases marker <;> cases h
    all_goals exact ⟨rfl, by simp [Request.isSection, Divided]⟩
  | none =>
  cases macroUse with
  | some v =>
    obtain ⟨spec, hsp, h⟩ := Outcome.bind_eq_ok.1 h
    unfold omission
    dsimp only
    rw [hsp]
    cases marker <;> cases h
    all_goals exact ⟨rfl, by simp [Request.isSection, Divided]⟩
  | none =>
  cases macroDefinition with
  | some name =>
    cases h
    exact ⟨rfl, by simp [Request.isSection, Divided]⟩
  | none =>
  cases record with
  | some name =>
    cases marker <;> cases h
    all_goals exact ⟨rfl, by simp [request.named, Request.isSection, Divided]⟩
  | none =>
  cases value with
  | some name =>
    cases marker <;> cases h
    all_goals exact ⟨rfl, by simp [request.named, Request.isSection, Divided]⟩
  | none =>
  cases marker with
  | some marker =>
    cases h
    exact ⟨rfl, by simp [Request.isSection, Divided]⟩
  | none =>
  cases lines with
  | some v =>
    obtain ⟨⟨first, last⟩, hends, h⟩ := Outcome.bind_eq_ok.1 h
    cases h
    unfold omission
    dsimp only
    rw [hends]
    exact ⟨rfl, by simp [Request.isSection, Divided]⟩
  | none => cases h

/-- The marker of a divided selection is not looked at when it is left out. -/
theorem omission_of_divided (h : selection.Divided) :
    { selection with marker := none : Selection }.omission = selection.omission := by
  obtain ⟨function, record, value, macroUse, macroDefinition, lines, marker, signature, message,
    enum, service⟩ := selection
  cases function with
  | some name => rfl
  | none =>
  cases macroUse with
  | some v => rfl
  | none =>
  cases macroDefinition with
  | some name => rfl
  | none =>
  cases record with
  | some name => rfl
  | none =>
  cases value with
  | some name => rfl
  | none => simp [Divided] at h

end Selection

/-- Lines of a file. -/
structure Stretch where
  path : Path
  first : Int
  last : Int

/-- The line of number `n` of the file at `p` lies in the stretch. -/
def Stretch.Holds (l : Stretch) (p : Path) (n : Int) : Prop :=
  p = l.path ∧ min l.first l.last ≤ n ∧ n ≤ max l.first l.last

/-- The line of number `n` lies between the ends of a passage. -/
def Passage.Spans (found : Passage) (n : Int) : Prop :=
  min found.first found.last ≤ n ∧ n ≤ max found.first found.last

namespace RegionSet

/-- A region set without a stretch, if there is one. -/
def less (r : RegionSet) : Option Stretch → RegionSet
  | none => r
  | some l => r.subtract l.path l.first l.last

variable {r : RegionSet}

theorem regions_subtract_eq_iff (hr : r.WellFormed) (p : Path) (found whole : Passage) :
    (r.subtract p found.first found.last).regions = (r.subtract p whole.first whole.last).regions ↔
      ∀ n, r.covers p n → (found.Spans n ↔ whole.Spans n) := by
  rw [regions_eq_iff (hr.subtract _ _ _) (hr.subtract _ _ _)]
  simp only [covers_subtract hr, ← Passage.Spans.eq_def]
  constructor
  · intro h n hn
    simpa [hn, not_iff_not] using h p n
  · intro h q n
    refine and_congr_right fun hq => not_congr (and_congr_right ?_)
    rintro rfl
    exact h n hq

theorem regions_subtract_eq_self_iff (hr : r.WellFormed) (p : Path) (found : Passage) :
    (r.subtract p found.first found.last).regions = r.regions ↔ ∀ n, r.covers p n → ¬ found.Spans n := by
  rw [regions_eq_iff (hr.subtract _ _ _) hr]
  simp only [covers_subtract hr, ← Passage.Spans.eq_def, and_iff_left_iff_imp, not_and]
  constructor
  · intro h n hn
    exact h p n hn rfl
  · rintro h q n hq rfl
    exact h n hq

end RegionSet

namespace Session

variable {ε : Type} {s s' t : Session} {p : Path} {path : String} {selection : Selection}
  {language : Language} {request : Request} {found : Passage} {r : RegionSet} {first last : Int}

/-- The session with a stretch taken out of the regions, if there is one. -/
def less (s : Session) (l : Option Stretch) : Session :=
  { s with regions := s.regions.map (·.less l) }

theorem less_none (s : Session) : s.less none = s := by
  have hid : (fun r : RegionSet => r.less none) = id := rfl
  rw [less, hid, Option.map_id]
  rfl

/-- The lines that are left out. Lines that are given are not looked for in the file. -/
def leftOut (s : Session) (path : String) : Option Request → Option Stretch
  | none => some ⟨s.locate path, 1, lastLine⟩
  | some (.lines first last) =>
    (ofPath (s.locate path)).toOption.map fun _ => ⟨s.locate path, first, last⟩
  | some request =>
    (s.sought path (.ok request)).toOption.map fun passage =>
      ⟨s.locate path, passage.first, passage.last⟩

theorem run_omitted_of_lines (hl : ofPath (s.locate path) = .ok language)
    (ho : selection.omission = .ok (some (.lines first last))) :
    (omitted path selection).run.run s = (.ok (), s.without (s.locate path) first last) := by
  unfold omitted
  rw [run_bind_of_ok run_get, ho]
  exact run_bind_of_ok ((run_lift _).trans (by rw [hl]))

theorem run_omitted_of_ne_lines (ho : selection.omission = .ok (some request))
    (hne : ∀ first last, request ≠ .lines first last) : (omitted path selection).run.run s =
      (passage (s.locate path) (.ok request) >>= fun found =>
        cover (s.locate path) found.first found.last).run.run s := by
  unfold omitted
  rw [run_bind_of_ok run_get, ho]
  split
  · next h => cases h
  · next first last h =>
      cases h
      exact absurd rfl (hne first last)
  · next h =>
      cases h
      rfl
  · next h => cases h

theorem run_leaveOut_of_ok (hr : s.regions = some r)
    (h : (omitted path selection).run.run s = (.ok (), t)) :
    (leaveOut path selection : Work ε String).run.run s = (.ok "", t) := by
  unfold leaveOut
  rw [run_bind_of_ok run_get, hr]
  simp only [Option.isSome_some, if_true]
  rw [run_bind_of_ok run_get]
  simp only [h]
  rfl

theorem exists_run_leaveOut_of_error {f : Failure} (hr : s.regions = some r)
    (h : (omitted path selection).run.run s = (.error f, t)) :
    ∃ t', (leaveOut path selection : Work ε String).run.run s = (.ok "", t') ∧ Keeps t t' := by
  unfold leaveOut
  rw [run_bind_of_ok run_get, hr]
  simp only [Option.isSome_some, if_true]
  rw [run_bind_of_ok run_get]
  simp only [h]
  exact ⟨_, rfl, Keeps.of_notes t _⟩

theorem leftOut_of_lines (s : Session) (path : String) (first last : Int) :
    s.leftOut path (some (.lines first last)) =
      (ofPath (s.locate path)).toOption.map fun _ => ⟨s.locate path, first, last⟩ :=
  rfl

theorem leftOut_of_ne_lines (h : ∀ first last, request ≠ .lines first last) :
    s.leftOut path (some request) = (s.sought path (.ok request)).toOption.map fun passage =>
      ⟨s.locate path, passage.first, passage.last⟩ := by
  cases request with
  | lines first last => exact absurd rfl (h first last)
  | _ => rfl

theorem keeps_less_none (h : Keeps s t) : Keeps (s.less none) t := by
  rwa [less_none]

theorem exists_run_omitted_of_lines (s : Session) (path : String)
    (h : selection.omission = .ok (some (.lines first last))) :
    ∃ answer t, Keeps (s.less (s.leftOut path (some (.lines first last)))) t ∧
      (omitted path selection).run.run s = (answer, t) := by
  cases hl : ofPath (s.locate path) with
  | ok language =>
    refine ⟨_, _, ?_, run_omitted_of_lines hl h⟩
    rw [leftOut_of_lines, hl]
    exact Keeps.refl _
  | error f =>
    refine ⟨.error f, s, ?_, ?_⟩
    · rw [leftOut_of_lines, hl]
      exact keeps_less_none (Keeps.refl s)
    · unfold omitted
      rw [run_bind_of_ok run_get, h]
      exact run_bind_of_error ((run_lift _).trans (by rw [hl]))

theorem exists_run_omitted_of_ne_lines (s : Session) (path : String)
    (h : selection.omission = .ok (some request)) (hne : ∀ first last, request ≠ .lines first last) :
    ∃ answer t, Keeps (s.less (s.leftOut path (some request))) t ∧
      (omitted path selection).run.run s = (answer, t) := by
  obtain ⟨notes, hp⟩ := exists_run_passage s path (.ok request)
  have hk := Keeps.of_notes s notes
  rw [leftOut_of_ne_lines hne, run_omitted_of_ne_lines h hne]
  cases hf : s.sought path (.ok request) with
  | ok found =>
    rw [hf] at hp
    exact ⟨_, _, hk.without _ _ _, run_bind_of_ok hp⟩
  | error f =>
    rw [hf] at hp
    exact ⟨_, _, keeps_less_none hk, run_bind_of_error hp⟩

/-- An omission takes its lines out of the regions, if it finds them. -/
theorem exists_run_omitted (s : Session) (path : String) (selection : Selection) :
    ∃ answer t, Keeps (s.less (selection.omission.toOption.bind (s.leftOut path))) t ∧
      (omitted path selection).run.run s = (answer, t) := by
  cases ho : selection.omission with
  | error f =>
    refine ⟨((ofPath (s.locate path)).bind fun _ => .error f), s, keeps_less_none (Keeps.refl s), ?_⟩
    unfold omitted
    rw [run_bind_of_ok run_get, ho]
    cases hl : ofPath (s.locate path) with
    | error f' => exact run_bind_of_error ((run_lift _).trans (by rw [hl]))
    | ok language => exact run_bind_of_ok ((run_lift _).trans (by rw [hl]))
  | ok request =>
    cases request with
    | none =>
      refine ⟨.ok (), _, Keeps.refl _, ?_⟩
      unfold omitted
      rw [run_bind_of_ok run_get, ho]
      rfl
    | some request =>
      change ∃ answer t, Keeps (s.less (s.leftOut path (some request))) t ∧ _
      by_cases hli : ∃ first last, request = .lines first last
      · obtain ⟨first, last, rfl⟩ := hli
        exact exists_run_omitted_of_lines s path ho
      · refine exists_run_omitted_of_ne_lines s path ho ?_
        intro first last heq
        exact hli ⟨first, last, heq⟩

/-- Leaving out never fails, and takes the lines that it finds out of the regions. -/
theorem exists_run_leaveOut_less (ε : Type) (s : Session) (path : String) (selection : Selection) :
    ∃ t, Keeps (s.less (selection.omission.toOption.bind (s.leftOut path))) t ∧
      (leaveOut path selection : Work ε String).run.run s = (.ok "", t) := by
  cases hr : s.regions with
  | none =>
    refine ⟨s, { Keeps.refl s with regions := ?_ }, ?_⟩
    · rw [less, hr]
      rfl
    · unfold leaveOut
      rw [run_bind_of_ok run_get, hr]
      rfl
  | some r =>
    obtain ⟨answer, t, hk, ho⟩ := exists_run_omitted s path selection
    cases answer with
    | ok _ => exact ⟨t, hk, run_leaveOut_of_ok hr ho⟩
    | error f =>
      obtain ⟨t', ht', hk'⟩ := exists_run_leaveOut_of_error hr ho
      exact ⟨t', hk.trans hk', ht'⟩

/-- Leaving out covers the lines of the passage that it looks for, if there is one. -/
theorem exists_run_leaveOut (ε : Type) (hr : s.regions = some r)
    (hl : ofPath (s.locate path) = .ok language)
    (ho : selection.omission = .ok (some request)) :
    ∃ t, (leaveOut path selection : Work ε String).run.run s = (.ok "", t) ∧
      (∀ found, ((Source.ofFolder s.folder (s.locate path)).extract language request).outcome =
          .ok found → t.regions = some (r.subtract (s.locate path) found.first found.last)) ∧
      (∀ f, ((Source.ofFolder s.folder (s.locate path)).extract language request).outcome =
          .error f → (∀ first last, request ≠ .lines first last) → t.regions = some r) := by
  obtain ⟨t, hk, hrun⟩ := exists_run_leaveOut_less ε s path selection
  have ht := hk.regions
  rw [ho, less, hr] at ht
  have hs : s.sought path (.ok request) =
      ((Source.ofFolder s.folder (s.locate path)).extract language request).outcome := by
    rw [sought, hl]
    rfl
  refine ⟨t, hrun, fun found hfo => ht.trans ?_, fun f hf hne => ht.trans ?_⟩
  · change some (r.less (s.leftOut path (some request))) = _
    by_cases hli : ∃ first last, request = .lines first last
    · obtain ⟨first, last, rfl⟩ := hli
      rw [Source.outcome_extract_lines] at hfo
      obtain ⟨lines, -, rfl⟩ := Source.exists_of_linePassage hfo
      rw [leftOut_of_lines, hl]
      rfl
    · rw [leftOut_of_ne_lines fun first last heq => hli ⟨first, last, heq⟩, hs, hfo]
      rfl
  · change some (r.less (s.leftOut path (some request))) = _
    rw [leftOut_of_ne_lines hne, hs, hf]
    rfl

theorem leaveOut_of_divided (h : selection.Divided) : (leaveOut path selection : Work ε String) =
      leaveOut path { selection with marker := none } := by
  unfold leaveOut omitted
  rw [Selection.omission_of_divided h]

/-- Leaving out covers the lines that showing covers, except where a marker is given together
with a definition. Then the section is shown and the whole definition is left out, and the
regions that remain are the same exactly if no line of them tells the two apart. -/
theorem leaveOut_covers_whole (ε : Type) {c : Citation} {source : Source} {block : String}
    (hp : p = s.locate c.path) (hsource : source = .ofFolder s.folder p)
    (hshared : c.selection.Shared) (hregions : s.regions = some r) (hr : r.WellFormed)
    (h : (shown c).run.run s = (.ok block, s')) :
    ∃ language request found r' t r'',
      Language.ofPath p = .ok language ∧ c.selection.request c.path = .ok request ∧
      (source.extract language request).outcome = .ok found ∧
      s'.regions = some r' ∧ r' = r.subtract p found.first found.last ∧
      (leaveOut c.path c.selection : Work ε String).run.run s = (.ok "", t) ∧
      t.regions = some r'' ∧
      (¬ c.selection.Divided → r'' = r') ∧
      (c.selection.Divided →
        (leaveOut c.path c.selection : Work ε String) =
          leaveOut c.path { c.selection with marker := none } ∧
        (∀ whole, (source.extract language request.whole).outcome = .ok whole →
          r'' = r.subtract p whole.first whole.last ∧
          (r'.regions = r''.regions ↔
            ∀ n, r.covers p n → (found.Spans n ↔ whole.Spans n))) ∧
        (∀ f, (source.extract language request.whole).outcome = .error f →
          r'' = r ∧ (r'.regions = r''.regions ↔ ∀ n, r.covers p n → ¬ found.Spans n))) := by
  obtain ⟨language, request, found, header, hlanguage, hrequest, hfound, -, hkeeps, -⟩ :=
    exists_of_shown h
  obtain ⟨homission, hsection⟩ := Selection.omission_of_request hshared hrequest
  obtain ⟨t, ht, hok, herror⟩ := exists_run_leaveOut ε hregions hlanguage homission
  rw [← hp] at hlanguage hfound hkeeps hok herror
  rw [← hsource] at hfound hok herror
  have hr' := hkeeps.regions_of_without hregions
  cases hwhole : (source.extract language request.whole).outcome with
  | ok whole =>
    refine ⟨language, request, found, _, t, r.subtract p whole.first whole.last, hlanguage,
      hrequest, hfound, hr', rfl, ht, hok whole hwhole, ?_, ?_⟩
    · intro hdivided
      have hnot : request.isSection = false := Bool.eq_false_iff.2 (mt hsection.1 hdivided)
      cases hwhole.symm.trans (Request.extract_whole hnot hfound)
      rfl
    · intro hdivided
      refine ⟨leaveOut_of_divided hdivided, ?_, ?_⟩
      · intro whole' hwhole'
        cases hwhole.symm.trans hwhole'
        exact ⟨rfl, RegionSet.regions_subtract_eq_iff hr p found whole⟩
      · intro f hf
        cases hwhole.symm.trans hf
  | error f =>
    have hsection' : request.isSection = true := by
      by_contra hnot
      cases hwhole.symm.trans (Request.extract_whole (Bool.eq_false_iff.2 hnot) hfound)
    refine ⟨language, request, found, _, t, r, hlanguage, hrequest, hfound, hr', rfl, ht,
      herror f hwhole (Request.whole_ne_lines hsection'), ?_, ?_⟩
    · intro hdivided
      exact absurd (hsection.1 hsection') hdivided
    · intro hdivided
      refine ⟨leaveOut_of_divided hdivided, ?_, ?_⟩
      · intro whole hwhole'
        cases hwhole.symm.trans hwhole'
      · intro f' _
        exact ⟨rfl, RegionSet.regions_subtract_eq_self_iff hr p found⟩

/-- One line of a class is shown, and all five lines of the class are left out. -/
theorem leaveOut_covers_whole_section :
    let p : Path := ⟨["/", "r", "a.cpp"]⟩
    let r : RegionSet := RegionSet.empty.add p 1 5
    let text : String := "struct S \x7b\n//@@start m\nint x;\n//@@end m\n\x7d;\n"
    let s : Session := .start ⟨["/", "r"]⟩ ⟨[(p, Bytes.ofString text)], [], ⟨["/", "r"]⟩⟩ .outside
      (fun _ => .noSetup) false (some r)
    let c : Citation := { path := "a.cpp", selection := { record := some "S", marker := some "m" } }
    ∃ block s' t r' r'', (shown c).run.run s = (.ok block, s') ∧ s'.regions = some r' ∧
      (leaveOut c.path c.selection : Work Failure String).run.run s = (.ok "", t) ∧
      t.regions = some r'' ∧ (∀ n, r'.covers p n ↔ 1 ≤ n ∧ n ≤ 5 ∧ n ≠ 3) ∧
      ∀ n, ¬ r''.covers p n := by
  intro p r text s c
  have hp : p = s.locate c.path := by decide
  have hr : r.WellFormed := RegionSet.wellFormed_empty.add p 1 5
  have hcovers : ∀ n, r.covers p n ↔ 1 ≤ n ∧ n ≤ 5 := by
    intro n
    rw [RegionSet.covers_add RegionSet.wellFormed_empty]
    simp [RegionSet.covers]
  have hlanguage : Language.ofPath p = .ok .cpp := by decide
  have hfound : ((Source.ofFolder s.folder p).extract .cpp
      (.recordSection .record "S" "m")).outcome = .ok ⟨"int x;", 3, 3⟩ := by
    simp only [Source.extract, Source.fromCpp, Cpp.recordSection, Cpp.nodeSection,
      Marker.sections, Node.comments_eq_insertionSort]
    decide +kernel
  have hwhole : ((Source.ofFolder s.folder p).extract .cpp (.record .record "S")).outcome =
      .ok ⟨"struct S \x7b\n//@@start m\nint x;\n//@@end m\n\x7d", 1, 5⟩ := by
    decide +kernel
  obtain ⟨block, s', hshown⟩ : ∃ block s', (shown c).run.run s = (.ok block, s') := by
    rw [hp] at hlanguage hfound
    obtain ⟨_, s', hrun⟩ := exists_run_shown hlanguage rfl hfound (.inl rfl)
    exact ⟨_, s', hrun⟩
  obtain ⟨language, request, found, r', t, r'', hlanguage', hrequest, hfound', hs', hr', ht, htr,
    -, hdivided⟩ := leaveOut_covers_whole Failure hp rfl ⟨rfl, rfl, rfl, rfl⟩ rfl hr hshown
  cases hlanguage.symm.trans hlanguage'
  cases hrequest
  cases hfound.symm.trans hfound'
  obtain ⟨-, hwhole', -⟩ := hdivided (by simp [Selection.Divided, c])
  obtain ⟨hr'', -⟩ := hwhole' _ hwhole
  refine ⟨block, s', t, r', r'', hshown, hs', ht, htr, ?_, ?_⟩
  · intro n
    rw [hr', RegionSet.covers_subtract hr, hcovers]
    simp only [true_and]
    omega
  · intro n
    rw [hr'', RegionSet.covers_subtract hr, hcovers]
    simp only [true_and]
    omega

end Session

end Excerpt
