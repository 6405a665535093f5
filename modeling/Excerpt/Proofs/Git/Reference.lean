import Excerpt.Git.Hub
import Excerpt.Proofs.Text.Split

/-!
# What a reference shows

A reference to lines of a changed file shows the lines of the file and links to the
lines of the last commit that they stand for. What git answers is kept, so the first
and the last line are mapped by the same changes.

The shown lines are not always those that were asked for. If the first line keeps its
number, the last one is shown as it stood in the last commit, and if both lines stand
for one line there, or the last one for line zero, it is not shown at all.
`reference_shows_lines_iff` says when neither happens.
-/

namespace Excerpt

open List LineMap

namespace Text

/-! ## Written integers -/

theorem toList_toString_int (n : Int) : (toString n).toList =
      if 0 ≤ n then Nat.toDigits 10 n.toNat else '-' :: Nat.toDigits 10 (-n).toNat := by
  rw [Int.toString_eq_repr, Int.repr_eq_if]
  split <;> simp [Nat.repr_eq_ofList_toDigits]

theorem not_mem_toString_int {c : Char} (hc : c ≠ '-') (hd : c.isDigit = false) (n : Int) :
    c ∉ (toString n).toList := by
  have hno : ∀ k : Nat, c ∉ Nat.toDigits 10 k := by
    intro k hmem
    rw [Nat.isDigit_of_mem_toDigits (by decide) (by decide) hmem] at hd
    cases hd
  rw [toList_toString_int]
  split
  · exact hno _
  · simpa [hc] using hno _

theorem toString_int_injective {m n : Int} (h : (toString m).toList = (toString n).toList) : m = n := by
  have hd : ∀ {j k : Nat}, Nat.toDigits 10 j = Nat.toDigits 10 k → j = k := by
    intro j k hjk
    rw [← Nat.ofDigitChars_ten_toDigits (n := j), hjk, Nat.ofDigitChars_ten_toDigits]
  have hs : ∀ {j k : Nat}, Nat.toDigits 10 j ≠ '-' :: Nat.toDigits 10 k := by
    intro j k hjk
    have hmem : '-' ∈ Nat.toDigits 10 j := hjk ▸ mem_cons_self
    exact absurd (Nat.isDigit_of_mem_toDigits (by decide) (by decide) hmem) (by decide)
  rw [toList_toString_int, toList_toString_int] at h
  split at h <;> split at h
  · have hsa := hd h
    omega
  · exact absurd h hs
  · exact absurd h.symm hs
  · have hsa := hd (cons.inj h).2
    omega

end Text

namespace Hub

variable {g : Git} {h h' h'' : Hub} {p : Path}

/-! ## What is learnt -/

/-- The site as it is known or would be asked for. -/
def siteOf (g : Git) (h : Hub) : Site :=
  h.site.getD (Site.ofGit g)

/-- The changes of a file as they are known or would be asked for; none if git does not answer. -/
def changesOf (g : Git) (h : Hub) (p : Path) : String :=
  match h.diffs.get? (p.resolve h.cwd), (relative? h.repo p).map fun r => g.changes r.toString with
  | some diff, _ => diff
  | none, some (.ok diff) => diff
  | none, _ => ""

/-- The line of the last commit that a line of a file stands for, as it is known or would be
asked for. -/
def mapped (g : Git) (h : Hub) (p : Path) (line : Int) : Int :=
  if isDirty g h p then
    if (changesOf g h p).isEmpty then line else oldLine (changesOf g h p) line
  else line

/-- Nothing about the file `p` has become other than `h` would have been told. -/
structure Learns (g : Git) (p : Path) (h h' : Hub) : Prop where
  repo : h'.repo = h.repo
  changes : changesOf g h' p = changesOf g h p

theorem Learns.refl (g : Git) (p : Path) (h : Hub) : Learns g p h h := ⟨rfl, rfl⟩

theorem Learns.isDirty (hl : Learns g p h h') : Hub.isDirty g h' p = Hub.isDirty g h p := by
  rw [Hub.isDirty, Hub.isDirty, hl.repo]

theorem Learns.mapped (hl : Learns g p h h') (line : Int) :
    Hub.mapped g h' p line = Hub.mapped g h p line := by
  rw [Hub.mapped, Hub.mapped, hl.isDirty, hl.changes]

theorem oldLine_empty (line : Int) : oldLine "" line = line := by
  have hmap : ofDiff "" = [] := by decide
  have hh : Hunk.ofDiff "" = [] := by decide
  rw [oldLine, hmap, hh, shift, Int.add_zero]
  rfl

/-- A file that counts as changed is mapped by its changes, and so is one without changes. -/
theorem mapped_eq_oldLine (hd : Hub.isDirty g h p = true ∨ changesOf g h p = "") (line : Int) :
    Hub.mapped g h p line = oldLine (changesOf g h p) line := by
  by_cases hem : changesOf g h p = ""
  · rw [Hub.mapped, hem, oldLine_empty]
    split <;> rfl
  · rw [Hub.mapped, if_pos (hd.resolve_right hem), if_neg (by simpa using hem)]

theorem exists_run_askSite (g : Git) (p : Path) (h : Hub) :
    ∃ h', (askSite g).run h = (siteOf g h, h') ∧ Learns g p h h' := by
  obtain ⟨repo, cwd, site, diffs⟩ := h
  cases site with
  | some site => exact ⟨_, rfl, Learns.refl g p _⟩
  | none => exact ⟨_, rfl, rfl, rfl⟩

theorem exists_run_askDiff (g : Git) (p : Path) (h : Hub) :
    ∃ h', (askDiff g p).run h = (changesOf g h p, h') ∧ Learns g p h h' := by
  unfold askDiff changesOf
  rw [StateT.run_bind, StateT.run_get, pure_bind]
  cases hget : h.diffs.get? (p.resolve h.cwd) with
  | some diff =>
    simp only [hget]
    exact ⟨h, rfl, Learns.refl g p h⟩
  | none =>
    simp only [hget]
    cases hask : (relative? h.repo p).map fun r => g.changes r.toString with
    | none => exact ⟨h, rfl, Learns.refl g p h⟩
    | some answer =>
      cases answer with
      | error e => exact ⟨h, rfl, Learns.refl g p h⟩
      | ok diff =>
        refine ⟨_, rfl, rfl, ?_⟩
        rw [changesOf, changesOf, Table.get?_put, if_pos rfl, hget, hask]

/-- A line of a file is mapped by the changes that are known of it. -/
theorem exists_run_committedLine (g : Git) (p : Path) (h : Hub) (line : Int) :
    ∃ h', (committedLine g p line).run h = (mapped g h p line, h') ∧ Learns g p h h' := by
  have hs : (committedLine g p line).run h =
      (if isDirty g h p then do
        let diff ← askDiff g p
        return if diff.isEmpty then line else oldLine diff line
      else return line : StateM Hub Int).run h := rfl
  rw [hs, mapped]
  split
  · obtain ⟨h', hrun, hl⟩ := exists_run_askDiff g p h
    refine ⟨h', ?_, hl⟩
    rw [StateT.run_bind, hrun]
    rfl
  · exact ⟨h, rfl, Learns.refl g p h⟩

/-! ## Texts of references -/

/-- A reference that shows `shown` and links to a part of the page of a file. -/
def linkTo (file page shown part : String) : String :=
  s!"📍 [`{shown}`]({page}/{file}{part})"

/-- How a label goes on behind its first line. -/
def upTo : Option Int → List Char
  | none => []
  | some last => '-' :: (toString last).toList

theorem toList_linkTo_label (file page part : String) (first : Int) (last : Option Int) :
    (linkTo file page (label file (some first) last) part).toList =
      ("📍 [`" ++ file ++ ":" ++ toString first).toList ++
        (upTo last ++ '`' :: ("](" ++ page ++ "/" ++ file ++ part ++ ")").toList) := by
  have hli : ∀ shown, linkTo file page shown part =
      "📍 [`" ++ shown ++ "`](" ++ page ++ "/" ++ file ++ part ++ ")" := fun shown => rfl
  have hc : "`](".toList = '`' :: "](".toList := by decide
  have hd : "-".toList = ['-'] := by decide
  cases last with
  | none =>
    have hl : label file (some first) none = file ++ ":" ++ toString first := rfl
    rw [hli, hl]
    simp only [String.toList_append, hc, upTo, append_assoc, cons_append, nil_append]
  | some last =>
    have hl : label file (some first) (some last) =
        file ++ ":" ++ toString first ++ "-" ++ toString last := rfl
    rw [hli, hl]
    simp only [String.toList_append, hc, hd, upTo, append_assoc, cons_append, nil_append]

/-- The lines behind a file name can be read off a reference. -/
theorem last_eq_of_linkTo_eq {file page part part' : String} {first : Int} {last last' : Option Int}
    (h : linkTo file page (label file (some first) last) part =
      linkTo file page (label file (some first) last') part') : last = last' := by
  have hl := congrArg String.toList h
  rw [toList_linkTo_label, toList_linkTo_label] at hl
  have ht := append_cancel_left hl
  cases last with
  | none =>
    cases last' with
    | none => rfl
    | some b => exact absurd (cons.inj ht).1 (by decide)
  | some a =>
    cases last' with
    | none => exact absurd (cons.inj ht).1 (by decide)
    | some b =>
      have hno := Text.not_mem_toString_int (c := '`') (by decide) (by decide)
      have hn : (toString a).toList ++ '`' :: _ = (toString b).toList ++ '`' :: _ :=
        (cons.inj ht).2
      have hp := congrArg (Text.partsFrom ['`'] 0) hn
      rw [Text.partsFrom_append (hno a), Text.partsFrom_append (hno b)] at hp
      rw [Text.toString_int_injective (cons.inj hp).1]

/-! ## References -/

theorem run_reference {page : String} (hp : (siteOf g h).blob? = some page) (first last : Int)
    (showOld : Bool) : ((reference g p (some first) (some last) showOld).run h).1 =
      linked ((relative? h.repo p).getD p).toString page showOld (some first) (some last)
        (some (mapped g h p first)) (some (mapped g h p last)) := by
  obtain ⟨h₁, hs, hl⟩ := exists_run_askSite g p h
  obtain ⟨h₂, hf, hl'⟩ := exists_run_committedLine g p h₁ first
  obtain ⟨h₃, hla, -⟩ := exists_run_committedLine g p h₂ last
  have hfirst? : (committedLine? g p (some first)).run h₁ = (some (mapped g h p first), h₂) := by
    rw [committedLine?, StateT.run_bind, hf, hl.mapped]
    rfl
  have hlast? : (committedLine? g p (some last)).run h₂ = (some (mapped g h p last), h₃) := by
    rw [committedLine?, StateT.run_bind, hla, hl'.mapped, hl.mapped]
    rfl
  unfold reference
  rw [StateT.run_bind, StateT.run_get, pure_bind, StateT.run_bind, hs]
  change (StateT.run (_ : StateM Hub String) h₁).1 = _
  rw [hp]
  rw [StateT.run_bind, hfirst?]
  change (StateT.run (committedLine? g p (some last) >>= fun line => _) h₂).1 = _
  rw [StateT.run_bind, hlast?]
  rfl

/-- What a reference shows that shows the lines of the file: the first line as it was asked for,
and the last one as it stood in the last commit if the first one keeps its number. -/
theorem linked_eq (file page : String) (first last a b : Int) :
    linked file page false (some first) (some last) (some a) (some b) =
      if b = 0 ∨ b = a then linkTo file page (label file (some first) none) (anchor (some a) none)
      else linkTo file page (label file (some first) (some (if a = first then b else last)))
        (anchor (some a) (some b)) := by
  have hl : linked file page false (some first) (some last) (some a) (some b) =
      linkTo file page (label file (if (some a == some first) = true then some a else some first)
        (if (secondLine a (some b)).isSome = true then
          if (some a == some first) = true then some b else some last else none))
        (anchor (some a) (secondLine a (some b))) := rfl
  have hf : (if (some a == some first) = true then some a else some first) = some first := by
    by_cases heq : a = first <;> simp [heq]
  have hla : (if (some a == some first) = true then some b else some last) =
      some (if a = first then b else last) := by
    by_cases heq : a = first <;> simp [heq]
  by_cases hone : b = 0 ∨ b = a
  · have hs : secondLine a (some b) = none := by
      rcases hone with rfl | rfl <;> simp [secondLine]
    rw [if_pos hone, hl, hf, hs]
    rfl
  · have hs : secondLine a (some b) = some b := by
      rw [not_or] at hone
      simp [secondLine, hone]
    rw [if_neg hone, hl, hf, hla, hs]
    rfl

/-- A reference to the lines `first` to `last` of a changed file shows these lines and links to
the lines that they stand for exactly if it is one line, or the lines stand for more than one line
and the last line keeps its number whenever the first one does. -/
theorem reference_shows_lines_iff {page diff : String} (hdirty : isDirty g h p = true)
    (hdiff : changesOf g h p = diff) (hpage : (siteOf g h).blob? = some page) (first last : Int) :
    let file := ((relative? h.repo p).getD p).toString
    let a := LineMap.oldLine diff first
    let b := LineMap.oldLine diff last
    let text := ((reference g p (some first) (some last) false).run h).1
    (text = if b = 0 ∨ b = a then
        linkTo file page (label file (some first) none) (anchor (some a) none)
      else linkTo file page (label file (some first) (some (if a = first then b else last)))
        (anchor (some a) (some b))) ∧
    (text = linkTo file page (label file (some first) (if last = first then none else some last))
        (anchor (some a) (if b = a then none else some b)) ↔
      last = first ∨ (b ≠ 0 ∧ b ≠ a ∧ (a = first → b = last))) := by
  intro file a b text
  have hmapped : ∀ line, mapped g h p line = LineMap.oldLine diff line := by
    intro line
    rw [mapped_eq_oldLine (.inl hdirty), hdiff]
  have htext : text = if b = 0 ∨ b = a then
        linkTo file page (label file (some first) none) (anchor (some a) none)
      else linkTo file page (label file (some first) (some (if a = first then b else last)))
        (anchor (some a) (some b)) := by
    have hrun := run_reference (p := p) hpage first last false
    rw [hmapped, hmapped] at hrun
    rw [← linked_eq]
    exact hrun
  refine ⟨htext, ?_⟩
  rw [htext]
  by_cases hline : last = first
  · have hba : b = a := congrArg (LineMap.oldLine diff) hline
    simp only [hline, hba, or_true, if_true, true_or]
  · rw [if_neg hline]
    by_cases hone : b = 0 ∨ b = a
    · rw [if_pos hone]
      constructor
      · intro heq
        cases last_eq_of_linkTo_eq heq
      · rintro (heq | ⟨hzero, hsame, -⟩)
        · exact absurd heq hline
        · exact absurd hone (not_or.2 ⟨hzero, hsame⟩)
    · obtain ⟨hzero, hsame⟩ := not_or.1 hone
      rw [if_neg hone, if_neg hsame]
      constructor
      · intro heq
        have hlast := Option.some.inj (last_eq_of_linkTo_eq heq)
        refine .inr ⟨hzero, hsame, fun ha => ?_⟩
        rwa [if_pos ha] at hlast
      · rintro (heq | ⟨-, -, hkeeps⟩)
        · exact absurd heq hline
        · by_cases ha : a = first
          · rw [if_pos ha, hkeeps ha]
          · rw [if_neg ha]

/-- A repository in which the file `a.cpp` has got a new second line. -/
def grown : Git :=
  .repository
    { origin := some "git@github.com:user/repo.git"
      head := some "0123abc"
      changes := [("a.cpp", some "@@ -1,3 +1,4 @@\n a\n+x\n b\n c\n")]
      ranges := []
      names := []
      mergeBases := []
      blames := []
      commits := [] }

/-- The new line stands inside of lines 1 to 4, which are shown as lines 1 to 3. -/
theorem reference_shows_committed_last :
    let repo : Path := ⟨["/", "r"]⟩
    let p : Path := ⟨["a.cpp"]⟩
    let page := "https://github.com/user/repo/blob/0123abc"
    let text := ((reference grown p (some 1) (some 4) false).run (start repo repo)).1
    isDirty grown (start repo repo) p = true ∧ (siteOf grown (start repo repo)).blob? = some page ∧
    text = linkTo "a.cpp" page (label "a.cpp" (some 1) (some 3)) (anchor (some 1) (some 3)) ∧
    text ≠ linkTo "a.cpp" page (label "a.cpp" (some 1) (some 4)) (anchor (some 1) (some 3)) := by
  intro repo p page text
  have hdirty : isDirty grown (start repo repo) p = true := by decide
  have hdiff : changesOf grown (start repo repo) p = "@@ -1,3 +1,4 @@\n a\n+x\n b\n c\n" := by
    decide
  have hpage : (siteOf grown (start repo repo)).blob? = some page := by decide
  have hfile : ((relative? (start repo repo).repo p).getD p).toString = "a.cpp" := by decide
  have hfirst : LineMap.oldLine "@@ -1,3 +1,4 @@\n a\n+x\n b\n c\n" 1 = 1 := by decide
  have hlast : LineMap.oldLine "@@ -1,3 +1,4 @@\n a\n+x\n b\n c\n" 4 = 3 := by decide
  obtain ⟨htext, hiff⟩ := reference_shows_lines_iff hdirty hdiff hpage 1 4
  rw [hfile, hfirst, hlast] at htext hiff
  exact ⟨hdirty, hpage, htext, fun heq => absurd (hiff.1 heq) (by decide)⟩

end Hub

end Excerpt
