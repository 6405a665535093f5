import Excerpt.Command.Markers
import Excerpt.Proofs.File.Folder
import Excerpt.Proofs.Text.Rows
import Excerpt.Proofs.Text.Segment
import Excerpt.Proofs.Text.Spelling

/-!
# Taking markers out of files

The directives of a file are found by the numbers of their lines, and by these numbers they are taken
out of the file, which is read a second time for it. Nothing is written in between, so the lines taken
out are the directives. What is written ends every line with a line feed, so it is cut into the lines
that were kept, and looking again finds nothing.
-/

namespace Excerpt

open List Outcome Text Table Bytes

namespace Shell

/-! ## The lines of a file -/

namespace MarkerLine

variable {i k : Nat}

/-- Whether a line is a directive. -/
def marks (line : String) : Bool :=
  (ofLine? 0 line).isSome

theorem ofLine?_eq (number : Nat) (line : String) :
    ofLine? number line = (ofLine? 0 line).map fun m => { m with number := number } := by
  unfold ofLine?
  cases Proto.directiveName? Directive.opening line with
  | some name => rfl
  | none => cases Proto.directiveName? Directive.closing line <;> rfl

theorem mem_map_ofLine? {line : String} :
    i ∈ (ofLine? k line).toList.map (·.number) ↔ i = k ∧ marks line := by
  rw [ofLine?_eq, marks]
  cases ofLine? 0 line <;> simp

theorem mem_map_among {lines : List String} :
    i ∈ (among k lines).map (·.number) ↔ ∃ j line, lines[j]? = some line ∧ i = k + j ∧ marks line := by
  induction lines generalizing k with
  | nil => simp [among]
  | cons line lines ih =>
    rw [among, map_append, mem_append, mem_map_ofLine?, ih]
    constructor
    · rintro (⟨rfl, hm⟩ | ⟨j, l, hl, rfl, hm⟩)
      · exact ⟨0, line, rfl, rfl, hm⟩
      · exact ⟨j + 1, l, hl, by omega, hm⟩
    · rintro ⟨j, l, hl, rfl, hm⟩
      cases j with
      | zero =>
        cases hl
        exact .inl ⟨rfl, hm⟩
      | succ j => exact .inr ⟨j, l, hl, by omega, hm⟩

theorem without_eq_filter {numbers : List Nat} {lines : List String}
    (h : ∀ j line, lines[j]? = some line → (k + j ∈ numbers ↔ marks line)) :
    without numbers k lines = lines.filter (!marks ·) := by
  induction lines generalizing k with
  | nil => rfl
  | cons line lines ih =>
    have hh : numbers.contains k = marks line := by
      rw [Bool.eq_iff_iff, contains_iff_mem, ← h 0 line rfl, Nat.add_zero]
    have hr := ih (k := k + 1) fun j l hl => by
      rw [← h (j + 1) l hl, Nat.add_assoc, Nat.add_comm 1]
    rw [without, filter_cons, hh, hr]
    cases marks line <;> rfl

end MarkerLine

open MarkerLine

variable {f g : Folder} {p q : Path} {lines : List String} {ms : List MarkerLine}
  {files : List Path} {found : Table Path (List MarkerLine)}

theorem linesAt_eq (f : Folder) (p : Path) :
    linesAt f p = (f.read p >>= fun bytes => bytes.text? >>= fun text => .ok (unifyEnds text)) >>=
      fun text => .ok (Text.lines text) := rfl

theorem linesAt_eq_ok : linesAt f p = .ok lines ↔
    ∃ bytes text, f.read p = .ok bytes ∧ Utf8.decode bytes = .ok text ∧ lines = Text.lines text := by
  have hen : ∀ text, Text.lines (unifyEnds text) = Text.lines text := fun text => by
    rw [Text.lines, unifyEnds, String.toList_ofList, linesOf_unifyEndsOf, Text.lines]
  simp only [linesAt_eq, Outcome.bind_eq_ok, text?, mapError_eq_ok, Except.ok.injEq]
  constructor
  · rintro ⟨-, ⟨bytes, hb, text, ht, rfl⟩, rfl⟩
    exact ⟨bytes, text, hb, ht, hen text⟩
  · rintro ⟨bytes, text, hb, ht, rfl⟩
    exact ⟨_, ⟨bytes, hb, text, ht, rfl⟩, hen text⟩

/-- The file is read as a text with directives on lines of their own. -/
def HasMarkers (f : Folder) (p : Path) : Prop :=
  ∃ lines, linesAt f p = .ok lines ∧ lines.any marks

/-- The directives `ms` are those of the file. -/
def Lists (f : Folder) (p : Path) (ms : List MarkerLine) : Prop :=
  ∃ lines, linesAt f p = .ok lines ∧ lines.any marks ∧ ∀ m, m ∈ ms ↔ m ∈ among 1 lines

/-- The table has an entry for each of the files with directives, and no other. -/
structure Groups (f : Folder) (files : List Path) (found : Table Path (List MarkerLine)) : Prop where
  nodup : found.keys.Nodup
  sound : ∀ p ms, found.get? p = some ms → p ∈ files ∧ Lists f p ms
  complete : ∀ p ∈ files, HasMarkers f p → ∃ ms, found.get? p = some ms

/-- What is written in place of a file with these lines. -/
def cleaned (lines : List String) : String :=
  join "\n" (lines.filter (!marks ·)) ++ "\n"

/-- The files after directives were taken out of those in a table. -/
def cleared (f : Folder) : Table Path (List MarkerLine) → Folder
  | [] => f
  | (p, ms) :: rest => cleared (((removeFrom f p ms).map (·.1)).toOption.getD f) rest

theorem exists_removeFrom (hna : p.names ≠ []) (hlists : Lists f p ms) (hl : linesAt f p = .ok lines) :
    ∃ g count, removeFrom f p ms = .ok (g, count) ∧ f.SameTree g ∧
      g.files.get? (p.resolve f.cwd) = some (ofString (cleaned lines)) ∧
      ∀ x, p.resolve f.cwd ≠ x → g.files.get? x = f.files.get? x := by
  obtain ⟨lines', hok, hm, hms⟩ := hlists
  cases hl.symm.trans hok
  have hw : without (ms.map (·.number)) 1 lines = lines.filter (!marks ·) := by
    refine without_eq_filter fun j line hli => ?_
    have hn : ∀ i, i ∈ ms.map (·.number) ↔ i ∈ (among 1 lines).map (·.number) := by
      intro i
      simp only [List.mem_map, hms]
    rw [hn, mem_map_among]
    constructor
    · rintro ⟨j', line', hl', hj, hm'⟩
      obtain rfl : j = j' := by omega
      cases hli.symm.trans hl'
      exact hm'
    · exact fun hm' => ⟨j, line, hli, rfl, hm'⟩
  have hf : (lines.filter (!marks ·)).length < lines.length := by
    rw [length_filter_lt_length_iff_exists]
    simpa using hm
  obtain ⟨bytes, -, hr, -⟩ := linesAt_eq_ok.1 hl
  obtain ⟨g, hwr, hg⟩ := Folder.exists_write hr hna (ofString (cleaned lines))
  refine ⟨g, lines.length - (lines.filter (!marks ·)).length, ?_, hg⟩
  rw [removeFrom, hl, ok_bind, withoutMarkers]
  dsimp only
  rw [hw, if_neg (by simp; omega), ← cleaned, hwr]
  rfl

/-- The folder `g` is `f` with the directives taken out of the files of the table. -/
structure Cleared (f g : Folder) (found : Table Path (List MarkerLine)) : Prop where
  tree : f.SameTree g
  clean : ∀ p ms lines, (p, ms) ∈ found → linesAt f p = .ok lines →
    g.files.get? (p.resolve f.cwd) = some (ofString (cleaned lines))
  other : ∀ x, (∀ e ∈ found, e.1.resolve f.cwd ≠ x) → g.files.get? x = f.files.get? x

theorem linesAt_congr (h : f.SameTree g)
    (hget : g.files.get? (p.resolve f.cwd) = f.files.get? (p.resolve f.cwd)) : linesAt g p = linesAt f p := by
  rw [linesAt_eq, linesAt_eq, h.read_congr hget]

/-- Each file is written before any other path to it is looked at, if there is one path to a file. -/
theorem cleared_of_pairwise (hpa : found.Pairwise fun a b => a.1.resolve f.cwd ≠ b.1.resolve f.cwd)
    (hn : ∀ e ∈ found, e.1.names ≠ []) (hl : ∀ e ∈ found, Lists f e.1 e.2) :
    Cleared f (cleared f found) found := by
  induction found generalizing f with
  | nil => exact ⟨.refl f, by simp, fun _ _ => rfl⟩
  | cons e found ih =>
    obtain ⟨p, ms⟩ := e
    obtain ⟨hp, hpa⟩ := pairwise_cons.1 hpa
    obtain ⟨hpn, hn⟩ := forall_mem_cons.1 hn
    obtain ⟨hpl, hl⟩ := forall_mem_cons.1 hl
    obtain ⟨lines, hli, -⟩ := id hpl
    obtain ⟨g, count, hre, ht, hw, ho⟩ := exists_removeFrom hpn hpl hli
    have hs : ∀ e ∈ found, linesAt g e.1 = linesAt f e.1 :=
      fun e he => linesAt_congr ht (ho _ (hp e he))
    rw [← ht.cwd] at hpa
    have hr := ih hpa hn fun e he => by
      obtain ⟨lines', hok, hms⟩ := hl e he
      exact ⟨lines', (hs e he).trans hok, hms⟩
    have hc : cleared f ((p, ms) :: found) = cleared g found := by
      rw [cleared, hre]
      rfl
    rw [hc]
    refine ⟨ht.trans hr.tree, fun q qs lines' hq hok => ?_, fun x hx => ?_⟩
    · rcases mem_cons.1 hq with heq | hq
      · cases heq
        cases hli.symm.trans hok
        exact (hr.other _ fun e he => ht.cwd ▸ (hp e he).symm).trans hw
      · exact ht.cwd ▸ hr.clean q qs lines' hq ((hs _ hq).trans hok)
    · obtain ⟨hpx, hx⟩ := forall_mem_cons.1 hx
      exact (hr.other x (ht.cwd ▸ hx)).trans (ho x hpx)

/-- No two of the paths lead to one file. -/
def Apart (f : Folder) (files : List Path) : Prop :=
  ∀ p ∈ files, ∀ q ∈ files, p.resolve f.cwd = q.resolve f.cwd → p = q

theorem Groups.cleared {part : Table Path (List MarkerLine)} (h : Groups f files found)
    (hap : Apart f files) (hn : ∀ p ∈ files, p.names ≠ []) (hp : part <+: found) :
    Cleared f (cleared f part) part := by
  have hs : ∀ e ∈ part, e.1 ∈ files ∧ Lists f e.1 e.2 := fun e he =>
    h.sound e.1 e.2 ((get?_eq_some_iff h.nodup).2 (hp.subset he))
  refine cleared_of_pairwise ?_ (fun e he => hn _ (hs e he).1) fun e he => (hs e he).2
  refine ((pairwise_map.1 h.nodup).sublist hp.sublist).imp_of_mem fun {a b} ha hb hne heq => ?_
  exact hne (hap _ (hs a ha).1 _ (hs b hb).1 heq)

end Shell

end Excerpt
