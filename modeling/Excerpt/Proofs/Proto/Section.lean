import Excerpt.Proofs.Marker.Name
import Excerpt.Proofs.Proto.Directive

/-!
# Sections of lines

Of the lines that open the section of a name and those that close it, let the first
be one line and let one line behind it be the first that closes the section
(`Parts`). Then the search for the section stops at these two, and so does the pass
that finds the sections of all names, provided that no line behind them opens the
section again. For the pass, what is known about the one name is carried along.
-/

namespace Excerpt.Proto

open List Directive

open Marker (Progress)

def OpensLine (name line : String) : Prop :=
  DirectiveLine opening name line

def ClosesLine (name line : String) : Prop :=
  DirectiveLine closing name line

/-- The name is made of characters of names, and is not empty. -/
def IsName (name : String) : Prop :=
  name ≠ "" ∧ ∀ c ∈ name.toList, isNameChar c

instance (name : String) : Decidable (IsName name) :=
  decidable_of_iff (name ≠ "" ∧ name.toList.all isNameChar)
    (by rw [IsName, List.all_eq_true])

variable {name line x y : String} {lines above inside : List String} {p : Progress}
  {found : Option (Int × Int)} {first : Option Int}

theorem isDirective_opening : isDirective opening name line ↔ OpensLine name line :=
  isDirective_iff head_opening

theorem isDirective_closing : isDirective closing name line ↔ ClosesLine name line :=
  isDirective_iff head_closing

/-- The lines down to the one that closes a section, `y`: those above the section, the one that opens it,
`x`, and those inside the section. -/
structure Parts (name : String) (above : List String) (x : String) (inside : List String) (y : String) :
    Prop where
  above : ∀ line ∈ above, ¬ OpensLine name line
  opens : OpensLine name x
  inside : ∀ line ∈ inside, ¬ OpensLine name line ∧ ¬ ClosesLine name line
  closes : ClosesLine name y

/-! ## The search for a section -/

theorem boundsFrom_of_opens (h : OpensLine name line) (start : Option Nat) (i : Nat) :
    boundsFrom name start i (line :: lines) = boundsFrom name (some i) (i + 1) lines := by
  rw [boundsFrom, if_pos (isDirective_opening.2 h)]

theorem boundsFrom_of_closes (h : ClosesLine name line) (i j : Nat) :
    boundsFrom name (some i) j (line :: lines) = ⟨some i, some j⟩ := by
  have ho : ¬ isDirective opening name line := by
    rw [isDirective_opening]
    intro ho
    exact ho.not_closing name h
  rw [boundsFrom, if_neg ho, if_pos]
  rw [Bool.and_eq_true]
  exact ⟨rfl, isDirective_closing.2 h⟩

/-- Lines that do not open the section are passed over, and so are lines that close it while it is not
open. -/
theorem boundsFrom_append {start : Option Nat} (ho : ∀ line ∈ above, ¬ OpensLine name line)
    (hc : start = none ∨ ∀ line ∈ above, ¬ ClosesLine name line) (i : Nat) (lines : List String) :
    boundsFrom name start i (above ++ lines) = boundsFrom name start (i + above.length) lines := by
  induction above generalizing i with
  | nil => rfl
  | cons line above ih =>
    obtain ⟨hl, ho⟩ := forall_mem_cons.1 ho
    have hnot : ¬ (start.isSome && isDirective closing name line) := by
      rw [Bool.and_eq_true, isDirective_closing]
      rintro ⟨hs, hcl⟩
      rcases hc with rfl | hc
      · cases hs
      · exact hc line mem_cons_self hcl
    have hr : start = none ∨ ∀ line ∈ above, ¬ ClosesLine name line :=
      hc.imp_right fun h => (forall_mem_cons.1 h).2
    rw [cons_append, boundsFrom, if_neg (isDirective_opening.not.2 hl), if_neg hnot,
      ih ho hr, length_cons, Nat.add_assoc, Nat.add_comm 1]

/-- The lines strictly between two lines. -/
theorem drop_take_parts (above inside below : List String) (x y : String) :
    ((above ++ x :: (inside ++ y :: below)).take (above.length + 1 + inside.length)).drop
      (above.length + 1) = inside := by
  have hs : above ++ x :: (inside ++ y :: below) = (above ++ [x]) ++ inside ++ y :: below := by
    simp
  have hlen : (above ++ [x]).length = above.length + 1 := by
    simp
  rw [hs, ← hlen, ← length_append, take_left, drop_left]

namespace Parts

variable (h : Parts name above x inside y)

include h

/-- The search finds the lines inside, whatever lies below the section. -/
theorem sectionOf_eq (place : String) (number : Int) (below : List String) :
    sectionOf name place number (above ++ x :: (inside ++ y :: below)) =
      .ok ⟨Text.join "\n" inside, number + above.length + 1, number + above.length + inside.length⟩ := by
  have hb : boundsFrom name none 0 (above ++ x :: (inside ++ y :: below)) =
      ⟨some above.length, some (above.length + 1 + inside.length)⟩ := by
    rw [boundsFrom_append h.above (.inl rfl), Nat.zero_add, boundsFrom_of_opens h.opens, boundsFrom_append
      (fun l hl => (h.inside l hl).1) (.inr fun l hl => (h.inside l hl).2), boundsFrom_of_closes h.closes]
  rw [sectionOf, hb]
  dsimp only
  rw [drop_take_parts]
  congr 2
  omega

end Parts

/-! ## The pass over the lines -/

theorem directiveName?_opening :
    directiveName? opening line = some name ↔ OpensLine name line ∧ IsName name :=
  directiveName?_eq_some_iff head_opening

theorem directiveName?_closing :
    directiveName? closing line = some name ↔ ClosesLine name line ∧ IsName name :=
  directiveName?_eq_some_iff head_closing

theorem knows_step_opens (hn : IsName name) (hp : p.Knows name found first)
    (hl : OpensLine name line) (number : Int) : (step p number line).Knows name found (some number) := by
  rw [step, directiveName?_opening.2 ⟨hl, hn⟩]
  exact hp.put number

theorem knows_step_closes {start : Int} (hn : IsName name) (hp : p.Knows name found (some start))
    (hl : ClosesLine name line) (number : Int) :
    (step p number line).Knows name (some (start, number)) none := by
  have ho : directiveName? opening line = none := by
    rw [Option.eq_none_iff_forall_ne_some]
    intro other hot
    exact (directiveName?_opening.1 hot).1.not_closing name hl
  rw [step, ho, directiveName?_closing.2 ⟨hl, hn⟩]
  dsimp only
  rw [hp.openAt]
  exact hp.close (start, number)

/-- A line that does not open the section, and does not close it while it is open, changes nothing. -/
theorem knows_step_other (hp : p.Knows name found first) (hop : ¬ OpensLine name line)
    (hc : first = none ∨ ¬ ClosesLine name line) (number : Int) :
    (step p number line).Knows name found first := by
  rw [step]
  split
  · next other ho =>
      have hne : other ≠ name := by
        rintro rfl
        exact hop (directiveName?_opening.1 ho).1
      exact hp.put_of_ne hne number
  · split
    · next other ho =>
        split
        · next start hs =>
            have hne : other ≠ name := by
              rintro rfl
              rcases hc with rfl | hc
              · rw [hp.openAt] at hs
                cases hs
              · exact hc (directiveName?_closing.1 ho).1
            exact hp.close_of_ne hne (start, number)
        · exact hp
    · exact hp

theorem scan_append (p : Progress) (number : Int) (above lines : List String) :
    scan p number (above ++ lines) = scan (scan p number above) (number + above.length) lines := by
  induction above generalizing p number with
  | nil => simp [scan]
  | cons line above ih =>
    rw [cons_append, scan, scan, ih, length_cons]
    congr 1
    omega

theorem knows_scan (hp : p.Knows name found first) (ho : ∀ line ∈ lines, ¬ OpensLine name line)
    (hc : first = none ∨ ∀ line ∈ lines, ¬ ClosesLine name line) (number : Int) :
    (scan p number lines).Knows name found first := by
  induction lines generalizing p number with
  | nil => exact hp
  | cons line lines ih =>
    obtain ⟨hl, ho⟩ := forall_mem_cons.1 ho
    have hs := knows_step_other hp hl (hc.imp_right fun h => h line mem_cons_self) number
    exact ih hs ho (hc.imp_right fun h => (forall_mem_cons.1 h).2) (number + 1)

/-- The pass finds the section at the numbers of its directives. -/
theorem Parts.get?_sections (h : Parts name above x inside y) (hn : IsName name) {below : List String}
    (hb : ∀ line ∈ below, ¬ OpensLine name line) :
    (sections (above ++ x :: (inside ++ y :: below))).get? name =
      some ((above.length : Int) + 1, (above.length : Int) + inside.length + 2) := by
  rw [sections, scan_append, scan, scan_append, scan]
  have ha := knows_scan Progress.knows_start h.above (.inl rfl) 1
  have ho := knows_step_opens hn ha h.opens (1 + above.length)
  have hin := knows_scan ho (fun l hl => (h.inside l hl).1)
    (.inr fun l hl => (h.inside l hl).2) (1 + above.length + 1)
  have hc := knows_step_closes hn hin h.closes (1 + above.length + 1 + inside.length)
  rw [(knows_scan hc hb (.inl rfl) _).closed]
  congr 2
  · omega
  · omega

/-! ## The rows of the directives -/

/-- One line opens the section, the one in row `i`, and of the lines behind it one closes the section, the
one in row `j`. -/
structure MarkedRows (name : String) (lines : List String) (i j : Nat) : Prop where
  opens : ∀ (k : Nat) (hk : k < lines.length), OpensLine name lines[k] ↔ k = i
  closes : ∀ (k : Nat) (hk : k < lines.length), i < k → (ClosesLine name lines[k] ↔ k = j)
  lt : i < j
  lt_length : j < lines.length

instance : Decidable (OpensLine name line) :=
  decidable_of_iff _ isDirective_opening

instance : Decidable (ClosesLine name line) :=
  decidable_of_iff _ isDirective_closing

instance {i j : Nat} : Decidable (MarkedRows name lines i j) :=
  decidable_of_iff
    ((∀ (k : Nat) (hk : k < lines.length), OpensLine name lines[k] ↔ k = i) ∧
      (∀ (k : Nat) (hk : k < lines.length), i < k → (ClosesLine name lines[k] ↔ k = j)) ∧
      i < j ∧ j < lines.length)
    ⟨fun h => ⟨h.1, h.2.1, h.2.2.1, h.2.2.2⟩, fun h => ⟨h.opens, h.closes, h.lt, h.lt_length⟩⟩

namespace MarkedRows

variable {i j : Nat} (h : MarkedRows name lines i j) {back front : List String}

include h

theorem opens_iff (hl : lines = front ++ line :: back) :
    OpensLine name line ↔ front.length = i := by
  have ho := h.opens front.length (by simp [hl])
  simpa [hl] using ho

theorem closes_iff (hl : lines = front ++ line :: back)
    (hlt : i < front.length) : ClosesLine name line ↔ front.length = j := by
  have hc := h.closes front.length (by simp [hl]) hlt
  simpa [hl] using hc

/-- The lines are those above the section, its directives, those inside it and those below it. -/
theorem exists_parts :
    ∃ above x inside y below, lines = above ++ x :: (inside ++ y :: below) ∧ above.length = i ∧
      above.length + 1 + inside.length = j ∧ Parts name above x inside y ∧
      ∀ line ∈ below, ¬ OpensLine name line := by
  have hlt := h.lt
  have hlen := h.lt_length
  obtain ⟨above, x, rest, hl, ha⟩ :
      ∃ above x rest, lines = above ++ x :: rest ∧ above.length = i := by
    refine ⟨lines.take i, lines[i], lines.drop (i + 1), ?_, by rw [length_take]; omega⟩
    rw [← drop_eq_getElem_cons, take_append_drop]
  have hr : lines.length = i + (rest.length + 1) := by
    rw [hl, length_append, ha, length_cons]
  obtain ⟨inside, y, below, rfl, hin⟩ :
      ∃ inside y below, rest = inside ++ y :: below ∧ inside.length = j - i - 1 := by
    refine ⟨rest.take (j - i - 1), rest[j - i - 1], rest.drop (j - i - 1 + 1), ?_, by rw [length_take]; omega⟩
    rw [← drop_eq_getElem_cons, take_append_drop]
  refine ⟨above, x, inside, y, below, hl, ha, by omega, ⟨?_, ?_, ?_, ?_⟩, ?_⟩
  · intro line hli
    obtain ⟨front, back, rfl⟩ := append_of_mem hli
    rw [h.opens_iff (by rw [hl, append_assoc, cons_append])]
    rw [length_append, length_cons] at ha
    omega
  · exact (h.opens_iff hl).2 ha
  · intro line hli
    obtain ⟨front, back, rfl⟩ := append_of_mem hli
    have hs : lines = (above ++ x :: front) ++ line :: (back ++ y :: below) := by
      simp [hl]
    have hf : (above ++ x :: front).length = i + 1 + front.length := by
      rw [length_append, length_cons, ha]
      omega
    rw [length_append, length_cons] at hin
    rw [h.opens_iff hs, h.closes_iff hs (by omega), hf]
    omega
  · have hs : lines = (above ++ x :: inside) ++ y :: below := by
      simp [hl]
    have hf : (above ++ x :: inside).length = j := by
      rw [length_append, length_cons, ha, hin]
      omega
    exact (h.closes_iff hs (by omega)).2 hf
  · intro line hli
    obtain ⟨front, back, rfl⟩ := append_of_mem hli
    have hs : lines = (above ++ x :: (inside ++ y :: front)) ++ line :: back := by
      simp [hl]
    rw [h.opens_iff hs, length_append, length_cons, ha]
    omega

end MarkedRows

end Excerpt.Proto
