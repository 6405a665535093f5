import Excerpt.Proto.Section
import Mathlib.Data.List.TakeWhile

/-!
# Lines that are directives

A line is the directive `word` for a name if it is made of the word, blanks and the
name, with blanks around them (`DirectiveLine`). Looking for the directive of a
given name accepts these lines (`isDirective_iff`), and reading the name of a
directive gives it back if it is made of name characters, which are no blanks
(`directiveName?_eq_some_iff`). No line both opens and closes a section.
-/

namespace Excerpt

open List Directive

namespace Text

def blankPoints : List Nat :=
  List.range' 9 5 ++ List.range' 28 5 ++ List.range' 0x2000 11 ++
    [0x85, 0xA0, 0x1680, 0x2028, 0x2029, 0x202F, 0x205F, 0x3000]

theorem toNat_mem_blankPoints {c : Char} (h : isBlank c) : c.toNat ∈ blankPoints := by
  simp only [isBlank, Bool.or_eq_true, Bool.and_eq_true, decide_eq_true_eq, beq_iff_eq] at h
  simp only [blankPoints, mem_append, mem_range'_1, mem_cons, not_mem_nil, or_false]
  omega

end Text

theorem Directive.isNameChar_of_isBlank {c : Char} (h : Text.isBlank c) : isNameChar c = false := by
  have hall : ∀ n ∈ Text.blankPoints, isNameChar (Char.ofNat n) = false := by
    decide +kernel
  have hc := hall c.toNat (Text.toNat_mem_blankPoints h)
  rwa [Char.ofNat_toNat] at hc

namespace Proto

/-- The line is made of `word` and `name`, in this order, with blanks between them and around them. -/
def DirectiveLine (word name line : String) : Prop :=
  ∃ lead gap tail : List Char, line.toList = lead ++ word.toList ++ gap ++ name.toList ++ tail ∧
    gap ≠ [] ∧ (∀ c ∈ lead, Text.isBlank c) ∧ (∀ c ∈ gap, Text.isBlank c) ∧ ∀ c ∈ tail, Text.isBlank c

variable {word name line : String} {cs : List Char}

/-- The line goes on behind the word as `rest`, which is what the blanks in front of the word leave. -/
theorem afterWord?_eq_some_iff (hw : ∃ c, word.toList.head? = some c ∧ Text.isBlank c = false)
    {rest : List Char} : afterWord? word cs = some rest ↔
      ∃ lead, cs = lead ++ word.toList ++ rest ∧ ∀ c ∈ lead, Text.isBlank c := by
  rw [afterWord?]
  constructor
  · intro h
    split at h
    · next hpre =>
        obtain ⟨more, hm⟩ := isPrefixOf_iff_prefix.1 hpre
        rw [← hm, drop_left] at h
        cases h
        refine ⟨cs.takeWhile Text.isBlank, ?_, fun c => mem_takeWhile_imp⟩
        rw [append_assoc, hm, takeWhile_append_dropWhile]
    · cases h
  · rintro ⟨lead, rfl, hl⟩
    obtain ⟨c, hc, hb⟩ := hw
    have hd : (lead ++ word.toList ++ rest).dropWhile Text.isBlank = word.toList ++ rest := by
      rw [append_assoc, dropWhile_append_of_pos hl]
      cases hcs : word.toList with
      | nil => simp [hcs] at hc
      | cons d ds =>
        rw [hcs] at hc
        cases hc
        rw [cons_append, dropWhile_cons_of_neg (by simp [hb])]
    rw [hd, if_pos ( isPrefixOf_iff_prefix.2 (List.prefix_append _ _)), drop_left]

theorem isBlankName_iff {name cs : List Char} : isBlankName name cs ↔
      ∃ gap tail, cs = gap ++ name ++ tail ∧ gap ≠ [] ∧ (∀ c ∈ gap, Text.isBlank c) ∧
        ∀ c ∈ tail, Text.isBlank c := by
  simp only [isBlankName, List.any_eq_true, mem_range, Bool.and_eq_true, List.all_eq_true]
  constructor
  · rintro ⟨i, hi, hn, ht⟩
    obtain ⟨more, hm⟩ := isPrefixOf_iff_prefix.1 hn
    rw [← hm, drop_left] at ht
    refine ⟨cs.take (i + 1), more, ?_, ?_, fun c hc => ?_, ht⟩
    · rw [append_assoc, hm, take_append_drop]
    · intro hnil
      rw [take_eq_nil_iff] at hnil
      rcases hnil with hnil | hnil
      · exact absurd hnil (Nat.succ_ne_zero i)
      · rw [hnil] at hi
        exact absurd hi (Nat.not_lt_zero i)
    · have hpre : cs.take (i + 1) <+: cs.takeWhile Text.isBlank := prefix_of_prefix_length_le ( take_prefix _
        _) ( takeWhile_prefix _) (by rw [length_take]; omega)
      exact mem_takeWhile_imp (hpre.subset hc)
  · rintro ⟨gap, tail, rfl, hne, hgap, ht⟩
    have hpos := length_pos_iff.2 hne
    have hd : (gap ++ name ++ tail).drop (gap.length - 1 + 1) = name ++ tail := by
      rw [Nat.sub_add_cancel hpos, append_assoc, drop_left]
    refine ⟨gap.length - 1, ?_, ?_, ?_⟩
    · rw [append_assoc, takeWhile_append_of_pos hgap, length_append]
      omega
    · rw [hd]
      exact isPrefixOf_iff_prefix.2 (List.prefix_append _ _)
    · rw [hd, drop_left]
      exact ht

/-- Looking for the directive of a name accepts the lines that are this directive. -/
theorem isDirective_iff (hw : ∃ c, word.toList.head? = some c ∧ Text.isBlank c = false) :
    isDirective word name line ↔ DirectiveLine word name line := by
  rw [isDirective, Option.any_eq_true]
  constructor
  · rintro ⟨rest, hr, hn⟩
    obtain ⟨lead, hli, hl⟩ := (afterWord?_eq_some_iff hw).1 hr
    obtain ⟨gap, tail, rfl, hne, hgap, ht⟩ := isBlankName_iff.1 hn
    exact ⟨lead, gap, tail, by simpa using hli, hne, hl, hgap, ht⟩
  · rintro ⟨lead, gap, tail, hli, hne, hl, hgap, ht⟩
    refine ⟨gap ++ name.toList ++ tail, (afterWord?_eq_some_iff hw).2 ⟨lead, ?_, hl⟩,
      isBlankName_iff.2 ⟨gap, tail, rfl, hne, hgap, ht⟩⟩
    simpa using hli

theorem takeWhile_isNameChar_append {name tail : List Char} (hn : ∀ c ∈ name, Directive.isNameChar c)
    (ht : ∀ c ∈ tail, Text.isBlank c) : (name ++ tail).takeWhile Directive.isNameChar = name ∧
      (name ++ tail).dropWhile Directive.isNameChar = tail := by
  rw [takeWhile_append_of_pos hn, dropWhile_append_of_pos hn]
  cases tail with
  | nil => simp
  | cons c tail =>
    have hc := isNameChar_of_isBlank (ht c mem_cons_self)
    simp [hc]

/-- Reading the name of a directive gives the name if it is made of name characters. -/
theorem directiveName?_eq_some_iff (hw : ∃ c, word.toList.head? = some c ∧ Text.isBlank c = false) :
    directiveName? word line = some name ↔
      DirectiveLine word name line ∧ name ≠ "" ∧ ∀ c ∈ name.toList, Directive.isNameChar c := by
  refine Option.bind_eq_some_iff.trans ⟨?_, ?_⟩
  · rintro ⟨rest, hr, h⟩
    obtain ⟨lead, hli, hl⟩ := (afterWord?_eq_some_iff hw).1 hr
    dsimp only at h
    split at h
    · next hco =>
        simp only [Bool.and_eq_true, List.all_eq_true, Option.any_eq_true, Bool.not_eq_true',
          isEmpty_eq_false_iff] at hco
        obtain ⟨⟨⟨b, hb, hbl⟩, hne⟩, ht⟩ := hco
        cases h
        rw [DirectiveLine, ne_eq, String.ofList_eq_empty_iff, String.toList_ofList]
        refine ⟨⟨lead, rest.takeWhile Text.isBlank, _, ?_, ?_, hl, fun c => mem_takeWhile_imp,
          ht⟩, hne, fun c => mem_takeWhile_imp⟩
        · rw [hli]
          simp only [append_assoc, takeWhile_append_dropWhile]
        · cases rest with
          | nil => cases hb
          | cons c rest =>
            cases hb
            simp [hbl]
    · cases h
  · rintro ⟨⟨lead, gap, tail, hli, hne, hl, hgap, ht⟩, hn, hch⟩
    refine ⟨gap ++ (name.toList ++ tail),
      (afterWord?_eq_some_iff hw).2 ⟨lead, by simpa using hli, hl⟩, ?_⟩
    obtain ⟨hta, hd⟩ := takeWhile_isNameChar_append hch ht
    have hr : (gap ++ (name.toList ++ tail)).dropWhile Text.isBlank = name.toList ++ tail := by
      rw [dropWhile_append_of_pos hgap]
      cases hcs : name.toList with
      | nil => exact absurd (String.toList_eq_nil_iff.1 hcs) hn
      | cons c cs =>
        have hc : Text.isBlank c = false := by
          rw [← Bool.not_eq_true]
          intro hbl
          have hno := isNameChar_of_isBlank hbl
          rw [hch c (hcs ▸ mem_cons_self)] at hno
          cases hno
        simp [hc]
    have hh : (gap ++ (name.toList ++ tail)).head?.any Text.isBlank := by
      cases gap with
      | nil => exact absurd rfl hne
      | cons c gap => exact hgap c mem_cons_self
    have hn : (!name.toList.isEmpty) := by
      simpa using hn
    dsimp only
    rw [hr, hta, hd, hh, hn, List.all_eq_true.2 ht, String.ofList_toList]
    rfl

theorem head_opening : ∃ c, opening.toList.head? = some c ∧ Text.isBlank c = false :=
  ⟨'/', by decide, by decide⟩

theorem head_closing : ∃ c, closing.toList.head? = some c ∧ Text.isBlank c = false :=
  ⟨'/', by decide, by decide⟩

theorem DirectiveLine.not_closing (h : DirectiveLine opening name line) (other : String) :
    ¬ DirectiveLine closing other line := by
  rintro ⟨lead', gap', tail', hli', -, hl', -, -⟩
  obtain ⟨lead, gap, tail, hli, -, hl, -, -⟩ := h
  have ho : afterWord? opening line.toList = some (gap ++ name.toList ++ tail) :=
    (afterWord?_eq_some_iff head_opening).2 ⟨lead, by simpa using hli, hl⟩
  have hc : afterWord? closing line.toList = some (gap' ++ other.toList ++ tail') :=
    (afterWord?_eq_some_iff head_closing).2 ⟨lead', by simpa using hli', hl'⟩
  -- behind the blanks in front, the two words differ
  rw [afterWord?] at ho hc
  split at ho
  · next hpre =>
      obtain ⟨more, hm⟩ := isPrefixOf_iff_prefix.1 hpre
      rw [← hm] at hc
      cases hc
  · cases ho

theorem DirectiveLine.head (hw : word.toList.head? = some '/') (h : DirectiveLine word name line) :
    ∃ c cs, line.toList = c :: cs ∧ (Text.isBlank c ∨ c = '/') := by
  obtain ⟨lead, gap, tail, hl, -, hle, -, -⟩ := h
  cases lead with
  | nil =>
    cases hcs : word.toList with
    | nil => simp [hcs] at hw
    | cons d ds =>
      rw [hcs] at hw hl
      cases hw
      exact ⟨_, _, hl, .inr rfl⟩
  | cons d ds => exact ⟨_, _, hl, .inl (hle d mem_cons_self)⟩

end Proto

end Excerpt
