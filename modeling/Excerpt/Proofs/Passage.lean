import Excerpt.Citation.Basic
import Excerpt.Extract
import Excerpt.Proofs.Marker.Section
import Excerpt.Proofs.Text.Lines
import Mathlib.Algebra.Order.Group.Int

/-!
# Passages of lines

A passage of lines has two ends, which are kept as they were asked for, and the
lines of the file that lie between them. The ends need not be in order or in
the file, so the passage may hold fewer lines than the ends say. A marked section
is such a passage: its ends are the lines next to its directives, and they change
places if the directives have no line between them.
-/

namespace Excerpt

open List Outcome Proto Report

namespace Passage

/-- The passage from `first` to `last` holds the line of number `n`. A last line below
zero is counted from the end of the file. -/
def Holds (lines : List String) (first last n : Int) : Prop :=
  1 ≤ n ∧ n ≤ lines.length ∧ first ≤ n ∧ n ≤ if last < 0 then lines.length + last else last

variable {lines : List String} {first last n : Int} {t : String}

theorem mem_linesBetween : t ∈ linesBetween lines first last ↔
      ∃ n, Holds lines first last n ∧ lines[(n - 1).toNat]? = some t := by
  unfold linesBetween Holds
  simp only [mem_iff_getElem?, getElem?_drop, getElem?_take, Option.ite_none_right_eq_some]
  constructor
  · rintro ⟨k, hlt, hk⟩
    obtain ⟨hlen, -⟩ := List.getElem?_eq_some_iff.1 hk
    refine ⟨((first - 1).toNat + k : Nat) + 1, ?_, by rwa [add_sub_cancel_right]⟩
    split at hlt <;> split <;> omega
  · rintro ⟨n, ⟨hpos, hlen, hf, hl⟩, hn⟩
    have hadd : (first - 1).toNat + ((n - 1).toNat - (first - 1).toNat) = (n - 1).toNat := by
      omega
    refine ⟨(n - 1).toNat - (first - 1).toNat, ?_, by rwa [hadd]⟩
    split <;> split at hl <;> omega

theorem holds_iff_of_between (hmin : min first last ≤ n) (hmax : n ≤ max first last) :
    Holds lines first last n ↔ 1 ≤ n ∧ n ≤ lines.length ∧
      if last < 0 then n = first ∧ n ≤ lines.length + last else first ≤ last := by
  unfold Holds
  split <;> omega

theorem forall_between_holds_iff : (∀ n, min first last ≤ n → n ≤ max first last → Holds lines first last n) ↔
      1 ≤ first ∧ first ≤ last ∧ last ≤ lines.length := by
  constructor
  · intro h
    obtain ⟨hpos, -⟩ := h first (min_le_left _ _) (le_max_left _ _)
    obtain ⟨-, hlen, hle, -⟩ := h last (min_le_right _ _) (le_max_right _ _)
    exact ⟨hpos, hle, hlen⟩
  · rintro ⟨hpos, hle, hlen⟩ n hmin hmax
    rw [holds_iff_of_between hmin hmax, if_neg (by omega)]
    omega

theorem not_holds_of_lt (hl : 0 ≤ last) (h : last < first) (n : Int) : ¬ Holds lines first last n := by
  unfold Holds
  rw [if_neg (by omega)]
  omega

end Passage

/-- A selection of lines or of a marked section, and of nothing else. -/
inductive Selection.OfLines : Selection → Prop where
  | lines (v : Value) : OfLines { lines := some v }
  | marked (marker : String) : OfLines { marker := some marker }

namespace Source

variable {source : Source} {language : Language} {first last : Int} {found : Passage}
  {lines : List String} {name : String} {selection : Selection}

/-- The ends that a selection of lines or of a marked section has in a source. -/
inductive Chosen (source : Source) : Language → Selection → Int → Int → Prop where
  | lines {language : Language} {v : Value} {first last : Int}
      (hends : Selection.ends v = .ok (first, last)) :
      Chosen source language { lines := some v } first last
  | comments {language : Language} {marker : String} {sections : Sections} {first last : Int}
      (hlanguage : language ≠ .proto) (hsections : source.commentSections.outcome = .ok sections)
      (hget : sections.get? marker = some (first, last)) :
      Chosen source language { marker := some marker } first last
  | directives {marker : String} {lines : List String} {i j : Nat}
      (hlines : source.lines = .ok lines)
      (hbounds : boundsFrom marker none 0 lines = ⟨some i, some j⟩) :
      Chosen source .proto { marker := some marker } (i + 2) j

theorem outcome_extract_lines (source : Source) (language : Language) (first last : Int) :
    (source.extract language (.lines first last)).outcome = source.linePassage first last := by
  cases language with
  | cpp => rfl
  | proto => rfl
  | plain => rfl

theorem exists_of_linePassage (h : source.linePassage first last = .ok found) :
    ∃ lines, source.lines = .ok lines ∧ found = Passage.ofLines lines first last := by
  obtain ⟨lines, hl, h⟩ := Outcome.bind_eq_ok.1 h
  cases h
  exact ⟨lines, hl, rfl⟩

theorem exists_of_commentSection {marker : String} (h : (source.commentSection marker).outcome = .ok found) :
    ∃ lines sections first last, source.lines = .ok lines ∧ source.commentSections.outcome = .ok sections ∧
      sections.get? marker = some (first, last) ∧ found = Passage.ofLines lines first last := by
  obtain ⟨sections, hs, h⟩ := bind_eq_ok.1 h
  split at h
  · next first last hget =>
      obtain ⟨lines, hl, hf⟩ := exists_of_linePassage h
      exact ⟨lines, sections, first, last, hl, hs, hget, hf⟩
  · cases h

theorem exists_of_sectionOf {place : String} (h : sectionOf name place 1 lines = .ok found) :
    ∃ i j : Nat, boundsFrom name none 0 lines = ⟨some i, some j⟩ ∧
      found = Passage.ofLines lines (i + 2) j := by
  unfold sectionOf at h
  split at h
  · cases h
  · cases h
  · next i j hb =>
      cases h
      have hf : (1 + i + 1 : Int) = i + 2 := by omega
      have hl : (1 + j - 1 : Int) = j := by omega
      have hd : ((i + 2 : Int) - 1).toNat = i + 1 := by omega
      refine ⟨i, j, hb, ?_⟩
      rw [Passage.ofLines, Passage.linesBetween, if_neg (by omega), hd, Int.toNat_natCast, hf, hl]

/-- What is found for a selection of lines or of a marked section is the passage of lines
between its ends. -/
theorem exists_chosen {path : String} {request : Request}
    (hs : selection.OfLines) (hr : selection.request path = .ok request)
    (h : (source.extract language request).outcome = .ok found) :
    ∃ lines first last, source.lines = .ok lines ∧ Chosen source language selection first last ∧
      found = Passage.ofLines lines first last := by
  cases hs with
  | lines v =>
    obtain ⟨⟨first, last⟩, hen, hr⟩ := Outcome.bind_eq_ok.1 hr
    cases hr
    rw [outcome_extract_lines] at h
    obtain ⟨lines, hl, hf⟩ := exists_of_linePassage h
    exact ⟨lines, first, last, hl, .lines hen, hf⟩
  | marked marker =>
    cases hr
    by_cases hla : language = .proto
    · subst hla
      obtain ⟨lines, hl, h⟩ := bind_eq_ok.1 h
      obtain ⟨i, j, hb, hf⟩ := exists_of_sectionOf h
      exact ⟨lines, i + 2, j, hl, .directives hl hb, hf⟩
    · have hsection : (source.commentSection marker).outcome = .ok found := by
        cases language with
        | cpp => exact h
        | proto => exact absurd rfl hla
        | plain => exact h
      obtain ⟨lines, sections, first, last, hl, hse, hget, hf⟩ :=
        exists_of_commentSection hsection
      exact ⟨lines, first, last, hl, .comments hla hse hget, hf⟩

theorem stop_lt_of_boundsFrom {start : Option Nat} {i j : Nat}
    (h : (boundsFrom name start i lines).stop = some j) : j < i + lines.length := by
  induction lines generalizing start i with
  | nil => cases h
  | cons line lines ih =>
    rw [length_cons]
    unfold boundsFrom at h
    split at h
    · have hlt := ih h
      omega
    · split at h
      · cases h
        omega
      · have hlt := ih h
        omega

theorem newlines_le_length {bs : Bytes} (hc : source.content = .ok bs)
    (h : source.lines = .ok lines) : bs.newlines ≤ lines.length := by
  obtain ⟨text, ht, h⟩ := Outcome.bind_eq_ok.1 h
  cases h
  obtain ⟨bs', hc', ht⟩ := Outcome.bind_eq_ok.1 ht
  obtain ⟨s, hs, ht⟩ := Outcome.bind_eq_ok.1 ht
  cases ht
  cases hc.symm.trans hc'
  rw [(Utf8.spells_of_decode (mapError_eq_ok.1 hs)).newlines]
  exact Text.count_le_length_lines_unifyEnds s

theorem Chosen.ends_of_marker {f : Folder} {p : Path}
    (hl : (ofFolder f p).lines = .ok lines)
    (h : Chosen (ofFolder f p) language selection first last) (hm : selection.marker ≠ none) :
    2 ≤ first ∧ 0 ≤ last ∧ last ≤ lines.length := by
  cases h with
  | lines hen => exact absurd rfl hm
  | comments hlanguage hs hget =>
    obtain ⟨src, hc, h⟩ := bind_eq_ok.1 hs
    obtain ⟨root, ht, h⟩ := bind_eq_ok.1 h
    obtain ⟨src', hc', ht⟩ := Outcome.bind_eq_ok.1 ht
    cases hc.symm.trans hc'
    have hwf := Node.parse_wellFormed (mapError_eq_ok.1 ht)
    obtain ⟨hf, hla, hrow⟩ := Marker.ends_of_mem_sections hwf h _ (Table.mem_of_get?_eq_some hget)
    exact ⟨hf, hla, hrow.trans (Int.ofNat_le.2 (newlines_le_length hc hl))⟩
  | directives hl' hb =>
    cases hl.symm.trans hl'
    have hst := stop_lt_of_boundsFrom (congrArg Proto.Bounds.stop hb)
    omega

end Source

end Excerpt
