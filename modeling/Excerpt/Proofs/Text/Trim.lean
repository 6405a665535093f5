import Excerpt.Proofs.Text.Split
import Excerpt.Text.Blank
import Mathlib.Data.List.Infix
import Mathlib.Data.List.TakeWhile

/-!
# Trimming a text

Trimming takes off what stands at the two ends (`exists_trimBy`) and keeps a text
that has nothing to take off. So a word without blanks stands in a text if and only
if it stands in the trimmed text (`contains_trim`).
-/

namespace Excerpt

open List

namespace Text

variable {p : Char → Bool} {lead cs tail part : List Char}

theorem dropWhile_of_head (h : ∀ c ∈ cs.head?, p c = false) : cs.dropWhile p = cs := by
  cases cs with
  | nil => rfl
  | cons c cs => simp [h c rfl]

/-- What stands around a text is taken off, and no more. -/
theorem trimBy_append (hl : ∀ c ∈ lead, p c) (hf : ∀ c ∈ cs.head?, p c = false)
    (hla : ∀ c ∈ cs.getLast?, p c = false) (ht : ∀ c ∈ tail, p c) :
    trimBy p (lead ++ cs ++ tail) = cs := by
  have ht' : ∀ d ∈ tail.reverse, p d := by simpa using ht
  rw [trimBy, append_assoc, dropWhile_append_of_pos hl]
  cases cs with
  | nil => simp [dropWhile_eq_nil_iff.2 ht]
  | cons c cs =>
    have hd : (c :: cs ++ tail).dropWhile p = c :: cs ++ tail := dropWhile_of_head (by simpa using hf)
    rw [hd, reverse_append, dropWhile_append_of_pos ht',
      dropWhile_of_head (by rwa [head?_reverse]), reverse_reverse]

theorem trimBy_of_forall (h : ∀ c ∈ cs, p c = false) : trimBy p cs = cs := by
  rw [trimBy, dropWhile_of_head fun c hc => h c (mem_of_head? hc),
    dropWhile_of_head fun c hc => h c (mem_reverse.1 (mem_of_head? hc)), reverse_reverse]

/-- A text is what trimming leaves of it, with what was taken off around it. -/
theorem exists_trimBy (p : Char → Bool) (cs : List Char) :
    ∃ lead tail, cs = lead ++ trimBy p cs ++ tail ∧ (∀ c ∈ lead, p c) ∧ ∀ c ∈ tail, p c := by
  refine ⟨cs.takeWhile p, ((cs.dropWhile p).reverse.takeWhile p).reverse, ?_,
    fun c => mem_takeWhile_imp, fun c hc => mem_takeWhile_imp (mem_reverse.1 hc)⟩
  rw [trimBy, append_assoc, ← reverse_append, takeWhile_append_dropWhile,
    reverse_reverse, takeWhile_append_dropWhile]

theorem hasPart_iff : hasPart part cs ↔ part <:+: cs := by
  induction cs with
  | nil => simp [hasPart]
  | cons c cs ih => rw [hasPart, Bool.or_eq_true, isPrefixOf_iff_prefix, ih, infix_cons_iff]

/-- A part without blanks does not reach into the blanks behind a text. -/
theorem infix_append_iff (hne : part ≠ []) (hp : ∀ c ∈ part, p c = false)
    (ht : ∀ c ∈ tail, p c) : part <:+: cs ++ tail ↔ part <:+: cs := by
  induction tail generalizing cs with
  | nil => rw [append_nil]
  | cons d tail ih =>
    obtain ⟨hd, ht⟩ := forall_mem_cons.1 ht
    rw [← singleton_append, ← append_assoc, ih ht, infix_concat_iff, or_iff_right]
    rintro ⟨front, hfr⟩
    -- the last character of the part would be the blank
    have hl : part.getLast? = some d := by
      rw [← getLast?_append_of_ne_nil front hne, hfr, getLast?_concat]
    have hf := hp d (mem_of_getLast? hl)
    rw [hd] at hf
    cases hf

theorem contains_trim {s word : String} (hne : word ≠ "")
    (hw : ∀ c ∈ word.toList, isBlank c = false) : contains (trim s) word = contains s word := by
  obtain ⟨lead, tail, hs, hl, ht⟩ := exists_trimBy isBlank s.toList
  have hne' : word.toList ≠ [] := by simpa using hne
  have hb : ∀ c ∈ lead.reverse, isBlank c := by simpa using hl
  have hrev : ∀ c ∈ word.toList.reverse, isBlank c = false := by simpa using hw
  have htr : (trim s).toList = trimBy isBlank s.toList := by rw [trim, String.toList_ofList]
  have hf : word.toList <:+: lead ++ (trim s).toList ↔ word.toList <:+: (trim s).toList := by
    rw [← reverse_infix, reverse_append, infix_append_iff (by simpa using hne') hrev hb, reverse_infix]
  rw [Bool.eq_iff_iff, contains, contains, hasPart_iff, hasPart_iff, hs, ← htr,
    infix_append_iff hne' hw ht, hf]

/-- Texts that differ in the blanks around them hold the same words. -/
theorem contains_eq_of_trim_eq {s t word : String} (h : trim s = trim t) (hne : word ≠ "")
    (hw : ∀ c ∈ word.toList, isBlank c = false) : contains s word = contains t word := by
  rw [← contains_trim hne hw, h, contains_trim hne hw]

end Text

end Excerpt
