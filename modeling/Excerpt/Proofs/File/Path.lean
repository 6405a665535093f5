import Excerpt.File.Path
import Excerpt.Proofs.Text.Split
import Mathlib.Data.List.Lex
import Mathlib.Data.String.Basic

/-!
# The order and the spelling of paths

Paths are compared part by part, and a path comes before its extensions. This
is the lexicographic order on the lists of parts, hence a linear order. A path
spelled without empty parts and single dots can be read off its parts, so two such
spellings below one directory are two files.
-/

namespace Excerpt

open List Text

namespace Path

theorem go_iff_lt (as bs : List String) : before.go as bs ↔ as < bs := by
  induction as generalizing bs with
  | nil => cases bs <;> simp [before.go]
  | cons a as ih =>
    cases bs with
    | nil => simp [before.go]
    | cons b bs =>
      rw [before.go, cons_lt_cons_iff]
      by_cases hab : a = b
      · subst hab
        simp [ih]
      · simp [hab]

theorem before_iff_lt (p q : Path) : p.before q ↔ p.parts < q.parts :=
  go_iff_lt p.parts q.parts

theorem not_before_iff_le (p q : Path) : (!q.before p) ↔ p.parts ≤ q.parts := by
  rw [Bool.not_eq_true', ← Bool.not_eq_true, before_iff_lt, not_lt]

theorem stem_append_suffix (p : Path) : p.stem.toList ++ p.suffix.toList = p.name.toList := by
  unfold stem suffix
  cases innerDot? p.name.toList with
  | none => simp
  | some i => simp [Text.take, Text.drop]

/-! ## Spellings -/

/-- No part between slashes is empty or a single dot. -/
def Spelled (cs : List Char) : Prop :=
  ∀ part ∈ partsFrom ['/'] 0 cs, part ≠ [] ∧ part ≠ ['.']

theorem ofString_ofList {cs : List Char} (h : Spelled cs) :
    ofString (String.ofList cs) = ⟨(partsFrom ['/'] 0 cs).map String.ofList⟩ := by
  have hs : slash.toList = ['/'] := by decide
  have hn : ((partsFrom ['/'] 0 cs).map String.ofList).filter
      (fun p => !(p.isEmpty || p == ".")) = (partsFrom ['/'] 0 cs).map String.ofList := by
    rw [filter_eq_self]
    intro p hp
    obtain ⟨part, hpa, rfl⟩ := List.mem_map.1 hp
    obtain ⟨hne, hdot⟩ := h part hpa
    have hdot' : String.ofList part ≠ "." := fun heq =>
      hdot (by rw [← String.toList_ofList (l := part), heq]; decide)
    simp [hne, hdot', ← String.toList_eq_nil_iff]
  have hr : startsWith (String.ofList cs) slash = false := by
    rw [startsWith, hs, String.toList_ofList]
    cases cs with
    | nil => rfl
    | cons c cs =>
      by_contra hpre
      obtain rfl : '/' = c := by simpa using hpre
      refine (h [] ?_).1 rfl
      rw [← nil_append ('/' :: cs), partsFrom_append not_mem_nil]
      exact mem_cons_self
  rw [ofString, split, hs, String.toList_ofList, hn, hr]
  rfl

theorem child_ofList (repo : Path) {cs : List Char} (h : Spelled cs) : repo.child (String.ofList cs) =
      ⟨repo.parts ++ (partsFrom ['/'] 0 cs).map String.ofList⟩ := by
  have hr : isAbsolute ⟨(partsFrom ['/'] 0 cs).map String.ofList⟩ = false := by
    rw [isAbsolute, head?_map]
    cases hp : partsFrom ['/'] 0 cs with
    | nil => rfl
    | cons part parts =>
      have hno : '/' ∉ part :=
        not_mem_of_mem_partsFrom part (hp ▸ mem_cons_self)
      have hne : String.ofList part ≠ slash := fun heq =>
        hno (by rw [← String.toList_ofList (l := part), heq]; decide)
      simpa using hne
  rw [child, ofString_ofList h, join, if_neg (by simp [hr])]

/-- Spellings without empty parts and dots name different files. -/
theorem child_injective {repo : Path} {cs ds : List Char} (hcs : Spelled cs) (hds : Spelled ds)
    (h : repo.child (String.ofList cs) = repo.child (String.ofList ds)) : cs = ds := by
  rw [child_ofList repo hcs, child_ofList repo hds] at h
  have hp := append_cancel_left (Path.mk.inj h)
  have hs := map_injective_iff.2 (fun _ _ => String.ofList_injective) hp
  rw [← intercalate_partsFrom '/' cs, hs, intercalate_partsFrom]

end Path

end Excerpt
