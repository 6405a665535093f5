import Excerpt.Proofs.Text.Split
import Excerpt.Regex.Read
import Mathlib.Data.List.Induction

/-!
# Names matched as a whole

An expression that lists names, each between a mark for the start and one for the
end of the text, is read as the choice between these names (`readFrom_names`). It
occurs in a text exactly if the text is one of the names, up to a line feed at its
end (`occursIn_anyOf_iff`).
-/

namespace Excerpt.Regex

open List Text

variable {name : List Char} {names : List (List Char)} {c d : Char}

/-! ### Reading -/

/-- A word character is none of the marks of an expression. -/
theorem ne_of_isWord (h : isWord c) (hd : isWord d = false) : c ≠ d := by
  rintro rfl
  rw [h] at hd
  cases hd

/-- A word character stands for itself. -/
theorem readFrom_word (hc : isWord c) (g : Group) (outer : List Group)
    (cs : List Char) : readFrom g outer (c :: cs) = readFrom (g.push (char c)) outer cs := by
  have hs : (c == '*' || c == '+' || c == '?') = false := by
    simp [ne_of_isWord hc (d := '*') (by decide), ne_of_isWord hc (d := '+') (by decide),
      ne_of_isWord hc (d := '?') (by decide)]
  have hm : ∀ {d : Char}, isWord d = false → c ≠ d := ne_of_isWord hc
  rw [readFrom.eq_def]
  split
  case h_1 h => cases h
  case h_13 h =>
    obtain ⟨rfl, rfl⟩ := cons.inj h
    rw [if_neg (by simp [hs])]
  case h_14 h =>
    obtain ⟨rfl, rfl⟩ := cons.inj h
    rw [if_neg (by simp [hs])]
  -- the other cases start with a mark
  all_goals next h => exact absurd (cons.inj h).1 (hm (by decide))

theorem readFrom_nil (g : Group) : readFrom g [] [] = .ok g.regex := by
  rw [readFrom.eq_def]
  rfl

theorem readFrom_marks (g : Group) (outer : List Group) (cs : List Char) :
    readFrom g outer ('^' :: cs) = readFrom (g.push textStart) outer cs ∧
      readFrom g outer ('$' :: cs) = readFrom (g.push textEnd) outer cs ∧
      readFrom g outer ('|' :: cs) = readFrom g.bar outer cs := by
  refine ⟨?_, ?_, ?_⟩
  · rw [readFrom.eq_def]
    rfl
  · rw [readFrom.eq_def]
    rfl
  · rw [readFrom.eq_def]
    rfl

/-- The characters one after the other, and then the end of the text. -/
def letters : List Char → Regex
  | [] => textEnd
  | c :: cs => seq (char c) (letters cs)

/-- The characters are the whole text. -/
def whole (name : List Char) : Regex :=
  seq textStart (letters name)

/-- One of the names is the whole text. -/
def anyOf (name : List Char) : List (List Char) → Regex
  | [] => whole name
  | next :: names => alt (whole name) (anyOf next names)

/-- A name between the marks for the start and the end of the text. -/
def anchored (name : List Char) : List Char :=
  '^' :: (name ++ ['$'])

/-- The pieces of a name, latest first. -/
def letterPieces (name : List Char) : List Piece :=
  name.reverse.map fun c => ⟨char c, false⟩

theorem readFrom_letters (hn : ∀ c ∈ name, isWord c) (alternatives : List Regex)
    (pieces : List Piece) (outer : List Group) (cs : List Char) :
    readFrom ⟨alternatives, pieces⟩ outer (name ++ cs) =
      readFrom ⟨alternatives, letterPieces name ++ pieces⟩ outer cs := by
  induction name generalizing pieces with
  | nil => rfl
  | cons c name ih =>
    obtain ⟨hc, hn⟩ := forall_mem_cons.1 hn
    rw [cons_append, readFrom_word hc, Group.push, ih hn]
    simp [letterPieces]

theorem letters_ne_nothing (name : List Char) : letters name ≠ nothing := by
  cases name with
  | nil => simp [letters]
  | cons c name => simp [letters]

/-- Pieces are put in front of what was read behind them. -/
theorem foldl_letterPieces (name rest : List Char) :
    (letterPieces name).foldl (fun acc p => if acc = nothing then p.regex else seq p.regex acc)
      (letters rest) = letters (name ++ rest) := by
  induction name using List.reverseRecOn generalizing rest with
  | nil => rfl
  | append_singleton name c ih =>
    have hp : letterPieces (name ++ [c]) = ⟨char c, false⟩ :: letterPieces name := by
      simp [letterPieces]
    rw [hp, foldl_cons, if_neg (letters_ne_nothing rest)]
    rw [append_assoc, singleton_append]
    exact ih (c :: rest)

/-- The alternative made of a name between its marks. -/
theorem sequence_anchored (alternatives : List Regex) (name : List Char) :
    Group.sequence ⟨alternatives, ⟨textEnd, false⟩ :: (letterPieces name ++ [⟨textStart, false⟩])⟩ =
      whole name := by
  have hl := foldl_letterPieces name []
  rw [append_nil, letters] at hl
  rw [Group.sequence, foldl_cons, if_pos rfl, foldl_append, hl, foldl_cons,
    if_neg (letters_ne_nothing name)]
  rfl

theorem readFrom_anchored (hn : ∀ c ∈ name, isWord c) (alternatives : List Regex)
    (outer : List Group) (cs : List Char) : readFrom ⟨alternatives, []⟩ outer (anchored name ++ cs) =
      readFrom ⟨alternatives, ⟨textEnd, false⟩ :: (letterPieces name ++ [⟨textStart, false⟩])⟩ outer cs := by
  rw [anchored, cons_append, (readFrom_marks _ _ _).1, append_assoc, Group.push, readFrom_letters hn,
    singleton_append, (readFrom_marks _ _ _).2.1, Group.push]

/-- Names between their marks, with bars between them, are read as the choice between the names. -/
theorem readFrom_names (h : ∀ n ∈ name :: names, ∀ c ∈ n, isWord c) (alternatives : List Regex) :
    readFrom ⟨alternatives, []⟩ [] (List.intercalate ['|'] ((name :: names).map anchored)) =
      .ok (alternatives.foldl (fun acc r => alt r acc) (anyOf name names)) := by
  induction names generalizing name alternatives with
  | nil =>
    have hr := readFrom_anchored (h name mem_cons_self) alternatives [] []
    rw [append_nil] at hr
    rw [map_singleton, intercalate_singleton, hr, readFrom_nil, Group.regex,
      sequence_anchored]
    rfl
  | cons next names ih =>
    obtain ⟨hna, hn⟩ := forall_mem_cons.1 h
    have hmap : (name :: next :: names).map anchored =
        anchored name :: anchored next :: names.map anchored := rfl
    rw [hmap, intercalate_cons_cons, append_assoc, readFrom_anchored hna,
      singleton_append, (readFrom_marks _ _ _).2.2, Group.bar, sequence_anchored]
    exact ih hn (whole name :: alternatives)

/-! ### Occurring -/

variable {total left : Nat} {text : List Char} {ps qs : List Place}

attribute [local simp] reach

theorem union_eq_nil : Place.union ps qs = [] ↔ ps = [] ∧ qs = [] := by
  rw [Place.union, append_eq_nil_iff]
  refine and_congr_right fun hps => ?_
  rw [hps]
  simp [Place.isAmong]

theorem length_le_of_mem_all {p : Place} (h : p ∈ Place.all text) : p.left ≤ text.length := by
  induction text with
  | nil =>
    rw [mem_singleton.1 h]
    exact Nat.le_refl 0
  | cons c text ih =>
    rcases mem_cons.1 h with rfl | h
    · exact Nat.le_refl _
    · exact Nat.le_succ_of_le (ih h)

/-- Only the first place has the whole text behind it. -/
theorem reach_textStart (text : List Char) :
    reach text.length textStart (Place.all text) = [⟨text.length, text⟩] := by
  rw [reach]
  cases text with
  | nil => rfl
  | cons c text =>
    have hr : (Place.all text).filter (·.left == (c :: text).length) = [] := by
      refine filter_eq_nil_iff.2 fun p hp => ?_
      have hle := length_le_of_mem_all hp
      simp only [length_cons, beq_iff_eq]
      omega
    rw [Place.all, filter_cons, hr]
    simp

theorem has_range_self : (ClassItem.range c c).has d ↔ d = c := by
  rw [ClassItem.has, Bool.and_eq_true, decide_eq_true_eq, decide_eq_true_eq]
  constructor
  · rintro ⟨hle, hge⟩
    exact Char.toNat_inj.1 (Nat.le_antisymm hge hle)
  · rintro rfl
    exact ⟨Nat.le_refl _, Nat.le_refl _⟩

/-- A character takes one step where it stands, and none elsewhere. -/
theorem reach_char (c d : Char) (text : List Char) :
    reach total (char c) [⟨left, d :: text⟩] = if d = c then [⟨left - 1, text⟩] else [] := by
  have hs : Place.step? (fun x => [ClassItem.range c c].any (·.has x) != false) ⟨left, d :: text⟩ =
      if d = c then .some ⟨left - 1, text⟩ else none := by
    simp [Place.step?, has_range_self]
  rw [char, reach, filterMap_cons, hs]
  by_cases hd : d = c
  · rw [if_pos hd, if_pos hd]
    rfl
  · rw [if_neg hd, if_neg hd]
    rfl

theorem reach_char_nil (c : Char) : reach total (char c) [⟨left, []⟩] = [] := rfl

theorem reach_letters_nil (name : List Char) : reach total (letters name) [] = [] := by
  induction name with
  | nil => rfl
  | cons c name ih => exact ih

/-- The characters are all that stands behind the place, up to a line feed at the end. -/
theorem reach_letters :
    reach total (letters name) [⟨left, text⟩] ≠ [] ↔ text = name ∨ text = name ++ ['\n'] := by
  induction name generalizing left text with
  | nil => simp [letters, or_iff_not_imp_left]
  | cons c name ih =>
    rw [letters, reach]
    cases text with
    | nil => simp [reach_char_nil, reach_letters_nil]
    | cons d text =>
      rw [reach_char]
      by_cases hd : d = c
      · rw [if_pos hd, ih]
        simp [hd]
      · rw [if_neg hd, reach_letters_nil]
        simp [hd]

theorem reach_whole :
    reach text.length (whole name) (Place.all text) ≠ [] ↔ text = name ∨ text = name ++ ['\n'] := by
  rw [whole, reach, reach_textStart, reach_letters]

theorem reach_anyOf : reach text.length (anyOf name names) (Place.all text) ≠ [] ↔
      ∃ n ∈ name :: names, text = n ∨ text = n ++ ['\n'] := by
  induction names generalizing name with
  | nil => simp [anyOf, reach_whole]
  | cons next names ih =>
    rw [anyOf, reach, ne_eq, union_eq_nil, not_and_or, ← ne_eq, ← ne_eq, reach_whole, ih]
    simp

/-- One of the names occurs as a whole exactly if the text is one of them, up to a line feed at the end. -/
theorem occursIn_anyOf_iff {s : String} : (anyOf name names).occursIn s ↔
      ∃ n ∈ name :: names, s.toList = n ∨ s.toList = n ++ ['\n'] := by
  rw [occursIn, Bool.not_eq_true', isEmpty_eq_false_iff, reach_anyOf]

theorem occursIn_nothing (s : String) : nothing.occursIn s := by
  rw [occursIn, reach]
  cases s.toList with
  | nil => rfl
  | cons c cs => rfl

end Excerpt.Regex
