import Excerpt.Diff.LineMap
import Excerpt.Proofs.Diff.Header
import Excerpt.Proofs.Diff.Shown
import Excerpt.Proofs.Text.Split

/-!
# Line maps of written diffs

Reading a written diff enters, hunk by hunk, what the hunk shows of the new text,
and the headers give the shift of the lines between. The two agree where they
meet: a line of the new text that no hunk shows is kept, and its shift is the sum
over the hunks before it. An empty line after the last line feed is read as one
more kept line; it comes right after the last hunk, where the shift says the same.

The main statement is `oldLine_unified`: a line of the new text stands for its
own line of the old text, or, if it was added, for that of the nearest kept line
before it.
-/

namespace Excerpt

open List Option Hunk

namespace LineMap

open Unified

variable {old new n : Nat} {bs : List Block} {k m : Int} {d : Document} {v : Option Int} {l : Line}
  {ls : List Line} {b : Block} {map : LineMap}

/-! ## Reading the lines of a hunk -/

/-- One line of a hunk moves the place in both texts and enters what it shows. -/
theorem step_written_eq (hl : l.Clean) (map : LineMap) (old new : Int) :
    Progress.step ⟨map, some (old, new)⟩ l.written =
      ⟨if l.newCount = 1 then map.put new (if l.isKept then some old else none) else map,
        some (old + l.oldCount, new + l.newCount)⟩ := by
  have hp : "+++".toList = ['+', '+', '+'] := by decide
  have hmi : "---".toList = ['-', '-', '-'] := by decide
  unfold Progress.step
  rw [header?_written l, hp, hmi]
  cases l with
  | kept t => simp [Line.written, Line.oldCount, Line.newCount, Line.isKept, Line.old?, Line.new?]
  | blank => simp [Line.written, Line.oldCount, Line.newCount, Line.isKept, Line.old?, Line.new?]
  | removed t =>
    have hm : ¬ ['-', '-', '-'].isPrefixOf ('-' :: t) := by
      rw [ isPrefixOf_iff_prefix, cons_prefix_cons]
      exact fun h => hl.2 h.2
    simp [Line.written, Line.oldCount, Line.newCount, Line.old?, Line.new?] at hm ⊢
    simp [hm]
  | added t =>
    have hm : ¬ ['+', '+', '+'].isPrefixOf ('+' :: t) := by
      rw [ isPrefixOf_iff_prefix, cons_prefix_cons]
      exact fun h => hl.2 h.2
    simp [Line.written, Line.oldCount, Line.newCount, Line.isKept, Line.old?, Line.new?]
      at hm ⊢
    simp [hm]
  | remark t => simp [Line.written, Line.oldCount, Line.newCount, Line.old?, Line.new?]

theorem step_written (hl : l.Clean) (map : LineMap) (old new : Nat) : ∃ map' : LineMap,
      Progress.step ⟨map, some ((old : Int), (new : Int))⟩ l.written =
        ⟨map', some (((old + l.oldCount : Nat) : Int), ((new + l.newCount : Nat) : Int))⟩ ∧ ∀ k, map'.get? k =
        if l.newCount = 1 ∧ k = new then some (if l.isKept then some (old : Int) else none)
        else map.get? k := by
  refine ⟨_, step_written_eq hl map old new, fun k => ?_⟩
  by_cases hnew : l.newCount = 1
  · rw [if_pos hnew, Table.get?_put]
    simp only [hnew, true_and, eq_comm]
  · rw [if_neg hnew, if_neg (fun h => hnew h.1)]

/-- The place after lines of a diff. -/
def readLines (p : Progress) (lines : List (List Char)) : Progress :=
  lines.foldl Progress.step p

@[simp] theorem readLines_nil (p : Progress) : readLines p [] = p := rfl

theorem readLines_append (p : Progress) (as bs : List (List Char)) :
    readLines p (as ++ bs) = readLines (readLines p as) bs :=
  foldl_append

/-- Reading the lines of a hunk enters what they show. -/
theorem readLines_written (hls : ∀ l ∈ ls, l.Clean) (map : LineMap) (old new : Nat) :
    ∃ map' : LineMap, readLines ⟨map, some ((old : Int), (new : Int))⟩ (ls.map Line.written) =
        ⟨map', some (((old + (olds ls).length : Nat) : Int), ((new + (news ls).length : Nat) : Int))⟩ ∧
      ∀ k, map'.get? k = (shown old new ls k).or (map.get? k) := by
  induction ls generalizing map old new with
  | nil => exact ⟨map, by simp [readLines, olds, news], fun k => by simp [shown]⟩
  | cons l ls ih =>
    have hc := forall_mem_cons.1 hls
    obtain ⟨map₁, hs, hget₁⟩ := step_written hc.1 map old new
    obtain ⟨map₂, hr, hget₂⟩ := ih hc.2 map₁ (old + l.oldCount) (new + l.newCount)
    refine ⟨map₂, ?_, fun k => ?_⟩
    · rw [map_cons, readLines, foldl_cons, hs]
      rw [readLines] at hr
      rw [hr, length_olds_cons, length_news_cons, Nat.add_assoc, Nat.add_assoc]
    · rw [hget₂, hget₁, shown]
      split
      · next hk =>
        have hn : shown (old + l.oldCount) (new + l.newCount) ls k = none :=
          shown_eq_none_of_lt (by push_cast; omega)
        rw [hn]
        rfl
      · rfl

/-! ## Reading hunk after hunk -/

/-- What the hunks show of line `k` of the new text. -/
def shownBy (old new : Nat) : List Block → Int → Option (Option Int)
  | [], _ => none
  | b :: bs, k =>
    (shownBy (old + (olds b.lines).length) (new + (news b.lines).length) bs k).or
      (shown (old + b.gap.length) (new + b.gap.length) b.body k)

theorem shownBy_eq_none_of_lt (h : k < new) : shownBy old new bs k = none := by
  induction bs generalizing old new with
  | nil => rfl
  | cons b bs ih =>
    rw [shownBy, ih (by push_cast; omega), none_or, shown_eq_none_of_lt (by push_cast; omega)]

def headers (old new : Nat) : List Block → List Hunk
  | [] => []
  | b :: bs =>
    ⟨(old + b.gap.length : Nat), (olds b.body).length, (new + b.gap.length : Nat),
        (news b.body).length⟩ ::
      headers (old + (olds b.lines).length) (new + (news b.lines).length) bs

/-- The place in both texts after the hunks. -/
def placeAfter (old new : Nat) (bs : List Block) : Int × Int :=
  ((old + (olds (bs.flatMap Block.lines)).length : Nat),
    (new + (news (bs.flatMap Block.lines)).length : Nat))

theorem placeAfter_cons (old new : Nat) (b : Block) (bs : List Block) : placeAfter old new (b :: bs) =
      placeAfter (old + (olds b.lines).length) (new + (news b.lines).length) bs := by
  simp [placeAfter, olds_append, news_append, Nat.add_assoc]

/-- Reading the hunks enters what they show and ends at the place after them. -/
theorem readLines_writtenBlocks (hbs : BlocksWellFormed new bs) (p : Progress) (old : Nat) :
    (∀ k, (readLines p (writtenBlocks old new bs)).map.get? k = (shownBy old new bs k).or (p.map.get? k)) ∧
    (readLines p (writtenBlocks old new bs)).next =
      if bs = [] then p.next else some (placeAfter old new bs) := by
  induction bs generalizing p old new with
  | nil => exact ⟨fun k => rfl, rfl⟩
  | cons b bs ih =>
    obtain ⟨hb, hbs⟩ := hbs
    obtain ⟨map', hr, hget⟩ := readLines_written hb.clean p.map (old + b.gap.length) (new + b.gap.length)
    have hh : p.step (b.header (old + b.gap.length) (new + b.gap.length)) =
        ⟨p.map, some (((old + b.gap.length : Nat) : Int),
          ((new + b.gap.length : Nat) : Int))⟩ := by
      rw [Progress.step, header?_header]
    have hs : readLines p (writtenBlocks old new (b :: bs)) =
        readLines ⟨map', some (((old + (olds b.lines).length : Nat) : Int),
            ((new + (news b.lines).length : Nat) : Int))⟩
          (writtenBlocks (old + (olds b.lines).length) (new + (news b.lines).length) bs) := by
      rw [writtenBlocks, readLines, foldl_cons, hh]
      change readLines _ _ = _
      rw [readLines_append, hr, length_olds_lines, length_news_lines, Nat.add_assoc, Nat.add_assoc]
    obtain ⟨hmap, hn⟩ := ih hbs ⟨map', some (((old + (olds b.lines).length : Nat) : Int), ((new + (news
      b.lines).length : Nat) : Int))⟩ (old + (olds b.lines).length)
    rw [hs]
    refine ⟨fun k => ?_, ?_⟩
    · rw [hmap k, shownBy, Option.or_assoc]
      simp only [hget]
    · rw [hn, if_neg (cons_ne_nil b bs), placeAfter_cons]
      split
      · next hnil => simp [hnil, placeAfter, olds, news]
      · rfl

/-! ## The whole diff -/

theorem readLines_preamble {ts : List (List Char)} (h : ∀ t ∈ ts, '\n' ∉ t ∧ ¬ ['@', '@'] <+: t) :
    readLines ⟨[], none⟩ ts = ⟨[], none⟩ := by
  induction ts with
  | nil => rfl
  | cons t ts ih =>
    have ht := forall_mem_cons.1 h
    have hs : Progress.step ⟨[], none⟩ t = ⟨[], none⟩ := by
      rw [Progress.step, header?_eq_none ht.1.2]
    rw [readLines, foldl_cons, hs]
    exact ih ht.2

theorem header_clean (hb : b.WellFormed new) (o n : Nat) : '\n' ∉ b.header o n := by
  have hd : ∀ k : Nat, '\n' ∉ Nat.toDigits 10 k := fun k hk =>
    absurd (Text.isDigit_of_mem_toDigits hk) (by decide)
  have hr : ∀ brief start count, '\n' ∉ writtenRange brief start count := by
    intro brief start count
    unfold writtenRange
    split
    · exact hd start
    · simp [hd]
  simp [Block.header, hr, hb.heading_clean]

theorem written_clean (hl : l.Clean) : '\n' ∉ l.written := by
  cases l with
  | kept t => simpa [Line.written, Line.Clean] using hl
  | blank => simp [Line.written]
  | removed t => simpa [Line.written] using hl.1
  | added t => simpa [Line.written] using hl.1
  | remark t => simpa [Line.written, Line.Clean] using hl

theorem writtenBlocks_clean (hbs : BlocksWellFormed new bs) (old : Nat) :
    ∀ t ∈ writtenBlocks old new bs, '\n' ∉ t := by
  induction bs generalizing old new with
  | nil => simp [writtenBlocks]
  | cons b bs ih =>
    obtain ⟨hb, hbs⟩ := hbs
    intro t ht
    rw [writtenBlocks, mem_cons, mem_append, List.mem_map] at ht
    rcases ht with rfl | ⟨l, hl, rfl⟩ | ht
    · exact header_clean hb _ _
    · exact written_clean (hb.clean l hl)
    · exact ih hbs _ t ht

/-- The text of a diff is cut into its lines, followed by an empty line if it ends
with a line feed or has no lines. -/
theorem split_text (hd : d.WellFormed) : ∃ extra : List (List Char), (extra = [] ∨ extra = [[]]) ∧
      Text.split "\n" d.text = (d.written ++ extra).map String.ofList := by
  have hc : ∀ t ∈ d.written, '\n' ∉ t := by
    intro t ht
    rcases mem_append.1 ht with ht | ht
    · exact (hd.preamble_clean t ht).1
    · exact writtenBlocks_clean hd.blocks_wellFormed 1 t ht
  have hl : ∀ extra : List (List Char), extra = [] ∨ extra = [[]] →
      ∀ t ∈ d.written ++ extra, '\n' ∉ t := by
    rintro extra (rfl | rfl) t ht
    · exact hc t (by simpa using ht)
    · rcases mem_append.1 ht with ht | ht
      · exact hc t ht
      · simp [mem_singleton.1 ht]
  unfold Document.text
  by_cases hf : d.finalNewline
  · refine ⟨[[]], .inr rfl, ?_⟩
    rw [if_pos hf]
    exact Text.split_ofList_intercalate (by simp) (hl _ (.inr rfl))
  · rw [if_neg hf]
    by_cases hnil : d.written = []
    · -- the empty text is one empty line
      refine ⟨[[]], .inr rfl, ?_⟩
      rw [hnil]
      decide
    · refine ⟨[], .inl rfl, ?_⟩
      exact Text.split_ofList_intercalate (by simpa using hnil) (hl _ (.inl rfl))

theorem headers_eq_filterMap (old new : Nat) (bs : List Block) :
    (writtenBlocks old new bs).filterMap header? = headers old new bs := by
  induction bs generalizing old new with
  | nil => rfl
  | cons b bs ih =>
    have hb : (b.body.map Line.written).filterMap header? = [] := by
      rw [filterMap_map, filterMap_eq_nil_iff]
      intro l _
      exact header?_written l
    rw [writtenBlocks, filterMap_cons, header?_header, filterMap_append, hb, nil_append, ih, headers]

theorem ofDiff_text (hd : d.WellFormed) : Hunk.ofDiff d.text = headers 1 1 d.blocks := by
  obtain ⟨extra, hex, hs⟩ := split_text hd
  have hpre : d.preamble.filterMap header? = [] := by
    rw [filterMap_eq_nil_iff]
    intro t ht
    exact header?_eq_none (hd.preamble_clean t ht).2
  have hl : extra.filterMap header? = [] := by
    rcases hex with rfl | rfl <;> decide
  rw [Hunk.ofDiff, hs, filterMap_map]
  have hc :
      ((fun line : String => header? line.toList) ∘ String.ofList) = header? := by
    funext t
    simp
  rw [hc, filterMap_append, hl, append_nil, Document.written,
    filterMap_append, hpre, nil_append, headers_eq_filterMap]

/-- The line map of a diff holds what the hunks show, and possibly the line after
the last hunk. -/
theorem get?_ofDiff_text (hd : d.WellFormed) : (∀ k, (ofDiff d.text).get? k = shownBy 1 1 d.blocks k) ∨
    (d.blocks ≠ [] ∧ ∀ k, (ofDiff d.text).get? k =
      if k = (placeAfter 1 1 d.blocks).2 then some (some (placeAfter 1 1 d.blocks).1)
      else shownBy 1 1 d.blocks k) := by
  obtain ⟨extra, hex, hs⟩ := split_text hd
  obtain ⟨hmap, hn⟩ := readLines_writtenBlocks hd.blocks_wellFormed ⟨[], none⟩ 1
  have hr : (ofDiff d.text) =
      (readLines (readLines ⟨[], none⟩ (writtenBlocks 1 1 d.blocks)) extra).map := by
    rw [ofDiff, hs, foldl_map]
    have hst : (fun (p : Progress) (t : List Char) => p.step (String.ofList t).toList) =
        Progress.step := by
      funext p t
      rw [String.toList_ofList]
    rw [hst, Document.written]
    change (readLines _ _).map = _
    rw [readLines_append, readLines_append, readLines_preamble hd.preamble_clean]
  rcases hex with rfl | rfl
  · left
    intro k
    rw [hr, readLines_nil, hmap k]
    simp
  · by_cases hnil : d.blocks = []
    · left
      intro k
      rw [hr, hnil]
      rfl
    · right
      refine ⟨hnil, fun k => ?_⟩
      rw [if_neg hnil] at hn
      have hl : ∀ p : Progress, p.next = some (placeAfter 1 1 d.blocks) →
          (readLines p [[]]).map =
            p.map.put (placeAfter 1 1 d.blocks).2 (some (placeAfter 1 1 d.blocks).1) := by
        intro p hp
        obtain ⟨map, next⟩ := p
        subst hp
        rfl
      rw [hr, hl _ hn, Table.get?_put]
      simp only [eq_comm, hmap k]
      simp

/-! ## Hunks and the lines between them -/

/-- The lines of the new text come in front of the first hunk, in it or after it. -/
theorem shown_scriptOf_cons (old new : Nat) (b : Block) (bs : List Block)
    (tail : List (List Char)) (k : Int) : shown old new (scriptOf (b :: bs) tail) k =
      (shown old new (b.gap.map Line.kept) k).or
        ((shown (old + b.gap.length) (new + b.gap.length) b.body k).or
          (shown (old + (olds b.lines).length) (new + (news b.lines).length) (scriptOf bs tail) k)) := by
  have ha : scriptOf (b :: bs) tail = b.gap.map Line.kept ++ (b.body ++ scriptOf bs tail) := by
    simp [scriptOf, Block.lines]
  rw [length_olds_lines, length_news_lines, ← Nat.add_assoc, ← Nat.add_assoc, ← shown_append,
    ha, shown_append, olds_map_kept, news_map_kept]

/-- A line of the new text is shown by a hunk, or it is kept and shifted by the
hunks before it. -/
theorem shownBy_or_shift (old new : Nat) (bs : List Block) (tail : List (List Char))
    (h : shown old new (scriptOf bs tail) k = some v) : shownBy old new bs k = some v ∨
      (shownBy old new bs k = none ∧ v = some (k + (old - new) + shift k (headers old new bs))) := by
  induction bs generalizing old new with
  | nil =>
    right
    rw [scriptOf, flatMap_nil, nil_append, shown_map_kept] at h
    split at h
    · refine ⟨rfl, ?_⟩
      rw [← some.inj h, headers, shift]
      congr 1
      omega
    · cases h
  | cons b bs ih =>
    rw [shown_scriptOf_cons, shown_map_kept] at h
    have hold := length_olds_lines b
    have hnew := length_news_lines b
    rw [shownBy, headers, shift]
    by_cases hgap : (new : Int) ≤ k ∧ k < new + b.gap.length
    · -- in front of the hunk
      right
      rw [if_pos hgap, some_or] at h
      have hl : shownBy (old + (olds b.lines).length) (new + (news b.lines).length) bs k =
          none := shownBy_eq_none_of_lt (by push_cast; omega)
      rw [hl, none_or, shown_eq_none_of_lt (by push_cast; omega),
        if_pos (by push_cast; omega), ← some.inj h]
      exact ⟨rfl, congrArg some (by omega)⟩
    · rw [if_neg hgap, none_or] at h
      cases hb : shown (old + b.gap.length) (new + b.gap.length) b.body k with
      | some w =>
        -- in the hunk
        left
        rw [hb, some_or] at h
        have hin := (shown_isSome_iff _ _ _ _).1 (isSome_iff_exists.2 ⟨w, hb⟩)
        have hl : shownBy (old + (olds b.lines).length) (new + (news b.lines).length) bs k =
            none := shownBy_eq_none_of_lt (by push_cast at hin ⊢; omega)
        rw [hl, none_or, h]
      | none =>
        -- after the hunk
        rw [hb, none_or] at h
        have hf := (shown_isSome_iff _ _ _ _).1 (isSome_iff_exists.2 ⟨v, h⟩)
        rw [or_none, if_neg (by push_cast at hf ⊢; omega)]
        rcases ih _ _ h with hs | ⟨hn, hv⟩
        · exact .inl hs
        · refine .inr ⟨hn, ?_⟩
          rw [hv]
          congr 1
          push_cast
          omega

/-- What a hunk shows is so in the whole texts. -/
theorem shown_of_shownBy (tail : List (List Char)) (h : shownBy old new bs k = some v) :
    shown old new (scriptOf bs tail) k = some v := by
  induction bs generalizing old new with
  | nil => cases h
  | cons b bs ih =>
    have hsc : scriptOf (b :: bs) tail = b.lines ++ scriptOf bs tail := by
      simp [scriptOf]
    rw [hsc, shown_append]
    rw [shownBy] at h
    cases hl : shownBy (old + (olds b.lines).length) (new + (news b.lines).length) bs k with
    | some w =>
      rw [hl, some_or] at h
      have hs := ih (hl.trans h)
      have hf := (shown_isSome_iff _ _ _ _).1 (isSome_iff_exists.2 ⟨v, hs⟩)
      rw [shown_eq_none_of_ge (by push_cast at hf; omega), none_or, hs]
    | none =>
      rw [hl, none_or] at h
      have hin := (shown_isSome_iff _ _ _ _).1 (isSome_iff_exists.2 ⟨v, h⟩)
      rw [Block.lines, shown_append, olds_map_kept, news_map_kept,
        shown_eq_none_of_ge (by rw [news_map_kept]; push_cast at hin; omega), none_or, h,
        some_or]

/-- The line after the last hunk is kept, if there is one. -/
theorem shown_placeAfter {tail : List (List Char)}
    (h : shown old new (scriptOf bs tail) (placeAfter old new bs).2 = some v) :
    v = some (placeAfter old new bs).1 := by
  rw [scriptOf, shown_append, shown_eq_none_of_ge (by simp [placeAfter]), none_or, shown_map_kept] at h
  split at h
  · rw [← some.inj h]
    simp [placeAfter]
  · cases h

/-- A hunk with no kept line in front of an added one begins at the first line. -/
theorem start_of_added_first (hb : b.WellFormed new)
    (hk : shown old (new + b.gap.length) b.body k = some none)
    (hall : ∀ i : Int, (new + b.gap.length : Nat) ≤ i → i < k →
      shown old (new + b.gap.length) b.body i = some none) : new + b.gap.length = 1 := by
  rcases hb.context with hke | hone
  · have hin := (shown_isSome_iff _ _ _ _).1 (isSome_iff_exists.2 ⟨_, hk⟩)
    have hs := shown_head_of_isKept old (new + b.gap.length) hke
    rcases eq_or_ne k ((new + b.gap.length : Nat) : Int) with heq | hne
    · rw [← heq, hk] at hs
      cases hs
    · rw [hall _ le_rfl (by push_cast at hne hin ⊢; omega)] at hs
      cases hs
  · exact hone

/-- In front of an added line, the hunk that shows it shows a kept line with only
added lines between, or all lines are added. -/
theorem shownBy_before_added (hbs : BlocksWellFormed new bs) (tail : List (List Char))
    (hnew : 1 ≤ new) (h : shown old new (scriptOf bs tail) k = some none) :
    (∃ j m : Int, new ≤ j ∧ j < k ∧ shownBy old new bs j = some (some m) ∧
      ∀ i, j < i → i < k → shown old new (scriptOf bs tail) i = some none) ∨
    (new = 1 ∧ ∀ i : Int, 1 ≤ i → i < k → shown old new (scriptOf bs tail) i = some none) := by
  induction bs generalizing old new with
  | nil =>
    rw [scriptOf, flatMap_nil, nil_append, shown_map_kept] at h
    split at h <;> cases h
  | cons b bs ih =>
    obtain ⟨hb, hbs⟩ := hbs
    have hlen := length_news_lines b
    have hs := shown_scriptOf_cons old new b bs tail
    have hgap : ∀ i : Int, (new : Int) + b.gap.length ≤ i →
        shown old new (b.gap.map Line.kept) i = none := fun i hi =>
      shown_eq_none_of_ge (by rwa [news_map_kept])
    rw [hs] at h
    cases hkg : shown old new (b.gap.map Line.kept) k with
    | some w =>
      -- the lines in front of a hunk are kept
      rw [hkg, some_or, ← hkg, shown_map_kept] at h
      split at h <;> cases h
    | none =>
      rw [hkg, none_or] at h
      cases hk : shown (old + b.gap.length) (new + b.gap.length) b.body k with
      | some w =>
        rw [hk, some_or] at h
        rw [h] at hk
        have hin := (shown_isSome_iff _ _ _ _).1 (isSome_iff_exists.2 ⟨_, hk⟩)
        have hl : ∀ i : Int, i < k →
            shownBy (old + (olds b.lines).length) (new + (news b.lines).length) bs i = none :=
          fun i hi => shownBy_eq_none_of_lt (by push_cast; omega)
        rcases shown_before_added hk with ⟨j, m, hj, hjk, hjm, hbe⟩ | hall
        · push_cast at hj
          refine .inl ⟨j, m, by omega, hjk, ?_, ?_⟩
          · rw [shownBy, hl j hjk, none_or, hjm]
          · intro i hji hik
            rw [hs, hgap i (by omega), none_or, hbe i hji hik, some_or]
        · have hf := start_of_added_first hb hk hall
          refine .inr ⟨by omega, fun i hi hik => ?_⟩
          rw [hs, hgap i (by omega), none_or, hall i (by push_cast; omega) hik, some_or]
      | none =>
        rw [hk, none_or] at h
        have hn := hb.new_pos
        rcases ih hbs (by omega) h with ⟨j, m, hj, hjk, hjm, hbe⟩ | ⟨hone, -⟩
        · push_cast at hj
          refine .inl ⟨j, m, by omega, hjk, ?_, ?_⟩
          · rw [shownBy, hjm, some_or]
          · intro i hji hik
            rw [hs, hgap i (by omega), none_or, shown_eq_none_of_ge (by push_cast; omega), none_or]
            exact hbe i hji hik
        · omega

/-! ## The line of the old text -/

/-- The nearest entry of a kept line is found over entries of added lines. -/
theorem nearest_eq_some {j : Int} (hj : 1 ≤ j)
    (hget : map.get? j = some (some m)) (hjn : j ≤ n)
    (hb : ∀ i : Int, j < i → i ≤ n → map.get? i = some none) : map.nearest n = some m := by
  induction n with
  | zero => omega
  | succ n ih =>
    rw [nearest]
    by_cases heq : j = (n : Int) + 1
    · rw [← heq, hget]
    · push_cast at hjn
      rw [hb (n + 1) (by omega) (by push_cast; omega)]
      exact ih (by omega) fun i hi hin => hb i hi (by push_cast; omega)

theorem nearest_eq_none
    (ha : ∀ i : Int, 1 ≤ i → i ≤ n → map.get? i = some none) : map.nearest n = none := by
  induction n with
  | zero => rfl
  | succ n ih =>
    rw [nearest, ha (n + 1) (by omega) (by push_cast; omega)]
    exact ih fun i hi hin => ha i hi (by push_cast; omega)

theorem get?_of_shownBy (hd : d.WellFormed) (h : shownBy 1 1 d.blocks k = some v) :
    (ofDiff d.text).get? k = some v := by
  rcases get?_ofDiff_text hd with hget | ⟨-, hget⟩
  · rw [hget, h]
  · rw [hget]
    split
    · next hk =>
      have hs := shown_of_shownBy d.tail h
      rw [hk] at hs
      rw [shown_placeAfter hs]
    · exact h

theorem get?_or_shift (hd : d.WellFormed) (h : shown 1 1 d.script k = some v) :
    (ofDiff d.text).get? k = some v ∨
      ((ofDiff d.text).get? k = none ∧ v = some (k + shift k (Hunk.ofDiff d.text))) := by
  rcases shownBy_or_shift 1 1 d.blocks d.tail h with hsh | ⟨hn, hv⟩
  · exact .inl (get?_of_shownBy hd hsh)
  · have hs : v = some (k + shift k (Hunk.ofDiff d.text)) := by
      rw [hv, ofDiff_text hd]
      congr 1
      omega
    rcases get?_ofDiff_text hd with hget | ⟨-, hget⟩
    · exact .inr ⟨(hget k).trans hn, hs⟩
    · rw [hget]
      split
      · next hk =>
        rw [hk] at h
        exact .inl (by rw [shown_placeAfter h])
      · exact .inr ⟨hn, hs⟩

theorem get?_of_added (hd : d.WellFormed) (h : shown 1 1 d.script k = some none) :
    (ofDiff d.text).get? k = some none := by
  rcases get?_or_shift hd h with hget | ⟨-, hv⟩
  · exact hget
  · cases hv

theorem oldLine_of_kept (hd : d.WellFormed) (h : shown 1 1 d.script k = some (some m)) :
    oldLine d.text k = m := by
  unfold oldLine
  rcases get?_or_shift hd h with hget | ⟨hget, hm⟩
  · rw [hget]
  · rw [hget]
    exact (some.inj hm).symm

/-- A line of the new text stands for the last kept line up to it, or for the
first line if there is none. -/
theorem oldLine_eq_last_kept (hd : d.WellFormed) (hn : 1 ≤ n) (h : shown 1 1 d.script n = some v) :
    (∃ j m : Nat, j ≤ n ∧ KeptAt d.script j m ∧ oldLine d.text n = m ∧
      ∀ i : Nat, j < i → i ≤ n → shown 1 1 d.script i = some none) ∨
    ((∀ i : Nat, 1 ≤ i → i ≤ n → shown 1 1 d.script i = some none) ∧ oldLine d.text n = 1) := by
  cases v with
  | some m =>
    left
    obtain ⟨m', rfl, -, hk⟩ := exists_keptAt_of_shown h
    exact ⟨n, m', le_rfl, hk, oldLine_of_kept hd h, fun i hi hin => by omega⟩
  | none =>
    have hget := get?_of_added hd h
    have hl : oldLine d.text n = ((ofDiff d.text).nearest (n - 1)).getD 1 := by
      unfold oldLine
      rw [hget]
      have hp : ((n : Int) - 1).toNat = n - 1 := by omega
      rw [hp]
    rcases shownBy_before_added hd.blocks_wellFormed d.tail le_rfl h with
      ⟨j, m, hj, hjn, hjm, hb⟩ | ⟨-, hall⟩
    · left
      lift j to Nat using by omega
      obtain ⟨m', rfl, -, hk⟩ := exists_keptAt_of_shown (shown_of_shownBy d.tail hjm)
      refine ⟨j, m', by omega, hk, ?_, fun i hi hin => ?_⟩
      · rw [hl, nearest_eq_some (by omega) (get?_of_shownBy hd hjm) (by omega)
          fun i hi hin => get?_of_added hd (hb i hi (by omega)), getD_some]
      · rcases Nat.lt_or_ge i n with hlt | hge
        · exact hb i (by omega) (by omega)
        · obtain rfl : i = n := by omega
          exact h
    · right
      refine ⟨fun i hi hin => ?_, ?_⟩
      · rcases Nat.lt_or_ge i n with hlt | hge
        · exact hall i (by omega) (by omega)
        · obtain rfl : i = n := by omega
          exact h
      · rw [hl, nearest_eq_none fun i hi hin => get?_of_added hd (hall i hi (by omega)), getD_none]

theorem exists_shown (hn : 1 ≤ n) (hlen : n ≤ d.new.length) : ∃ v, shown 1 1 d.script n = some v := by
  refine isSome_iff_exists.1 ((shown_isSome_iff _ _ _ _).2 ?_)
  unfold Document.new at hlen
  omega

theorem not_keptAt_of_added (h : shown 1 1 ls n = some none) (m : Nat) :
    ¬ KeptAt ls n m := by
  rw [keptAt_iff_shown, h]
  simp

theorem oldLine_mono (hd : d.WellFormed) {i j : Nat} (hi : 1 ≤ i) (hij : i ≤ j)
    (hj : j ≤ d.new.length) : oldLine d.text i ≤ oldLine d.text j := by
  obtain ⟨v, hv⟩ := exists_shown hi (hij.trans hj)
  obtain ⟨w, hw⟩ := exists_shown (hi.trans hij) hj
  rcases oldLine_eq_last_kept hd (hi.trans hij) hw with
    ⟨b, m', hb, hk', hl', hb'⟩ | ⟨hn', hl'⟩
  · rw [hl']
    rcases oldLine_eq_last_kept hd hi hv with ⟨a, m, ha, hk, hl, -⟩ | ⟨-, hl⟩
    · rw [hl]
      have hab : a ≤ b := by
        by_contra hlt
        exact not_keptAt_of_added (hb' a (by omega) (by omega)) m hk
      exact shown_le_of_le ((keptAt_iff_shown _ _ _).1 hk) ((keptAt_iff_shown _ _ _).1 hk') (by omega)
    · obtain ⟨before, -, -, -, -, -, rfl⟩ := hk'
      rw [hl]
      omega
  · -- nothing is kept up to the later line, so nothing is up to the earlier one
    rcases oldLine_eq_last_kept hd hi hv with ⟨a, m, ha, hk, -, -⟩ | ⟨-, hl⟩
    · have ha1 : 1 ≤ a := by
        obtain ⟨before, -, -, -, -, rfl, -⟩ := hk
        omega
      exact absurd hk (not_keptAt_of_added (hn' a ha1 (by omega)) m)
    · rw [hl, hl']

/-- A line of the new text of a well-formed diff stands for its own line of the
old text if it is kept, and else for that of the nearest kept line before it, or
for the first line if there is none. So the order of lines is kept. -/
theorem oldLine_unified (d : Document) (hd : d.WellFormed) :
    (∀ n : Nat, 1 ≤ n → n ≤ d.new.length →
      (∀ m, KeptAt d.script n m → oldLine d.text n = m) ∧
      ((∀ m, ¬ KeptAt d.script n m) →
        (∃ j m, j < n ∧ KeptAt d.script j m ∧
          (∀ i, j < i → i < n → ∀ m', ¬ KeptAt d.script i m') ∧ oldLine d.text n = m) ∨
        ((∀ j m, j < n → ¬ KeptAt d.script j m) ∧ oldLine d.text n = 1))) ∧
    (∀ i j : Nat, 1 ≤ i → i ≤ j → j ≤ d.new.length →
      oldLine d.text i ≤ oldLine d.text j) := by
  refine ⟨fun n hn hlen => ⟨fun m hm => ?_, fun hadded => ?_⟩, fun i j hi hij hj => ?_⟩
  · exact oldLine_of_kept hd ((keptAt_iff_shown _ _ _).1 hm)
  · obtain ⟨v, hv⟩ := exists_shown hn hlen
    rcases oldLine_eq_last_kept hd hn hv with ⟨j, m, hj, hkept, hline, hbetween⟩ | ⟨hall, hline⟩
    · have hne : j ≠ n := fun heq => hadded m (heq ▸ hkept)
      refine .inl ⟨j, m, by omega, hkept, fun i hi hin m' => ?_, hline⟩
      exact not_keptAt_of_added (hbetween i hi (by omega)) m'
    · refine .inr ⟨fun j m hj hkept => ?_, hline⟩
      have hj1 : 1 ≤ j := by
        obtain ⟨before, -, -, -, -, rfl, -⟩ := hkept
        omega
      exact not_keptAt_of_added (hall j hj1 (by omega)) m hkept
  · exact oldLine_mono hd hi hij hj

/-- A diff of two hunks: the first begins at the first line and replaces it, the
second passes over a line, leaves a count out and adds a line at the end. -/
theorem oldLine_unified_two_hunks :
    let d : Document :=
      { preamble := ["--- a/f".toList, "+++ b/f".toList]
        blocks :=
          [⟨[], [.removed ['p'], .added ['q'], .kept ['r']], false, false, []⟩,
            ⟨[['s']], [.kept ['t'], .added ['u'], .remark " No newline at end of file".toList],
              true, true, " heading".toList⟩]
        tail := []
        finalNewline := true }
    d.text = "--- a/f\n+++ b/f\n@@ -1,2 +1,2 @@\n-p\n+q\n r\n@@ -4 +4,2 @@ heading\n t\n+u\n\\ No newline at end of file\n" ∧
    d.WellFormed ∧ KeptAt d.script 3 3 ∧ oldLine d.text 3 = 3 ∧ oldLine d.text 1 = 1 ∧
    oldLine d.text 3 ≤ oldLine d.text 5 := by
  intro d
  have hd : d.WellFormed := by
    refine ⟨by decide, ⟨?_, ?_, trivial⟩⟩
    · exact ⟨by decide, by decide, .inr rfl, by simp [Line.Clean], by decide⟩
    · exact ⟨by decide, by decide, .inl rfl, by simp [Line.Clean], by decide⟩
  obtain ⟨hlines, hmono⟩ := oldLine_unified d hd
  have hkept : KeptAt d.script 3 3 := (keptAt_iff_shown _ _ _).2 (by decide)
  have hfirst : oldLine d.text 1 = 1 := by
    have hadded : ∀ m, ¬ KeptAt d.script 1 m := not_keptAt_of_added (by decide)
    rcases (hlines 1 le_rfl (by decide)).2 hadded with ⟨j, m, hj, hkept, -⟩ | ⟨-, hone⟩
    · obtain ⟨before, -, -, -, -, rfl, -⟩ := hkept
      omega
    · exact hone
  exact ⟨by decide, hd, hkept, (hlines 3 (by decide) (by decide)).1 3 hkept, hfirst,
    hmono 3 5 (by decide) (by decide) (by decide)⟩

end LineMap

end Excerpt
