import Excerpt.Proofs.Diff.LineMap
import Excerpt.Proofs.Session.Coverage

/-!
# Numbers of the last commit

If lines are counted as they stood in the last commit, only the first line of a passage
is mapped, and the lines below it are numbered on from there. So a line has its own
number of the last commit only if as many lines were removed as added between the first
line and it. If the first line itself was added, it has the number of the nearest kept
line above, and the lines since that one count as well.
-/

namespace Excerpt

open List Option

namespace Unified

variable {m n : Nat} {after before ls : List Line}

/-- The lines from the last kept one on; all of them if none is kept. -/
def sinceKept : List Line → List Line
  | [] => []
  | l :: ls => if ls.any Line.isKept then sinceKept ls else l :: ls

theorem sinceKept_of_forall (h : ∀ l ∈ ls, l.isKept = false) : sinceKept ls = ls := by
  cases ls with
  | nil => rfl
  | cons l ls =>
    have hn : ls.any Line.isKept = false :=
      List.any_eq_false.2 fun m hm => by simp [h m (mem_cons_of_mem _ hm)]
    rw [sinceKept, hn]
    rfl

theorem exists_sinceKept (ls : List Line) :
    (∃ (before : List Line) (k : Line) (gap : List Line), ls = before ++ k :: gap ∧
      k.isKept ∧ (∀ l ∈ gap, l.isKept = false) ∧ sinceKept ls = k :: gap) ∨
    (∀ l ∈ ls, l.isKept = false) := by
  induction ls with
  | nil => exact .inr (by simp)
  | cons l ls ih =>
    rcases ih with ⟨before, k, gap, rfl, hk, hgap, hs⟩ | hn
    · refine .inl ⟨l :: before, k, gap, rfl, hk, hgap, ?_⟩
      have hany : (before ++ k :: gap).any Line.isKept := List.any_eq_true.2 ⟨k, by simp, hk⟩
      rw [sinceKept, if_pos hany, hs]
    · by_cases hl : l.isKept
      · have hany : ls.any Line.isKept = false := List.any_eq_false.2 fun m hm => by simp [hn m hm]
        refine .inl ⟨[], l, ls, rfl, hl, hn, ?_⟩
        rw [sinceKept, hany]
        rfl
      · exact .inr (forall_mem_cons.2 ⟨by simpa using hl, hn⟩)

theorem not_keptAt_of_forall {mid : List Line} (hmid : ∀ l ∈ mid, l.isKept = false) (hlow : (news before).length < n)
    (hh : n ≤ (news before).length + (news mid).length) (m : Nat) :
    ¬ KeptAt (before ++ (mid ++ after)) n m := by
  rw [keptAt_iff_shown, shown_append, shown_eq_none_of_ge (by push_cast; omega), none_or, shown_append]
  have hin : (shown (1 + (olds before).length) (1 + (news before).length) mid n).isSome :=
    (shown_isSome_iff _ _ _ _).2 ⟨by push_cast; omega, by push_cast; omega⟩
  obtain ⟨v, hv⟩ := isSome_iff_exists.1 hin
  rw [hv, some_or]
  rintro ⟨⟩
  obtain ⟨above, l, below, rfl, hl, -⟩ := (shown_eq_some_some_iff _ _ _ _ _).1 hv
  rw [hmid l (by simp)] at hl
  cases hl

/-- The kept lines up to an added one stand above the lines before it of which none is kept. -/
theorem KeptAt.le_of_forall {gap : List Line} {x : Line}
    (hgap : ∀ l ∈ gap, l.isKept = false) (hx : x.isKept = false) (hc : x.newCount = 1)
    (h : KeptAt (before ++ (gap ++ x :: after)) n m)
    (hle : n ≤ (news (before ++ gap)).length + 1) : n ≤ (news before).length := by
  by_contra hlt
  have hs : gap ++ x :: after = (gap ++ [x]) ++ after := by simp
  have hmid : ∀ l ∈ gap ++ [x], l.isKept = false := forall_mem_append.2 ⟨hgap, forall_mem_singleton.2 hx⟩
  rw [hs] at h
  rw [news_append, length_append] at hle
  refine not_keptAt_of_forall hmid (by omega) ?_ m h
  rw [news_append, length_append, length_news_cons, hc]
  omega

theorem KeptAt.unique {m' : Nat} (h : KeptAt ls n m) (h' : KeptAt ls n m') : m = m' := by
  rw [keptAt_iff_shown] at h h'
  rw [h] at h'
  simpa using h'

end Unified

namespace LineMap

open Unified

variable {d : Document} {above below : List Line} {l : Line}

/-- The first line of the new text behind `above`, if it is kept, stands for itself. -/
theorem oldLine_of_split_kept (hd : d.WellFormed) (h : d.script = above ++ l :: below)
    (hl : l.isKept) : oldLine d.text ((news above).length + 1) = (olds above).length + 1 := by
  have hk : KeptAt d.script ((news above).length + 1) ((olds above).length + 1) :=
    ⟨above, l, below, h, hl, rfl, rfl⟩
  rw [keptAt_iff_shown] at hk
  simpa using oldLine_of_kept hd hk

/-- If it is not kept, it stands for the last kept line above it, or for the first line. -/
theorem oldLine_of_split_added (hd : d.WellFormed) {x : Line} (h : d.script = above ++ x :: below)
    (hx : x.isKept = false) (hnew : x.new?.isSome) :
    oldLine d.text ((news above).length + 1) + (olds (sinceKept above)).length = (olds above).length + 1 := by
  have hc : x.newCount = 1 := if_pos hnew
  have hla := oldLine_eq_last_kept hd (n := (news above).length + 1) (by omega) (v := none) (by
    rw [h, shown_append, shown_eq_none_of_ge (by push_cast; omega), none_or, shown,
      if_pos ⟨hc, by push_cast; omega⟩, hx]
    rfl)
  push_cast at hla
  rcases exists_sinceKept above with ⟨before, k, gap, rfl, hk, hgap, hsi⟩ | hn
  · have hco := k.isKept_iff.1 hk
    have hke : KeptAt d.script ((news before).length + 1) ((olds before).length + 1) :=
      ⟨before, k, gap ++ x :: below, by simp [h], hk, rfl, rfl⟩
    have hlength : (news (before ++ k :: gap)).length =
        (news before).length + 1 + (news gap).length := by
      rw [news_append, length_append, length_news_cons, hco.2]
      omega
    have hl : oldLine d.text ((news (before ++ k :: gap)).length + 1) =
        (olds before).length + 1 := by
      rcases hla with ⟨j, m, hj, hjm, hl, hb⟩ | ⟨hall, -⟩
      · rcases Nat.lt_trichotomy j ((news before).length + 1) with hlt | rfl | hgt
        · exact absurd hke (not_keptAt_of_added (hb _ hlt (by omega)) _)
        · rw [hl, hjm.unique hke]
          rfl
        · -- a kept line below the last kept one
          have hs : d.script = (before ++ [k]) ++ (gap ++ x :: below) := by simp [h]
          rw [hs] at hjm
          have hle := hjm.le_of_forall hgap hx hc (by simpa using hj)
          have hne : (news [k]).length = 1 := by rw [length_news_cons, hco.2]; rfl
          rw [news_append, length_append, hne] at hle
          omega
      · exact absurd hke (not_keptAt_of_added (hall _ (by omega) (by omega)) _)
    rw [hl, hsi, olds_append, length_append]
    omega
  · have hl : oldLine d.text ((news above).length + 1) = 1 := by
      rcases hla with ⟨j, m, hj, hjm, -, -⟩ | ⟨-, hl⟩
      · have hpos : 1 ≤ j := by
          obtain ⟨before, l, after, -, -, rfl, -⟩ := hjm
          omega
        have hs : d.script = [] ++ (above ++ x :: below) := h
        rw [hs] at hjm
        have hle := hjm.le_of_forall hn hx hc hj
        exact absurd hle (Nat.not_le.2 hpos)
      · exact hl
    rw [hl, sinceKept_of_forall hn]
    omega

/-- A line has its own number, counted on from the first line, exactly if as many lines of the
old text as of the new one lie between the two. If the first line was added, the old
lines since the last kept line above it lie between as well. -/
theorem oldLine_add_eq_iff (hd : d.WellFormed) {between : List Line}
    (h : d.script = above ++ between ++ l :: below)
    (hf : ((between ++ [l]).head?.any fun x => x.new?.isSome)) :
    oldLine d.text ((news above).length + 1) + (news between).length = (olds (above ++ between)).length + 1 ↔
      (news between).length = (olds between).length +
        if (between ++ [l]).head?.any Line.isKept then 0 else (olds (sinceKept above)).length := by
  obtain ⟨x, rest, hx⟩ : ∃ x rest, between ++ l :: below = x :: rest ∧
      (between ++ [l]).head? = some x := by
    cases between with
    | nil => exact ⟨l, below, rfl, rfl⟩
    | cons x between => exact ⟨x, between ++ l :: below, rfl, rfl⟩
  obtain ⟨hr, hh⟩ := hx
  rw [hh] at hf ⊢
  simp only [any_some] at hf ⊢
  rw [append_assoc, hr] at h
  rw [olds_append, length_append]
  by_cases hk : x.isKept
  · have hl := oldLine_of_split_kept hd h hk
    rw [if_pos hk, hl]
    omega
  · have hl := oldLine_of_split_added hd h (by simpa using hk) hf
    rw [if_neg hk]
    omega

end LineMap

namespace Session

open Unified

variable {ε : Type} {s t s' : Session} {c : Citation} {p : Path}

/-! ## Numbers of the last commit -/

/-- A citation that counts lines as they stood in the last commit numbers the lines on from the
one that its first line stands for. Of a shown line that is kept, this is its number in the last
commit exactly if as many lines of the old text as of the new one lie between the first line and
it, where the lines since the last kept one count too if the first line was added. The same
citation with lines counted as they stand in the file has the same rows, with those numbers.
A file that does not count as changed has the empty diff. -/
theorem remapped_number_eq_iff {d : Document} {block : String} (hp : p = s.locate c.path)
    (hnumbered : c.numbered = true) (hremap : s.remap = true) (hd : d.WellFormed)
    (hdirty : Hub.isDirty s.git s.hub p = true ∨ d.text = "")
    (hdiff : Hub.changesOf s.git s.hub p = d.text)
    (h : (shown c).run.run s = (.ok block, s')) :
    (cite c).run.run s = (.ok block, s') ∧
    ∃ language request found header header',
      Language.ofPath p = .ok language ∧ c.selection.request c.path = .ok request ∧
      ((Source.ofFolder s.folder p).extract language request).outcome = .ok found ∧
      -- what is shown, with the one way of counting and the other
      block = Citation.block header (c.languageName p) (Text.join "\n"
        (c.rows s.git p (LineMap.oldLine d.text found.first) (Text.lines found.text))) ∧
      ((shown c).run.run { s with remap := false }).1 = .ok (Citation.block header'
        (c.languageName p) (Text.join "\n" (c.rows s.git p found.first (Text.lines found.text)))) ∧
      (∀ (first : Int) (i : Nat) (t : String), (Text.lines found.text)[i]? = some t →
        ∃ row, (c.rows s.git p first (Text.lines found.text))[i]? = some row ∧
          (Text.padNumber 4 (first + i)).toList <+: row.toList ∧ t.toList <:+ row.toList) ∧
      -- which of the numbers are those of the last commit
      ∀ above between l below, d.script = above ++ between ++ l :: below → l.isKept = true →
        found.first = (news above).length + 1 →
        ((between ++ [l]).head?.any fun x => x.new?.isSome) = true →
        ∃ n m : Nat, KeptAt d.script n m ∧ n = found.first + (news between).length ∧
          (LineMap.oldLine d.text found.first + (news between).length = m ↔
            (news between).length = (olds between).length +
              if (between ++ [l]).head?.any Line.isKept then 0
              else (olds (sinceKept above)).length) := by
  refine ⟨run_cite_of_ok h, ?_⟩
  obtain ⟨language, request, found, header, hlanguage, hrequest, hfound, hheaded, -, hblock⟩ :=
    exists_of_shown h
  obtain ⟨header', t, hrun⟩ :=
    exists_run_shown (s := { s with remap := false }) hlanguage hrequest hfound hheaded
  have hplain : ((shown c).run.run { s with remap := false }).1 = .ok (Citation.block header'
      (c.languageName (s.locate c.path)) (displayed s.git c (s.locate c.path) found.text found.first)) :=
    congrArg Prod.fst hrun
  rw [← hp] at hlanguage hfound hblock hplain
  rw [Citation.displayed_eq_join_rows _ _ _ _ hnumbered, numberOf, if_pos hremap,
    Hub.mapped_eq_oldLine (hdiff ▸ hdirty), hdiff] at hblock
  rw [Citation.displayed_eq_join_rows _ _ _ _ hnumbered] at hplain
  refine ⟨language, request, found, header, header', hlanguage, hrequest, hfound, hblock, hplain,
    fun first i t ht => Citation.exists_getElem?_rows s.git c p first ht, ?_⟩
  intro above between l below hscript hl hfirst hnew
  refine ⟨(news (above ++ between)).length + 1, (olds (above ++ between)).length + 1,
    ⟨above ++ between, l, below, hscript, hl, rfl, rfl⟩, ?_, ?_⟩
  · rw [hfirst, news_append, length_append]
    push_cast
    omega
  · rw [hfirst]
    push_cast
    exact LineMap.oldLine_add_eq_iff hd hscript hnew

/-- The diff of a file that loses its second line. -/
def lostLine : Document :=
  ⟨["--- a/a.cpp".toList, "+++ b/a.cpp".toList],
    [⟨[], [.kept "int a;".toList, .removed "int x;".toList, .kept "int b;".toList], false, false,
      []⟩], [], true⟩

/-- A removed line below the first one: the line after it is the third line of the last commit
and is shown as the second. -/
theorem remapped_number_behind_removed_line :
    let p : Path := ⟨["/", "r", "a.cpp"]⟩
    let s : Session := .start ⟨["/", "r"]⟩
      ⟨[(p, Bytes.ofString "int a;\nint b;\n")], [], ⟨["/", "r"]⟩⟩
      (.repository ⟨none, none, [("a.cpp", some lostLine.text)], [], [], [], [], []⟩)
      (fun _ => .noSetup) true none
    let c : Citation :=
      { path := "a.cpp", selection := { lines := some (.list [.int 1, .int 2]) }, link := false }
    lostLine.WellFormed ∧ KeptAt lostLine.script 2 3 ∧
    (∃ s', (cite c).run.run s =
      (.ok "📍 `a.cpp:1-3`\n```cpp\n   1 int a;\n   2 int b;\n```", s')) ∧
    LineMap.oldLine lostLine.text 1 + 1 ≠ 3 := by
  intro p s c
  have hp : p = s.locate c.path := by decide
  have hd : lostLine.WellFormed :=
    ⟨by decide, ⟨by decide, by decide, .inl rfl, by simp [Line.Clean], by decide⟩, trivial⟩
  have hdirty : Hub.isDirty s.git s.hub p = true := by decide
  have hdiff : Hub.changesOf s.git s.hub p = lostLine.text := by decide
  have hshown : ((shown c).run.run s).1 =
      .ok "📍 `a.cpp:1-3`\n```cpp\n   1 int a;\n   2 int b;\n```" := by
    decide +kernel
  obtain ⟨hcite, language, request, found, -, -, hlanguage, hrequest, hfound, -, -, -, hnumbers⟩ :=
    remapped_number_eq_iff hp rfl rfl hd (.inl hdirty) hdiff (run_eq_of_fst hshown)
  have hcpp : Language.ofPath p = .ok .cpp := by decide
  have hlines : c.selection.request c.path = .ok (.lines 1 2) := rfl
  cases hlanguage.symm.trans hcpp
  cases hrequest.symm.trans hlines
  have hfirst : found.first = 1 := by
    have hone : ((Source.ofFolder s.folder p).extract .cpp (.lines 1 2)).outcome.map
        Passage.first = .ok 1 := by
      decide +kernel
    rw [hfound] at hone
    exact Except.ok.inj hone
  obtain ⟨n, m, hkept, hn, hiff⟩ := hnumbers [] [.kept "int a;".toList, .removed "int x;".toList]
    (.kept "int b;".toList) [] rfl rfl hfirst rfl
  have hthird : KeptAt lostLine.script 2 3 := (keptAt_iff_shown _ _ _).2 (by decide)
  rw [hfirst] at hn hiff
  obtain rfl : n = 2 := Int.ofNat.inj hn
  obtain rfl := hkept.unique hthird
  exact ⟨hd, hthird, ⟨_, hcite⟩, fun heq => absurd (hiff.1 heq) (by decide)⟩

end Session

end Excerpt
