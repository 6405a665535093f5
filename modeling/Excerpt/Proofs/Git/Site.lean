import Excerpt.Git.Hub
import Excerpt.Proofs.Text.Trim

/-!
# The page of a repository

The address of a page is the origin of the repository without what stands before the owner,
and without every `.git`. So the end `.git` of an origin makes no difference, but a `.git`
within the name of the owner or of the repository is lost too: the address names the
repository exactly if neither name has one (`address_names_repository_iff`).
-/

namespace Excerpt

open List

namespace Text

variable {sep word cs ds : List Char} {c d : Char} {skip : Nat}

/-- A text without the occurrences of `sep`. -/
def without (sep cs : List Char) : List Char :=
  (partsFrom sep 0 cs).flatten

theorem flatten_consHead (c : Char) (ps : List (List Char)) : (consHead c ps).flatten = c :: ps.flatten := by
  cases ps <;> rfl

/-- An occurrence is passed over, and any other character is kept. -/
theorem without_cons (hsep : sep ≠ []) (c : Char) (cs : List Char) :
    without sep (c :: cs) = if sep.isPrefixOf (c :: cs) then (partsFrom sep (sep.length - 1) cs).flatten
      else c :: without sep cs := by
  have hem : (!sep.isEmpty) := by simpa using hsep
  rw [without, partsFrom, hem, Bool.true_and]
  split
  · rfl
  · exact flatten_consHead c _

theorem toList_replace_empty (sep s : String) : (replace sep "" s).toList = without sep.toList s.toList := by
  have hj : ∀ ps : List (List Char), List.intercalate [] ps = ps.flatten := by
    intro ps
    induction ps with
    | nil => rfl
    | cons p ps ih => cases ps <;> simp_all [List.intercalate, List.intersperse]
  rw [replace, join, split, String.toList_ofList, List.map_map]
  simp [hj, without, Function.comp_def]

theorem without_of_not_hasPart (h : hasPart sep cs = false) : without sep cs = cs := by
  rw [without, partsFrom_of_not_hasPart h, flatten_singleton]

theorem length_flatten_partsFrom_le (sep cs : List Char) (skip : Nat) :
    (partsFrom sep skip cs).flatten.length ≤ cs.length := by
  induction cs generalizing skip with
  | nil => exact Nat.le_refl _
  | cons c cs ih =>
    cases skip with
    | succ n => exact Nat.le_succ_of_le (ih n)
    | zero =>
      rw [partsFrom]
      split
      · exact Nat.le_succ_of_le (ih _)
      · rw [flatten_consHead]
        exact Nat.succ_le_succ (ih 0)

theorem length_without_lt (hsep : sep ≠ []) (h : hasPart sep cs) :
    (without sep cs).length < cs.length := by
  induction cs with
  | nil => exact absurd (List.isEmpty_iff.1 h) hsep
  | cons c cs ih =>
    rw [without_cons hsep]
    split
    · exact Nat.lt_succ_of_le (length_flatten_partsFrom_le sep cs _)
    · next hh =>
        rw [hasPart, Bool.or_eq_true] at h
        exact Nat.succ_lt_succ (ih (h.resolve_left hh))

/-- An occurrence does not reach over a character that stands nowhere in it but at its start. -/
theorem flatten_partsFrom_append (hc : c ∉ word) (ds : List Char) (hs : skip ≤ cs.length) :
    (partsFrom (d :: word) skip (cs ++ c :: ds)).flatten =
      (partsFrom (d :: word) skip cs).flatten ++ without (d :: word) (c :: ds) := by
  induction cs generalizing skip with
  | nil =>
    obtain rfl : skip = 0 := Nat.le_zero.1 hs
    rfl
  | cons b cs ih =>
    cases skip with
    | succ n => exact ih (Nat.le_of_succ_le_succ hs)
    | zero =>
      have hp : (d :: word).isPrefixOf (b :: (cs ++ c :: ds)) = (d :: word).isPrefixOf (b :: cs) := by
        rw [Bool.eq_iff_iff, isPrefixOf_iff_prefix, isPrefixOf_iff_prefix, cons_prefix_cons, cons_prefix_cons]
        refine and_congr_right fun _ => ⟨fun hw => ?_, fun hw => hw.trans (List.prefix_append _ _)⟩
        refine prefix_of_prefix_length_le hw (List.prefix_append _ _) (Nat.le_of_not_lt fun hlt => hc ?_)
        obtain ⟨rest, hr⟩ := hw
        have hat : (word ++ rest)[cs.length]? = some c := by rw [hr]; simp
        rw [getElem?_append_left hlt] at hat
        exact mem_of_getElem? hat
      change without _ (b :: (cs ++ c :: ds)) = without _ (b :: cs) ++ _
      rw [without_cons (cons_ne_nil d word), without_cons (cons_ne_nil d word), hp]
      split
      · next hh =>
          refine ih ?_
          have hle := ( isPrefixOf_iff_prefix.1 hh).length_le
          simpa using hle
      · rw [cons_append]
        exact congrArg (b :: ·) (ih (Nat.zero_le _))

theorem without_append (hc : c ∉ word) (cs ds : List Char) :
    without (d :: word) (cs ++ c :: ds) = without (d :: word) cs ++ without (d :: word) (c :: ds) :=
  flatten_partsFrom_append hc ds (Nat.zero_le _)

end Text

namespace Site

variable {owner repo origin start : String} {cs : List Char}

/-- The end of origins that may be left out. -/
def mark : String := ".git"

/-- What an origin starts with. -/
def starts : List String := [shell, "http://github.com/", page]

/-- The origins of a repository. -/
def origins (owner repo : String) : List String :=
  starts.flatMap fun start => ["", mark].map fun tail => start ++ (owner ++ "/" ++ repo ++ tail)

/-- What is left of a name in the address of a page. -/
def shown (name : String) : String :=
  Text.replace mark "" name

theorem withoutAddresses_length_append (word cs : List Char) :
    withoutAddresses word.length (word ++ cs) = withoutAddresses 0 cs := by
  induction word with
  | nil => rfl
  | cons c word ih => exact ih

theorem withoutAddresses_of_not_mem (h : ':' ∉ cs) : withoutAddresses 0 cs = cs := by
  induction cs with
  | nil => rfl
  | cons c cs ih =>
    have hn : [page, "http://github.com/"].find? (fun a => a.toList.isPrefixOf (c :: cs)) = none := by
      rw [find?_eq_none]
      intro a ha hs
      have hc : ∀ a ∈ [page, "http://github.com/"], ':' ∈ a.toList := by decide
      exact h (( isPrefixOf_iff_prefix.1 hs).subset (hc a ha))
    rw [withoutAddresses, hn]
    exact congrArg (c :: ·) (ih fun hmem => h (mem_cons_of_mem c hmem))

theorem withoutAddresses_append (hs : start ∈ ["http://github.com/", page]) (h : ':' ∉ cs) :
    withoutAddresses 0 (start.toList ++ cs) = cs := by
  simp only [mem_cons, not_mem_nil, or_false] at hs
  rcases hs with rfl | rfl
  · exact (withoutAddresses_length_append "ttp://github.com/".toList cs).trans (withoutAddresses_of_not_mem h)
  · exact (withoutAddresses_length_append "ttps://github.com/".toList cs).trans (withoutAddresses_of_not_mem h)

/-- What stands before the owner is taken away, and each mark behind it. -/
theorem addressOf_append {rest : String} (hs : start ∈ starts)
    (h : ':' ∉ rest.toList) : addressOf (start ++ rest) = some (page ++ shown rest) := by
  unfold addressOf
  rcases mem_cons.1 hs with rfl | hs
  · have hsh : Text.replace shell "" (shell ++ rest) = rest := by
      have hnot : Text.hasPart shell.toList rest.toList = false := by
        rw [← Bool.not_eq_true, Text.hasPart_iff]
        exact fun hp => h (hp.subset (by decide))
      rw [← String.toList_inj, Text.toList_replace_empty, String.toList_append]
      have hpa : Text.partsFrom shell.toList 0 ([] ++ shell.toList ++ rest.toList) =
          [] :: Text.partsFrom shell.toList 0 rest.toList := Text.partsFrom_append_word not_mem_nil _
      exact (congrArg List.flatten hpa).trans (Text.without_of_not_hasPart hnot)
    have hst : Text.startsWith (shell ++ rest) shell := by simp [Text.startsWith]
    rw [if_pos hst, hsh]
    rfl
  · have hst : Text.startsWith (start ++ rest) shell = false := by
      rw [Text.startsWith, String.toList_append]
      simp only [mem_cons, not_mem_nil, or_false] at hs
      rcases hs with rfl | rfl <;> rfl
    have hsi : Text.contains (start ++ rest) "github.com" := by
      have hp : ∀ a ∈ ["http://github.com/", page], "github.com".toList <:+: a.toList := by decide
      rw [Text.contains, Text.hasPart_iff, String.toList_append]
      exact (hp start hs).trans (List.prefix_append _ _).isInfix
    rw [hst, if_neg (by decide), if_pos hsi, String.toList_append, withoutAddresses_append hs h,
      String.ofList_toList]
    rfl

theorem shown_append (owner repo : String) : shown (owner ++ "/" ++ repo) = shown owner ++ "/" ++ shown repo ∧
      shown (owner ++ "/" ++ repo ++ mark) = shown owner ++ "/" ++ shown repo := by
  have hm : mark.toList = '.' :: ['g', 'i', 't'] := by decide
  have hs : ∀ cs, Text.without mark.toList ('/' :: cs) = '/' :: Text.without mark.toList cs := fun cs => by
    rw [hm, Text.without_cons (cons_ne_nil _ _), if_neg (by simp)]
  have hn : ∀ cs : List Char, Text.without mark.toList (owner.toList ++ '/' :: cs) =
      Text.without mark.toList owner.toList ++ '/' :: Text.without mark.toList cs := fun cs => by
    rw [← hs, hm]
    exact Text.without_append (by decide) _ _
  have hend : Text.without mark.toList (repo.toList ++ mark.toList) = Text.without mark.toList repo.toList := by
    have hno : Text.without mark.toList mark.toList = [] := by decide
    rw [← append_nil (Text.without mark.toList repo.toList), ← hno, hm]
    exact Text.without_append (by decide) _ _
  have hl : ∀ name, (shown name).toList = Text.without mark.toList name.toList := Text.toList_replace_empty mark
  constructor
  · rw [← String.toList_inj]
    simp only [hl, String.toList_append]
    simpa using hn repo.toList
  · rw [← String.toList_inj]
    simp only [hl, String.toList_append]
    simpa [hend] using hn (repo.toList ++ mark.toList)

/-- The address of a repository is made of what is left of the two names. -/
theorem addressOf_origin (ho : ':' ∉ owner.toList) (hr : ':' ∉ repo.toList)
    (h : origin ∈ origins owner repo) : addressOf origin = some (page ++ shown owner ++ "/" ++ shown repo) := by
  obtain ⟨start, hst, h⟩ := mem_flatMap.1 h
  obtain ⟨tail, ht, rfl⟩ := List.mem_map.1 h
  have hc : ':' ∉ (owner ++ "/" ++ repo ++ tail).toList := by
    have hta : ∀ t ∈ ["", mark], ':' ∉ t.toList := by decide
    simp [String.toList_append, ho, hr, hta tail ht]
  have hs : shown (owner ++ "/" ++ repo ++ tail) = shown owner ++ "/" ++ shown repo := by
    simp only [mem_cons, not_mem_nil, or_false] at ht
    rcases ht with rfl | rfl
    · rw [String.append_empty, (shown_append owner repo).1]
    · exact (shown_append owner repo).2
  rw [addressOf_append hst hc, hs]
  simp [String.append_assoc]

theorem shown_eq_self {name : String} (h : Text.contains name mark = false) : shown name = name := by
  rw [← String.toList_inj, shown, Text.toList_replace_empty, Text.without_of_not_hasPart h]

/-- The page of a repository with one of the known origins is looked for under what is left of the name of
its owner and of its own name without the marks. It is its own page exactly if the mark stands in neither
name. -/
theorem address_names_repository_iff (g : Git) (h : Hub) {owner repo origin answer head : String}
    (howner : ':' ∉ owner.toList) (hrepo : ':' ∉ repo.toList) (horigin : origin ∈ origins owner repo)
    (hanswer : g.origin = .ok answer) (htrim : Text.trim answer = origin) (hhead : g.head = .ok head)
    (hnew : h.site = none) :
    ((Hub.askSite g).run h).1.address = some (page ++ shown owner ++ "/" ++ shown repo) ∧
      (((Hub.askSite g).run h).1.address = some (page ++ owner ++ "/" ++ repo) ↔
        Text.contains owner mark = false ∧ Text.contains repo mark = false) := by
  have hsite : ((Hub.askSite g).run h).1 = ofGit g := by
    obtain ⟨_, _, site, _⟩ := h
    cases hnew
    rfl
  have haddress : ((Hub.askSite g).run h).1.address = some (page ++ shown owner ++ "/" ++ shown repo) := by
    rw [hsite, ofGit, hanswer, hhead]
    dsimp only
    rw [htrim, addressOf_origin howner hrepo horigin]
  refine ⟨haddress, ?_⟩
  rw [haddress]
  constructor
  · intro heq
    -- a name that has a mark gets shorter, and no name gets longer
    have hle : ∀ name, (shown name).toList.length ≤ name.toList.length := fun name => by
      rw [shown, Text.toList_replace_empty]
      exact Text.length_flatten_partsFrom_le _ _ 0
    have hlt : ∀ name, Text.contains name mark = true → (shown name).toList.length < name.toList.length := by
      intro name hname
      rw [shown, Text.toList_replace_empty]
      exact Text.length_without_lt (by decide) hname
    have hlength := congrArg (·.toList.length) (Option.some.inj heq)
    simp only [String.toList_append, length_append] at hlength
    have hownerLe := hle owner
    have hrepoLe := hle repo
    constructor
    · by_contra hmark
      have hownerLt := hlt owner (by simpa using hmark)
      omega
    · by_contra hmark
      have hrepoLt := hlt repo (by simpa using hmark)
      omega
  · rintro ⟨howner, hrepo⟩
    rw [shown_eq_self howner, shown_eq_self hrepo]

/-- The page of `o/o.github.io` is not found. -/
theorem address_names_repository_iff_pages :
    let g : Git := .repository ⟨some "git@github.com:o/o.github.io.git\n", some "c", [], [], [], [], [], []⟩
    ((Hub.askSite g).run (.start ⟨[]⟩ ⟨[]⟩)).1.address = some "https://github.com/o/ohub.io" ∧
      Text.contains "o.github.io" mark = true := by
  intro g
  have horigin : "git@github.com:o/o.github.io.git" ∈ origins "o" "o.github.io" := by decide
  have haddress := (address_names_repository_iff g (.start ⟨[]⟩ ⟨[]⟩) (by decide) (by decide) horigin rfl
    (by decide) rfl rfl).1
  exact ⟨haddress.trans (by decide), by decide⟩

end Site

end Excerpt
