import Excerpt.Proofs.File.Path
import Excerpt.Tag.Basic
import Mathlib.Data.List.Induction

/-!
# Where the tags of a project are looked for

The search for the file of a project goes up from the directory of a document as
long as the directory does not come before the repository in the order of paths.
The directories on the way up come earlier and earlier, so this gives the
nearest file above the document if its directory does not come before the
repository (`locate_eq_some_iff`). A directory that does not come before the
repository need not lie in it: it may have parted from its path towards a
greater name, and every directory comes after a repository spelled by a dot. For a
document in a repository spelled by its absolute path this cannot happen, and the
nearest file within the repository is given (`locate_nearest_inside`).
-/

namespace Excerpt

open List Option

namespace Path

variable {parts repo : List String}

/-- The parts of the second list have turned off those of the first one towards a greater name. -/
def PassesBy (repo parts : List String) : Prop :=
  ∃ common a b as bs, repo = common ++ a :: as ∧ parts = common ++ b :: bs ∧ a < b

theorem passesBy_cons {a b : String} :
    PassesBy (a :: repo) (b :: parts) ↔ a < b ∨ a = b ∧ PassesBy repo parts := by
  constructor
  · rintro ⟨common, c, d, cs, ds, hr, hp, hlt⟩
    cases common with
    | nil =>
      cases hr
      cases hp
      exact .inl hlt
    | cons e common =>
      cases hr
      cases hp
      exact .inr ⟨rfl, common, c, d, cs, ds, rfl, rfl, hlt⟩
  · rintro (hlt | ⟨rfl, common, c, d, cs, ds, rfl, rfl, hlt⟩)
    · exact ⟨[], a, b, repo, parts, rfl, rfl, hlt⟩
    · exact ⟨a :: common, c, d, cs, ds, rfl, rfl, hlt⟩

/-- A path does not come before another one if it lies below it or passes by it. -/
theorem go_eq_false_iff :
    before.go parts repo = false ↔ repo <+: parts ∨ PassesBy repo parts := by
  induction repo generalizing parts with
  | nil => cases parts <;> simp [before.go]
  | cons a repo ih =>
    cases parts with
    | nil => simp [before.go, PassesBy]
    | cons b parts =>
      rw [before.go, cons_prefix_cons, passesBy_cons]
      by_cases hab : b = a
      · subst hab
        simp [ih]
      · rw [if_neg hab, decide_eq_false_iff_not, not_lt, le_iff_lt_or_eq]
        simp [Ne.symm hab]

theorem PassesBy.extend {more : List String} (h : PassesBy repo parts)
    (hm : parts <+: more) : PassesBy repo more := by
  obtain ⟨common, a, b, as, bs, rfl, rfl, hlt⟩ := h
  obtain ⟨cs, rfl⟩ := hm
  exact ⟨common, a, b, as, bs ++ cs, rfl, by simp, hlt⟩

theorem PassesBy.not_below (h : PassesBy repo parts) : ¬ repo <+: parts := by
  obtain ⟨common, a, b, as, bs, rfl, rfl, hlt⟩ := h
  rw [prefix_append_right_inj, cons_prefix_cons]
  exact fun hs => absurd hlt (hs.1 ▸ lt_irrefl a)

end Path

namespace TagFile

variable {f : Folder} {repo start d e file : Path} {parts : List String}

/-! ## The directories on the way up -/

theorem mem_ancestorsOf : d ∈ ancestorsOf parts ↔ d.parts <+: parts := by
  obtain ⟨ds⟩ := d
  induction parts generalizing ds with
  | nil => simp [ancestorsOf]
  | cons a parts ih =>
    cases ds with
    | nil => simp [ancestorsOf]
    | cons b ds =>
      have hmap : Path.mk (b :: ds) ∈ (ancestorsOf parts).map (fun p => ⟨a :: p.parts⟩) ↔
          a = b ∧ ds <+: parts := by
        rw [← ih, List.mem_map]
        constructor
        · rintro ⟨p, hp, hmk⟩
          cases hmk
          exact ⟨rfl, hp⟩
        · rintro ⟨rfl, hds⟩
          exact ⟨⟨ds⟩, hds, rfl⟩
      rw [ancestorsOf, mem_append, hmap, cons_prefix_cons, eq_comm]
      simp

/-- Each directory on the way up lies above those before it. -/
theorem pairwise_ancestorsOf (parts : List String) :
    (ancestorsOf parts).Pairwise fun d e => e.parts <+: d.parts ∧ e.parts.length < d.parts.length := by
  induction parts with
  | nil => exact pairwise_singleton _ _
  | cons a parts ih =>
    rw [ancestorsOf, pairwise_append]
    refine ⟨pairwise_map.2 (ih.imp fun h => ?_), pairwise_singleton _ _, ?_⟩
    · simpa using h
    · intro d hd e he
      obtain ⟨p, -, rfl⟩ := List.mem_map.1 hd
      rw [mem_singleton.1 he]
      simp

/-- The nearest directory, from a document up, that holds a file of tags. -/
structure Nearest (f : Folder) (start d : Path) : Prop where
  above : d.parts <+: (start.resolve f.cwd).parts
  ne_nil : d.parts ≠ []
  holds : f.exists (d.child name)
  none_nearer : ∀ e : Path, e.parts <+: (start.resolve f.cwd).parts →
    d.parts.length < e.parts.length → f.exists (e.child name) = false

/-- The directories on the way up get shorter and shorter, so the first one that holds a file is the
nearest one. -/
theorem nearest_iff : Nearest f start d ↔
      (ancestors (start.resolve f.cwd)).find? (fun e => f.exists (e.child name)) = some d := by
  have hmem : ∀ e : Path, e ∈ ancestors (start.resolve f.cwd) ↔
      e.parts <+: (start.resolve f.cwd).parts ∧ e.parts ≠ [] := by
    intro e
    simp [ancestors, mem_ancestorsOf]
  have hp := (pairwise_ancestorsOf (start.resolve f.cwd).parts).filter (!·.parts.isEmpty)
  change (ancestors (start.resolve f.cwd)).Pairwise _ at hp
  generalize ancestors (start.resolve f.cwd) = l at hmem hp
  rw [find?_eq_some_iff_append]
  constructor
  · intro h
    refine ⟨h.holds, ?_⟩
    obtain ⟨as, bs, rfl⟩ := append_of_mem ((hmem d).2 ⟨h.above, h.ne_nil⟩)
    refine ⟨as, bs, rfl, fun a ha => ?_⟩
    have hlt := (pairwise_append.1 hp).2.2 a ha d mem_cons_self
    rw [h.none_nearer a ((hmem a).1 (mem_append_left _ ha)).1 hlt.2]
    rfl
  · rintro ⟨hh, as, bs, rfl, hn⟩
    obtain ⟨hab, hne⟩ := (hmem d).1 (by simp)
    refine ⟨hab, hne, hh, fun e he hlt => ?_⟩
    have hpa : e.parts ≠ [] := ne_nil_of_length_pos (by omega)
    rcases mem_append.1 ((hmem e).2 ⟨he, hpa⟩) with hin | hin
    · simpa using hn e hin
    · rcases mem_cons.1 hin with rfl | hin
      · exact absurd hlt (Nat.lt_irrefl _)
      · have hb := (pairwise_cons.1 (pairwise_append.1 hp).2.1).1 e hin
        omega

/-- Where a property that holds of an element holds of those before it, looking as long as it holds
is looking everywhere and asking for it then. -/
theorem find?_takeWhile {α : Type} {p q : α → Bool} {l : List α}
    (h : l.Pairwise fun a b => q b = true → q a = true) : (l.takeWhile q).find? p = (l.find? p).filter q := by
  induction l with
  | nil => rfl
  | cons a l ih =>
    obtain ⟨ha, hl⟩ := pairwise_cons.1 h
    cases hq : q a with
    | true =>
      rw [takeWhile_cons_of_pos hq, find?_cons, find?_cons, ih hl]
      cases hp : p a with
      | true => rw [filter_some, hq]; rfl
      | false => rfl
    | false =>
      have hn : ∀ b ∈ a :: l, q b = false := by
        rw [forall_mem_cons]
        exact ⟨hq, fun b hb => Bool.eq_false_iff.2 fun hb' => absurd (ha b hb hb') (by simp [hq])⟩
      rw [takeWhile_cons_of_neg (by simp [hq]), find?_nil]
      cases hf : (a :: l).find? p with
      | none => rfl
      | some b =>
        rw [filter_some, hn b (mem_of_find?_eq_some hf)]
        rfl

/-- The file of a project is the nearest one above the document, if its directory lies in the
repository or passes by it. -/
theorem locate_eq_some_iff : locate f repo start = some file ↔
      ∃ d, Nearest f start d ∧ (repo.parts <+: d.parts ∨ Path.PassesBy repo.parts d.parts) ∧
        file = d.child name := by
  have hc : ∀ d : Path, (!d.before repo) ↔
      repo.parts <+: d.parts ∨ Path.PassesBy repo.parts d.parts := by
    intro d
    rw [Bool.not_eq_true', Path.before, Path.go_eq_false_iff]
  have hp : (ancestors (start.resolve f.cwd)).Pairwise fun d e =>
      (!e.before repo) → (!d.before repo) := by
    refine ((pairwise_ancestorsOf _).filter _).imp fun {d e} h he => ?_
    rw [hc] at he ⊢
    exact he.imp (·.trans h.1) (·.extend h.1)
  rw [locate, find?_map, map_eq_some_iff]
  change (∃ d, List.find? (fun d : Path => f.exists (d.child name)) _ = some d ∧ _) ↔ _
  rw [find?_takeWhile hp]
  refine exists_congr fun d => ?_
  rw [filter_eq_some_iff, ← nearest_iff, hc, and_assoc, eq_comm (a := file)]

theorem parent_child (hd : d.parts ≠ []) : (d.child name).parent = d := by
  have hc : d.child name = ⟨d.parts ++ [name]⟩ := by
    rw [Path.child, show Path.ofString name = ⟨[name]⟩ by decide, Path.join, if_neg (by decide)]
  have hl := length_pos_iff.2 hd
  rw [hc, Path.parent, if_neg]
  · rw [dropLast_concat]
  · rw [Bool.and_eq_true, decide_eq_true_eq, length_append, length_singleton]
    omega

/-! ## Files from outside -/

/-- The directory is the repository or lies below it. -/
def Inside (f : Folder) (repo d : Path) : Prop :=
  (repo.resolve f.cwd).parts <+: d.parts

/-- The file that is found lies outside the repository. -/
def FoundOutside (f : Folder) (repo start : Path) : Prop :=
  ∃ file, locate f repo start = some file ∧ ¬ Inside f repo file.parent

/-- A file from outside is found exactly if the nearest file above the document lies outside, in a
directory that passes by the repository or starts with its spelling. If the repository is spelled by
its own absolute path, then it is found exactly if the directory passes by; this cannot be for a
document in the repository. -/
theorem locate_outside_iff (f : Folder) (repo start : Path) :
    (FoundOutside f repo start ↔ ∃ d, Nearest f start d ∧ ¬ Inside f repo d ∧
      (repo.parts <+: d.parts ∨ Path.PassesBy repo.parts d.parts)) ∧
    (repo.resolve f.cwd = repo →
      (FoundOutside f repo start ↔ ∃ d, Nearest f start d ∧ Path.PassesBy repo.parts d.parts) ∧
      (Inside f repo (start.resolve f.cwd) → ¬ FoundOutside f repo start)) := by
  have hfound : FoundOutside f repo start ↔ ∃ d, Nearest f start d ∧ ¬ Inside f repo d ∧
      (repo.parts <+: d.parts ∨ Path.PassesBy repo.parts d.parts) := by
    constructor
    · rintro ⟨file, hfile, hout⟩
      obtain ⟨d, hd, hcases, rfl⟩ := locate_eq_some_iff.1 hfile
      rw [parent_child hd.ne_nil] at hout
      exact ⟨d, hd, hout, hcases⟩
    · rintro ⟨d, hd, hout, hcases⟩
      refine ⟨d.child name, locate_eq_some_iff.2 ⟨d, hd, hcases, rfl⟩, ?_⟩
      rwa [parent_child hd.ne_nil]
  refine ⟨hfound, fun hrepo => ?_⟩
  have hinside : ∀ d, Inside f repo d ↔ repo.parts <+: d.parts := by
    intro d
    rw [Inside, hrepo]
  have hpasses : FoundOutside f repo start ↔
      ∃ d, Nearest f start d ∧ Path.PassesBy repo.parts d.parts := by
    rw [hfound]
    refine exists_congr fun d => and_congr_right fun _ => ?_
    rw [hinside]
    exact ⟨fun h => h.2.resolve_left h.1, fun h => ⟨h.not_below, .inr h⟩⟩
  refine ⟨hpasses, fun hstart hout => ?_⟩
  obtain ⟨d, hd, hpass⟩ := hpasses.1 hout
  exact (hpass.extend hd.above).not_below ((hinside _).1 hstart)

/-- A file beside the repository is found, since `b` comes after `a`; and one above a repository that
is spelled by a dot. -/
theorem locate_outside_sibling :
    let f : Folder := ⟨[(.ofString "/v/b/.projected-source.py", [])], [], .ofString "/v/a"⟩
    FoundOutside f (.ofString "/v/a") (.ofString "/v/b") ∧
      (∃ d, Nearest f (.ofString "/v/b") d ∧ Path.PassesBy ["/", "v", "a"] d.parts) ∧
      FoundOutside f (.ofString ".") (.ofString "../b") := by
  intro f
  have hnearest : Nearest f (.ofString "/v/b") ⟨["/", "v", "b"]⟩ := nearest_iff.2 (by decide)
  have hnearest' : Nearest f (.ofString "../b") ⟨["/", "v", "b"]⟩ := nearest_iff.2 (by decide)
  have hpasses : Path.PassesBy ["/", "v", "a"] ["/", "v", "b"] :=
    ⟨["/", "v"], "a", "b", [], [], rfl, rfl, by decide⟩
  have hself : (Path.ofString "/v/a").resolve f.cwd = .ofString "/v/a" := by decide
  have hdot : ((Path.ofString ".").resolve f.cwd).parts = ["/", "v", "a"] := by decide
  refine ⟨((locate_outside_iff f _ _).2 hself).1.2 ⟨_, hnearest, hpasses⟩, ⟨_, hnearest, hpasses⟩, ?_⟩
  refine (locate_outside_iff f _ _).1.2 ⟨_, hnearest', ?_, .inl nil_prefix⟩
  rw [Inside, hdot]
  exact hpasses.not_below

/-! ## Files from inside -/

/-- The search goes up from a directory and ends with an answer. -/
inductive Climbs (f : Folder) (repo : Path) : Path → Option Path → Prop where
  | outside {d : Path} (hbefore : d.before repo) : Climbs f repo d none
  | here {d : Path} (hbefore : d.before repo = false) (hfile : f.exists (d.child name)) :
      Climbs f repo d (some (d.child name))
  | root {d : Path} (hbefore : d.before repo = false) (hfile : f.exists (d.child name) = false)
      (hroot : d.parent = d) : Climbs f repo d none
  | up {d : Path} {r : Option Path} (hbefore : d.before repo = false)
      (hfile : f.exists (d.child name) = false) (hroot : d.parent ≠ d) (h : Climbs f repo d.parent r) :
      Climbs f repo d r

/-- The search has one answer. -/
theorem Climbs.unique {r s : Option Path} (h : Climbs f repo d r) (h' : Climbs f repo d s) : r = s := by
  induction h with
  | outside hb => cases h' <;> simp_all
  | here hb hf => cases h' <;> simp_all
  | root hb hf hr => cases h' <;> simp_all
  | up hb hf hr h ih =>
    cases h' with
    | up _ _ _ h' => exact ih h'
    | _ => simp_all

theorem ancestorsOf_concat (parts : List String) (a : String) :
    ancestorsOf (parts ++ [a]) = ⟨parts ++ [a]⟩ :: ancestorsOf parts := by
  induction parts with
  | nil => rfl
  | cons b parts ih =>
    rw [cons_append, ancestorsOf, ih]
    rfl

/-- The search ends, for the way up gets shorter until it is at the root. -/
theorem climbs_ancestors (names : List String) :
    Climbs f repo ⟨Path.slash :: names⟩ ((((ancestors ⟨Path.slash :: names⟩).takeWhile fun d =>
      !d.before repo).map (·.child name)).find? f.exists) := by
  induction names using List.reverseRecOn with
  | nil =>
    have hr : ancestors ⟨[Path.slash]⟩ = [⟨[Path.slash]⟩] := rfl
    rw [hr]
    cases hb : Path.before ⟨[Path.slash]⟩ repo with
    | true => simpa [hb] using .outside hb
    | false =>
      cases hf : f.exists (Path.child ⟨[Path.slash]⟩ name) with
      | true => simpa [hb, hf] using .here hb hf
      | false => simpa [hb, hf] using .root hb hf rfl
  | append_singleton names a ih =>
    have hp : (Path.mk (Path.slash :: (names ++ [a]))).parent = ⟨Path.slash :: names⟩ := by
      simp [Path.parent, dropLast_cons_of_ne_nil]
    have hup : ancestors ⟨Path.slash :: (names ++ [a])⟩ =
        ⟨Path.slash :: (names ++ [a])⟩ :: ancestors ⟨Path.slash :: names⟩ := by
      rw [ancestors, ← cons_append, ancestorsOf_concat]
      rfl
    have hr : (Path.mk (Path.slash :: (names ++ [a]))).parent ≠ ⟨Path.slash :: (names ++ [a])⟩ := by
      simp [hp]
    rw [hup]
    cases hb : Path.before ⟨Path.slash :: (names ++ [a])⟩ repo with
    | true => simpa [hb] using .outside hb
    | false =>
      cases hf : f.exists (Path.child ⟨Path.slash :: (names ++ [a])⟩ name) with
      | true => simpa [hb, hf] using .here hb hf
      | false =>
        rw [← hp] at ih
        rw [takeWhile_cons_of_pos (by simp [hb]), map_cons,
          find?_cons_of_neg (by simp [hf]), ← hp]
        exact .up hb hf hr ih

/-- For a document in a repository that is spelled by its absolute path, the search ends and gives the file of the
nearest directory, from that of the document up to the repository, that has one. It gives nothing exactly if
none of these directories has one. -/
theorem locate_nearest_inside (f : Folder) (repo start : Path) (habsolute : repo.isAbsolute = true)
    (hstart : repo.parts <+: (start.resolve f.cwd).parts) :
    (∀ r, Climbs f repo (start.resolve f.cwd) r ↔ r = locate f repo start) ∧
    (∀ file, locate f repo start = some file ↔
      ∃ d, Nearest f start d ∧ repo.parts <+: d.parts ∧ file = d.child name) ∧
    (locate f repo start = none ↔ ∀ d : Path, repo.parts <+: d.parts →
      d.parts <+: (start.resolve f.cwd).parts → f.exists (d.child name) = false) := by
  have hclimbs : Climbs f repo (start.resolve f.cwd) (locate f repo start) := climbs_ancestors _
  have hsome : ∀ file, locate f repo start = some file ↔
      ∃ d, Nearest f start d ∧ repo.parts <+: d.parts ∧ file = d.child name := by
    intro file
    rw [locate_eq_some_iff]
    refine exists_congr fun d => and_congr_right fun hd => and_congr_left fun _ => ?_
    exact or_iff_left fun hpass => (hpass.extend hd.above).not_below hstart
  refine ⟨fun r => ⟨fun h => h.unique hclimbs, fun h => h ▸ hclimbs⟩, hsome, ?_⟩
  constructor
  · intro hnone d hrepo hd
    by_contra hfile
    have hne : d.parts ≠ [] := fun hnil => by
      rw [hnil, prefix_nil] at hrepo
      simp [Path.isAbsolute, hrepo] at habsolute
    have hmem : d ∈ ancestors (start.resolve f.cwd) := by simp [ancestors, mem_ancestorsOf, hd, hne]
    -- some directory has a file, so there is a nearest one; it lies below `d`
    obtain ⟨e, he⟩ := isSome_iff_exists.1 (find?_isSome.2 ⟨d, hmem, by simpa using hfile⟩ :
      ((ancestors (start.resolve f.cwd)).find? fun e => f.exists (e.child name)).isSome = true)
    have hnearest := nearest_iff.2 he
    have hle : d.parts.length ≤ e.parts.length := Nat.le_of_not_lt fun hlt =>
      hfile (hnearest.none_nearer d hd hlt)
    have hbelow := hrepo.trans (prefix_of_prefix_length_le hd hnearest.above hle)
    exact absurd ((hsome _).2 ⟨e, hnearest, hbelow, rfl⟩) (by simp [hnone])
  · intro hnone
    refine eq_none_iff_forall_ne_some.2 fun file hfile => ?_
    obtain ⟨d, hd, hrepo, rfl⟩ := (hsome file).1 hfile
    exact absurd hd.holds (by simp [hnone d hrepo hd.above])

/-- The file in the directory between the document and the repository is taken, not the one in the
repository; without it and without that of the repository, nothing is taken from above. -/
theorem locate_nearest_inside_between :
    let between : Path := .ofString "/v/a/b/.projected-source.py"
    let above : Path := .ofString "/v/.projected-source.py"
    let f : Folder := ⟨[(between, []), (.ofString "/v/a/.projected-source.py", [])], [], .ofString "/v/a"⟩
    let g : Folder := ⟨[(above, [])], [], .ofString "/v/a/b/c"⟩
    (∃ d, Nearest f (.ofString "b/c") d ∧ ["/", "v", "a"] <+: d.parts ∧ between = d.child name) ∧
      ∀ d : Path, ["/", "v", "a"] <+: d.parts → d.parts <+: ["/", "v", "a", "b", "c"] →
        g.exists (d.child name) = false := by
  intro between above f g
  have hf := locate_nearest_inside f (.ofString "/v/a") (.ofString "b/c") (by decide)
    (by decide)
  have hg := locate_nearest_inside g (.ofString "/v/a") (.ofString ".") (by decide)
    (by decide)
  exact ⟨(hf.2.1 between).1 (by decide), hg.2.2.1 (by decide)⟩

end TagFile

end Excerpt
