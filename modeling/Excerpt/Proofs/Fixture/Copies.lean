import Excerpt.Fixture.Collector
import Excerpt.Proofs.Except
import Excerpt.Proofs.File.Folder
import Excerpt.Proofs.File.Path
import Mathlib.Data.List.Perm.Subperm

/-!
# The copies and their records

A collector copies a file once, under a name that no file in its directory has, so every copy stays as it was
made and files from different places have copies of different names. The number that a name needs is found
among as many as there are files and directories. What is recorded with the first mishap of a file is the
name of its copy. A later mishap is recorded with the file's own name, which is the name of the copy only if
that has no number.
-/

namespace Excerpt

open List Folder

namespace Path

variable {d : Path} {n : String}

/-- A name that a file can have. -/
structure IsFileName (name : String) : Prop where
  ne_empty : name ≠ ""
  ne_dot : name ≠ "."
  ne_dots : name ≠ ".."
  no_slash : '/' ∉ name.toList

theorem child_of_isFileName (d : Path) (h : IsFileName n) : d.child n = ⟨d.parts ++ [n]⟩ := by
  have hp : Text.partsFrom ['/'] 0 n.toList = [n.toList] := Text.partsFrom_of_not_mem h.no_slash
  have hs : Spelled n.toList := by
    intro part hpa
    rw [hp, mem_singleton] at hpa
    subst hpa
    refine ⟨fun hnil => h.ne_empty (String.toList_eq_nil_iff.1 hnil), fun hdot => h.ne_dot ?_⟩
    rw [← String.ofList_toList (s := n), hdot]
  have hc := child_ofList d hs
  rwa [hp, String.ofList_toList, map_singleton, String.ofList_toList] at hc

theorem ne_slash_of_isFileName (h : IsFileName n) : n ≠ slash := by
  rintro rfl
  exact h.no_slash (by decide)

theorem parent_child (d : Path) (h : IsFileName n) : (d.child n).parent = d := by
  rw [child_of_isFileName d h, parent, if_neg, dropLast_concat]
  obtain ⟨parts⟩ := d
  cases parts with
  | nil => simp [isAbsolute, ne_slash_of_isFileName h]
  | cons a parts => simp

theorem resolve_child (d cwd : Path) (h : IsFileName n) :
    (d.child n).resolve cwd = ⟨(d.resolve cwd).parts ++ [n]⟩ := by
  have hn : (cwd.join (d.child n)).names = (cwd.join d).names ++ [n] := by
    obtain ⟨parts⟩ := d
    rw [names_join, names_join, child_of_isFileName _ h]
    cases parts with
    | nil => simp [isAbsolute, names, ne_slash_of_isFileName h]
    | cons a parts =>
      simp only [isAbsolute, names, cons_append, head?_cons, drop_one, tail_cons]
      split <;> simp
  have hne : next (collapse [] (cwd.join d).names).reverse n = n :: (collapse [] (cwd.join d).names).reverse :=
    if_neg (by simpa using h.ne_dots)
  rw [resolve, hn, collapse_concat, hne, resolve]
  simp

end Path

namespace Collector

variable {f g : Folder} {c : Collector} {source directory : Path}

/-! ## Names with numbers -/

theorem toList_numberedName (source : Path) (n : Nat) : (numberedName source n).toList =
    source.stem.toList ++ '_' :: Nat.toDigits 10 n ++ source.suffix.toList := by
  simp [numberedName, Nat.repr, toString]

theorem numberedName_injective (source : Path) : Function.Injective (numberedName source) := by
  intro m n h
  have hl := congrArg String.toList h
  rw [toList_numberedName, toList_numberedName] at hl
  have hd := cons.inj (append_cancel_left (append_cancel_right hl))
  rw [← Nat.ofDigitChars_ten_toDigits (n := m), hd.2, Nat.ofDigitChars_ten_toDigits]

theorem numberedName_ne_name (source : Path) (n : Nat) : numberedName source n ≠ source.name := by
  intro h
  have hl := congrArg (fun s => s.toList.length) h
  simp only [toList_numberedName, ← Path.stem_append_suffix, length_append, length_cons] at hl
  omega

theorem isFileName_numberedName (h : Path.IsFileName source.name) (n : Nat) :
    Path.IsFileName (numberedName source n) := by
  have hl : '_' ∈ (numberedName source n).toList := by simp [toList_numberedName]
  refine ⟨fun heq => ?_, fun heq => ?_, fun heq => ?_, fun hs => h.no_slash ?_⟩
  · exact absurd (heq ▸ hl) (by decide)
  · exact absurd (heq ▸ hl) (by decide)
  · exact absurd (heq ▸ hl) (by decide)
  · have hd : '/' ∉ Nat.toDigits 10 n := fun hmem =>
      absurd (Nat.isDigit_of_mem_toDigits (by decide) (by decide) hmem) (by decide)
    rw [← Path.stem_append_suffix, mem_append]
    simpa [toList_numberedName, hd] using hs

/-! ## A name that is free -/

/-- What stands at a name in a directory is a file, or there is something below it. -/
theorem exists_below {n : String} (hn : Path.IsFileName n) (h : f.exists (directory.child n)) :
    ∃ q ∈ f.files.keys ++ f.cwd :: f.made, (directory.resolve f.cwd).parts ++ [n] <+: q.parts := by
  have hp := Path.resolve_child directory f.cwd hn
  have hen : f.entryAt ⟨(directory.resolve f.cwd).parts ++ [n]⟩ ≠ .missing := by
    unfold Folder.exists at h
    intro hm
    by_cases hb : f.entry (directory.child n) = .blocked
    · simp [hb] at h
    · by_cases hno : f.entry (directory.child n) = .missing
      · simp [hno] at h
      · have hen := ((Folder.KeepsBut.refl (fun _ => False) f).entry hno hb).1
        rw [hp, hm] at hen
        exact hno hen
  unfold Folder.entryAt at hen
  cases hf : f.files.get? ⟨(directory.resolve f.cwd).parts ++ [n]⟩ with
  | some a =>
    have hmem := Table.mem_of_get?_eq_some hf
    exact ⟨_, mem_append_left _ (List.mem_map_of_mem hmem), prefix_rfl⟩
  | none =>
    have hdi : f.hasDirectory ⟨(directory.resolve f.cwd).parts ++ [n]⟩ := by
      by_contra hnot
      simp [hf, hnot] at hen
    rcases hasDirectory_iff.1 hdi with hr | ⟨d, hd, hpre⟩ | ⟨q, hq, hpre, -⟩
    · simp [Path.resolve] at hr
    · exact ⟨d, mem_append_right _ hd, hpre⟩
    · exact ⟨q, mem_append_left _ hq, hpre⟩

theorem length_le_of_exists (directory : Path) {names : List String} (hno : names.Nodup)
    (h : ∀ n ∈ names, Path.IsFileName n ∧ f.exists (directory.child n)) :
    names.length ≤ f.files.length + f.made.length + 1 := by
  have hs : names.map some ⊆ (f.files.keys ++ f.cwd :: f.made).map
      fun q => q.parts[(directory.resolve f.cwd).parts.length]? := by
    intro o ho
    obtain ⟨n, hn, rfl⟩ := List.mem_map.1 ho
    obtain ⟨q, hq, rest, hpre⟩ := exists_below (h n hn).1 (h n hn).2
    refine List.mem_map.2 ⟨q, hq, ?_⟩
    rw [← hpre, append_assoc, getElem?_append_right (Nat.le_refl _), Nat.sub_self]
    rfl
  have hle := (subperm_of_subset (hno.map fun _ _ => Option.some.inj) hs).length_le
  simpa [Table.keys, Nat.add_assoc] using hle

theorem freeName_cases (f : Folder) (directory source : Path) (n tries : Nat) :
    (∃ k, freeName f directory source n tries = numberedName source k ∧
      f.exists (directory.child (numberedName source k)) = false) ∨
    ∀ i < tries, f.exists (directory.child (numberedName source (n + i))) := by
  induction tries generalizing n with
  | zero => exact .inr fun i hi => absurd hi (Nat.not_lt_zero i)
  | succ tries ih =>
    rw [freeName]
    split
    · next ht =>
        refine (ih (n + 1)).imp_right fun hall i hi => ?_
        cases i with
        | zero => exact ht
        | succ i => exact Nat.succ_add_eq_add_succ n i ▸ hall i (Nat.lt_of_succ_lt_succ hi)
    · next hf => exact .inl ⟨n, rfl, by simpa using hf⟩

theorem copyName_free (hna : Path.IsFileName source.name) (hnew : source ∉ c.copied) :
    Path.IsFileName (copyName f c source) ∧ f.exists (c.directory.child (copyName f c source)) = false := by
  rw [copyName]
  split
  · next ht =>
      simp only [Bool.and_eq_true] at ht
      rcases freeName_cases f c.directory source 1 (f.files.length + f.made.length + 1) with
        ⟨k, hk, hf⟩ | hall
      · rw [hk]
        exact ⟨isFileName_numberedName hna k, hf⟩
      · -- The own name and all the numbered ones are taken: more than there are files and directories.
        have hno : (source.name :: (List.range (f.files.length + f.made.length + 1)).map
            fun i => numberedName source (1 + i)).Nodup := by
          refine nodup_cons.2 ⟨fun hmem => ?_, nodup_range.map fun i j hij => ?_⟩
          · obtain ⟨i, -, hi⟩ := List.mem_map.1 hmem
            exact numberedName_ne_name source _ hi
          · exact Nat.add_left_cancel (numberedName_injective source hij)
        have hle := length_le_of_exists (f := f) c.directory hno fun n hn => ?_
        · simp at hle
        · rcases mem_cons.1 hn with rfl | hn
          · exact ⟨hna, ht.1⟩
          · obtain ⟨i, hi, rfl⟩ := List.mem_map.1 hn
            exact ⟨isFileName_numberedName hna _, hall i (mem_range.1 hi)⟩
  · next hf =>
      simp [hnew] at hf
      exact ⟨hna, hf⟩

/-! ## What a collector keeps -/

/-- A file is met that has not been copied, and is copied. -/
structure Copies (f : Folder) (c : Collector) (source : Path) (g : Folder) (name : String) : Prop where
  new : source ∉ c.copied
  isFileName : Path.IsFileName name
  free : f.exists (c.directory.child name) = false
  written : ∃ made bytes, f.make c.directory = .ok made ∧ made.read source = .ok bytes ∧
    made.write (c.directory.child name) bytes = .ok g

/-- A file that does not exist or cannot be copied is not recorded, and takes nothing away. -/
theorem collect_cases {cause : String} {context : Option String} {c' : Collector} {e : Option Failure}
    (hn : Path.IsFileName source.name) (h : collect f c source cause context = (g, c', e)) :
    ((f.exists source && e.isNone) = false ∧ Folder.KeepsBut (fun _ => False) f g ∧ c' = c) ∨
    (f.exists source && e.isNone) ∧
      ((source ∈ c.copied ∧ g = f ∧ c' = c.record ⟨source, source.name, cause, context⟩) ∨
      ∃ name, Copies f c source g name ∧
        c' = { c with copied := c.copied ++ [source] }.record ⟨source, name, cause, context⟩) := by
  unfold collect at h
  split at h
  · next hm =>
      cases h
      exact .inl ⟨by simpa using hm, .refl _ f, rfl⟩
  · next hex =>
      have hex : f.exists source := by simpa using hex
      dsimp only at h
      split at h
      · next hc =>
          have hc := contains_iff_mem.1 hc
          have hown : copyName f c source = source.name := if_neg (by simp [hc])
          cases h
          exact .inr ⟨by simp [hex], .inl ⟨hc, rfl, by rw [hown]⟩⟩
      · next hnew =>
          have hnew : source ∉ c.copied := by simpa using hnew
          split at h
          · cases h
            exact .inl ⟨by simp, .refl _ f, rfl⟩
          · next made hma =>
              split at h
              · cases h
                exact .inl ⟨by simp, (keepsBut_make hma).1, rfl⟩
              · next hco =>
                  obtain ⟨bytes, hr, hw⟩ := Outcome.bind_eq_ok.1 hco
                  obtain ⟨hf, hfr⟩ := copyName_free (f := f) hn hnew
                  cases h
                  exact .inr ⟨by simp [hex],
                    .inr ⟨_, ⟨hnew, hf, hfr, made, bytes, hma, hr, hw⟩, rfl⟩⟩

/-- A mishap is recorded with the name of the copy if it is the first one of its file, and with the file's own
name if there were mishaps of the file before. -/
def Points (copies : List (Path × String)) (before : List Mishap) (m : Mishap) : Prop :=
  ∃ name, (m.source, name) ∈ copies ∧
    m.copy = if m.source ∈ before.map Mishap.source then m.source.name else name

/-- What a collector has, where `copies` are the copied files with the names of their copies. -/
structure Kept (f : Folder) (c : Collector) (copies : List (Path × String)) : Prop where
  sources : copies.map Prod.fst = c.copied
  nodup : c.copied.Nodup
  names : (copies.map Prod.snd).Nodup
  directory : copies ≠ [] → f.entry c.directory = .directory
  copy : ∀ e ∈ copies, ∃ bytes, f.read e.1 = .ok bytes ∧ f.read (c.directory.child e.2) = .ok bytes
  recorded : ∀ p ∈ c.copied, p ∈ c.mishaps.map Mishap.source
  mishap : ∀ i m, c.mishaps[i]? = some m → Points copies (c.mishaps.take i) m

variable {copies : List (Path × String)}

theorem exists_of_read {p : Path} {bytes : Bytes} (h : f.read p = .ok bytes) : f.exists p := by
  rw [Folder.exists, Folder.entry_of_read h]

/-- What holds of every mishap with those before it holds still if it holds of one more. -/
theorem mishap_concat {P : List Mishap → Mishap → Prop} {ms : List Mishap} {m : Mishap}
    (h : ∀ i m, ms[i]? = some m → P (ms.take i) m) (hm : P ms m) :
    ∀ i m', (ms ++ [m])[i]? = some m' → P ((ms ++ [m]).take i) m' := by
  intro i m' hi
  rcases Nat.lt_or_ge i ms.length with hlt | hge
  · rw [getElem?_append_left hlt] at hi
    rw [take_append_of_le_length hlt.le]
    exact h i m' hi
  · obtain rfl : i = ms.length := by
      have := (List.getElem?_eq_some_iff.1 hi).1
      rw [length_append, length_singleton] at this
      omega
    obtain rfl : m = m' := by simpa using hi
    simpa using hm

namespace Kept

theorem start (f : Folder) (directory : Path) : Kept f (.start directory) [] :=
  ⟨rfl, nodup_nil, nodup_nil, fun h => absurd rfl h, by simp, by simp [Collector.start],
    by simp [Collector.start]⟩

theorem keepsBut (h : Kept f c copies) (hk : Folder.KeepsBut (fun _ => False) f g) : Kept g c copies :=
  { h with
    directory := fun hne => hk.entry_directory (h.directory hne)
    copy := fun e he => (h.copy e he).imp fun _ hr => ⟨hk.read hr.1 id, hk.read hr.2 id⟩ }

/-- A file that is met again is recorded under its own name. -/
theorem again (h : Kept f c copies) (hs : source ∈ c.copied) (cause : String) (context : Option String) :
    Kept f (c.record ⟨source, source.name, cause, context⟩) copies := by
  refine { h with recorded := fun p hp => ?_, mishap := mishap_concat h.mishap ?_ }
  · rw [Collector.record, map_append]
    exact mem_append_left _ (h.recorded p hp)
  · obtain ⟨⟨_, name⟩, hmem, rfl⟩ := List.mem_map.1 (h.sources ▸ hs)
    exact ⟨name, hmem, (if_pos (h.recorded _ hs)).symm⟩

/-- A first copy is written where nothing was, so what has been copied before stays. -/
theorem first {name : String} (h : Kept f c copies) (hco : Copies f c source g name) (cause : String)
    (context : Option String) :
    Kept g ({ c with copied := c.copied ++ [source] }.record ⟨source, name, cause, context⟩)
      (copies ++ [(source, name)]) := by
  obtain ⟨hnew, hn, hf, made, bytes, hma, hr, hw⟩ := hco
  obtain ⟨hk, hc⟩ := Folder.keepsBut_write hw
  have hpa : made.entry c.directory = .directory :=
    Path.parent_child c.directory hn ▸ (entryAt_of_write hw).2.2.1
  have hold : ∀ p a, copies ≠ [] → f.read p = .ok a → g.read p = .ok a := by
    intro p a hne hp
    obtain rfl : f = made := Except.ok.inj ((make_of_directory (h.directory hne)).symm.trans hma)
    refine hk.read hp fun hpl => ?_
    have hen := entry_eq_within f (entryAt_of_write hw).2.1
    rw [Path.parent_child c.directory hn, hpa, ← hpl, Folder.entryAt, Folder.get?_of_read hp] at hen
    simp [Folder.exists, hen, Folder.Entry.within] at hf
  have hfr : name ∉ copies.map Prod.snd := by
    intro hmem
    obtain ⟨⟨p, _⟩, he, rfl⟩ := List.mem_map.1 hmem
    obtain ⟨a, -, ha⟩ := h.copy _ he
    exact absurd (exists_of_read ha) (by simp [hf])
  refine ⟨?_, ?_, ?_, fun _ => hk.entry_directory hpa, ?_, ?_, mishap_concat (fun i m hi => ?_) ?_⟩
  · rw [map_append, h.sources]
    rfl
  · simpa [Collector.record] using h.nodup.concat hnew
  · simpa using h.names.concat hfr
  · intro e he
    rcases mem_append.1 he with he | he
    · obtain ⟨a, hfi, ht⟩ := h.copy e he
      have hne := ne_nil_of_mem he
      exact ⟨a, hold _ a hne hfi, hold _ a hne ht⟩
    · obtain rfl := mem_singleton.1 he
      by_cases hpl : source.resolve made.cwd = (c.directory.child name).resolve made.cwd
      · have hget := Folder.get?_of_read hc
        rw [hk.cwd, ← hpl] at hget
        exact ⟨bytes, hk.read_of_get? hr hget, hc⟩
      · exact ⟨bytes, hk.read hr hpl, hc⟩
  · intro p hp
    rw [Collector.record, map_append, mem_append]
    exact (mem_append.1 hp).imp (h.recorded p) id
  · exact (h.mishap i m hi).imp fun _ hm => ⟨mem_append_left _ hm.1, hm.2⟩
  · refine ⟨name, mem_append_right _ (mem_singleton_self _), (if_neg fun hmem => hnew ?_).symm⟩
    obtain ⟨m, hm, hs⟩ := List.mem_map.1 hmem
    obtain ⟨i, hi⟩ := getElem?_of_mem hm
    obtain ⟨_, he, -⟩ := h.mishap i m hi
    rw [← h.sources]
    exact List.mem_map.2 ⟨_, he, hs⟩

end Kept

/-! ## Files one after the other -/

/-- Something goes wrong with a file. -/
structure Incident where
  source : Path
  isFileName : Path.IsFileName source.name
  cause : String
  context : Option String

/-- Collects files one after the other, whatever fails. The incidents whose file was there and could be
copied are listed. -/
def collectAll (f : Folder) (c : Collector) : List Incident → Folder × Collector × List Incident
  | [] => (f, c, [])
  | i :: is =>
    let step := collect f c i.source i.cause i.context
    let rest := collectAll step.1 step.2.1 is
    (rest.1, rest.2.1, if f.exists i.source && step.2.2.isNone then i :: rest.2.2 else rest.2.2)

def Mishap.about (m : Mishap) : Path × String × Option String :=
  (m.source, m.cause, m.context)

/-- The same of an incident. -/
def Incident.about (i : Incident) : Path × String × Option String :=
  (i.source, i.cause, i.context)

theorem Kept.collectAll (h : Kept f c copies) (incidents : List Incident) :
    (∃ copies, Kept (collectAll f c incidents).1 (collectAll f c incidents).2.1 copies) ∧
      (collectAll f c incidents).2.1.directory = c.directory ∧
      (collectAll f c incidents).2.1.mishaps.map Mishap.about =
        c.mishaps.map Mishap.about ++ (collectAll f c incidents).2.2.map Incident.about := by
  induction incidents generalizing f c copies with
  | nil => exact ⟨⟨copies, h⟩, rfl, (append_nil _).symm⟩
  | cons i is ih =>
    rw [Collector.collectAll]
    rcases hs : collect f c i.source i.cause i.context with ⟨g, c', e⟩
    rcases collect_cases i.isFileName hs with ⟨hmet, hk, rfl⟩ | ⟨hmet, hr⟩
    · dsimp only
      rw [hmet]
      exact ih (h.keepsBut hk)
    · obtain ⟨copies', hke, hd, hm⟩ : ∃ copies', Kept g c' copies' ∧
          c'.directory = c.directory ∧
          c'.mishaps.map Mishap.about = c.mishaps.map Mishap.about ++ [i.about] := by
        rcases hr with ⟨ha, rfl, rfl⟩ | ⟨name, hc, rfl⟩
        · exact ⟨_, h.again ha i.cause i.context, rfl, by simp [record, Mishap.about, Incident.about]⟩
        · exact ⟨_, h.first hc i.cause i.context, rfl, by simp [record, Mishap.about, Incident.about]⟩
      obtain ⟨hall, hdir, hl⟩ := ih hke
      refine ⟨hall, hdir.trans hd, ?_⟩
      rw [hl, hm, hmet, if_pos rfl, map_cons, append_assoc]
      rfl

/-- Whatever is collected in whatever order: every incident with a file that can be copied is recorded; files
from different places have copies of different names, with the bytes of the files; and every record is about
a file that has been copied. It holds the name of the copy exactly if the file was met for the first time or
the copy has the file's own name. -/
theorem record_names_copy_iff (f : Folder) (directory : Path) (incidents met : List Incident) (g : Folder)
    (c : Collector) (h : collectAll f (.start directory) incidents = (g, c, met)) :
    c.mishaps.map Mishap.about = met.map Incident.about ∧
    ∃ copies : List (Path × String), (copies.map Prod.fst).Nodup ∧ (copies.map Prod.snd).Nodup ∧
      (∀ e ∈ copies, ∃ bytes, g.read e.1 = .ok bytes ∧ g.read (directory.child e.2) = .ok bytes) ∧
      ∀ i m, c.mishaps[i]? = some m → ∃ name, (m.source, name) ∈ copies ∧
        (m.copy = name ∨ m.copy = m.source.name) ∧
        (m.copy = name ↔ m.source ∉ (c.mishaps.take i).map Mishap.source ∨ name = m.source.name) := by
  obtain ⟨⟨copies, hkept⟩, hdirectory, hmishaps⟩ := (Kept.start f directory).collectAll incidents
  rw [h] at hkept hdirectory hmishaps
  dsimp only at hkept hdirectory hmishaps
  refine ⟨hmishaps, copies, hkept.sources ▸ hkept.nodup, hkept.names, fun e he => ?_, fun i m hi => ?_⟩
  · have hcopy := hkept.copy e he
    rwa [hdirectory] at hcopy
  · obtain ⟨name, he, hname⟩ := hkept.mishap i m hi
    refine ⟨name, he, ?_⟩
    by_cases hagain : m.source ∈ (c.mishaps.take i).map Mishap.source
    · rw [if_pos hagain] at hname
      rw [hname]
      exact ⟨.inr rfl, fun hown => .inr hown.symm, fun hfirst => (hfirst.resolve_left (absurd hagain)).symm⟩
    · rw [if_neg hagain] at hname
      exact ⟨.inl hname, fun _ => .inl hagain, fun _ => hname⟩

/-- Two files of one name, of which the second is met twice: its second record names the copy of the first. -/
theorem record_names_copy_iff_same_name :
    let a : Incident :=
      ⟨⟨["/", "a", "x.cpp"]⟩, ⟨by decide, by decide, by decide, by decide⟩, "e", none⟩
    let b : Incident :=
      ⟨⟨["/", "b", "x.cpp"]⟩, ⟨by decide, by decide, by decide, by decide⟩, "e", none⟩
    let f : Folder := ⟨[(a.source, [97]), (b.source, [98])], [], ⟨["/"]⟩⟩
    let run := collectAll f (.start ⟨["/", "out"]⟩) [a, b, b]
    run.2.1.mishaps.map Mishap.copy = ["x.cpp", "x_1.cpp", "x.cpp"] ∧
    ∃ copies : List (Path × String), (copies.map Prod.snd).Nodup ∧
      ∀ i m, run.2.1.mishaps[i]? = some m → ∃ name, (m.source, name) ∈ copies ∧
        (m.copy = name ↔ m.source ∉ (run.2.1.mishaps.take i).map Mishap.source ∨ name = m.source.name) := by
  intro a b f run
  have heta : ∀ r : Folder × Collector × List Incident, r = (r.1, r.2.1, r.2.2) := fun _ => rfl
  obtain ⟨-, copies, -, hnames, -, hrecords⟩ := record_names_copy_iff f _ [a, b, b] _ _ _ (heta run)
  refine ⟨by decide, copies, hnames, fun i m hi => ?_⟩
  obtain ⟨name, he, -, hname⟩ := hrecords i m hi
  exact ⟨name, he, hname⟩

end Collector

end Excerpt
