import Excerpt.File.Folder
import Excerpt.Proofs.Table

/-!
# Files that are written

The bytes of a file do not matter for where paths lead. So folders with the same files and directories
are read alike: the same paths can be read, with the bytes that each folder holds there. Writing a file
that can be read gives such a folder. Making a directory and writing a new file take nothing away: a
path that led somewhere leads to the same place.
-/

namespace Excerpt

open List Table

/-- Entering a name again keeps the names. -/
theorem Table.keys_put {κ α : Type} [DecidableEq κ] {t : Table κ α} {k : κ} {w : α}
    (h : t.get? k = some w) (v : α) : (t.put k v).keys = t.keys := by
  induction t with
  | nil => cases h
  | cons e t ih =>
    rw [put]
    split
    · next hk => rw [keys, keys, map_cons, map_cons, hk]
    · next hk =>
        rw [get?, if_neg hk] at h
        rw [keys, map_cons]
        exact congrArg _ (ih h)

namespace Path

variable {p : Path}

instance : LawfulBEq Path where
  eq_of_beq {p q} h := congrArg Path.mk (eq_of_beq (h : (p.parts == q.parts)))
  rfl {p} := beq_self_eq_true p.parts

/-- The place that a name leads to from the place `done`, which is held from its end on. -/
def next (done : List String) (name : String) : List String :=
  if name == ".." then done.drop 1 else name :: done

theorem mk_next (done : List String) (name : String) :
    (if name == ".." then (Path.mk (slash :: done.reverse)).parent else ⟨slash :: done.reverse ++ [name]⟩) =
      ⟨slash :: (next done name).reverse⟩ := by
  rw [next]
  split
  · cases done with
    | nil => rfl
    | cons name done => simp [parent, dropLast_cons_of_ne_nil]
  · simp

theorem collapse_cons (done : List String) (name : String) (names : List String) :
    collapse done (name :: names) = collapse (next done name) names := by
  rw [collapse, next]
  split <;> rfl

theorem collapse_concat (done names : List String) (name : String) :
    collapse done (names ++ [name]) = (next (collapse done names).reverse name).reverse := by
  induction names generalizing done with
  | nil => simp [collapse_cons, collapse]
  | cons a names ih => rw [cons_append, collapse_cons, collapse_cons, ih]

theorem names_join (cwd p : Path) :
    (cwd.join p).names = if p.isAbsolute then p.names else cwd.names ++ p.names := by
  unfold join
  split
  · rfl
  · next hp =>
      obtain ⟨parts⟩ := p
      obtain ⟨front⟩ := cwd
      cases front with
      | nil => rfl
      | cons c front =>
        rw [names, names, names, if_neg hp]
        by_cases hc : (some c == some slash)
        · exact (if_pos hc).trans (congrArg (· ++ parts) (if_pos hc)).symm
        · exact (if_neg hc).trans (congrArg (· ++ parts) (if_neg hc)).symm

theorem parent_eq_self (h : p.names = []) : p.parent = p := by
  obtain ⟨parts⟩ := p
  cases parts with
  | nil => rfl
  | cons a parts =>
    rw [names] at h
    split at h
    · next ha =>
        obtain rfl : parts = [] := h
        exact if_pos (by simp [ha])
    · cases h

/-- Going up takes the last name away. -/
theorem names_parent (h : p.names ≠ []) :
    p.parent.isAbsolute = p.isAbsolute ∧ ∃ name, p.names = p.parent.names ++ [name] := by
  obtain ⟨parts⟩ := p
  cases parts with
  | nil => exact absurd rfl h
  | cons a rest =>
    cases rest with
    | nil =>
      by_cases ha : a = slash
      · subst ha
        exact absurd rfl h
      · have hab : (Path.mk [a]).isAbsolute = false := by simpa [isAbsolute] using ha
        rw [parent, names, hab]
        exact ⟨rfl, a, rfl⟩
    | cons b rest =>
      have hp : (Path.mk (a :: b :: rest)).parent = ⟨a :: (b :: rest).dropLast⟩ := rfl
      have hl := (dropLast_append_getLast (cons_ne_nil b rest)).symm
      rw [hp]
      refine ⟨rfl, (b :: rest).getLast (cons_ne_nil b rest), ?_⟩
      simp only [names, isAbsolute, head?_cons, drop_one, tail_cons]
      split
      · exact hl
      · exact congrArg (a :: ·) hl

theorem names_join_parent (cwd : Path) (h : p.names ≠ []) :
    ∃ name, p.names = p.parent.names ++ [name] ∧
      (cwd.join p).names = (cwd.join p.parent).names ++ [name] := by
  obtain ⟨ha, name, hn⟩ := names_parent h
  refine ⟨name, hn, ?_⟩
  rw [names_join, names_join, ha, hn]
  split
  · rfl
  · rw [append_assoc]

end Path

namespace Folder

variable {f g : Folder} {p x : Path} {bytes content : Bytes}

/-- What is found behind what stands at a place, if that is a directory. -/
def Entry.within : Entry → Entry → Entry
  | .directory, e => e
  | .file _, _ => .blocked
  | e, _ => e

theorem follow_cons (f : Folder) (done : List String) (name : String) (names : List String) :
    f.follow ⟨Path.slash :: done.reverse⟩ (name :: names) = (f.entryAt ⟨Path.slash :: done.reverse⟩).within
      (f.follow ⟨Path.slash :: (Path.next done name).reverse⟩ names) := by
  rw [follow, Path.mk_next]
  cases f.entryAt ⟨Path.slash :: done.reverse⟩ <;> rfl

/-- The last name of a path leads on if the path up to it leads to a directory. -/
theorem follow_concat (f : Folder) (done names : List String) (name : String) :
    f.follow ⟨Path.slash :: done.reverse⟩ (names ++ [name]) =
      (f.follow ⟨Path.slash :: done.reverse⟩ names).within
        (f.entryAt ⟨Path.slash :: Path.collapse done (names ++ [name])⟩) := by
  induction names generalizing done with
  | nil => rw [nil_append, follow_cons, Path.collapse_cons]; rfl
  | cons a names ih =>
    rw [cons_append, follow_cons, follow_cons, ih, Path.collapse_cons]
    cases f.entryAt ⟨Path.slash :: done.reverse⟩ <;> rfl

theorem hasDirectory_iff : f.hasDirectory p ↔ p.parts = [Path.slash] ∨
    (∃ d ∈ f.cwd :: f.made, p.parts <+: d.parts) ∨ ∃ q ∈ f.files.keys, p.parts <+: q.parts ∧ p ≠ q := by
  simp only [hasDirectory, Table.keys, Bool.or_eq_true, beq_iff_eq, List.any_eq_true, isPrefixOf_iff_prefix,
    Bool.and_eq_true, bne_iff_ne, List.mem_map, exists_exists_and_eq_and, or_assoc]

/-- The folders have the same files and directories. -/
structure SameTree (f g : Folder) : Prop where
  keys : g.files.keys = f.files.keys
  made : g.made = f.made
  cwd : g.cwd = f.cwd

/-- What two folders have at the place `x`: files, or the same. -/
inductive Alike (f g : Folder) (x : Path) : Entry → Entry → Prop where
  | file {a b : Bytes} (ha : f.files.get? x = some a) (hb : g.files.get? x = some b) :
      Alike f g x (.file a) (.file b)
  | other {e : Entry} (he : ∀ a, e ≠ .file a) : Alike f g x e e

namespace SameTree

theorem refl (f : Folder) : SameTree f f :=
  ⟨rfl, rfl, rfl⟩

theorem trans {k : Folder} (h : SameTree f g) (h' : SameTree g k) : SameTree f k :=
  ⟨h'.keys.trans h.keys, h'.made.trans h.made, h'.cwd.trans h.cwd⟩

theorem entryAt (h : SameTree f g) (x : Path) : Alike f g x (f.entryAt x) (g.entryAt x) := by
  have hd : g.hasDirectory x = f.hasDirectory x := by
    rw [Bool.eq_iff_iff, hasDirectory_iff, hasDirectory_iff, h.keys, h.made, h.cwd]
  unfold Folder.entryAt
  by_cases hx : x ∈ f.files.keys
  · obtain ⟨a, ha⟩ := exists_get?_of_mem hx
    obtain ⟨b, hb⟩ := exists_get?_of_mem (h.keys ▸ hx)
    rw [ha, hb]
    exact .file ha hb
  · rw [get?_eq_none_of_not_mem hx, get?_eq_none_of_not_mem (h.keys ▸ hx), hd]
    refine .other fun a => ?_
    dsimp only
    split <;> simp

theorem follow (h : SameTree f g) (done names : List String) :
    Alike f g ⟨Path.slash :: Path.collapse done names⟩ (f.follow ⟨Path.slash :: done.reverse⟩ names)
      (g.follow ⟨Path.slash :: done.reverse⟩ names) := by
  induction names generalizing done with
  | nil => exact h.entryAt _
  | cons name names ih =>
    have hh := h.entryAt ⟨Path.slash :: done.reverse⟩
    rw [follow_cons, follow_cons, Path.collapse_cons]
    generalize f.entryAt ⟨Path.slash :: done.reverse⟩ = e at hh
    generalize g.entryAt ⟨Path.slash :: done.reverse⟩ = e' at hh
    cases hh with
    | file ha hb => exact .other (by simp [Entry.within])
    | other he =>
      cases e with
      | file a => exact absurd rfl (he a)
      | directory => exact ih _
      | _ => exact .other (by simp [Entry.within])

theorem entry (h : SameTree f g) (p : Path) : Alike f g (p.resolve f.cwd) (f.entry p) (g.entry p) := by
  rw [Folder.entry, Folder.entry, h.cwd]
  exact h.follow [] _

theorem «exists» (h : SameTree f g) (p : Path) : g.exists p = f.exists p := by
  have hen := h.entry p
  unfold Folder.exists
  generalize f.entry p = e at hen
  generalize g.entry p = e' at hen
  cases hen with
  | file => rfl
  | other => rfl

/-- A path can be read in both folders or is refused by both for the same reason. -/
theorem read (h : SameTree f g) (p : Path) : (∃ a b, f.read p = .ok a ∧ g.read p = .ok b ∧
      f.files.get? (p.resolve f.cwd) = some a ∧ g.files.get? (p.resolve f.cwd) = some b) ∨
    ∃ e, f.read p = .error e ∧ g.read p = .error e := by
  have hen := h.entry p
  unfold Folder.read
  generalize f.entry p = e at hen
  generalize g.entry p = e' at hen
  cases hen with
  | file ha hb => exact .inl ⟨_, _, rfl, rfl, ha, hb⟩
  | other he =>
    cases e with
    | file a => exact absurd rfl (he a)
    | directory => exact .inr ⟨_, rfl, rfl⟩
    | missing => exact .inr ⟨_, rfl, rfl⟩
    | blocked => exact .inr ⟨_, rfl, rfl⟩

theorem read_congr (h : SameTree f g)
    (hget : g.files.get? (p.resolve f.cwd) = f.files.get? (p.resolve f.cwd)) : g.read p = f.read p := by
  rcases h.read p with ⟨a, b, ha, hb, hfa, hgb⟩ | ⟨e, ha, hb⟩
  · cases hgb.symm.trans (hget.trans hfa)
    rw [ha, hb]
  · rw [ha, hb]

end SameTree

theorem get?_of_read (h : f.read p = .ok bytes) : f.files.get? (p.resolve f.cwd) = some bytes := by
  rcases (SameTree.refl f).read p with ⟨a, b, ha, -, hget, -⟩ | ⟨e, he, -⟩
  · cases ha.symm.trans h
    exact hget
  · cases he.symm.trans h

theorem entry_of_read (h : f.read p = .ok bytes) : f.entry p = .file bytes := by
  unfold read at h
  split at h
  · next hen =>
      cases h
      exact hen
  all_goals cases h

/-- A path leads to its own place if the path above it leads to a directory. -/
theorem entry_eq_within (f : Folder) (hn : p.names ≠ []) :
    f.entry p = (f.entry p.parent).within (f.entryAt (p.resolve f.cwd)) := by
  obtain ⟨name, -, hj⟩ := Path.names_join_parent f.cwd hn
  rw [entry, entry, Path.resolve, hj]
  exact follow_concat f [] _ name

/-- A file that can be read can be written again, and nothing else changes. -/
theorem exists_write (h : f.read p = .ok bytes) (hn : p.names ≠ []) (new : Bytes) :
    ∃ g, f.write p new = .ok g ∧ f.SameTree g ∧ g.files.get? (p.resolve f.cwd) = some new ∧
      ∀ x, p.resolve f.cwd ≠ x → g.files.get? x = f.files.get? x := by
  have hen := entry_of_read h
  have hp : f.isDirectory p.parent := by
    rw [entry_eq_within f hn] at hen
    rw [isDirectory]
    cases hup : f.entry p.parent with
    | directory => rfl
    | _ => rw [hup] at hen; cases hen
  refine ⟨{ f with files := f.files.put (p.resolve f.cwd) new }, ?_,
    ⟨keys_put (get?_of_read h) new, rfl, rfl⟩, ?_, fun x hx => ?_⟩
  · rw [write, hen, hp]
    rfl
  · rw [get?_put, if_pos rfl]
  · rw [get?_put, if_neg hx]

/-! ## What is left where it was -/

/-- Directories stay directories, and files outside `X` keep their bytes. -/
structure KeepsBut (X : Path → Prop) (f g : Folder) : Prop where
  cwd : g.cwd = f.cwd
  directory : ∀ x, f.entryAt x = .directory → g.entryAt x = .directory
  file : ∀ x a, ¬ X x → f.entryAt x = .file a → g.entryAt x = .file a

namespace KeepsBut

variable {X : Path → Prop}

theorem refl (X : Path → Prop) (f : Folder) : KeepsBut X f f :=
  ⟨rfl, fun _ h => h, fun _ _ _ h => h⟩

theorem trans {k : Folder} (h : KeepsBut X f g) (h' : KeepsBut X g k) : KeepsBut X f k :=
  ⟨h'.cwd.trans h.cwd, fun x hx => h'.directory x (h.directory x hx),
    fun x a hX hx => h'.file x a hX (h.file x a hX hx)⟩

/-- A path that leads somewhere leads to the same place. -/
theorem follow (h : KeepsBut X f g) (done names : List String)
    (hm : f.follow ⟨Path.slash :: done.reverse⟩ names ≠ .missing)
    (hb : f.follow ⟨Path.slash :: done.reverse⟩ names ≠ .blocked) :
    f.follow ⟨Path.slash :: done.reverse⟩ names = f.entryAt ⟨Path.slash :: Path.collapse done names⟩ ∧
      g.follow ⟨Path.slash :: done.reverse⟩ names = g.entryAt ⟨Path.slash :: Path.collapse done names⟩ := by
  induction names generalizing done with
  | nil => exact ⟨rfl, rfl⟩
  | cons name names ih =>
    rw [follow_cons] at hm hb
    rw [follow_cons, follow_cons, Path.collapse_cons]
    cases hh : f.entryAt ⟨Path.slash :: done.reverse⟩ with
    | directory =>
      rw [hh] at hm hb
      rw [h.directory _ hh]
      exact ih _ hm hb
    | _ => simp [hh, Entry.within] at hm hb

theorem entry (h : KeepsBut X f g) (hm : f.entry p ≠ .missing) (hb : f.entry p ≠ .blocked) :
    f.entry p = f.entryAt (p.resolve f.cwd) ∧ g.entry p = g.entryAt (p.resolve f.cwd) := by
  rw [Folder.entry, Folder.entry, h.cwd]
  exact h.follow [] _ hm hb

theorem entry_directory (h : KeepsBut X f g) (hp : f.entry p = .directory) : g.entry p = .directory := by
  obtain ⟨hf, hg⟩ := h.entry (p := p) (by simp [hp]) (by simp [hp])
  rw [hg, h.directory _ (hf.symm.trans hp)]

theorem read_of_get? {new : Bytes} (h : KeepsBut X f g) (hr : f.read p = .ok bytes)
    (hget : g.files.get? (p.resolve f.cwd) = some new) : g.read p = .ok new := by
  have hen := entry_of_read hr
  obtain ⟨-, hg⟩ := h.entry (p := p) (by simp [hen]) (by simp [hen])
  rw [Folder.read, hg, entryAt, hget]

theorem read (h : KeepsBut X f g) (hr : f.read p = .ok bytes) (hX : ¬ X (p.resolve f.cwd)) :
    g.read p = .ok bytes := by
  have hen := entry_of_read hr
  obtain ⟨hf, hg⟩ := h.entry (p := p) (by simp [hen]) (by simp [hen])
  rw [Folder.read, hg, h.file _ _ hX (hf.symm.trans hen)]

end KeepsBut

/-- Files and directories are added, and files are put in place of others at `X`. -/
theorem keepsBut_of_get? {X : Path → Prop} (hcwd : g.cwd = f.cwd) (hm : f.made ⊆ g.made)
    (hk : f.files.keys ⊆ g.files.keys) (hget : ∀ x, ¬ X x → g.files.get? x = f.files.get? x)
    (hX : ∀ x, X x → f.entryAt x ≠ .directory) : KeepsBut X f g := by
  have hmo : ∀ x, f.hasDirectory x → g.hasDirectory x := by
    intro x hx
    rw [hasDirectory_iff] at hx ⊢
    rw [hcwd]
    have hc := cons_subset_cons f.cwd hm
    exact hx.imp_right (Or.imp (fun ⟨d, hd, h⟩ => ⟨d, hc hd, h⟩) fun ⟨q, hq, h⟩ => ⟨q, hk hq, h⟩)
  refine ⟨hcwd, fun x hx => ?_, fun x a hnot hx => ?_⟩
  · have hnot : ¬ X x := fun h => hX x h hx
    unfold entryAt at hx ⊢
    rw [hget x hnot]
    cases hf : f.files.get? x with
    | some a => simp [hf] at hx
    | none =>
      have hx : f.hasDirectory x := by simpa [hf] using hx
      simp [hmo x hx]
  · unfold entryAt at hx ⊢
    rw [hget x hnot]
    cases hf : f.files.get? x with
    | some b => simpa [hf] using hx
    | none =>
      simp only [hf] at hx
      split at hx <;> cases hx

theorem entryAt_of_write (h : f.write p content = .ok g) :
    g = { f with files := f.files.put (p.resolve f.cwd) content } ∧ p.names ≠ [] ∧
      f.entry p.parent = .directory ∧ f.entryAt (p.resolve f.cwd) ≠ .directory := by
  unfold write at h
  split at h
  · cases h
  · cases h
  · next hd _ =>
      split at h
      · next hp =>
          have hp : f.entry p.parent = .directory := by simpa [isDirectory] using hp
          have hn : p.names ≠ [] := fun hnil => hd (Path.parent_eq_self hnil ▸ hp)
          rw [entry_eq_within f hn, hp] at hd
          exact ⟨(Except.ok.inj h).symm, hn, hp, hd⟩
      · cases h

theorem subset_keys_put (t : Table Path Bytes) (x : Path) (content : Bytes) :
    t.keys ⊆ (t.put x content).keys := by
  intro q hq
  by_contra hnot
  obtain ⟨b, hb⟩ := exists_get?_of_mem hq
  have hn := get?_eq_none_of_not_mem hnot
  rw [get?_put, hb] at hn
  split at hn <;> cases hn

/-- Writing changes one file. -/
theorem keepsBut_write (h : f.write p content = .ok g) :
    KeepsBut (· = p.resolve f.cwd) f g ∧ g.read p = .ok content := by
  obtain ⟨hg, hn, hp, hpl⟩ := entryAt_of_write h
  have hget : ∀ x, g.files.get? x = if p.resolve f.cwd = x then some content else f.files.get? x := by
    intro x
    rw [hg]
    exact get?_put ..
  have hcwd : g.cwd = f.cwd := by rw [hg]
  have hk : KeepsBut (· = p.resolve f.cwd) f g := by
    refine keepsBut_of_get? hcwd ?_ ?_ (fun x hx => by rw [hget, if_neg (Ne.symm hx)]) fun x hx => hx ▸ hpl
    · rw [hg]
      exact Subset.refl _
    · rw [hg]
      exact subset_keys_put ..
  refine ⟨hk, ?_⟩
  rw [read, entry_eq_within g hn, hk.entry_directory hp, hcwd, entryAt, hget, if_pos rfl]
  rfl

theorem entryAt_of_follow {done names : List String}
    (h : f.follow ⟨Path.slash :: done.reverse⟩ names = .directory) :
    f.entryAt ⟨Path.slash :: done.reverse⟩ = .directory := by
  cases names with
  | nil => exact h
  | cons name names =>
    rw [follow_cons] at h
    cases hh : f.entryAt ⟨Path.slash :: done.reverse⟩ with
    | directory => rfl
    | _ => rw [hh] at h; cases h

/-- The next directory on the way is there, or it is made. -/
theorem makeBelow_cases {name : String} {done names : List String}
    (h : f.makeBelow ⟨Path.slash :: done.reverse⟩ (name :: names) = .ok g) :
    f.makeBelow ⟨Path.slash :: (Path.next done name).reverse⟩ names = .ok g ∨
      makeBelow { f with made := f.made ++ [⟨Path.slash :: (Path.next done name).reverse⟩] }
        ⟨Path.slash :: (Path.next done name).reverse⟩ names = .ok g := by
  rw [makeBelow, Path.mk_next] at h
  dsimp only at h
  split at h
  · exact .inl h
  · exact .inr h
  · cases h

theorem makeBelow_of_follow (done names : List String)
    (h : f.follow ⟨Path.slash :: done.reverse⟩ names = .directory) :
    f.makeBelow ⟨Path.slash :: done.reverse⟩ names = .ok f := by
  induction names generalizing done with
  | nil => rfl
  | cons name names ih =>
    have hh := entryAt_of_follow h
    rw [follow_cons, hh] at h
    rw [makeBelow, Path.mk_next, entryAt_of_follow h]
    exact ih _ h

/-- A directory that exists is not made again. -/
theorem make_of_directory (h : f.entry p = .directory) : f.make p = .ok f :=
  makeBelow_of_follow [] _ h

theorem keepsBut_makeBelow (done names : List String)
    (h : f.makeBelow ⟨Path.slash :: done.reverse⟩ names = .ok g) :
    KeepsBut (fun _ => False) f g ∧ g.files = f.files := by
  induction names generalizing f done with
  | nil =>
    cases h
    exact ⟨.refl _ _, rfl⟩
  | cons name names ih =>
    rcases makeBelow_cases h with h | h
    · exact ih _ h
    · obtain ⟨hk, hfi⟩ := ih _ h
      refine ⟨(keepsBut_of_get? ?_ ?_ ?_ ?_ ?_ : KeepsBut _ f _).trans hk, hfi⟩
      · rfl
      · exact subset_append_left ..
      · exact Subset.refl _
      · exact fun _ _ => rfl
      · exact fun _ hf => hf.elim

theorem keepsBut_make (h : f.make p = .ok g) : KeepsBut (fun _ => False) f g ∧ g.files = f.files :=
  keepsBut_makeBelow [] _ h

end Folder

end Excerpt
