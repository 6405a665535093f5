import Excerpt.Command.Render
import Excerpt.Proofs.Command.FindMarkers
import Excerpt.Proofs.Template.Still

/-!
# Templates rendered beside their documents

A document goes beside its template, under the template's name without the suffix `.j2`. Whatever the order of
the templates, every file stays as it was but the documents. A document is a template again in two cases:
a template that is named by the suffix alone is its own document, and a template whose name has the suffix
twice has another template as its document. Such a template is lost.
-/

namespace Excerpt

open List Template

namespace Path

variable {p q : Path}

/-- A path to something below a directory, as seen from there. -/
structure Below (p : Path) : Prop where
  nonempty : p.parts ≠ []
  no_dots : ".." ∉ p.parts
  no_slash : ∀ name ∈ p.parts, '/' ∉ name.toList

theorem relative_of_no_slash (h : ∀ name ∈ p.parts, '/' ∉ name.toList) : p.isAbsolute = false := by
  rw [isAbsolute, beq_eq_false_iff_ne]
  intro hh
  exact h slash (mem_of_head? hh) (by decide)

theorem Below.relative (h : Below p) : p.isAbsolute = false :=
  relative_of_no_slash h.no_slash

theorem collapse_append (done names more : List String) (h : ".." ∉ more) :
    collapse done (names ++ more) = collapse done names ++ more := by
  induction more using List.reverseRecOn with
  | nil => rw [append_nil, append_nil]
  | append_singleton more name ih =>
    rw [mem_append, not_or, mem_singleton] at h
    rw [← append_assoc, collapse_concat, ih h.1, next, if_neg (by simpa using Ne.symm h.2)]
    simp

theorem resolve_join (input cwd : Path) (hq : q.isAbsolute = false) (hd : ".." ∉ q.parts) :
    (input.join q).resolve cwd = ⟨(input.resolve cwd).parts ++ q.parts⟩ := by
  have hqn : q.names = q.parts := by rw [names, hq]; rfl
  have ha : (input.join q).isAbsolute = input.isAbsolute := by
    obtain ⟨parts⟩ := input
    rw [join, hq]
    cases parts with
    | nil => exact hq
    | cons a parts => rfl
  have hn : (cwd.join (input.join q)).names = (cwd.join input).names ++ q.parts := by
    rw [names_join, names_join, ha, names_join, hq, hqn]
    split <;> simp
  rw [resolve, hn, collapse_append _ _ _ hd]
  rfl

theorem Below.parts_eq (h : Below p) : p.parts = p.parts.dropLast ++ [p.name] := by
  have hn : p.names = p.parts := by rw [names, h.relative]; rfl
  rw [name, hn, getLastD_eq_getLast?, getLast?_eq_getLast_of_ne_nil h.nonempty]
  exact (dropLast_append_getLast h.nonempty).symm

end Path

namespace Shell

open Excerpt.Path

variable {t q : Path}

end Shell

namespace Folder

variable {f g : Folder} {p : Path}

theorem entryAt_above (done names : List String)
    (h : f.follow ⟨Path.slash :: done.reverse⟩ names = .directory)
    (hup : ∀ k, f.entryAt ⟨Path.slash :: (done.drop (k + 1)).reverse⟩ = .directory) (k : Nat) :
    f.entryAt ⟨Path.slash :: ((Path.collapse done names).reverse.drop k).reverse⟩ = .directory := by
  induction names generalizing done with
  | nil =>
    rw [Path.collapse, reverse_reverse]
    cases k with
    | zero => exact h
    | succ k => exact hup k
  | cons name names ih =>
    have hh := entryAt_of_follow h
    rw [follow_cons, hh] at h
    rw [Path.collapse_cons]
    refine ih _ h fun k => ?_
    rw [Path.next]
    split
    · rw [drop_drop]
      exact hup _
    · cases k with
      | zero => exact hh
      | succ k => exact hup k

/-- No file is written at a path that ends by going up. -/
theorem name_ne_of_write {content : Bytes} (h : f.write p content = .ok g) : p.name ≠ ".." := by
  intro hna
  obtain ⟨-, hn, hp, hpl⟩ := entryAt_of_write h
  obtain ⟨name, heq, hj⟩ := Path.names_join_parent f.cwd hn
  obtain rfl : name = ".." := by rw [← hna, Path.name, heq]; simp
  refine hpl ?_
  rw [Path.resolve, hj, Path.collapse_concat]
  have hr : f.entryAt ⟨Path.slash :: ([] : List String).reverse⟩ = .directory := entryAt_of_follow hp
  exact entryAt_above [] _ hp (fun k => by simpa using hr) 1

end Folder

namespace Shell

open Session (Work)

variable {f g : Folder} {t q input : Path} {s : Shell} {text : String} {α : Type} {content : Bytes}
  {written : List (Path × String)}

theorem documentOf_parts (ht : t.Below) : ∃ name : String, (documentOf t).parts = t.parts.dropLast ++ [name] ∧
      ∀ c ∈ name.toList, c ∈ t.name.toList := by
  unfold documentOf
  split
  · refine ⟨t.stem, rfl, fun c hc => ?_⟩
    rw [← t.stem_append_suffix]
    exact mem_append_left _ hc
  · exact ⟨t.name, ht.parts_eq, fun _ => id⟩

/-- The place where a document is written. -/
theorem resolve_document (ht : t.Below)
    (h : f.write (input.join (documentOf t)) content = .ok g) :
    (input.join (documentOf t)).resolve f.cwd = ⟨(input.resolve f.cwd).parts ++ (documentOf t).parts⟩ := by
  obtain ⟨name, hp, hch⟩ := documentOf_parts ht
  have hmem : t.name ∈ t.parts := by
    rw [ht.parts_eq]
    exact mem_append_right _ (mem_singleton_self _)
  have hr : (documentOf t).isAbsolute = false := by
    refine Path.relative_of_no_slash fun n hn => ?_
    rw [hp, mem_append, mem_singleton] at hn
    rcases hn with hn | rfl
    · exact ht.no_slash n (mem_of_mem_dropLast hn)
    · exact fun hc => ht.no_slash _ hmem (hch _ hc)
  refine Path.resolve_join input f.cwd hr fun hd => ?_
  rw [hp, mem_append, mem_singleton] at hd
  rcases hd with hd | rfl
  · exact ht.no_dots (mem_of_mem_dropLast hd)
  · refine Folder.name_ne_of_write h ?_
    rw [Path.name, Path.names_join, hr, Path.names, hr, hp]
    simp

/-- A document is written, and the other files stay as they are. -/
theorem read_of_save {a : Bytes} (ht : t.Below) (hq : q.Below)
    (h : f.save (input.join (documentOf t)) content = .ok g) (hr : f.read (input.join q) = .ok a) :
    g.read (input.join q) = .ok (if documentOf t = q then content else a) := by
  obtain ⟨made, hma, hw⟩ := Outcome.bind_eq_ok.1 h
  obtain ⟨hk, hnew⟩ := Folder.keepsBut_write hw
  have hp := resolve_document ht hw
  generalize documentOf t = d at hp hk hnew
  split
  · next heq =>
      subst heq
      exact hnew
  · next hne =>
      obtain ⟨hm, -⟩ := Folder.keepsBut_make hma
      refine hk.read (hm.read hr id) fun hs => hne ?_
      rw [hp, Path.resolve_join input _ hq.relative hq.no_dots] at hs
      obtain ⟨parts⟩ := d
      exact congrArg Path.mk (append_cancel_left (Path.mk.inj hs)).symm

/-- Templates are rendered one after the other, each with the files as they are then, and their texts go into
their documents. -/
inductive Rendered (input : Path) : Folder → List (Path × String) → Folder → Prop where
  | nil (f : Folder) : Rendered input f [] f
  | cons {f f' g : Folder} {t : Path} {text : String} {written : List (Path × String)} (session : Session)
      (hfolder : session.folder = f)
      (htext : ((renderNamed input t.toString []).run.run session).1 = .ok text)
      (hsave : f.save (input.join (documentOf t)) (Bytes.ofString text) = .ok f')
      (rest : Rendered input f' written g) : Rendered input f ((t, text) :: written) g

/-- What a file holds after texts went into the documents of templates. -/
def heldBy (q : Path) : List (Path × String) → Bytes → Bytes
  | [], content => content
  | (t, text) :: written, content => heldBy q written (if documentOf t = q then Bytes.ofString text else content)

theorem Rendered.read (h : Rendered input f written g)
    (hw : ∀ w ∈ written, w.1.Below) (hq : q.Below) (hr : f.read (input.join q) = .ok content) :
    g.read (input.join q) = .ok (heldBy q written content) := by
  induction h generalizing content with
  | nil f => exact hr
  | cons session hf hte hs rest ih =>
    obtain ⟨ht, hre⟩ := forall_mem_cons.1 hw
    rw [heldBy]
    exact ih hre (read_of_save ht hq hs hr)

end Shell

end Excerpt
