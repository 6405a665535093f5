import Excerpt.Table
import Mathlib.Data.List.Nodup
import Mathlib.Data.List.Perm.Basic
import Mathlib.Order.Basic

/-!
# Tables with distinct names

Entering and taking out keep the names of a table distinct. In such a table a
name has at most one entry, so looking up is membership, and two tables that
answer alike differ only in the order of their entries.
-/

namespace Excerpt

open List

namespace Table

variable {κ α : Type} [DecidableEq κ] {t u : Table κ α} {k : κ} {v : α}

theorem mem_put {e : κ × α} (h : e ∈ t.put k v) : e = (k, v) ∨ e ∈ t := by
  induction t with
  | nil => exact .inl (by simpa [put] using h)
  | cons a t ih =>
    unfold put at h
    split at h
    · rcases mem_cons.1 h with rfl | h
      · exact .inl rfl
      · exact .inr (mem_cons_of_mem _ h)
    · rcases mem_cons.1 h with rfl | h
      · exact .inr mem_cons_self
      · exact (ih h).imp_right (mem_cons_of_mem _)

theorem nodup_keys_put (h : t.keys.Nodup) (k : κ) (v : α) : (t.put k v).keys.Nodup := by
  induction t with
  | nil => simp [put, keys]
  | cons a t ih =>
    obtain ⟨ha, ht⟩ := nodup_cons.1 h
    unfold put
    split
    · next heq =>
      subst heq
      exact nodup_cons.2 ⟨ha, ht⟩
    · next hne =>
      refine nodup_cons.2 ⟨?_, ih ht⟩
      intro hmem
      obtain ⟨e, he, hea⟩ := List.mem_map.1 hmem
      rcases mem_put he with rfl | he
      · exact hne hea.symm
      · exact ha (List.mem_map.2 ⟨e, he, hea⟩)

theorem remove_sublist (t : Table κ α) (k : κ) : (t.remove k).Sublist t := by
  induction t with
  | nil => exact Sublist.refl _
  | cons a t ih =>
    unfold remove
    split
    · exact sublist_cons_self a t
    · exact ih.cons_cons a

theorem nodup_keys_remove (h : t.keys.Nodup) (k : κ) : (t.remove k).keys.Nodup :=
  h.sublist ((remove_sublist t k).map _)

theorem get?_eq_none_of_not_mem (h : k ∉ t.keys) : t.get? k = none := by
  induction t with
  | nil => rfl
  | cons a t ih =>
    have hc : k ≠ a.1 ∧ k ∉ keys t := by simpa [keys] using h
    unfold get?
    rw [if_neg (fun heq => hc.1 heq.symm), ih hc.2]

theorem exists_get?_of_mem (h : k ∈ t.keys) : ∃ v, t.get? k = some v := by
  induction t with
  | nil => cases h
  | cons a t ih =>
    unfold get?
    split
    · exact ⟨a.2, rfl⟩
    · next hne => exact ih ((mem_cons.1 h).resolve_left fun heq => hne heq.symm)

theorem get?_remove (h : t.keys.Nodup) (k k' : κ) :
    (t.remove k).get? k' = if k = k' then none else t.get? k' := by
  induction t with
  | nil => simp [remove]
  | cons a t ih =>
    obtain ⟨ha, ht⟩ := nodup_cons.1 h
    unfold remove
    by_cases hak : a.1 = k
    · rw [if_pos hak]
      by_cases hk : k = k'
      · rw [if_pos hk]
        exact get?_eq_none_of_not_mem (by rwa [← hk, ← hak])
      · rw [if_neg hk, get?, if_neg (fun heq => hk (hak.symm.trans heq))]
    · rw [if_neg hak, get?, ih ht]
      by_cases hk : k = k'
      · rw [if_pos hk, if_pos hk, if_neg (fun heq => hak (heq.trans hk.symm))]
      · rw [if_neg hk, if_neg hk, get?]

theorem mem_of_get?_eq_some (h : t.get? k = some v) : (k, v) ∈ t := by
  induction t with
  | nil => cases h
  | cons a t ih =>
    unfold get? at h
    split at h
    · next hk =>
      cases h
      rw [← hk]
      exact mem_cons_self
    · exact mem_cons_of_mem a (ih h)

/-- A value under a new name is entered behind the others. -/
theorem put_of_not_mem (h : k ∉ t.keys) (v : α) : t.put k v = t ++ [(k, v)] := by
  induction t with
  | nil => rfl
  | cons a t ih =>
    have hc : k ≠ a.1 ∧ k ∉ keys t := by simpa [keys] using h
    unfold put
    rw [if_neg (fun heq => hc.1 heq.symm), ih hc.2, cons_append]

/-- Entering the value that a name has already changes nothing. -/
theorem remove_put_of_not_mem (h : k ∉ t.keys) (v : α) :
    (t.put k v).remove k = t := by
  rw [put_of_not_mem h]
  induction t with
  | nil => simp [remove]
  | cons a t ih =>
    rw [keys, map_cons, mem_cons, not_or] at h
    rw [cons_append, remove, if_neg (Ne.symm h.1), ih h.2]

theorem put_eq_self (h : t.get? k = some v) : t.put k v = t := by
  induction t with
  | nil => cases h
  | cons a t ih =>
    unfold get? at h
    unfold put
    split at h
    · next hk =>
      cases h
      rw [if_pos hk, ← hk]
    · next hk => rw [if_neg hk, ih h]

/-- Where names are distinct, looking up is membership. -/
theorem get?_eq_some_iff (h : t.keys.Nodup) :
    t.get? k = some v ↔ (k, v) ∈ t := by
  induction t with
  | nil => simp
  | cons a t ih =>
    obtain ⟨ha, ht⟩ := nodup_cons.1 h
    unfold get?
    by_cases hak : a.1 = k
    · subst hak
      have hout : (a.1, v) ∉ t := fun hmem => ha (List.mem_map.2 ⟨_, hmem, rfl⟩)
      simp [Prod.ext_iff, hout, eq_comm]
    · have hne : (k, v) ≠ a := fun heq => hak (by rw [← heq])
      simp [hak, ih ht, hne]

/-- Tables with distinct names that answer alike hold the same entries. -/
theorem perm_of_get?_eq (ht : t.keys.Nodup) (hu : u.keys.Nodup)
    (h : ∀ k, t.get? k = u.get? k) : t.Perm u := by
  refine (perm_ext_iff_of_nodup ht.of_map hu.of_map).2 ?_
  rintro ⟨k, v⟩
  rw [← get?_eq_some_iff ht, ← get?_eq_some_iff hu, h]

/-- Tables with increasing names that answer alike are the same. -/
theorem eq_of_get?_eq [Preorder κ] (ht : t.Pairwise (·.1 < ·.1))
    (hu : u.Pairwise (·.1 < ·.1)) (h : ∀ k, t.get? k = u.get? k) : t = u := by
  have hn : ∀ {v : Table κ α}, v.Pairwise (·.1 < ·.1) → v.keys.Nodup := fun hv =>
    pairwise_map.2 (hv.imp fun hlt => ne_of_lt hlt)
  refine (perm_of_get?_eq (hn ht) (hn hu) h).eq_of_pairwise ?_ ht hu
  intro a b _ _ hab hba
  exact absurd hab (lt_asymm hba)

/-! ## Tables with changed values -/

section Map

variable {β : Type}

def mapValues (f : α → β) (t : Table κ α) : Table κ β :=
  t.map (Prod.map id f)

theorem get?_mapValues (f : α → β) (t : Table κ α) (k : κ) : (t.mapValues f).get? k = (t.get? k).map f := by
  induction t with
  | nil => rfl
  | cons e t ih =>
    change get? ((e.1, f e.2) :: mapValues f t) k = (get? (e :: t) k).map f
    rw [get?, get?, ih]
    split
    · rfl
    · rfl

theorem put_mapValues (f : α → β) (t : Table κ α) (k : κ) (v : α) :
    (t.mapValues f).put k (f v) = (t.put k v).mapValues f := by
  induction t with
  | nil => rfl
  | cons e t ih =>
    change put ((e.1, f e.2) :: mapValues f t) k (f v) = mapValues f (put (e :: t) k v)
    rw [put, put, ih]
    split
    · rfl
    · rfl

theorem remove_mapValues (f : α → β) (t : Table κ α) (k : κ) :
    (t.mapValues f).remove k = (t.remove k).mapValues f := by
  induction t with
  | nil => rfl
  | cons e t ih =>
    change remove ((e.1, f e.2) :: mapValues f t) k = mapValues f (remove (e :: t) k)
    rw [remove, remove, ih]
    split
    · rfl
    · rfl

end Map

end Table

end Excerpt
