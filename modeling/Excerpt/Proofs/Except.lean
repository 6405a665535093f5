import Excerpt.Report
import Mathlib.Data.List.Forall2

/-!
# Computations that may fail

A chain of steps succeeds exactly if each of its steps does, and a list is
mapped by a step that may fail exactly if each of its entries is. A run with
a state goes on from the state that the step before it left.
-/

namespace Excerpt

open List

variable {α β : Type}

theorem exists_of_forall₂_append {R : α → β → Prop} {xs xs' : List α} {ys : List β}
    (h : List.Forall₂ R (xs ++ xs') ys) :
    ∃ us vs, ys = us ++ vs ∧ List.Forall₂ R xs us ∧ List.Forall₂ R xs' vs :=
  ⟨ys.take xs.length, ys.drop xs.length, (take_append_drop _ _).symm,
    (forall₂_take_append _ _ _ h.flip).flip, (forall₂_drop_append _ _ _ h.flip).flip⟩

namespace Outcome

variable {ε α β ε' : Type} {x : Except ε α} {f : α → Except ε β} {a : α} {b : β} {xs : List α}

theorem ok_bind (a : α) (f : α → Except ε β) : ((.ok a : Except ε α) >>= f) = f a := rfl

theorem toOption_eq_some : x.toOption = some a ↔ x = .ok a := by
  cases x with
  | error e => exact ⟨nofun, nofun⟩
  | ok b => exact ⟨fun h => congrArg Except.ok (Option.some.inj h), fun h => by cases h; rfl⟩

theorem mapError_eq_ok {f : ε → ε'} :
    x.mapError f = .ok a ↔ x = .ok a := by
  cases x with
  | error e =>
    constructor
    · intro h
      cases h
    · intro h
      cases h
  | ok b =>
    constructor
    · intro h
      cases h
      rfl
    · intro h
      cases h
      rfl

theorem bind_eq_ok :
    (x >>= f) = .ok b ↔ ∃ a, x = .ok a ∧ f a = .ok b := by
  cases x with
  | error e =>
    constructor
    · intro h
      cases h
    · rintro ⟨a, ha, -⟩
      cases ha
  | ok a =>
    constructor
    · intro h
      exact ⟨a, rfl, h⟩
    · rintro ⟨a', ha, h⟩
      cases ha
      exact h

theorem map_eq_ok {f : α → β} : x.map f = .ok b ↔ ∃ a, x = .ok a ∧ f a = b := by
  have hx : x.map f = (x >>= fun a => .ok (f a)) := by
    cases x with
    | error e => rfl
    | ok a => rfl
  simp only [hx, bind_eq_ok, Except.ok.injEq]

theorem mapM_eq_ok {ys : List β} :
    xs.mapM f = .ok ys ↔ List.Forall₂ (fun x y => f x = .ok y) xs ys := by
  induction xs generalizing ys with
  | nil =>
    rw [mapM_nil, forall₂_nil_left_iff]
    constructor
    · intro h
      cases h
      rfl
    · rintro rfl
      rfl
  | cons x xs ih =>
    rw [mapM_cons, bind_eq_ok, forall₂_cons_left_iff]
    constructor
    · rintro ⟨y, hy, h⟩
      obtain ⟨zs, hzs, h⟩ := bind_eq_ok.1 h
      cases h
      exact ⟨y, zs, hy, ih.1 hzs, rfl⟩
    · rintro ⟨y, zs, hy, hzs, rfl⟩
      exact ⟨y, hy, bind_eq_ok.2 ⟨zs, ih.2 hzs, rfl⟩⟩

/-- A list is gone through if and only if each of its members is. -/
theorem exists_mapM_iff :
    (∃ ys, xs.mapM f = .ok ys) ↔ ∀ x ∈ xs, ∃ y, f x = .ok y := by
  simp only [mapM_eq_ok]
  induction xs with
  | nil => simp
  | cons x xs ih =>
    rw [forall_mem_cons, ← ih]
    simp only [forall₂_cons_left_iff]
    constructor
    · rintro ⟨_, y, ys, hy, hys, rfl⟩
      exact ⟨⟨y, hy⟩, ys, hys⟩
    · rintro ⟨⟨y, hy⟩, ys, hys⟩
      exact ⟨y :: ys, y, ys, hy, hys, rfl⟩

end Outcome

section Runs

variable {ε σ α β : Type} {m : ExceptT ε (StateM σ) α} {f : α → ExceptT ε (StateM σ) β} {s t s' : σ}

theorem run_bind_of_ok {a : α} (h : m.run.run s = (.ok a, t)) : (m >>= f).run.run s = (f a).run.run t := by
  rw [ExceptT.run_bind, StateT.run_bind, h]
  rfl

theorem run_bind_of_error {e : ε} (h : m.run.run s = (.error e, t)) :
    (m >>= f).run.run s = (.error e, t) := by
  rw [ExceptT.run_bind, StateT.run_bind, h]
  rfl

theorem run_eq_of_fst {r : Except ε α} (h : (m.run.run s).1 = r) : m.run.run s = (r, (m.run.run s).2) :=
  Prod.ext h rfl

theorem run_get : (get : ExceptT ε (StateM σ) σ).run.run s = (.ok s, s) := rfl

end Runs

theorem Report.outcome_bind (r : Report α) (f : α → Report β) :
    (r >>= f).outcome = r.outcome >>= fun a => (f a).outcome := by
  obtain ⟨notes, outcome⟩ := r
  cases outcome with
  | error e => rfl
  | ok a => rfl

theorem Report.bind_eq_ok {r : Report α} {f : α → Report β} {b : β} :
    (r >>= f).outcome = .ok b ↔ ∃ a, r.outcome = .ok a ∧ (f a).outcome = .ok b := by
  rw [outcome_bind, Outcome.bind_eq_ok]

theorem Report.mapM_eq_ok {f : α → Report β} {xs : List α} {ys : List β}
    (h : Forall₂ (fun x y => (f x).outcome = .ok y) xs ys) : (xs.mapM f).outcome = .ok ys := by
  have hl : ∀ acc, (List.mapM.loop f xs acc).outcome = .ok (acc.reverse ++ ys) := by
    induction h with
    | nil =>
      intro acc
      rw [append_nil]
      rfl
    | @cons x y xs ys hx _ ih =>
      intro acc
      rw [List.mapM.loop, outcome_bind, hx, Outcome.ok_bind, ih, reverse_cons, append_assoc, singleton_append]
  exact hl []

theorem Report.exists_mapM {f : α → Report β} {xs : List α}
    (h : ∀ x ∈ xs, ∃ y, (f x).outcome = .ok y) : ∃ ys, (xs.mapM f).outcome = .ok ys := by
  obtain ⟨ys, hys⟩ := Outcome.exists_mapM_iff.2 h
  exact ⟨ys, mapM_eq_ok (Outcome.mapM_eq_ok.1 hys)⟩

end Excerpt
