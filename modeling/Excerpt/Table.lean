/-!
# Tables in order of entry

A table maps names to values and remembers the order in which names were entered. Entering a name again
changes its value and keeps its place.
-/

namespace Excerpt

/-- Entries of names and values, earliest name first. -/
abbrev Table (κ α : Type) := List (κ × α)

namespace Table

variable {κ α : Type} [DecidableEq κ]

/-- The value of a name. -/
def get? (t : Table κ α) (k : κ) : Option α :=
  match t with
  | [] => none
  | (k', v) :: t => if k' = k then some v else get? t k

/-- Enters a value under a name. -/
def put (t : Table κ α) (k : κ) (v : α) : Table κ α :=
  match t with
  | [] => [(k, v)]
  | (k', v') :: t => if k' = k then (k, v) :: t else (k', v') :: put t k v

/-- Takes a name out. -/
def remove (t : Table κ α) (k : κ) : Table κ α :=
  match t with
  | [] => []
  | (k', v') :: t => if k' = k then t else (k', v') :: remove t k

/-- The names in order of entry. -/
def keys (t : Table κ α) : List κ :=
  t.map (·.1)

@[simp] theorem get?_nil (k : κ) : get? ([] : Table κ α) k = none := rfl

theorem get?_put (t : Table κ α) (k : κ) (v : α) (k' : κ) :
    (put t k v).get? k' = if k = k' then some v else t.get? k' := by
  induction t with
  | nil => simp [put, get?]
  | cons e t ih =>
    by_cases he : e.1 = k
    · subst he
      simp only [put, get?, if_true]
      split <;> rfl
    · simp only [put, get?, he, if_false, ih]
      by_cases hk : e.1 = k'
      · have : k ≠ k' := fun h => he (hk.trans h.symm)
        simp [hk, this]
      · simp [hk]

end Table

end Excerpt
