import Excerpt.Failure

/-!
# Reports

A report is the outcome of a request together with the notes made on the way to it. Notes made before a
failure are kept.
-/

namespace Excerpt

/-- How serious a note is. -/
inductive Level where
  | warning
  | error
deriving Repr, DecidableEq

/-- A remark for the reader of a log. -/
structure Note where
  level : Level
  text : String
deriving Repr, DecidableEq

/-- An outcome with the notes that were made. -/
structure Report (α : Type) where
  notes : List Note
  outcome : Except Failure α

namespace Report

/-- A value without notes. -/
def ofValue {α : Type} (a : α) : Report α :=
  ⟨[], .ok a⟩

/-- An outcome without notes. -/
def ofOutcome {α : Type} (r : Except Failure α) : Report α :=
  ⟨[], r⟩

/-- A failure without notes. -/
def fail {α : Type} (f : Failure) : Report α :=
  ⟨[], .error f⟩

def note (level : Level) (text : String) : Report Unit :=
  ⟨[⟨level, text⟩], .ok ()⟩

/-- Goes on with the value of a report; notes add up, and a failure ends the work. -/
def andThen {α β : Type} (r : Report α) (f : α → Report β) : Report β :=
  match r.outcome with
  | .error e => ⟨r.notes, .error e⟩
  | .ok a => ⟨r.notes ++ (f a).notes, (f a).outcome⟩

instance : Monad Report where
  pure := ofValue
  bind := andThen

instance : MonadLift (Except Failure) Report where
  monadLift := ofOutcome

end Report

end Excerpt
