import Excerpt.Proofs.Session.Complaint

/-!
# Files while a template is rendered

The text of a template is made without a change to any file, as long as no files are collected.
-/

namespace Excerpt.Template

open Session (Work)

variable {ε α β : Type}

/-- The work changes no file, if no files are collected. -/
def Still (w : Work ε α) : Prop :=
  ∀ s : Session, s.collector = none →
    (w.run.run s).2.folder = s.folder ∧ (w.run.run s).2.collector = none

namespace Still

theorem pure (a : α) : Still (Pure.pure a : Work ε α) :=
  fun _ h => ⟨rfl, h⟩

theorem throw (e : ε) : Still (MonadExcept.throw e : Work ε α) :=
  fun _ h => ⟨rfl, h⟩

theorem lift (x : Except ε α) : Still (liftM x : Work ε α) :=
  fun _ h => ⟨rfl, h⟩

theorem get : Still (MonadState.get : Work ε Session) :=
  fun _ h => ⟨rfl, h⟩

theorem note (level : Level) (text : String) : Still (Session.note level text : Work ε Unit) :=
  fun _ h => ⟨rfl, h⟩

theorem bind {w : Work ε α} {k : α → Work ε β} (hw : Still w) (hk : ∀ a, Still (k a)) : Still (w >>= k) := by
  intro s hs
  obtain ⟨hf, hn⟩ := hw s hs
  rcases hrun : w.run.run s with ⟨a | e, t⟩
  · rw [run_bind_of_error hrun]
    rw [hrun] at hf hn
    exact ⟨hf, hn⟩
  · rw [run_bind_of_ok hrun]
    rw [hrun] at hf hn
    exact ⟨(hk _ t hn).1.trans hf, (hk _ t hn).2⟩

theorem tryCatch {w : Work ε α} {k : ε → Work ε α} (hw : Still w) (hk : ∀ e, Still (k e)) :
    Still (MonadExcept.tryCatch w k) := by
  intro s hs
  obtain ⟨hf, hn⟩ := hw s hs
  rcases hrun : w.run.run s with ⟨e | a, t⟩
  · have hc : (MonadExcept.tryCatch w k).run.run s = (k e).run.run t := by
      rw [ExceptT.run_tryCatch, StateT.run_bind, hrun]
      rfl
    rw [hrun] at hf hn
    rw [hc]
    exact ⟨(hk e t hn).1.trans hf, (hk e t hn).2⟩
  · have hc : (MonadExcept.tryCatch w k).run.run s = (.ok a, t) := by
      rw [ExceptT.run_tryCatch, StateT.run_bind, hrun]
      rfl
    rw [hrun] at hf hn
    rw [hc]
    exact ⟨hf, hn⟩

theorem citing {w : Work Failure α} (h : Still w) : Still (Template.citing w) := by
  intro s hs
  obtain ⟨hf, hn⟩ := h s hs
  rcases hrun : w.run.run s with ⟨r, t⟩
  rw [run_citing hrun]
  rw [hrun] at hf hn
  exact ⟨hf, hn⟩

end Still

end Excerpt.Template
