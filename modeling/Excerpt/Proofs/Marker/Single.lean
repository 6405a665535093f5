import Excerpt.Macro.Section
import Excerpt.Proofs.Marker.Name

/-!
# One open section at a time

A pass that remembers one open section forgets the section of a name as soon as
another one opens. With this as one more role of comments, the section found for a
name is again the one of the last pair (`get?_singleSections`), from the line of the
comment that opens it to the line of the comment that closes it.
-/

namespace Excerpt

open Directive Text Node

/-- What a comment does to the section of a name while one section is open at a time. A section without a
name cannot be closed. -/
def Node.singleRole (src : Bytes) (marker : String) (c : Node) : Marker.Role :=
  (c.text? src).toOption.elim .passes fun text =>
    if contains text opening then
      if Marker.after opening text = marker then .opens else .breaks
    else if contains text closing ∧ marker ≠ "" ∧
        Marker.after closing text = marker then .closes
    else .passes

namespace Marker

variable {src : Bytes} {marker text : String} {c : Node} {cs : List Node} {s s' : Single} {k : Known Node}

theorem singleRole_eq (ht : c.text? src = .ok text) : c.singleRole src marker =
      if contains text opening then
        if after opening text = marker then .opens else .breaks
      else if contains text closing ∧ marker ≠ "" ∧
          after closing text = marker then .closes else .passes := by
  rw [singleRole, ht]
  rfl

/-- A comment that opens the section mentions the opening word. -/
theorem contains_of_singleRole_opens (h : c.singleRole src marker = .opens) :
    ∃ text, c.text? src = .ok text ∧ contains text opening := by
  cases ht : c.text? src with
  | error e =>
    rw [singleRole, ht] at h
    cases h
  | ok text =>
    rw [singleRole_eq ht] at h
    split at h
    · next ho => exact ⟨text, rfl, ho⟩
    · split at h
      · cases h
      · cases h

/-- A comment that closes the section mentions the closing word and not the opening one. -/
theorem contains_of_singleRole_closes (h : c.singleRole src marker = .closes) :
    ∃ text, c.text? src = .ok text ∧ contains text opening = false ∧
      contains text closing := by
  cases ht : c.text? src with
  | error e =>
    rw [singleRole, ht] at h
    cases h
  | ok text =>
    rw [singleRole_eq ht] at h
    split at h
    · split at h
      · cases h
      · cases h
    · next ho =>
        split at h
        · next hc => exact ⟨text, rfl, Bool.eq_false_of_not_eq_true ho, hc.1⟩
        · cases h

/-- What one comment can do: it opens a section, it closes the section that is open, or nothing changes. -/
inductive Single.Goes (line : Int) (text : String) : Single → Single → Prop where
  | opens {s : Single} (hopening : contains text opening) :
      Goes line text s ⟨s.closed, some (after opening text, line)⟩
  | closes {closed : Sections} {first : Int} (hopening : contains text opening = false)
      (hclosing : contains text closing)
      (hne : after closing text ≠ "") :
      Goes line text ⟨closed, some (after closing text, first)⟩
        ⟨closed.put (after closing text) (first, line), none⟩
  | stays {s : Single} (hopening : contains text opening = false)
      (hnot : contains text closing → ∀ first,
        s.current = some (after closing text, first) → after closing text = "") :
      Goes line text s s

theorem Single.goes_step (s : Single) (line : Int) (text : String) : Goes line text s (s.step line text) := by
  unfold Single.step
  split
  · next ho => exact .opens ho
  · next ho =>
      have ho := Bool.eq_false_of_not_eq_true ho
      split
      · next hc =>
          split
          · next name first hcu =>
              obtain ⟨closed, current⟩ := s
              cases hcu
              split
              · next hn =>
                  simp only [Bool.and_eq_true, Bool.not_eq_true', beq_iff_eq] at hn
                  obtain ⟨hne, rfl⟩ := hn
                  exact .closes ho hc (by simpa using hne)
              · next hn =>
                  refine .stays ho fun _ first' heq => ?_
                  by_contra hne
                  obtain ⟨rfl, -⟩ := Prod.mk.inj (Option.some.inj heq)
                  exact hn (by simpa using hne)
          · next hcu =>
              refine .stays ho fun _ first heq => ?_
              rw [hcu] at heq
              cases heq
      · next hc => exact .stays ho fun h => absurd h hc

/-- The pass knows about the name what the known comments tell. -/
structure Single.Follows (marker : String) (k : Known Node) (s : Single) : Prop where
  closed : s.closed.get? marker = k.pair.map fun ab => (ab.1.line, ab.2.line)
  current : ∀ line, s.current = some (marker, line) ↔ ∃ a, k.opened = some a ∧ a.line = line

namespace Single.Follows

theorem start : Single.start.Follows marker .start :=
  ⟨rfl, fun _ => iff_of_false (Option.some_ne_none _).symm (by simp [Known.start])⟩

/-- What is open under another name is not the section of the name. -/
theorem opened_eq_none (h : s.Follows marker k) (hnot : ∀ line, s.current ≠ some (marker, line)) :
    k.opened = none := by
  cases ho : k.opened with
  | none => rfl
  | some a => exact absurd ((h.current a.line).2 ⟨a, ho, rfl⟩) (hnot a.line)

theorem step (h : s.Follows marker k) (ht : c.text? src = .ok text) :
    (s.step c.line text).Follows marker (k.see (singleRole src marker) c) := by
  have hr : c.singleRole src marker = _ := singleRole_eq ht
  have hg := s.goes_step c.line text
  generalize s.step c.line text = s' at hg ⊢
  cases hg with
  | opens ho =>
    rw [if_pos ho] at hr
    split at hr
    · next hn =>
        rw [Known.see_opens k hr]
        exact ⟨h.closed, fun line => by simp [hn]⟩
    · next hn =>
        rw [Known.see_breaks k hr]
        exact ⟨h.closed, fun line => by simp [hn]⟩
  | @closes closed first ho hc hne =>
    rw [if_neg (by simp [ho])] at hr
    by_cases hn : after closing text = marker
    · subst hn
      rw [if_pos ⟨hc, hne, rfl⟩] at hr
      obtain ⟨a, ha, rfl⟩ := (h.current first).1 rfl
      rw [Known.see_closes k hr, ha]
      refine ⟨?_, fun line => by simp⟩
      rw [Table.get?_put, if_pos rfl]
      rfl
    · rw [if_neg fun hall => hn hall.2.2] at hr
      rw [Known.see_passes k hr]
      have hno := h.opened_eq_none (by simp [hn])
      refine ⟨?_, fun line => by simp [hno]⟩
      rw [Table.get?_put, if_neg hn]
      exact h.closed
  | stays ho hnot =>
    rw [if_neg (by simp [ho])] at hr
    split at hr
    · next hcl =>
        obtain ⟨hc, hne, rfl⟩ := hcl
        have hno := h.opened_eq_none fun line heq => hne (hnot hc line heq)
        rw [Known.see_closes k hr, hno]
        refine ⟨h.closed, fun line => ?_⟩
        rw [h.current, hno]
    · rw [Known.see_passes k hr]
      exact h

/-- The pass knows about a name what the comments tell about it. -/
theorem scan (h : s.Follows marker k) (hs : scanSingle src s cs = .ok s') :
    s'.Follows marker (cs.foldl (Known.see (singleRole src marker)) k) := by
  induction cs generalizing s k with
  | nil =>
    cases hs
    exact h
  | cons c cs ih =>
    obtain ⟨text, ht, hs⟩ := Outcome.bind_eq_ok.1 hs
    exact ih (h.step ht) hs

end Single.Follows

theorem get?_singleSections {n : Node} {found : Sections} (h : singleSections src n = .ok found)
    (marker : String) : found.get? marker =
      (Known.after (singleRole src marker) n.comments).pair.map fun ab => (ab.1.line, ab.2.line) := by
  obtain ⟨s, hs, h⟩ := Outcome.bind_eq_ok.1 h
  cases h
  exact (Single.Follows.start.scan hs).closed

end Marker

end Excerpt
