import Excerpt.Cpp.Lookup
import Excerpt.Proofs.Except
import Mathlib.Data.List.Basic

/-!
# The steps of a search

The search for the first declaration of a name looks at declarations in an order
that does not depend on the name. `visits` lists these looks: each one is a
declaration with its place in the tree and the scope that the search carries
there. The scope is only what the search believes: a body is passed over twice,
first with the scope it opens and then with the one around it.

A search gives what the first visit that declares the name stands for
(`first_eq_scan`): the declaration itself, or the outermost template in whose
function it was met.
-/

namespace Excerpt

open List Outcome

/-- A property of trees holds if each node has it once its children do. -/
theorem Node.induction {P : Node → Prop} (h : ∀ n : Node, (∀ c ∈ n.children, P c) → P n) : ∀ n, P n := by
  intro n
  refine @Node.rec P (fun ns => ∀ c ∈ ns, P c) ?node ?nil ?cons n
  case node =>
    intro kind span children fields ih
    exact h _ ih
  case nil => exact fun c hc => absurd hc not_mem_nil
  case cons => exact fun n ns hn hns => forall_mem_cons.2 ⟨hn, hns⟩

namespace Cpp

variable {n : Node} {names : List String} {ns : List Node}

/-- The way from a node down to another one: the positions of the children taken. -/
abbrev Place := List Nat

/-- A look at a declaration. The search gives `template`, the outermost template
in whose function it is, in place of the declaration. -/
structure Visit where
  node : Node
  place : Place
  scope : List String
  template : Option (Node × Place)

namespace Visit

/-- What the search gives if the visit declares the name. -/
def answer (v : Visit) : Node :=
  v.template.elim v.node Prod.fst

/-- Where the answer stands. -/
def answerPlace (v : Visit) : Place :=
  v.template.elim v.place Prod.snd

def inTemplate (t : Node) (p : Place) (v : Visit) : Visit :=
  { v with template := some (t, p) }

end Visit

/-- A step of a search: a look at a declaration, or a name that is no text. -/
abbrev Step := Except Failure Visit

/-- The names of the scopes that a node opens for what stands in it. -/
def opened (src : Bytes) (n : Node) : Except Failure (List String) :=
  if n.kind == "namespace_definition" then namespaceNames src n
  else if recordKinds.contains n.kind then do
    return ((← recordName? src n).filter (!·.isEmpty)).toList
  else return []

/-- The kinds of nodes that may declare a name. -/
def declaringKinds : List String :=
  recordKinds ++ ["declaration", "function_definition", "field_declaration"]

/-- How a pass over the children of a node treats one of them. -/
inductive Entry where
  | skip
  | plain
  | within (template : Node) (place : Place)

/-- The steps of a pass, from those that a look at the child alone takes. -/
def Entry.steps : Entry → List Step → List Step
  | skip, _ => []
  | plain, steps => steps
  | within t p, steps => steps.map (Except.map (Visit.inTemplate t p))

/-- The first pass over the children of the node `n` at `place`, which opens the
scopes `names`: it enters the body of a namespace or a class, and the function or
the class of a template. -/
def firstPass (names : List String) (n : Node) (place : Place) (i : Nat) (c : Node) : Entry :=
  if n.kind == "namespace_definition" then
    if n.fields.lookup "body" == some i && c.kind == "declaration_list" then .plain else .skip
  else if recordKinds.contains n.kind then
    if !names.isEmpty && c.kind == "field_declaration_list" then .plain else .skip
  else if n.kind == "template_declaration" then
    if c.kind == "function_definition" then .within n place
    else if recordKinds.contains c.kind then .plain
    else .skip
  else .skip

/-- The second pass enters every child. -/
def secondPass (_ : Nat) (_ : Node) : Entry := .plain

mutual

/-- The steps of a search in the tree at `place`, which is believed to stand in `scope`. -/
def visits (src : Bytes) (scope : List String) (place : Place) : Node → List Step
  | ⟨kind, span, children, fields⟩ =>
    let n : Node := ⟨kind, span, children, fields⟩
    match opened src n with
    | .error e => [.error e]
    | .ok names =>
      (if declaringKinds.contains kind then [.ok ⟨n, place, scope, none⟩] else []) ++
        visitsAmong src (firstPass names n place) (scope ++ names) place 0 children ++
        visitsAmong src secondPass scope place 0 children

/-- The steps of a pass over trees, the first of which is the child number `i`. -/
def visitsAmong (src : Bytes) (pass : Nat → Node → Entry) (scope : List String) (place : Place)
    (i : Nat) : List Node → List Step
  | [] => []
  | n :: ns =>
    (pass i n).steps (visits src scope (place ++ [i]) n) ++
      visitsAmong src pass scope place (i + 1) ns

end

namespace Wanted

/-- Whether the node `n`, which stands in `scope`, declares the target. -/
def declares (w : Wanted) (src : Bytes) (n : Node) (scope : List String) : Except Failure Bool :=
  if recordKinds.contains n.kind then do
    return w.isRecord n.kind (← recordName? src n) scope
  else if n.kind == "declaration" && w.hasKind "declaration" then w.isVariable src n scope
  else if n.kind == "function_definition" && w.hasKind "function_definition" then
    w.isFunction src n scope
  else if n.kind == "field_declaration" && w.hasKind "function_definition" then
    w.isMember src n scope
  else return false

/-- The first visit that declares the target. -/
def scan (w : Wanted) (src : Bytes) : List Step → Except Failure (Option Visit)
  | [] => return none
  | .error e :: _ => throw e
  | .ok v :: steps => do
    if ← w.declares src v.node v.scope then return some v
    w.scan src steps

end Wanted

variable {src : Bytes} {w : Wanted}

theorem visits_of_opened (h : opened src n = .ok names) (scope : List String) (place : Place) :
    visits src scope place n =
      (if declaringKinds.contains n.kind then [.ok ⟨n, place, scope, none⟩] else []) ++
        visitsAmong src (firstPass names n place) (scope ++ names) place 0 n.children ++
        visitsAmong src secondPass scope place 0 n.children := by
  obtain ⟨kind, span, children, fields⟩ := n
  rw [visits]
  simp only [h]

theorem visits_of_error {e : Failure} (h : opened src n = .error e) (scope : List String)
    (place : Place) : visits src scope place n = [.error e] := by
  obtain ⟨kind, span, children, fields⟩ := n
  rw [visits]
  simp only [h]

/-- What a search gives for the visit it stops at. -/
def answered (r : Except Failure (Option Visit)) : Found :=
  r.map (Option.map Visit.answer)

namespace Wanted

/-- Steps are taken one after the other, until a declaration is found. -/
theorem answered_scan_append (w : Wanted) (src : Bytes) (steps more : List Step) :
    answered (w.scan src (steps ++ more)) =
      Found.orElse (answered (w.scan src steps)) fun _ => answered (w.scan src more) := by
  induction steps with
  | nil => rfl
  | cons step steps ih =>
    cases step with
    | error e => rfl
    | ok v =>
      rw [cons_append, scan, scan]
      cases w.declares src v.node v.scope with
      | error e => rfl
      | ok found =>
        cases found with
        | true => rfl
        | false => exact ih

theorem scan_map_inTemplate (w : Wanted) (src : Bytes) (t : Node) (p : Place) (steps : List Step) :
    w.scan src (steps.map (Except.map (Visit.inTemplate t p))) =
      (w.scan src steps).map (Option.map (Visit.inTemplate t p)) := by
  induction steps with
  | nil => rfl
  | cons step steps ih =>
    cases step with
    | error e => rfl
    | ok v =>
      rw [map_cons, Except.map, scan, scan, Visit.inTemplate]
      cases w.declares src v.node v.scope with
      | error e => rfl
      | ok found =>
        cases found with
        | true => rfl
        | false => exact ih

end Wanted

/-- The search in a tree is the scan of its visits. -/
def FirstIsScan (w : Wanted) (src : Bytes) (n : Node) : Prop :=
  ∀ scope place, first w src scope n = answered (w.scan src (visits src scope place n))

theorem firstAmong_eq_scan (h : ∀ n ∈ ns, FirstIsScan w src n) (scope : List String) (place : Place)
    (i : Nat) : firstAmong w src scope ns =
      answered (w.scan src (visitsAmong src secondPass scope place i ns)) := by
  induction ns generalizing i with
  | nil =>
    rw [firstAmong, visitsAmong]
    rfl
  | cons n ns ih =>
    have hns := forall_mem_cons.1 h
    rw [firstAmong, visitsAmong, Wanted.answered_scan_append, hns.1 scope (place ++ [i]), ih hns.2]
    rfl

theorem first_of_kind (hk : n.kind = "declaration_list" ∨ n.kind = "field_declaration_list")
    (scope : List String) : first w src scope n = firstAmong w src scope n.children := by
  obtain ⟨kind, span, children, fields⟩ := n
  rw [first]
  rcases hk with rfl | rfl
  · rfl
  · rfl

theorem record_ne_space {kind : String} (h : recordKinds.contains kind) :
    (kind == "namespace_definition") = false := by
  rw [beq_eq_false_iff_ne]
  rintro rfl
  exact absurd h (by decide)

section FirstPass

variable {names : List String} {n c : Node} {place : Place} {i : Nat}

theorem firstPass_space (hn : n.kind = "namespace_definition") : firstPass names n place i c =
      if n.fields.lookup "body" == some i && c.kind == "declaration_list" then .plain else .skip := by
  rw [firstPass, hn]
  rfl

theorem firstPass_record (hn : recordKinds.contains n.kind) : firstPass names n place i c =
      if !names.isEmpty && c.kind == "field_declaration_list" then .plain else .skip := by
  rw [firstPass, record_ne_space hn, hn]
  rfl

theorem firstPass_template (hn : n.kind = "template_declaration") : firstPass names n place i c =
      if c.kind == "function_definition" then .within n place else if recordKinds.contains c.kind then .plain
      else .skip := by
  rw [firstPass, hn]
  rfl

theorem firstPass_other (hs : n.kind ≠ "namespace_definition")
    (hr : recordKinds.contains n.kind = false) (ht : n.kind ≠ "template_declaration") :
    firstPass names n place i c = .skip := by
  rw [firstPass, beq_eq_false_iff_ne.2 hs, hr, beq_eq_false_iff_ne.2 ht]
  rfl

end FirstPass

theorem visitsAmong_of_skip {pass : Nat → Node → Entry} {i : Nat}
    (h : ∀ j c, i ≤ j → c ∈ ns → pass j c = .skip) (scope : List String) (place : Place) :
    visitsAmong src pass scope place i ns = [] := by
  induction ns generalizing i with
  | nil => rw [visitsAmong]
  | cons n ns ih =>
    rw [visitsAmong, h i n (Nat.le_refl i) mem_cons_self,
      ih fun j c hj hc => h j c (Nat.le_of_succ_le hj) (mem_cons_of_mem n hc)]
    rfl

theorem firstInBody_zero (scope : List String) (n : Node) (ns : List Node) :
    firstInBody w src scope 0 (n :: ns) =
      if n.kind == "declaration_list" then firstAmong w src scope n.children else .ok none := by
  obtain ⟨kind, span, children, fields⟩ := n
  rw [firstInBody]

theorem firstInBody_succ (scope : List String) (i : Nat) (n : Node) (ns : List Node) :
    firstInBody w src scope (i + 1) (n :: ns) = firstInBody w src scope i ns := by
  obtain ⟨kind, span, children, fields⟩ := n
  rw [firstInBody]

theorem firstInRecord_cons (scope : List String) (n : Node) (ns : List Node) :
    firstInRecord w src scope (n :: ns) = if n.kind == "field_declaration_list" then
        Found.orElse (firstAmong w src scope n.children) fun _ => firstInRecord w src scope ns
      else firstInRecord w src scope ns := by
  obtain ⟨kind, span, children, fields⟩ := n
  rw [firstInRecord]

theorem firstInBody_eq_scan (h : ∀ n ∈ ns, FirstIsScan w src n)
    (hn : n.kind = "namespace_definition") (scope : List String) (place : Place) (i j : Nat)
    (hb : n.fields.lookup "body" = some (i + j)) : firstInBody w src scope j ns =
      answered (w.scan src (visitsAmong src (firstPass names n place) scope place i ns)) := by
  induction ns generalizing i j with
  | nil =>
    rw [firstInBody, visitsAmong]
    rfl
  | cons m ms ih =>
    have hms := forall_mem_cons.1 h
    rw [visitsAmong, firstPass_space hn, hb]
    cases j with
    | succ j =>
      have hne : (some (i + (j + 1)) == some i) = false := by simp
      rw [firstInBody_succ, hne, ih hms.2 (i + 1) j (by rw [hb]; congr 1; omega)]
      rfl
    | zero =>
      have hl : visitsAmong src (firstPass names n place) scope place (i + 1) ms = [] := by
        refine visitsAmong_of_skip ?_ scope place
        intro k c hk _
        have hne : (some (i + 0) == some k) = false := by simp; omega
        rw [firstPass_space hn, hb, hne]
        rfl
      have hs : (some (i + 0) == some i) := by simp
      rw [firstInBody_zero, hl, append_nil, hs, Bool.true_and]
      split
      · next hki =>
          rw [← first_of_kind (.inl (beq_iff_eq.1 hki)), hms.1 scope (place ++ [i])]
          rfl
      · rfl

theorem firstInRecord_eq_scan (h : ∀ n ∈ ns, FirstIsScan w src n)
    (hn : recordKinds.contains n.kind) (hna : names ≠ []) (scope : List String)
    (place : Place) (i : Nat) : firstInRecord w src scope ns =
      answered (w.scan src (visitsAmong src (firstPass names n place) scope place i ns)) := by
  induction ns generalizing i with
  | nil =>
    rw [firstInRecord, visitsAmong]
    rfl
  | cons m ms ih =>
    have hms := forall_mem_cons.1 h
    have hne : (!names.isEmpty) := by simpa using hna
    rw [firstInRecord_cons, visitsAmong, firstPass_record hn, hne, Bool.true_and, ih hms.2 (i + 1)]
    split
    · next hk =>
        rw [← first_of_kind (.inr (beq_iff_eq.1 hk)), hms.1 scope (place ++ [i]),
          Wanted.answered_scan_append]
        rfl
    · rfl

theorem firstInTemplate_eq_scan (h : ∀ n ∈ ns, FirstIsScan w src n)
    (hn : n.kind = "template_declaration") (scope : List String) (place : Place) (i : Nat) :
    firstInTemplate w src scope n ns =
      answered (w.scan src (visitsAmong src (firstPass names n place) scope place i ns)) := by
  induction ns generalizing i with
  | nil =>
    rw [firstInTemplate, visitsAmong]
    rfl
  | cons m ms ih =>
    have hms := forall_mem_cons.1 h
    rw [firstInTemplate, visitsAmong, firstPass_template hn, Wanted.answered_scan_append,
      ← ih hms.2 (i + 1), hms.1 scope (place ++ [i])]
    split
    · rw [Entry.steps, Wanted.scan_map_inTemplate]
      cases w.scan src (visits src scope (place ++ [i]) m) with
      | error e => rfl
      | ok found =>
        cases found with
        | none => rfl
        | some v => rfl
    · split
      · rfl
      · rfl

theorem first_space (hn : n.kind = "namespace_definition") (scope : List String) :
    first w src scope n = (do
      let names ← namespaceNames src n
      match n.fields.lookup "body" with
      | some i =>
        Found.orElse (firstInBody w src (scope ++ names) i n.children) fun _ =>
          firstAmong w src scope n.children
      | none => firstAmong w src scope n.children) := by
  obtain ⟨kind, span, children, fields⟩ := n
  subst hn
  rw [first]
  rfl

theorem first_record (hn : recordKinds.contains n.kind) (scope : List String) :
    first w src scope n = (do
      let name ← recordName? src n
      if w.isRecord n.kind name scope then return some n
      match name.filter (!·.isEmpty) with
      | some name =>
        Found.orElse (firstInRecord w src (scope ++ [name]) n.children) fun _ =>
          firstAmong w src scope n.children
      | none => firstAmong w src scope n.children) := by
  obtain ⟨kind, span, children, fields⟩ := n
  rw [first, record_ne_space hn, hn]
  rfl

theorem first_declaring (hn : n.kind ∈ ["declaration", "function_definition", "field_declaration"])
    (scope : List String) : first w src scope n = (do
      if ← w.declares src n scope then return some n
      firstAmong w src scope n.children) := by
  obtain ⟨kind, span, children, fields⟩ := n
  simp only [mem_cons, not_mem_nil, or_false] at hn
  rw [first]
  rcases hn with rfl | rfl | rfl
  · cases hw : w.hasKind "declaration" with
    | true => simp [Wanted.declares, recordKinds, hw]
    | false => simp [Wanted.declares, recordKinds, hw, pure_bind]
  · cases hw : w.hasKind "function_definition" with
    | true => simp [Wanted.declares, recordKinds, hw]
    | false => simp [Wanted.declares, recordKinds, hw]
  · cases hw : w.hasKind "function_definition" with
    | true => simp [Wanted.declares, recordKinds, hw]
    | false => simp [Wanted.declares, recordKinds, hw]

theorem first_template (hn : n.kind = "template_declaration") (scope : List String) : first w src scope n =
      Found.orElse (firstInTemplate w src scope n n.children) fun _ => firstAmong w src scope n.children := by
  obtain ⟨kind, span, children, fields⟩ := n
  subst hn
  rw [first]
  rfl

theorem first_other (hs : n.kind ≠ "namespace_definition")
    (ht : n.kind ≠ "template_declaration") (hd : n.kind ∉ declaringKinds)
    (scope : List String) : first w src scope n = firstAmong w src scope n.children := by
  obtain ⟨kind, span, children, fields⟩ := n
  simp only [declaringKinds, recordKinds, cons_append, nil_append, mem_cons,
    not_mem_nil, or_false, not_or] at hd
  rw [first]
  simp_all [recordKinds]

theorem opened_space (hn : n.kind = "namespace_definition") : opened src n = namespaceNames src n := by
  rw [opened, hn]
  rfl

theorem opened_record (hn : recordKinds.contains n.kind) :
    opened src n = (do return ((← recordName? src n).filter (!·.isEmpty)).toList) := by
  rw [opened, record_ne_space hn, hn]
  rfl

theorem opened_other (hs : n.kind ≠ "namespace_definition")
    (hr : recordKinds.contains n.kind = false) : opened src n = .ok [] := by
  rw [opened, beq_eq_false_iff_ne.2 hs, hr]
  rfl

theorem answered_scan_here (scope : List String) (place : Place) (steps : List Step) :
    answered (w.scan src (.ok ⟨n, place, scope, none⟩ :: steps)) = (do
      if ← w.declares src n scope then return some n
      answered (w.scan src steps)) := by
  rw [Wanted.scan]
  cases w.declares src n scope with
  | error e => rfl
  | ok found =>
    cases found with
    | true => rfl
    | false => rfl

theorem Wanted.declares_record (hn : recordKinds.contains n.kind) (scope : List String) :
    w.declares src n scope = (do return w.isRecord n.kind (← recordName? src n) scope) := by
  rw [declares, hn]
  rfl

section FirstEqScan

variable {n : Node} (ih : ∀ c ∈ n.children, FirstIsScan w src c)

include ih

theorem firstIsScan_space (hn : n.kind = "namespace_definition") : FirstIsScan w src n := by
  intro scope place
  have ho : opened src n = namespaceNames src n := opened_space hn
  rw [first_space hn]
  cases hna : namespaceNames src n with
  | error e =>
    rw [visits_of_error (ho.trans hna)]
    rfl
  | ok names =>
    rw [visits_of_opened (ho.trans hna), hn, Wanted.answered_scan_append,
      Wanted.answered_scan_append, ← firstAmong_eq_scan ih]
    cases hb : n.fields.lookup "body" with
    | some i =>
      rw [← firstInBody_eq_scan ih hn (scope ++ names) place 0 i (by rw [hb, Nat.zero_add])]
      rfl
    | none =>
      have hs : visitsAmong src (firstPass names n place) (scope ++ names) place 0
          n.children = [] := by
        refine visitsAmong_of_skip ?_ _ _
        intro j c _ _
        rw [firstPass_space hn, hb]
        rfl
      rw [hs]
      rfl

theorem firstIsScan_record (hn : recordKinds.contains n.kind) : FirstIsScan w src n := by
  intro scope place
  rw [first_record hn]
  cases hna : recordName? src n with
  | error e =>
    have ho : opened src n = .error e := by
      rw [opened_record hn, hna]
      rfl
    rw [visits_of_error ho]
    rfl
  | ok name =>
    have ho : opened src n = .ok (name.filter (!·.isEmpty)).toList := by
      rw [opened_record hn, hna]
      rfl
    have hd : declaringKinds.contains n.kind := by
      rw [declaringKinds, contains_append, hn, Bool.true_or]
    rw [visits_of_opened ho, if_pos hd, append_assoc, singleton_append,
      answered_scan_here, Wanted.declares_record hn, hna, Wanted.answered_scan_append,
      ← firstAmong_eq_scan ih, ok_bind, ok_bind]
    cases hf : name.filter (!·.isEmpty) with
    | some name =>
      rw [← firstInRecord_eq_scan ih hn (by simp)]
      rfl
    | none =>
      have hs : visitsAmong src (firstPass [] n place) (scope ++ []) place 0
          n.children = [] := by
        refine visitsAmong_of_skip ?_ _ _
        intro j c _ _
        rw [firstPass_record hn]
        rfl
      rw [Option.toList_none, hs]
      rfl

theorem firstIsScan_template (hn : n.kind = "template_declaration") : FirstIsScan w src n := by
  intro scope place
  have ho : opened src n = .ok [] := opened_other (by rw [hn]; decide) (by rw [hn]; decide)
  rw [first_template hn, visits_of_opened ho, hn, Wanted.answered_scan_append,
    Wanted.answered_scan_append, ← firstAmong_eq_scan ih, ← firstInTemplate_eq_scan ih hn, append_nil]
  rfl

theorem firstIsScan_other (hs : n.kind ≠ "namespace_definition")
    (hr : recordKinds.contains n.kind = false) (ht : n.kind ≠ "template_declaration") :
    FirstIsScan w src n := by
  intro scope place
  have hsk : visitsAmong src (firstPass [] n place) (scope ++ []) place 0 n.children = [] :=
    visitsAmong_of_skip (fun j c _ _ => firstPass_other hs hr ht) _ _
  rw [visits_of_opened (opened_other hs hr), hsk, append_nil]
  split
  · next hd =>
      have hmem : n.kind ∈ ["declaration", "function_definition", "field_declaration"] := by
        rw [declaringKinds, contains_append, hr, Bool.false_or] at hd
        exact contains_iff_mem.1 hd
      rw [first_declaring hmem, singleton_append, answered_scan_here, ← firstAmong_eq_scan ih]
  · next hd =>
      rw [first_other hs ht fun hmem => hd (contains_iff_mem.2 hmem),
        nil_append, ← firstAmong_eq_scan ih]

end FirstEqScan

/-- A search gives what the first visit that declares the name stands for. -/
theorem first_eq_scan (w : Wanted) (src : Bytes) (n : Node) : FirstIsScan w src n := by
  induction n using Node.induction with
  | h n ih =>
    by_cases hs : n.kind = "namespace_definition"
    · exact firstIsScan_space ih hs
    cases hr : recordKinds.contains n.kind with
    | true => exact firstIsScan_record ih hr
    | false =>
      by_cases ht : n.kind = "template_declaration"
      · exact firstIsScan_template ih ht
      · exact firstIsScan_other ih hs hr ht

end Cpp

end Excerpt
