import Excerpt.Cpp.Declarator
import Excerpt.Proofs.Text.Spelling
import Excerpt.Proofs.Tree.Form
import Mathlib.Data.List.TakeWhile
import Mathlib.Tactic.Tauto

/-!
# Names and their components

A qualified name nests to the right; `components` lists what it is made of, from
left to right. The components before the last one are the qualifiers that are
written in front of the name. Both readings of a name go through its components,
and a reading gives one part for each of them except for template arguments
before a parenthesis, for which it gives none.
-/

namespace Excerpt

open Outcome

namespace Text

theorem headD_consHead (c : Char) (parts : List (List Char)) :
    (consHead c parts).headD [] = c :: parts.headD [] := by
  cases parts with
  | nil => rfl
  | cons part parts => rfl

/-- The part of a text before the first occurrence of a character. -/
theorem headD_partsFrom (c : Char) (cs : List Char) :
    (partsFrom [c] 0 cs).headD [] = cs.takeWhile (· != c) := by
  induction cs with
  | nil => rfl
  | cons x xs ih =>
    by_cases hx : x = c
    · simp [partsFrom, hx]
    · have hp : partsFrom [c] 0 (x :: xs) = consHead x (partsFrom [c] 0 xs) := by
        simp [partsFrom, Ne.symm hx]
      rw [hp, headD_consHead, ih, List.takeWhile_cons_of_pos (by simpa using hx)]

end Text

namespace Cpp

open Node

variable {src : Bytes} {s : String} {n name args : Node} {parts : List Part}

theorem toList_baseName (s : String) : (baseName s).toList = s.toList.takeWhile (· != '<') := by
  have hsep : "<".toList = ['<'] := by decide
  rw [baseName, Text.beforeFirst, Text.split, hsep, ← Text.headD_partsFrom]
  cases Text.partsFrom ['<'] 0 s.toList with
  | nil => rfl
  | cons part parts => exact String.toList_ofList

@[simp]
theorem baseName_baseName (s : String) : baseName (baseName s) = baseName s := by
  apply String.toList_injective
  rw [toList_baseName, toList_baseName, List.takeWhile_idem]

/-- A name that is followed by template arguments is the same name without them. -/
theorem baseName_append {t : String} (h : t.toList.head? = some '<') : baseName (s ++ t) = baseName s := by
  apply String.toList_injective
  rw [toList_baseName, toList_baseName, String.toList_append, List.takeWhile_append]
  split
  · next hall =>
      cases ht : t.toList with
      | nil =>
        rw [ht] at h
        cases h
      | cons c cs =>
        rw [ht, List.head?_cons, Option.some.injEq] at h
        subst h
        rw [List.takeWhile_cons_of_neg (by decide), List.append_nil,
          ( List.takeWhile_prefix _).eq_of_length hall]
  · rfl

mutual

/-- The components of a name, from left to right. -/
def components : Node → List Node
  | ⟨kind, span, children, fields⟩ =>
    if kind == "qualified_identifier" then componentsAll children
    else [⟨kind, span, children, fields⟩]

/-- The components of several names, in order. -/
def componentsAll : List Node → List Node
  | [] => []
  | n :: ns => components n ++ componentsAll ns

end

/-- The name of a component, without template arguments. -/
def componentName (src : Bytes) (n : Node) : Except Failure String :=
  match n.childOf? ["type_identifier", "identifier"] with
  | some name => name.text? src
  | none => n.text? src

/-- The qualifiers that are written in front of a name. -/
def writtenQualifiers (src : Bytes) (name : Node) : Except Failure (List String) :=
  (components name).dropLast.mapM (componentName src)

/-- A name whose last component is a function with template arguments. No reading
sees that component, so the one before it is taken for the name. -/
def EndsInArguments (name : Node) : Prop :=
  ∃ c, (components name).getLast? = some c ∧ c.kind = "template_function"

theorem components_of_ne (h : n.kind ≠ "qualified_identifier") : components n = [n] := by
  obtain ⟨kind, span, children, fields⟩ := n
  rw [components, beq_eq_false_iff_ne.2 h]
  rfl

theorem components_pair {qualifier : Node} (h : n.kind = "qualified_identifier")
    (hc : n.children = [qualifier, name]) :
    components n = components qualifier ++ components name := by
  obtain ⟨kind, span, children, fields⟩ := n
  subst h
  dsimp only at hc
  rw [components, hc, componentsAll, componentsAll, componentsAll, List.append_nil]
  rfl

/-- The kinds of components that qualify a name. -/
def IsQualifier (src : Bytes) (n : Node) : Prop :=
  WellFormed src n ∧ (n.kind = "namespace_identifier" ∨ n.kind = "template_type")

/-- The kinds of components that a name ends with. -/
def IsLast (src : Bytes) (n : Node) : Prop :=
  WellFormed src n ∧ n.kind ∈ ["identifier", "template_type", "template_function", "operator_name"]

theorem ne_qualified_of_qualifier {c : Node}
    (h : c.kind = "namespace_identifier" ∨ c.kind = "template_type") : c.kind ≠ "qualified_identifier" := by
  rcases h with h | h
  · rw [h]; decide
  · rw [h]; decide

theorem exists_components (hwf : n.WellFormed src) (hk : n.kind ∈ chainKinds) :
    ∃ qualifiers last, components n = qualifiers ++ [last] ∧
      (∀ c ∈ qualifiers, IsQualifier src c) ∧ IsLast src last ∧
      (n.kind = "qualified_identifier" → qualifiers ≠ []) := by
  induction hwf with
  | @node n form children ih =>
    by_cases hqu : n.kind = "qualified_identifier"
    · obtain ⟨qualifier, name, hch, hq, hn⟩ := form.qualified_cases hqu
      have hnameMem : name ∈ n.children := by rw [hch]; simp
      have hqualifierMem : qualifier ∈ n.children := by rw [hch]; simp
      obtain ⟨qualifiers, last, hl, hall, hend, -⟩ := ih name hnameMem hn
      have hne := ne_qualified_of_qualifier hq
      refine ⟨qualifier :: qualifiers, last, ?_, ?_, hend, fun _ => List.cons_ne_nil _ _⟩
      · rw [components_pair hqu hch, components_of_ne hne, hl]
        rfl
      · intro c hc
        rcases List.mem_cons.1 hc with rfl | hc
        · exact ⟨children _ hqualifierMem, hq⟩
        · exact hall c hc
    · refine ⟨[], n, components_of_ne hqu, nofun, ⟨.node form children, ?_⟩,
        fun h => absurd h hqu⟩
      simp only [chainKinds, List.mem_cons, List.not_mem_nil, or_false] at hk
      simp only [List.mem_cons, List.not_mem_nil, or_false]
      tauto

section Readings

variable {α : Type} {plain : String → α} {template : Node → Except Failure (List α)}

def readComponent (src : Bytes) (plain : String → α) (template : Node → Except Failure (List α))
    (n : Node) : Except Failure (List α) :=
  if n.kind == "namespace_identifier" || n.kind == "identifier" then do
    return [plain (← n.text? src)]
  else if n.kind == "template_type" then template n
  else if n.kind == "operator_name" then do return [plain (← operatorName src n)]
  else return []

/-- A node that is no qualified name adds what is read of it in front of the others. -/
theorem qualifiedPart_of_ne (after : Except Failure (List α))
    (hne : n.kind ≠ "qualified_identifier") : qualifiedPart src plain template after n =
      (do return (← readComponent src plain template n) ++ (← after)) := by
  obtain ⟨kind, span, children, fields⟩ := n
  rw [qualifiedPart, readComponent]
  rw [beq_eq_false_iff_ne.2 hne]
  split
  · simp
  split
  · simp
  split
  · simp
  · simp

theorem qualifiedPart_of_eq {after : Except Failure (List α)}
    (h : n.kind = "qualified_identifier") :
    qualifiedPart src plain template after n = qualifiedParts src plain template n.children := by
  obtain ⟨kind, span, children, fields⟩ := n
  subst h
  rw [qualifiedPart]
  rfl

/-- The parts of a name are those of its components, one after the other. -/
theorem qualifiedPart_eq_mapM (hwf : n.WellFormed src) (hk : n.kind ∈ chainKinds) :
    qualifiedPart src plain template (.ok []) n =
      (do return (← (components n).mapM (readComponent src plain template)).flatten) := by
  induction hwf with
  | @node n form children ih =>
    by_cases hqu : n.kind = "qualified_identifier"
    · obtain ⟨qualifier, name, hc, hq, hn⟩ := form.qualified_cases hqu
      have hnameMem : name ∈ n.children := by rw [hc]; simp
      have hne := ne_qualified_of_qualifier hq
      rw [qualifiedPart_of_eq hqu, hc, qualifiedParts, qualifiedParts, qualifiedParts, ih name
        hnameMem hn, qualifiedPart_of_ne _ hne, components_pair hqu hc, components_of_ne hne,
        List.singleton_append, List.mapM_cons]
      simp
    · have hnil : (.ok [] : Except Failure (List α)) = pure [] := rfl
      rw [qualifiedPart_of_ne _ hqu, components_of_ne hqu, List.mapM_cons, List.mapM_nil, hnil]
      simp

end Readings

theorem decode_of_text? (h : n.text? src = .ok s) : Utf8.decode (n.text src) = .ok s :=
  mapError_eq_ok.1 h

theorem head_text?_of_templateArguments (hwf : n.WellFormed src)
    (hk : n.kind = "template_argument_list") (h : n.text? src = .ok s) : s.toList.head? = some '<' := by
  have hh := hwf.form.head_text_of_templateArguments hk
  have hd := decode_of_text? h
  cases ht : n.text src with
  | nil =>
    rw [ht] at hh
    cases hh
  | cons b bs =>
    rw [ht, List.head?_cons, Option.some.injEq] at hh
    rw [ht, hh] at hd
    exact Utf8.head_decode (by decide) hd

theorem textsOf_pair (src : Bytes) (hc : n.children = [name, args])
    (hn : name.kind = "type_identifier") (ha : args.kind = "template_argument_list") :
    textsOf src "type_identifier" n = (do return [← name.text? src]) ∧
      textsOf src "template_argument_list" n = (do return [← args.text? src]) := by
  constructor
  · rw [textsOf, hc]
    simp [List.filter, hn, ha]
  · rw [textsOf, hc]
    simp [List.filter, hn, ha]

theorem componentName_of_templateType (hc : n.children = [name, args])
    (hn : name.kind = "type_identifier") : componentName src n = name.text? src := by
  have hch : n.childOf? ["type_identifier", "identifier"] = some name := by
    rw [Node.childOf?, hc]
    simp [hn]
  rw [componentName, hch]

/-- A part of the full reading stands for a name, template arguments ignored. -/
def StandsFor (p : Part) (name : String) : Prop :=
  ∃ s, p = some s ∧ baseName s = baseName name

/-- The full reading of a type with template arguments. -/
theorem templateType_eq_ok (hwf : n.WellFormed src) (hk : n.kind = "template_type")
    (h : templateType src n = .ok parts) :
    ∃ p name, parts = [p] ∧ componentName src n = .ok name ∧ StandsFor p name := by
  obtain ⟨name, args, hc, hn, -, har⟩ := hwf.form.templateType_cases hk
  obtain ⟨hna, hargsText⟩ := textsOf_pair src hc hn har
  rw [templateType, hna, hargsText] at h
  simp only [bind_assoc, pure_bind] at h
  obtain ⟨t, ht, h⟩ := Outcome.bind_eq_ok.1 h
  obtain ⟨a, ha, h⟩ := Outcome.bind_eq_ok.1 h
  cases h
  refine ⟨_, t, rfl, by rw [componentName_of_templateType hc hn, ht], _, rfl, ?_⟩
  have hwellArgs := hwf.child args (by rw [hc]; simp)
  change baseName (if t.isEmpty then t else t ++ a) = baseName t
  split
  · rfl
  · exact baseName_append (head_text?_of_templateArguments hwellArgs har ha)

theorem plainTemplateType_eq_ok (hwf : n.WellFormed src) (hk : n.kind = "template_type")
    {parts : List String} (h : plainTemplateType src n = .ok parts) :
    ∃ p name, parts = [p] ∧ componentName src n = .ok name ∧ p = name := by
  obtain ⟨name, args, hc, hn, hte, ha⟩ := hwf.form.templateType_cases hk
  rw [plainTemplateType, (textsOf_pair src hc hn ha).1] at h
  simp only [bind_assoc, pure_bind] at h
  obtain ⟨t, ht, h⟩ := Outcome.bind_eq_ok.1 h
  cases h
  have hne := Utf8.ne_empty_of_decode hte (decode_of_text? ht)
  refine ⟨t, t, ?_, by rw [componentName_of_templateType hc hn, ht], rfl⟩
  simp [Option.filter, hne]

theorem componentName_of_flat (hwf : n.WellFormed src) (hk : n.kind ∈ flatKinds) :
    componentName src n = n.text? src := by
  have hc : n.childOf? ["type_identifier", "identifier"] = none := by
    rw [Node.childOf?, hwf.form.children_of_flat hk]
    rfl
  rw [componentName, hc]

section Components

variable {c : Node} {α : Type} {plain : String → α} {template : Node → Except Failure (List α)}
  {S : α → String → Prop} {parts : List α}

theorem readComponent_of_name (hk : c.kind = "namespace_identifier" ∨ c.kind = "identifier") :
    readComponent src plain template c = (do return [plain (← c.text? src)]) := by
  rcases hk with hk | hk
  · rw [readComponent, hk]
    rfl
  · rw [readComponent, hk]
    rfl

theorem readComponent_of_templateType (hk : c.kind = "template_type") :
    readComponent src plain template c = template c := by
  rw [readComponent, hk]
  rfl

theorem readComponent_of_operator (hk : c.kind = "operator_name") :
    readComponent src plain template c = (do return [plain (← operatorName src c)]) := by
  rw [readComponent, hk]
  rfl

theorem readComponent_of_function (hk : c.kind = "template_function") :
    readComponent src plain template c = .ok [] := by
  rw [readComponent, hk]
  rfl

/-- The reading of a qualifier is `S`-related to its name if that of a text and that of a type
with template arguments are. -/
theorem read_qualifier (hp : ∀ s, S (plain s) s) (hc : IsQualifier src c)
    (ht : c.kind = "template_type" → ∀ parts, template c = .ok parts →
      ∃ p name, parts = [p] ∧ componentName src c = .ok name ∧ S p name)
    (h : readComponent src plain template c = .ok parts) :
    ∃ p name, parts = [p] ∧ componentName src c = .ok name ∧ S p name := by
  obtain ⟨hwf, hk | hk⟩ := hc
  · rw [readComponent_of_name (.inl hk)] at h
    obtain ⟨text, hte, h⟩ := Outcome.bind_eq_ok.1 h
    cases h
    refine ⟨plain text, text, rfl, ?_, hp text⟩
    rw [componentName_of_flat hwf (by rw [hk]; decide), hte]
  · rw [readComponent_of_templateType hk] at h
    exact ht hk parts h

/-- A reading gives one part for the last component of a name, unless that is a
function with template arguments. -/
theorem read_last (hc : IsLast src c) (hne : c.kind ≠ "template_function")
    (ht : c.kind = "template_type" → ∀ parts, template c = .ok parts → ∃ p, parts = [p])
    (h : readComponent src plain template c = .ok parts) : ∃ p, parts = [p] := by
  obtain ⟨hwf, hk⟩ := hc
  simp only [List.mem_cons, List.not_mem_nil, or_false] at hk
  rcases hk with hk | hk | hk | hk
  · rw [readComponent_of_name (.inr hk)] at h
    obtain ⟨text, hte, h⟩ := Outcome.bind_eq_ok.1 h
    cases h
    exact ⟨_, rfl⟩
  · rw [readComponent_of_templateType hk] at h
    exact ht hk parts h
  · exact absurd hk hne
  · rw [readComponent_of_operator hk] at h
    obtain ⟨text, hte, h⟩ := Outcome.bind_eq_ok.1 h
    cases h
    exact ⟨_, rfl⟩

/-- The components of a name are read one by one, the qualifiers `S`-related to their names. -/
theorem exists_names {qualifiers : List Node} {last : Node} {pieces : List (List α)}
    (hq : ∀ c ∈ qualifiers, ∀ parts, readComponent src plain template c = .ok parts →
      ∃ p name, parts = [p] ∧ componentName src c = .ok name ∧ S p name)
    (h : List.Forall₂ (fun c ps => readComponent src plain template c = .ok ps)
      (qualifiers ++ [last]) pieces) : ∃ names parts tail,
      List.Forall₂ (fun c name => componentName src c = .ok name) qualifiers names ∧
      readComponent src plain template last = .ok tail ∧ pieces.flatten = parts ++ tail ∧
      List.Forall₂ S parts names := by
  induction qualifiers generalizing pieces with
  | nil =>
    cases h with
    | @cons _ tail _ _ hr hnil =>
      cases hnil
      exact ⟨[], [], tail, .nil, hr, List.append_nil tail, .nil⟩
  | cons c qualifiers ih =>
    have hall := List.forall_mem_cons.1 hq
    cases h with
    | cons hr hm =>
      obtain ⟨p, name, rfl, hna, hp⟩ := hall.1 _ hr
      obtain ⟨names, parts, tail, hn, ht, hf, hpa⟩ := ih hall.2 hm
      refine ⟨name :: names, p :: parts, tail, .cons hna hn, ht, ?_, .cons hp hpa⟩
      rw [List.flatten_cons, hf]
      rfl

/-- The parts that a reading gives for a qualified name, against the qualifiers `names`
that are written in front of it: the parts before the last one stand for the
qualifiers, and if the name ends in template arguments then all parts do. -/
structure ReadAs (S : α → String → Prop) (n : Node) (parts : List α) (names : List String) :
    Prop where
  whole : ¬ EndsInArguments n → List.Forall₂ S parts.dropLast names
  cut : EndsInArguments n → parts ≠ [] ∧ List.Forall₂ S parts names

/-- A reading of a qualified name gives the qualifiers written in front of it. -/
theorem exists_readAs (hwf : n.WellFormed src)
    (hk : n.kind = "qualified_identifier") (hpl : ∀ s, S (plain s) s)
    (ht : ∀ c, c.WellFormed src → c.kind = "template_type" → ∀ parts,
      template c = .ok parts → ∃ p name, parts = [p] ∧ componentName src c = .ok name ∧ S p name)
    (h : qualifiedParts src plain template n.children = .ok parts) :
    ∃ names, writtenQualifiers src n = .ok names ∧ ReadAs S n parts names := by
  have hch : n.kind ∈ chainKinds := by rw [hk]; decide
  obtain ⟨qualifiers, last, hco, hall, hend, hne⟩ := exists_components hwf hch
  have hpart : qualifiedPart src plain template (.ok []) n = .ok parts := by
    rw [qualifiedPart_of_eq hk]
    exact h
  rw [qualifiedPart_eq_mapM hwf hch] at hpart
  obtain ⟨pieces, hpi, hpa⟩ := Outcome.bind_eq_ok.1 hpart
  cases hpa
  rw [mapM_eq_ok, hco] at hpi
  obtain ⟨names, parts, tail, hn, hta, hf, hpa⟩ :=
    exists_names (S := S) (fun c hc parts => read_qualifier hpl (hall c hc)
      (ht c (hall c hc).1)) hpi
  have hl : (components n).getLast? = some last := by rw [hco, List.getLast?_concat]
  refine ⟨names, ?_, ?_, ?_⟩
  · rw [writtenQualifiers, hco, List.dropLast_concat]
    exact mapM_eq_ok.2 hn
  · intro hw
    have hone : last.kind = "template_type" → ∀ parts, template last = .ok parts →
        ∃ p, parts = [p] := by
      intro hty parts hr
      obtain ⟨p, -, hp, -⟩ := ht last hend.1 hty parts hr
      exact ⟨p, hp⟩
    obtain ⟨p, rfl⟩ := read_last hend (fun heq => hw ⟨last, hl, heq⟩) hone hta
    rw [hf, List.dropLast_concat]
    exact hpa
  · rintro ⟨c, hc, hfu⟩
    cases hl.symm.trans hc
    rw [readComponent_of_function hfu] at hta
    cases hta
    rw [hf, List.append_nil]
    refine ⟨?_, hpa⟩
    rintro rfl
    cases hpa
    cases hn
    exact hne hk rfl

end Components

theorem exists_written_of_full (hwf : n.WellFormed src) (hk : n.kind = "qualified_identifier")
    (h : qualifiedParts src some (templateType src) n.children = .ok parts) :
    ∃ names, writtenQualifiers src n = .ok names ∧ ReadAs StandsFor n parts names :=
  exists_readAs hwf hk (fun s => ⟨s, rfl, rfl⟩)
    (fun _ hc ht _ hp => templateType_eq_ok hc ht hp) h

theorem exists_written_of_plain (hwf : n.WellFormed src) (hk : n.kind = "qualified_identifier")
    {parts : List String} (h : qualifiedParts src id (plainTemplateType src) n.children = .ok parts) :
    ∃ names, writtenQualifiers src n = .ok names ∧ ReadAs (· = ·) n parts names :=
  exists_readAs hwf hk (fun _ => rfl)
    (fun _ hc ht _ hp => plainTemplateType_eq_ok hc ht hp) h

end Cpp

end Excerpt
