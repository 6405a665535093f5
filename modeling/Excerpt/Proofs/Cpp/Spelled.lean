import Excerpt.Proofs.Cpp.Declares
import Excerpt.Proofs.Grammar.Item

/-!
# How names are written

The names in the tree of a text can be read: each is a word, an operator, or runs
from one word to another, so it starts and ends between two characters. `written`
is the text of a node, and `parts` lists what the plain reading of a name finds.
-/

namespace Excerpt

open Node List Option Outcome Lexeme Utf8

namespace Token

variable {src : Bytes} {t : Token}

theorem bytes_of_word (ht : t ∈ scan src) (hk : t.kind = .word) :
    ∀ b ∈ t.text, isWordByte b := by
  rcases readAt_of_mem_scan ht with ⟨hend, -⟩ | ⟨b, cs, n, -, hte, hr⟩
  · rw [hk] at hend
    cases hend
  · rw [hk] at hr
    cases stands_of_read hr with
    | word hb =>
      rw [hte, take_run, forall_mem_cons]
      refine ⟨?_, fun c hc => mem_takeWhile_imp hc⟩
      rw [isWordByte, hb, Bool.true_or]

theorem bytes_of_operator (ht : t ∈ scan src) (hk : t.kind = .operator) :
    ∀ b ∈ t.text, b ∈ operators := by
  rcases readAt_of_mem_scan ht with ⟨hend, -⟩ | ⟨b, cs, n, -, hte, hr⟩
  · rw [hk] at hend
    cases hend
  · rw [hk] at hr
    cases stands_of_read hr with
    | colons hb hcs =>
      rw [hte, hb, hcs, take_succ_cons, take_zero]
      intro c hc
      rcases mem_pair.1 hc with rfl | rfl
      · decide
      · decide
    | operator hb =>
      rw [hte, take_zero]
      simpa using hb

end Token

namespace Node

/-- The text of a node. -/
def written (src : Bytes) (n : Node) : String :=
  decodeLossy (n.text src)

section Written

variable {src : Bytes} {cs : List Char} {n : Node} {t : Token}

theorem text?_of_edges (hst : Utf8.Edge src n.start) (hstop : Utf8.Edge src n.stop) :
    n.text? src = .ok (n.written src) := by
  obtain ⟨s, hs⟩ := hst.exists_decode hstop
  have hw : n.written src = s := decodeLossy_of_decode hs
  rw [hw]
  exact mapError_eq_ok.2 hs

theorem text?_of_span (hsrc : Utf8.Spells src cs) (ht : t ∈ Token.scan src)
    (hs : n.span = t.span) : n.text? src = .ok (n.written src) := by
  refine text?_of_edges ?_ ?_
  · rw [Node.start, hs]
    exact Token.edge_start hsrc ht
  · rw [Node.stop, hs]
    exact Token.edge_stop hsrc ht

theorem text_of_span (ht : t ∈ Token.scan src) (hs : n.span = t.span) : n.text src = t.text := by
  rw [Node.text, Node.start, Node.stop, hs]
  exact Token.slice_of_mem_scan ht

/-- A character of one byte that is not among the bytes is not in the text. -/
theorem not_mem_written {b : UInt8} {c : Char} (h : n.text? src = .ok (n.written src))
    (hc : encoded c = [b]) (hb : b ∉ n.text src) : c ∉ (n.written src).toList := by
  intro hmem
  have hsub := encoded_subset_of_decode (mapError_eq_ok.1 h) hmem
  rw [hc] at hsub
  exact hb (hsub mem_cons_self)

/-- A word has no template arguments and no `:` in it. -/
structure Wordy (s : String) : Prop where
  ne_empty : s ≠ ""
  angle : '<' ∉ s.toList
  colon : ':' ∉ s.toList

theorem IsWord.text? (hsrc : Utf8.Spells src cs) (h : n.IsWord (Token.scan src)) :
    n.text? src = .ok (n.written src) := by
  obtain ⟨t, ht, -, hs⟩ := h
  exact text?_of_span hsrc ht hs

theorem IsWord.wordy (hsrc : Utf8.Spells src cs) (h : n.IsWord (Token.scan src)) : Wordy (n.written src) := by
  have hte := h.text? hsrc
  obtain ⟨t, ht, hk, hs⟩ := h
  have hb := Token.bytes_of_word ht hk
  rw [← text_of_span ht hs] at hb
  have ha : encoded '<' = [60] := by decide
  have hc : encoded ':' = [58] := by decide
  refine ⟨?_, not_mem_written hte ha ?_, not_mem_written hte hc ?_⟩
  · refine ne_empty_of_decode ?_ (mapError_eq_ok.1 hte)
    rw [text_of_span ht hs]
    exact Token.text_ne_nil_of_word ht hk
  · intro hmem
    exact absurd (hb _ hmem) (by decide)
  · intro hmem
    exact absurd (hb _ hmem) (by decide)

end Written

end Node

namespace Cpp

variable {src : Bytes} {cs : List Char}

/-- What the plain reading makes of a component of a name. -/
def componentText (src : Bytes) (c : Node) : String :=
  if c.kind = "operator_name" then String.join (c.children.map (written src))
  else (c.childOf? ["type_identifier"]).elim (c.written src) (written src)

/-- What the plain reading finds in a name: its components, but for functions with
template arguments. A name that is one component with template arguments is no
plain name. -/
def parts (src : Bytes) (name : Node) : List String :=
  if name.kind = "template_type" ∨ name.kind = "template_function" then []
  else ((components name).filter (·.kind ≠ "template_function")).map (componentText src)

/-- The parts that one component gives. -/
def partsOf (src : Bytes) (c : Node) : List String :=
  if c.kind = "template_function" then [] else [componentText src c]

/-- The parts of components that each give `g`, but for functions with template arguments. -/
theorem flatMap_parts {α : Type} (g : Node → α) (cs : List Node) :
    cs.flatMap (fun c => if c.kind = "template_function" then [] else [g c]) =
      (cs.filter (·.kind ≠ "template_function")).map g := by
  induction cs with
  | nil => rfl
  | cons c cs ih =>
    by_cases hk : c.kind = "template_function"
    · simp [hk, ih]
    · simp [hk, ih]

theorem every_of_mem_components {n : Node} {P : Node → Prop} (h : Every P n) :
    ∀ c ∈ components n, Every P c := by
  induction h with
  | @node n here children ih =>
    obtain ⟨kind, span, cs, fields⟩ := n
    intro c hc
    rw [components] at hc
    split at hc
    · have hall : ∀ cs : List Node, (∀ d ∈ cs, ∀ c ∈ components d, Every P c) →
          ∀ c ∈ componentsAll cs, Every P c := by
        intro cs hcs
        induction cs with
        | nil => simp [componentsAll]
        | cons d ds ihs =>
          rw [forall_mem_cons] at hcs
          intro c hc
          rw [componentsAll, mem_append] at hc
          rcases hc with hc | hc
          · exact hcs.1 c hc
          · exact ihs hcs.2 c hc
      exact hall cs ih c hc
    · rw [mem_singleton.1 hc]
      exact .node here children

section Reads

variable {c : Node}

theorem operatorName_eq (hsrc : Utf8.Spells src cs) (h : Every (Spelt (Token.scan src)) c)
    (hk : c.kind = "operator_name") : operatorName src c = .ok (componentText src c) := by
  have hall : ∀ d ∈ c.children, d.text? src = .ok (d.written src) := by
    intro d hd
    obtain ⟨t, ht, -, hs⟩ := h.here.symbols hk d hd
    exact text?_of_span hsrc ht hs
  have hmap : c.children.mapM (·.text? src) = .ok (c.children.map (written src)) :=
    mapM_eq_ok.2 (forall₂_map_right_iff.2 (forall₂_same.2 hall))
  rw [operatorName, hmap, componentText, if_pos hk]
  rfl

theorem componentText_of_flat (hwf : c.WellFormed src) (hk : c.kind ∈ flatKinds) :
    componentText src c = c.written src := by
  have hne : c.kind ≠ "operator_name" := by
    intro heq
    rw [heq] at hk
    exact absurd hk (by decide)
  have hc : c.childOf? ["type_identifier"] = none := by
    rw [Node.childOf?, hwf.form.children_of_flat hk]
    rfl
  rw [componentText, if_neg hne, hc, elim_none]

theorem plainTemplateType_eq (hsrc : Utf8.Spells src cs) (hwf : c.WellFormed src)
    (h : Every (Spelt (Token.scan src)) c) (hk : c.kind = "template_type") :
    plainTemplateType src c = .ok [componentText src c] := by
  obtain ⟨name, args, hc, hn, hte, ha⟩ := hwf.form.templateType_cases hk
  have hw : name.IsWord (Token.scan src) :=
    (h.child name (by rw [hc]; simp)).here.word (by rw [hn]; decide)
  have hch : c.childOf? ["type_identifier"] = some name := by
    rw [Node.childOf?, hc]
    simp [hn]
  have ht : textsOf src "type_identifier" c = .ok [name.written src] := by
    rw [(textsOf_pair src hc hn ha).1, hw.text? hsrc]
    rfl
  have hco : componentText src c = name.written src := by
    rw [componentText, if_neg (by rw [hk]; decide), hch, elim_some]
  rw [plainTemplateType, ht, hco]
  have hf : (some (name.written src)).filter (!·.isEmpty) = some (name.written src) := by
    simp [Option.filter, (hw.wordy hsrc).ne_empty]
  change Except.ok (((some (name.written src)).filter (!·.isEmpty)).toList) = _
  rw [hf]
  rfl

/-- A reading of a component that makes `g` of it, given what it makes of a type with template
arguments. -/
theorem readComponent_eq {α : Type} {plain : String → α} {template : Node → Except Failure (List α)}
    {g : Node → α} (hsrc : Utf8.Spells src cs) (h : Every (Spelt (Token.scan src)) c)
    (hc : IsQualifier src c ∨ IsLast src c)
    (hp : ¬ (c.kind = "template_type" ∨ c.kind = "template_function") → g c = plain (componentText src c))
    (ht : c.WellFormed src → c.kind = "template_type" → template c = .ok [g c]) :
    readComponent src plain template c = .ok (if c.kind = "template_function" then [] else [g c]) := by
  have hwf : c.WellFormed src := hc.elim And.left And.left
  have hw : c.kind = "namespace_identifier" ∨ c.kind = "identifier" →
      readComponent src plain template c =
        .ok (if c.kind = "template_function" then [] else [g c]) := by
    intro hk
    have hf : c.kind ∈ flatKinds ∧ c.kind ∈ wordKinds ∧ c.kind ≠ "template_function" ∧
        ¬ (c.kind = "template_type" ∨ c.kind = "template_function") := by
      rcases hk with hk | hk
      · rw [hk]; decide
      · rw [hk]; decide
    rw [readComponent_of_name hk, (h.here.word hf.2.1).text? hsrc, if_neg hf.2.2.1,
      hp hf.2.2.2, componentText_of_flat hwf hf.1]
    rfl
  have hty : c.kind = "template_type" → readComponent src plain template c =
      .ok (if c.kind = "template_function" then [] else [g c]) := by
    intro hk
    rw [readComponent_of_templateType hk, ht hwf hk, if_neg (by rw [hk]; decide)]
  rcases hc with ⟨-, hk | hk⟩ | ⟨-, hk⟩
  · exact hw (.inl hk)
  · exact hty hk
  · simp only [mem_cons, not_mem_nil, or_false] at hk
    rcases hk with hk | hk | hk | hk
    · exact hw (.inr hk)
    · exact hty hk
    · rw [readComponent_of_function hk, if_pos hk]
    · rw [readComponent_of_operator hk, operatorName_eq hsrc h hk,
        if_neg (by rw [hk]; decide), hp (by rw [hk]; decide)]
      rfl

end Reads

section Names

variable {n : Node} {scope : List String}

/-- A reading of a name gives what it makes of the components, one after the other. -/
theorem qualifiedPart_eq_flatMap {α : Type} {plain : String → α}
    {template : Node → Except Failure (List α)} {f : Node → List α} (hwf : n.WellFormed src)
    (hk : n.kind ∈ chainKinds)
    (hr : ∀ c ∈ components n, readComponent src plain template c = .ok (f c)) :
    qualifiedPart src plain template (.ok []) n = .ok ((components n).flatMap f) := by
  have hmap : (components n).mapM (readComponent src plain template) =
      .ok ((components n).map f) :=
    mapM_eq_ok.2 (forall₂_map_right_iff.2 (forall₂_same.2 hr))
  rw [qualifiedPart_eq_mapM hwf hk, hmap, flatMap_def]
  rfl

theorem isComponent_of_mem (hwf : n.WellFormed src) (hk : n.kind ∈ chainKinds) :
    ∀ c ∈ components n, IsQualifier src c ∨ IsLast src c := by
  obtain ⟨qualifiers, last, hco, hall, hl, -⟩ := exists_components hwf hk
  intro c hc
  rw [hco, mem_append, mem_singleton] at hc
  rcases hc with hc | rfl
  · exact .inl (hall c hc)
  · exact .inr hl

theorem qualifiedPart_eq (hsrc : Utf8.Spells src cs) (hwf : n.WellFormed src)
    (hk : n.kind ∈ chainKinds) (h : Every (Spelt (Token.scan src)) n) :
    qualifiedPart src id (plainTemplateType src) (.ok []) n = .ok ((components n).flatMap (partsOf src)) := by
  refine qualifiedPart_eq_flatMap hwf hk fun c hc => ?_
  have hs := every_of_mem_components h c hc
  exact readComponent_eq hsrc hs (isComponent_of_mem hwf hk c hc) (fun _ => rfl)
    fun hw ht => plainTemplateType_eq hsrc hw hs ht

/-- The scope of a name that stands within `path`: its own qualifiers if it is a
qualified name. -/
def scopeOf (src : Bytes) (path : List String) (name : Node) : List String :=
  if name.kind = "qualified_identifier" then (parts src name).dropLast else path

theorem parts_of_qualified (h : n.kind = "qualified_identifier") :
    parts src n = (components n).flatMap (partsOf src) := by
  have hne : ¬ (n.kind = "template_type" ∨ n.kind = "template_function") := by
    rw [h]
    decide
  rw [parts, if_neg hne]
  exact (flatMap_parts (componentText src) (components n)).symm

theorem parts_of_single (h : n.kind ∈ ["identifier", "field_identifier", "operator_name"]) :
    parts src n = [componentText src n] := by
  have hnot : ∀ k ∈ ["identifier", "field_identifier", "operator_name"],
      ¬ (k = "template_type" ∨ k = "template_function") ∧ k ≠ "qualified_identifier" := by decide
  obtain ⟨hne, hq⟩ := hnot _ h
  rw [parts, if_neg hne, components_of_ne hq]
  have hk : n.kind ≠ "template_function" := fun heq => hne (.inr heq)
  simp [hk]

/-- The plain reading of a declarator whose function has the name `n`. -/
theorem plainName_eq (hsrc : Utf8.Spells src cs) {declarator : Node}
    (hd : (functionDeclarator? declarator).bind (·.field? "declarator") = some n)
    (hwf : n.WellFormed src) (hkind : n.kind ∈ nameKinds) (h : Every (Spelt (Token.scan src)) n) :
    (parts src n = [] ∧ plainName src scope declarator = .ok ⟨"", []⟩) ∨
      plainName src scope declarator = .ok ⟨(parts src n).getLastD "", scopeOf src scope n⟩ := by
  have hw : n.kind = "identifier" ∨ n.kind = "field_identifier" →
      plainName src scope declarator = .ok ⟨(parts src n).getLastD "", scopeOf src scope n⟩ := by
    intro hk
    have hki : n.kind ∈ ["identifier", "field_identifier", "operator_name"] ∧
        n.kind ∈ wordKinds ∧ n.kind ∈ flatKinds ∧ n.kind ≠ "qualified_identifier" := by
      rcases hk with hk | hk
      · rw [hk]; decide
      · rw [hk]; decide
    rw [scopeOf, if_neg hki.2.2.2, parts_of_single hki.1, componentText_of_flat hwf hki.2.2.1]
    have ht := (h.here.word hki.2.1).text? hsrc
    rcases hk with hk | hk
    · simp only [plainName, hd, hk]
      rw [ht]
      rfl
    · simp only [plainName, hd, hk]
      rw [ht]
      rfl
  simp only [nameKinds, chainKinds, mem_cons, not_mem_nil, or_false] at hkind
  rcases hkind with hk | hk | hk | hk | hk | hk
  · exact .inr (hw (.inr hk))
  · exact .inr (hw (.inl hk))
  · refine .inl ⟨by rw [parts, if_pos (.inl hk)], ?_⟩
    simp only [plainName, hd, hk]
    rfl
  · refine .inl ⟨by rw [parts, if_pos (.inr hk)], ?_⟩
    simp only [plainName, hd, hk]
    rfl
  · refine .inr ?_
    rw [scopeOf, if_neg (by rw [hk]; decide), parts_of_single (by rw [hk]; decide)]
    simp only [plainName, hd, hk]
    rw [operatorName_eq hsrc h hk]
    rfl
  · refine .inr ?_
    have hp := qualifiedPart_eq hsrc hwf (by rw [hk]; decide) h
    rw [qualifiedPart_of_eq hk, ← parts_of_qualified hk] at hp
    rw [plainName_of_qualified hd hk, hp, scopeOf, if_pos hk]
    rfl

theorem angle_not_mem_componentText (hsrc : Utf8.Spells src cs) (h : Every (Spelt (Token.scan src)) n)
    (hn : n.kind = "operator_name" ∨ n.kind = "template_type" ∨ n.kind ∈ wordKinds)
    (hwf : n.WellFormed src) : '<' ∉ (componentText src n).toList := by
  have ha : encoded '<' = [60] := by decide
  rcases hn with hk | hk | hk
  · rw [componentText, if_pos hk, String.toList_join, mem_flatMap]
    rintro ⟨s, hs, hmem⟩
    obtain ⟨d, hd, rfl⟩ := List.mem_map.1 hs
    obtain ⟨t, ht, hki, hsp⟩ := h.here.symbols hk d hd
    refine not_mem_written (text?_of_span hsrc ht hsp) ha ?_ hmem
    rw [text_of_span ht hsp]
    intro hb
    rcases hki with hki | hki
    · exact absurd (Token.bytes_of_word ht hki 60 hb) (by decide)
    · exact absurd (Token.bytes_of_operator ht hki 60 hb) (by decide)
  · obtain ⟨name, args, hc, hna, -, -⟩ := hwf.form.templateType_cases hk
    have hw : name.IsWord (Token.scan src) :=
      (h.child name (by rw [hc]; simp)).here.word (by rw [hna]; decide)
    have hch : n.childOf? ["type_identifier"] = some name := by
      rw [Node.childOf?, hc]
      simp [hna]
    rw [componentText, if_neg (by rw [hk]; decide), hch, elim_some]
    exact (hw.wordy hsrc).angle
  · have hf : ∀ k ∈ wordKinds, k ∈ flatKinds := by decide
    rw [componentText_of_flat hwf (hf _ hk)]
    exact ((h.here.word hk).wordy hsrc).angle

/-- The plain reading of a name finds no template arguments. -/
theorem angle_not_mem_parts (hsrc : Utf8.Spells src cs) (hwf : n.WellFormed src)
    (hki : n.kind ∈ nameKinds) (h : Every (Spelt (Token.scan src)) n) :
    ∀ s ∈ parts src n, '<' ∉ s.toList := by
  intro s hs
  rw [parts] at hs
  split at hs
  · cases hs
  obtain ⟨c, hc, rfl⟩ := List.mem_map.1 hs
  obtain ⟨hmem, hne⟩ := mem_filter.1 hc
  have hsp := every_of_mem_components h c hmem
  rcases mem_cons.1 hki with hf | hch
  · have hq : n.kind ≠ "qualified_identifier" := by rw [hf]; decide
    rw [components_of_ne hq, mem_singleton] at hmem
    rw [hmem] at hsp ⊢
    exact angle_not_mem_componentText hsrc hsp (.inr (.inr (by rw [hf]; decide))) hwf
  · obtain ⟨qualifiers, last, hco, hall, hl, -⟩ := exists_components hwf hch
    rw [hco, mem_append, mem_singleton] at hmem
    rcases hmem with hmem | rfl
    · obtain ⟨hw, hk | hk⟩ := hall c hmem
      · exact angle_not_mem_componentText hsrc hsp (.inr (.inr (by rw [hk]; decide))) hw
      · exact angle_not_mem_componentText hsrc hsp (.inr (.inl hk)) hw
    · obtain ⟨hw, hk⟩ := hl
      simp only [mem_cons, not_mem_nil, or_false] at hk
      rcases hk with hk | hk | hk | hk
      · exact angle_not_mem_componentText hsrc hsp (.inr (.inr (by rw [hk]; decide))) hw
      · exact angle_not_mem_componentText hsrc hsp (.inr (.inl hk)) hw
      · rw [hk] at hne
        exact absurd hne (by decide)
      · exact angle_not_mem_componentText hsrc hsp (.inl hk) hw

theorem baseName_of_not_mem {s : String} (h : '<' ∉ s.toList) : baseName s = s := by
  apply String.toList_injective
  rw [toList_baseName, takeWhile_eq_self_iff]
  intro c hc
  rw [bne_iff_ne]
  rintro rfl
  exact h hc

end Names

end Cpp

end Excerpt
