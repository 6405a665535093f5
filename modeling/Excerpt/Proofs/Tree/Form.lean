import Excerpt.Proofs.Tree.Every
import Mathlib.Data.List.Basic

/-!
# The forms of nodes

The grammar builds nodes of a few forms only: the kind of a node says how many
children it has, of what kinds they are, and which of them carry a field name.
`Form` lists these forms, and a tree is well formed if each of its nodes has
one of them.

Some forms also say what stands in the source. The text of template arguments starts
with `<`: a name that is followed by them is therefore the same name once it is
cut at the first `<`. A comment is a token, so it starts on a row of the source. A
message starts with its keyword. The names of functions, classes and namespaces
are spelled with words (`Legible`).
-/

namespace Excerpt

open Token

namespace Node

/-- The kinds of names that may stand after a qualifier. -/
def chainKinds : List String :=
  ["identifier", "template_type", "template_function", "operator_name", "qualified_identifier"]

def nameKinds : List String :=
  "field_identifier" :: chainKinds

/-- The kinds of nodes that have nothing inside. -/
def flatKinds : List String :=
  ["preproc_directive", "access_specifier", "identifier", "field_identifier",
    "namespace_identifier", "nested_namespace_specifier", "type_identifier", "operator",
    "statement", "argument", "parameter_declaration", "message_kw", "message_name", "enum_kw",
    "enum_name", "service_kw", "service_name"]

def blockKinds : List String :=
  ["compound_statement", "declaration_list", "field_declaration_list", "message_body", "enum_body",
    "service_body"]

/-- The kinds of nodes that hold any number of children without field names. -/
def listKinds : List String :=
  ["parameter_list", "argument_list", "preproc_params", "operator_name", "translation_unit",
    "source_file", "enum", "service"] ++ blockKinds

def classKinds : List String :=
  ["class_specifier", "struct_specifier", "enum_specifier"]

/-- The names in functions, classes and namespaces are spelled with tokens of `T`. -/
structure Legible (T : List Token) (n : Node) : Prop where
  named : n.kind = "function_declarator" → ∀ name ∈ n.children.head?, Every (Spelt T) name
  record : n.kind ∈ classKinds → ∀ c ∈ n.children, c.kind = "type_identifier" → c.IsWord T
  space : n.kind = "namespace_definition" → ∀ c ∈ n.children,
    c.kind ≠ "declaration_list" → c.IsPath T

/-- What a node looks like from outside: its kind, the kinds of its children and
its fields. -/
inductive Form (src : Bytes) : Node → Prop where
  | flat {kind : String} {span : Span} (hkind : kind ∈ flatKinds) :
      Form src ⟨kind, span, [], []⟩
  | comment {t : Token} (ht : t ∈ scan src) : Form src ⟨"comment", t.span, [], []⟩
  /-- A token under its own text, which is no word. -/
  | symbol {kind : String} {span : Span}
      (hkind : kind.toList.head?.any Char.isAlpha = false) :
      Form src ⟨kind, span, [], []⟩
  | templateArguments {span : Span} (htext : (src.slice span.start span.stop).head? = some 60) :
      Form src ⟨"template_argument_list", span, [], []⟩
  | list {kind : String} {span : Span} {children : List Node} (hkind : kind ∈ listKinds) :
      Form src ⟨kind, span, children, []⟩
  | message {t : Token} {span : Span} {children : List Node} (ht : t ∈ scan src)
      (hspelled : t.spelled "message") (hstart : span.start = t.start) :
      Form src ⟨"message", span, children, []⟩
  | templateFunction {span : Span} {name args : Node} (hname : name.kind = "identifier")
      (hargs : args.kind = "template_argument_list") :
      Form src ⟨"template_function", span, [name, args], []⟩
  | templateType {span : Span} {name args : Node} (hname : name.kind = "type_identifier")
      (htext : name.text src ≠ []) (hargs : args.kind = "template_argument_list") :
      Form src ⟨"template_type", span, [name, args], []⟩
  | qualified {span : Span} {qualifier name : Node}
      (hqualifier : qualifier.kind = "namespace_identifier" ∨ qualifier.kind = "template_type")
      (hname : name.kind ∈ chainKinds) :
      Form src ⟨"qualified_identifier", span, [qualifier, name], []⟩
  | functionDeclarator {span : Span} {name params : Node} (hname : name.kind ∈ nameKinds)
      (hspelt : Every (Spelt (scan src)) name) (hparams : params.kind = "parameter_list") :
      Form src ⟨"function_declarator", span, [name, params], [("declarator", 0), ("parameters", 1)]⟩
  | pointerToFunction {span : Span} {function : Node}
      (hfunction : function.kind = "function_declarator") :
      Form src ⟨"pointer_declarator", span, [function], [("declarator", 0)]⟩
  | reference {span : Span} {function : Node} (hfunction : function.kind = "function_declarator") :
      Form src ⟨"reference_declarator", span, [function], []⟩
  | variableDeclarator {kind : String} {span : Span} {name : Node}
      (hkind : kind ∈ ["array_declarator", "pointer_declarator"])
      (hname : name.kind ∈ nameKinds) : Form src ⟨kind, span, [name], []⟩
  | initDeclarator {span : Span} {declarator : Node}
      (hdeclarator : declarator.kind ∈ "array_declarator" :: "pointer_declarator" :: nameKinds) :
      Form src ⟨"init_declarator", span, [declarator], []⟩
  | variableDeclaration {span : Span} {declarator : Node}
      (hdeclarator : declarator.kind = "init_declarator") :
      Form src ⟨"declaration", span, [declarator], []⟩
  | prototype {span : Span} {function : Node} (hfunction : function.kind = "function_declarator") :
      Form src ⟨"field_declaration", span, [function], [("declarator", 0)]⟩
  | functionDefinition {span : Span} {declarator body : Node}
      (hbody : body.kind = "compound_statement") :
      Form src ⟨"function_definition", span, [declarator, body], [("declarator", 0), ("body", 1)]⟩
  | call {span : Span} {callee args : Node} (hcallee : callee.kind ∈ nameKinds)
      (hargs : args.kind = "argument_list") :
      Form src ⟨"call_expression", span, [callee, args], [("function", 0), ("arguments", 1)]⟩
  | expression {span : Span} {call : Node} (hcall : call.kind = "call_expression") :
      Form src ⟨"expression_statement", span, [call], []⟩
  | definition {span : Span} {name : Node} (hname : name.kind = "identifier") :
      Form src ⟨"preproc_def", span, [name], [("name", 0)]⟩
  | functionLikeDefinition {span : Span} {name params : Node} (hname : name.kind = "identifier")
      (hparams : params.kind = "preproc_params") :
      Form src ⟨"preproc_function_def", span, [name, params], [("name", 0), ("parameters", 1)]⟩
  | space {span : Span} {body : Node} (hbody : body.kind = "declaration_list") :
      Form src ⟨"namespace_definition", span, [body], [("body", 0)]⟩
  | namedSpace {span : Span} {name body : Node} (hbody : body.kind = "declaration_list")
      (hname : name.kind = "namespace_identifier" ∨ name.kind = "nested_namespace_specifier")
      (hpath : name.IsPath (scan src)) :
      Form src ⟨"namespace_definition", span, [name, body], [("name", 0), ("body", 1)]⟩
  | record {kind : String} {span : Span} {name body : Option Node} {fields : List (String × Nat)}
      (hkind : kind ∈ classKinds)
      (hname : ∀ n ∈ name, n.kind = "type_identifier" ∧ n.IsWord (scan src))
      (hbody : ∀ n ∈ body, n.kind = "field_declaration_list")
      (hfields : fields.lookup "name" = name.map fun _ => 0) :
      Form src ⟨kind, span, name.toList ++ body.toList, fields⟩
  | template {span : Span} {item : Option Node} :
      Form src ⟨"template_declaration", span, item.toList, []⟩

namespace Form

variable {src : Bytes} {n : Node} {k kind : String} {P : Prop}

theorem absurd_kinds {kinds kinds' : List String} (h : k ∈ kinds) (hk : k ∈ kinds')
    (hnot : ∀ k ∈ kinds', k ∉ kinds) : P :=
  absurd h (hnot k hk)

theorem absurd_kind {kinds : List String} (h : k ∈ kinds) (hk : k = kind) (hnot : kind ∉ kinds) : P :=
  absurd (hk ▸ h) hnot

theorem absurd_symbol (h : k.toList.head?.any Char.isAlpha = false)
    (hk : k = kind) (ha : kind.toList.head?.any Char.isAlpha) : P := by
  rw [hk, ha] at h
  cases h

theorem children_of_flat (h : Form src n) (hk : n.kind ∈ flatKinds) : n.children = [] := by
  cases h with
  | flat hki => rfl
  | symbol hki => rfl
  | templateArguments ht => rfl
  | list hki | record hki | variableDeclarator hki => exact absurd_kinds hki hk (by decide)
  | _ => simp [flatKinds] at hk

theorem span_of_comment (h : Form src n) (hk : n.kind = "comment") :
    ∃ t ∈ scan src, n.span = t.span := by
  cases h with
  | comment ht => exact ⟨_, ht, rfl⟩
  | symbol hki | flat hki | list hki | record hki | variableDeclarator hki =>
    cases hk
    exact absurd hki (by decide)
  | _ => simp at hk

theorem start_of_message (h : Form src n) (hk : n.kind = "message") :
    ∃ t ∈ scan src, t.spelled "message" ∧ n.start = t.start := by
  cases h with
  | message ht hs hst => exact ⟨_, ht, hs, hst⟩
  | symbol hki | flat hki | list hki | record hki | variableDeclarator hki =>
    cases hk
    exact absurd hki (by decide)
  | _ => simp at hk

theorem space_cases (h : Form src n) (hk : n.kind = "namespace_definition") :
    (∃ body, n.children = [body] ∧ n.fields = [("body", 0)] ∧ body.kind = "declaration_list") ∨
    ∃ name body, n.children = [name, body] ∧ n.fields = [("name", 0), ("body", 1)] ∧
      body.kind = "declaration_list" ∧
      (name.kind = "namespace_identifier" ∨ name.kind = "nested_namespace_specifier") := by
  cases h with
  | space hb => exact .inl ⟨_, rfl, rfl, hb⟩
  | namedSpace hb hn hp => exact .inr ⟨_, _, rfl, rfl, hb, hn⟩
  | symbol hki | flat hki | list hki | record hki | variableDeclarator hki =>
    cases hk
    exact absurd hki (by decide)
  | _ => simp at hk

theorem qualified_cases (h : Form src n) (hk : n.kind = "qualified_identifier") :
    ∃ qualifier name, n.children = [qualifier, name] ∧
      (qualifier.kind = "namespace_identifier" ∨ qualifier.kind = "template_type") ∧
      name.kind ∈ chainKinds := by
  cases h with
  | qualified hq hn => exact ⟨_, _, rfl, hq, hn⟩
  | symbol hki | flat hki | list hki | record hki | variableDeclarator hki =>
    cases hk
    exact absurd hki (by decide)
  | _ => simp at hk

theorem functionDeclarator_cases (h : Form src n) (hk : n.kind = "function_declarator") :
    ∃ name params, n.children = [name, params] ∧
      n.fields = [("declarator", 0), ("parameters", 1)] ∧ name.kind ∈ nameKinds ∧
      params.kind = "parameter_list" := by
  cases h with
  | functionDeclarator hn hs hp => exact ⟨_, _, rfl, rfl, hn, hp⟩
  | symbol hki | flat hki | list hki | record hki | variableDeclarator hki =>
    cases hk
    exact absurd hki (by decide)
  | _ => simp at hk

theorem functionDefinition_cases (h : Form src n) (hk : n.kind = "function_definition") :
    ∃ declarator body, n.children = [declarator, body] ∧ n.fields = [("declarator", 0), ("body", 1)] := by
  cases h with
  | functionDefinition hb => exact ⟨_, _, rfl, rfl⟩
  | symbol hki | flat hki | list hki | record hki | variableDeclarator hki =>
    cases hk
    exact absurd hki (by decide)
  | _ => simp at hk

theorem prototype_cases (h : Form src n) (hk : n.kind = "field_declaration") :
    ∃ function, n.children = [function] ∧ n.fields = [("declarator", 0)] ∧
      function.kind = "function_declarator" := by
  cases h with
  | prototype hf => exact ⟨_, rfl, rfl, hf⟩
  | symbol hki | flat hki | list hki | record hki | variableDeclarator hki =>
    cases hk
    exact absurd hki (by decide)
  | _ => simp at hk

theorem call_cases (h : Form src n) (hk : n.kind = "call_expression") :
    ∃ callee args, n.children = [callee, args] ∧
      n.fields = [("function", 0), ("arguments", 1)] ∧ args.kind = "argument_list" := by
  cases h with
  | call hc ha => exact ⟨_, _, rfl, rfl, ha⟩
  | symbol hki | flat hki | list hki | record hki | variableDeclarator hki =>
    cases hk
    exact absurd hki (by decide)
  | _ => simp at hk

theorem templateFunction_cases (h : Form src n) (hk : n.kind = "template_function") :
    ∃ name args, n.children = [name, args] ∧ name.kind = "identifier" ∧
      args.kind = "template_argument_list" := by
  cases h with
  | templateFunction hn ha => exact ⟨_, _, rfl, hn, ha⟩
  | symbol hki | flat hki | list hki | record hki | variableDeclarator hki =>
    cases hk
    exact absurd hki (by decide)
  | _ => simp at hk

theorem templateType_cases (h : Form src n) (hk : n.kind = "template_type") :
    ∃ name args, n.children = [name, args] ∧ name.kind = "type_identifier" ∧ name.text src ≠ [] ∧
      args.kind = "template_argument_list" := by
  cases h with
  | templateType hn ht ha => exact ⟨_, _, rfl, hn, ht, ha⟩
  | symbol hki | flat hki | list hki | record hki | variableDeclarator hki =>
    cases hk
    exact absurd hki (by decide)
  | _ => simp at hk

theorem head_text_of_templateArguments (h : Form src n) (hk : n.kind = "template_argument_list") :
    (n.text src).head? = some 60 := by
  cases h with
  | templateArguments ht => exact ht
  | symbol hki | flat hki | list hki | record hki | variableDeclarator hki =>
    cases hk
    exact absurd hki (by decide)
  | _ => simp at hk

theorem record_cases (h : Form src n) (hk : n.kind ∈ classKinds) :
    ∃ name body : Option Node, n.children = name.toList ++ body.toList ∧
      (∀ c ∈ name, c.kind = "type_identifier") ∧ n.field? "name" = name ∧
      ∀ c ∈ body, c.kind = "field_declaration_list" := by
  cases h with
  | @record _ _ name body _ hki hna hb hf =>
    refine ⟨name, body, rfl, fun n hn => (hna n hn).1, ?_, hb⟩
    rw [field?, hf]
    cases name <;> rfl
  | symbol hki =>
    have hno : ∀ k ∈ classKinds, k.toList.head?.any Char.isAlpha := by decide
    exact absurd_symbol hki rfl (hno _ hk)
  | flat hki | list hki | variableDeclarator hki => exact absurd_kinds hki hk (by decide)
  | _ => simp [classKinds] at hk

theorem legible (h : Form src n) : Legible (scan src) n := by
  cases h with
  | functionDeclarator hn hs hp =>
    refine ⟨fun _ => ?_, by simp [classKinds], by simp⟩
    rintro name ⟨⟩
    exact hs
  | record hki hna hb =>
    refine ⟨fun hk => absurd_kind hki hk (by decide), fun _ c hc hk => ?_,
      fun hk => absurd_kind hki hk (by decide)⟩
    rcases List.mem_append.1 hc with hc | hc
    · exact (hna c (Option.mem_toList.1 hc)).2
    · exact absurd (hk.symm.trans (hb c (Option.mem_toList.1 hc))) (by decide)
  | namedSpace hb hn hp => exact ⟨by simp, by simp [classKinds], by simp [hb, hp]⟩
  | list hki | variableDeclarator hki =>
    exact ⟨fun hk => absurd_kind hki hk (by decide), fun hk => absurd_kinds hki hk (by decide),
      fun hk => absurd_kind hki hk (by decide)⟩
  | _ => exact ⟨by simp, by simp [classKinds], by simp [*]⟩

/-- The kinds of nodes that have one child at most. -/
def singleKinds : List String :=
  ["template_declaration", "declaration", "init_declarator", "array_declarator",
    "pointer_declarator"]

theorem children_of_single (h : Form src n) (hk : n.kind ∈ singleKinds) :
    ∃ item : Option Node, n.children = item.toList := by
  cases h with
  | template => exact ⟨_, rfl⟩
  | variableDeclaration hd => exact ⟨some _, rfl⟩
  | initDeclarator hd => exact ⟨some _, rfl⟩
  | variableDeclarator hki => exact ⟨some _, rfl⟩
  | pointerToFunction hf => exact ⟨some _, rfl⟩
  | flat hki => exact ⟨none, rfl⟩
  | symbol hki => exact ⟨none, rfl⟩
  | list hki | record hki => exact absurd_kinds hki hk (by decide)
  | _ => simp [singleKinds] at hk

end Form

/-- Every node of the tree has one of the forms. -/
abbrev WellFormed (src : Bytes) (n : Node) : Prop :=
  Every (Form src) n

theorem Every.form {src : Bytes} {n : Node} (h : WellFormed src n) : Form src n :=
  h.here

/-- The kinds of nodes that are items of their own, or hold items. -/
def outerKinds : List String :=
  ["comment", "function_definition", "template_declaration", "namespace_definition"] ++ classKinds

/-- The node lies within one declaration: it has one of the forms, and is no item. -/
structure Inner (src : Bytes) (n : Node) : Prop where
  form : Form src n
  kind : n.kind ∉ outerKinds

end Node

end Excerpt
