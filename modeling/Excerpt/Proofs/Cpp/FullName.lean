import Excerpt.Proofs.Cpp.Overload
import Excerpt.Proofs.Macro.Walk

/-!
# The full reading of a name

The search for the first declaration reads the name of a function with its
template arguments. `leafText` is the last part that it finds: of a single name the
name itself, and of a qualified name the last component that is no function with
template arguments. The reading never fails in the tree of a text
(`exists_fullName`), and what it finds is, without the arguments, what the plain
reading finds (`exists_leafText`).
-/

namespace Excerpt.Cpp

open Node List Option

variable {src : Bytes} {cs : List Char} {c n : Node}

/-- What the full reading makes of a component of a name: that of a template is the name with the
arguments behind it. -/
def fullText (src : Bytes) (c : Node) : String :=
  if c.kind = "template_type" ∨ c.kind = "template_function" then String.join (c.children.map (written src))
  else componentText src c

/-- What one component gives in the full reading. -/
def fullPartsOf (src : Bytes) (c : Node) : List Part :=
  if c.kind = "template_function" then [] else [some (fullText src c)]

/-- The last part of a name in the full reading. -/
def leafText (src : Bytes) (name : Node) : Option String :=
  if name.kind = "template_type" then none
  else if name.kind = "template_function" then some (fullText src name)
  else ((components name).filter (·.kind ≠ "template_function")).getLast?.map (fullText src)

theorem fullText_of_pair {name args : Node} (hc : c.children = [name, args])
    (hkind : c.kind = "template_type" ∨ c.kind = "template_function") :
    fullText src c = name.written src ++ args.written src := by
  rw [fullText, if_pos hkind, hc]
  simp [String.join]

section Read

variable (hwf : c.WellFormed src) (hreadable : Every (Readable src) c)

include hwf hreadable

theorem templateType_eq (hsrc : Utf8.Spells src cs) (h : Every (Spelt (Token.scan src)) c)
    (hkind : c.kind = "template_type") : templateType src c = .ok [some (fullText src c)] := by
  obtain ⟨name, args, hc, hn, -, ha⟩ := hwf.form.templateType_cases hkind
  obtain ⟨hna, hargsText⟩ := textsOf_pair src hc hn ha
  have hw : name.IsWord (Token.scan src) :=
    (h.child name (by rw [hc]; simp)).here.word (by rw [hn]; decide)
  have hem : (name.written src).isEmpty = false := by
    simpa using (hw.wordy hsrc).ne_empty
  have hr : args.text? src = .ok (args.written src) :=
    (hreadable.child args (by rw [hc]; simp)).here.text?
  rw [templateType, hna, hargsText, hw.text? hsrc, hr, fullText_of_pair hc (.inl hkind)]
  change Except.ok [some (if (name.written src).isEmpty then _ else _)] = _
  rw [hem]
  rfl

theorem templateFunction_eq (hkind : c.kind = "template_function") :
    templateFunction src c = .ok (fullText src c) := by
  obtain ⟨name, args, hc, hn, ha⟩ := hwf.form.templateFunction_cases hkind
  have hna : textsOf src "identifier" c = (do return [← name.text? src]) := by
    rw [textsOf, hc]
    simp [List.filter, hn, ha]
  have hargsText : textsOf src "template_argument_list" c = (do return [← args.text? src]) := by
    rw [textsOf, hc]
    simp [List.filter, hn, ha]
  have hr : ∀ d ∈ c.children, d.text? src = .ok (d.written src) := fun d hd =>
    (hreadable.child d hd).here.text?
  rw [templateFunction, hna, hargsText, hr name (by rw [hc]; simp),
    hr args (by rw [hc]; simp), fullText_of_pair hc (.inr hkind)]
  rfl

end Read

theorem leafText_of_single (h : n.kind ∈ ["identifier", "field_identifier", "operator_name"]) :
    leafText src n = some (componentText src n) := by
  have hnot : ∀ k ∈ ["identifier", "field_identifier", "operator_name"],
      k ≠ "template_type" ∧ k ≠ "template_function" ∧ k ≠ "qualified_identifier" := by decide
  obtain ⟨ht, hf, hq⟩ := hnot _ h
  rw [leafText, if_neg ht, if_neg hf, components_of_ne hq]
  simp [hf, ht, fullText]

section Names

variable (hsrc : Utf8.Spells src cs) (hwf : n.WellFormed src) (hkind : n.kind ∈ nameKinds)
  (h : Every (Spelt (Token.scan src)) n)

include hsrc hwf hkind h

/-- The full reading of a function whose name is `n` finds the last part of the name. -/
theorem exists_fullName {f : Node} (hn : f.field? "declarator" = some n)
    (hreadable : Every (Readable src) n) (scope : List String) :
    ∃ names, fullName src scope f = .ok ⟨leafText src n, names⟩ := by
  have ht : n.text? src = .ok (n.written src) := hreadable.here.text?
  have hw : n.kind = "identifier" ∨ n.kind = "field_identifier" →
      fullName src scope f = .ok ⟨leafText src n, scope.map some⟩ := by
    intro hk
    have hki : n.kind ∈ ["identifier", "field_identifier", "operator_name"] ∧ n.kind ∈ flatKinds := by
      rcases hk with hk | hk
      · rw [hk]; decide
      · rw [hk]; decide
    rw [leafText_of_single hki.1, componentText_of_flat hwf hki.2]
    rcases hk with hk | hk
    · simp only [fullName, hn, hk]
      rw [ht]
      rfl
    · simp only [fullName, hn, hk]
      rw [ht]
      rfl
  simp only [nameKinds, chainKinds, mem_cons, not_mem_nil, or_false] at hkind
  rcases hkind with hk | hk | hk | hk | hk | hk
  · exact ⟨_, hw (.inr hk)⟩
  · exact ⟨_, hw (.inl hk)⟩
  · refine ⟨[], ?_⟩
    rw [leafText, if_pos hk]
    simp only [fullName, hn, hk]
    rfl
  · refine ⟨scope.map some, ?_⟩
    rw [leafText, if_neg (by rw [hk]; decide), if_pos hk]
    simp only [fullName, hn, hk]
    rw [templateFunction_eq hwf hreadable hk]
    rfl
  · refine ⟨scope.map some, ?_⟩
    rw [leafText_of_single (by rw [hk]; decide)]
    simp only [fullName, hn, hk]
    rw [operatorName_eq hsrc h hk]
    rfl
  · have hch : n.kind ∈ chainKinds := by rw [hk]; decide
    have hp : qualifiedPart src some (templateType src) (.ok []) n =
        .ok ((components n).flatMap (fullPartsOf src)) := by
      refine qualifiedPart_eq_flatMap hwf hch fun c hc => ?_
      have hs := every_of_mem_components h c hc
      have hr := every_of_mem_components hreadable c hc
      exact readComponent_eq (g := some ∘ fullText src) hsrc hs (isComponent_of_mem hwf hch c hc)
        (fun hne => by rw [Function.comp_apply, fullText, if_neg hne])
        fun hwe hty => templateType_eq hwe hr hsrc hs hty
    have hf : (components n).flatMap (fullPartsOf src) =
        ((components n).filter (·.kind ≠ "template_function")).map (some ∘ fullText src) :=
      flatMap_parts (some ∘ fullText src) (components n)
    rw [qualifiedPart_of_eq hk, hf] at hp
    rw [leafText, if_neg (by rw [hk]; decide), if_neg (by rw [hk]; decide),
      fullName_of_qualified hn hk, hp]
    generalize (components n).filter (·.kind ≠ "template_function") = read
    refine ⟨(read.map (some ∘ fullText src)).dropLast, ?_⟩
    simp only [Outcome.ok_bind, getLast?_map]
    cases read.getLast? with
    | none => rfl
    | some c => rfl

end Names

/-- Without template arguments, the full reading of a component is the plain one. -/
theorem baseName_fullText (hwf : c.WellFormed src) (hreadable : Every (Readable src) c)
    (hkind : c.kind ≠ "template_function") (ha : '<' ∉ (componentText src c).toList) :
    baseName (fullText src c) = componentText src c := by
  by_cases ht : c.kind = "template_type"
  · obtain ⟨name, args, hc, hn, -, har⟩ := hwf.form.templateType_cases ht
    have hch : c.childOf? ["type_identifier"] = some name := by
      rw [Node.childOf?, hc]
      simp [hn]
    have hmem : args ∈ c.children := by rw [hc]; simp
    have hr : args.text? src = .ok (args.written src) := (hreadable.child args hmem).here.text?
    have hco : componentText src c = name.written src := by
      rw [componentText, if_neg (by rw [ht]; decide), hch, elim_some]
    rw [fullText_of_pair hc (.inl ht), baseName_append (head_text?_of_templateArguments (hwf.child
      args hmem) har hr), ← hco, baseName_of_not_mem ha]
  · rw [fullText, if_neg (not_or.2 ⟨ht, hkind⟩), baseName_of_not_mem ha]

theorem component_wellFormed (hwf : n.WellFormed src) (hkind : n.kind ∈ nameKinds) :
    ∀ c ∈ components n, c.WellFormed src := by
  rcases mem_cons.1 hkind with hf | hch
  · rw [components_of_ne (by rw [hf]; decide), forall_mem_singleton]
    exact hwf
  · intro c hc
    exact (isComponent_of_mem hwf hch c hc).elim And.left And.left

/-- A name that the plain reading ends with is, without template arguments, the one that the full reading
ends with. -/
theorem exists_leafText (hsrc : Utf8.Spells src cs) (hwf : n.WellFormed src)
    (hkind : n.kind ∈ nameKinds) (h : Every (Spelt (Token.scan src)) n)
    (hreadable : Every (Readable src) n) {name : String} (hn : (parts src n).getLast? = some name) :
    ∃ s, leafText src n = some s ∧ baseName s = name := by
  have ha := angle_not_mem_parts hsrc hwf hkind h name (mem_of_getLast? hn)
  rw [parts] at hn
  split at hn
  · cases hn
  · next hnot =>
      obtain ⟨ht, hf⟩ := not_or.1 hnot
      rw [getLast?_map, map_eq_some_iff] at hn
      obtain ⟨c, hc, rfl⟩ := hn
      obtain ⟨hmem, hne⟩ := mem_filter.1 (mem_of_getLast? hc)
      refine ⟨fullText src c, ?_, ?_⟩
      · rw [leafText, if_neg ht, if_neg hf, hc, map_some]
      · exact baseName_fullText (component_wellFormed hwf hkind c hmem)
          (every_of_mem_components hreadable c hmem) (of_decide_eq_true hne) ha

end Excerpt.Cpp
