import Excerpt.Proofs.Cpp.FirstNamed

/-!
# A function and its overloads

A function can be asked for by its name, or by its name and a part of its
parameters. The first way gives what stands for the first declaration of the name,
and the second way the first of all overloads whose parameters hold the part. Every
list of parameters holds the empty text. The two ways still differ: the search for
all overloads does not enter templates and classes without names, and
does not know a name by its template arguments. So they agree exactly if the
first declaration of the name is one that it comes to (`Collected`).
-/

namespace Excerpt.Cpp

open Node List Option Outcome Report

variable {src : Bytes} {cs : List Char} {name : String} {n m d root : Node} {p q : Place}
  {above ns : List Node} {P : Node → Prop} {r : Option Node}

/-! ## What stands for a node -/

theorem Below.exists_standsFor (h : Below n p above m) :
    ∃ q outer, q <+: p ∧ Below n q outer (standsFor above m) ∧ m ∈ (standsFor above m).preorder := by
  induction h with
  | here n => exact ⟨[], [], prefix_rfl, .here n, mem_preorder_self n⟩
  | @child n c m i place above hc h ih =>
    rw [standsFor]
    split
    · exact ⟨[], [], nil_prefix, .here n,
        Node.mem_preorder.2 (.inr ⟨c, mem_of_getElem? hc, h.mem_preorder⟩)⟩
    · obtain ⟨q, outer, hq, hb, hmem⟩ := ih
      exact ⟨i :: q, n :: outer, (prefix_cons_inj i).2 hq, .child hc hb, hmem⟩

theorem standsFor_of_entered (h : ∀ a ∈ above, Entered a) (d : Node) : standsFor above d = d := by
  induction above with
  | nil => rfl
  | cons a above ih =>
    obtain ⟨ha, hab⟩ := forall_mem_cons.1 h
    rw [standsFor, if_neg (fun hk => ha.1 hk.1), ih hab]

theorem standsFor_concat (h : ∀ a ∈ above, Entered a) (hki : m.kind = "template_declaration")
    (hf : d.kind = "function_definition") : standsFor (above ++ [m]) d = m := by
  induction above with
  | nil => rw [nil_append, standsFor, if_pos ⟨hki, hf⟩]
  | cons a above ih =>
    obtain ⟨ha, hab⟩ := forall_mem_cons.1 h
    rw [cons_append, standsFor, if_neg (fun hk => ha.1 hk.1), ih hab]

/-! ## Declarations are not empty -/

section Nonempty

variable {c : Node} {s : String}

theorem join_written_eq_empty {ns : List Node} (h : ∀ c ∈ ns, c.written src = "") :
    String.join (ns.map (written src)) = "" := by
  induction ns with
  | nil => rfl
  | cons c ns ih =>
    obtain ⟨hc, hns⟩ := forall_mem_cons.1 h
    rw [map_cons, String.join_cons, hc, ih hns]
    rfl

theorem componentText_eq_empty (h : Every (fun e => e.written src = "") c) : componentText src c = "" := by
  rw [componentText]
  split
  · exact join_written_eq_empty fun e he => (h.child e he).here
  · cases hc : c.childOf? ["type_identifier"] with
    | none => exact h.here
    | some e => exact (h.child e (mem_of_find?_eq_some hc)).here

theorem fullText_eq_empty (h : Every (fun e => e.written src = "") c) : fullText src c = "" := by
  rw [fullText]
  split
  · exact join_written_eq_empty fun e he => (h.child e he).here
  · exact componentText_eq_empty h

theorem leafText_eq_empty (h : Every (fun e => e.written src = "") n)
    (hs : leafText src n = some s) : s = "" := by
  rw [leafText] at hs
  split at hs
  · cases hs
  split at hs
  · rw [← some.inj hs]
    exact fullText_eq_empty h
  · obtain ⟨c, hc, rfl⟩ := map_eq_some_iff.1 hs
    exact fullText_eq_empty (every_of_mem_components h c (mem_of_mem_filter (mem_of_getLast? hc)))

theorem parts_eq_empty (h : Every (fun e => e.written src = "") n)
    (hs : s ∈ parts src n) : s = "" := by
  rw [parts] at hs
  split at hs
  · cases hs
  · obtain ⟨c, hc, rfl⟩ := List.mem_map.1 hs
    exact componentText_eq_empty (every_of_mem_components h c (mem_of_mem_filter hc))

theorem Declaring.start_lt_stop (h : Declaring src name d) (hname : name ≠ "")
    (hl : Every Layout d) : d.start < d.stop := by
  by_contra hnot
  have hem : Every (fun e => e.written src = "") d := by
    refine every_of_forall fun e he => ?_
    obtain ⟨hst, hstop⟩ := hl.covers he
    have hnil : e.text src = [] := by
      rw [Node.text, Bytes.slice, drop_eq_nil_iff, length_take]
      omega
    rw [written, hnil]
    exact Utf8.decodeLossy_of_decode Utf8.Spells.nil.decode
  apply hname
  cases h with
  | function hk hna =>
    obtain ⟨n, s, hn, hs, hor⟩ := hna
    cases leafText_eq_empty (every_nameOfFunction hem hn) hs
    rcases hor with rfl | rfl
    · rfl
    · decide
  | member hk hna =>
    obtain ⟨n, hn, hla⟩ := hna
    exact parts_eq_empty (every_nameOfFunction hem hn) (mem_of_getLast? hla)

end Nonempty

/-! ## The first of all overloads -/

theorem contains_empty (s : String) : Text.contains s "" := by
  rw [Text.contains]
  cases s.toList with
  | nil => rfl
  | cons c cs => rfl

theorem exists_parametersText (h : Every (Readable src) n) : ∃ s, parametersText src n = .ok s := by
  rw [parametersText]
  cases hp : n.field? "parameters" with
  | none => exact ⟨_, rfl⟩
  | some params => exact ⟨_, (h.field hp).here.text?⟩

/-- In the tree of a text, the parameters of every function can be read. -/
theorem exists_signature (h : Every (Readable src) n) : ∃ s, signature src n = .ok s := by
  rw [signature]
  generalize ht : (if n.kind == "template_declaration" then
    (n.childOf? ["function_definition"]).getD n else n) = target
  have hr : Every (Readable src) target := by
    rw [← ht]
    split
    · cases hc : n.childOf? ["function_definition"] with
      | none => exact h
      | some c => exact h.child c (mem_of_find?_eq_some hc)
    · exact h
  split
  · split
    · next hfind => exact exists_parametersText (hr.child _ (mem_of_find?_eq_some hfind))
    · exact ⟨_, rfl⟩
  · split
    · next hb =>
        obtain ⟨declarator, hfi, hf⟩ := bind_eq_some_iff.1 hb
        exact exists_parametersText (functionDeclarator?_every (hr.field hfi) hf).1
    · exact ⟨_, rfl⟩

theorem withSignature_empty (h : ∀ n ∈ ns, ∃ s, signature src n = .ok s) :
    withSignature src "" ns = .ok ns := by
  obtain ⟨sigs, hs⟩ := exists_mapM_iff.2 h
  have hlen := (mapM_eq_ok.1 hs).length_eq
  rw [withSignature, hs, ok_bind]
  simp only [contains_empty, filter_true]
  rw [map_fst_zip hlen.le]
  rfl

/-- If the part is empty, the first of all overloads is given. -/
theorem outcome_overloadWith (hall : overloads src root name = .ok ns)
    (h : ∀ n ∈ ns, Every (Readable src) n) :
    (overloadWith src root name "").outcome = definition? src name ns.head? := by
  have hsig : ∀ n ∈ ns, ∃ s, signature src n = .ok s := fun n hn => exists_signature (h n hn)
  rw [overloadWith, hall]
  change Report.outcome (if ns.isEmpty then pure none else _) = _
  cases ns with
  | nil => rfl
  | cons n more =>
    rw [if_neg (by simp), withSignature_empty hsig, outcome_bind]
    change (Except.ok (n :: more) >>= _) = _
    rw [ok_bind]
    cases more with
    | nil =>
      rw [outcome_bind]
      rfl
    | cons m more =>
      obtain ⟨sigs, hs⟩ := exists_mapM
        (f := fun n => (liftM (signature src n) : Report String)) hsig
      rw [outcome_bind, hs]
      change Report.outcome (liftM (n.definition src name) >>= _) = _
      rw [outcome_bind]
      rfl

/-! ## Collected declarations -/

/-- The search for all overloads comes to the declaration `d` below the nodes `above`, and knows it by the
name. -/
structure Collected (src : Bytes) (name : String) (above : List Node) (d : Node) : Prop where
  named : PlainlyNamed src name d
  entered : (∀ a ∈ above, Entered a) ∨ ∃ outer t, above = outer ++ [t] ∧
    t.kind = "template_declaration" ∧ d.kind = "function_definition" ∧ ∀ a ∈ outer, Entered a

/-- The place of an overload: that of the declaration, or of the template around it. -/
inductive StandsAt (q : Place) (m : Node) : Place → Prop where
  | itself : StandsAt q m q
  | template (hkind : m.kind = "template_declaration") : StandsAt q m (q ++ [0])

section Collected

variable (hwf : root.WellFormed src)

include hwf

/-- An overload stands for a declaration that the search comes to. -/
theorem exists_collected_of_hit (h : Hit src ⟨name, []⟩ [] root q m) :
    ∃ p above d, Below root p above d ∧ Collected src name above d ∧
      (d.kind = "function_definition" ∨ d.kind = "field_declaration") ∧ standsFor above d = m ∧
      StandsAt q m p := by
  obtain ⟨above, hb, hen, ho⟩ := h
  obtain ⟨d, hr, hn⟩ := overload_functionsOf.1 ho
  cases hr with
  | function hk =>
    exact ⟨q, above, m, hb, ⟨hn, .inl hen⟩, .inl hk,
      standsFor_of_entered hen m, .itself⟩
  | member hk =>
    exact ⟨q, above, m, hb, ⟨hn, .inl hen⟩, .inr hk,
      standsFor_of_entered hen m, .itself⟩
  | template hk hd hf =>
    have hm := hwf.of_mem_preorder hb.mem_preorder
    have hfi : m.children[0]? = some d := by
      obtain ⟨item, hit⟩ := hm.form.children_of_single (by rw [hk]; decide)
      rw [hit] at hd
      obtain rfl := mem_toList.1 hd
      rw [hit]
      rfl
    exact ⟨q ++ [0], above ++ [m], d, hb.concat hfi, ⟨hn, .inr ⟨above, m, rfl, hk, hf,
      hen⟩⟩, .inl hf, standsFor_concat hen hk hf, .template hk⟩

/-- What stands for a declaration that the search comes to is an overload. -/
theorem Collected.exists_hit (h : Collected src name above d) (hb : Below root p above d)
    (hk : d.kind = "function_definition" ∨ d.kind = "field_declaration") :
    ∃ q, Hit src ⟨name, []⟩ [] root q (standsFor above d) ∧ StandsAt q (standsFor above d) p := by
  rcases h.entered with hen | ⟨outer, t, rfl, hte, hf, hen⟩
  · rw [standsFor_of_entered hen]
    refine ⟨p, ⟨above, hb, hen, overload_functionsOf.2 ⟨d, ?_, h.named⟩⟩, .itself⟩
    rcases hk with hk | hk
    · exact .function hk
    · have hd := hwf.of_mem_preorder hb.mem_preorder
      obtain ⟨f, hch, hfi, hf⟩ := hd.form.prototype_cases hk
      exact .member hk (by rw [Node.field?, hfi, hch]; rfl) hf
  · rw [standsFor_concat hen hte hf]
    obtain ⟨q, i, rfl, ht, hc⟩ := hb.exists_of_concat
    have hm := hwf.of_mem_preorder ht.mem_preorder
    obtain ⟨item, hit⟩ := hm.form.children_of_single (by rw [hte]; decide)
    have hi : i = 0 := by
      obtain ⟨hlt, -⟩ := List.getElem?_eq_some_iff.1 hc
      rw [hit] at hlt
      have hle := length_toList_le (o := item)
      omega
    subst hi
    exact ⟨q, ⟨outer, ht, hen, overload_functionsOf.2
      ⟨d, .template hte (mem_of_getElem? hc) hf, h.named⟩⟩, .template hte⟩

end Collected

/-- The name without template arguments is one with or without them. -/
theorem PlainlyNamed.declaring (hsrc : Utf8.Spells src cs) (hwf : d.WellFormed src)
    (hl : Every (Legible (Token.scan src)) d) (hr : Every (Readable src) d)
    (hk : d.kind = "function_definition" ∨ d.kind = "field_declaration")
    (h : PlainlyNamed src name d) : Declaring src name d := by
  rcases hk with hk | hk
  · obtain ⟨n, hn, hla⟩ := h
    obtain ⟨declarator, hf, hd⟩ := exists_declarator hn
    obtain ⟨hwellN, hkindN, hsp⟩ :=
      name_of_declarator (hwf.field hf) (hl.field hf) hd
    obtain ⟨s, hs, hb⟩ := exists_leafText hsrc hwellN hkindN hsp (every_nameOfFunction hr hn)
      hla
    exact .function hk ⟨n, s, hn, hs, .inr hb⟩
  · exact .member hk h

theorem FirstBelow.unique {above' : List Node}
    (h : FirstBelow P n p above d) (h' : FirstBelow P n q above' m) : above = above' ∧ d = m := by
  have hpq : p = q := by
    rcases lt_trichotomy p q with hlt | heq | hlt
    · exact absurd hlt (h'.first _ _ _ h.below h.holds)
    · exact heq
    · exact absurd hlt (h.first _ _ _ h'.below h'.holds)
  subst hpq
  obtain ⟨hd, ha⟩ := h.below.unique h'.below
  exact ⟨ha, hd⟩

theorem GivesFirst.mem_preorder (h : GivesFirst P n r) :
    ∀ m ∈ r, m ∈ n.preorder := by
  cases h with
  | none => simp
  | some h =>
    intro m hm
    obtain rfl := some.inj hm
    obtain ⟨q, outer, -, hb, -⟩ := h.below.exists_standsFor
    exact hb.mem_preorder

section First

variable {hits : List (Place × Node)} (hwf : root.WellFormed src)
  (hsorted : hits.Pairwise (·.1 < ·.1))
  (hmem : ∀ q m, (q, m) ∈ hits ↔ Hit src ⟨name, []⟩ [] root q m)
  (hdeclaring : ∀ d ∈ root.preorder, (d.kind = "function_definition" ∨ d.kind = "field_declaration") →
    PlainlyNamed src name d → Declaring src name d)

include hwf hmem hdeclaring

theorem hits_eq_nil (h : NoneBelow (Declaring src name) root) : hits = [] := by
  refine eq_nil_iff_forall_not_mem.2 fun hit hhit => ?_
  obtain ⟨p, above, d, hb, hc, hk, -, -⟩ :=
    exists_collected_of_hit hwf ((hmem hit.1 hit.2).1 hhit)
  exact h p above d hb (hdeclaring d hb.mem_preorder hk hc.named)

include hsorted in
/-- If the search for all overloads comes to the first declaration, its first overload stands for it. -/
theorem head_of_collected (h : FirstBelow (Declaring src name) root p above d)
    (hc : Collected src name above d) : (hits.map Prod.snd).head? = some (standsFor above d) := by
  obtain ⟨q, hhit, hat⟩ := hc.exists_hit hwf h.below h.holds.kind_eq
  have hqp : q = p ∨ q < p := by
    cases hat with
    | itself => exact .inl rfl
    | template => exact .inr (lt_concat q 0)
  have hin := (hmem q _).2 hhit
  cases hits with
  | nil => cases hin
  | cons first more =>
    obtain ⟨q', m⟩ := first
    rw [map_cons, head?_cons, some.injEq]
    rcases mem_cons.1 hin with heq | hin
    · cases heq
      rfl
    · -- an overload in front of it has no place for a declaration but the first one
      have hlt : q' < p := by
        have hlt := (pairwise_cons.1 hsorted).1 _ hin
        rcases hqp with rfl | hqp
        · exact hlt
        · exact lt_trans hlt hqp
      obtain ⟨p', above', d', hb, hc', hk, hs, hat'⟩ :=
        exists_collected_of_hit hwf ((hmem q' m).1 mem_cons_self)
      have hnot := h.first _ _ _ hb (hdeclaring d' hb.mem_preorder hk hc'.named)
      cases hat' with
      | itself => exact absurd hlt hnot
      | template =>
        obtain rfl := eq_concat_of_lt hlt hnot
        obtain ⟨rfl, rfl⟩ := h.below.unique hb
        exact hs.symm

/-- If it does not come to the first declaration, no overload stands for it. -/
theorem ne_of_not_collected (hl : Every Layout root) (hn : name ≠ "")
    (h : FirstBelow (Declaring src name) root p above d) (hnot : ¬ Collected src name above d)
    (hin : (q, m) ∈ hits) : m ≠ standsFor above d := by
  obtain ⟨p', above', d', hb, hc, hk, -, hat⟩ := exists_collected_of_hit hwf ((hmem q m).1 hin)
  obtain ⟨outer, hm, -, -⟩ := (hmem q m).1 hin
  obtain ⟨r, outer', hr, hs, hd⟩ := h.below.exists_standsFor
  have hlt : p < p' := by
    have hf := h.first _ _ _ hb (hdeclaring d' hb.mem_preorder hk hc.named)
    rcases lt_trichotomy p p' with hlt | rfl | hlt
    · exact hlt
    · obtain ⟨rfl, rfl⟩ := h.below.unique hb
      exact absurd hc hnot
    · exact absurd hlt hf
  -- what stands for the first declaration is in front of every overload
  have hne : r ≠ q := by
    rintro rfl
    have hle : ¬ p < r := hr.le
    cases hat with
    | itself => exact hle hlt
    | template ht =>
      rcases lt_trichotomy r p with hrp | rfl | hpr
      · exact lt_irrefl _ (eq_concat_of_lt hrp (lt_asymm hlt) ▸ hlt)
      · obtain ⟨rfl, -⟩ := h.below.unique hm
        rcases h.holds.kind_eq with hk | hk
        · exact absurd (hk.symm.trans ht) (by decide)
        · exact absurd (hk.symm.trans ht) (by decide)
      · exact hle hpr
  refine (hs.ne_of_ne hm hl hne ?_).symm
  have hdlt := h.holds.start_lt_stop hn (hl.of_mem_preorder h.below.mem_preorder)
  obtain ⟨hst, hstop⟩ := (hl.of_mem_preorder hs.mem_preorder).covers hd
  omega

include hsorted in
/-- The first of all overloads is what stands for the first declaration exactly if the search for all
overloads comes to this declaration. -/
theorem eq_head_iff (hl : Every Layout root) (hna : name ≠ "") {r : Option Node}
    (h : GivesFirst (Declaring src name) root r) :
    r = (hits.map Prod.snd).head? ↔ ∀ p above d, FirstBelow (Declaring src name) root p above d →
      Collected src name above d := by
  cases h with
  | none hn =>
    rw [hits_eq_nil hwf hmem hdeclaring hn]
    refine ⟨fun _ p above d hf => ?_, fun _ => rfl⟩
    exact absurd hf.holds (hn _ _ _ hf.below)
  | @some p above d hf =>
    constructor
    · intro heq p' above' d' hf'
      obtain ⟨rfl, rfl⟩ := hf.unique hf'
      by_contra hnot
      rw [head?_map] at heq
      obtain ⟨⟨q, m⟩, hh, hm⟩ := map_eq_some_iff.1 heq.symm
      exact ne_of_not_collected hwf hmem hdeclaring hl hna hf hnot (mem_of_head? hh) hm
    · intro hc
      exact (head_of_collected hwf hsorted hmem hdeclaring hf (hc _ _ _ hf)).symm

end First

theorem exists_definition? (name : String) (h : ∀ n ∈ r, Readable src n) :
    ∃ found, definition? src name r = .ok found ∧ found.map Definition.node = r := by
  cases r with
  | none => exact ⟨none, rfl, rfl⟩
  | some n =>
    refine ⟨some ⟨⟨n.written src, n.startRow + 1, n.endRow + 1⟩, n, name⟩, ?_, rfl⟩
    rw [definition?, Node.definition, Node.passage, (h n rfl).text?]
    rfl

/-- A function is asked for by a name without qualifiers. With and without an empty part of its
parameters, there is an answer, and the two answers are the same node exactly if the search for all
overloads comes to the first declaration of the name: if the declaration does not stand in a template, but
for the one that it is the function of, nor in a class without a name, and if its name ends with the one
asked for when template arguments are left out. -/
theorem function_emptyPart_exact {text : String} (htext : Utf8.decode src = .ok text)
    (hcpp : Dialect.guess src = .cpp) (hroot : Node.parse src = .ok root) (hname : name ≠ "")
    (hplain : Text.contains name "::" = false) :
    ∃ plain part : Option Definition,
      (function src root name none).outcome = .ok plain ∧
      (function src root name (some "")).outcome = .ok part ∧
      (plain.map Definition.node = part.map Definition.node ↔
        ∀ p above d, FirstBelow (Declaring src name) root p above d → Collected src name above d) := by
  have hsrc := Utf8.spells_of_decode htext
  have hwf := parse_wellFormed hroot
  have hlegible := legible_of_parse hcpp hroot
  have hreadable := readable_of_parse htext hroot
  have htarget := ofString_unqualified hplain
  have hdeclaring : ∀ d ∈ root.preorder,
      (d.kind = "function_definition" ∨ d.kind = "field_declaration") → PlainlyNamed src name d →
        Declaring src name d := fun d hd hkind hnamed =>
    hnamed.declaring hsrc (hwf.of_mem_preorder hd) (hlegible.of_mem_preorder hd)
      (hreadable.of_mem_preorder hd) hkind
  obtain ⟨r, hfind, hgives⟩ := findsFirst hsrc hname root hwf hlegible hreadable []
  obtain ⟨hits, hall, hsorted, hmem⟩ := gives_collect (t := ⟨name, []⟩) hsrc hname root hwf hlegible []
  have hoverloads : overloads src root name = .ok (hits.map Prod.snd) := by
    rw [overloads, findAll, htarget]
    exact hall
  have hbelow : ∀ n ∈ hits.map Prod.snd, n ∈ root.preorder := by
    intro n hn
    obtain ⟨hit, hhit, rfl⟩ := List.mem_map.1 hn
    obtain ⟨above, hbelow, -, -⟩ := (hmem _ _).1 hhit
    exact hbelow.mem_preorder
  obtain ⟨plain, hfound, hnode⟩ := exists_definition? name fun n hn =>
    (hreadable.of_mem_preorder (hgives.mem_preorder n hn)).here
  obtain ⟨part, hpart, hnode'⟩ := exists_definition? name fun n hn =>
    (hreadable.of_mem_preorder (hbelow n (mem_of_head? hn))).here
  refine ⟨plain, part, ?_, ?_, ?_⟩
  · rw [function, find, htarget, Report.outcome_bind]
    change (first (functionsOf name) src [] root >>= definition? src name) = _
    rw [hfind, ok_bind, hfound]
  · rw [function, outcome_overloadWith hoverloads fun n hn => hreadable.of_mem_preorder (hbelow n hn), hpart]
  · rw [hnode, hnode']
    exact eq_head_iff hwf hsorted hmem hdeclaring (every_layout_of_parse hroot) hname hgives

/-- The member of a class template is found by its name, but not with an empty part of its parameters. -/
theorem function_emptyPart_exact_class_template :
    let src := Bytes.ofString "template <class T> struct S \x7b void f(int) \x7b\x7d \x7d;"
    ∃ (root : Node) (found : Definition), Node.parse src = .ok root ∧
      (function src root "f" none).outcome = .ok (some found) ∧
      found.passage = ⟨"void f(int) \x7b\x7d", 1, 1⟩ ∧
      (function src root "f" (some "")).outcome = .ok none ∧
      ∃ p above d, FirstBelow (Declaring src "f") root p above d ∧ ¬ Collected src "f" above d := by
  intro src
  have hrun : (do
      let root : Node ← (Node.parse src).toOption
      let plain : Option Definition ← (function src root "f" none).outcome.toOption
      let part : Option Definition ← (function src root "f" (some "")).outcome.toOption
      let found : Definition ← plain
      return found.passage == ⟨"void f(int) \x7b\x7d", 1, 1⟩ && part.isNone) =
      some true := by
    decide +kernel
  simp only [bind, pure, bind_eq_some_iff, toOption_eq_some, some.injEq, Bool.and_eq_true, beq_iff_eq,
    isNone_iff_eq_none] at hrun
  obtain ⟨root, hroot, plain, hplain, part, hpart, found, hfound, hpassage, rfl⟩ := hrun
  subst hfound
  refine ⟨root, found, hroot, hplain, hpassage, hpart, ?_⟩
  obtain ⟨plain, part, hplain', hpart', hiff⟩ := function_emptyPart_exact
    (Utf8.decode_ofString _) (by decide) hroot (by decide : "f" ≠ "") (by decide)
  cases hplain.symm.trans hplain'
  cases hpart.symm.trans hpart'
  by_contra hnot
  have hsame := hiff.2 fun p above d hfirst => by
    by_contra hcollected
    exact hnot ⟨p, above, d, hfirst, hcollected⟩
  cases hsame

end Excerpt.Cpp
