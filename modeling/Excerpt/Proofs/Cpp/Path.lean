import Excerpt.Proofs.Cpp.Spelled
import Excerpt.Proofs.Text.Split

/-!
# The names of scopes

A namespace may be named by several words joined by `::`, and a class has one word
for a name. The search takes the name of a namespace as it is written and cuts it
at `::`: these are its words if nothing else stands between them and the `::`
(`writtenNames_of_tight`), but a blank there is kept.
-/

namespace Excerpt

open Node List Option Utf8 Text

namespace Token

variable {src : Bytes} {t : Token} {T us ws : List Token}

theorem start_lt_stop_of_word (ht : t ∈ scan src) (hk : t.kind = .word) : t.start < t.stop :=
  Nat.lt_add_of_pos_right (length_pos_of_ne_nil (text_ne_nil_of_word ht hk))

theorem not_word_of_colons (ht : t ∈ scan src) (h : t.spelled "::") : t.kind ≠ .word := by
  intro hk
  have hte : t.text = Bytes.ofString "::" := beq_iff_eq.1 h
  have hc : (58 : UInt8) ∈ t.text := by
    rw [hte]
    decide
  exact absurd (bytes_of_word ht hk 58 hc) (by decide)

namespace Path

theorem ne_nil (h : Path us ws) : ws ≠ [] := by
  cases h with
  | last hw => simp
  | cons hw hc h => simp

theorem isWord (h : Path us ws) : ∀ w ∈ ws, w.kind = .word := by
  induction h with
  | last hw => simpa using hw
  | cons hw _ _ ih => exact forall_mem_cons.2 ⟨hw, ih⟩

theorem subset (h : Path us ws) : ws ⊆ us := by
  induction h with
  | last hw => exact Subset.refl _
  | cons hw _ _ ih =>
    intro t ht
    rcases mem_cons.1 ht with rfl | ht
    · exact mem_cons_self
    · exact mem_cons_of_mem _ (mem_cons_of_mem _ (ih ht))

theorem head? (h : Path us ws) : us.head? = ws.head? := by
  cases h with
  | last hw => rfl
  | cons hw hc h => rfl

theorem getLast? (h : Path us ws) : us.getLast? = ws.getLast? := by
  induction h with
  | last hw => rfl
  | cons hw hc h ih =>
    have hne := getLast?_isSome.2 h.ne_nil
    obtain ⟨last, hl⟩ := isSome_iff_exists.1 hne
    rw [hl] at ih
    rw [getLast?_cons, getLast?_cons, getLast?_cons, ih, hl]
    rfl

theorem filter_word (h : Path us ws) (hus : us ⊆ scan src) : us.filter (·.kind == .word) = ws := by
  induction h with
  | last hw => simp [hw]
  | @cons w colons ts ws hw hc h ih =>
    have hnot := not_word_of_colons (hus (by simp)) hc
    have hr := ih fun t ht => hus (by simp [ht])
    simp [hw, hnot, hr]

end Path

/-- In a list of tokens that stand one behind the other, the first one comes first
and the last one last. -/
theorem ends_of_pairwise (h : us.Pairwise (·.stop ≤ ·.start)) {first last : Token}
    (hf : us.head? = some first) (hl : us.getLast? = some last) :
    ∀ t ∈ us, first.start ≤ t.start ∧ t.stop ≤ last.stop := by
  induction us generalizing first with
  | nil => simp
  | cons u us ih =>
    cases hf
    rw [pairwise_cons] at h
    cases us with
    | nil =>
      cases hl
      simp
    | cons v vs =>
      rw [getLast?_cons_cons] at hl
      have hall := ih h.2 rfl hl
      have huv := h.1 v mem_cons_self
      have hv := hall v mem_cons_self
      have hu := start_le_stop u
      have hvs := start_le_stop v
      refine forall_mem_cons.2 ⟨⟨Nat.le_refl _, by omega⟩, fun t ht => ?_⟩
      have := hall t ht
      omega

end Token

namespace Node

variable {src : Bytes} {cs : List Char} {n : Node}

def words (src : Bytes) (n : Node) : List Token :=
  (Token.scan src).filter fun t => t.kind == .word && n.start ≤ t.start && t.stop ≤ n.stop

section IsPath

variable {us ws : List Token}

/-- What is known of the ends of a path. -/
structure PathEnds (src : Bytes) (n : Node) (us ws : List Token) (first last : Token) : Prop where
  path : Token.Path us ws
  within : us <:+: Token.scan src
  head : ws.head? = some first
  final : ws.getLast? = some last
  start : n.start = first.start
  stop : n.stop = last.stop

theorem IsPath.exists_ends (h : n.IsPath (Token.scan src)) :
    ∃ us ws first last, PathEnds src n us ws first last := by
  obtain ⟨us, ws, hus, hp, hs, hst⟩ := h
  obtain ⟨first, hf⟩ := isSome_iff_exists.1 (isSome_head?.2 hp.ne_nil)
  obtain ⟨last, hl⟩ := isSome_iff_exists.1 (getLast?_isSome.2 hp.ne_nil)
  exact ⟨us, ws, first, last, hp, hus, hf, hl, hs first hf, hst last hl⟩

variable {first last : Token}

theorem PathEnds.ends (h : PathEnds src n us ws first last) :
    ∀ t ∈ us, n.start ≤ t.start ∧ t.stop ≤ n.stop := by
  rw [h.start, h.stop]
  exact Token.ends_of_pairwise ((Token.pairwise_scan src).sublist h.within.sublist)
    (h.path.head?.trans h.head) (h.path.getLast?.trans h.final)

theorem PathEnds.words_eq (h : PathEnds src n us ws first last) : n.words src = ws := by
  obtain ⟨before, after, hs⟩ := h.within
  have hp := Token.pairwise_scan src
  have hmem : ∀ t, t ∈ before ∨ t ∈ us ∨ t ∈ after → t ∈ Token.scan src := by
    intro t ht
    rw [← hs, mem_append, mem_append]
    tauto
  have hf : first ∈ us := h.path.subset (mem_of_head? h.head)
  have hl : last ∈ us := h.path.subset (mem_of_getLast? h.final)
  rw [words, ← hs, filter_append, filter_append]
  rw [← hs, pairwise_append, pairwise_append] at hp
  obtain ⟨⟨-, -, hb⟩, -, ha⟩ := hp
  have hn : ∀ ts : List Token, (∀ t ∈ ts, t ∈ Token.scan src ∧ (t.stop ≤ n.start ∨ n.stop ≤ t.start)) →
      ts.filter (fun t => t.kind == .word && n.start ≤ t.start && t.stop ≤ n.stop) = [] := by
    refine fun ts hts => filter_eq_nil_iff.2 fun t ht hh => ?_
    obtain ⟨hm, hout⟩ := hts t ht
    simp only [Bool.and_eq_true, beq_iff_eq, decide_eq_true_eq] at hh
    have hlt := Token.start_lt_stop_of_word hm hh.1.1
    omega
  rw [hn before fun t ht => ⟨hmem t (.inl ht), .inl (h.start ▸ hb t ht first hf)⟩,
    hn after fun t ht => ⟨hmem t (.inr (.inr ht)), .inr (h.stop ▸ ha last (mem_append_right _ hl) t ht)⟩,
    nil_append, append_nil, ← h.path.filter_word fun t ht => hmem t (.inr (.inl ht))]
  refine filter_congr fun t ht => ?_
  obtain ⟨hst, hstop⟩ := h.ends t ht
  simp [hst, hstop]

theorem PathEnds.last_mem (h : PathEnds src n us ws first last) : last ∈ Token.scan src :=
  h.within.subset (h.path.subset (mem_of_getLast? h.final))

theorem PathEnds.isWord_last (h : PathEnds src n us ws first last) : last.kind = .word :=
  h.path.isWord last (mem_of_getLast? h.final)

theorem PathEnds.text_suffix (h : PathEnds src n us ws first last) : last.text <:+ n.text src := by
  have hl : last ∈ us := h.path.subset (mem_of_getLast? h.final)
  have hs := (h.ends last hl).1
  have hst := Token.start_le_stop last
  refine ⟨src.slice n.start last.start, ?_⟩
  rw [← Token.slice_of_mem_scan h.last_mem, Node.text, h.stop, Bytes.slice, Bytes.slice, Bytes.slice]
  have hcut := take_append_drop (last.start - n.start) ((src.take last.stop).drop n.start)
  rw [drop_drop, Nat.add_sub_cancel' hs, ← drop_take, take_take, Nat.min_eq_left hst] at hcut
  exact hcut

theorem PathEnds.written_ends (h : PathEnds src n us ws first last)
    (ht : n.text? src = .ok (n.written src)) :
    n.written src ≠ "" ∧ (n.written src).toList.getLast? ≠ some ':' := by
  have hd := Outcome.mapError_eq_ok.1 ht
  have hby := Token.bytes_of_word h.last_mem h.isWord_last
  have hne := Token.text_ne_nil_of_word h.last_mem h.isWord_last
  obtain ⟨before, hb⟩ := h.text_suffix
  refine ⟨ne_empty_of_decode ?_ hd, fun hc => ?_⟩
  · rw [← hb]
    simp [hne]
  · obtain ⟨cs, hcs⟩ := getLast?_eq_some_iff.1 hc
    have hl : (n.text src).getLast? = some 58 := getLast?_of_decode hd hcs (by decide)
    rw [← hb, getLast?_append_of_ne_nil _ hne] at hl
    exact absurd (hby 58 (mem_of_getLast? hl)) (by decide)

theorem PathEnds.text? (hsrc : Utf8.Spells src cs) (h : PathEnds src n us ws first last) :
    n.text? src = .ok (n.written src) := by
  have hmem : ∀ t ∈ us, t ∈ Token.scan src := fun t ht => h.within.subset ht
  refine text?_of_edges ?_ ?_
  · rw [h.start]
    exact Token.edge_start hsrc (hmem _ (h.path.subset (mem_of_head? h.head)))
  · rw [h.stop]
    exact Token.edge_stop hsrc (hmem _ (h.path.subset (mem_of_getLast? h.final)))

end IsPath

end Node

namespace Cpp

variable {src : Bytes} {cs : List Char} {n : Node}

def spaceNameKinds : List String := ["namespace_identifier", "nested_namespace_specifier"]

/-- The kinds of classes that open a scope for their members. -/
def memberKinds : List String := ["class_specifier", "struct_specifier"]

/-- The names that a node opens, as the search takes them: the name of a namespace is
cut at `::`. -/
def writtenNames (src : Bytes) (n : Node) : List String :=
  if n.kind = "namespace_definition" then
    (n.childOf? spaceNameKinds).elim [] fun c => Text.split "::" (c.written src)
  else if n.kind ∈ memberKinds then (n.childOf? ["type_identifier"]).toList.map (written src)
  else []

/-- The names that a node opens: the words of a namespace's name, and that of a class. -/
def openedNames (src : Bytes) (n : Node) : List String :=
  if n.kind = "namespace_definition" then
    (n.childOf? spaceNameKinds).elim [] fun c => (c.words src).map (decodeLossy ·.text)
  else if n.kind ∈ memberKinds then (n.childOf? ["type_identifier"]).toList.map (written src)
  else []

/-- The name of a namespace is written without anything between its words and the `::`. -/
def Tight (src : Bytes) (n : Node) : Prop :=
  n.kind = "namespace_definition" → ∀ c, n.childOf? spaceNameKinds = some c →
    c.written src = join "::" ((c.words src).map (decodeLossy ·.text))

theorem scopeNames_eq {s : String} (hne : s ≠ "") (hl : s.toList.getLast? ≠ some ':') :
    scopeNames s = Text.split "::" s := by
  have hen : endsWith s "::" = false := by
    rw [← Bool.not_eq_true, endsWith, isSuffixOf_iff_suffix]
    rintro ⟨before, hb⟩
    have hsep : "::".toList = [':', ':'] := by decide
    rw [← hb, hsep] at hl
    exact hl (by simp)
  unfold scopeNames
  simp only [hen, Bool.false_eq_true, if_false]
  split
  · rfl
  · next hc =>
      rw [Bool.not_eq_true] at hc
      rw [split_of_not_contains hc, if_neg (by simpa using hne)]

theorem spaceName_cases (hwf : n.WellFormed src) (hn : Legible (Token.scan src) n)
    (hk : n.kind = "namespace_definition") : (n.childOf? spaceNameKinds = none ∧ n.field? "name" = none) ∨
      ∃ c us ws first last, n.childOf? spaceNameKinds = some c ∧ n.field? "name" = some c ∧
        PathEnds src c us ws first last := by
  rcases hwf.form.space_cases hk with ⟨body, hc, hf, hb⟩ |
    ⟨name, body, hc, hf, hb, hna⟩
  · refine .inl ⟨?_, ?_⟩
    · rw [Node.childOf?, hc]
      simp [hb, spaceNameKinds]
    · rw [Node.field?, hf]
      rfl
  · have hne : name.kind ≠ "declaration_list" := by
      rcases hna with hna | hna
      · rw [hna]; decide
      · rw [hna]; decide
    obtain ⟨us, ws, first, last, hen⟩ := (hn.space hk name (by rw [hc]; simp) hne).exists_ends
    refine .inr ⟨name, us, ws, first, last, ?_, ?_, hen⟩
    · rw [Node.childOf?, hc]
      rcases hna with hna | hna
      · simp [hna, spaceNameKinds]
      · simp [hna, spaceNameKinds]
    · rw [Node.field?, hf, hc]
      rfl

theorem namespaceNames_eq (hsrc : Utf8.Spells src cs) (hwf : n.WellFormed src)
    (hn : Legible (Token.scan src) n) (hk : n.kind = "namespace_definition") :
    namespaceNames src n = .ok (writtenNames src n) := by
  rw [writtenNames, if_pos hk]
  rcases spaceName_cases hwf hn hk with ⟨hc, hf⟩ | ⟨c, us, ws, first, last, hc, hf, hen⟩
  · rw [namespaceNames, hf, hc]
    rfl
  · have ht := hen.text? hsrc
    obtain ⟨hne, hl⟩ := hen.written_ends ht
    rw [namespaceNames, hf, hc]
    simp only [ht]
    rw [elim_some, ← scopeNames_eq hne hl]
    rfl

theorem recordName?_eq (hsrc : Utf8.Spells src cs) (hn : Legible (Token.scan src) n)
    (hk : n.kind ∈ classKinds) :
    recordName? src n = .ok ((n.childOf? ["type_identifier"]).map (written src)) ∧
      ∀ c ∈ n.childOf? ["type_identifier"], Wordy (c.written src) := by
  cases hc : n.childOf? ["type_identifier"] with
  | none =>
    refine ⟨?_, by simp⟩
    rw [recordName?, hc]
    rfl
  | some c =>
    have hki : c.kind = "type_identifier" := by
      have hf := find?_some hc
      simpa using hf
    have hw := hn.record hk c (mem_of_find?_eq_some hc) hki
    refine ⟨?_, ?_⟩
    · rw [recordName?, hc]
      simp only [hw.text? hsrc]
      rfl
    · rintro d ⟨⟩
      exact hw.wordy hsrc

/-- The names that a node opens are read off its text if they are written without
blanks. -/
theorem writtenNames_of_tight (hsrc : Utf8.Spells src cs) (hwf : n.WellFormed src)
    (hn : Legible (Token.scan src) n) (h : Tight src n) : writtenNames src n = openedNames src n := by
  unfold writtenNames openedNames
  split
  · next hk =>
      rcases spaceName_cases hwf hn hk with ⟨hc, -⟩ | ⟨c, us, ws, first, last, hc, -, hen⟩
      · rw [hc]
        rfl
      · rw [hc, elim_some, elim_some, h hk c hc, hen.words_eq]
        refine split_colons_join (by simpa using hen.path.ne_nil) ?_
        intro s hs
        obtain ⟨w, hw, rfl⟩ := List.mem_map.1 hs
        have hmem := hen.within.subset (hen.path.subset hw)
        have hisWord : (Node.leaf "identifier" w).IsWord (Token.scan src) :=
          ⟨w, hmem, hen.path.isWord w hw, rfl⟩
        have ht : (Node.leaf "identifier" w).text src = w.text := text_of_span hmem rfl
        have hco := (hisWord.wordy hsrc).colon
        rwa [Node.written, ht] at hco
  · rfl

end Cpp

end Excerpt
