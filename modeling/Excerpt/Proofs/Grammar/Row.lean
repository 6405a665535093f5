import Excerpt.Proofs.Grammar.Ahead
import Excerpt.Proofs.Tree.Form
import Excerpt.Proofs.Tree.Layout

/-!
# Nodes in a row

A part of the grammar reads nodes off the front of a list of tokens. The nodes
stand in a row: each starts behind the one before it, the first one behind
all that was read earlier, and the tokens that are left lie behind the last one.
Readings that follow one another give one row (`Laid.append`), and
a row becomes a node (`Row.spanning`). So the layout of a construct is put
together in the order in which it is read.
-/

namespace Excerpt

open Node List Tokens

namespace Node

variable {src : Bytes} {n : Node}

/-- The node lies within one declaration: it has one of the forms and is no item, no use and no
definition, and it is not empty. -/
structure Contained (src : Bytes) (n : Node) : Prop where
  inert : Inert src n
  inner : Inner src n

/-- The node is a part of a name, spelled with tokens of the source. -/
structure Named (src : Bytes) (n : Node) : Prop extends Contained src n where
  spelt : Spelt (Token.scan src) n

/-- The node is laid out, and it has one of the forms and is no item. -/
structure Complete (src : Bytes) (n : Node) : Prop where
  settled : Settled src n
  inner : Inner src n

theorem Contained.complete (h : Contained src n) : Complete src n :=
  ⟨h.inert.settled, h.inner⟩

/-- The kinds of nodes that are no mere parts of a declaration. -/
def mainKinds : List String :=
  keyKinds ++ outerKinds

theorem contained_of_form (hf : Form src n) (hk : n.kind ∉ mainKinds)
    (hs : Sited src n) (hlt : n.start < n.stop) : Contained src n :=
  ⟨inert_of_kind hs (fun h => hk (mem_append_left _ h)) hlt, hf,
    fun h => hk (mem_append_right _ h)⟩

theorem complete_of_form (hf : Form src n) (hk : n.kind ∉ mainKinds)
    (hs : Sited src n) : Complete src n :=
  ⟨settled_of_kind hs fun h => hk (mem_append_left _ h), hf,
    fun h => hk (mem_append_right _ h)⟩

theorem main_of_flat {kind : String} (h : kind ∈ flatKinds) : kind ∉ mainKinds := by
  have hn : ∀ k ∈ flatKinds, k ∉ mainKinds := by decide
  exact hn kind h

/-- Nodes one after the other from the offset `i` on, and then the tokens `rest`. Every node in
them has the property `P`. -/
inductive Row (P : Node → Prop) (rest : List Token) : Nat → List Node → Prop where
  | nil {i : Nat} (h : Tokens.Ahead rest i) : Row P rest i []
  | cons {i : Nat} {n : Node} {ns : List Node} (hi : i ≤ n.start) (hn : Every P n)
      (hns : Row P rest n.stop ns) : Row P rest i (n :: ns)

namespace Row

variable {src : Bytes} {P Q : Node → Prop} {rest us : List Token} {i j : Nat} {first n : Node}
  {ns ms more : List Node} {kind : String} {fields : List (String × Nat)}

theorem single (hi : i ≤ n.start) (hn : Every P n) (h : Tokens.Ahead rest n.stop) : Row P rest i [n] :=
  .cons hi hn (.nil h)

theorem mono (h : Row P rest i ns) (hPQ : ∀ n, P n → Q n) : Row Q rest i ns := by
  induction h with
  | nil h => exact .nil h
  | cons hi hn _ ih => exact .cons hi (hn.mono hPQ) ih

theorem append (h : Row P us i ns) (hms : ∀ j, Tokens.Ahead us j → Row P rest j ms) :
    Row P rest i (ns ++ ms) := by
  induction h with
  | nil h => exact hms _ h
  | cons hi hn _ ih => exact .cons hi hn ih

theorem every (h : Row P rest i ns) : ∀ n ∈ ns, Every P n := by
  induction h with
  | nil h => simp
  | cons hi hn _ ih => exact forall_mem_cons.2 ⟨hn, ih⟩

theorem ahead (h : Row P rest first.stop more) : Tokens.Ahead rest (more.getLastD first).stop := by
  induction more generalizing first with
  | nil =>
    cases h with
    | nil h => exact h
  | cons n ns ih =>
    cases h with
    | cons hi hn hns =>
      rw [getLastD_cons]
      exact ih hns

section Sited

variable (hP : ∀ n, P n → Sited src n)

include hP

theorem start_le (h : Row P rest i ns) : ∀ n ∈ ns, i ≤ n.start := by
  induction h with
  | nil h => simp
  | @cons i n ns hi hn hns ih =>
    refine forall_mem_cons.2 ⟨hi, fun m hm => ?_⟩
    exact Nat.le_trans hi (Nat.le_trans (hP n hn.here).le (ih m hm))

theorem pairwise (h : Row P rest i ns) : ns.Pairwise (·.stop ≤ ·.start) := by
  induction h with
  | nil h => exact .nil
  | cons hi hn hns ih => exact .cons (hns.start_le hP) ih

theorem stop_le (h : Row P rest i (first :: more)) :
    ∀ n ∈ first :: more, n.stop ≤ (more.getLastD first).stop := by
  induction more generalizing first i with
  | nil =>
    intro n hn
    rw [mem_singleton.1 hn]
    exact Nat.le_refl _
  | cons next more ih =>
    cases h with
    | cons hi hn hns =>
      have hl := ih hns
      rw [getLastD_cons]
      refine forall_mem_cons.2 ⟨?_, hl⟩
      have hne := hns.start_le hP next mem_cons_self
      have hle := (hP next (hns.every next mem_cons_self).here).le
      exact Nat.le_trans (Nat.le_trans hne hle) (hl next mem_cons_self)

theorem sited_spanning (h : Row P rest i (first :: more))
    (hfi : ∀ e ∈ fields, e.2 < (first :: more).length) :
    Sited src (.spanning kind first more fields) := by
  have hst : ∀ n ∈ first :: more, first.start ≤ n.start := by
    cases h with
    | cons hi hn hns =>
      exact (Row.cons (Nat.le_refl first.start) hn hns).start_le hP
  have hs := h.stop_le hP
  have hf := hP first (h.every first mem_cons_self).here
  exact
    { le := Nat.le_trans hf.le (hs first mem_cons_self)
      inside := fun c hc => ⟨hst c hc, hs c hc⟩
      ordered := h.pairwise hP
      fields := hfi
      starts := hf.starts
      ends := .child (getLast?_cons.trans (congrArg some getLastD_eq_getLast?.symm)) rfl rfl
      full := fun hlt => Nat.lt_of_lt_of_le (hf.full hlt) (hs first mem_cons_self) }

theorem spanning (h : Row P rest i (first :: more)) (hf : ∀ e ∈ fields, e.2 < (first :: more).length)
    (hnew : Sited src (.spanning kind first more fields) → P (.spanning kind first more fields)) :
    Row P rest i [.spanning kind first more fields] := by
  have hev := forall_mem_cons.1 h.every
  have hs := hnew (h.sited_spanning hP hf)
  cases h with
  | cons hi hn hns => exact .single hi (.spanning hs hev.1 hev.2) hns.ahead

end Sited

theorem lt_spanning (h : Row P rest i (first :: more)) (hP : ∀ n, P n → Contained src n)
    (hs : Sited src (.spanning kind first more fields)) :
    (Node.spanning kind first more fields).start < (Node.spanning kind first more fields).stop :=
  Nat.lt_of_lt_of_le (hP first (h.every first mem_cons_self).here).inert.lt
    (hs.inside first mem_cons_self).2

theorem contained_spanning (h : Row (Contained src) rest i (first :: more)) (hk : kind ∉ mainKinds)
    (hfo : Form src (.spanning kind first more fields))
    (hf : ∀ e ∈ fields, e.2 < (first :: more).length) :
    Row (Contained src) rest i [.spanning kind first more fields] :=
  h.spanning (fun _ hn => hn.inert.toSited) hf fun hs =>
    contained_of_form hfo hk hs (h.lt_spanning (fun _ hn => hn) hs)

theorem named_spanning (h : Row (Named src) rest i (first :: more)) (hk : kind ∉ mainKinds)
    (hf : Form src (.spanning kind first more []))
    (hsp : Spelt (Token.scan src) (.spanning kind first more [])) :
    Row (Named src) rest i [.spanning kind first more []] :=
  h.spanning (fun _ hn => hn.inert.toSited) (by simp) fun hs =>
    ⟨contained_of_form hf hk hs (h.lt_spanning (fun _ hn => hn.toContained) hs), hsp⟩

end Row

end Node

/-- The nodes `ns` are read off the front of `ts` and the tokens `rest` are left. -/
structure Laid (P : Node → Prop) (ts rest : List Token) (ns : List Node) : Prop where
  suffix : rest <:+ ts
  row : ∀ i, Tokens.Ahead ts i → Row P rest i ns

namespace Laid

variable {src : Bytes} {P Q : Node → Prop} {ts us vs : List Token} {ns ms : List Node} {n : Node}
  {kind : String} {t : Token}

/-- Tokens are passed over. -/
theorem skip (h : us <:+ ts) : Laid P ts us [] :=
  ⟨h, fun _ hi => .nil (hi.suffix h)⟩

theorem append (h : Laid P ts us ns) (h' : Laid P us vs ms) : Laid P ts vs (ns ++ ms) :=
  ⟨h'.suffix.trans h.suffix, fun i hi => (h.row i hi).append h'.row⟩

theorem skip_left (h : Laid P us vs ns) (hus : us <:+ ts) : Laid P ts vs ns :=
  (Laid.skip hus).append h

theorem skip_right (h : Laid P ts us ns) (hvs : vs <:+ us) : Laid P ts vs ns :=
  append_nil ns ▸ h.append (.skip hvs)

theorem every (h : Laid P ts us ns) : ∀ n ∈ ns, Every P n :=
  (h.row 0 fun _ _ => Nat.zero_le _).every

theorem map (h : Laid P ts us ns) (hrow : ∀ i, Row P us i ns → Row Q us i ms) : Laid Q ts us ms :=
  ⟨h.suffix, fun i hi => hrow i (h.row i hi)⟩

theorem mono (h : Laid P ts us ns) (hPQ : ∀ n, P n → Q n) : Laid Q ts us ns :=
  h.map fun _ hrow => hrow.mono hPQ

theorem contained (h : Laid (Named src) ts us ns) : Laid (Contained src) ts us ns :=
  h.mono fun _ hn => hn.toContained

theorem complete (h : Laid (Contained src) ts us ns) : Laid (Complete src) ts us ns :=
  h.mono fun _ hn => hn.complete

theorem leaf (hts : t :: ts <:+ Token.scan src) (hP : Every P (.leaf kind t)) :
    Laid P (t :: ts) ts [.leaf kind t] := by
  refine ⟨suffix_cons t ts, fun i hi => .single (hi t mem_cons_self) hP ?_⟩
  exact ahead_tail hts

theorem ahead (h : Laid P ts us [n]) : Tokens.Ahead us n.stop := by
  cases h.row 0 fun _ _ => Nat.zero_le _ with
  | cons _ _ hns => exact hns.ahead

theorem lt_stop (h : Laid (Contained src) ts us [n]) {i : Nat} (hi : Tokens.Ahead ts i) : i < n.stop := by
  cases h.row i hi with
  | cons hle hn _ => exact Nat.lt_of_le_of_lt hle hn.here.inert.lt

/-- The first token lies before all nodes. -/
theorem start_le (hP : ∀ n, P n → Sited src n) (hts : t :: ts <:+ Token.scan src)
    (h : Laid P (t :: ts) us ns) : ∀ n ∈ ns, t.start ≤ n.start :=
  (h.row t.start (ahead_self hts)).start_le hP

theorem spanningFrom {first : Node} {more : List Node} {fields : List (String × Nat)}
    (hP : ∀ n, P n → Sited src n) (hts : t :: ts <:+ Token.scan src) (h : Laid P (t :: ts) us (first :: more))
    (hf : ∀ e ∈ fields, e.2 < (first :: more).length)
    (hnew : Sited src (.startingAt t (.spanning kind first more fields)) →
      P (.startingAt t (.spanning kind first more fields))) :
    Laid P (t :: ts) us [.startingAt t (.spanning kind first more fields)] := by
  refine ⟨h.suffix, fun i hi => ?_⟩
  have hrow := h.row i hi
  have hs : Sited src (.spanning kind first more fields) := hrow.sited_spanning hP hf
  have hle := h.start_le hP hts first mem_cons_self
  refine .single (hi t mem_cons_self) (.node (hnew (hs.startingAt (hts.subset mem_cons_self) hle))
    hrow.every) ?_
  cases hrow with
  | cons hfi hn hns => exact hns.ahead

theorem leaves (hts : us ++ vs <:+ Token.scan src)
    (h : List.Forall₂ (fun s n => ∃ kind, n = Node.leaf kind s ∧ Every P n) us ns) :
    Laid P (us ++ vs) vs ns := by
  induction h with
  | nil => exact .skip suffix_rfl
  | @cons s n us ns hn _ ih =>
    obtain ⟨kind, rfl, hP⟩ := hn
    exact (Laid.leaf hts hP).append (ih ((suffix_cons s _).trans hts))

end Laid

/-- The tokens from `first` to `last` are being read as one node, which starts behind the offset `i`,
and `ts` are left. -/
structure Token.Run (src : Bytes) (i : Nat) (ts : List Token) (first last : Token) : Prop where
  start : i ≤ first.start
  first_mem : first ∈ scan src
  last_mem : last ∈ scan src
  lt : first.start < last.stop
  ahead : Tokens.Ahead ts last.stop

namespace Token

variable {src : Bytes} {i : Nat} {ts us : List Token} {t first last : Token} {kind : String}

theorem run_single (hts : t :: ts <:+ scan src) (hlt : t.start < t.stop)
    (hi : Tokens.Ahead (t :: ts) i) : Run src i ts t t where
  start := hi t mem_cons_self
  first_mem := hts.subset mem_cons_self
  last_mem := hts.subset mem_cons_self
  lt := hlt
  ahead := ahead_tail hts

theorem Run.extend (h : Run src i (t :: ts) first last) (hts : t :: ts <:+ scan src) :
    Run src i ts first t where
  start := h.start
  first_mem := h.first_mem
  last_mem := hts.subset mem_cons_self
  lt := Nat.lt_of_lt_of_le h.lt (Nat.le_trans (h.ahead t mem_cons_self) t.start_le_stop)
  ahead := ahead_tail hts

theorem Run.row (h : Run src i ts first last) (hk : kind ∈ flatKinds) :
    Row (Contained src) ts i [.between kind first last] :=
  .single h.start (.childless rfl (contained_of_form (.flat hk) (main_of_flat hk)
    (sited_between h.first_mem h.last_mem (Nat.le_of_lt h.lt) fun _ => h.lt) h.lt)) h.ahead

end Token

end Excerpt
