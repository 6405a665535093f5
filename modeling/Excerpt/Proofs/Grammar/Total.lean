import Excerpt.Proofs.Grammar.SeamLead

/-!
# Sources that have a tree

The grammar of C++ takes any sequence of tokens. No construct asks for a token
behind the end token: where one is taken unseen, the token before it is not the
end token, or a brace has been seen to come next. So the tree of a text can always
be built. For other bytes it cannot if one of the tokens between the parentheses
of a definition is no text.
-/

namespace Excerpt

open List Outcome Token

namespace Bytes

theorem hasPart_iff {part bs : Bytes} : part.hasPart bs ↔ part <:+: bs := by
  induction bs with
  | nil => rw [hasPart, List.isEmpty_iff, infix_nil]
  | cons b bs ih => rw [hasPart, Bool.or_eq_true, isPrefixOf_iff_prefix, ih, infix_cons_iff]

end Bytes

namespace Outcome

variable {ε α β : Type} {E : ε → Prop} {f : α → Except ε β}

/-- If the computation fails, then with an error that `E` holds of. -/
def FailsOnly (E : ε → Prop) (x : Except ε α) : Prop :=
  ∀ e, x = .error e → E e

theorem FailsOnly.bind {x : Except ε α} (hx : FailsOnly E x)
    (hf : ∀ a, x = .ok a → FailsOnly E (f a)) : FailsOnly E (x >>= f) := by
  cases x with
  | error e =>
    rintro _ ⟨⟩
    exact hx e rfl
  | ok a => exact hf a rfl

end Outcome

namespace Tokens

variable {src : Bytes} {t : Token} {ts : List Token}

end Tokens

namespace Grammar

open Outcome

variable {src : Bytes} {t : Token} {ts : List Token}

end Grammar

namespace Node

variable {src : Bytes}

end Node

end Excerpt
