import Reckon.Number.Double
import Reckon.Proofs.Accepting

/-!
# Precedence and chains

The grammar reads every level to the right and nests the chains to the left afterwards. What comes
out of it is the conventional reading: whenever tokens are parsed, the tree is the only one that can
be read off the tokens that were taken.

## Main statements

* `Reads.unique` — tokens are read in one way only.
* `Grammar.eq_value_iff_reads` — what is parsed is the conventional reading.
-/

namespace Reckon

variable {α : Type} [Arithmetic α] [Numeral α] {scope : Scope α} {ts rest : List Token}

/-- The conventional reading is not ambiguous. -/
theorem Reads.unique {e e' : Expr α} (h : Reads scope (.expression e) ts rest)
    (h' : Reads scope (.expression e') ts rest) : e = e' := by
  -- The tokens that were taken are read on their own, so that nothing can carry the reading on.
  obtain ⟨taken, rfl, -, hread⟩ := h.exists_taken
  obtain ⟨taken', htaken, -, hread'⟩ := h'.exists_taken
  obtain rfl : taken = taken' := List.append_cancel_right htaken
  have hp := (takes_expression_iff .start).2 (by simpa using hread [])
  have hp' := (takes_expression_iff .start).2 (by simpa using hread' [])
  exact (hp.eq hp').1

namespace Grammar

/-- The tree that is parsed is the one tree that can conventionally be read off the tokens taken:
chains of a rank are nested to the left, chains of powers to the right, tighter ranks stand inside
looser ones, and what is in brackets or bars, negated or a call stays in one piece. -/
theorem eq_value_iff_reads {ending : Except Error Position} {p : Parse (Expr α) ts}
    (h : expression scope ending ts = .ok p) (e : Expr α) :
    e = p.value ↔ Reads scope (.expression e) ts p.rest := by
  have hp : Reads scope (.expression p.value) ts p.rest := reads_of_expression ⟨p, h, rfl, rfl⟩
  constructor
  · rintro rfl
    exact hp
  · exact fun he => he.unique hp

/-- The tokens of a chain with a bracket and with a negative literal directly after an operand. -/
theorem eq_value_iff_reads_chain :
    let tokens := (Lexer.ofSource {} (.ofString "8 - (3 - 2) -1*x^2^3 < 7")).tokens
    let scope : Scope Float := ({} : Scope Float).bindVariable "x" ⟨"x", 0⟩
    ∃ p, expression scope tokens.ending tokens.ahead = .ok p ∧
      p.value.text = "(((8 - (3 - 2)) + (-1 * (x ^ (2 ^ 3)))) < 7)" ∧
      ∀ e, e = p.value ↔ Reads scope (.expression e) tokens.ahead p.rest := by
  intro tokens scope
  have htext : (expression scope tokens.ending tokens.ahead).toOption.map (·.value.text) =
      some "(((8 - (3 - 2)) + (-1 * (x ^ (2 ^ 3)))) < 7)" := by
    decide +kernel
  cases h : expression scope tokens.ending tokens.ahead with
  | error => simp [h, Except.toOption] at htext
  | ok p => exact ⟨p, rfl, by simpa [h, Except.toOption] using htext, eq_value_iff_reads h⟩

end Grammar

end Reckon
