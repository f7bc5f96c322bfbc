import Reckon.Compile
import Reckon.Proofs.Patching
import Reckon.Proofs.Placement
import Reckon.Proofs.Simplification

/-!
# What compiles

A text compiles to a tree if and only if its tokens are read as an expression that is simplified to
this tree. Neither the places of the tokens nor how far the source has been looked at make a
difference to that.

## Main statements

* `Workspace.compile_eq_ok_iff` — what it takes for a text to compile.
-/

namespace Reckon

theorem Token.alike_unplaced (t : Token) : t.Alike t.unplaced := ⟨rfl, rfl, rfl⟩

theorem allAlike_unplaced (ts : List Token) : AllAlike ts (ts.map Token.unplaced) := by
  induction ts with
  | nil => exact .nil
  | cons t ts ih => exact .cons t.alike_unplaced ih

variable {α : Type} [Arithmetic α] [Numeral α]

/-- The workspace that a text is read in. -/
def Workspace.prepared (w : Workspace α) (settings : Settings) : Workspace α :=
  if settings.namedConstants then w.bindNamed else w

/-- A text compiles if and only if its tokens are read as an expression that can be simplified. -/
theorem Workspace.compile_eq_ok_iff {w : Workspace α} {settings : Settings} {bytes : List UInt8}
    {e : Expr α} : (w.compile settings { bytes }).1.outcome = .ok e ↔
      ∃ us e₀, Tokenized settings.pipeBrackets (Source.plain bytes) us ∧
        Reads (w.prepared settings).scope (.expression e₀) us [] ∧
          (e₀.simplify (w.prepared settings).store).outcome = .ok e := by
  show ((w.prepared settings).read (settings.tokens bytes)).outcome = .ok e ↔ _
  generalize w.prepared settings = w
  constructor
  · intro h
    obtain ⟨⟨e₀, rest⟩, hparse, h⟩ := Run.outcome_bind_eq_ok.1 h
    obtain ⟨e', hsimplify, h⟩ := Run.outcome_bind_eq_ok.1 h
    obtain ⟨⟨⟩, hfinish, h⟩ := Run.outcome_bind_eq_ok.1 h
    obtain rfl := Except.ok.inj h
    rcases htokens : settings.tokens bytes with ⟨ts, ending⟩
    rw [htokens] at hparse hfinish
    cases rest with
    | cons t rest => cases hfinish
    | nil =>
      cases ending with
      | error => cases hfinish
      | ok p =>
        have htakes : Grammar.Takes (Grammar.expression w.scope (.ok p) ts) e₀ [] := by
          have hparse : w.parse ⟨ts, .ok p⟩ = .ok (e₀, []) := hparse
          cases hq : Grammar.expression w.scope (.ok p) ts with
          | error e => simp [parse, hq, Except.map] at hparse
          | ok q =>
            simp only [parse, hq, Except.map, Except.ok.injEq, Prod.mk.injEq] at hparse
            exact ⟨q, rfl, hparse⟩
        obtain ⟨rest', hread, hrest⟩ :=
          ((takes_expression_iff p).1 htakes).alike (allAlike_unplaced ts)
        cases hrest
        exact ⟨_, e₀, tokenized_iff.2 ⟨ts, p, htokens, rfl⟩, hread, hsimplify⟩
  · rintro ⟨us, e₀, htok, hread, hsimplify⟩
    -- The tokens with their places are read as the tokens without them are.
    obtain ⟨ts, p, htokens, rfl⟩ := tokenized_iff.1 htok
    obtain ⟨rest', hread', hrest⟩ := hread.alike (allAlike_unplaced ts).symm
    cases hrest
    obtain ⟨q, hq, rfl, hrest⟩ := (takes_expression_iff p).2 hread'
    have hparse : w.parse ⟨ts, .ok p⟩ = .ok (q.value, []) := by
      simp only [parse, hq, Except.map, hrest]
    rw [htokens]
    refine Run.outcome_bind_eq_ok.2 ⟨_, hparse, Run.outcome_bind_eq_ok.2 ⟨e, hsimplify, ?_⟩⟩
    exact Run.outcome_bind_eq_ok.2 ⟨(), rfl, rfl⟩

end Reckon
