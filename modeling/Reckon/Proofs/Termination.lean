import Reckon.Proofs.Contents
import Reckon.Proofs.Delivery
import Reckon.Proofs.Descent
import Reckon.Proofs.Rewriting
import Reckon.Proofs.Stepping

/-!
# Termination

A formula is compiled by loops that skip gaps and read tokens, by procedures that call one another
to read a tree, and by rounds that rewrite it. None of them counts its steps, and at the end of what
is ahead taking an item moves nothing. They all end nevertheless, whatever the bytes of the source
are: each token takes a character, and each part of a tree takes a token.

## Main definitions

* `Lexer.scan` — the next token, by loops.
* `Workspace.descend` — the simplified tree of some tokens, by recursive descent and rounds.

## Main statements

* `Workspace.compile_ends` — the loops and procedures end, and come to what compiling comes to.
-/

namespace Reckon

open Walk

variable {β γ : Type} {x : Except Error β} {c : γ}

theorem exists_of_map_eq_ok {f : β → γ} (h : x.map f = .ok c) : ∃ b, x = .ok b ∧ f b = c := by
  cases x with
  | error e => cases h
  | ok b => exact ⟨b, rfl, Except.ok.inj h⟩

theorem exists_of_bind_eq_ok {f : β → Except Error γ} (h : x >>= f = .ok c) :
    ∃ b, x = .ok b ∧ f b = .ok c := by
  cases x with
  | error e => cases h
  | ok b => exact ⟨b, rfl, h⟩

/-! ### Tokens -/

namespace Lexer

/-- What the lexer knows besides its characters. -/
def scanning (l : Lexer) : Scanning := ⟨l.pipeBrackets, l.last, l.failure⟩

/-- The next token. -/
def scan (l : Lexer) : Scanning.Scanner (Option Token) := l.scanning.token

theorem given_eq (l : Lexer) (s : Scan) : l.scanning.given s = (l.outcome s).map (·, s.rest) := by
  unfold Scanning.given Scanning.settle Scanning.edge outcome scanning
  cases l.failure with
  | none => rfl
  | some reason =>
    dsimp only
    split <;> rfl

theorem comesTo_scan (l : Lexer) (gs : List Glyph) :
    let s := Scan.read l.pipeBrackets l.last gs
    ComesTo l.scan gs ((l.outcome s).map (·, s.rest)) := by
  intro s
  rw [← given_eq]
  exact l.scanning.comesTo_token gs

/-- A call for a token ends, wherever the lexer is, and a token takes at least one character. -/
theorem advances_scan (l : Lexer) (gs : List Glyph) : Advances l.scan (·.isSome) gs := by
  refine (l.comesTo_scan gs).advances fun t? rest h hcount => ?_
  obtain ⟨t, rfl⟩ := Option.isSome_iff_exists.1 hcount
  obtain ⟨_, ho, hrest⟩ := exists_of_map_eq_ok h
  obtain ⟨rfl, rfl⟩ := Prod.mk.inj hrest
  rcases l.outcome_eq_or (Scan.read l.pipeBrackets l.last gs) with heq | ⟨reason, heq⟩
  · exact Scan.length_rest_lt (heq.symm.trans ho)
  · cases heq.symm.trans ho

end Lexer

/-- What the calls come to that give some tokens and then the end or an error. -/
def Tokens.outcomes (ts : Tokens) : List (Except Error (Option Token)) :=
  ts.ahead.map (fun t => .ok (some t)) ++ [ts.ending.map fun _ => none]

theorem Tokens.counted_outcomes (ts : Tokens) :
    counted (·.isSome) ts.outcomes = ts.ahead.length := by
  have hall : ((ts.ahead.map fun t => (.ok (some t) : Except Error (Option Token))).countP fun
      outcome => outcome.toOption.any (·.isSome)) = ts.ahead.length := by
    rw [List.countP_map]
    exact List.countP_eq_length.2 fun _ _ => rfl
  rw [counted, outcomes, List.countP_append, hall, List.countP_singleton]
  cases ts.ending <;> rfl

namespace Lexer

theorem of_fetch_ok {l l' : Lexer} {t? : Option Token} (h : fetch l = .ok t? l') :
    l.outcome l.next = .ok t? ∧ l' = l.advance l.next := by
  unfold fetch at h
  dsimp only at h
  split at h
  · next ho =>
    obtain ⟨rfl, rfl⟩ := EStateM.Result.ok.inj h
    exact ⟨ho, rfl⟩
  · cases h

theorem of_fetch_error {l l' : Lexer} {e : Error} (h : fetch l = .error e l') :
    l.outcome l.next = .error e := by
  unfold fetch at h
  dsimp only at h
  split at h
  · cases h
  · next ho =>
    obtain ⟨rfl, -⟩ := EStateM.Result.error.inj h
    exact ho

/-- A call comes to what the lexer gives, and leaves what the lexer then has ahead. -/
theorem scan_of_fetch {l l' : Lexer} {t? : Option Token} (h : fetch l = .ok t? l') :
    l.scan l.ahead = some (.ok t?, l'.ahead) := by
  obtain ⟨ho, rfl⟩ := of_fetch_ok h
  have hscan := l.comesTo_scan l.ahead
  dsimp only at hscan
  rw [ho] at hscan
  exact hscan.eq_some

/-- As many calls as there are tokens give the tokens, and one more gives the end or the error. -/
theorem exists_calls_tokens (l : Lexer) : ∃ rest,
    calls l.scan (l.tokens.ahead.length + 1) l.ahead = some (l.tokens.outcomes, rest) := by
  fun_induction tokens l
  case case1 l t l' hf _ rest ih =>
    obtain ⟨left, hcalls⟩ := ih
    have hsame : l'.scan = l.scan := by
      obtain ⟨-, rfl⟩ := of_fetch_ok hf
      rfl
    rw [hsame] at hcalls
    exact ⟨left, calls_succ (scan_of_fetch hf) hcalls⟩
  case case2 l l' hf => exact ⟨_, calls_succ (scan_of_fetch hf) rfl⟩
  case case3 l e l' hf =>
    have hscan := l.comesTo_scan l.ahead
    dsimp only at hscan
    rw [of_fetch_error hf] at hscan
    obtain ⟨left, hleft⟩ := hscan.exists_eq_some
    exact ⟨left, calls_succ hleft rfl⟩

end Lexer

theorem Lexeme.isEnd_of_outcome {pipes : Bool} {g : Glyph} {gs : List Glyph} {t : Token}
    (ho : (read pipes g gs).outcome = .ok t) : t.isEnd = false := by
  unfold read at ho
  split_ifs at ho with hnumber hletter hbracket hcontrol
  · obtain ⟨hkind, -, -⟩ := recorded_of_number ho
    have hkind := hkind.trans (numberText_read hnumber).isNumeral_recorded.kind_eq
    rw [Token.isEnd, hkind]
    split_ifs <;> rfl
  · obtain rfl := Except.ok.inj ho
    rfl
  · obtain rfl := Except.ok.inj ho
    unfold Token.ofGlyph
    split <;> rfl
  · unfold symbol at ho
    split at ho
    · split at ho
      all_goals
        obtain rfl := Except.ok.inj ho
        rfl
    · obtain rfl := Except.ok.inj ho
      rfl

theorem Lexer.endless_tokens (l : Lexer) : Descent.Endless l.tokens.ahead := by
  fun_induction tokens l
  case case1 l t l' hf _ rest ih =>
    obtain ⟨_, _, _, -, -, ho, -⟩ := Scan.exists_of_token (outcome_next_of_fetch hf)
    exact List.forall_mem_cons.2 ⟨Lexeme.isEnd_of_outcome ho, ih⟩
  case case2 | case3 => exact fun _ h => absurd h List.not_mem_nil

/-! ### Trees -/

namespace Descent

variable {α : Type} [Arithmetic α] [Numeral α] {d : Descent α} {ts : List Token}

theorem advances_of_comesTo {β : Type} {x : Rule β} {r : Except Error (Grammar.Parse β ts)}
    (h : ComesTo x ts (r.map view)) : Advances x (fun _ => true) ts := by
  refine h.advances fun b rest hb _ => ?_
  obtain ⟨p, -, hp⟩ := exists_of_map_eq_ok hb
  obtain ⟨-, rfl⟩ := Prod.mk.inj hp
  exact p.shorter

/-- To read an argument takes a token. -/
theorem length_lt_of_arguments {more : Bool}
    {p : List (Expr α) × { rest : List Token // rest.length ≤ ts.length }}
    (h : Grammar.arguments d.scope d.ending more ts = .ok p) (hp : p.1 ≠ []) :
    p.2.1.length < ts.length := by
  cases ts with
  | nil =>
    rw [Grammar.arguments] at h
    obtain ⟨-, -, rfl⟩ := exists_of_map_eq_ok h
    exact absurd rfl hp
  | cons t ts =>
    rw [Grammar.arguments] at h
    split at h
    · obtain rfl := Except.ok.inj h
      exact absurd rfl hp
    split at h
    · obtain ⟨comma, -, h⟩ := exists_of_bind_eq_ok h
      obtain ⟨a, -, h⟩ := exists_of_bind_eq_ok h
      obtain ⟨⟨args, close⟩, -, h⟩ := exists_of_bind_eq_ok h
      obtain rfl := Except.ok.inj h
      exact Nat.lt_of_le_of_lt close.2 (a.shorter.trans comma.shorter)
    · obtain ⟨a, -, h⟩ := exists_of_bind_eq_ok h
      obtain ⟨⟨args, close⟩, -, h⟩ := exists_of_bind_eq_ok h
      obtain rfl := Except.ok.inj h
      exact Nat.lt_of_le_of_lt close.2 a.shorter

theorem advances_arguments (args : List (Expr α)) (hts : Endless ts) :
    Advances (d.arguments args) (fun all => args.length < all.length) ts := by
  refine (comesTo_arguments args ts hts).advances fun all rest h hcount => ?_
  obtain ⟨p, hp, hall⟩ := exists_of_map_eq_ok h
  obtain ⟨rfl, rfl⟩ := Prod.mk.inj hall
  refine length_lt_of_arguments hp fun hnil => ?_
  simp [hnil] at hcount

end Descent

namespace Workspace

variable {α : Type} [Arithmetic α] [Numeral α]

/-- The simplified tree of some tokens. -/
def descend (w : Workspace α) (tokens : Tokens) : Option (Except Error (Expr α)) := do
  match ← (Descent.mk w.scope tokens.ending).expression tokens.ahead with
  | (.error e, _) => some (.error e)
  | (.ok e, rest) =>
    match ← e.rewrite w.store {} with
    | (.error e, _) => some (.error e)
    | (.ok e, _) => some ((finish tokens.ending rest).map fun _ => e)

theorem descend_eq (w : Workspace α) (tokens : Tokens) (h : Descent.Endless tokens.ahead) :
    w.descend tokens = some (w.read tokens).outcome := by
  have hparse : ComesTo (Descent.mk w.scope tokens.ending).expression tokens.ahead
      ((Grammar.expression w.scope tokens.ending tokens.ahead).map Descent.view) :=
    Descent.comesTo_expression tokens.ahead h
  rw [descend, read, parse]
  cases hp : Grammar.expression w.scope tokens.ending tokens.ahead with
  | error e =>
    rw [hp] at hparse
    obtain ⟨rest, hrest⟩ := hparse.exists_eq_some
    rw [hrest]
    rfl
  | ok p =>
    rw [hp] at hparse
    rw [hparse.eq_some]
    obtain ⟨steps, hrewrite, -⟩ := Expr.exists_ends_rewrite (s := w.store) p.value
    show (p.value.rewrite w.store {}).bind _ =
      some (Run.andThen (p.value.simplify w.store) _).outcome
    rw [hrewrite {}, Run.andThen]
    cases (p.value.simplify w.store).outcome with
    | error e => rfl
    | ok e =>
      show some ((finish tokens.ending p.rest).map fun _ => e) =
        some (Run.andThen (.ofExcept (finish tokens.ending p.rest)) fun _ => .done e).outcome
      cases finish tokens.ending p.rest <;> rfl

/-- Compiling ends, whatever the bytes of the source are. However often a token is asked for, each
call ends, and one that gives a token takes at least one character, so that there are no more tokens
than bytes. The calls give the tokens that are parsed. From any of them on each rule of the grammar
ends, takes at least one token if it succeeds, and none past the last, and so does the loop that
reads the arguments of a call for each argument. Compiling comes to a tree or an error: to what
descent comes to on the tokens. -/
theorem compile_ends (w : Workspace α) (settings : Settings) (source : Source) :
    let lexer := Lexer.ofSource settings source
    let tokens := lexer.tokens
    (∀ gs, Advances lexer.scan (·.isSome) gs) ∧
    (∀ n, ∃ outcomes rest, calls lexer.scan n source.glyphs = some (outcomes, rest) ∧
      outcomes.length = n ∧ counted (·.isSome) outcomes ≤ source.bytes.length) ∧
    (∃ rest, calls lexer.scan (tokens.ahead.length + 1) source.glyphs =
      some (tokens.outcomes, rest)) ∧
    tokens.ahead.length ≤ source.bytes.length ∧
    (∀ (scope : Scope α) (n : Nat),
      let d : Descent α := ⟨scope, tokens.ending⟩
      let ts := tokens.ahead.drop n
      Advances d.expression (fun _ => true) ts ∧
      (∀ r, Advances (d.chain r) (fun _ => true) ts) ∧
      Advances d.atom (fun _ => true) ts ∧
      ∀ args, Advances (d.arguments args) (fun all => args.length < all.length) ts) ∧
    (w.compile settings source).2.descend tokens =
      some (w.compile settings source).1.outcome := by
  intro lexer tokens
  have hendless := lexer.endless_tokens
  have hcalls (n : Nat) : ∃ outcomes rest,
      calls lexer.scan n source.glyphs = some (outcomes, rest) ∧
        outcomes.length = n ∧ counted (·.isSome) outcomes ≤ source.bytes.length := by
    obtain ⟨outcomes, rest, hcalls, hlength, hcounted⟩ :=
      exists_calls lexer.advances_scan n source.glyphs
    have hbytes : source.glyphs.length = source.bytes.length :=
      Source.length_glyphsFrom source.position source.bytes
    exact ⟨outcomes, rest, hcalls, hlength, by omega⟩
  refine ⟨lexer.advances_scan, hcalls, lexer.exists_calls_tokens, ?_, fun scope n => ?_, ?_⟩
  · obtain ⟨rest, htokens⟩ := lexer.exists_calls_tokens
    obtain ⟨outcomes, rest', hall, -, hcounted⟩ := hcalls (tokens.ahead.length + 1)
    obtain ⟨rfl, -⟩ := Prod.mk.inj (Option.some.inj (htokens.symm.trans hall))
    rwa [Tokens.counted_outcomes] at hcounted
  · have hts : Descent.Endless (tokens.ahead.drop n) :=
      hendless.of_suffix (List.drop_suffix n tokens.ahead)
    exact ⟨Descent.advances_of_comesTo (Descent.comesTo_expression _ hts),
      fun r => Descent.advances_of_comesTo (Descent.comesTo_chain r _ hts),
      Descent.advances_of_comesTo (Descent.comesTo_atom _ hts),
      fun args => Descent.advances_arguments args hts⟩
  · exact descend_eq _ tokens hendless

end Workspace

end Reckon
