import Reckon.Proofs.EndOfInput
import Reckon.Proofs.Locality
import Reckon.Proofs.Scanning

/-!
# Spelling

The loops that read names and numbers end, and so does what reads a symbol. They come to the lexeme
that begins at the same glyph. What they have read so far is a token that grows.

## Main definitions

* `Scanning.grow` — a token of which more has been read.

## Main statements

* `Scanning.comesTo_name`, `Scanning.comesTo_symbol`, `Scanning.comesTo_number` — the readers end,
  with the lexeme.
-/

namespace Reckon.Scanning

open Walk

variable {s : Scanning} {g h : Glyph} {gs : List Glyph}

/-! ### Texts of tokens -/

/-- A token of which more has been read. -/
def grow (t : Token) (kind : Token.Kind) (contents source : List Char) : Token :=
  { t with
    kind
    contents := t.contents ++ String.ofList contents
    source := t.source ++ String.ofList source }

section Texts

variable (t : Token) (kind kind' : Token.Kind) (cs cs' ds ds' : List Char) (c : Char)

theorem grow_nil : grow t t.kind [] [] = t := by
  simp [grow]

theorem grow_grow :
    grow (grow t kind cs ds) kind' cs' ds' = grow t kind' (cs ++ cs') (ds ++ ds') := by
  simp [grow, String.append_assoc]

theorem grow_empty (p : Position) :
    grow (Token.empty kind p) kind' cs ds = ⟨kind', String.ofList cs, "", String.ofList ds, p⟩ := by
  simp [grow, Token.empty]

theorem push_eq (s : String) : s.push c = s ++ String.ofList [c] := by
  apply String.toList_inj.1
  simp

theorem pushContent_eq : { t with kind : Token }.pushContent c = grow t kind [c] [c] := by
  rw [grow, ← push_eq, ← push_eq]
  rfl

theorem pushTrigger_eq (p : Position) (s : List Char) :
    (Lexeme.symbolToken s p).pushTrigger c = Lexeme.symbolToken (s ++ [c]) p := by
  have hpush : (String.ofList s).push c = String.ofList (s ++ [c]) := by
    rw [push_eq, String.ofList_append]
  simp only [Token.pushTrigger, Lexeme.symbolToken, hpush]

theorem pushSource_eq : t.pushSource c = grow t t.kind [] [c] := by
  rw [grow, ← push_eq]
  simp [Token.pushSource]

end Texts

/-! ### Names and symbols -/

theorem comesTo_nameFrom (s : Scanning) (t : Token) (gs : List Glyph) :
    ComesTo (s.nameFrom t) gs (settle s.edge 1 (gs.dropWhile Lexeme.isNamePart)
      (.ok (grow t t.kind ((gs.takeWhile Lexeme.isNamePart).map (·.char))
        ((gs.takeWhile Lexeme.isNamePart).map (·.char))))) := by
  induction gs generalizing t with
  | nil =>
    rw [nameFrom]
    refine comesTo_front_nil_bind Nat.one_pos fun hwhole => ?_
    rw [show Lexeme.isNamePart (.ending s.last) = false from rfl, if_neg Bool.false_ne_true]
    refine comesTo_settled ?_ fun e he => absurd he (hwhole e)
    exact (grow_nil t).symm ▸ comesTo_pure t []
  | cons g gs ih =>
    rw [nameFrom]
    refine comesTo_front_bind ?_
    split
    · next hpart =>
      rw [List.dropWhile_cons_of_pos hpart, List.takeWhile_cons_of_pos hpart]
      refine comesTo_consume_bind ?_
      have h := ih (t.pushContent g.char)
      rwa [pushContent_eq, grow_grow] at h
    · next hpart =>
      rw [List.dropWhile_cons_of_neg hpart, List.takeWhile_cons_of_neg hpart]
      refine comesTo_settled ?_ fun _ _ => Nat.succ_pos _
      exact (grow_nil t).symm ▸ comesTo_pure t _

theorem comesTo_name (g : Glyph) (gs : List Glyph) :
    ComesTo s.name (g :: gs) (settle s.edge (Lexeme.name g gs).looked (Lexeme.name g gs).rest
      (Lexeme.name g gs).outcome) := by
  rw [name]
  refine comesTo_consume_bind ?_
  have h := s.comesTo_nameFrom ((Token.empty .identifier g.position).pushContent g.char) gs
  rw [pushContent_eq, grow_grow, grow_empty] at h
  exact h

theorem char_eq_and_is (g h : Glyph) (c : Char) :
    (h.char == g.char && h.is c) = (g.char == c && h.is c) := by
  cases hc : h.is c with
  | false => rw [Bool.and_false, Bool.and_false]
  | true => rw [Glyph.char_of_is hc, BEq.comm]

theorem isPair_eq (g h : Glyph) :
    Lexeme.isPair g h = ((g.char == '&' && h.is '&') || (g.char == '|' && h.is '|') ||
      (g.char == '*' && h.is '*') || h.is '=') := by
  rw [Lexeme.isPair, Bool.or_comm, Glyph.isAny]
  simp only [List.any_cons, List.any_nil, Bool.or_false, Bool.and_or_distrib_left, char_eq_and_is,
    Bool.or_assoc]

theorem comesTo_symbol (g : Glyph) (gs : List Glyph)
    (hpoint : ∀ e, s.edge = .error e → ∀ h, gs = [h] → (g.is '-' && h.is '.') = false) :
    ComesTo s.symbol (g :: gs) (settle s.edge (Lexeme.symbol g gs).looked
      (Lexeme.symbol g gs).rest (Lexeme.symbol g gs).outcome) := by
  have hfirst : (Token.empty .symbol g.position).pushTrigger g.char =
      Lexeme.symbolToken [g.char] g.position := pushTrigger_eq g.char g.position []
  rw [symbol]
  refine comesTo_consume_bind ?_
  rw [hfirst]
  cases gs with
  | nil =>
    refine comesTo_front_nil_bind Nat.one_pos fun hwhole => ?_
    have hpair : Lexeme.isPair g (.ending s.last) = false := by
      simp [Lexeme.isPair, Glyph.isAny, is_ending]
    rw [← isPair_eq, hpair, if_neg Bool.false_ne_true]
    exact comesTo_settled (comesTo_pure _ _) fun e he => absurd he (hwhole e)
  | cons h hs =>
    refine comesTo_front_bind ?_
    rw [← isPair_eq]
    cases hpair : Lexeme.isPair g h with
    | true =>
      simp only [Lexeme.symbol, hpair, if_true]
      refine comesTo_consume_bind ?_
      rw [pushTrigger_eq]
      exact comesTo_settled (comesTo_pure _ _) fun _ _ => Nat.zero_le _
    | false =>
      simp only [Lexeme.symbol, hpair, Bool.false_eq_true, if_false]
      refine comesTo_settled (comesTo_pure _ _) fun e he => ?_
      split
      · next hminus =>
        cases hs with
        | nil => rw [hpoint e he h rfl] at hminus; cases hminus
        | cons h' hs => simp
      · simp

/-! ### Numbers -/

/-- What comes of a number of which `t` has been read, if `tail` is what is left of it. -/
def finish (t : Token) (tail : NumberTail) (place : Position) : Except Error Token :=
  let source := Lexeme.numberSource tail.glyphs
  let t := grow t tail.kind (source.filter (· != '_')) source
  let place := (tail.rest.head?.map (·.position)).getD place
  match tail.fault with
  | some .point => .error (.repeatedPoint t.source place)
  | some .exponent => .error (.repeatedExponent t.source place)
  | none => .ok t

/-- A number of which one more glyph has been read. -/
def record (t : Token) (kind : Token.Kind) (g : Glyph) : Token :=
  grow t kind ((Lexeme.numberSource [g]).filter (· != '_')) (Lexeme.numberSource [g])

theorem finish_cons (t : Token) (kind : Token.Kind) (g : Glyph) (tail : NumberTail)
    (place : Position) : finish t (tail.cons g) place = finish (record t kind g) tail place := by
  have hsource : Lexeme.numberSource (g :: tail.glyphs) =
      Lexeme.numberSource [g] ++ Lexeme.numberSource tail.glyphs := rfl
  simp only [finish, record, NumberTail.glyphs_cons, NumberTail.rest_cons, hsource,
    List.filter_append, grow_grow]
  rfl

/-- Nothing more is read of a number. -/
theorem finish_nil (t : Token) (rest : List Glyph) (fault : Option NumberFault) (place : Position) :
    finish t ⟨[], rest, t.kind, fault⟩ place =
      match fault with
      | some .point => .error (.repeatedPoint t.source ((rest.head?.map (·.position)).getD place))
      | some .exponent =>
        .error (.repeatedExponent t.source ((rest.head?.map (·.position)).getD place))
      | none => .ok t := by
  rw [finish]
  have hsource : Lexeme.numberSource [] = [] := rfl
  simp only [hsource, List.filter_nil, grow_nil]

theorem length_rest_le (kind : Token.Kind) (gs : List Glyph) :
    (NumberTail.read kind gs).rest.length ≤ gs.length := by
  have h := congrArg List.length (NumberTail.glyphs_append_rest kind gs)
  rw [List.length_append] at h
  omega

theorem pushContent_of_plain (t : Token) (kind : Token.Kind) {g : Glyph} (hg : g.char ≠ '_')
    (hmark : g.isExponentMark = false) :
    { t with kind : Token }.pushContent g.char = record t kind g := by
  simp [pushContent_eq, record, Lexeme.numberSource, hg, hmark]

theorem pushSource_of_underscore (t : Token) (hg : g.is '_') :
    t.pushSource g.char = record t t.kind g := by
  simp [pushSource_eq, record, Lexeme.numberSource, Glyph.isExponentMark, Glyph.isAny, Glyph.is,
    Glyph.char_of_is hg]

theorem of_isSign {g : Glyph} (h : g.isSign) : g.char ≠ '_' ∧ g.isExponentMark = false := by
  obtain ⟨c, hc, hg⟩ := List.any_eq_true.1 h
  obtain rfl := Glyph.char_of_is hg
  obtain hc | hc : g.char = '+' ∨ g.char = '-' := by simpa using hc
  all_goals simp [Glyph.isExponentMark, Glyph.isAny, Glyph.is, hc]

/-- What is recorded of the mark of an exponent is a capital. -/
theorem pushContent_of_mark (t : Token) (hmark : g.isExponentMark) :
    { t with kind := .scientific }.pushContent 'E' = record t .scientific g := by
  simp [pushContent_eq, record, Lexeme.numberSource, hmark]

theorem comesTo_exponent_signed (t : Token) (g : Glyph) (hsign : h.isSign) (gs : List Glyph) :
    ComesTo (s.exponent t) (g :: h :: gs)
      (.ok (({ t with kind := .scientific }.pushContent 'E').pushContent h.char, gs)) := by
  rw [exponent]
  refine comesTo_skip_bind (comesTo_front_bind ?_)
  rw [if_pos hsign]
  exact comesTo_consume_bind (comesTo_pure _ _)

theorem comesTo_exponent (t : Token) (g : Glyph) (hsign : ¬ h.isSign) (gs : List Glyph) :
    ComesTo (s.exponent t) (g :: h :: gs)
      (.ok ({ t with kind := .scientific }.pushContent 'E', h :: gs)) := by
  rw [exponent]
  refine comesTo_skip_bind (comesTo_front_bind ?_)
  rw [if_neg hsign]
  exact comesTo_pure _ _

theorem comesTo_numberFrom (place : Position) (t : Token)
    (ht : t.isNumber) (gs : List Glyph) :
    ComesTo (s.numberFrom t) gs (settle s.edge 2 (NumberTail.read t.kind gs).rest
      (finish t (NumberTail.read t.kind gs) place)) := by
  have hlength := length_rest_le t.kind gs
  rw [numberFrom]
  refine comesTo_peek_bind 0 (fun h => by omega) fun g hg => ?_
  refine comesTo_peek_bind 1 (fun h => by omega) fun h hh => ?_
  have hlooked (e : Error) (he : s.edge = .error e) : 2 ≤ gs.length := length_of_item hh he
  cases gs with
  | nil =>
    obtain hnone | ⟨-, rfl⟩ := item_eq hg
    · cases hnone
    rw [NumberTail.read, finish_nil]
    exact comesTo_settled (comesTo_pure t []) hlooked
  | cons g' gs =>
    obtain rfl : g' = g := Except.ok.inj hg
    have hdigit : nextIs Glyph.isDigit gs = h.isDigit := nextIs_of_item (fun _ => rfl) hh
    have hexponent : nextIs (fun h => h.isDigit || h.isSign) gs = (h.isDigit || h.isSign) :=
      nextIs_of_item (fun _ => rfl) hh
    rw [NumberTail.read.eq_def]
    simp only [hdigit, hexponent]
    by_cases hd : g'.isDigit
    · obtain ⟨-, -, hmark, -, hunder⟩ := Glyph.of_isDigit hd
      simp only [hd, Bool.true_or, if_true, NumberTail.rest_cons]
      rw [finish_cons t t.kind, ← pushContent_of_plain t t.kind hunder hmark]
      exact comesTo_consume_bind (comesTo_numberFrom place (t.pushContent _) ht gs)
    by_cases hunder : g'.is '_' && h.isDigit
    · simp only [hd, hunder, Bool.or_true, if_true, NumberTail.rest_cons]
      rw [finish_cons t t.kind, ← pushSource_of_underscore t (Bool.and_eq_true_iff.1 hunder).1]
      exact comesTo_consume_bind (comesTo_numberFrom place (t.pushSource _) ht gs)
    simp only [hd, hunder, Bool.or_self, Bool.false_eq_true, if_false]
    split
    · next hpoint =>
      have hchar : g'.char = '.' := Glyph.char_of_is hpoint
      have hmark : g'.isExponentMark = false := by
        simp [Glyph.isExponentMark, Glyph.isAny, Glyph.is, hchar]
      by_cases hk : t.kind = .integer
      · rw [if_neg (by simp [hk]), if_pos hk, NumberTail.rest_cons, finish_cons t .decimal,
          ← pushContent_of_plain t .decimal (by simp [hchar]) hmark]
        refine comesTo_consume_bind ?_
        exact comesTo_numberFrom place ({ t with kind := .decimal }.pushContent _) rfl gs
      · have hk' : t.kind = .decimal ∨ t.kind = .scientific := by
          cases hkind : t.kind <;> simp_all [Token.isNumber]
        rw [if_pos hk', if_neg hk, finish_nil]
        exact comesTo_failed hlooked
    split
    · next hmark =>
      split
      · next hk =>
        rw [finish_nil]
        exact comesTo_failed hlooked
      cases gs with
      | nil =>
        -- Past the last glyph there is neither a digit nor a sign.
        obtain hnone | ⟨-, rfl⟩ := item_eq hh
        · cases hnone
        · simp [show (Glyph.ending s.last).isDigit = false from rfl,
            show (Glyph.ending s.last).isSign = false from rfl] at hmark
      | cons h' gs =>
        obtain rfl : h' = h := Except.ok.inj hh
        have hcapital := pushContent_of_mark t (Bool.and_eq_true_iff.1 hmark).1
        by_cases hsign : h'.isSign
        · obtain ⟨hunder, hmark⟩ := of_isSign hsign
          simp only [hsign, if_true, NumberTail.rest_cons]
          rw [finish_cons t .scientific, ← hcapital, finish_cons _ .scientific,
            ← pushContent_of_plain _ .scientific hunder hmark]
          refine (comesTo_exponent_signed t g' hsign gs).bind_of_ok ?_
          exact comesTo_numberFrom place _ rfl gs
        · simp only [hsign, Bool.false_eq_true, if_false, NumberTail.rest_cons]
          rw [finish_cons t .scientific, ← hcapital]
          refine (comesTo_exponent t g' hsign gs).bind_of_ok ?_
          exact comesTo_numberFrom place _ rfl (h' :: gs)
    · rw [finish_nil]
      exact comesTo_settled (comesTo_pure t _) hlooked
termination_by gs.length

theorem of_beginsNumber (h : Lexeme.beginsNumber g gs) :
    g.char ≠ '_' ∧ g.isExponentMark = false := by
  simp only [Lexeme.beginsNumber, Bool.or_eq_true, Bool.and_eq_true] at h
  obtain (hd | ⟨hg, -⟩) | ⟨hg, -⟩ := h
  · obtain ⟨-, -, hmark, -, hunder⟩ := Glyph.of_isDigit hd
    exact ⟨hunder, hmark⟩
  all_goals
    have hchar := Glyph.char_of_is hg
    simp [Glyph.isExponentMark, Glyph.isAny, Glyph.is, hchar]

theorem comesTo_number (h : Lexeme.beginsNumber g gs) :
    ComesTo s.number (g :: gs) (settle s.edge (Lexeme.number g gs).looked
      (Lexeme.number g gs).rest (Lexeme.number g gs).outcome) := by
  obtain ⟨hunder, hmark⟩ := of_beginsNumber h
  generalize hkind : (if g.is '.' then Token.Kind.decimal else .integer) = kind
  have ht : (Token.empty kind g.position).isNumber := by
    rw [← hkind]
    split <;> rfl
  have hfinish : finish ((Token.empty kind g.position).pushContent g.char)
      (NumberTail.read kind gs) g.position = (Lexeme.number g gs).outcome := by
    have hpush := pushContent_of_plain (Token.empty kind g.position) kind hunder hmark
    rw [show (Token.empty kind g.position).pushContent g.char = _ from hpush, ← finish_cons]
    simp only [finish, Lexeme.number, hkind, grow_empty]
    rfl
  rw [number]
  refine comesTo_consume_bind ?_
  rw [hkind, ← hfinish, Lexeme.number, hkind]
  exact comesTo_numberFrom g.position ((Token.empty kind g.position).pushContent g.char) ht gs

end Reckon.Scanning
