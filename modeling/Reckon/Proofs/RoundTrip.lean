import Reckon.Compile
import Reckon.Number.Double
import Reckon.Proofs.Accepting
import Reckon.Proofs.Lexing
import Reckon.Proofs.Sealing

/-!
# Written trees are read back

A tree is written with brackets around every operator, so that no rank and no chain has a say in how
it is read: every part of it is an atom. What has to be seen is that the lexer takes the names, the
numbers and the operators whole, whatever stands before and after them.

## Main definitions

* `IsIdentifier` — a name that can be written in a formula.
* `Numeral.ReadsBack` — a number whose written form names it.
* `Expr.Legible` — a tree whose names are bound to what they name, and whose numbers are all of some
  kind.

## Main statements

* `Expr.written` — the tokens of a written tree are read as the tree, with all its operators sealed.
* `Workspace.compile_text` — to compile a written tree is to simplify the tree.
-/

namespace Reckon

/-! ### Texts and their glyphs -/

/-- The bytes of a text of ASCII characters are its characters. -/
theorem toList_utf8Encode {cs : List Char} (h : ∀ c ∈ cs, c.toNat < 128) :
    cs.utf8Encode.data.toList.map Char.ofUInt8 = cs := by
  induction cs with
  | nil => rfl
  | cons c cs ih =>
    have hc : c.toNat < 128 := h c (by simp)
    have hsize : c.utf8Size = 1 := by
      rw [Char.utf8Size_eq_one_iff, UInt32.le_iff_toNat_le]
      exact Nat.le_of_lt_succ hc
    rw [List.utf8Encode_cons, ByteArray.toList_data_append, List.map_append,
      ih fun d hd => h d (by simp [hd]), List.utf8Encode_singleton,
      String.utf8EncodeChar_eq_singleton hsize, List.data_toByteArray]
    simp [ofUInt8_toUInt8 (Nat.lt_trans hc (by decide))]

namespace Source

theorem map_char_glyphsFrom (p : Position) (bytes : List UInt8) :
    (glyphsFrom p bytes).map (·.char) = bytes.map Char.ofUInt8 := by
  induction bytes generalizing p with
  | nil => rfl
  | cons b bytes ih => rw [glyphsFrom, List.map_cons, List.map_cons, ih]

theorem map_char_glyphs_ofString {cs : List Char} (h : ∀ c ∈ cs, c.toNat < 128) :
    (ofString (String.ofList cs)).glyphs.map (·.char) = cs := by
  rw [glyphs, map_char_glyphsFrom]
  simpa [ofString] using toList_utf8Encode h

end Source

/-! ### Legible trees -/

/-- A letter and then letters, digits and underscores, all of them ASCII characters. -/
def IsIdentifier (name : String) : Prop :=
  ∃ c cs, name.toList = c :: cs ∧ c.isAlpha ∧ ∀ d ∈ cs, d.isAlphanum ∨ d = '_'

/-- The written form of a number is a plain decimal that names the number. -/
def Numeral.ReadsBack {α : Type} [Numeral α] (x : α) : Prop :=
  Decimal.IsPlain (text x).toList ∧ (Decimal.read? (text x).toList).map ofDecimal = some x

mutual

/-- The numbers of a tree satisfy `P`, and its names are identifiers that a scope binds to the
variables and functions of the tree. -/
def Expr.Legible {α : Type} (scope : Scope α) (P : α → Prop) : Expr α → Prop
  | .constant x => P x
  | .variable v => IsIdentifier v.name ∧ scope.findVariable? v.name = some v
  | .binary _ l r _ => l.Legible scope P ∧ r.Legible scope P
  | .call f arguments =>
    IsIdentifier f.name ∧ scope.findFunction? f.name = some f ∧
      Expr.AllLegible scope P arguments

/-- Several trees are legible. -/
def Expr.AllLegible {α : Type} (scope : Scope α) (P : α → Prop) : List (Expr α) → Prop
  | [] => True
  | e :: es => e.Legible scope P ∧ Expr.AllLegible scope P es

end

/-- A result that is there is a run without any call. -/
theorem Run.ofExcept_ok {β : Type} (b : β) : ofExcept (.ok b) = pure b := rfl

section Written

variable {α : Type} [Arithmetic α] [Numeral α] {scope : Scope α}

/-! ### Reading atoms -/

namespace Reads

variable {e l r : Expr α} {ts us rest : List Token}

/-- An atom is an operand of every rank. -/
theorem operand_of_atom (h : Reads scope (.atom e) ts rest) (r : Rank) :
    Reads scope (.operand r e) ts rest := by
  have step {r r' : Rank} (hr : r.tighter? = some r') (h : Reads scope (.operand r' e) ts rest) :
      Reads scope (.operand r e) ts rest := by
    have h := Reads.inner hr (.single h)
    rwa [Rank.nest_nil] at h
  have hpower : Reads scope (.operand .power e) ts rest := .innermost h
  have hproduct := step (r := .product) rfl hpower
  have hsum := step (r := .sum) rfl hproduct
  have hrelational := step (r := .relational) rfl hsum
  cases r with
  | boolean => exact step rfl hrelational
  | relational => exact hrelational
  | sum => exact hsum
  | product => exact hproduct
  | power => exact hpower

/-- A chain of any rank is an expression. -/
theorem expression_of_chain {r : Rank} {tail : List (Operator × Expr α)}
    (h : Reads scope (.chain r e tail) ts rest) :
    Reads scope (.expression (r.nest e tail)) ts rest := by
  have step {r r' : Rank} {first : Expr α} {tail : List (Operator × Expr α)}
      (hr : r.tighter? = some r') (h : Reads scope (.chain r' first tail) ts rest) :
      Reads scope (.chain r (r'.nest first tail) []) ts rest := .single (.inner hr h)
  have hboolean {first : Expr α} (h : Reads scope (.chain .boolean first []) ts rest) :
      Reads scope (.expression first) ts rest := .unconditional h
  have hrelational {first : Expr α} (h : Reads scope (.chain .relational first []) ts rest) :
      Reads scope (.expression first) ts rest := hboolean (step (r := .boolean) rfl h)
  have hsum {first : Expr α} (h : Reads scope (.chain .sum first []) ts rest) :
      Reads scope (.expression first) ts rest := hrelational (step (r := .relational) rfl h)
  have hproduct {first : Expr α} (h : Reads scope (.chain .product first []) ts rest) :
      Reads scope (.expression first) ts rest := hsum (step (r := .sum) rfl h)
  cases r with
  | boolean => exact .unconditional h
  | relational => exact hboolean (step rfl h)
  | sum => exact hrelational (step rfl h)
  | product => exact hsum (step rfl h)
  | power => exact hproduct (step rfl h)

/-- Two atoms with an operator between them are an expression. -/
theorem expression_of_atoms {op : Operator} {t : Token} (hl : Reads scope (.atom l) ts (t :: us))
    (ht : t.isAnySymbol) (hop : t.trigger = op.symbol) (hr : Reads scope (.atom r) us rest) :
    Reads scope (.expression (.join op l r)) ts rest := by
  have hlookup : op.rank.operators.lookup t.trigger = some op := by
    rw [hop]
    cases op <;> rfl
  have h := expression_of_chain
    (.more (hl.operand_of_atom op.rank) ht hlookup (.single (hr.operand_of_atom op.rank)))
  have hnest : op.rank.nest l [(op, r)] = .join op l r := by
    cases op <;> rfl
  rwa [hnest] at h

theorem expression_of_atom (h : Reads scope (.atom e) ts rest) :
    Reads scope (.expression e) ts rest := by
  have h := expression_of_chain (.single (h.operand_of_atom .boolean))
  rwa [Rank.nest_nil] at h

end Reads

/-! ### Cutting written trees -/

theorem Glyph.exists_of_map_char {gs : List Glyph} {c : Char} {cs : List Char}
    (h : gs.map (·.char) = c :: cs) : ∃ p gs', gs = ⟨c, p⟩ :: gs' ∧ gs'.map (·.char) = cs := by
  obtain ⟨⟨_, p⟩, gs', rfl, rfl, h'⟩ := List.map_eq_cons_iff.1 h
  exact ⟨p, gs', rfl, h'⟩

theorem Glyph.endsWord_blank (p : Position) (gs : List Glyph) :
    ∀ h ∈ (⟨' ', p⟩ :: gs : List Glyph).head?, h.EndsWord := by
  rintro h ⟨⟩
  simp [EndsWord]

theorem Glyph.endsWord_opening (p : Position) (gs : List Glyph) :
    ∀ h ∈ (⟨'(', p⟩ :: gs : List Glyph).head?, h.EndsWord := by
  rintro h ⟨⟩
  simp [EndsWord]

theorem Glyph.endsWord_closing (p : Position) (gs : List Glyph) :
    ∀ h ∈ (⟨')', p⟩ :: gs : List Glyph).head?, h.EndsWord := by
  rintro h ⟨⟩
  simp [EndsWord]

variable {P : α → Prop} {pipes : Bool} {last : Position}

/-- Wherever some glyphs stand, they are cut into tokens that are read as a phrase. -/
def Phrase.Written (scope : Scope α) (pipes : Bool) (last : Position) (ph : Phrase α)
    (gs : List Glyph) : Prop :=
  ∀ rest : List Glyph, (∀ h ∈ rest.head?, h.EndsWord) →
    ∃ t ts, Cuts pipes last (gs ++ rest) (t :: ts) rest ∧
      ∀ more, Reads scope ph (t :: (ts ++ more)) more

/-- The same for arguments, which may be none. They stand before a closing bracket. -/
def Phrase.WrittenInside (scope : Scope α) (pipes : Bool) (last : Position) (ph : Phrase α)
    (gs : List Glyph) : Prop :=
  ∀ (p : Position) (rest : List Glyph),
    ∃ ts, Cuts pipes last (gs ++ ⟨')', p⟩ :: rest) ts (⟨')', p⟩ :: rest) ∧
      ∀ more, Reads scope ph (ts ++ more) more

theorem written_number {x : α} {gs : List Glyph} (hx : Numeral.ReadsBack x)
    (hgs : gs.map (·.char) = (Numeral.text x).toList) :
    (Phrase.atom (.constant x)).Written scope pipes last gs := by
  intro rest hrest
  obtain ⟨hplain, hread⟩ := hx
  rw [← hgs] at hplain hread
  obtain ⟨t, ht, hcontents, hcuts⟩ := Cuts.number pipes last hplain hrest
  refine ⟨t, [], hcuts, fun more => ?_⟩
  cases hd : Decimal.read? (gs.map (·.char)) with
  | none => simp [hd] at hread
  | some d =>
    obtain rfl : Numeral.ofDecimal d = x := by simpa [hd] using hread
    exact .number ht (by rw [hcontents, String.toList_ofList, hd])

theorem Glyph.isNamePart_of_isAlphanum {g : Glyph} (h : g.char.isAlphanum ∨ g.char = '_') :
    Lexeme.isNamePart g := by
  rcases g with ⟨c, p⟩
  rcases h with h | rfl
  · rcases Bool.or_eq_true_iff.1 h with h | h
    · simp [Lexeme.isNamePart, isLetter, h]
    · simp [Lexeme.isNamePart, isDigit, h]
  · rfl

variable (pipes last) in
/-- A name is cut off as one token. -/
theorem IsIdentifier.exists_token {name : String} {gs rest : List Glyph} (hn : IsIdentifier name)
    (hgs : gs.map (·.char) = name.toList) (hrest : ∀ h ∈ rest.head?, h.EndsWord) :
    ∃ t : Token, t.isIdentifier ∧ t.contents = name ∧ Cuts pipes last (gs ++ rest) [t] rest := by
  obtain ⟨c, cs, hname, hc, hcs⟩ := hn
  rw [hname] at hgs
  obtain ⟨g, hs, rfl, rfl, rfl⟩ := List.map_eq_cons_iff.1 hgs
  have hpart : ∀ h ∈ hs, Lexeme.isNamePart h := by
    intro h hh
    have hd := hcs h.char (List.mem_map_of_mem hh)
    exact Glyph.isNamePart_of_isAlphanum hd
  obtain ⟨t, ht, hcontents, hcuts⟩ := Cuts.name pipes last hc hpart hrest
  refine ⟨t, ht, ?_, hcuts⟩
  rw [hcontents, List.map_cons, ← hname, String.ofList_toList]

theorem written_variable {v : Variable} {gs : List Glyph} (hn : IsIdentifier v.name)
    (hv : scope.findVariable? v.name = some v) (hgs : gs.map (·.char) = v.name.toList) :
    (Phrase.atom (.variable v)).Written scope pipes last gs := by
  intro rest hrest
  obtain ⟨t, ht, hcontents, hcuts⟩ := hn.exists_token pipes last hgs hrest
  exact ⟨t, [], hcuts, fun more => .named ht (by rw [hcontents, hv])⟩

theorem written_binary {op : Operator} {l r : Expr α} {gl gop gr : List Glyph} {p p' q q' : Position}
    (hl : (Phrase.atom l).Written scope pipes last gl) (hop : gop.map (·.char) = op.symbol.toList)
    (hr : (Phrase.atom r).Written scope pipes last gr) :
    (Phrase.atom (.binary op l r true)).Written scope pipes last
      (⟨'(', p⟩ :: (gl ++ ⟨' ', q⟩ :: (gop ++ ⟨' ', q'⟩ :: (gr ++ [⟨')', p'⟩])))) := by
  intro rest _
  obtain ⟨t, ht, hopen⟩ := Cuts.opening pipes last p
  obtain ⟨tl, tls, hcl, hrl⟩ := hl _ (Glyph.endsWord_blank q _)
  obtain ⟨top, htop, htrigger, hcop⟩ := Cuts.operator pipes last q' hop
  obtain ⟨tr, trs, hcr, hrr⟩ := hr _ (Glyph.endsWord_closing p' _)
  obtain ⟨u, hu, hclosing⟩ := Cuts.closing pipes last p' rest
  have hcuts := hopen.append (hcl.append ((Cuts.blank rfl hcop).append
    ((Cuts.blank rfl hcr).append hclosing)))
  refine ⟨t, tl :: (tls ++ top :: tr :: (trs ++ [u])), by simpa using hcuts, fun more => ?_⟩
  -- The written operands are atoms, so that no operator is drawn to the wrong side of them.
  have hread := Reads.brackets ht (.expression_of_atoms (hrl _) htop htrigger (hrr (u :: more))) hu
  simpa [Expr.sealTop, Expr.join] using hread

theorem written_call {f : Function α} {es : List (Expr α)} {gname gargs : List Glyph}
    {p p' : Position} (hn : IsIdentifier f.name) (hf : scope.findFunction? f.name = some f)
    (hname : gname.map (·.char) = f.name.toList)
    (hargs : (Phrase.arguments es).WrittenInside scope pipes last gargs) :
    (Phrase.atom (.call f es)).Written scope pipes last
      (gname ++ ⟨'(', p⟩ :: (gargs ++ [⟨')', p'⟩])) := by
  intro rest _
  obtain ⟨ts, hcargs, hrargs⟩ := hargs p' rest
  obtain ⟨u, hu, hopen⟩ := Cuts.opening pipes last p
  obtain ⟨v, hv, hclosing⟩ := Cuts.closing pipes last p' rest
  obtain ⟨t, ht, hcontents, hcname⟩ := hn.exists_token pipes last hname
    (Glyph.endsWord_opening p (gargs ++ ⟨')', p'⟩ :: rest))
  have hcuts := hcname.append (hopen.append (hcargs.append hclosing))
  refine ⟨t, u :: (ts ++ [v]), by simpa using hcuts, fun more => ?_⟩
  simpa using Reads.call ht hu (by rw [hcontents, hf]) (hrargs (v :: more)) hv

/-- What stands between two arguments, or after the last. -/
theorem Glyph.endsWord_arguments {gs : List Glyph} (p : Position) (rest : List Glyph)
    (h : ∀ g ∈ gs.head?, g.char = ',') : ∀ g ∈ (gs ++ ⟨')', p⟩ :: rest).head?, g.EndsWord := by
  cases gs with
  | nil => exact endsWord_closing p rest
  | cons g gs =>
    rintro _ ⟨⟩
    simp [EndsWord, h g rfl]

theorem writtenInside_arguments {e : Expr α} {es : List (Expr α)} {ge gs : List Glyph}
    (he : (Phrase.atom e).Written scope pipes last ge)
    (hes : (Phrase.moreArguments es).WrittenInside scope pipes last gs)
    (hgs : ∀ g ∈ gs.head?, g.char = ',') :
    (Phrase.arguments (e :: es)).WrittenInside scope pipes last (ge ++ gs) := by
  intro p rest
  obtain ⟨t, ts, hce, hre⟩ := he _ (Glyph.endsWord_arguments p rest hgs)
  obtain ⟨us, hces, hres⟩ := hes p rest
  refine ⟨t :: ts ++ us, by simpa using hce.append hces, fun more => ?_⟩
  simpa using Reads.someArguments (.expression_of_atom (hre (us ++ more))) (hres more)

theorem writtenInside_moreArguments {e : Expr α} {es : List (Expr α)} {ge gs : List Glyph}
    {p q : Position} (he : (Phrase.atom e).Written scope pipes last ge)
    (hes : (Phrase.moreArguments es).WrittenInside scope pipes last gs)
    (hgs : ∀ g ∈ gs.head?, g.char = ',') :
    (Phrase.moreArguments (e :: es)).WrittenInside scope pipes last
      (⟨',', p⟩ :: ⟨' ', q⟩ :: (ge ++ gs)) := by
  intro p' rest
  obtain ⟨t, ts, hce, hre⟩ := he _ (Glyph.endsWord_arguments p' rest hgs)
  obtain ⟨us, hces, hres⟩ := hes p' rest
  obtain ⟨u, hu, hcomma⟩ := Cuts.comma pipes last p q
  have hcuts := hcomma.append ((Cuts.blank rfl hce).append hces)
  refine ⟨u :: (t :: ts ++ us), by simpa using hcuts, fun more => ?_⟩
  simpa using Reads.oneMore hu (.expression_of_atom (hre (us ++ more))) (hres more)

omit [Arithmetic α] in
/-- Further arguments begin with a comma. -/
theorem Expr.head?_of_charsOfMore {es : List (Expr α)} {gs : List Glyph}
    (h : gs.map (·.char) = charsOfMore es) : ∀ g ∈ gs.head?, g.char = ',' := by
  rintro g hg
  cases es with
  | nil =>
    rw [charsOfMore, List.map_eq_nil_iff] at h
    rw [h] at hg
    cases hg
  | cons e es =>
    rw [charsOfMore] at h
    obtain ⟨p, gs', rfl, -⟩ := Glyph.exists_of_map_char h
    obtain rfl := Option.some.inj hg
    rfl

mutual

/-- A legible tree is written in such a way that it is read back, sealed. -/
theorem Expr.written (hP : ∀ x, P x → Numeral.ReadsBack x) :
    ∀ e : Expr α, e.Legible scope P → ∀ {gs : List Glyph}, gs.map (·.char) = e.chars →
      (Phrase.atom (e.withSeals true)).Written scope pipes last gs
  | .constant x, he, gs, hgs => by
    rw [Legible] at he
    rw [chars] at hgs
    rw [withSeals]
    exact written_number (hP x he) hgs
  | .variable v, he, gs, hgs => by
    rw [Legible] at he
    rw [chars] at hgs
    rw [withSeals]
    exact written_variable he.1 he.2 hgs
  | .binary op l r _, he, gs, hgs => by
    rw [Legible] at he
    rw [chars] at hgs
    rw [withSeals]
    obtain ⟨p, gs₁, rfl, hgs₁⟩ := Glyph.exists_of_map_char hgs
    obtain ⟨gl, gs₂, rfl, hl, hgs₂⟩ := List.map_eq_append_iff.1 hgs₁
    obtain ⟨q, gs₃, rfl, hgs₃⟩ := Glyph.exists_of_map_char hgs₂
    obtain ⟨gop, gs₄, rfl, hop, hgs₄⟩ := List.map_eq_append_iff.1 hgs₃
    obtain ⟨q', gs₅, rfl, hgs₅⟩ := Glyph.exists_of_map_char hgs₄
    obtain ⟨gr, gs₆, rfl, hr, hgs₆⟩ := List.map_eq_append_iff.1 hgs₅
    obtain ⟨p', gs₇, rfl, hgs₇⟩ := Glyph.exists_of_map_char hgs₆
    obtain rfl := List.map_eq_nil_iff.1 hgs₇
    exact written_binary (written hP l he.1 hl) hop (written hP r he.2 hr)
  | .call f arguments, he, gs, hgs => by
    rw [Legible] at he
    rw [chars] at hgs
    rw [withSeals]
    obtain ⟨gname, gs₁, rfl, hname, hgs₁⟩ := List.map_eq_append_iff.1 hgs
    obtain ⟨p, gs₂, rfl, hgs₂⟩ := Glyph.exists_of_map_char hgs₁
    obtain ⟨gargs, gs₃, rfl, hargs, hgs₃⟩ := List.map_eq_append_iff.1 hgs₂
    obtain ⟨p', gs₄, rfl, hgs₄⟩ := Glyph.exists_of_map_char hgs₃
    obtain rfl := List.map_eq_nil_iff.1 hgs₄
    exact written_call he.1 he.2.1 hname (written_arguments hP arguments he.2.2 hargs)

theorem Expr.written_arguments (hP : ∀ x, P x → Numeral.ReadsBack x) :
    ∀ es : List (Expr α), AllLegible scope P es → ∀ {gs : List Glyph},
      gs.map (·.char) = charsOfAll es →
        (Phrase.arguments (allWithSeals true es)).WrittenInside scope pipes last gs
  | [], _, gs, hgs => by
    rw [charsOfAll] at hgs
    obtain rfl := List.map_eq_nil_iff.1 hgs
    rw [allWithSeals]
    exact fun p rest => ⟨[], .none, fun more => .noArguments⟩
  | e :: es, he, gs, hgs => by
    rw [AllLegible] at he
    rw [charsOfAll] at hgs
    rw [allWithSeals]
    obtain ⟨ge, gs₁, rfl, hge, hgs₁⟩ := List.map_eq_append_iff.1 hgs
    exact writtenInside_arguments (written hP e he.1 hge) (written_moreArguments hP es he.2 hgs₁)
      (head?_of_charsOfMore hgs₁)

theorem Expr.written_moreArguments (hP : ∀ x, P x → Numeral.ReadsBack x) :
    ∀ es : List (Expr α), AllLegible scope P es → ∀ {gs : List Glyph},
      gs.map (·.char) = charsOfMore es →
        (Phrase.moreArguments (allWithSeals true es)).WrittenInside scope pipes last gs
  | [], _, gs, hgs => by
    rw [charsOfMore] at hgs
    obtain rfl := List.map_eq_nil_iff.1 hgs
    rw [allWithSeals]
    exact fun p rest => ⟨[], .none, fun more => .noMore⟩
  | e :: es, he, gs, hgs => by
    rw [AllLegible] at he
    rw [charsOfMore] at hgs
    rw [allWithSeals]
    obtain ⟨p, gs₁, rfl, hgs₁⟩ := Glyph.exists_of_map_char hgs
    obtain ⟨q, gs₂, rfl, hgs₂⟩ := Glyph.exists_of_map_char hgs₁
    obtain ⟨ge, gs₃, rfl, hge, hgs₃⟩ := List.map_eq_append_iff.1 hgs₂
    exact writtenInside_moreArguments (written hP e he.1 hge) (written_moreArguments hP es he.2 hgs₃)
      (head?_of_charsOfMore hgs₃)

end

/-! ### Written trees as sources -/

theorem toNat_lt_of_isAlpha {c : Char} (h : c.isAlpha) : c.toNat < 128 := by
  have := isAlpha_iff_toNat.1 h
  omega

theorem toNat_lt_of_isDigit {c : Char} (h : c.isDigit) : c.toNat < 128 := by
  have : c.toNat ≤ 57 := (Char.isDigit_iff_toNat.1 h).2
  omega

theorem IsIdentifier.isAscii {name : String} (h : IsIdentifier name) :
    ∀ c ∈ name.toList, c.toNat < 128 := by
  obtain ⟨c, cs, hname, hc, hcs⟩ := h
  intro d hd
  rw [hname] at hd
  obtain rfl | hd := List.mem_cons.1 hd
  · exact toNat_lt_of_isAlpha hc
  · obtain h | rfl := hcs d hd
    · exact (Bool.or_eq_true_iff.1 h).elim toNat_lt_of_isAlpha toNat_lt_of_isDigit
    · decide

theorem Decimal.IsPlain.isAscii {cs : List Char} (h : IsPlain cs) : ∀ c ∈ cs, c.toNat < 128 := by
  obtain ⟨sign, whole, fraction, rfl, hsign, -, hwhole, hfraction⟩ := h
  intro c hc
  rcases List.mem_append.1 hc with hc | hc
  · rcases hsign with rfl | rfl
    · cases hc
    · rw [List.mem_singleton.1 hc]
      decide
  · rcases List.mem_append.1 hc with hc | hc
    · exact toNat_lt_of_isDigit (hwhole c hc)
    · obtain rfl | ⟨places, rfl, hplaces⟩ := hfraction
      · cases hc
      · obtain rfl | hc := List.mem_cons.1 hc
        · decide
        · exact toNat_lt_of_isDigit (hplaces c hc)

theorem Operator.isAscii_symbol (op : Operator) : ∀ c ∈ op.symbol.toList, c.toNat < 128 := by
  have hall : op.symbol.toList.all (fun c => c.toNat < 128) := by cases op <;> decide
  exact fun c hc => of_decide_eq_true (List.all_eq_true.1 hall c hc)

omit [Arithmetic α] in
mutual

/-- Legible trees are written in ASCII characters. -/
theorem Expr.isAscii_chars (hP : ∀ x, P x → Numeral.ReadsBack x) :
    ∀ e : Expr α, e.Legible scope P → ∀ c ∈ e.chars, c.toNat < 128
  | .constant x, he => by
    rw [Legible] at he
    rw [chars]
    exact (hP x he).1.isAscii
  | .variable v, he => by
    rw [Legible] at he
    rw [chars]
    exact he.1.isAscii
  | .binary op l r _, he => by
    rw [Legible] at he
    have hl := isAscii_chars hP l he.1
    have hr := isAscii_chars hP r he.2
    have hop := op.isAscii_symbol
    rw [chars]
    simp only [List.forall_mem_cons, List.forall_mem_append]
    exact ⟨by decide, hl, by decide, hop, by decide, hr, by decide, List.forall_mem_nil _⟩
  | .call f arguments, he => by
    rw [Legible] at he
    have harguments := isAscii_charsOfAll hP arguments he.2.2
    rw [chars]
    simp only [List.forall_mem_cons, List.forall_mem_append]
    exact ⟨he.1.isAscii, by decide, harguments, by decide, List.forall_mem_nil _⟩

theorem Expr.isAscii_charsOfAll (hP : ∀ x, P x → Numeral.ReadsBack x) :
    ∀ es : List (Expr α), AllLegible scope P es → ∀ c ∈ charsOfAll es, c.toNat < 128
  | [], _ => by simp [charsOfAll]
  | e :: es, he => by
    rw [AllLegible] at he
    have hfirst := isAscii_chars hP e he.1
    have hmore := isAscii_charsOfMore hP es he.2
    rw [charsOfAll]
    simp only [List.forall_mem_append]
    exact ⟨hfirst, hmore⟩

theorem Expr.isAscii_charsOfMore (hP : ∀ x, P x → Numeral.ReadsBack x) :
    ∀ es : List (Expr α), AllLegible scope P es → ∀ c ∈ charsOfMore es, c.toNat < 128
  | [], _ => by simp [charsOfMore]
  | e :: es, he => by
    rw [AllLegible] at he
    have hfirst := isAscii_chars hP e he.1
    have hmore := isAscii_charsOfMore hP es he.2
    rw [charsOfMore]
    simp only [List.forall_mem_cons, List.forall_mem_append]
    exact ⟨by decide, by decide, hfirst, hmore⟩

end

/-- A legible tree that is written and parsed comes back, apart from its seals. So to compile what
is written is to simplify the tree: the outcome is the same tree, apart from its seals, or the same
error. -/
theorem Workspace.compile_text {w : Workspace α} {settings : Settings} {e : Expr α}
    (hP : ∀ x, P x → Numeral.ReadsBack x) (hs : settings.namedConstants = false)
    (he : e.Legible w.scope P) :
    (∃ e', w.parse (Lexer.ofSource settings (.ofString e.text)).tokens = .ok (e', []) ∧
        e'.unsealed = e.unsealed) ∧
      Expr.unsealed <$> (w.compile settings (.ofString e.text)).1 =
        Expr.unsealed <$> e.simplify w.store := by
  set l := Lexer.ofSource settings (.ofString e.text) with hl
  have hchars : l.ahead.map (·.char) = e.chars :=
    Source.map_char_glyphs_ofString (e.isAscii_chars hP he)
  have hwritten : (Phrase.atom (e.withSeals true)).Written w.scope l.pipeBrackets l.last l.ahead :=
    e.written hP he hchars
  obtain ⟨t, ts, hcuts, hread⟩ := hwritten [] (by rintro h ⟨⟩)
  rw [List.append_nil] at hcuts
  obtain ⟨place, htokens⟩ := Lexer.tokens_of_cuts rfl hcuts
  have hparse : w.parse l.tokens = .ok (e.withSeals true, []) := by
    rw [htokens]
    have h := (takes_expression_iff place).2 (.expression_of_atom (hread []))
    rw [List.append_nil] at h
    obtain ⟨p, hp, hvalue, hrest⟩ := h
    simp [parse, hp, hvalue, hrest, Except.map]
  refine ⟨⟨_, hparse, Expr.unsealed_withSeals _ e⟩, ?_⟩
  have hcompile : (w.compile settings (.ofString e.text)).1 = (e.withSeals true).simplify w.store := by
    have hfinish : finish l.tokens.ending [] = .ok () := by rw [htokens]; rfl
    simp only [compile, hs, Bool.false_eq_true, if_false, ← hl, read, hparse]
    simp only [Run.ofExcept_ok, pure_bind, hfinish, bind_pure]
  rw [hcompile, ← Expr.simplify_unsealed, ← Expr.simplify_unsealed, Expr.unsealed_withSeals]

end Written

/-- A negative number before an operator and a negative zero after one. -/
theorem Workspace.compile_text_negative :
    let x : Variable := ⟨"x", 0⟩
    let scope : Scope Float := (({} : Scope Float).bindVariable "x" x).bindFunction "abs" absolute
    let w : Workspace Float := ⟨⟨#[⟨1, false⟩], 0⟩, scope⟩
    let settings : Settings := ⟨true, false⟩
    let e : Expr Float := .binary .subtract
      (.call absolute [.binary .power (.constant (-5)) (.variable x) false]) (.constant (-0.0)) false
    e.text = "(abs((-5 ^ x)) - -0)" ∧
      (∃ e', w.parse (Lexer.ofSource settings (.ofString e.text)).tokens = .ok (e', []) ∧
        e'.unsealed = e.unsealed) ∧
      Expr.unsealed <$> (w.compile settings (.ofString e.text)).1 =
        Expr.unsealed <$> e.simplify w.store := by
  intro x scope w settings e
  have hfive : (Numeral.text (-5 : Float)).toList = ['-', '5'] := by decide +kernel
  have hzero : (Numeral.text (-0.0 : Float)).toList = ['-', '0'] := by decide +kernel
  refine ⟨by decide +kernel, compile_text (P := fun y => y = -5 ∨ y = -0.0) ?_ rfl ?_⟩
  · rintro y (rfl | rfl)
    · rw [Numeral.ReadsBack, hfive]
      have hdigit : ∀ c ∈ ['5'], c.isDigit := List.forall_mem_singleton.2 rfl
      exact ⟨⟨['-'], ['5'], [], rfl, .inr rfl, by simp, hdigit, .inl rfl⟩, rfl⟩
    · rw [Numeral.ReadsBack, hzero]
      have hdigit : ∀ c ∈ ['0'], c.isDigit := List.forall_mem_singleton.2 rfl
      exact ⟨⟨['-'], ['0'], [], rfl, .inr rfl, by simp, hdigit, .inl rfl⟩, rfl⟩
  · have habs : IsIdentifier "abs" := ⟨'a', ['b', 's'], rfl, by decide,
      List.forall_mem_cons.2 ⟨.inl rfl, List.forall_mem_singleton.2 (.inl rfl)⟩⟩
    have hx : IsIdentifier "x" := ⟨'x', [], rfl, by decide, by simp⟩
    simp only [e, Expr.Legible, Expr.AllLegible]
    exact ⟨⟨habs, rfl, ⟨.inl trivial, hx, rfl⟩, trivial⟩, .inr trivial⟩

end Reckon
