import Reckon.Expr.Graft
import Reckon.Scope
import Reckon.Token.Lexer

/-!
# The grammar of formulas

Formulas are read from their tokens by recursive descent:

    expression  ::=  boolean ( ? expression : expression )
    boolean     ::=  relational ( (&& | ||) boolean )
    relational  ::=  sum ( (< | <= | > | >= | == | !=) relational )
    sum         ::=  product ( (+ | -) sum  |  sum )
    product     ::=  power ( (* | / | %) product )
    power       ::=  atom ( (^ | **) power )
    atom        ::=  - atom  |  + ( expression )  |  ( expression )  |  | expression |
                  |  NAME ( arguments )  |  NAME  |  + NUMBER QUANTIFIER

where the parts in brackets after the first operand, a plus sign and the quantifier may be missing,
and a sum may go on without an operator if the next token is a number with a minus sign, which is
then added. Names are looked up as they are read. Each rank of operators is read to the right, and
chains are then nested to the left with `Expr.graft`; powers alone stay nested to the right.

What comes after the last token, the end or an error, is looked at only when the grammar gets there.

## Main definitions

* `Grammar.Parse` — what a rule reads, and the tokens that it leaves, which are fewer.
* `Grammar.expression`, `Grammar.chain`, `Grammar.atom` — the rules.
-/

namespace Reckon.Grammar

/-- What a rule has read from the front of some tokens, and what it has left. -/
structure Parse (β : Type) (ts : List Token) where
  value : β
  rest : List Token
  shorter : rest.length < ts.length

/-- The token in front, or what comes after the last token. -/
def front (ending : Except Error Position) : List Token → Except Error Token
  | t :: _ => .ok t
  | [] => ending.map .ending

/-- Complains about the token in front. -/
def refuse {β : Type} (ending : Except Error Position) (ts : List Token) (expected : Expectation) :
    Except Error β := do
  let t ← front ending ts
  .error (.unexpectedToken t expected)

/-- Takes the symbol `s`. -/
def expect (ending : Except Error Position) (s : String) (ts : List Token) :
    Except Error (Parse Unit ts) :=
  match ts with
  | [] => refuse ending [] (.symbol s)
  | t :: rest =>
    if t.isSymbol s then
      .ok ⟨(), rest, by simp⟩
    else
      refuse ending (t :: rest) (.symbol s)

/-- Takes an operator of a rank, if there is one in front. -/
def operator? (ending : Except Error Position) (r : Rank) (ts : List Token) :
    Except Error (Option (Parse Operator ts)) :=
  match ts with
  | t :: rest =>
    if t.isAnySymbol then
      .ok ((r.operators.lookup t.trigger).map fun op => ⟨op, rest, by simp⟩)
    else
      .ok none
  | [] => ending.map fun _ => none

/-- Whether a token is a number that is written with a minus sign. -/
def isNegative (t : Token) : Bool := t.isNumber && t.contents.toList.head? == some '-'

/-- Joins an operand to what follows its operator: powers to the right, all else to the left. -/
def combine {α : Type} (r : Rank) (left : Expr α) (op : Operator) (right : Expr α) : Expr α :=
  match r with
  | .power => .join op left right
  | _ => .graft left op right

/-- A number and its quantifier. -/
def literal {α : Type} [Numeral α] (ending : Except Error Position) (ts : List Token) :
    Except Error (Parse (Expr α) ts) :=
  match ts with
  | [] => refuse ending [] .expression
  | t :: rest =>
    if t.isNumber then
      match Decimal.read? t.contents.toList, rest with
      | none, _ => .error (.malformedNumber t.source t.position)
      | some d, [] => ending.map fun _ => ⟨.constant (Numeral.ofDecimal d), [], by simp⟩
      | some d, next :: rest =>
        if next.isIdentifier then
          match Quantifier.named? next.contents with
          | some q => .ok ⟨.constant (Numeral.scale q (Numeral.ofDecimal d)), rest, by grind⟩
          | none => .error (.unexpectedToken next .quantifier)
        else
          .ok ⟨.constant (Numeral.ofDecimal d), next :: rest, by simp⟩
    else
      .error (.unexpectedToken t .expression)

/-- The place of a rank in the order of descent; tighter ranks come first. -/
def depth (r : Rank) : Nat := 12 - 2 * r.number

mutual

/-- A condition with its two branches, or an expression without one. -/
def expression {α : Type} [Arithmetic α] [Numeral α] (scope : Scope α)
    (ending : Except Error Position) (ts : List Token) : Except Error (Parse (Expr α) ts) := do
  let c ← chain scope ending .boolean ts
  have := c.shorter
  let next ← front ending c.rest
  if next.isSymbol "?" then
    let mark ← expect ending "?" c.rest
    have := mark.shorter
    let a ← expression scope ending mark.rest
    have := a.shorter
    let colon ← expect ending ":" a.rest
    have := colon.shorter
    let b ← expression scope ending colon.rest
    have := b.shorter
    .ok ⟨.call conditional [c.value, a.value, b.value], b.rest, by omega⟩
  else
    .ok c
termination_by 16 * ts.length + 14
decreasing_by all_goals grind [depth, Rank.number]

/-- A chain of operators of a rank and their operands. -/
def chain {α : Type} [Arithmetic α] [Numeral α] (scope : Scope α) (ending : Except Error Position)
    (r : Rank) (ts : List Token) : Except Error (Parse (Expr α) ts) := do
  let left ← operand scope ending r ts
  have := left.shorter
  match ← operator? ending r left.rest with
  | some op =>
    have := op.shorter
    let right ← chain scope ending r op.rest
    have := right.shorter
    .ok ⟨combine r left.value op.value right.value, right.rest, by omega⟩
  | none =>
    let next ← front ending left.rest
    if r = .sum && isNegative next then
      let right ← chain scope ending .sum left.rest
      have := right.shorter
      .ok ⟨.graft left.value .add right.value, right.rest, by omega⟩
    else
      .ok left
termination_by 16 * ts.length + depth r + 1
decreasing_by all_goals grind [depth, Rank.number]

/-- An operand of operators of a rank: a chain of the next rank, or an atom. -/
def operand {α : Type} [Arithmetic α] [Numeral α] (scope : Scope α)
    (ending : Except Error Position) (r : Rank) (ts : List Token) :
    Except Error (Parse (Expr α) ts) :=
  match r with
  | .boolean => chain scope ending .relational ts
  | .relational => chain scope ending .sum ts
  | .sum => chain scope ending .product ts
  | .product => chain scope ending .power ts
  | .power => atom scope ending ts
termination_by 16 * ts.length + depth r
decreasing_by all_goals grind [depth, Rank.number]

/-- An operand without operators outside of brackets. -/
def atom {α : Type} [Arithmetic α] [Numeral α] (scope : Scope α) (ending : Except Error Position)
    (ts : List Token) : Except Error (Parse (Expr α) ts) :=
  match ts with
  | [] => literal ending []
  | t :: rest =>
    if t.isSymbol "-" then do
      let a ← atom scope ending rest
      have := a.shorter
      .ok ⟨.binary .subtract (.constant Arithmetic.zero) a.value true, a.rest, by grind⟩
    else if t.isSymbol "+" then do
      let next ← front ending rest
      if next.isSymbol "(" then
        let a ← bracketed scope ending rest.tail
        have := a.shorter
        .ok ⟨a.value, a.rest, by grind⟩
      else if next.isNumber then
        let x ← literal ending rest
        have := x.shorter
        .ok ⟨x.value, x.rest, by grind⟩
      else
        .error (.unexpectedToken t .expression)
    else if t.isSymbol "(" then do
      let a ← bracketed scope ending rest
      have := a.shorter
      .ok ⟨a.value, a.rest, by grind⟩
    else if t.isSymbol "|" then do
      let a ← expression scope ending rest
      have := a.shorter
      let bar ← expect ending "|" a.rest
      have := bar.shorter
      .ok ⟨.call absolute [a.value], bar.rest, by grind⟩
    else if t.isIdentifier then do
      let next ← front ending rest
      if next.isSymbol "(" then
        match scope.findFunction? t.contents with
        | none => .error (.unknownFunction t.contents t.position)
        | some f =>
          let (args, close) ← arguments scope ending false rest.tail
          have := close.2
          let bracket ← expect ending ")" close.1
          have := bracket.shorter
          .ok ⟨.call f args, bracket.rest, by grind⟩
      else
        match scope.findVariable? t.contents with
        | none => .error (.unknownVariable t.contents t.position)
        | some v => .ok ⟨.variable v, rest, by simp⟩
    else
      literal ending (t :: rest)
termination_by 16 * ts.length + 1
decreasing_by all_goals grind [depth, Rank.number]

/-- An expression and the closing bracket after it. An operator at the top is sealed. -/
def bracketed {α : Type} [Arithmetic α] [Numeral α] (scope : Scope α)
    (ending : Except Error Position) (ts : List Token) : Except Error (Parse (Expr α) ts) := do
  let a ← expression scope ending ts
  have := a.shorter
  let bracket ← expect ending ")" a.rest
  have := bracket.shorter
  .ok ⟨a.value.sealTop, bracket.rest, by omega⟩
termination_by 16 * ts.length + 15
decreasing_by all_goals grind [depth, Rank.number]

/-- Arguments with commas between them, up to a closing bracket or the end. `more` says that there
are arguments before, so that a comma must come first. -/
def arguments {α : Type} [Arithmetic α] [Numeral α] (scope : Scope α)
    (ending : Except Error Position) (more : Bool) (ts : List Token) :
    Except Error (List (Expr α) × { rest : List Token // rest.length ≤ ts.length }) :=
  match ts with
  | [] => ending.map fun _ => ([], ⟨[], by simp⟩)
  | t :: rest =>
    if t.isSymbol ")" then
      .ok ([], ⟨t :: rest, by simp⟩)
    else if more then do
      let comma ← expect ending "," (t :: rest)
      have := comma.shorter
      let a ← expression scope ending comma.rest
      have := a.shorter
      let (args, close) ← arguments scope ending true a.rest
      have := close.2
      .ok (a.value :: args, ⟨close.1, by omega⟩)
    else do
      let a ← expression scope ending (t :: rest)
      have := a.shorter
      let (args, close) ← arguments scope ending true a.rest
      have := close.2
      .ok (a.value :: args, ⟨close.1, by omega⟩)
termination_by 16 * ts.length + 15
decreasing_by all_goals grind [depth, Rank.number]

end

end Reckon.Grammar
