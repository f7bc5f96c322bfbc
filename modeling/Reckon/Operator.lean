/-!
# Binary operators

The operators of formulas and how tightly they bind. Operators of one `Rank` bind equally tightly
and form chains; a higher rank binds tighter.
-/

namespace Reckon

/-- How tightly an operator binds, from the loosest to the tightest. -/
inductive Rank where
  | boolean
  | relational
  | sum
  | product
  | power
  deriving DecidableEq, Inhabited

/-- Ranks are numbered from one. -/
def Rank.number : Rank → Nat
  | boolean => 1
  | relational => 2
  | sum => 3
  | product => 4
  | power => 5

/-- The operators. -/
inductive Operator where
  | and
  | or
  | lessThan
  | lessEqual
  | equal
  | greaterEqual
  | greaterThan
  | notEqual
  | add
  | subtract
  | multiply
  | divide
  | modulo
  | power
  deriving DecidableEq, Inhabited

namespace Operator

/-- All operators, in the order of their codes. -/
def all : List Operator :=
  [and, or, lessThan, lessEqual, equal, greaterEqual, greaterThan, notEqual, add, subtract,
    multiply, divide, modulo, power]

/-- How tightly an operator binds. -/
def rank : Operator → Rank
  | and | or => .boolean
  | lessThan | lessEqual | equal | greaterEqual | greaterThan | notEqual => .relational
  | add | subtract => .sum
  | multiply | divide | modulo => .product
  | power => .power

/-- The number of an operator: sixteen times its rank, plus its place among all operators. -/
def code : Operator → Nat
  | and => 0x11
  | or => 0x12
  | lessThan => 0x23
  | lessEqual => 0x24
  | equal => 0x25
  | greaterEqual => 0x26
  | greaterThan => 0x27
  | notEqual => 0x28
  | add => 0x39
  | subtract => 0x3A
  | multiply => 0x4B
  | divide => 0x4C
  | modulo => 0x4D
  | power => 0x5E

/-- Whether operands may be swapped and chains regrouped. -/
def isCommutative : Operator → Bool
  | add | multiply => true
  | _ => false

/-- How an operator is written. -/
def symbol : Operator → String
  | and => "&&"
  | or => "||"
  | lessThan => "<"
  | lessEqual => "<="
  | equal => "=="
  | greaterEqual => ">="
  | greaterThan => ">"
  | notEqual => "!="
  | add => "+"
  | subtract => "-"
  | multiply => "*"
  | divide => "/"
  | modulo => "%"
  | power => "^"

/-- The code of an operator holds its rank. -/
theorem code_div_sixteen (op : Operator) : op.code / 16 = op.rank.number := by
  cases op <;> rfl

/-- Operators are told apart by their codes. -/
theorem code_injective {a b : Operator} (h : a.code = b.code) : a = b := by
  cases a <;> cases b <;> first | rfl | exact absurd h (by decide)

end Operator

/-- The spellings of the operators of a rank. Powers have two. -/
def Rank.operators : Rank → List (String × Operator)
  | boolean => [("&&", .and), ("||", .or)]
  | relational =>
    [("<", .lessThan), ("<=", .lessEqual), (">", .greaterThan), (">=", .greaterEqual),
      ("==", .equal), ("!=", .notEqual)]
  | sum => [("+", .add), ("-", .subtract)]
  | product => [("*", .multiply), ("/", .divide), ("%", .modulo)]
  | power => [("^", .power), ("**", .power)]

/-- A spelling listed for a rank is one of an operator of that rank. -/
theorem Rank.rank_of_mem_operators {r : Rank} {s : String} {op : Operator}
    (h : (s, op) ∈ r.operators) : op.rank = r := by
  cases r <;> simp [operators] at h <;> grind [Operator.rank]

end Reckon
