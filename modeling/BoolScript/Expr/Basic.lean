/-!
# Trees

The tree of an expression, an assignment or a unary statement. Every node keeps the position of the
token it stands for. A literal and a unary operator also keep their text as written, because the
text takes part in what they mean.

Reading a script yields only some of these trees: an assignment or a unary operator at the root, on
literals and variables, or connectives above them. Trees put together by hand nest all of them
freely, and all of them have a meaning.
-/

namespace BoolScript

/-- The operators that combine two truth values. -/
inductive Connective where
  | and
  | or
  | xor
  deriving DecidableEq, Repr, Inhabited

/-- The value of a connective. -/
def Connective.combine : Connective → Bool → Bool → Bool
  | and, left, right => left && right
  | or, left, right => left || right
  | xor, left, right => left ^^ right

/-- The operators that stand between two operands. -/
inductive BinaryOperator where
  | logical (connective : Connective)
  | assign
  deriving DecidableEq, Repr, Inhabited

/-- The value of a binary operator; an assignment has the value it assigns. -/
def BinaryOperator.combine : BinaryOperator → Bool → Bool → Bool
  | logical connective, left, right => connective.combine left right
  | assign, _, right => right

/-- The operators with one operand. -/
inductive UnaryOperator where
  | not
  | print
  deriving DecidableEq, Repr, Inhabited

/-- A tree. -/
inductive Expr where
  /-- A truth word, as written. -/
  | literal (text : String) (position : Nat)
  /-- A variable. -/
  | var (name : String) (position : Nat)
  /-- An operator between two operands. -/
  | binary (op : BinaryOperator) (left right : Expr) (position : Nat)
  /-- An operator with one operand, and the operator's own text. -/
  | unary (op : UnaryOperator) (text : String) (operand : Expr) (position : Nat)
  deriving DecidableEq, Repr, Inhabited

/-- Two operands joined by a connective. -/
abbrev Expr.logical (connective : Connective) (left right : Expr) (position : Nat) : Expr :=
  .binary (.logical connective) left right position

end BoolScript
