import BoolScript.Expr.Basic

/-!
# The written form of a tree

A tree is shown with every operator in front of its operands and a pair of parentheses around the
three, as in `(or (xor true true) x)`. The form shows the structure alone: positions are left out,
and a unary operator is shown by its symbol and not by its text.
-/

namespace BoolScript

/-- How a connective is written. -/
def Connective.symbol : Connective → String
  | and => "and"
  | or => "or"
  | xor => "xor"

/-- How a binary operator is written. -/
def BinaryOperator.symbol : BinaryOperator → String
  | logical connective => connective.symbol
  | assign => "="

/-- How a unary operator is written. -/
def UnaryOperator.symbol : UnaryOperator → String
  | not => "not"
  | print => "print"

theorem BinaryOperator.symbol_injective {op op' : BinaryOperator} (h : op.symbol = op'.symbol) :
    op = op' := by
  rcases op with (_ | _ | _) | _ <;> rcases op' with (_ | _ | _) | _ <;>
    first | rfl | exact absurd h (by decide)

theorem UnaryOperator.symbol_injective {op op' : UnaryOperator} (h : op.symbol = op'.symbol) :
    op = op' := by
  cases op <;> cases op' <;> first | rfl | exact absurd h (by decide)

/-- A symbol tells how many operands its operator has. -/
theorem BinaryOperator.symbol_ne (op : BinaryOperator) (op' : UnaryOperator) :
    op.symbol ≠ op'.symbol := by
  rcases op with (_ | _ | _) | _ <;> cases op' <;> decide

theorem BinaryOperator.ne_space_of_mem_symbol {op : BinaryOperator} :
    ∀ c ∈ op.symbol.toList, (c != ' ') = true := by
  rcases op with (_ | _ | _) | _ <;> exact List.all_eq_true.1 (by decide)

theorem UnaryOperator.ne_space_of_mem_symbol {op : UnaryOperator} :
    ∀ c ∈ op.symbol.toList, (c != ' ') = true := by
  cases op <;> exact List.all_eq_true.1 (by decide)

/-- The written form of a tree. -/
def Expr.render : Expr → String
  | literal text _ => text
  | var name _ => name
  | binary op left right _ => "(" ++ op.symbol ++ " " ++ left.render ++ " " ++ right.render ++ ")"
  | unary op _ operand _ => "(" ++ op.symbol ++ " " ++ operand.render ++ ")"

end BoolScript
