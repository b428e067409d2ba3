import BoolScript.Reading.Expression

/-!
# The grammar of expressions

Which lists of tokens are expressions, and with which tree, said by rules and without any reading
from left to right. There is one rule for each way to make an expression; parentheses add no node,
and the rules for connectives make a chain lean to the left. Reading an expression is held to these
rules by `derives_of_operators` and `operators_of_derives` in the modules that import this one.
-/

namespace BoolScript.Reading

/-- The tokens are an expression of this strength, and this is its tree. -/
inductive Derives : Strength → List Token → Expr → Prop where
  /-- A truth word or a name is an operand. -/
  | leaf {token : Token} {tree : Expr} (h : leaf? token = some tree) :
    Derives .factor [token] tree
  /-- Any expression in parentheses is an operand. -/
  | parens {opening closing : Token} {tokens : List Token} {tree : Expr}
    (ho : opening.kind = .openParen) (h : Derives .disjunction tokens tree)
    (hc : closing.kind = .closeParen) : Derives .factor (opening :: tokens ++ [closing]) tree
  /-- One operand is a conjunction. -/
  | factor {tokens : List Token} {tree : Expr} (h : Derives .factor tokens tree) :
    Derives .conjunction tokens tree
  /-- A conjunction goes on with `and` and one more operand. -/
  | tight {left right : List Token} {operator : Token} {l r : Expr}
    (hl : Derives .conjunction left l) (ho : operator.kind = .and) (hr : Derives .factor right r) :
    Derives .conjunction (left ++ operator :: right) (.logical .and l r operator.position)
  /-- One conjunction is a disjunction. -/
  | conjunction {tokens : List Token} {tree : Expr} (h : Derives .conjunction tokens tree) :
    Derives .disjunction tokens tree
  /-- A disjunction goes on with `or` or `xor` and one more conjunction. -/
  | loose {left right : List Token} {operator : Token} {connective : Connective} {l r : Expr}
    (hl : Derives .disjunction left l) (ho : connective? operator.kind = some connective)
    (hc : connective ≠ .and) (hr : Derives .conjunction right r) :
    Derives .disjunction (left ++ operator :: right) (.logical connective l r operator.position)

/-- No expression is empty. -/
theorem Derives.ne_nil {strength : Strength} {tokens : List Token} {tree : Expr}
    (h : Derives strength tokens tree) : tokens ≠ [] := by
  induction h with
  | leaf | parens | tight | loose => simp
  | factor _ ih | conjunction _ ih => exact ih

/-- The tokens do not go on with a connective that an expression of this strength takes. -/
def Stops (strength : Strength) (tokens : List Token) : Prop :=
  ∀ token ∈ tokens.head?, ∀ connective, connective? token.kind = some connective →
    strength.admits connective = false

end BoolScript.Reading
