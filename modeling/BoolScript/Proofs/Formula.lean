import BoolScript.Bindings
import BoolScript.Expr.Basic
import BoolScript.Text.CaseFolding

/-!
# Formulas

The trees that are made of connectives over truth words and variables. A formula has a classical
value under an assignment of values to its variables; nothing is asked, stored or printed for it.
-/

namespace BoolScript.Expr

/-- Only connectives stand above the leaves of the tree. -/
def IsFormula : Expr → Prop
  | literal _ _ | var _ _ => True
  | binary (.logical _) left right _ => left.IsFormula ∧ right.IsFormula
  | binary .assign _ _ _ | unary _ _ _ _ => False

/-- Every literal of the tree is a truth word. -/
def HasTruthWords : Expr → Prop
  | literal text _ => ∃ value, Text.truth? text = some value
  | var _ _ => True
  | binary _ left right _ => left.HasTruthWords ∧ right.HasTruthWords
  | unary _ _ operand _ => operand.HasTruthWords

/-- The names in a tree as they occur from left to right. -/
def names : Expr → List String
  | literal _ _ => []
  | var name _ => [name]
  | binary _ left right _ => left.names ++ right.names
  | unary _ _ operand _ => operand.names

/-- The names in a tree that are not known, each where it occurs first. -/
def unknownNames (known : String → Bool) (tree : Expr) : List String :=
  (tree.names.filter fun name => !known name).eraseDups

end BoolScript.Expr
