import BoolScript.Proofs.Formula
import BoolScript.Reading.Grammar
import BoolScript.Reading.Statement

/-!
# Derivations written out

A derivation is a value that says which rule of the grammar made which tokens. It carries the tokens
that it covers (`tokens`) and the tree that it builds (`tree`), and its fields check the kinds of
the tokens, so there is no derivation of anything that the grammar does not allow.

* `Derivation` is for expressions of the three strengths. It has the same tokens and trees as the
  rules of `Derives` (`Derivation.derives` and `Derives.exists_derivation`).
* `StatementDerivation` has one constructor for each form of statement.
* `ProgramDerivation` is a list of statements, and behind them at most one expression that lacks its
  semicolon.
-/

namespace BoolScript.Reading

/-- A token that is an operand by itself: a truth word or a name. -/
structure Element where
  token : Token
  kind : token.kind = .trueWord ∨ token.kind = .falseWord ∨ token.kind = .name

/-- The leaf of an operand, with the text and the position of its token. -/
def Element.tree (element : Element) : Expr :=
  if element.token.kind = .name then .var element.token.text element.token.position
  else .literal element.token.text element.token.position

/-- The reader takes the same tokens for operands, and builds the same leaves. -/
theorem leaf?_eq_some_iff {token : Token} {tree : Expr} :
    leaf? token = some tree ↔ ∃ element : Element, element.token = token ∧ element.tree = tree := by
  constructor
  · intro h
    have hk : token.kind = .trueWord ∨ token.kind = .falseWord ∨ token.kind = .name := by
      unfold leaf? at h
      split at h <;> simp_all
    refine ⟨⟨token, hk⟩, rfl, ?_⟩
    rcases hk with hk | hk | hk <;> simpa [leaf?, Element.tree, hk] using h
  · rintro ⟨⟨token, hk⟩, rfl, rfl⟩
    rcases hk with hk | hk | hk <;> simp [leaf?, Element.tree, hk]

theorem Element.leaf?_token (element : Element) : leaf? element.token = some element.tree :=
  leaf?_eq_some_iff.2 ⟨element, rfl, rfl⟩

theorem Element.eq_of_token_eq {element other : Element} (h : element.token = other.token) :
    element = other := by
  cases element
  cases other
  simpa using h

/-! ## Expressions -/

/-- A derivation of an expression of some strength. Chains of connectives lean to the left. -/
inductive Derivation : Strength → Type where
  | leaf (operand : Element) : Derivation .factor
  | parens (opening : Token) (inner : Derivation .disjunction) (closing : Token)
    (ho : opening.kind = .openParen) (hc : closing.kind = .closeParen) : Derivation .factor
  | factor (inner : Derivation .factor) : Derivation .conjunction
  | tight (left : Derivation .conjunction) (operator : Token) (right : Derivation .factor)
    (ho : operator.kind = .and) : Derivation .conjunction
  | conjunction (inner : Derivation .conjunction) : Derivation .disjunction
  | loose (left : Derivation .disjunction) (operator : Token) (right : Derivation .conjunction)
    (ho : operator.kind = .or ∨ operator.kind = .xor) : Derivation .disjunction

namespace Derivation

/-- The tokens that a derivation covers. -/
def tokens {strength : Strength} : Derivation strength → List Token
  | leaf operand => [operand.token]
  | parens opening inner closing _ _ => opening :: inner.tokens ++ [closing]
  | .factor inner => inner.tokens
  | tight left operator right _ => left.tokens ++ operator :: right.tokens
  | .conjunction inner => inner.tokens
  | loose left operator right _ => left.tokens ++ operator :: right.tokens

/-- The tree that a derivation builds. Parentheses leave no node, and a connective has the position
of its token. -/
def tree {strength : Strength} : Derivation strength → Expr
  | leaf operand => operand.tree
  | parens _ inner _ _ _ => inner.tree
  | .factor inner => inner.tree
  | tight left operator right _ => .logical .and left.tree right.tree operator.position
  | .conjunction inner => inner.tree
  | loose left operator right _ =>
    .logical (if operator.kind = .or then .or else .xor) left.tree right.tree operator.position

/-- What a derivation covers and builds is derived. -/
theorem derives {strength : Strength} (d : Derivation strength) :
    Derives strength d.tokens d.tree := by
  induction d with
  | leaf operand => exact .leaf operand.leaf?_token
  | parens opening inner closing ho hc ih => exact .parens ho ih hc
  | factor inner ih => exact ih.factor
  | tight left operator right ho ihl ihr => exact ihl.tight ho ihr
  | conjunction inner ih => exact ih.conjunction
  | loose left operator right ho ihl ihr =>
    refine ihl.loose ?_ ?_ ihr
    · rcases ho with ho | ho <;> simp [ho, connective?]
    · split <;> simp

/-- An expression is a formula, unlike all other statements. -/
theorem isFormula_tree {strength : Strength} (d : Derivation strength) : d.tree.IsFormula := by
  induction d with
  | leaf operand =>
    rw [tree, Element.tree]
    split <;> trivial
  | parens opening inner closing ho hc ih => exact ih
  | factor inner ih => exact ih
  | tight left operator right ho ihl ihr => exact ⟨ihl, ihr⟩
  | conjunction inner ih => exact ih
  | loose left operator right ho ihl ihr => exact ⟨ihl, ihr⟩

end Derivation

theorem connective?_eq_some_iff {kind : Kind} {connective : Connective} :
    connective? kind = some connective ↔
      kind = .and ∧ connective = .and ∨ kind = .or ∧ connective = .or ∨
        kind = .xor ∧ connective = .xor := by
  cases kind <;> cases connective <;> simp [connective?]

/-- Everything derived has a derivation. -/
theorem Derives.exists_derivation {strength : Strength} {tokens : List Token} {tree : Expr}
    (h : Derives strength tokens tree) :
    ∃ d : Derivation strength, d.tokens = tokens ∧ d.tree = tree := by
  induction h with
  | leaf h =>
    obtain ⟨element, rfl, rfl⟩ := leaf?_eq_some_iff.1 h
    exact ⟨.leaf element, rfl, rfl⟩
  | parens ho _ hc ih =>
    obtain ⟨inner, rfl, rfl⟩ := ih
    exact ⟨.parens _ inner _ ho hc, rfl, rfl⟩
  | factor _ ih =>
    obtain ⟨inner, rfl, rfl⟩ := ih
    exact ⟨.factor inner, rfl, rfl⟩
  | tight _ ho _ ihl ihr =>
    obtain ⟨left, rfl, rfl⟩ := ihl
    obtain ⟨right, rfl, rfl⟩ := ihr
    exact ⟨.tight left _ right ho, rfl, rfl⟩
  | conjunction _ ih =>
    obtain ⟨inner, rfl, rfl⟩ := ih
    exact ⟨.conjunction inner, rfl, rfl⟩
  | loose _ ho hc _ ihl ihr =>
    obtain ⟨left, rfl, rfl⟩ := ihl
    obtain ⟨right, rfl, rfl⟩ := ihr
    rcases connective?_eq_some_iff.1 ho with ⟨hk, rfl⟩ | ⟨hk, rfl⟩ | ⟨hk, rfl⟩
    · -- The rule for loose connectives does not admit `and`.
      exact absurd rfl hc
    · exact ⟨.loose left _ right (.inl hk), rfl, by simp [Derivation.tree, hk]⟩
    · exact ⟨.loose left _ right (.inr hk), rfl, by simp [Derivation.tree, hk]⟩

/-! ## Statements and programs -/

/-- A derivation of a statement. -/
inductive StatementDerivation where
  /-- `x = true;` -/
  | assignment (target sign : Token) (value : Element) (semicolon : Token)
    (ht : target.kind = .name) (hs : sign.kind = .assign) (he : semicolon.kind = .semicolon)
  /-- `x not;` -/
  | postfixNot (operand : Element) (operator semicolon : Token) (ho : operator.kind = .not)
    (he : semicolon.kind = .semicolon)
  /-- `not x;` -/
  | prefixNot (operator : Token) (operand : Element) (semicolon : Token)
    (ho : operator.kind = .not) (he : semicolon.kind = .semicolon)
  /-- `print x;` -/
  | print (operator : Token) (operand : Element) (semicolon : Token)
    (ho : operator.kind = .print) (he : semicolon.kind = .semicolon)
  /-- `x or true;` -/
  | expression (inner : Derivation .disjunction) (semicolon : Token)
    (he : semicolon.kind = .semicolon)

namespace StatementDerivation

/-- The tokens that a derivation covers. -/
def tokens : StatementDerivation → List Token
  | assignment target sign value semicolon _ _ _ => [target, sign, value.token, semicolon]
  | postfixNot operand operator semicolon _ _ => [operand.token, operator, semicolon]
  | prefixNot operator operand semicolon _ _ => [operator, operand.token, semicolon]
  | print operator operand semicolon _ _ => [operator, operand.token, semicolon]
  | expression inner semicolon _ => inner.tokens ++ [semicolon]

/-- The tree that a derivation builds. -/
def tree : StatementDerivation → Expr
  | assignment target sign value _ _ _ _ =>
    .binary .assign (.var target.text target.position) value.tree sign.position
  | postfixNot operand operator _ _ _ =>
    .unary .not operator.text operand.tree operator.position
  | prefixNot operator operand _ _ _ =>
    .unary .not operator.text operand.tree operator.position
  | print operator operand _ _ _ =>
    .unary .print operator.text operand.tree operator.position
  | expression inner _ _ => inner.tree

end StatementDerivation

/-- A derivation of a program. -/
structure ProgramDerivation where
  statements : List StatementDerivation
  /-- The expression behind the last semicolon, if there is one. -/
  last : Option (Derivation .disjunction)

namespace ProgramDerivation

/-- The tokens that a derivation covers. -/
def tokens (d : ProgramDerivation) : List Token :=
  d.statements.flatMap StatementDerivation.tokens ++ (d.last.map Derivation.tokens).getD []

/-- The trees that a derivation builds, one for each statement. -/
def trees (d : ProgramDerivation) : List Expr :=
  d.statements.map StatementDerivation.tree ++ (d.last.map Derivation.tree).toList

end ProgramDerivation

end BoolScript.Reading
