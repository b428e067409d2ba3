import BoolScript.Proofs.ProgramGrammar
import BoolScript.Script

/-!
# Single statements under a rule of their own

There is a rule for each form of statement, and the rule for programs, which takes all of them. The
three do not look at the tokens in the same way: the rule for unary statements does not ask whether
an assignment comes first, the rule for expressions stops in front of whatever does not continue the
expression, and only the rule for programs looks two tokens ahead and minds what is left over.

`Rule.ReadsAlone` singles out the tokens that are one statement under a rule of their own. They are
exactly the programs of one statement, and the root of the tree tells which rule it is
(`Rule.readsAlone_iff_statement`). Such a script may be run by either rule.
-/

namespace BoolScript

/-- The rule for statements of the form that the root of the tree has. -/
def Expr.rule : Expr → Rule
  | binary .assign _ _ _ => .assignment
  | unary _ _ _ _ => .unary
  | binary (.logical _) _ _ _ | literal _ _ | var _ _ => .expression

/-- The rule for one form of statement reads all of the tokens as this tree. Behind an expression it
may leave one semicolon. -/
inductive Rule.ReadsAlone (tokens : List Token) : Rule → Expr → Prop where
  | assignment {tree : Expr} (h : Reading.assignment tokens = .ok (some tree) []) :
    ReadsAlone tokens .assignment tree
  | unary {tree : Expr} (h : Reading.unaryStatement tokens = .ok tree []) :
    ReadsAlone tokens .unary tree
  | expression {tree : Expr} {rest : List Token} (h : Reading.expression tokens = .ok tree rest)
    (hr : rest = [] ∨ ∃ semicolon : Token, rest = [semicolon] ∧ semicolon.kind = .semicolon) :
    ReadsAlone tokens .expression tree

/-- The rule for one form of statement reads all of the script as this tree. -/
def Rule.ReadsScriptAlone (rule : Rule) (source : String) (tree : Expr) : Prop :=
  ∃ tokens, tokenize source = .ok tokens ∧ rule.ReadsAlone tokens tree

namespace Reading

/-! ## Programs of one statement -/

theorem eq_nil_of_program_eq_nil {tokens rest : List Token} (h : program tokens = .ok [] rest) :
    tokens = [] := by
  cases tokens with
  | nil => rfl
  | cons token others =>
    rw [program_cons] at h
    obtain ⟨tree, left, -, h⟩ := bind_eq_ok_iff.1 h
    obtain ⟨trees, last, -, hp⟩ := bind_eq_ok_iff.1 h
    exact absurd (pure_eq_ok_iff.1 hp).1 (List.cons_ne_nil tree trees)

/-- A program of one statement is a statement that takes all tokens. -/
theorem program_eq_singleton_iff {tokens : List Token} {tree : Expr} :
    program tokens = .ok [tree] [] ↔ statement tokens = .ok tree [] := by
  cases tokens with
  | nil =>
    constructor
    · intro h
      rw [program_nil] at h
      cases h
    · intro h
      exact absurd (takes_statement _ _ _ h) (Nat.lt_irrefl 0)
  | cons token others =>
    rw [program_cons]
    constructor
    · intro h
      obtain ⟨first, left, hs, h⟩ := bind_eq_ok_iff.1 h
      obtain ⟨trees, last, hp, h⟩ := bind_eq_ok_iff.1 h
      obtain ⟨hl, rfl⟩ := pure_eq_ok_iff.1 h
      obtain ⟨rfl, rfl⟩ := List.cons.inj hl
      rwa [eq_nil_of_program_eq_nil hp] at hs
    · intro h
      rw [bind_of_ok h, bind_of_ok program_nil]
      rfl

/-! ## The root of a tree tells the form of its statement -/

theorem rule_of_assignmentStatement {tokens rest : List Token} {tree : Expr}
    (h : assignmentStatement tokens = .ok tree rest) : tree.rule = .assignment := by
  obtain ⟨target, _, -, h⟩ := bind_eq_ok_iff.1 h
  obtain ⟨sign, _, -, h⟩ := bind_eq_ok_iff.1 h
  obtain ⟨value, _, -, h⟩ := bind_eq_ok_iff.1 h
  obtain ⟨semicolon, _, -, h⟩ := bind_eq_ok_iff.1 h
  obtain ⟨rfl, -⟩ := pure_eq_ok_iff.1 h
  rfl

theorem rule_of_unaryStatement {tokens rest : List Token} {tree : Expr}
    (h : unaryStatement tokens = .ok tree rest) : tree.rule = .unary := by
  obtain ⟨form, left, hf, h⟩ := bind_eq_ok_iff.1 h
  obtain ⟨semicolon, _, -, h⟩ := bind_eq_ok_iff.1 h
  obtain ⟨rfl, -⟩ := pure_eq_ok_iff.1 h
  -- On whichever side of its operand it stands, the operator is the root.
  rw [unaryForm, get_bind_apply] at hf
  split at hf
  · obtain ⟨operand, operator, -, -, rfl⟩ := operand_of_negatedElement hf
    rfl
  · split at hf
    · obtain ⟨operator, operand, -, -, rfl⟩ := operand_of_operatorElement hf
      rfl
    · cases hf

theorem rule_of_isFormula {tree : Expr} (h : tree.IsFormula) : tree.rule = .expression := by
  match tree, h with
  | .literal _ _, _ | .var _ _, _ | .binary (.logical _) _ _ _, _ => rfl

theorem rule_of_derivation {strength : Strength} (d : Derivation strength) :
    d.tree.rule = .expression :=
  rule_of_isFormula d.isFormula_tree

theorem rule_of_expressionStatement {tokens rest : List Token} {tree : Expr}
    (h : expressionStatement tokens = .ok tree rest) : tree.rule = .expression := by
  obtain ⟨left, he, -⟩ := expressionStatement_eq_ok_iff.1 h
  obtain ⟨read, rfl, hd, -⟩ := derives_of_operators he
  obtain ⟨d, rfl, rfl⟩ := hd.exists_derivation
  exact rule_of_derivation d

end Reading

/-! ## Statements under a rule of their own -/

open Reading in
/-- A statement that takes all tokens is read alone by the rule for its form, and by no other. -/
theorem Rule.readsAlone_iff_statement {tokens : List Token} {rule : Rule} {tree : Expr} :
    rule.ReadsAlone tokens tree ↔ statement tokens = .ok tree [] ∧ rule = tree.rule := by
  constructor
  · intro h
    cases h with
    | assignment h =>
      have hs := (assignment_eq_some_iff.1 h).2
      exact ⟨statement_eq_ok_iff.2 (.inl h), (rule_of_assignmentStatement hs).symm⟩
    | unary h =>
      exact ⟨statement_eq_ok_iff.2 (.inr (.inl h)), (rule_of_unaryStatement h).symm⟩
    | expression h hr =>
      have ht := terminator_eq_ok_iff.2 (hr.imp_left fun hn => ⟨hn, rfl⟩)
      have he := expressionStatement_eq_ok_iff.2 ⟨_, h, ht⟩
      exact ⟨statement_eq_ok_iff.2 (.inr (.inr he)), (rule_of_expressionStatement he).symm⟩
  · rintro ⟨h, rfl⟩
    rcases statement_eq_ok_iff.1 h with h | h | h
    · rw [rule_of_assignmentStatement (assignment_eq_some_iff.1 h).2]
      exact .assignment h
    · rw [rule_of_unaryStatement h]
      exact .unary h
    · rw [rule_of_expressionStatement h]
      obtain ⟨left, he, ht⟩ := expressionStatement_eq_ok_iff.1 h
      exact .expression he (by simpa using terminator_eq_ok_iff.1 ht)

/-! ## Scripts of one statement -/

section

variable {source : String} {tokens : List Token} {rule : Rule} {tree : Expr}

/-- A rule that reads the tokens of a script alone makes one tree of them. -/
theorem Rule.ReadsAlone.parse_eq (h : rule.ReadsAlone tokens tree)
    (ht : tokenize source = .ok tokens) : rule.parse source = .ok [tree] := by
  cases h with
  | assignment h => exact parse_of_reading_eq_ok ht (bind_of_ok h)
  | unary h => exact parse_of_reading_eq_ok ht (bind_of_ok h)
  | expression h hr => exact parse_of_reading_eq_ok ht (bind_of_ok h)

/-- The program rule makes one tree of the tokens that it takes as one statement. -/
theorem Rule.parse_program_eq_singleton_iff (ht : tokenize source = .ok tokens) :
    Rule.program.parse source = .ok [tree] ↔ Reading.program tokens = .ok [tree] [] := by
  constructor
  · intro h
    obtain ⟨read, rest, hread, hp⟩ := parse_eq_ok_iff.1 h
    obtain rfl : tokens = read := Except.ok.inj (ht.symm.trans hread)
    rwa [Reading.eq_nil_of_program hp] at hp
  · intro h
    exact parse_of_reading_eq_ok ht h

/-- Rules that read a script as the same trees run it alike. -/
theorem Session.runScript_congr {other : Rule} (h : rule.parse source = other.parse source)
    (session : Session) : runScript rule source session = runScript other source session := by
  rw [runScript, runScript, h]

/-- A script of one statement may be run by the rule for its form. A rule for one form reads the
tokens of a script alone if and only if the script is a program of one statement and the root of its
tree is of that form; and then running the script by either rule comes to the same result, with the
same variables, input and output. -/
theorem Session.runScript_of_single_statement (source : String) (rule : Rule) (tree : Expr) :
    (rule.ReadsScriptAlone source tree ↔
      Rule.program.parse source = .ok [tree] ∧ rule = tree.rule) ∧
    (rule.ReadsScriptAlone source tree → ∀ session,
      runScript rule source session = runScript .program source session) := by
  have hiff : ∀ tokens, tokenize source = .ok tokens → (rule.ReadsAlone tokens tree ↔
      Rule.program.parse source = .ok [tree] ∧ rule = tree.rule) := by
    intro tokens ht
    rw [Rule.readsAlone_iff_statement, Rule.parse_program_eq_singleton_iff ht,
      Reading.program_eq_singleton_iff]
  refine ⟨⟨fun ⟨tokens, ht, h⟩ => (hiff tokens ht).1 h, fun h => ?_⟩, ?_⟩
  · obtain ⟨tokens, rest, ht, -⟩ := Rule.parse_eq_ok_iff.1 h.1
    exact ⟨tokens, ht, (hiff tokens ht).2 h⟩
  · rintro ⟨tokens, ht, h⟩ session
    have hprogram := ((hiff tokens ht).1 h).1
    exact runScript_congr ((h.parse_eq ht).trans hprogram.symm) session

end

/-- The operand of `x not;` is an expression by itself, but then two tokens are left, and only the
rule for unary statements reads the script alone. -/
theorem Session.runScript_of_postfix_not :
    let tree : Expr := .unary .not "not" (.var "x" 0) 2
    let session : Session := ⟨.empty, .operand, ⟨⟨Text.encode "true\n", 0, false⟩, {}⟩⟩
    Rule.unary.ReadsScriptAlone "x not;" tree ∧
      ¬Rule.expression.ReadsScriptAlone "x not;" (.var "x" 0) ∧
      runScript .unary "x not;" session = runScript .program "x not;" session := by
  intro tree session
  have hread : Rule.unary.ReadsScriptAlone "x not;" tree :=
    ⟨[⟨.name, "x", 0⟩, ⟨.not, "not", 2⟩, ⟨.semicolon, ";", 5⟩], rfl, .unary rfl⟩
  have hprogram := ((runScript_of_single_statement "x not;" .unary tree).1.1 hread).1
  refine ⟨hread, fun h => ?_, (runScript_of_single_statement "x not;" .unary tree).2 hread session⟩
  have hother := ((runScript_of_single_statement "x not;" .expression (.var "x" 0)).1.1 h).1
  simp [hprogram, tree] at hother

end BoolScript
