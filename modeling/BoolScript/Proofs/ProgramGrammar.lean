import BoolScript.Proofs.StatementGrammar
import BoolScript.Reading.Program

/-!
# Programs are read exactly as the grammar has them

Reading a program answers with some trees if and only if the tokens have a derivation that builds
these trees, and the derivation is then the only one.

## Shape of the proof

Both directions go through the statements one after the other. A statement ends in the only
semicolon that it has, which keeps a last expression apart from it; so the first statement of a
program is settled by its tokens, and with it all the others.
-/

namespace BoolScript.Reading

namespace ProgramDerivation

/-- A program with one more statement in front. -/
def cons (first : StatementDerivation) (d : ProgramDerivation) : ProgramDerivation :=
  ⟨first :: d.statements, d.last⟩

@[simp] theorem tokens_cons (first : StatementDerivation) (d : ProgramDerivation) :
    (cons first d).tokens = first.tokens ++ d.tokens := by
  simp [cons, tokens]

@[simp] theorem trees_cons (first : StatementDerivation) (d : ProgramDerivation) :
    (cons first d).trees = first.tree :: d.trees := rfl

/-- Every program is read to its end. -/
theorem program_tokens (d : ProgramDerivation) : program d.tokens = .ok d.trees [] := by
  obtain ⟨statements, last⟩ := d
  induction statements with
  | nil =>
    cases last with
    | none => exact program_nil
    | some last =>
      change program last.tokens = .ok [last.tree] []
      obtain ⟨first, rest, h⟩ := List.exists_cons_of_ne_nil last.tokens_ne_nil
      rw [h, program_cons, ← h, bind_of_ok (statement_of_last last), bind_of_ok program_nil]
      rfl
  | cons first statements ih =>
    change program (cons first ⟨statements, last⟩).tokens = _
    obtain ⟨token, rest, h⟩ := List.exists_cons_of_ne_nil first.tokens_ne_nil
    rw [tokens_cons, h, List.cons_append, program_cons, ← List.cons_append, ← h,
      bind_of_ok (statement_of_derivation first _), bind_of_ok ih]
    rfl

/-- What is read as a program is one. -/
theorem exists_of_program {tokens rest : List Token} {trees : List Expr}
    (h : program tokens = .ok trees rest) :
    ∃ d : ProgramDerivation, d.tokens = tokens ∧ d.trees = trees := by
  fun_induction program tokens generalizing trees rest with
  | case1 tokens hn =>
    obtain rfl : tokens = [] := by simpa using hn
    obtain ⟨rfl, -⟩ : [] = trees ∧ [] = rest := by simpa using h
    exact ⟨⟨[], none⟩, rfl, rfl⟩
  | case2 tokens _ tree left hs others last hp ih =>
    obtain ⟨rfl, -⟩ : tree :: others = trees ∧ last = rest := by simpa using h
    obtain ⟨d, rfl, rfl⟩ := ih hp
    rcases derivation_of_statement hs with ⟨first, rfl, rfl⟩ | ⟨hn, only, rfl, rfl⟩
    · exact ⟨cons first d, by simp, rfl⟩
    · -- Nothing is left behind a last expression, so nothing follows it.
      rw [hn, program_nil] at hp
      obtain ⟨hd, -⟩ : [] = d.trees ∧ [] = last := by simpa using hp
      exact ⟨⟨[], some only⟩, by simp [ProgramDerivation.tokens], by rw [← hd]; rfl⟩
  | case3 | case4 => simp at h

/-- A program without finished statements does not start with one. -/
theorem tokens_nil_ne_tokens_cons (last : Option (Derivation .disjunction))
    (first : StatementDerivation) (d : ProgramDerivation) :
    (mk [] last).tokens ≠ (cons first d).tokens := by
  rw [tokens_cons]
  cases last with
  | none =>
    intro h
    exact first.tokens_ne_nil (List.append_eq_nil_iff.1 h.symm).1
  | some last => exact last.tokens_ne_statement first d.tokens

/-- A program has one derivation. -/
theorem eq_of_tokens_eq {d other : ProgramDerivation} (h : d.tokens = other.tokens) :
    d = other := by
  obtain ⟨statements, last⟩ := d
  obtain ⟨statements', last'⟩ := other
  induction statements generalizing statements' with
  | nil =>
    cases statements' with
    | nil =>
      cases last with
      | none =>
        cases last' with
        | none => rfl
        | some last' => exact absurd h.symm last'.tokens_ne_nil
      | some last =>
        cases last' with
        | none => exact absurd h last.tokens_ne_nil
        | some last' => rw [Derivation.eq_of_tokens_eq h]
    | cons first' statements' =>
      exact absurd h (tokens_nil_ne_tokens_cons last first' ⟨statements', last'⟩)
  | cons first statements ih =>
    cases statements' with
    | nil => exact absurd h.symm (tokens_nil_ne_tokens_cons last' first ⟨statements, last⟩)
    | cons first' statements' =>
      change (cons first ⟨statements, last⟩).tokens = (cons first' ⟨statements', last'⟩).tokens at h
      rw [tokens_cons, tokens_cons] at h
      obtain ⟨rfl, hr⟩ := StatementDerivation.eq_of_tokens_append_eq h
      have := ih statements' hr
      simp_all

end ProgramDerivation

/-- Reading a program answers exactly with what the grammar derives: it answers with some trees if
and only if all tokens together have a derivation that builds these trees. It then takes all tokens,
and there is no other derivation of them. -/
theorem program_reads_grammar (tokens : List Token) :
    (∀ trees rest, program tokens = .ok trees rest ↔
      (∃ d : ProgramDerivation, d.tokens = tokens ∧ d.trees = trees) ∧ rest = []) ∧
    ∀ d other : ProgramDerivation, d.tokens = tokens → other.tokens = tokens → d = other := by
  constructor
  · intro trees rest
    constructor
    · intro h
      exact ⟨ProgramDerivation.exists_of_program h, eq_nil_of_program h⟩
    · rintro ⟨⟨d, rfl, rfl⟩, rfl⟩
      exact d.program_tokens
  · intro d other hd ho
    exact ProgramDerivation.eq_of_tokens_eq (hd.trans ho.symm)

end BoolScript.Reading
