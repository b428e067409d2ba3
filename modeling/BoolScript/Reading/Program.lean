import BoolScript.Reading.Statement

/-!
# Reading programs

A program is read statement by statement until no token is left, so a program that is read takes all
tokens, and one without tokens is empty. Reading ends because every statement takes a token.
-/

namespace BoolScript.Reading

/-- Reads statements until no token is left. -/
def program : Reading (List Expr) := fun tokens =>
  if tokens.isEmpty then .ok [] []
  else
    match _h : statement tokens with
    | .ok tree rest =>
      match program rest with
      | .ok trees left => .ok (tree :: trees) left
      | .error error left => .error error left
    | .error error rest => .error error rest
termination_by tokens => tokens.length
decreasing_by exact takes_statement _ _ _ ‹_›

theorem program_nil : program [] = .ok [] [] := by
  rw [program]; rfl

/-- A program with a token left goes on with a statement. -/
theorem program_cons (token : Token) (rest : List Token) :
    program (token :: rest) =
      (do let tree ← statement; let trees ← program; return tree :: trees : Reading _)
        (token :: rest) := by
  rw [program]
  simp only [List.isEmpty_cons, Bool.false_eq_true, ↓reduceIte, Bind.bind, EStateM.bind]
  split
  · next tree left h =>
    rw [h]
    dsimp only
    split
    · next hp => rw [hp]; rfl
    · next hp => rw [hp]
  · next h => rw [h]

/-! ## What programs take -/

theorem trims_program : Trims program := by
  intro tokens
  fun_induction program tokens with
  | case1 tokens h => exact List.nil_suffix
  | case2 tokens h tree rest hs trees left hp ih =>
    rw [hp] at ih
    have := trims_statement tokens
    rw [hs] at this
    exact ih.trans this
  | case3 tokens h tree rest hs error left hp ih =>
    rw [hp] at ih
    have := trims_statement tokens
    rw [hs] at this
    exact ih.trans this
  | case4 tokens h error rest hs =>
    have := trims_statement tokens
    rw [hs] at this
    exact this

/-- A program that is read has no token behind it. -/
theorem eq_nil_of_program {tokens rest : List Token} {trees : List Expr}
    (h : program tokens = .ok trees rest) : rest = [] := by
  fun_induction program tokens generalizing trees rest with
  | case1 =>
    obtain ⟨-, rfl⟩ : [] = trees ∧ [] = rest := by simpa using h
    rfl
  | case2 tokens _ tree left hs others last hp ih =>
    obtain ⟨-, rfl⟩ : tree :: others = trees ∧ last = rest := by simpa using h
    exact ih hp
  | case3 | case4 => simp at h

end BoolScript.Reading
