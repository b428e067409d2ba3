import BoolScript.Expr.Basic
import BoolScript.SyntaxError

/-!
# Reading tokens

A grammar rule at work is a `Reading`: it takes tokens from the front of a list and answers or
fails. Either way the tokens that it has not taken are still there, so the state after a failure
says how far the rule came, and every failure names the place where the tokens left over begin.

## Shape of the bookkeeping

* `Reading.Trims` says that a reading only ever takes tokens from the front;
* `Reading.Takes` says that it takes at least one whenever it answers.

Both are kept by sequencing. Reading a whole program ends because its statements take tokens.
-/

namespace BoolScript

/-- A reading of tokens with an answer in `α`; its state is the list of tokens not yet taken. -/
abbrev Reading (α : Type) := EStateM SyntaxError (List Token) α

namespace Reading

/-! ## Bookkeeping -/

/-- The tokens that are left by a reading, whether it answers or fails. -/
def leftover {α : Type} : EStateM.Result SyntaxError (List Token) α → List Token
  | .ok _ rest => rest
  | .error _ rest => rest

/-- What is left by the reading is the end of what was there. -/
def Trims {α : Type} (reading : Reading α) : Prop :=
  ∀ tokens, leftover (reading tokens) <:+ tokens

/-- An answer costs at least one token. -/
def Takes {α : Type} (reading : Reading α) : Prop :=
  ∀ tokens answer rest, reading tokens = .ok answer rest → rest.length < tokens.length

theorem Trims.pure {α : Type} (answer : α) : Trims (pure answer : Reading α) :=
  fun _ => List.suffix_rfl

theorem Trims.length_le {α : Type} {reading : Reading α} (h : Trims reading)
    {tokens rest : List Token} {answer : α} (hr : reading tokens = .ok answer rest) :
    rest.length ≤ tokens.length := by
  have := (h tokens).length_le
  rwa [hr] at this

/-- What is left behind a token and an answer is shorter than what was there. -/
theorem Trims.length_lt_cons {α : Type} {reading : Reading α} (h : Trims reading)
    {rest others : List Token} {answer : α} (hr : reading rest = .ok answer others)
    (token : Token) : others.length < (token :: rest).length :=
  Nat.lt_succ_of_le (h.length_le hr)

theorem Trims.bind {α β : Type} {reading : Reading α} {next : α → Reading β}
    (h : Trims reading) (hn : ∀ answer, Trims (next answer)) : Trims (reading >>= next) := by
  intro tokens
  have ht := h tokens
  simp only [Bind.bind, EStateM.bind]
  split
  · next answer rest he => rw [he] at ht; exact (hn answer rest).trans ht
  · next error rest he => rw [he] at ht; exact ht

theorem Takes.bind {α β : Type} {reading : Reading α} {next : α → Reading β}
    (h : Takes reading) (hn : ∀ answer, Trims (next answer)) : Takes (reading >>= next) := by
  intro tokens answer rest hr
  simp only [Bind.bind, EStateM.bind] at hr
  split at hr
  · next middle left he => exact Nat.lt_of_le_of_lt ((hn middle).length_le hr) (h _ _ _ he)
  · simp at hr

theorem Trims.throw {α : Type} (error : SyntaxError) : Trims (throw error : Reading α) :=
  fun _ => List.suffix_rfl

theorem Takes.throw {α : Type} (error : SyntaxError) : Takes (throw error : Reading α) := by
  intro tokens answer rest h
  change EStateM.Result.error error tokens = .ok answer rest at h
  cases h

/-- Looking at the tokens takes none of them. -/
theorem Trims.get_bind {α : Type} {next : List Token → Reading α}
    (h : ∀ tokens, Trims (next tokens)) : Trims (get >>= next) :=
  fun tokens => h tokens tokens

theorem Takes.get_bind {α : Type} {next : List Token → Reading α}
    (h : ∀ tokens, Takes (next tokens)) : Takes (get >>= next) :=
  fun tokens => h tokens tokens

/-! ## Single tokens -/

/-- Takes the next token, which must be of one of these kinds. -/
def expect (kinds : List Kind) : Reading Token
  | token :: rest =>
    if token.kind ∈ kinds then .ok token rest
    else .error (.expected kinds (.position token.position)) (token :: rest)
  | [] => .error (.expected kinds .endOfInput) []

theorem trims_expect (kinds : List Kind) : Trims (expect kinds) := by
  rintro (_ | ⟨token, rest⟩)
  · simp [expect, leftover]
  · by_cases h : token.kind ∈ kinds <;> simp [expect, leftover, h]

theorem takes_expect (kinds : List Kind) : Takes (expect kinds) := by
  intro tokens answer rest h
  unfold expect at h
  split at h
  · split at h <;> simp_all
  · simp at h

/-- The leaf that a truth word or a name stands for. -/
def leaf? (token : Token) : Option Expr :=
  match token.kind with
  | .trueWord | .falseWord => some (.literal token.text token.position)
  | .name => some (.var token.text token.position)
  | _ => none

/-- Takes a truth word or a name. -/
def element : Reading Expr := fun tokens =>
  match tokens with
  | token :: rest =>
    match leaf? token with
    | some leaf => .ok leaf rest
    | none => .error (.expectedOperand (.position token.position)) tokens
  | [] => .error (.expectedOperand .endOfInput) []

theorem trims_element : Trims element := by
  rintro (_ | ⟨token, rest⟩)
  · simp [element, leftover]
  · cases h : leaf? token <;> simp [element, leftover, h]

theorem takes_element : Takes element := by
  intro tokens answer rest h
  unfold element at h
  split at h
  · split at h <;> simp_all
  · simp at h

end Reading

end BoolScript
