import BoolScript.Reading.Basic

/-!
# Reading operator expressions

Operands are truth words, names and expressions in parentheses. The connective `and` binds tighter
than `or` and `xor`, which bind alike, and operators of the same strength lean to the left. Reading
is greedy: it takes every token that continues the expression and stops at the first that does not.

## Shape of a partly read expression

Whatever has been read, only this much of it matters for the tokens to come: between a pair of
parentheses at most two operators wait for their right operands, a loose one (`or`, `xor`) and
inside its operand a tight one (`and`); they are a `Level`. Every open parenthesis puts the level
around it aside. At the end of it all stands either a complete operand or a place where one has to
come. So a token is shifted onto a `Partial` without looking at any other token, and
`Partial.result` says what a partial expression amounts to when nothing more is shifted.

The three `Strength`s of rule differ only in which connectives they take outside all parentheses.
Read by descent, where each rule calls the one that binds tighter, the same tokens have the same
outcome, down to errors and the tokens left (`isDescent_iff`).
-/

namespace BoolScript.Reading

/-- How loosely an expression may be bound outside of all parentheses. -/
inductive Strength where
  /-- One operand, without connectives. -/
  | factor
  /-- Operands joined by `and`. -/
  | conjunction
  /-- Operands joined by any connectives. -/
  | disjunction
  deriving DecidableEq, Repr, Inhabited

/-- Whether an expression of this strength may be continued with a connective. -/
def Strength.admits : Strength → Connective → Bool
  | factor, _ => false
  | conjunction, connective => connective == .and
  | disjunction, _ => true

/-- The connective that a kind of token stands for. -/
def connective? : Kind → Option Connective
  | .and => some .and
  | .or => some .or
  | .xor => some .xor
  | _ => none

/-! ## Partly read expressions -/

/-- An operator that waits for its right operand. -/
structure Pending where
  left : Expr
  connective : Connective
  position : Nat
  deriving DecidableEq, Repr, Inhabited

/-- The tree of a pending operator with its right operand. -/
def Pending.close (pending : Pending) (right : Expr) : Expr :=
  .logical pending.connective pending.left right pending.position

/-- The operators that wait at one level of parentheses. -/
structure Level where
  /-- A waiting `or` or `xor`. -/
  loose : Option Pending
  /-- A waiting `and`, inside the right operand of the loose operator. -/
  tight : Option Pending
  deriving DecidableEq, Repr, Inhabited

namespace Level

/-- A level at which nothing has been read. -/
def empty : Level :=
  ⟨none, none⟩

/-- The operand together with the waiting `and`. -/
def closeTight (level : Level) (operand : Expr) : Expr :=
  match level.tight with
  | none => operand
  | some pending => pending.close operand

/-- The operand together with all waiting operators. -/
def close (level : Level) (operand : Expr) : Expr :=
  match level.loose with
  | none => level.closeTight operand
  | some pending => pending.close (level.closeTight operand)

/-- The level after an operand and a connective: operators that bind at least as tightly as the new
one get their right operand, and the new one waits. -/
def extend (level : Level) (operand : Expr) (connective : Connective) (position : Nat) : Level :=
  match connective with
  | .and => ⟨level.loose, some ⟨level.closeTight operand, .and, position⟩⟩
  | .or | .xor => ⟨some ⟨level.close operand, connective, position⟩, none⟩

/-- A loose connective has all that is waiting at its level on its left. -/
theorem extend_of_ne_and {connective : Connective} (h : connective ≠ .and) (level : Level)
    (operand : Expr) (position : Nat) :
    level.extend operand connective position =
      ⟨some ⟨level.close operand, connective, position⟩, none⟩ := by
  cases connective with
  | and => exact absurd rfl h
  | or | xor => rfl

end Level

/-- A partly read expression. The levels outside the innermost open parenthesis are listed from the
inside to the outside. -/
inductive Partial where
  /-- An operand has to come next. -/
  | awaiting (outer : List Level) (level : Level)
  /-- An operand is complete. -/
  | holding (outer : List Level) (level : Level) (operand : Expr)
  deriving DecidableEq, Repr, Inhabited

namespace Partial

/-- Nothing has been read. -/
def start : Partial :=
  awaiting [] .empty

/-- The partial expression with one more token, if the token continues it. -/
def shift (strength : Strength) : Partial → Token → Option Partial
  | awaiting outer level, token =>
    match leaf? token with
    | some leaf => some (holding outer level leaf)
    | none => if token.kind = .openParen then some (awaiting (level :: outer) .empty) else none
  | holding outer level operand, token =>
    match connective? token.kind with
    | some connective =>
      if outer.isEmpty && !strength.admits connective then none
      else some (awaiting outer (level.extend operand connective token.position))
    | none =>
      match token.kind, outer with
      | .closeParen, around :: outer => some (holding outer around (level.close operand))
      | _, _ => none

/-! ### Single shifts -/

theorem shift_leaf {strength : Strength} {outer : List Level} {level : Level} {token : Token}
    {tree : Expr} (h : leaf? token = some tree) :
    (awaiting outer level).shift strength token = some (holding outer level tree) := by
  simp [shift, h]

theorem shift_open {strength : Strength} {outer : List Level} {level : Level} {token : Token}
    (h : token.kind = .openParen) :
    (awaiting outer level).shift strength token = some (awaiting (level :: outer) .empty) := by
  have hl : leaf? token = none := by simp [leaf?, h]
  simp [shift, hl, h]

theorem shift_close {strength : Strength} {around level : Level} {outer : List Level}
    {token : Token} {operand : Expr} (h : token.kind = .closeParen) :
    (holding (around :: outer) level operand).shift strength token =
      some (holding outer around (level.close operand)) := by
  simp [shift, connective?, h]

theorem shift_connective {strength : Strength} {outer : List Level} {level : Level}
    {token : Token} {operand : Expr} {connective : Connective}
    (h : connective? token.kind = some connective)
    (ha : outer = [] → strength.admits connective = true) :
    (holding outer level operand).shift strength token =
      some (awaiting outer (level.extend operand connective token.position)) := by
  cases outer with
  | nil => simp [shift, h, ha rfl]
  | cons => simp [shift, h]

/-- Outside of all parentheses a complete expression goes on with admitted connectives only. -/
theorem shift_holding_eq_none_iff {strength : Strength} {level : Level} {operand : Expr}
    {token : Token} :
    (holding [] level operand).shift strength token = none ↔
      ∀ connective, connective? token.kind = some connective →
        strength.admits connective = false := by
  cases h : connective? token.kind with
  | none => simp [shift, h]
  | some connective => simp [shift, h]

/-- A place where an operand has to come takes a leaf or an opening parenthesis. -/
theorem shift_awaiting_eq_some {strength : Strength} {outer : List Level} {level : Level}
    {token : Token} {next : Partial}
    (h : (awaiting outer level).shift strength token = some next) :
    (∃ leaf, leaf? token = some leaf ∧ next = holding outer level leaf) ∨
      token.kind = .openParen ∧ next = awaiting (level :: outer) .empty := by
  simp only [shift] at h
  split at h
  · next leaf hl => exact .inl ⟨leaf, hl, (Option.some.inj h).symm⟩
  · split at h
    · next hk => exact .inr ⟨hk, (Option.some.inj h).symm⟩
    · cases h

/-- A complete operand takes an admitted connective, or the parenthesis that closes its level. -/
theorem shift_holding_eq_some {strength : Strength} {outer : List Level} {level : Level}
    {token : Token} {operand : Expr} {next : Partial}
    (h : (holding outer level operand).shift strength token = some next) :
    (∃ connective, connective? token.kind = some connective ∧
      (outer = [] → strength.admits connective = true) ∧
      next = awaiting outer (level.extend operand connective token.position)) ∨
    ∃ around others, outer = around :: others ∧ token.kind = .closeParen ∧
      next = holding others around (level.close operand) := by
  simp only [shift] at h
  split at h
  · next connective hc =>
    split at h
    · cases h
    · next ha =>
      refine .inl ⟨connective, hc, ?_, (Option.some.inj h).symm⟩
      rintro rfl
      simpa using ha
  · split at h
    · next around others hk => exact .inr ⟨around, others, rfl, hk, (Option.some.inj h).symm⟩
    · cases h

/-! ### Runs -/

/-- Shifts tokens as long as they continue the expression, and gives back the others. -/
def shiftAll (strength : Strength) : Partial → List Token → Partial × List Token
  | state, [] => (state, [])
  | state, token :: rest =>
    match state.shift strength token with
    | some next => next.shiftAll strength rest
    | none => (state, token :: rest)

/-- The expression, if it is complete; otherwise what is missing at this place. -/
def result (location : Location) : Partial → Except SyntaxError Expr
  | awaiting _ _ => .error (.expectedOperand location)
  | holding [] level operand => .ok (level.close operand)
  | holding (_ :: _) _ _ => .error (.expected [.closeParen] location)

theorem shiftAll_cons {strength : Strength} {state next : Partial} {token : Token}
    (h : state.shift strength token = some next) (rest : List Token) :
    state.shiftAll strength (token :: rest) = next.shiftAll strength rest := by
  rw [shiftAll, h]

theorem shiftAll_suffix (strength : Strength) (state : Partial) (tokens : List Token) :
    (state.shiftAll strength tokens).2 <:+ tokens := by
  induction tokens generalizing state with
  | nil => exact List.suffix_rfl
  | cons token rest ih =>
    unfold shiftAll
    split
    · exact (ih _).trans (List.suffix_cons token rest)
    · exact List.suffix_rfl

/-- Shifting stops only in front of a token that does not continue the expression. -/
theorem shift_eq_none_of_shiftAll {strength : Strength} {state stopped : Partial}
    {tokens rest : List Token} {token : Token}
    (h : state.shiftAll strength tokens = (stopped, token :: rest)) :
    stopped.shift strength token = none := by
  induction tokens generalizing state with
  | nil => simp [shiftAll] at h
  | cons first others ih =>
    unfold shiftAll at h
    split at h
    · exact ih h
    · next hs =>
      obtain ⟨rfl, rfl, rfl⟩ : state = stopped ∧ first = token ∧ others = rest := by simpa using h
      exact hs

end Partial

/-- Reads an expression of the given strength, as far as it goes. -/
def operators (strength : Strength) : Reading Expr := fun tokens =>
  let (stopped, rest) := Partial.start.shiftAll strength tokens
  match stopped.result (.ofTokens rest) with
  | .ok tree => .ok tree rest
  | .error error => .error error rest

/-- Reads one operand: a truth word, a name, or an expression in parentheses. -/
def factor : Reading Expr :=
  operators .factor

/-- Reads operands joined by `and`. -/
def conjunction : Reading Expr :=
  operators .conjunction

/-- Reads an expression. -/
def expression : Reading Expr :=
  operators .disjunction

theorem operators_eq_ok_iff {strength : Strength} {tokens rest : List Token} {tree : Expr} :
    operators strength tokens = .ok tree rest ↔
      ∃ stopped, Partial.start.shiftAll strength tokens = (stopped, rest) ∧
        stopped.result (.ofTokens rest) = .ok tree := by
  unfold operators
  obtain ⟨stopped, left⟩ := Partial.start.shiftAll strength tokens
  dsimp only
  split <;> grind

theorem leftover_operators (strength : Strength) (tokens : List Token) :
    leftover (operators strength tokens) = (Partial.start.shiftAll strength tokens).2 := by
  unfold operators
  obtain ⟨stopped, left⟩ := Partial.start.shiftAll strength tokens
  dsimp only
  split <;> rfl

theorem trims_operators (strength : Strength) : Trims (operators strength) := by
  intro tokens
  rw [leftover_operators]
  exact Partial.shiftAll_suffix strength _ tokens

/-- An expression has at least one token: nothing read is not an expression. -/
theorem takes_operators (strength : Strength) : Takes (operators strength) := by
  intro tokens tree rest h
  obtain ⟨stopped, hs, hr⟩ := operators_eq_ok_iff.1 h
  match tokens with
  | [] =>
    obtain ⟨rfl, rfl⟩ : Partial.start = stopped ∧ [] = rest := by
      simpa [Partial.shiftAll] using hs
    simp [Partial.result, Partial.start] at hr
  | token :: others =>
    unfold Partial.shiftAll at hs
    split at hs
    · next next _ =>
      have := (Partial.shiftAll_suffix strength next others).length_le
      rw [hs] at this
      exact Nat.lt_succ_of_le this
    · obtain ⟨rfl, rfl⟩ : Partial.start = stopped ∧ token :: others = rest := by simpa using hs
      simp [Partial.result, Partial.start] at hr

end BoolScript.Reading
