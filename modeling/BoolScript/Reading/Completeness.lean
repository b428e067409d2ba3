import BoolScript.Reading.Grammar

/-!
# Every expression is read

Whatever the grammar derives, the reader reads, with the same tree and up to its last token, as long
as the tokens behind it do not continue it (`operators_of_derives`).

## Shape of the proof

`Partial.shiftAll_of_derives` follows a derivation. It says where the tokens of an expression take
the reader from a place where an operand has to come, inside any parentheses and with any tokens
behind. An operand leaves the level as it is; a conjunction leaves the loose operator alone; a
disjunction starts at an empty level. What is then complete or waiting closes to the derived tree.
-/

namespace BoolScript.Reading

namespace Partial

/-! ## Runs along a derivation -/

/-- What is complete or waiting at a level after an expression of this strength, which started at
`before`. -/
def Ends : Strength → Level → Level → Expr → Expr → Prop
  | .factor, before, after, operand, tree => after = before ∧ operand = tree
  | .conjunction, before, after, operand, tree =>
    after.loose = before.loose ∧ after.closeTight operand = tree
  | .disjunction, _, after, operand, tree => after.close operand = tree

/-- The levels at which an expression of this strength may start. -/
def Starts : Strength → Level → Prop
  | .factor, _ => True
  | .conjunction, level => level.tight = none
  | .disjunction, level => level = .empty

/-- The tokens of an expression take the reader over it. -/
theorem shiftAll_of_derives (goal : Strength) {strength : Strength} {tokens : List Token}
    {tree : Expr} (h : Derives strength tokens tree) (outer : List Level) (level : Level)
    (rest : List Token) (hs : Starts strength level)
    (ha : outer = [] → ∀ connective, strength.admits connective = true →
      goal.admits connective = true) :
    ∃ after operand, Ends strength level after operand tree ∧
      (awaiting outer level).shiftAll goal (tokens ++ rest) =
        (holding outer after operand).shiftAll goal rest := by
  induction h generalizing outer level rest with
  | leaf h => exact ⟨level, _, ⟨rfl, rfl⟩, shiftAll_cons (shift_leaf h) rest⟩
  | @parens opening closing tokens tree ho h hc ih =>
    obtain ⟨after, operand, rfl, hr⟩ :=
      ih (level :: outer) .empty (closing :: rest) rfl (by simp)
    have hl : opening :: tokens ++ [closing] ++ rest = opening :: (tokens ++ closing :: rest) := by
      simp
    refine ⟨level, _, ⟨rfl, rfl⟩, ?_⟩
    rw [hl, shiftAll_cons (shift_open ho), hr, shiftAll_cons (shift_close hc)]
  | factor h ih =>
    obtain ⟨_, _, ⟨rfl, rfl⟩, hr⟩ :=
      ih outer level rest trivial (by simp [Strength.admits])
    simp only [Starts] at hs
    exact ⟨_, _, ⟨rfl, by simp [Level.closeTight, hs]⟩, hr⟩
  | @tight left right operator l r hl ho hr ihl ihr =>
    obtain ⟨middle, operand, ⟨hm, rfl⟩, hrl⟩ :=
      ihl outer level (operator :: (right ++ rest)) hs ha
    obtain ⟨_, last, ⟨rfl, rfl⟩, hrr⟩ :=
      ihr outer (middle.extend operand .and operator.position) rest trivial
        (by simp [Strength.admits])
    refine ⟨middle.extend operand .and operator.position, last, ⟨hm, rfl⟩, ?_⟩
    rw [List.append_assoc, List.cons_append, hrl,
      shiftAll_cons (shift_connective (by rw [ho]; rfl) fun h => ha h _ rfl), hrr]
  | conjunction h ih =>
    obtain rfl : level = .empty := hs
    obtain ⟨after, operand, ⟨hl, rfl⟩, hr⟩ := ih outer .empty rest rfl fun h c _ => ha h c rfl
    refine ⟨after, operand, ?_, hr⟩
    simp [Ends, Level.close, hl, Level.empty]
  | @loose left right operator connective l r hl ho hc hr ihl ihr =>
    obtain ⟨middle, operand, rfl, hrl⟩ :=
      ihl outer level (operator :: (right ++ rest)) hs ha
    have he := Level.extend_of_ne_and hc middle operand operator.position
    obtain ⟨after, last, ⟨hm, rfl⟩, hrr⟩ :=
      ihr outer (middle.extend operand connective operator.position) rest (by rw [he]; rfl)
        fun h c _ => ha h c rfl
    refine ⟨after, last, ?_, ?_⟩
    · rw [he] at hm
      simp [Ends, Level.close, hm, Pending.close]
    · rw [List.append_assoc, List.cons_append, hrl,
        shiftAll_cons (shift_connective ho fun h => ha h _ rfl), hrr]

end Partial

/-- The reader reads every expression that the next tokens do not continue. -/
theorem operators_of_derives {strength : Strength} {tokens rest : List Token} {tree : Expr}
    (h : Derives strength tokens tree) (hs : Stops strength rest) :
    operators strength (tokens ++ rest) = .ok tree rest := by
  have hstart : Partial.Starts strength .empty := by cases strength <;> trivial
  obtain ⟨after, operand, he, hr⟩ :=
    Partial.shiftAll_of_derives strength h [] .empty rest hstart fun _ _ ha => ha
  refine operators_eq_ok_iff.2 ⟨.holding [] after operand, ?_, ?_⟩
  · rw [show Partial.start = .awaiting [] .empty from rfl, hr]
    cases rest with
    | nil => rfl
    | cons token rest =>
      rw [Partial.shiftAll, Partial.shift_holding_eq_none_iff.2 (hs token rfl)]
  · have : after.close operand = tree := by
      cases strength with
      | factor =>
        obtain ⟨rfl, rfl⟩ := he
        rfl
      | conjunction =>
        obtain ⟨hl, rfl⟩ := he
        simp [Level.close, hl, Level.empty]
      | disjunction => exact he
    rw [Partial.result, this]

end BoolScript.Reading
