import BoolScript.Proofs.Requests

/-!
# Which fault an evaluation comes to

A tree that is put together by hand may have several faults: literals that are no truth words, and
assignments to something other than a variable. Which of them an evaluation comes to is written in
the tree. It is the first one in the order of evaluation, because no value decides what is evaluated
next; only the console can keep the evaluation from it (`Session.eval_comes_to_firstFault`).

`Expr.firstFault?` looks for it. An assignment to something that cannot be assigned to is found
before any fault in its right side, and by default nothing is found behind a `not`, whose operand is
dead.

## Shape of the proof

The first fault of a tree is the first one among its requests (`Expr.findSome?_requests`), and a run
comes to that one or to its end if the console does not fail (`Session.Runs.outcome_cases`).
-/

namespace BoolScript

namespace Expr

/-- The first fault of a tree in the order of its evaluation. -/
def firstFault? (mode : NotMode) : Expr → Option Fault
  | literal text position =>
    if Text.sameFolded text "true" || Text.sameFolded text "false" then none
    else some (.notBoolean text position)
  | var _ _ => none
  | binary (.logical _) left right _ => (left.firstFault? mode).or (right.firstFault? mode)
  | binary .assign (var _ _) value _ => value.firstFault? mode
  | binary .assign _ _ position => some (.notAssignable position)
  | unary .print _ operand _ => operand.firstFault? mode
  | unary .not _ operand _ =>
    match mode with
    | .operatorText => none
    | .operand => operand.firstFault? mode

theorem firstFault?_literal (mode : NotMode) (text : String) (position : Nat) :
    (literal text position).firstFault? mode =
      if (Text.truth? text).isSome then none else some (.notBoolean text position) := by
  rw [firstFault?, Text.truth?]
  cases Text.sameFolded text "true" <;> cases Text.sameFolded text "false" <;> rfl

/-- The right side of an assignment is looked at only if there is something to assign to. -/
theorem firstFault?_assign (mode : NotMode) (target value : Expr) (position : Nat) :
    (binary .assign target value position).firstFault? mode =
      if target.target?.isSome then value.firstFault? mode
      else some (.notAssignable position) := by
  cases target <;> rfl

/-- The first fault of a tree is the first one that it requests. -/
theorem findSome?_requests (mode : NotMode) (tree : Expr) :
    (tree.requests mode).findSome? Request.fault? = tree.firstFault? mode := by
  induction tree with
  | literal text position =>
    rw [requests, firstFault?_literal, literalValue]
    cases Text.truth? text <;> rfl
  | var name position => rfl
  | binary op left right position ihl ihr =>
    cases op with
    | logical connective => rw [requests, List.findSome?_append, ihl, ihr, firstFault?]
    | assign =>
      rw [requests, firstFault?_assign]
      cases left.target? with
      | none => rfl
      | some name =>
        -- Behind the value only the name is written.
        simp [ihr, Request.fault?]
  | unary op text operand position ih =>
    cases op with
    | print => simp [requests, firstFault?, ih, Request.fault?]
    | not =>
      cases mode with
      | operatorText => rfl
      | operand => exact ih

end Expr

namespace Session

/-- Unless the console fails, an evaluation comes to the first fault, and to its end if there is
none. -/
theorem eval_outcome_cases (tree : Expr) (session : Session) :
    (∃ value after, eval tree session = .ok value after ∧
      tree.firstFault? session.notMode = none) ∨
    (∃ defect after, eval tree session = .error (.fault defect) after ∧
      tree.firstFault? session.notMode = some defect) ∨
    ∃ error after, eval tree session = .error (.console error) after := by
  rw [eval, get_bind_apply, ← tree.findSome?_requests]
  exact (runs _ session).outcome_cases (tree.follows_eval _)

/-- How evaluations of a tree end is written in the tree. An evaluation that ends well shows that
there is no fault, and one that comes to a fault has come to the first one; any other evaluation has
failed at the console. Hence two evaluations in the same mode that are spared by their consoles both
end well, or both fail with the same error, whatever their variables and their input are. -/
theorem eval_comes_to_firstFault (tree : Expr) :
    (∀ session,
      (∃ value after, eval tree session = .ok value after ∧
        tree.firstFault? session.notMode = none) ∨
      (∃ defect after, eval tree session = .error (.fault defect) after ∧
        tree.firstFault? session.notMode = some defect) ∨
      (∃ name after, eval tree session = .error (.console (.inputClosed name)) after) ∨
      ∃ details after, eval tree session = .error (.console (.io details)) after) ∧
    ∀ session other, other.notMode = session.notMode →
      (∀ error after, eval tree session ≠ .error (.console error) after) →
      (∀ error after, eval tree other ≠ .error (.console error) after) →
      (∃ value after value' after', eval tree session = .ok value after ∧
        eval tree other = .ok value' after') ∨
      ∃ error after after', eval tree session = .error error after ∧
        eval tree other = .error error after' := by
  constructor
  · intro session
    refine (eval_outcome_cases tree session).imp_right (Or.imp_right ?_)
    rintro ⟨error, after, he⟩
    cases error with
    | inputClosed name => exact .inl ⟨name, after, he⟩
    | io details => exact .inr ⟨details, after, he⟩
  · intro session other hm hs ho
    have hsession := eval_outcome_cases tree session
    have hother := eval_outcome_cases tree other
    rw [hm] at hother
    rw [← or_assoc] at hsession hother
    -- Both evaluations are compared with the one first fault of the tree.
    rcases hsession.resolve_right fun ⟨error, after, he⟩ => hs error after he with
      ⟨value, after, hv, hnone⟩ | ⟨defect, after, hd, hfirst⟩ <;>
    rcases hother.resolve_right fun ⟨error, after, he⟩ => ho error after he with
      ⟨value', after', hv', hnone'⟩ | ⟨defect', after', hd', hfirst'⟩
    · exact .inl ⟨value, after, value', after', hv, hv'⟩
    · cases hnone.symm.trans hfirst'
    · cases hnone'.symm.trans hfirst
    · cases hfirst.symm.trans hfirst'
      exact .inr ⟨.fault defect, after, after', hd, hd'⟩

end Session

end BoolScript
