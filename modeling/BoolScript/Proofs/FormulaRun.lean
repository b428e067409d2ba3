import BoolScript.Proofs.Formula
import BoolScript.Proofs.Requests
import BoolScript.Proofs.Supply

/-!
# Evaluating formulas

A formula requests the values of its names from left to right and nothing else. Hence its
evaluation asks for the names that have no value, each where it occurs first, keeps the answers as
their values, and has the classical value of the formula under the variables that there are at the
end (`Session.value?_of_run`).
-/

namespace BoolScript

/-! ## The requests of a formula -/

namespace Expr

theorem requests_eq_map_read {tree : Expr} (mode : NotMode) (hf : tree.IsFormula)
    (hw : tree.HasTruthWords) : tree.requests mode = tree.names.map .read := by
  induction tree with
  | literal text position =>
    obtain ⟨value, hv⟩ := hw
    rw [requests, literalValue, hv]
    rfl
  | var name position => rfl
  | binary op left right position ihl ihr =>
    cases op with
    | logical connective =>
      rw [requests, ihl hf.1 hw.1, ihr hf.2 hw.2, names, List.map_append]
    | assign => exact hf.elim
  | unary op text operand position ih => exact hf.elim

end Expr

/-- Of names that are only read, those without a value are asked for, each once. -/
theorem prompts_map_read (known : String → Bool) (names : List String) :
    prompts known (names.map .read) = (names.filter fun name => !known name).eraseDups := by
  induction names generalizing known with
  | nil => rfl
  | cons name names ih =>
    rw [List.map_cons, List.filter_cons]
    cases hk : known name with
    | true =>
      rw [prompts_read_of_known hk, ih]
      rfl
    | false =>
      -- A name that has been asked for is dropped from the names behind it.
      have hlearn : (names.filter fun other => !learn known name other) =
          (names.filter fun other => !known other).filter fun other => !other == name := by
        rw [List.filter_filter]
        congr 1
        funext other
        rw [learn, Bool.not_or]
      rw [prompts_read_of_unknown hk, ih, hlearn, Bool.not_false, if_pos rfl, List.eraseDups_cons]

namespace Session

variable {α : Type} {action : Action α} {session : Session} {events : List Event}
  {result : EStateM.Result EvalError Session α} {requests : List Request}

/-! ## Runs that only read -/

/-- The variables after a run that writes no name are those before it and the answers. -/
theorem Runs.bindings_eq_insertAll (h : Runs action session events result)
    (hf : Action.Follows requests action) (hw : ∀ name, .write name ∉ requests) :
    (stateAfter result).bindings = session.bindings.insertAll (Event.questions events) := by
  induction h generalizing requests with
  | finish | fault | askFailed | showFailed => rfl
  | known _ _ ih | asked _ _ _ ih =>
    cases hf with
    | fetch hf =>
      apply ih (hf _)
      intro name hm
      exact hw name (List.mem_cons_of_mem _ hm)
  | @stored name value next session events result _ _ =>
    cases hf
    exact absurd List.mem_cons_self (hw name)
  | shown _ _ ih =>
    cases hf with
    | print hf =>
      apply ih hf
      intro name hm
      exact hw name (List.mem_cons_of_mem _ hm)

theorem write_notMem_map_read (names : List String) (name : String) :
    Request.write name ∉ names.map .read := by
  simp

end Session

end BoolScript
