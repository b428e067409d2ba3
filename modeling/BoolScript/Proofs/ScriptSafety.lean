import BoolScript.Proofs.SoundTrees
import BoolScript.Proofs.UpFront

/-!
# Scripts fail at the console only

A script that is read does not turn out to be meaningless when it is evaluated: whatever goes wrong
then goes wrong at the console. A script that is not read does nothing at all. And where all names
of a script have values, nothing is asked, so that only the output can fail.
-/

namespace BoolScript

namespace Console

/-- What is not written completely has filled the output, and the input is as it was. -/
theorem of_write_eq_error {text : String} {console after : Console} {error : ConsoleError}
    (h : write text console = .error error after) :
    error = .outputFull ∧ after.input = console.input ∧ console.output.room ≠ none := by
  by_cases hc : (console.output.write (Text.encode text)).1 = true
  · rw [write_of_complete hc] at h
    cases h
  · obtain ⟨rfl, rfl⟩ : ConsoleError.outputFull = error ∧
        { console with output := (console.output.write (Text.encode text)).2 } = after := by
      simpa [write, hc] using h
    refine ⟨rfl, rfl, fun hr => hc ?_⟩
    rw [Output.write_of_room_eq_none hr]

/-- Output without a limit has none afterwards. -/
theorem room_of_write_eq_ok {text : String} {console after : Console}
    (h : write text console = .ok () after) (ho : console.output.room = none) :
    after.output.room = none := by
  obtain ⟨-, rfl⟩ := write_eq_ok_iff.1 h
  rw [Output.write_of_room_eq_none ho]
  exact ho

end Console

namespace Session

variable {α : Type} {action : Action α} {session : Session} {events : List Event}
  {result : EStateM.Result EvalError Session α} {requests : List Request}

/-- A run of an action without faults fails at the console, if it fails. -/
theorem Runs.exists_console_error (h : Runs action session events result)
    (hf : action.IsFaultless) {error : EvalError} {after : Session}
    (hr : result = .error error after) : ∃ failure, error = .console failure := by
  induction h with
  | finish => cases hr
  | fault => exact hf.elim
  | known _ _ ih | asked _ _ _ ih => exact ih (hf _) hr
  | askFailed | showFailed =>
    cases hr
    exact ⟨_, rfl⟩
  | stored _ ih | shown _ _ ih => exact ih hf hr

/-- A run that asks nothing and comes to no fault leaves the input alone, and only a full output
keeps it from its end. -/
theorem Runs.of_known (h : Runs action session events result) (hf : Action.Follows requests action)
    (hk : ∀ name, .read name ∈ requests → session.knows name = true)
    (hs : ∀ defect, .fail defect ∉ requests) :
    (stateAfter result).console.input = session.console.input ∧
      ((∃ value after, result = .ok value after) ∨
        session.console.output.room ≠ none ∧
          ∃ after, result = .error (.console .outputFull) after) := by
  induction h generalizing requests with
  | finish value session => exact ⟨rfl, .inl ⟨_, _, rfl⟩⟩
  | fault defect session =>
    cases hf
    exact absurd List.mem_cons_self (hs defect)
  | known _ _ ih =>
    cases hf with
    | fetch hf =>
      exact ih (hf _) (fun name hm => hk name (List.mem_cons_of_mem _ hm)) fun defect hm =>
        hs defect (List.mem_cons_of_mem _ hm)
  | asked hu | askFailed hu =>
    -- A name that is asked for is read, and it has no value.
    cases hf with
    | fetch =>
      have := hk _ List.mem_cons_self
      rw [knows_of_none hu] at this
      cases this
  | stored _ ih =>
    cases hf with
    | store hf =>
      refine ih hf (fun other hm => ?_) fun defect hm => hs defect (List.mem_cons_of_mem _ hm)
      rw [knows_bind, learn, hk other (List.mem_cons_of_mem _ hm), Bool.or_true]
  | shown hp _ ih =>
    cases hf with
    | print hf =>
      obtain ⟨hi, hr⟩ := ih hf (fun name hm => hk name (List.mem_cons_of_mem _ hm))
        fun defect hm => hs defect (List.mem_cons_of_mem _ hm)
      have hsame := (Console.write_eq_ok_iff.1 hp).2
      rw [console_atConsole] at hi hr
      refine ⟨hi.trans (by rw [hsame]), hr.imp_right fun hr => ⟨fun ho => ?_, hr.2⟩⟩
      exact hr.1 (Console.room_of_write_eq_ok hp ho)
  | showFailed hp =>
    obtain ⟨rfl, hi, hr⟩ := Console.of_write_eq_error hp
    exact ⟨hi, .inr ⟨hr, _, rfl⟩⟩

/-! ## Evaluating the trees of a script -/

section

variable {trees : List Expr} {after : Session}

theorem evalAll_eq_error_of_isSound (hs : ∀ tree ∈ trees, tree.IsSound) {error : EvalError}
    (h : evalAll trees session = .error error after) : ∃ failure, error = .console failure :=
  (runs_evalAll trees session).exists_console_error (Expr.isFaultless_evalAll hs _) h

/-- Sound trees whose names have values are evaluated to the end, unless the output is full. -/
theorem evalAll_of_known (hs : ∀ tree ∈ trees, tree.IsSound)
    (hk : ∀ tree ∈ trees, ∀ name ∈ tree.names, session.knows name = true) :
    ∃ after, after.console.input = session.console.input ∧
      ((∃ value, evalAll trees session = .ok value after) ∨
        session.console.output.room ≠ none ∧
          evalAll trees session = .error (.console .outputFull) after) := by
  have hread : ∀ name, .read name ∈ Expr.requestsAll session.notMode trees →
      session.knows name = true := by
    intro name hm
    obtain ⟨tree, ht, hm⟩ := List.mem_flatMap.1 hm
    exact hk tree ht name (Expr.mem_names_of_mem_requests hm rfl)
  obtain ⟨hi, hr⟩ := (runs_evalAll trees session).of_known (Expr.follows_evalAll _ trees) hread
    (Expr.fail_notMem_requestsAll hs _)
  rcases hr with ⟨value, after, hr⟩ | ⟨ho, after, hr⟩
  · rw [hr] at hi
    exact ⟨after, hi, .inl ⟨value, hr⟩⟩
  · rw [hr] at hi
    exact ⟨after, hi, .inr ⟨ho, hr⟩⟩

end

/-! ## Running a script -/

/-- Running a script is safe. No run comes to a fault of the script itself, whatever the console
does, since no branch of its action has one. A script that cannot be read leaves everything as it
was. If all names in the trees of a script have values, the input is left alone, and the run comes
to its end unless the output is full. -/
theorem runScript_fails_at_console (rule : Rule) (source : String) (session : Session) :
    (∀ trees mode, rule.parse source = .ok trees → (Expr.evalAll mode trees).IsFaultless) ∧
    (∀ error after, runScript rule source session = .error (.failed error) after →
      (∃ name, error = .console (.inputClosed name)) ∨ ∃ details, error = .console (.io details)) ∧
    (∀ error after, runScript rule source session = .error (.refused error) after →
      after = session) ∧
    ∀ trees, rule.parse source = .ok trees →
      (∀ tree ∈ trees, ∀ name ∈ tree.names, session.knows name = true) →
      ∃ after, after.console.input = session.console.input ∧
        ((∃ value, runScript rule source session = .ok value after) ∨
          session.console.output.room ≠ none ∧
            runScript rule source session = .error (.failed (.console .outputFull)) after) := by
  refine ⟨fun trees mode hp => Expr.isFaultless_evalAll (isSound_of_parse hp) mode, ?_, ?_, ?_⟩
  · intro error after h
    obtain ⟨trees, hp, he⟩ := runScript_eq_failed_iff.1 h
    obtain ⟨failure, rfl⟩ := evalAll_eq_error_of_isSound (isSound_of_parse hp) he
    cases failure with
    | inputClosed name => exact .inl ⟨name, rfl⟩
    | io details => exact .inr ⟨details, rfl⟩
  · intro error after h
    exact (runScript_eq_refused_iff.1 h).2.symm
  · intro trees hp hk
    obtain ⟨after, hi, hr⟩ := evalAll_of_known (isSound_of_parse hp) hk
    refine ⟨after, hi, ?_⟩
    rcases hr with ⟨value, hr⟩ | ⟨ho, hr⟩
    · exact .inl ⟨value, runScript_of_ok hp hr⟩
    · exact .inr ⟨ho, runScript_of_error hp hr⟩

end Session

end BoolScript
