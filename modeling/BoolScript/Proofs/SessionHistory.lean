import BoolScript.Proofs.Course
import BoolScript.Proofs.UpFront
import BoolScript.Session.Step

/-!
# No answer lost, none asked twice

A session goes through any number of steps, and any of them may fail, because of a tree or because
of a device. Whatever happens, the input is read line by line, each line that is read is the answer
to a question, which becomes the value of the name that was asked for, and a name that has a value
is not asked for again unless the value is taken away in between. `Session.KeepsAnswers` says so for
one more step behind some others, and `Session.exists_keepsAnswers` proves it of all sessions.

## Shape of the proof

What a step does is what the evaluation of its trees does (`Session.perform_of_trees`), and nothing
if it has none. The reading position is a relation that every run keeps
(`Session.isKept_readsLines`), the order of the deeds comes from their course, and the values of the
names are carried from step to step (`Session.knows_after`).
-/

namespace BoolScript

/-- The trees that a step evaluates, if it evaluates any. -/
def Step.trees? : Step → Option (List Expr)
  | .script rule source => (rule.parse source).toOption
  | .eval tree => some [tree]
  | .evalAll trees => some trees
  | .setNotMode _ | .insert _ _ | .erase _ => none

/-- How a step changes the variables from outside. -/
def Step.edit : Step → Bindings → Bindings
  | .insert name value, bindings => bindings.insert name value
  | .erase name, bindings => bindings.erase name
  | .script _ _, bindings | .eval _, bindings | .evalAll _, bindings | .setNotMode _, bindings =>
    bindings

theorem Step.edit_of_trees {step : Step} {trees : List Expr} (h : step.trees? = some trees)
    (bindings : Bindings) : step.edit bindings = bindings := by
  cases step with
  | insert | erase => cases h
  | script | eval | evalAll | setNotMode => rfl

/-- Only taking it away makes the value of a name go. -/
theorem Step.isSome_get?_edit {step : Step} {name : String} (hs : step ≠ .erase name)
    {bindings : Bindings} (h : (bindings.get? name).isSome) :
    ((step.edit bindings).get? name).isSome := by
  cases step with
  | insert other value => exact Bindings.isSome_get?_insert h other value
  | erase other =>
    have hne : name ≠ other := fun he => hs (he ▸ rfl)
    rw [edit, Bindings.get?_erase, if_neg hne]
    exact h
  | script | eval | evalAll | setNotMode => exact h

/-- The error of an evaluation that failed. -/
def Outcome.failure? : Outcome → Option EvalError
  | .failure (.failed error) => some error
  | .failure (.refused _) | .value _ | .done | .previous _ => none

namespace Session

/-- The session after some steps. -/
def after (session : Session) (steps : List Step) : Session :=
  steps.foldl (fun session step => (session.perform step).2) session

theorem after_append (session : Session) (steps more : List Step) :
    session.after (steps ++ more) = (session.after steps).after more :=
  List.foldl_append

theorem after_snoc (session : Session) (steps : List Step) (step : Step) :
    session.after (steps ++ [step]) = ((session.after steps).perform step).2 :=
  after_append session steps [step]

/-! ## What a step does -/

/-- A tree is evaluated alone as it is evaluated in a list. -/
theorem evalAll_singleton (tree : Expr) : evalAll [tree] = (some <$> eval tree : SessionM _) := by
  funext session
  have hrun := run_bind (tree.eval session.notMode) fun value => Action.finish (some value)
  rw [evalAll_eq, Expr.evalAll, Expr.evalAllFrom_cons, map_eq_pure_bind, eval, bind_assoc,
    get_bind_apply]
  exact congrFun hrun session

/-- Where evaluations of a tree end alike, so do the steps that evaluate it. -/
theorem perform_eval_of_sameEnd {R : Session → Session → Prop} {tree : Expr}
    {session other : Session} (h : SameEnd R (evalAll [tree] session) (evalAll [tree] other)) :
    (other.perform (.eval tree)).1 = (session.perform (.eval tree)).1 ∧
      R (session.perform (.eval tree)).2 (other.perform (.eval tree)).2 := by
  rw [perform, perform, ← evalAll_singleton]
  generalize evalAll [tree] session = result, evalAll [tree] other = result' at h ⊢
  cases h with
  | ok ha | error ha => exact ⟨rfl, ha⟩

/-- A step that evaluates trees ends as their evaluation does. -/
theorem perform_of_trees (session : Session) {step : Step} {trees : List Expr}
    (h : step.trees? = some trees) :
    (session.perform step).2 = stateAfter (evalAll trees session) ∧
      (session.perform step).1.failure? = failure? (evalAll trees session) := by
  cases step with
  | script rule source =>
    cases hp : rule.parse source with
    | error error => simp [Step.trees?, hp, Except.toOption] at h
    | ok read =>
      obtain rfl : read = trees := by simpa [Step.trees?, hp, Except.toOption] using h
      cases he : evalAll read session with
      | ok value final =>
        rw [perform, runScript_of_ok hp he]
        exact ⟨rfl, rfl⟩
      | error error final =>
        rw [perform, runScript_of_error hp he]
        exact ⟨rfl, rfl⟩
  | eval tree =>
    obtain rfl : [tree] = trees := Option.some.inj h
    rw [perform, evalAll_singleton]
    cases (some <$> eval tree : SessionM _) session <;> exact ⟨rfl, rfl⟩
  | evalAll others =>
    obtain rfl : others = trees := Option.some.inj h
    rw [perform]
    cases evalAll others session <;> exact ⟨rfl, rfl⟩
  | setNotMode | insert | erase => cases h

/-- Any other step changes the variables at most. -/
theorem perform_of_trees?_eq_none (session : Session) {step : Step} (h : step.trees? = none) :
    (session.perform step).2.console = session.console ∧
      (session.perform step).2.bindings = step.edit session.bindings := by
  cases step with
  | script rule source =>
    cases hp : rule.parse source with
    | error error =>
      rw [perform, runScript_of_parse_eq_error hp]
      exact ⟨rfl, rfl⟩
    | ok trees => simp [Step.trees?, hp, Except.toOption] at h
  | eval | evalAll => cases h
  | setNotMode | insert | erase => exact ⟨rfl, rfl⟩

/-! ## The reading position -/

/-- What is read between the two sessions is nothing, or it ends with a line feed, or it is all that
was left. -/
structure ReadsLines (before after : Session) (bytes : List UInt8) : Prop where
  pending : before.console.input.pending = bytes ++ after.console.input.pending
  consumed : after.console.input.consumed = before.console.input.consumed + bytes.length
  stops : bytes = [] ∨ Text.isFinished bytes = true ∨ after.console.input.pending = []

theorem ReadsLines.refl (session : Session) : session.ReadsLines session [] :=
  ⟨rfl, rfl, .inl rfl⟩

theorem ReadsLines.trans {first middle last : Session} {bytes more : List UInt8}
    (h : first.ReadsLines middle bytes) (hl : middle.ReadsLines last more) :
    first.ReadsLines last (bytes ++ more) := by
  refine ⟨?_, ?_, ?_⟩
  · rw [h.pending, hl.pending, List.append_assoc]
  · rw [hl.consumed, h.consumed, List.length_append, Nat.add_assoc]
  · by_cases hmore : more = []
    · -- Nothing is read in the second part, so the first one stops where both do.
      obtain rfl := hmore
      have hsame : middle.console.input.pending = last.console.input.pending := hl.pending
      rw [List.append_nil, ← hsame]
      exact h.stops
    · refine .inr ((hl.stops.resolve_left hmore).imp_left fun hf => ?_)
      rw [Text.isFinished, beq_iff_eq] at hf ⊢
      rw [List.getLast?_append, hf]
      rfl

/-- A line that is read has its line feed, or nothing follows it. -/
theorem readsLines_readLine (session : Session) :
    session.ReadsLines (stateAfter (onConsole Console.readLine session))
      (Text.splitLine session.console.input.pending).1 := by
  rw [stateAfter_readLine]
  refine ⟨(Text.splitLine_append _).symm, rfl, .inr ?_⟩
  by_cases hrest : (Text.splitLine session.console.input.pending).2 = []
  · exact .inr hrest
  · exact .inl (Text.isFinished_of_splitLine_snd hrest)

/-- Every run reads lines. -/
theorem isKept_readsLines : IsKept fun before after => ∃ bytes, ReadsLines before after bytes where
  refl := fun session => ⟨[], .refl session⟩
  trans := fun ⟨_, h⟩ ⟨_, hl⟩ => ⟨_, h.trans hl⟩
  write := fun text session => (stateAfter_write text session).symm ▸ ⟨[], rfl, rfl, .inl rfl⟩
  flush := fun session => (stateAfter_flush session).symm ▸ ⟨[], .refl session⟩
  readLine := fun session => ⟨_, session.readsLines_readLine⟩
  store := fun _ _ _ => ⟨[], rfl, rfl, .inl rfl⟩

theorem exists_readsLines_perform (session : Session) (step : Step) :
    ∃ bytes, session.ReadsLines (session.perform step).2 bytes := by
  cases ht : step.trees? with
  | some trees =>
    rw [(session.perform_of_trees ht).1, evalAll_eq]
    exact isKept_readsLines.run _ session
  | none =>
    have hsame := (session.perform_of_trees?_eq_none ht).1
    exact ⟨[], by rw [hsame]; rfl, by rw [hsame]; rfl, .inl rfl⟩

theorem exists_readsLines_after (session : Session) (steps : List Step) :
    ∃ bytes, session.ReadsLines (session.after steps) bytes := by
  induction steps generalizing session with
  | nil => exact ⟨[], .refl session⟩
  | cons step steps ih =>
    obtain ⟨bytes, h⟩ := session.exists_readsLines_perform step
    obtain ⟨more, hl⟩ := ih (session.perform step).2
    exact ⟨bytes ++ more, h.trans hl⟩

/-! ## The names with values -/

/-- A name that has a value has one after the step, unless the step takes it away. -/
theorem knows_perform {session : Session} {step : Step} {name : String} (hs : step ≠ .erase name)
    (h : session.knows name = true) : (session.perform step).2.knows name = true := by
  cases ht : step.trees? with
  | some trees =>
    rw [(session.perform_of_trees ht).1, evalAll_eq]
    exact (isKept_advances.run _ session).bound name h
  | none =>
    rw [knows, (session.perform_of_trees?_eq_none ht).2]
    exact Step.isSome_get?_edit hs h

theorem knows_after {session : Session} {steps : List Step} {name : String}
    (hs : .erase name ∉ steps) (h : session.knows name = true) :
    (session.after steps).knows name = true := by
  induction steps generalizing session with
  | nil => exact h
  | cons step steps ih =>
    have hstep : step ≠ .erase name := fun he => hs (he ▸ List.mem_cons_self)
    exact ih (fun hm => hs (List.mem_cons_of_mem _ hm)) (knows_perform hstep h)

/-! ## The answers -/

/-- A step does these deeds: those of the evaluation of its trees, or none. -/
def DoesStep (session : Session) (step : Step) (deeds : List Deed) : Prop :=
  match step.trees? with
  | some trees => Does (evalAll trees) session deeds (evalAll trees session)
  | none => deeds = []

/-- What is to be said of a step that does these deeds, behind other steps of a session. -/
structure KeepsAnswers (start : Session) (steps : List Step) (step : Step) (deeds : List Deed) :
    Prop where
  done : (start.after steps).DoesStep step deeds
  /-- The deeds account for all that the step writes and reads, and for the variables that it does
  not change from outside. -/
  made : { start.after steps with bindings := step.edit (start.after steps).bindings }.Made deeds
    (start.after (steps ++ [step]))
  /-- What has been read since the session began is nothing, or ends with a line feed, or is the
  whole input. -/
  reads : ∃ bytes, start.ReadsLines (start.after (steps ++ [step])) bytes
  /-- Every line that is read is asked for and stored, but for the last one if a device fails, and
  only names without a value are prompted for. -/
  orderly : IsOrderly (start.after steps).bindings [] deeds
    ((start.after steps).perform step).1.failure?
  /-- A name loses its value only if the step is to take it away. -/
  known : ∀ name, step ≠ .erase name → (start.after steps).knows name = true →
    (start.after (steps ++ [step])).knows name = true
  /-- A name that had a value once, which was not taken away since, is not prompted for. -/
  once : ∀ earlier later name taken, steps = earlier ++ later →
    (start.after earlier).knows name = true → .erase name ∉ later →
    .wrote (Console.prompt name) taken ∉ deeds

/-- What the deeds of a step are like. -/
theorem exists_doesStep (session : Session) (step : Step) : ∃ deeds, session.DoesStep step deeds ∧
    { session with bindings := step.edit session.bindings }.Made deeds (session.perform step).2 ∧
    IsOrderly session.bindings [] deeds (session.perform step).1.failure? := by
  cases ht : step.trees? with
  | some trees =>
    obtain ⟨deeds, hd, hc⟩ := exists_course (Expr.evalAll session.notMode trees) session
    obtain ⟨hs, hf⟩ := session.perform_of_trees ht
    rw [← evalAll_eq] at hd hc
    -- The mode is looked up, which is no deed, before the trees are evaluated.
    have hdoes : Does (evalAll trees) session ([] ++ deeds) (evalAll trees session) :=
      .bind (.get session) hd
    rw [hs, hf, Step.edit_of_trees ht]
    refine ⟨deeds, ?_, hd.made, hc.isOrderly rfl⟩
    rw [DoesStep, ht]
    exact hdoes
  | none =>
    obtain ⟨hc, hb⟩ := session.perform_of_trees?_eq_none ht
    refine ⟨[], by rw [DoesStep, ht], ⟨?_, ?_, hb⟩, .nil _ _ _⟩
    · rw [hc]
      exact (List.append_nil _).symm
    · rw [hc]
      rfl

/-- No answer is lost, and none is asked for twice: whatever steps a session has come through, also
steps that failed, what a further step does keeps the answers. -/
theorem exists_keepsAnswers (start : Session) (steps : List Step) (step : Step) :
    ∃ deeds, KeepsAnswers start steps step deeds := by
  obtain ⟨deeds, hd, hm, ho⟩ := (start.after steps).exists_doesStep step
  refine ⟨deeds, hd, ?_, start.exists_readsLines_after _, ho, fun name hs hk => ?_, ?_⟩
  · rw [after_snoc]
    exact hm
  · rw [after_snoc]
    exact knows_perform hs hk
  · intro earlier later name taken he hk hl hmem
    subst he
    obtain ⟨front, behind, hdeeds⟩ := List.append_of_mem hmem
    have hnone := ho.unbound front name taken behind hdeeds
    have hknown : (start.after (earlier ++ later)).knows name = true := by
      rw [after_append]
      exact knows_after hl hk
    -- The name had a value when the step began, and still has one when it is prompted for.
    have hsome := Bindings.isSome_get?_replay hknown front
    rw [List.nil_append] at hnone
    rw [hnone] at hsome
    cases hsome

end Session

end BoolScript
