import BoolScript.Proofs.FormulaRun
import BoolScript.Proofs.ScriptSafety
import BoolScript.Proofs.UpFront

/-!
# Evaluating the same trees again

An evaluation that ends well has given a value to every name that its trees need or assign, whatever
the values are. So the same trees can be evaluated again without a question: the second evaluation
reads nothing, prompts for nothing and knows no further name (`Session.evalAll_again`). It need not
come to the same values, because an assignment in the trees may have changed a variable since it was
read. Without assignments it does the same as the first evaluation, prompts apart.

## Shape of the proof

The names that are known after a run are told by the requests of the action (`Runs.knows_iff`), and
the second run makes the same requests. Without assignments the answers of the first run are all
that it adds to the variables, so the second run is one that is supplied with the answers.
-/

namespace BoolScript

namespace Expr

/-- No node of the tree is an assignment. -/
def HasNoAssignment : Expr → Prop
  | literal _ _ | var _ _ => True
  | binary (.logical _) left right _ => left.HasNoAssignment ∧ right.HasNoAssignment
  | binary .assign _ _ _ => False
  | unary _ _ operand _ => operand.HasNoAssignment

/-- A tree without assignments writes no name. -/
theorem HasNoAssignment.write_notMem_requests {tree : Expr} (h : tree.HasNoAssignment)
    (mode : NotMode) (name : String) : .write name ∉ tree.requests mode := by
  induction tree with
  | literal text position =>
    rw [requests]
    split <;> simp
  | var other position => simp [requests]
  | binary op left right position ihl ihr =>
    cases op with
    | logical connective =>
      rw [requests, List.mem_append, not_or]
      exact ⟨ihl h.1, ihr h.2⟩
    | assign => exact h.elim
  | unary op text operand position ih =>
    cases op with
    | print => simpa [requests] using ih h
    | not =>
      cases mode with
      | operatorText => simp [requests]
      | operand => exact ih h

theorem write_notMem_requestsAll {trees : List Expr} (h : ∀ tree ∈ trees, tree.HasNoAssignment)
    (mode : NotMode) (name : String) : .write name ∉ requestsAll mode trees := by
  rw [requestsAll, List.mem_flatMap]
  rintro ⟨tree, ht, hw⟩
  exact (h tree ht).write_notMem_requests mode name hw

end Expr

/-- Where all names that are read are known, none is asked for. -/
theorem prompts_eq_nil {known : String → Bool} {requests : List Request}
    (h : ∀ name, .read name ∈ requests → known name = true) : prompts known requests = [] := by
  induction requests generalizing known with
  | nil => rfl
  | cons request rest ih =>
    cases request with
    | read name =>
      rw [prompts_read_of_known (h name List.mem_cons_self)]
      exact ih fun other ho => h other (List.mem_cons_of_mem _ ho)
    | write name =>
      refine ih fun other ho => ?_
      rw [learn, h other (List.mem_cons_of_mem _ ho), Bool.or_true]
    | print => exact ih fun other ho => h other (List.mem_cons_of_mem _ ho)
    | fail defect => rfl

namespace Event

theorem questions_showings (events : List Event) : questions (showings events) = [] := by
  rw [questions, List.filterMap_eq_nil_iff]
  intro event he
  simpa using (List.mem_filter.1 he).2

/-- Events without a question only show something. -/
theorem showings_eq_self {events : List Event} (h : questions events = []) :
    showings events = events := by
  rw [showings, List.filter_eq_self]
  intro event he
  rw [List.filterMap_eq_nil_iff.1 h event he]
  rfl

end Event

namespace Session

variable {α : Type} {action : Action α} {session : Session} {events : List Event}
  {result : EStateM.Result EvalError Session α} {requests : List Request}

/-! ## Runs that end well -/

/-- The rules leave no choice of events either. -/
theorem Runs.events_eq (h : Runs action session events result) :
    Session.events action session = events := by
  induction h with
  | finish | fault => rfl
  | known h _ ih => simp only [Session.events, h, ih]
  | asked h ha _ ih => simp only [Session.events, h, ha, ih]
  | askFailed h ha => simp only [Session.events, h, ha]
  | stored _ ih => simp only [Session.events, ih]
  | shown hp _ ih => simp only [Session.events, hp, ih]
  | showFailed hp => simp only [Session.events, hp]

/-- A run that ends well has made all of its requests, and none of them was a fault. -/
theorem Runs.fail_notMem (h : Runs action session events result)
    (hf : Action.Follows requests action) {value : α} {after : Session}
    (hr : result = .ok value after) (defect : Fault) : .fail defect ∉ requests := by
  intro hm
  subst hr
  rcases h.outcome_cases hf with ⟨_, _, -, hnone⟩ | ⟨_, _, he, -⟩ | ⟨_, _, he⟩
  · cases List.findSome?_eq_none_iff.1 hnone _ hm
  · cases he
  · cases he

theorem knows_atConsole (session : Session) (console : Console) :
    (session.atConsole console).knows = session.knows := rfl

/-- The names with values after a run that ends well are those that had values before it and those
that its requests are about. -/
theorem Runs.knows_iff (h : Runs action session events result)
    (hf : Action.Follows requests action) {value : α} {after : Session}
    (hr : result = .ok value after) (name : String) :
    after.knows name = true ↔
      session.knows name = true ∨ name ∈ requests.filterMap Request.name? := by
  induction h generalizing requests with
  | finish =>
    cases hf
    cases hr
    simp
  | fault | askFailed | showFailed => cases hr
  | @known other next session value events result h _ ih =>
    cases hf with
    | @fetch _ rest _ hf =>
      rw [ih (hf _) hr]
      -- The name that is read had a value already.
      have hknown : name = other → session.knows name = true := fun he => he ▸ knows_of_some h
      simp only [List.filterMap_cons, Request.name?, List.mem_cons]
      grind
  | @asked other next session value console events result _ _ _ ih =>
    cases hf with
    | @fetch _ rest _ hf =>
      rw [ih (hf _) hr, knows_bind, knows_atConsole, learn, Bool.or_eq_true, beq_iff_eq, or_assoc,
        or_left_comm, List.filterMap_cons, Request.name?, List.mem_cons]
  | stored _ ih =>
    cases hf with
    | store hf =>
      rw [ih hf hr, knows_bind, learn, Bool.or_eq_true, beq_iff_eq, or_assoc, or_left_comm,
        List.filterMap_cons, Request.name?, List.mem_cons]
  | shown _ _ ih =>
    cases hf with
    | print hf =>
      rw [ih hf hr, knows_atConsole, List.filterMap_cons, Request.name?]

/-- A run that ends well has shown one value for each request to print. -/
theorem Runs.length_showings (h : Runs action session events result)
    (hf : Action.Follows requests action) {value : α} {after : Session}
    (hr : result = .ok value after) :
    (Event.showings events).length = requests.count .print := by
  induction h generalizing requests with
  | finish =>
    cases hf
    rfl
  | fault | askFailed | showFailed => cases hr
  | known _ _ ih | asked _ _ _ ih =>
    cases hf with
    | fetch hf => simpa [List.count_cons] using ih (hf _) hr
  | stored _ ih =>
    cases hf with
    | store hf => simpa [List.count_cons] using ih hf hr
  | shown _ _ ih =>
    cases hf with
    | print hf => simpa [List.count_cons] using ih hf hr

/-! ## Second runs -/

/-- A second run of an action finds all names known that it needs. It asks for nothing, ends well
if its output does not fail, and has values for no further names. -/
theorem Runs.again (h : Runs action session events result) (hf : Action.Follows requests action)
    {value : α} {after : Session} (hr : result = .ok value after) {again : Session}
    {events' : List Event} {result' : EStateM.Result EvalError Session α}
    (h' : Runs action again events' result') (hk : again.knows = after.knows)
    (ho : again.console.output.room = none) :
    ∃ value' final, result' = .ok value' final ∧ Event.questions events' = [] ∧
      final.console.input = again.console.input ∧ final.knows = after.knows := by
  have hmem : ∀ name, name ∈ requests.filterMap Request.name? → again.knows name = true := by
    intro name hm
    rw [hk]
    exact (h.knows_iff hf hr name).2 (.inr hm)
  have hread : ∀ name, .read name ∈ requests → again.knows name = true := fun name hm =>
    hmem name (List.mem_filterMap.2 ⟨_, hm, rfl⟩)
  obtain ⟨hi, hend⟩ := h'.of_known hf hread (h.fail_notMem hf hr)
  rcases hend with ⟨value', final, rfl⟩ | ⟨hroom, -⟩
  · refine ⟨value', final, rfl, ?_, hi, ?_⟩
    · rw [← List.map_eq_nil_iff (f := Prod.fst), h'.questions_eq_prompts hf rfl]
      exact prompts_eq_nil hread
    · rw [← hk]
      funext name
      rw [Bool.eq_iff_iff, h'.knows_iff hf rfl name]
      exact ⟨fun hn => hn.elim id (hmem name), .inl⟩
  · exact absurd ho hroom

/-- A second run of an action that writes no name does what the first one did, but asks nothing. -/
theorem Runs.again_of_no_write (h : Runs action session events result)
    (hf : Action.Follows requests action) (hw : ∀ name, .write name ∉ requests) {value : α}
    {after : Session} (hr : result = .ok value after) {again : Session}
    (hb : again.bindings = after.bindings) (ho : again.console.output.room = none) :
    ∃ final, Runs action again (Event.showings events) (.ok value final) ∧
      final.bindings = after.bindings := by
  have hafter : after.bindings = session.bindings.insertAll (Event.questions events) := by
    have hall := h.bindings_eq_insertAll hf hw
    rwa [hr] at hall
  have hknown : ∀ name, again.bindings.get? name =
      (session.bindings.get? name).or ((Event.questions events).lookup name) := by
    rw [hb, hafter]
    exact Bindings.get?_insertAll h.nodup_questions fun name => h.unbound_of_question
  obtain ⟨final, hrun, -, -⟩ := h.supplied hr hknown ho
  refine ⟨final, hrun, ?_⟩
  have hall : final.bindings = again.bindings.insertAll _ := hrun.bindings_eq_insertAll hf hw
  rw [hall, Event.questions_showings, hb]
  rfl

/-! ## Evaluating trees again -/

/-- Trees that have been evaluated well can be evaluated again in the same mode. With an output that
has no limit, and with any input, the second evaluation ends well. It reads nothing and asks
nothing, writes one line for each value that is to be printed, and the names with values are those
that had values before. If there is no assignment in the trees, it has the same value as the first
one, changes no variable, and shows the same values in the same order. -/
theorem evalAll_again {trees : List Expr} {session after : Session} {value : Option Bool}
    (h : evalAll trees session = .ok value after) (input : Input) {output : Output}
    (ho : output.room = none) :
    let again : Session := ⟨after.bindings, session.notMode, ⟨input, output⟩⟩
    ∃ value' final, evalAll trees again = .ok value' final ∧
      final.console.input = input ∧
      final.console.output.written.toList =
        output.written.toList ++ Event.bytes (transcript trees again) ∧
      questions trees again = [] ∧
      (transcript trees again).length = (Expr.requestsAll session.notMode trees).count .print ∧
      (∀ name, final.knows name = after.knows name) ∧
      ((∀ tree ∈ trees, tree.HasNoAssignment) →
        value' = value ∧ final.bindings = after.bindings ∧
        after.console.output.written.toList =
          session.console.output.written.toList ++ Event.bytes (transcript trees session) ∧
        transcript trees again = Event.showings (transcript trees session)) := by
  intro again
  have hfollows := Expr.follows_evalAll session.notMode trees
  have hfirst := runs_evalAll trees session
  have hsecond : Runs (Expr.evalAll session.notMode trees) again _ _ := runs_evalAll trees again
  have hb : again.bindings = after.bindings := rfl
  have hroom : again.console.output.room = none := ho
  obtain ⟨value', final, hend, hquestions, hinput, hknows⟩ :=
    hfirst.again hfollows h hsecond rfl hroom
  have hquiet : Event.showings (transcript trees again) = transcript trees again :=
    Event.showings_eq_self hquestions
  refine ⟨value', final, hend, hinput, (hsecond.exchange hend).written, hquestions, ?_,
    congrFun hknows, fun hn => ?_⟩
  · rw [← hquiet]
    exact hsecond.length_showings hfollows hend
  · have hwrite := Expr.write_notMem_requestsAll hn session.notMode
    obtain ⟨last, hrun, hlast⟩ := hfirst.again_of_no_write hfollows hwrite h hb hroom
    obtain ⟨rfl, rfl⟩ : value = value' ∧ last = final := by
      have hsame := hrun.run_eq.symm.trans (hsecond.run_eq.trans hend)
      simpa using hsame
    exact ⟨rfl, hlast, (hfirst.exchange h).written, hrun.events_eq⟩

/-- The first evaluation asks for two names and changes the value of one of them, so that the second
one prints another value. -/
theorem evalAll_again_of_changed_name :
    let trees : List Expr :=
      [.unary .print "print" (.logical .xor (.var "x" 6) (.var "y" 12) 8) 0,
        .binary .assign (.var "x" 15) (.unary .not "not" (.var "x" 23) 19) 17]
    let session : Session := ⟨.empty, .operand, ⟨⟨Text.encode "True\r\nno", 0, false⟩, {}⟩⟩
    let after : Session :=
      ⟨((Bindings.insert .empty "x" true).insert "y" false).insert "x" false, .operand,
        ⟨⟨[], 8, false⟩, ⟨(Event.bytes (transcript trees session)).toArray, none, false⟩⟩⟩
    let again : Session := ⟨after.bindings, .operand, ⟨⟨Text.encode "true\n", 0, false⟩, {}⟩⟩
    transcript trees session = [.asked "x" true, .asked "y" false, .shown true] ∧
      evalAll trees session = .ok (some false) after ∧
      transcript trees again = [.shown false] ∧
      ∃ value final, evalAll trees again = .ok value final ∧
        final.console.input = again.console.input ∧
        ∀ name, final.knows name = after.knows name := by
  intro trees session after again
  have hfirst : evalAll trees session = .ok (some false) after := by
    unfold after trees session
    rfl
  obtain ⟨value, final, hend, hinput, -, -, -, hknows, -⟩ :=
    evalAll_again hfirst again.console.input (show again.console.output.room = none from rfl)
  exact ⟨by decide +kernel, hfirst, by decide +kernel, value, final, hend, hinput, hknows⟩

end Session

end BoolScript
