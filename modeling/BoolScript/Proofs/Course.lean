import BoolScript.Proofs.Deeds

/-!
# The course of a run

A run is a sequence of deeds, and not of any deeds in any order: `Session.Course` has one rule for
each way in which a run can go on, and every run goes by these rules (`Session.exists_course`).

## Shape of a question

A line is read directly behind a prompt that was written completely and flushed, and directly behind
it the name in the prompt is given its value, unless reading the line fails, which ends the run. A
name that has a value does not stand in a prompt. `Session.IsOrderly` says this of a list of deeds
without the rules, place by place, and `Session.Course.isOrderly` derives it from them.
-/

namespace BoolScript

namespace Session

/-- The error with which a computation fails, if it does. -/
def failure? {ε σ α : Type} : EStateM.Result ε σ α → Option ε
  | .ok _ _ => none
  | .error error _ => some error

/-- How a run goes on with these bindings, until it ends or fails. -/
inductive Course : Bindings → List Deed → Option EvalError → Prop where
  | ended (bindings : Bindings) (failure : Option EvalError) : Course bindings [] failure
  | shown {bindings : Bindings} {value : Bool} {taken : List UInt8} {deeds : List Deed}
    {failure : Option EvalError} (rest : Course bindings deeds failure) :
    Course bindings (.wrote (Console.valueLine value) taken :: deeds) failure
  | bound {bindings : Bindings} {name : String} {value : Bool} {deeds : List Deed}
    {failure : Option EvalError} (rest : Course (bindings.insert name value) deeds failure) :
    Course bindings (.bound name value :: deeds) failure
  /-- A prompt is not written completely, or not flushed. -/
  | unseen {bindings : Bindings} {name : String} {taken : List UInt8} {failure : Option EvalError}
    (h : bindings.get? name = none) : Course bindings [.wrote (Console.prompt name) taken] failure
  /-- The input is at its end. -/
  | unanswered {bindings : Bindings} {name : String} {failure : Option EvalError}
    (h : bindings.get? name = none) : Course bindings (Deed.asking name ++ [.took []]) failure
  /-- A line cannot be read. -/
  | lost {bindings : Bindings} {name : String} {line : List UInt8} {details : String}
    (h : bindings.get? name = none) :
    Course bindings (Deed.asking name ++ [.took line]) (some (.console (.io details)))
  | answered {bindings : Bindings} {name text : String} {deeds : List Deed}
    {failure : Option EvalError} (h : bindings.get? name = none)
    (rest : Course (bindings.insert name (Console.answer text)) deeds failure) :
    Course bindings (Deed.asking name ++ .took (Text.encode text) ::
      .bound name (Console.answer text) :: deeds) failure

/-! ## Tasks and questions -/

/-- Some bytes of a text arrive. -/
theorem exists_does_write (text : String) (session : Session) : ∃ taken,
    Does (onConsole (Console.write text)) session [.wrote text taken]
      (onConsole (Console.write text) session) := by
  obtain ⟨taken, ht⟩ := (session.advances_write text).written
  exact ⟨taken, .wrote rfl ht.symm⟩

/-- A text that is written completely arrives. -/
theorem does_write_of_ok {text : String} {session : Session} {console : Console}
    (h : Console.write text session.console = .ok () console) :
    Does (onConsole (Console.write text)) session [.wrote text (Text.encode text)]
      (.ok () (session.atConsole console)) := by
  obtain ⟨hc, rfl⟩ := Console.write_eq_ok_iff.1 h
  exact .wrote (onConsole_of_ok h) (Output.written_of_complete hc)

theorem does_readLine (session : Session) :
    Does (onConsole Console.readLine) session
      [.took (Text.splitLine session.console.input.pending).1]
      (onConsole Console.readLine session) := by
  refine .took rfl ?_
  rw [stateAfter_readLine]
  exact (Text.splitLine_append _).symm

/-- The deeds of a question whose prompt is seen begin with those of asking. -/
theorem does_ask_of_seen {name : String} {session : Session} {written flushed : Console}
    (hw : Console.write (Console.prompt name) session.console = .ok () written)
    (hf : Console.flush written = .ok () flushed) {deeds : List Deed}
    {result : EStateM.Result EvalError Session Bool}
    (hd : Does (do
      match ← onConsole Console.readLine with
      | some line => return Console.answer line
      | none => throw (.console (.inputClosed name))) (session.atConsole flushed) deeds result) :
    Does (onConsole (Console.ask name)) session (Deed.asking name ++ deeds) result := by
  have hflush : onConsole Console.flush (session.atConsole written) =
      .ok () (session.atConsole flushed) := onConsole_of_ok hf
  rw [onConsole_ask, Deed.asking_append]
  exact .bind (does_write_of_ok hw) (.bind (.flushed hflush) hd)

/-- The deeds of a question that is answered. -/
theorem exists_does_ask_of_ok {name : String} {value : Bool} {session : Session} {console : Console}
    (h : Console.ask name session.console = .ok value console) :
    ∃ text, Console.answer text = value ∧
      Does (onConsole (Console.ask name)) session (Deed.asking name ++ [.took (Text.encode text)])
        (.ok value (session.atConsole console)) := by
  obtain ⟨_, written, hw, h⟩ := bind_eq_ok_iff.1 h
  obtain ⟨_, flushed, hf, h⟩ := bind_eq_ok_iff.1 h
  obtain ⟨line, _, hr, h⟩ := bind_eq_ok_iff.1 h
  cases line with
  | none => cases h
  | some text =>
    obtain ⟨rfl, rfl⟩ := pure_eq_ok_iff.1 h
    have hread := does_readLine (session.atConsole flushed)
    rw [onConsole_of_ok hr, console_atConsole,
      Input.splitLine_of_readLine (Console.readLine_eq_ok_iff.1 hr).1] at hread
    exact ⟨text, rfl, does_ask_of_seen hw hf (.bind hread (.pure _ _))⟩

/-- The deeds of a question that is not answered. -/
theorem exists_does_ask_of_error {name : String} {error : ConsoleError} {session : Session}
    {console : Console} (h : Console.ask name session.console = .error error console)
    {bindings : Bindings} (hb : bindings.get? name = none) :
    ∃ deeds, Course bindings deeds (some (.console error)) ∧
      Does (onConsole (Console.ask name)) session deeds
        (.error (.console error) (session.atConsole console)) := by
  rcases bind_eq_error_iff.1 h with hw | ⟨_, written, hw, h⟩
  · obtain ⟨taken, hwrite⟩ := exists_does_write (Console.prompt name) session
    rw [onConsole_of_error hw] at hwrite
    rw [onConsole_ask]
    exact ⟨_, .unseen hb, .bindError hwrite⟩
  rcases bind_eq_error_iff.1 h with hf | ⟨_, flushed, hf, h⟩
  · have hflush : onConsole Console.flush (session.atConsole written) =
        .error (.console error) (session.atConsole console) := onConsole_of_error hf
    rw [onConsole_ask]
    exact ⟨_, .unseen hb, .bind (does_write_of_ok hw) (.bindError (.notFlushed hflush))⟩
  have hread := does_readLine (session.atConsole flushed)
  rcases bind_eq_error_iff.1 h with hr | ⟨line, _, hr, h⟩
  · -- The line is gone, whatever is wrong with it.
    obtain ⟨details, rfl⟩ : ∃ details, error = .io details := by
      rcases Input.eq_of_readLine_eq_error (Console.readLine_eq_error_iff.1 hr).1 with he | he <;>
        exact ⟨_, he⟩
    rw [onConsole_of_error hr] at hread
    exact ⟨_, .lost hb, does_ask_of_seen hw hf (.bindError hread)⟩
  · rw [onConsole_of_ok hr, console_atConsole] at hread
    cases line with
    | some text => cases h
    | none =>
      cases h
      rw [Input.splitLine_of_readLine_eq_none (Console.readLine_eq_ok_iff.1 hr).1] at hread
      exact ⟨_, .unanswered hb, does_ask_of_seen hw hf (.bind hread (.throw _ _))⟩

/-! ## Runs -/

section

variable {name : String} {session : Session}

theorem does_fetch_of_bound {value : Bool} (h : session.bindings.get? name = some value) :
    Does (fetch name) session [] (.ok value session) := by
  change Does _ session ([] ++ []) _
  refine .bind (.get session) ?_
  rw [h]
  exact .pure value session

theorem does_fetch_of_unbound (h : session.bindings.get? name = none) {deeds : List Deed}
    {result : EStateM.Result EvalError Session Bool}
    (hd : Does (do
      let value ← onConsole (Console.ask name)
      store name value
      return value) session deeds result) :
    Does (fetch name) session deeds result := by
  change Does _ session ([] ++ deeds) _
  refine .bind (.get session) ?_
  rw [h]
  exact hd

end

/-- Every run goes on by the rules. -/
theorem exists_course {α : Type} (action : Action α) (session : Session) :
    ∃ deeds, Does (run action) session deeds (run action session) ∧
      Course session.bindings deeds (failure? (run action session)) := by
  induction action generalizing session with
  | finish value => exact ⟨_, .pure value session, .ended _ _⟩
  | fault defect => exact ⟨_, .throw _ session, .ended _ _⟩
  | fetch name next ih =>
    rw [run]
    cases hb : session.bindings.get? name with
    | some value =>
      obtain ⟨deeds, hd, hc⟩ := ih value session
      rw [bind_of_ok (fetch_of_bound hb)]
      exact ⟨_, .bind (does_fetch_of_bound hb) hd, hc⟩
    | none =>
      cases ha : Console.ask name session.console with
      | ok value console =>
        obtain ⟨text, rfl, hask⟩ := exists_does_ask_of_ok ha
        obtain ⟨deeds, hd, hc⟩ := ih _ ((session.atConsole console).bind name _)
        have hfetch := does_fetch_of_unbound hb (.bind hask (.bind (.bound name _ _) (.pure _ _)))
        rw [bind_of_ok (fetch_of_answer hb ha)]
        exact ⟨_, .bind hfetch hd, .answered hb hc⟩
      | error error console =>
        obtain ⟨deeds, hc, hask⟩ := exists_does_ask_of_error ha hb
        rw [bind_of_error (fetch_of_failure hb ha)]
        exact ⟨deeds, .bindError (does_fetch_of_unbound hb (.bindError hask)), hc⟩
  | store name value next ih =>
    obtain ⟨deeds, hd, hc⟩ := ih (session.bind name value)
    rw [run, bind_of_ok (store_eq name value session)]
    exact ⟨_, .bind (.bound name value session) hd, .bound hc⟩
  | print value next ih =>
    rw [run]
    obtain ⟨taken, hprint⟩ : ∃ taken, Does (onConsole (Console.print value)) session
        [.wrote (Console.valueLine value) taken] (onConsole (Console.print value) session) :=
      exists_does_write (Console.valueLine value) session
    cases hp : Console.print value session.console with
    | ok _ console =>
      obtain ⟨deeds, hd, hc⟩ := ih (session.atConsole console)
      rw [onConsole_of_ok hp] at hprint
      rw [bind_of_ok (onConsole_of_ok hp)]
      exact ⟨_, .bind hprint hd, .shown hc⟩
    | error error console =>
      rw [onConsole_of_error hp] at hprint
      rw [bind_of_error (onConsole_of_error hp)]
      exact ⟨_, .bindError hprint, .shown (.ended _ _)⟩

/-! ## Deeds in order -/

/-- A line may be read between these deeds. Directly before it a name without a value has been asked
for. Directly behind it the name is given the value that the line stands for, unless a device has
failed and nothing more is done. -/
inductive IsAnswer (bindings : Bindings) :
    List Deed → List UInt8 → List Deed → Option EvalError → Prop where
  | kept {earlier more : List Deed} {name text : String} {failure : Option EvalError}
    (h : (bindings.replay earlier).get? name = none) :
    IsAnswer bindings (earlier ++ Deed.asking name) (Text.encode text)
      (.bound name (Console.answer text) :: more) failure
  | lost {earlier : List Deed} {name : String} {line : List UInt8} {details : String}
    (h : (bindings.replay earlier).get? name = none) :
    IsAnswer bindings (earlier ++ Deed.asking name) line [] (some (.console (.io details)))

/-- Behind what was done in the past, every line that is read is an answer, and no name is prompted
for that has a value. -/
structure IsOrderly (bindings : Bindings) (past deeds : List Deed) (failure : Option EvalError) :
    Prop where
  answers : ∀ front line behind, deeds = front ++ .took line :: behind → line ≠ [] →
    IsAnswer bindings (past ++ front) line behind failure
  unbound : ∀ front name taken behind,
    deeds = front ++ .wrote (Console.prompt name) taken :: behind →
    (bindings.replay (past ++ front)).get? name = none

namespace IsOrderly

variable {bindings : Bindings} {past deeds : List Deed} {failure : Option EvalError}

theorem nil (bindings : Bindings) (past : List Deed) (failure : Option EvalError) :
    IsOrderly bindings past [] failure :=
  ⟨fun _ _ _ he => absurd he (by simp), fun _ _ _ _ he => absurd he (by simp)⟩

theorem cons {deed : Deed} (h : IsOrderly bindings (past ++ [deed]) deeds failure)
    (ht : ∀ line, deed = .took line → line ≠ [] → IsAnswer bindings past line deeds failure)
    (hw : ∀ name taken, deed = .wrote (Console.prompt name) taken →
      (bindings.replay past).get? name = none) :
    IsOrderly bindings past (deed :: deeds) failure := by
  constructor
  · intro front line behind he hl
    cases front with
    | nil =>
      obtain ⟨hd, rfl⟩ := List.cons.inj he
      rw [List.append_nil]
      exact ht line hd hl
    | cons first front =>
      obtain ⟨rfl, hrest⟩ := List.cons.inj he
      rw [List.append_cons]
      exact h.answers front line behind hrest hl
  · intro front name taken behind he
    cases front with
    | nil =>
      rw [List.append_nil]
      exact hw name taken (List.cons.inj he).1
    | cons first front =>
      obtain ⟨rfl, hrest⟩ := List.cons.inj he
      rw [List.append_cons]
      exact h.unbound front name taken behind hrest

theorem prompted {name : String} {taken : List UInt8} (hb : (bindings.replay past).get? name = none)
    (h : IsOrderly bindings (past ++ [.wrote (Console.prompt name) taken]) deeds failure) :
    IsOrderly bindings past (.wrote (Console.prompt name) taken :: deeds) failure := by
  refine h.cons (fun line he => by cases he) fun other _ he => ?_
  rw [← Console.prompt_injective (Deed.wrote.inj he).1]
  exact hb

/-- A name without a value may be asked for. -/
theorem asked {name : String} {line : List UInt8} (hb : (bindings.replay past).get? name = none)
    (ha : line ≠ [] → IsAnswer bindings (past ++ Deed.asking name) line deeds failure)
    (h : IsOrderly bindings (past ++ Deed.asking name ++ [.took line]) deeds failure) :
    IsOrderly bindings past (Deed.asking name ++ .took line :: deeds) failure := by
  rw [Deed.asking_append]
  have hpast : past ++ Deed.asking name =
      past ++ [.wrote (Console.prompt name) (Text.encode (Console.prompt name))] ++ [.flushed] := by
    rw [List.append_assoc]
    rfl
  rw [hpast] at ha h
  refine .prompted hb (.cons ?_ (fun _ he => by cases he) (fun _ _ he => by cases he))
  exact h.cons (fun _ he hl => by cases he; exact ha hl) (fun _ _ he => by cases he)

end IsOrderly

/-- Whoever goes by the rules does everything in order. -/
theorem Course.isOrderly {bindings current : Bindings} {past deeds : List Deed}
    {failure : Option EvalError} (h : Course current deeds failure)
    (hc : current = bindings.replay past) : IsOrderly bindings past deeds failure := by
  induction h generalizing past with
  | ended => exact .nil _ _ _
  | @shown current value taken deeds failure _ ih =>
    have hsame : current = bindings.replay (past ++ [.wrote (Console.valueLine value) taken]) := by
      rw [Bindings.replay_append, ← hc]
      rfl
    refine (ih hsame).cons (fun _ he => by cases he) fun name _ he => ?_
    exact absurd (Deed.wrote.inj he).1 (Console.valueLine_ne_prompt value name)
  | @bound current name value deeds failure _ ih =>
    have hbound : current.insert name value = bindings.replay (past ++ [.bound name value]) := by
      rw [Bindings.replay_append, ← hc]
      rfl
    exact (ih hbound).cons (fun _ he => by cases he) fun _ _ he => by cases he
  | unseen h => exact .prompted (hc ▸ h) (.nil _ _ _)
  | unanswered h => exact .asked (hc ▸ h) (fun hl => absurd rfl hl) (.nil _ _ _)
  | lost h => exact .asked (hc ▸ h) (fun _ => .lost (hc ▸ h)) (.nil _ _ _)
  | @answered current name text deeds failure h _ ih =>
    have hbound : current.insert name (Console.answer text) =
        bindings.replay (past ++ Deed.asking name ++ [.took (Text.encode text)] ++
          [.bound name (Console.answer text)]) := by
      rw [Bindings.replay_append, Bindings.replay_append, Bindings.replay_append, ← hc]
      rfl
    refine .asked (hc ▸ h) (fun _ => .kept (hc ▸ h)) ?_
    exact (ih hbound).cons (fun _ he => by cases he) fun _ _ he => by cases he

end Session

end BoolScript
