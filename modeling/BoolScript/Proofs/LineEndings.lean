import BoolScript.Proofs.CarriageReturns
import BoolScript.Proofs.SessionHistory

/-!
# Line endings of answers do not matter

A session whose input has a carriage return before every line feed does, step by step, what it does
with line feeds alone: the outcomes, the bytes written and the variables are the same, and the input
is read to the same place (`Session.steps_withReturns`). This is so for every input, also where it
has empty lines, carriage returns of its own, lines that are no texts or a last line without an end,
and for every input that fails and every output.

## Shape of the proof

The two sessions run side by side and differ in their inputs alone, which have been read to the same
place. A question reads one line of each, and both lines have the same answer or the same error
(`Input.IsRestyled.readLine`). Everything else does not look at the input, so the rules of the first
run are rules of the second one (`Session.Runs.restyled`).
-/

namespace BoolScript

/-! ## Questions -/

namespace Console

/-- The second console has the input of the first one in the style with two bytes. -/
structure IsRestyled (bytes : List UInt8) (console other : Console) : Prop where
  output : other.output = console.output
  input : console.input.IsRestyled bytes other.input

variable {bytes : List UInt8} {console other : Console}

theorem IsRestyled.write (h : console.IsRestyled bytes other) (text : String) :
    SameEnd (IsRestyled bytes) (write text console) (write text other) := by
  unfold Console.write
  rw [h.output]
  dsimp only
  split
  · exact .ok ⟨rfl, h.input⟩
  · exact .error ⟨rfl, h.input⟩

theorem IsRestyled.flush (h : console.IsRestyled bytes other) :
    SameEnd (IsRestyled bytes) (flush console) (flush other) := by
  unfold Console.flush
  rw [h.output]
  split
  · exact .error h
  · exact .ok h

/-- The next line of both consoles has the same answer, or there is the same reason for none. -/
theorem IsRestyled.reply (h : console.IsRestyled bytes other) (name : String) :
    SameEnd (IsRestyled bytes) (reply name console) (reply name other) := by
  obtain ⟨ha, hi⟩ := h.input.readLine
  have hafter : IsRestyled bytes { console with input := console.input.readLine.2 }
      { other with input := other.input.readLine.2 } := ⟨h.output, hi⟩
  rw [reply_eq, reply_eq]
  cases hl : console.input.readLine.1 <;> cases hl' : other.input.readLine.1 <;> rw [hl, hl'] at ha
  · cases ha
    exact .error hafter
  · cases ha
  · cases ha
  · next line line' =>
    have hanswer : line'.map answer = line.map answer := Except.ok.inj ha
    cases line <;> cases line'
    · exact .error hafter
    · cases hanswer
    · cases hanswer
    · next text text' =>
      have hsame : answer text' = answer text := Option.some.inj hanswer
      dsimp only
      rw [hsame]
      exact .ok hafter

theorem IsRestyled.ask (h : console.IsRestyled bytes other) (name : String) :
    SameEnd (IsRestyled bytes) (ask name console) (ask name other) :=
  (h.write (prompt name)).bind fun _ _ _ h => h.flush.bind fun _ _ _ h => h.reply name

end Console

namespace Session

/-! ## Runs -/

/-- The second session has the input of the first one in the style with two bytes. -/
structure IsRestyled (bytes : List UInt8) (session other : Session) : Prop where
  bindings : other.bindings = session.bindings
  notMode : other.notMode = session.notMode
  console : session.console.IsRestyled bytes other.console

variable {bytes : List UInt8} {session other : Session}

theorem IsRestyled.bind (h : session.IsRestyled bytes other) (name : String) (value : Bool) :
    (session.bind name value).IsRestyled bytes (other.bind name value) :=
  ⟨congrArg (·.insert name value) h.bindings, h.notMode, h.console⟩

theorem IsRestyled.atConsole (h : session.IsRestyled bytes other) {console console' : Console}
    (hc : console.IsRestyled bytes console') :
    (session.atConsole console).IsRestyled bytes (other.atConsole console') :=
  ⟨h.bindings, h.notMode, hc⟩

/-- A run with the one input is a run with the other one, with the same events. -/
theorem Runs.restyled {α : Type} {action : Action α} {events : List Event}
    {result : EStateM.Result EvalError Session α} (h : Runs action session events result)
    (hs : session.IsRestyled bytes other) :
    ∃ result', Runs action other events result' ∧ SameEnd (IsRestyled bytes) result result' := by
  induction h generalizing other with
  | finish value => exact ⟨_, .finish value other, .ok hs⟩
  | fault defect => exact ⟨_, .fault defect other, .error hs⟩
  | known hb _ ih =>
    obtain ⟨result', hr, he⟩ := ih hs
    exact ⟨result', .known (hs.bindings ▸ hb) hr, he⟩
  | @asked name _ _ _ _ _ _ hb ha _ ih =>
    have hask := hs.console.ask name
    rw [ha] at hask
    obtain ⟨console', ha', hc⟩ := hask.of_ok
    obtain ⟨result', hr, he⟩ := ih ((hs.atConsole hc).bind name _)
    exact ⟨result', .asked (hs.bindings ▸ hb) ha' hr, he⟩
  | @askFailed name _ _ _ _ hb ha =>
    have hask := hs.console.ask name
    rw [ha] at hask
    obtain ⟨console', ha', hc⟩ := hask.of_error
    exact ⟨_, .askFailed (hs.bindings ▸ hb) ha', .error (hs.atConsole hc)⟩
  | stored _ ih =>
    obtain ⟨result', hr, he⟩ := ih (hs.bind _ _)
    exact ⟨result', .stored hr, he⟩
  | @shown value _ _ _ _ _ hp _ ih =>
    have hwrite := hs.console.write (Console.valueLine value)
    rw [show Console.write (Console.valueLine value) _ = _ from hp] at hwrite
    obtain ⟨console', hp', hc⟩ := hwrite.of_ok
    obtain ⟨result', hr, he⟩ := ih (hs.atConsole hc)
    exact ⟨result', .shown hp' hr, he⟩
  | @showFailed value _ _ _ _ hp =>
    have hwrite := hs.console.write (Console.valueLine value)
    rw [show Console.write (Console.valueLine value) _ = _ from hp] at hwrite
    obtain ⟨console', hp', hc⟩ := hwrite.of_error
    exact ⟨_, .showFailed hp', .error (hs.atConsole hc)⟩

theorem IsRestyled.evalAll (h : session.IsRestyled bytes other) (trees : List Expr) :
    SameEnd (IsRestyled bytes) (evalAll trees session) (evalAll trees other) := by
  have hrun := runs_evalAll trees session
  obtain ⟨result', hr, he⟩ := hrun.restyled h
  rw [evalAll_eq trees other, h.notMode, hr.run_eq]
  exact he

theorem IsRestyled.runScript (h : session.IsRestyled bytes other) (rule : Rule) (source : String) :
    SameEnd (IsRestyled bytes) (runScript rule source session) (runScript rule source other) := by
  cases hp : rule.parse source with
  | error error =>
    rw [runScript_of_parse_eq_error hp, runScript_of_parse_eq_error hp]
    exact .error h
  | ok trees =>
    have he := h.evalAll trees
    cases ht : Session.evalAll trees session with
    | ok value after =>
      rw [ht] at he
      obtain ⟨after', ht', ha⟩ := he.of_ok
      rw [runScript_of_ok hp ht, runScript_of_ok hp ht']
      exact .ok ha
    | error error after =>
      rw [ht] at he
      obtain ⟨after', ht', ha⟩ := he.of_error
      rw [runScript_of_error hp ht, runScript_of_error hp ht']
      exact .error ha

/-! ## Steps -/

/-- Any step has the same outcome in both sessions. -/
theorem IsRestyled.perform (h : session.IsRestyled bytes other) (step : Step) :
    (other.perform step).1 = (session.perform step).1 ∧
      (session.perform step).2.IsRestyled bytes (other.perform step).2 := by
  cases step with
  | script rule source =>
    have he := h.runScript rule source
    rw [Session.perform, Session.perform]
    generalize Session.runScript rule source session = result,
      Session.runScript rule source other = result' at he ⊢
    cases he with
    | ok ha | error ha => exact ⟨rfl, ha⟩
  | eval tree => exact perform_eval_of_sameEnd (h.evalAll [tree])
  | evalAll trees =>
    have he := h.evalAll trees
    rw [Session.perform, Session.perform]
    generalize Session.evalAll trees session = result,
      Session.evalAll trees other = result' at he ⊢
    cases he with
    | ok ha | error ha => exact ⟨rfl, ha⟩
  | setNotMode mode => exact ⟨rfl, h.bindings, rfl, h.console⟩
  | insert name value =>
    have hprevious := congrArg (·.get? name) h.bindings
    exact ⟨congrArg Outcome.previous hprevious, h.bind name value⟩
  | erase name =>
    have hprevious := congrArg (·.get? name) h.bindings
    exact ⟨congrArg Outcome.previous hprevious, congrArg (·.erase name) h.bindings, h.notMode,
      h.console⟩

/-- Reports of the same step with either input. The positions are those of the same byte. -/
structure IsSameReport (bytes : List UInt8) (report other : Report) : Prop where
  outcome : other.outcome = report.outcome
  written : other.written = report.written
  bindings : other.bindings = report.bindings
  consumed : report.consumed ≤ bytes.length ∧
    other.consumed ≤ (Text.withReturns bytes).length ∧
    (Text.withReturns bytes).take other.consumed = Text.withReturns (bytes.take report.consumed)

theorem IsRestyled.step (h : session.IsRestyled bytes other) (step : Step) :
    IsSameReport bytes (session.step step).1 (other.step step).1 ∧
      (session.step step).2.IsRestyled bytes (other.step step).2 := by
  obtain ⟨ho, ha⟩ := h.perform step
  refine ⟨⟨ho, ?_, ha.bindings, ha.console.input.take_consumed⟩, ha⟩
  unfold Session.step
  dsimp only
  rw [ha.console.output, h.console.output]

theorem IsRestyled.steps (h : session.IsRestyled bytes other) (steps : List Step) :
    List.Forall₂ (IsSameReport bytes) (session.steps steps) (other.steps steps) := by
  induction steps generalizing session other with
  | nil => exact .nil
  | cons step rest ih =>
    obtain ⟨hreport, ha⟩ := h.step step
    exact .cons hreport (ih ha)

/-- Any steps of a session, with any bytes to read, have the same outcomes, write the same bytes and
leave the same variables if every line feed to read has a carriage return before it. After each step
what has been read of the input is the same, with carriage returns before its line feeds. -/
theorem steps_withReturns (bindings : Bindings) (mode : NotMode) (output : Output)
    (bytes : List UInt8) (fails : Bool) (steps : List Step) :
    List.Forall₂ (IsSameReport bytes)
      (Session.steps ⟨bindings, mode, ⟨⟨bytes, 0, fails⟩, output⟩⟩ steps)
      (Session.steps ⟨bindings, mode, ⟨⟨Text.withReturns bytes, 0, fails⟩, output⟩⟩ steps) := by
  have hconsole : Console.IsRestyled bytes ⟨⟨bytes, 0, fails⟩, output⟩
      ⟨⟨Text.withReturns bytes, 0, fails⟩, output⟩ := ⟨rfl, Input.isRestyled_start bytes fails⟩
  have hsession : IsRestyled bytes ⟨bindings, mode, ⟨⟨bytes, 0, fails⟩, output⟩⟩
      ⟨bindings, mode, ⟨⟨Text.withReturns bytes, 0, fails⟩, output⟩⟩ := ⟨rfl, rfl, hconsole⟩
  exact hsession.steps steps

end Session

end BoolScript
