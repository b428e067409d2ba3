import BoolScript.Console.Basic
import BoolScript.Proofs.Lines
import BoolScript.Proofs.Stateful

/-!
# Exchanges with the user

What passes between a script and its user is a list of events: questions with their answers, and
values that are shown. `Console.Exchange` relates the console before and after some events that all
went well. It is the only thing about a console that the rest of the theory needs: what the events
write (`Exchange.written`), which lines they take (`Exchange.takes`), and how a question behind them
can fail (`Exchange.of_ask_eq_error`).
-/

namespace BoolScript

/-- The bytes of the prompts for some names. -/
def Console.promptBytes (names : List String) : List UInt8 :=
  names.flatMap fun name => Text.encode (prompt name)

theorem Console.promptBytes_singleton (name : String) :
    promptBytes [name] = Text.encode (prompt name) := by
  simp [promptBytes]

/-- Something that passes between a script and its user. -/
inductive Event where
  /-- The value of a name was asked for, and this was the answer. -/
  | asked (name : String) (answer : Bool)
  /-- A value was shown. -/
  | shown (value : Bool)
  deriving DecidableEq, Repr

namespace Event

/-- The line that an event writes. -/
def line : Event → String
  | asked name _ => Console.prompt name
  | shown value => Console.valueLine value

/-- The question of an event, if it is one, with its answer. -/
def question? : Event → Option (String × Bool)
  | asked name answer => some (name, answer)
  | shown _ => none

/-- The bytes that some events write. -/
def bytes (events : List Event) : List UInt8 :=
  events.flatMap fun event => Text.encode event.line

/-- The questions among some events, with their answers. -/
def questions (events : List Event) : List (String × Bool) :=
  events.filterMap question?

/-- The events that only show something. -/
def showings (events : List Event) : List Event :=
  events.filter fun event => event.question?.isNone

@[simp] theorem bytes_nil : bytes [] = [] := rfl

@[simp] theorem bytes_cons (event : Event) (events : List Event) :
    bytes (event :: events) = Text.encode event.line ++ bytes events := rfl

@[simp] theorem questions_nil : questions [] = [] := rfl

@[simp] theorem questions_asked (name : String) (answer : Bool) (events : List Event) :
    questions (asked name answer :: events) = (name, answer) :: questions events := rfl

@[simp] theorem questions_shown (value : Bool) (events : List Event) :
    questions (shown value :: events) = questions events := rfl

@[simp] theorem showings_nil : showings [] = [] := rfl

@[simp] theorem showings_asked (name : String) (answer : Bool) (events : List Event) :
    showings (asked name answer :: events) = showings events := rfl

@[simp] theorem showings_shown (value : Bool) (events : List Event) :
    showings (shown value :: events) = shown value :: showings events := rfl

end Event

namespace Output

/-- Output that takes this many more bytes, and whose flushing works. -/
structure HasRoom (output : Output) (size : Nat) : Prop where
  room : ∀ room, output.room = some room → size ≤ room
  flush : output.flushFails = false

/-- Output without a limit takes any number of bytes. -/
theorem HasRoom.of_room_eq_none {output : Output} (hr : output.room = none)
    (hf : output.flushFails = false) (size : Nat) : output.HasRoom size := by
  refine ⟨?_, hf⟩
  intro room h
  rw [hr] at h
  cases h

/-- What is written completely is all there. -/
theorem written_of_complete {output : Output} {bytes : List UInt8}
    (h : (output.write bytes).1 = true) :
    (output.write bytes).2.written.toList = output.written.toList ++ bytes := by
  rw [toList_written_write]
  cases hr : output.room with
  | none => simp
  | some room =>
    have := write_fst_iff.1 h room hr
    rw [Option.getD_some, List.take_of_length_le this]

theorem flushFails_write (output : Output) (bytes : List UInt8) :
    (output.write bytes).2.flushFails = output.flushFails := by
  unfold write
  split <;> rfl

theorem HasRoom.write_fst {output : Output} {size : Nat} {bytes : List UInt8}
    (h : output.HasRoom size) (hb : bytes.length ≤ size) : (output.write bytes).1 = true := by
  rw [write_fst_iff]
  intro room hr
  exact Nat.le_trans hb (h.room room hr)

/-- Writing uses the room up. -/
theorem HasRoom.write_snd {output : Output} {size : Nat} (h : output.HasRoom size)
    (bytes : List UInt8) : (output.write bytes).2.HasRoom (size - bytes.length) := by
  refine ⟨?_, (flushFails_write output bytes).trans h.flush⟩
  intro left hl
  cases hr : output.room with
  | none =>
    rw [write_of_room_eq_none hr] at hl
    rw [hr] at hl
    cases hl
  | some room =>
    have hsize := h.room room hr
    simp only [Output.write, hr, Option.some.injEq] at hl
    omega

end Output

namespace Console

/-! ## Single tasks -/

theorem write_of_complete {text : String} {console : Console}
    (h : (console.output.write (Text.encode text)).1 = true) :
    write text console =
      .ok () { console with output := (console.output.write (Text.encode text)).2 } := by
  simp [write, h]

theorem write_eq_ok_iff {text : String} {console after : Console} :
    write text console = .ok () after ↔ (console.output.write (Text.encode text)).1 = true ∧
      after = { console with output := (console.output.write (Text.encode text)).2 } := by
  by_cases h : (console.output.write (Text.encode text)).1 = true
  · rw [write_of_complete h]
    simp [h, eq_comm]
  · simp [write, h]

theorem flush_eq_ok_iff {console after : Console} :
    flush console = .ok () after ↔ console.output.flushFails = false ∧ after = console := by
  by_cases h : console.output.flushFails = true
  · simp [flush, h]
  · simp [flush, h, eq_comm]

theorem readLine_eq_ok_iff {line : Option String} {console after : Console} :
    readLine console = .ok line after ↔ console.input.readLine.1 = .ok line ∧
      after = { console with input := console.input.readLine.2 } := by
  unfold readLine
  split
  · next line' input h => simp [h, eq_comm]
  · next error input h => simp [h]

theorem flush_eq_error_iff {error : ConsoleError} {console after : Console} :
    flush console = .error error after ↔
      console.output.flushFails = true ∧ error = .flushFailed ∧ after = console := by
  by_cases h : console.output.flushFails = true
  · simp [flush, h, eq_comm]
  · simp [flush, h]

theorem readLine_eq_error_iff {error : ConsoleError} {console after : Console} :
    readLine console = .error error after ↔ console.input.readLine.1 = .error error ∧
      after = { console with input := console.input.readLine.2 } := by
  unfold readLine
  split
  · next line input h => simp [h]
  · next error' input h => simp [h, eq_comm]

/-! ## Questions -/

/-- The part of a question that reads. -/
def reply (name : String) : ConsoleM Bool := do
  match ← readLine with
  | some line => return answer line
  | none => throw (.inputClosed name)

/-- The next line settles the reply. -/
theorem reply_eq (name : String) (console : Console) :
    reply name console =
      match console.input.readLine.1 with
      | .ok (some line) => .ok (answer line) { console with input := console.input.readLine.2 }
      | .ok none => .error (.inputClosed name) { console with input := console.input.readLine.2 }
      | .error error => .error error { console with input := console.input.readLine.2 } := by
  cases hl : console.input.readLine.1 with
  | error error => rw [reply, bind_of_error (readLine_eq_error_iff.2 ⟨hl, rfl⟩)]
  | ok line =>
    rw [reply, bind_of_ok (readLine_eq_ok_iff.2 ⟨hl, rfl⟩)]
    cases line <;> rfl

/-- A question is answered if its prompt is written and flushed and a line is there, which is a
text. -/
theorem ask_eq_ok_iff {name : String} {value : Bool} {console after : Console} :
    ask name console = .ok value after ↔
      (console.output.write (Text.encode (prompt name))).1 = true ∧
      console.output.flushFails = false ∧
      ∃ text, console.input.readLine.1 = .ok (some text) ∧ answer text = value ∧
        after = ⟨console.input.readLine.2,
          (console.output.write (Text.encode (prompt name))).2⟩ := by
  constructor
  · intro h
    -- The three tasks have succeeded one after the other.
    obtain ⟨_, _, hw, h⟩ := bind_eq_ok_iff.1 h
    obtain ⟨hc, rfl⟩ := write_eq_ok_iff.1 hw
    obtain ⟨_, _, hflush, h⟩ := bind_eq_ok_iff.1 h
    obtain ⟨hf, rfl⟩ := flush_eq_ok_iff.1 hflush
    obtain ⟨line, _, hline, h⟩ := bind_eq_ok_iff.1 h
    obtain ⟨hr, rfl⟩ := readLine_eq_ok_iff.1 hline
    have hf' : console.output.flushFails = false := (Output.flushFails_write _ _).symm.trans hf
    cases line with
    | none => cases h
    | some text =>
      obtain ⟨hv, rfl⟩ := pure_eq_ok_iff.1 h
      exact ⟨hc, hf', text, hr, hv, rfl⟩
  · rintro ⟨hc, hf, text, hr, rfl, rfl⟩
    let written : Console :=
      { console with output := (console.output.write (Text.encode (prompt name))).2 }
    have hf' : written.output.flushFails = false := (Output.flushFails_write _ _).trans hf
    have hflush : flush written = .ok () written := flush_eq_ok_iff.2 ⟨hf', rfl⟩
    have hline : readLine written =
        .ok (some text) { written with input := console.input.readLine.2 } :=
      readLine_eq_ok_iff.2 ⟨hr, rfl⟩
    rw [ask, bind_of_ok (write_of_complete hc), bind_of_ok hflush, bind_of_ok hline]
    rfl

/-- Some events take one console to another, and all of them go well. -/
inductive Exchange : Console → List Event → Console → Prop where
  | nil (console : Console) : Exchange console [] console
  | asked {console middle after : Console} {name : String} {value : Bool} {events : List Event}
    (h : ask name console = .ok value middle) (rest : Exchange middle events after) :
    Exchange console (.asked name value :: events) after
  | shown {console middle after : Console} {value : Bool} {events : List Event}
    (h : print value console = .ok () middle) (rest : Exchange middle events after) :
    Exchange console (.shown value :: events) after

namespace Exchange

variable {console after : Console} {events : List Event}

/-- Each event writes its line. -/
theorem written (h : Exchange console events after) :
    after.output.written.toList = console.output.written.toList ++ Event.bytes events := by
  induction h with
  | nil => simp
  | asked h _ ih =>
    obtain ⟨hc, -, _, -, -, rfl⟩ := ask_eq_ok_iff.1 h
    rw [ih, Output.written_of_complete hc, Event.bytes_cons, List.append_assoc]
    rfl
  | shown h _ ih =>
    obtain ⟨hc, rfl⟩ := write_eq_ok_iff.1 h
    rw [ih, Output.written_of_complete hc, Event.bytes_cons, List.append_assoc]
    rfl

/-- The questions take the first lines of the input, one line each, and these are texts that say
what the answers are. -/
theorem takes (h : Exchange console events after) :
    ∃ texts : List String, console.input.Takes texts after.input ∧
      texts.map answer = (Event.questions events).map Prod.snd := by
  induction h with
  | nil console => exact ⟨[], .nil console.input, rfl⟩
  | asked h _ ih =>
    obtain ⟨-, -, text, hr, rfl, rfl⟩ := ask_eq_ok_iff.1 h
    obtain ⟨texts, ht, ha⟩ := ih
    refine ⟨text :: texts, .cons hr ht, ?_⟩
    rw [Event.questions_asked, List.map_cons, List.map_cons, ha]
  | shown h _ ih =>
    obtain ⟨-, rfl⟩ := write_eq_ok_iff.1 h
    exact ih

end Exchange

end Console

end BoolScript
