import BoolScript.Proofs.Advance
import BoolScript.Proofs.UpFront

/-!
# A full output only truncates

An output with a limit takes the first bytes of what is written, up to the limit, and then refuses.
A run whose output becomes full is therefore a run with an output without a limit, cut off in the
middle: `Session.evalAll_of_limited_output` says what is left of it. Nothing is asked, read or stored
behind the cut, and a prompt that is not written completely is not answered.

## Shape of the proof

Two sessions run side by side that differ in the room of their outputs alone. As long as the limit
has not been reached they do the same (`Session.Truncates.ok`, `Session.Truncates.error`); when the
limited one fails, the other one goes on, but it only advances, so what the limited one has kept
stays the beginning of it (`Session.IsTruncated.advances`). Each task is like that, and sequences
of tasks are (`Session.IsTruncating.bind`).
-/

namespace BoolScript

namespace Session

/-- The session with an output that has this much room. -/
def withRoom (room : Option Nat) (session : Session) : Session :=
  { session with console.output.room := room }

/-- The session with an output that takes this many bytes in all. -/
def limited (limit : Nat) (session : Session) : Session :=
  session.withRoom (some (limit - session.console.output.written.size))

/-- The output has no limit, and not more has been written than this. -/
structure IsWithin (limit : Nat) (session : Session) : Prop where
  room : session.console.output.room = none
  size : session.console.output.written.size ≤ limit

/-- What an output that takes this many bytes leaves of a session. -/
structure IsTruncated (limit : Nat) (whole cut : Session) : Prop where
  size : limit < whole.console.output.written.size
  written : cut.console.output.written.toList = whole.console.output.written.toList.take limit
  read : ∃ bytes, cut.console.input.pending = bytes ++ whole.console.input.pending ∧
    whole.console.input.consumed = cut.console.input.consumed + bytes.length
  bound : ∀ name, (cut.bindings.get? name).isSome → (whole.bindings.get? name).isSome

/-- Whatever is done without the limit afterwards comes too late. -/
theorem IsTruncated.advances {limit : Nat} {whole cut after : Session}
    (h : IsTruncated limit whole cut) (ha : whole.Advances after) : IsTruncated limit after cut := by
  obtain ⟨more, hw⟩ := ha.written
  obtain ⟨bytes, hp, hc⟩ := h.read
  obtain ⟨others, hp', hc'⟩ := ha.read
  have hsize : limit < whole.console.output.written.toList.length := by simpa using h.size
  refine ⟨?_, ?_, ⟨bytes ++ others, ?_, ?_⟩, fun name hn => ha.bound name (h.bound name hn)⟩
  · rw [← Array.length_toList, ← hw, List.length_append]
    omega
  · rw [h.written, ← hw, List.take_append_of_le_length (Nat.le_of_lt hsize)]
  · rw [hp, hp', List.append_assoc]
  · rw [hc', hc, List.length_append, Nat.add_assoc]

/-! ## Two runs side by side -/

/-- The results of a task without a limit and with one. -/
inductive Truncates {α : Type} (limit : Nat) : EStateM.Result EvalError Session α →
    EStateM.Result EvalError Session α → Prop where
  | ok {value : α} {whole : Session} (h : whole.IsWithin limit) :
    Truncates limit (.ok value whole) (.ok value (whole.limited limit))
  | error {error : EvalError} {whole : Session} (h : whole.IsWithin limit) :
    Truncates limit (.error error whole) (.error error (whole.limited limit))
  /-- The output is full, and what comes of the task without a limit does not matter. -/
  | full {result : EStateM.Result EvalError Session α} {cut : Session}
    (h : IsTruncated limit (stateAfter result) cut) :
    Truncates limit result (.error (.console .outputFull) cut)

/-- The task takes nothing back, and it does the same with a limited output until that is full. -/
structure IsTruncating {α : Type} (limit : Nat) (task : SessionM α) : Prop where
  advances : Moves Advances task
  truncates : ∀ session, session.IsWithin limit →
    Truncates limit (task session) (task (session.limited limit))

section

variable {α β : Type} {limit : Nat}

theorem IsTruncating.pure (value : α) : IsTruncating limit (pure value : SessionM α) :=
  ⟨.pure .refl value, fun _ h => .ok h⟩

theorem IsTruncating.throw (error : EvalError) : IsTruncating limit (throw error : SessionM α) :=
  ⟨.throw .refl error, fun _ h => .error h⟩

theorem IsTruncating.bind {task : SessionM α} {next : α → SessionM β} (h : IsTruncating limit task)
    (hn : ∀ value, IsTruncating limit (next value)) : IsTruncating limit (task >>= next) := by
  refine ⟨h.advances.bind .trans fun value => (hn value).advances, fun session hs => ?_⟩
  have ht := h.truncates session hs
  generalize hw : task session = whole, hc : task (session.limited limit) = cut at ht
  cases ht with
  | ok hwithin =>
    rw [bind_of_ok hw, bind_of_ok hc]
    exact (hn _).truncates _ hwithin
  | error hwithin =>
    rw [bind_of_error hw, bind_of_error hc]
    exact .error hwithin
  | full hcut =>
    rw [bind_of_error hc]
    cases whole with
    | ok value middle =>
      rw [bind_of_ok hw]
      exact .full (hcut.advances ((hn value).advances middle))
    | error error after =>
      rw [bind_of_error hw]
      exact .full hcut

/-! ### Single tasks -/

theorem isTruncating_write (text : String) :
    IsTruncating limit (onConsole (Console.write text)) := by
  refine ⟨isKept_advances.write text, ?_⟩
  rintro ⟨bindings, notMode, input, written, room, flushFails⟩ ⟨hroom, hsize⟩
  obtain rfl : room = none := hroom
  have hsize : written.size ≤ limit := hsize
  have hlength : (written ++ Text.encode text).size = written.size + (Text.encode text).length := by
    rw [← Array.length_toList, Array.toList_appendList, List.length_append, Array.length_toList]
  simp only [onConsole, Console.write, limited, withRoom, Output.write]
  by_cases hfits : (Text.encode text).length ≤ limit - written.size
  · -- The text is written completely, and uses this much of the room up.
    have hroom : limit - written.size - (Text.encode text).length =
        limit - (written ++ Text.encode text).size := by omega
    rw [List.take_of_length_le hfits, hroom]
    simp only [hfits, decide_true, if_true]
    exact .ok ⟨rfl, show (written ++ Text.encode text).size ≤ limit by omega⟩
  · simp only [hfits, decide_false, if_true, Bool.false_eq_true, if_false]
    refine .full ⟨show limit < (written ++ Text.encode text).size by omega, ?_, ⟨[], rfl, rfl⟩,
      fun _ => id⟩
    have hall : written.toList.take limit = written.toList :=
      List.take_of_length_le (by simpa using hsize)
    simp [stateAfter, List.take_append, hall]

theorem isTruncating_flush : IsTruncating limit (onConsole Console.flush) := by
  refine ⟨isKept_advances.flush, fun session hs => ?_⟩
  rw [onConsole, onConsole, Console.flush, Console.flush]
  by_cases hf : session.console.output.flushFails = true
  · simpa [limited, withRoom, hf] using Truncates.error hs
  · simpa [limited, withRoom, hf] using Truncates.ok hs

theorem isTruncating_readLine : IsTruncating limit (onConsole Console.readLine) := by
  refine ⟨isKept_advances.readLine, fun session hs => ?_⟩
  have hinput : (session.limited limit).console.input = session.console.input := rfl
  rw [onConsole, onConsole, Console.readLine, Console.readLine, hinput]
  generalize session.console.input.readLine = result
  obtain ⟨line | line, input⟩ := result
  · exact .error ⟨hs.room, hs.size⟩
  · exact .ok ⟨hs.room, hs.size⟩

theorem isTruncating_store (name : String) (value : Bool) :
    IsTruncating limit (store name value) :=
  ⟨isKept_advances.store name value, fun _ hs => .ok ⟨hs.room, hs.size⟩⟩

/-! ### Runs -/

theorem isInherited_isTruncating : IsInherited (IsTruncating limit) where
  pure := .pure
  throw := .throw
  bind := .bind
  look := fun hn => ⟨fun session => (hn session.bindings).advances session,
    fun session hs => (hn session.bindings).truncates session hs⟩
  write := isTruncating_write
  flush := isTruncating_flush
  readLine := isTruncating_readLine
  store := isTruncating_store

/-- A run does the same with a limited output until that is full. -/
theorem isTruncating_run (action : Action α) : IsTruncating limit (run action) :=
  isInherited_isTruncating.run action

end

end Session

/-! ## Where a limited run stops -/

namespace Console

/-- A text that is not written completely is written up to some byte, and nothing is read. -/
theorem exists_taken_of_write_eq_error {text : String} {console after : Console}
    {error : ConsoleError} (h : write text console = .error error after) :
    after.input = console.input ∧ ∃ count < (Text.encode text).length,
      after.output.written.toList =
        console.output.written.toList ++ (Text.encode text).take count := by
  obtain ⟨input, written, room, flushFails⟩ := console
  cases room with
  | none => cases h
  | some room =>
    by_cases hfits : (Text.encode text).length ≤ room
    · rw [write_of_complete (by simpa [Output.write] using hfits)] at h
      cases h
    · simp only [write, Output.write, hfits, decide_false, Bool.false_eq_true, if_false] at h
      cases h
      exact ⟨rfl, room, Nat.lt_of_not_le hfits, by simp⟩

/-- If a question fails because the output is full, its prompt was not written completely. -/
theorem write_of_ask_eq_outputFull {name : String} {console after : Console}
    (h : ask name console = .error .outputFull after) :
    write (prompt name) console = .error .outputFull after := by
  rcases bind_eq_error_iff.1 h with h | ⟨_, _, -, h⟩
  · exact h
  · -- All other tasks fail with errors of their own.
    exfalso
    rcases bind_eq_error_iff.1 h with h | ⟨_, _, -, h⟩
    · obtain ⟨-, he, -⟩ := flush_eq_error_iff.1 h
      revert he
      decide
    · rcases bind_eq_error_iff.1 h with h | ⟨line, _, -, h⟩
      · rcases Input.eq_of_readLine_eq_error (readLine_eq_error_iff.1 h).1 with he | he <;>
          · revert he
            decide
      · cases line <;> cases h

end Console

namespace Session

/-- Where a run fails at the console: all its events go well, and then a question about a name
without a value fails, or a value cannot be shown. -/
inductive StopsAt (session : Session) (events : List Event) (error : ConsoleError)
    (after : Session) : Prop where
  | question {console : Console} {name : String}
    (exchange : Console.Exchange session.console events console)
    (failure : Console.ask name console = .error error after.console)
    (unbound : after.bindings.get? name = none)
  | value {console : Console} {value : Bool}
    (exchange : Console.Exchange session.console events console)
    (failure : Console.print value console = .error error after.console)

theorem Runs.stopsAt {α : Type} {action : Action α} {session : Session} {events : List Event}
    {result : EStateM.Result EvalError Session α} (h : Runs action session events result)
    {error : ConsoleError} {after : Session} (hr : result = .error (.console error) after) :
    StopsAt session events error after := by
  induction h with
  | finish | fault => cases hr
  | known _ _ ih => exact ih hr
  | asked _ ha _ ih =>
    cases ih hr with
    | question hx he hn => exact .question (.asked ha hx) he hn
    | value hx he => exact .value (.asked ha hx) he
  | askFailed h ha =>
    cases hr
    exact .question (.nil _) ha h
  | stored _ ih =>
    cases ih hr with
    | question hx he hn => exact .question hx he hn
    | value hx he => exact .value hx he
  | shown hp _ ih =>
    cases ih hr with
    | question hx he hn => exact .question (.shown hp hx) he hn
    | value hx he => exact .value (.shown hp hx) he
  | showFailed hp =>
    cases hr
    exact .value (.nil _) hp

/-- What is left of an evaluation whose output is cut off behind these bytes, beside what would have
come of it. -/
structure IsCutOff (session : Session) (events : List Event) (bytes : List UInt8)
    (whole after : Session) : Prop where
  /-- Exactly these bytes are written. -/
  written : after.console.output.written.toList = session.console.output.written.toList ++ bytes
  /-- What is read would have been read anyway. -/
  read : ∃ more, after.console.input.pending = more ++ whole.console.input.pending ∧
    whole.console.input.consumed = after.console.input.consumed + more.length
  /-- The names that have values would have had values anyway. -/
  bound : ∀ name, (after.bindings.get? name).isSome → (whole.bindings.get? name).isSome
  /-- The lines that are read are the answers to the questions asked before the cut. -/
  answered : ∃ texts : List String, session.console.input.Takes texts after.console.input ∧
    texts.map Console.answer = (Event.questions events).map Prod.snd
  /-- Behind the lines of these events, which are complete, stands the beginning of one more line.
  If this is a prompt, its name has no value. -/
  interrupted : ∃ (line : String) (count : Nat), count < (Text.encode line).length ∧
    bytes = Event.bytes events ++ (Text.encode line).take count ∧
    ((∃ name, line = Console.prompt name ∧ after.bindings.get? name = none) ∨
      ∃ value, line = Console.valueLine value)

/-- A run that fails because its output is full has written the lines of its events and part of
another one. -/
theorem StopsAt.isCutOff {session whole after : Session} {events : List Event} {limit : Nat}
    {bytes : List UInt8} (h : StopsAt session events .outputFull after)
    (ht : IsTruncated limit whole after)
    (hw : after.console.output.written.toList = session.console.output.written.toList ++ bytes) :
    IsCutOff session events bytes whole after := by
  -- A question and a value alike fail in the middle of a line.
  obtain ⟨console, line, hx, hfail, hline⟩ : ∃ console line,
      Console.Exchange session.console events console ∧
      Console.write line console = .error .outputFull after.console ∧
      ((∃ name, line = Console.prompt name ∧ after.bindings.get? name = none) ∨
        ∃ value, line = Console.valueLine value) := by
    cases h with
    | question hx he hn =>
      exact ⟨_, _, hx, Console.write_of_ask_eq_outputFull he, .inl ⟨_, rfl, hn⟩⟩
    | value hx he => exact ⟨_, _, hx, he, .inr ⟨_, rfl⟩⟩
  obtain ⟨hinput, count, hcount, hwritten⟩ := Console.exists_taken_of_write_eq_error hfail
  have hbytes : bytes = Event.bytes events ++ (Text.encode line).take count := by
    rw [hw, hx.written, List.append_assoc] at hwritten
    exact List.append_cancel_left hwritten
  obtain ⟨texts, htakes, hanswers⟩ := hx.takes
  exact ⟨hw, ht.read, ht.bound, ⟨texts, hinput ▸ htakes, hanswers⟩,
    ⟨line, count, hcount, hbytes, hline⟩⟩

/-- A full output only truncates. Let the same trees be evaluated in the same session, once with an
output that is never full and once with one that takes `room` more bytes. If the first evaluation
writes no more than that, the second one is the same. Otherwise the second one fails because its
output is full, and it is the first one cut off behind the byte where the room ends: a prompt that
is cut off takes no line of the input and gives its name no value. -/
theorem evalAll_of_limited_output (trees : List Expr) (session : Session) (room : Nat) :
    let whole := evalAll trees (session.withRoom none)
    let cut := evalAll trees (session.withRoom (some room))
    ∃ bytes : List UInt8, (stateAfter whole).console.output.written.toList =
        session.console.output.written.toList ++ bytes ∧
      (bytes.length ≤ room → cut = mapState (withRoom (some (room - bytes.length))) whole) ∧
      (room < bytes.length → ∃ after, cut = .error (.console .outputFull) after ∧
        IsCutOff session (transcript trees (session.withRoom (some room))) (bytes.take room)
          (stateAfter whole) after) := by
  intro whole cut
  let limit := session.console.output.written.size + room
  have hstart : (session.withRoom none).IsWithin limit := ⟨rfl, Nat.le_add_right _ _⟩
  have hlimited : (session.withRoom none).limited limit = session.withRoom (some room) := by
    simp [limited, withRoom, limit]
  have ht := (isTruncating_run (Expr.evalAll session.notMode trees)).truncates _ hstart
  have hadvances := isKept_advances.run (Expr.evalAll session.notMode trees) (session.withRoom none)
  have hwhole : run (Expr.evalAll session.notMode trees) (session.withRoom none) = whole :=
    (evalAll_eq trees (session.withRoom none)).symm
  have hcut : run (Expr.evalAll session.notMode trees) (session.withRoom (some room)) = cut :=
    (evalAll_eq trees (session.withRoom (some room))).symm
  have hruns : Runs _ (session.withRoom (some room)) _ cut := runs_evalAll trees _
  rw [hlimited, hwhole, hcut] at ht
  rw [hwhole] at hadvances
  obtain ⟨bytes, hbytes⟩ := hadvances.written
  have hsize : (stateAfter whole).console.output.written.size =
      session.console.output.written.size + bytes.length := by
    rw [← Array.length_toList, ← hbytes, List.length_append]
    rfl
  clear_value whole cut
  refine ⟨bytes, hbytes.symm, fun hle => ?_, fun hlt => ?_⟩
  · have hroom : limit - (stateAfter whole).console.output.written.size = room - bytes.length := by
      omega
    cases ht with
    | ok _ | error _ => rw [mapState, ← hroom]; rfl
    | full h => exact absurd h.size (by omega)
  · cases ht with
    | ok h | error h =>
      have := h.size
      simp only [stateAfter] at hsize
      omega
    | @full _ after h =>
      have hwritten : after.console.output.written.toList =
          session.console.output.written.toList ++ bytes.take room := by
        have htake : session.console.output.written.toList.take limit =
            session.console.output.written.toList :=
          List.take_of_length_le (by simp [limit])
        rw [h.written, ← hbytes, List.take_append, Array.length_toList]
        simp only [withRoom, htake, limit, Nat.add_sub_cancel_left]
      have hc := (hruns.stopsAt rfl).isCutOff h hwritten
      exact ⟨after, rfl, hc.written, hc.read, hc.bound, hc.answered, hc.interrupted⟩

end Session

end BoolScript
