import BoolScript.Proofs.Advance

/-!
# What is done in a session, deed by deed

`Session.Runs` tells what passes between a session and its user, and leaves out a question that
fails. Here nothing is left out: a text that is written, with the bytes that the output took of it,
a flush, a line that is read and a value that a name is given are deeds of their own, and
`Session.Does` says which deeds a computation does, in their order, whether it fails or not.

## Shape of the account

Deeds account for everything that becomes of a session (`Session.Does.made`): the output is what the
texts left there, the lines that are gone from the input are those that were taken, and the values
of the names are those of the last deeds that gave them values.
-/

namespace BoolScript

/-- Something that is done in a session. -/
inductive Deed where
  /-- A text was written, of which the output took these bytes. -/
  | wrote (text : String) (taken : List UInt8)
  /-- What had been written was flushed. -/
  | flushed
  /-- This line was taken off the input; it is empty where the input was at its end. -/
  | took (line : List UInt8)
  /-- A name was given a value. -/
  | bound (name : String) (value : Bool)
  deriving DecidableEq, Repr

namespace Deed

/-- The bytes that the output took. -/
def bytes : Deed → List UInt8
  | wrote _ taken => taken
  | flushed | took _ | bound _ _ => []

/-- The line that was read, if there was one. -/
def line? : Deed → Option (List UInt8)
  | took [] => none
  | took line => some line
  | wrote _ _ | flushed | bound _ _ => none

theorem line?_took {line : List UInt8} (h : line ≠ []) : (took line).line? = some line := by
  cases line with
  | nil => exact absurd rfl h
  | cons byte bytes => rfl

/-- The deeds of asking for the value of a name, as far as to the line that is waited for. -/
def asking (name : String) : List Deed :=
  [wrote (Console.prompt name) (Text.encode (Console.prompt name)), flushed]

theorem asking_append (name : String) (deeds : List Deed) :
    asking name ++ deeds =
      [wrote (Console.prompt name) (Text.encode (Console.prompt name))] ++ ([flushed] ++ deeds) :=
  rfl

end Deed

namespace Bindings

/-- The bindings after a deed. -/
def following (bindings : Bindings) : Deed → Bindings
  | .bound name value => bindings.insert name value
  | .wrote _ _ | .flushed | .took _ => bindings

/-- The bindings after some deeds. -/
def replay (bindings : Bindings) (deeds : List Deed) : Bindings :=
  deeds.foldl following bindings

theorem replay_append (bindings : Bindings) (deeds more : List Deed) :
    bindings.replay (deeds ++ more) = (bindings.replay deeds).replay more :=
  List.foldl_append

/-- A name that has a value keeps one. -/
theorem isSome_get?_replay {bindings : Bindings} {name : String}
    (h : (bindings.get? name).isSome) (deeds : List Deed) :
    ((bindings.replay deeds).get? name).isSome := by
  induction deeds generalizing bindings with
  | nil => exact h
  | cons deed deeds ih =>
    apply ih
    cases deed with
    | wrote | flushed | took => exact h
    | bound other value => exact isSome_get?_insert h other value

end Bindings

namespace Console

/-- A prompt tells which name it is for. -/
theorem prompt_injective {name other : String} (h : prompt name = prompt other) : name = other := by
  unfold prompt at h
  have hchars := congrArg String.toList h
  simp only [String.toList_append] at hchars
  exact String.toList_inj.1 (List.append_cancel_left (List.append_cancel_right hchars))

theorem head?_prompt (name : String) : (prompt name).toList.head? = some 'В' := by
  have hwords : "Введите значение ".toList = 'В' :: "ведите значение ".toList := by decide
  unfold prompt
  rw [String.toList_append, String.toList_append, hwords]
  rfl

/-- No value is shown by a prompt. -/
theorem valueLine_ne_prompt (value : Bool) (name : String) : valueLine value ≠ prompt name := by
  intro h
  have hhead : (valueLine value).toList.head? ≠ some 'В' := by cases value <;> decide
  exact hhead (h ▸ head?_prompt name)

end Console

namespace Session

/-! ## The deeds of a computation -/

/-- A computation has this result in a session, and does these deeds on the way to it. -/
inductive Does : {α : Type} → SessionM α → Session → List Deed →
    EStateM.Result EvalError Session α → Prop where
  | pure {α : Type} (value : α) (session : Session) :
    Does (pure value) session [] (.ok value session)
  | throw {α : Type} (error : EvalError) (session : Session) :
    Does (throw error : SessionM α) session [] (.error error session)
  | get (session : Session) : Does get session [] (.ok session session)
  /-- The output takes a text, or the beginning of it. -/
  | wrote {text : String} {session : Session} {taken : List UInt8}
    {result : EStateM.Result EvalError Session Unit}
    (h : onConsole (Console.write text) session = result)
    (ht : (stateAfter result).console.output.written.toList =
      session.console.output.written.toList ++ taken) :
    Does (onConsole (Console.write text)) session [.wrote text taken] result
  | flushed {session after : Session} (h : onConsole Console.flush session = .ok () after) :
    Does (onConsole Console.flush) session [.flushed] (.ok () after)
  /-- The output cannot be flushed. -/
  | notFlushed {session after : Session} {error : EvalError}
    (h : onConsole Console.flush session = .error error after) :
    Does (onConsole Console.flush) session [] (.error error after)
  /-- A line is gone from the input. -/
  | took {session : Session} {line : List UInt8}
    {result : EStateM.Result EvalError Session (Option String)}
    (h : onConsole Console.readLine session = result)
    (hl : session.console.input.pending = line ++ (stateAfter result).console.input.pending) :
    Does (onConsole Console.readLine) session [.took line] result
  | bound (name : String) (value : Bool) (session : Session) :
    Does (store name value) session [.bound name value] (.ok () (session.bind name value))
  | bind {α β : Type} {task : SessionM α} {next : α → SessionM β} {session middle : Session}
    {value : α} {deeds more : List Deed} {result : EStateM.Result EvalError Session β}
    (h : Does task session deeds (.ok value middle)) (rest : Does (next value) middle more result) :
    Does (task >>= next) session (deeds ++ more) result
  | bindError {α β : Type} {task : SessionM α} {next : α → SessionM β} {session after : Session}
    {error : EvalError} {deeds : List Deed} (h : Does task session deeds (.error error after)) :
    Does (task >>= next) session deeds (.error error after)

/-- The result is the one that the computation has, whatever its deeds are. -/
theorem Does.eq {α : Type} {task : SessionM α} {session : Session} {deeds : List Deed}
    {result : EStateM.Result EvalError Session α} (h : Does task session deeds result) :
    task session = result := by
  induction h with
  | pure | throw | get | bound => rfl
  | wrote h | flushed h | notFlushed h | took h => exact h
  | bind _ _ ih ihr => rw [bind_of_ok ih, ihr]
  | bindError _ ih => rw [bind_of_error ih]

/-- What some deeds have made of a session. -/
structure Made (before : Session) (deeds : List Deed) (after : Session) : Prop where
  written : after.console.output.written.toList =
    before.console.output.written.toList ++ deeds.flatMap Deed.bytes
  lines : Text.lines before.console.input.pending =
    deeds.filterMap Deed.line? ++ Text.lines after.console.input.pending
  bindings : after.bindings = before.bindings.replay deeds

namespace Made

theorem refl (session : Session) : session.Made [] session :=
  ⟨(List.append_nil _).symm, rfl, rfl⟩

theorem trans {first middle last : Session} {deeds more : List Deed} (h : first.Made deeds middle)
    (hl : middle.Made more last) : first.Made (deeds ++ more) last := by
  refine ⟨?_, ?_, ?_⟩
  · rw [hl.written, h.written, List.flatMap_append, List.append_assoc]
  · rw [h.lines, hl.lines, List.filterMap_append, List.append_assoc]
  · rw [hl.bindings, h.bindings, Bindings.replay_append]

theorem wrote {text : String} {taken : List UInt8} {session : Session}
    (h : (stateAfter (onConsole (Console.write text) session)).console.output.written.toList =
      session.console.output.written.toList ++ taken) :
    session.Made [.wrote text taken] (stateAfter (onConsole (Console.write text) session)) := by
  refine ⟨by simpa [Deed.bytes] using h, ?_, ?_⟩ <;> rw [stateAfter_write] <;> rfl

/-- The line that is gone is the first one. -/
theorem took {line : List UInt8} {session : Session}
    (h : session.console.input.pending =
      line ++ (stateAfter (onConsole Console.readLine session)).console.input.pending) :
    session.Made [.took line] (stateAfter (onConsole Console.readLine session)) := by
  rw [stateAfter_readLine] at h ⊢
  obtain rfl : (Text.splitLine session.console.input.pending).1 = line :=
    List.append_cancel_right ((Text.splitLine_append _).trans h)
  refine ⟨(List.append_nil _).symm, ?_, rfl⟩
  rw [console_atConsole, Input.lines_pending_readLine]
  by_cases hp : session.console.input.pending = []
  · rw [hp]
    rfl
  · have hline : (Text.splitLine session.console.input.pending).1 ≠ [] :=
      fun hl => hp (Text.splitLine_fst_eq_nil_iff.1 hl)
    rw [Text.lines_eq_cons hp, List.tail_cons, List.filterMap_cons_some (Deed.line?_took hline)]
    rfl

end Made

/-- The deeds account for everything that is written, read and stored. -/
theorem Does.made {α : Type} {task : SessionM α} {session : Session} {deeds : List Deed}
    {result : EStateM.Result EvalError Session α} (h : Does task session deeds result) :
    session.Made deeds (stateAfter result) := by
  induction h with
  | pure _ session | throw _ session | get session => exact .refl session
  | wrote h ht =>
    subst h
    exact .wrote ht
  | @flushed session _ h | @notFlushed session _ _ h =>
    rw [← h, stateAfter_flush]
    exact ⟨(List.append_nil _).symm, rfl, rfl⟩
  | took h hl =>
    subst h
    exact .took hl
  | bound name value session => exact ⟨(List.append_nil _).symm, rfl, rfl⟩
  | bind _ _ ih ihr => exact ih.trans ihr
  | bindError _ ih => exact ih

end Session

end BoolScript
