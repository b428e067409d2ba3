import BoolScript.Console.Input
import BoolScript.Console.Output
import BoolScript.Text.CaseFolding

/-!
# The console

A conversation with the user has two ends: bytes that wait to be read, and bytes that have been
written. Tasks for the console may fail at either end, and a failure undoes nothing.

## Shape of a question

`Console.ask` is the only task that reads. It writes a prompt of one line, flushes it, and only then
takes one line, whose answer is true for `true` in any letter case and false for anything else.
-/

namespace BoolScript

/-- Both ends of a conversation. -/
structure Console where
  input : Input
  output : Output
  deriving DecidableEq, Repr, Inhabited

/-- A task for a console; the console is there after a failure too. -/
abbrev ConsoleM (α : Type) := EStateM ConsoleError Console α

namespace Console

/-- How a truth value is written. -/
def truthWord : Bool → String
  | true => "true"
  | false => "false"

/-- The line that asks for the value of a name. -/
def prompt (name : String) : String :=
  "Введите значение " ++ name ++ ":\n"

/-- The line that shows a value. -/
def valueLine (value : Bool) : String :=
  truthWord value ++ "\n"

/-- The value that a line of input stands for. -/
def answer (line : String) : Bool :=
  Text.isTrue (Text.dropLineEnd line)

/-- Writes a text. -/
def write (text : String) : ConsoleM Unit := fun console =>
  let (complete, output) := console.output.write (Text.encode text)
  if complete then .ok () { console with output }
  else .error .outputFull { console with output }

/-- Makes sure that the user sees what has been written. -/
def flush : ConsoleM Unit := fun console =>
  if console.output.flushFails then .error .flushFailed console else .ok () console

/-- Takes a line off the input. -/
def readLine : ConsoleM (Option String) := fun console =>
  match console.input.readLine with
  | (.ok line, input) => .ok line { console with input }
  | (.error error, input) => .error error { console with input }

/-- Asks the user for the value of a name. -/
def ask (name : String) : ConsoleM Bool := do
  write (prompt name)
  flush
  match ← readLine with
  | some line => return answer line
  | none => throw (.inputClosed name)

/-- Shows a value to the user. -/
def print (value : Bool) : ConsoleM Unit :=
  write (valueLine value)

end Console

end BoolScript
