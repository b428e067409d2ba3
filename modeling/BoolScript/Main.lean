import BoolScript.CommandLine.Run

/-!
# The program

The command line at work: the same arguments, scripts and actions as in `CommandLine.run`, carried
out at the terminal, so that every question is seen before its answer is typed.
-/

namespace BoolScript.CommandLine

/-- Does something with a device, whose failure becomes an error of the console. -/
private def withDevice {α : Type} (task : IO α) : ExceptT EvalError IO α :=
  ExceptT.mk do
    match ← task.toBaseIO with
    | .ok value => return .ok value
    | .error failure => return .error (.console (.io (toString failure)))

/-- Reads bytes up to a line feed or the end of the input, behind those read before. -/
private partial def readLine (input : IO.FS.Stream) (before : Array UInt8) : IO (Array UInt8) := do
  match (← input.read 1).data[0]? with
  | none => return before
  | some byte =>
    let line := before.push byte
    if byte == Text.lineFeed then return line else readLine input line

/-- Asks the user for the value of a name. -/
private def askUser (input output : IO.FS.Stream) (name : String) : ExceptT EvalError IO Bool := do
  withDevice (output.putStr (Console.prompt name) *> output.flush)
  let line ← withDevice (readLine input #[])
  match (Input.readLine { pending := line.toList }).1 with
  | .ok (some text) => return Console.answer text
  | .ok none => throw (.console (.inputClosed name))
  | .error error => throw (.console error)

/-- Carries out an action at the terminal. -/
private def converse {α : Type} (input output : IO.FS.Stream) :
    Action α → Bindings → ExceptT EvalError IO α
  | .finish value, _ => return value
  | .fault defect, _ => throw (.fault defect)
  | .fetch name next, bindings => do
    match bindings.get? name with
    | some value => converse input output (next value) bindings
    | none =>
      let value ← askUser input output name
      converse input output (next value) (bindings.insert name value)
  | .store name value next, bindings =>
    converse input output next (bindings.insert name value)
  | .print value next, bindings => do
    withDevice (output.putStr (Console.valueLine value))
    converse input output next bindings

/-- The script that the arguments select. -/
private def loadScript (arguments : Arguments) : IO (Option String) := do
  if arguments.fromFile then
    match ← (IO.FS.readBinFile arguments.contents).toBaseIO with
    | .ok bytes => return Text.decode? bytes.toList
    | .error _ => return none
  else
    return some arguments.contents

/-- Runs a script at the terminal, and gives the exit code. -/
private def runAtTerminal (arguments : Arguments) (source : String) : IO UInt32 := do
  let input ← IO.getStdin
  let output ← IO.getStdout
  let failed (error : ScriptError) : IO UInt32 := do
    output.flush
    IO.eprintln error.message
    return 1
  match arguments.rule.parse source with
  | .error error => failed (.refused error)
  | .ok trees =>
    match ← (converse input output (Expr.evalAll arguments.notMode trees) .empty).run with
    | .error error => failed (.failed error)
    | .ok value =>
      if let some value := value then output.putStr (Console.valueLine value)
      output.flush
      return 0

end BoolScript.CommandLine

open BoolScript.CommandLine in
/-- Runs the command line. -/
def main (arguments : List String) : IO UInt32 := do
  match Arguments.parse arguments with
  | .error .version =>
    IO.print versionLine
    return 0
  | .error .misuse =>
    IO.eprint usageLine
    return 2
  | .ok parsed =>
    match ← loadScript parsed with
    | some source => runAtTerminal parsed source
    | none =>
      IO.eprint (unreadableLine parsed.contents)
      return 1
