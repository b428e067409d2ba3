import BoolScript.CommandLine.Arguments
import BoolScript.CommandLine.Folder

/-!
# Running a command line

One run of the command line is one script in a fresh session, whose input is the standard input and
whose output is the standard output. The value of the script, if it has one, is written behind what
the script itself wrote. An error is written to the standard error, and what the script wrote before
stays.

The exit code is 0 for a script that ran, 1 for one that could not be found or failed, and 2 for
arguments that are not allowed, a request for help among them.
-/

namespace BoolScript.CommandLine

/-- What the arguments are answered with when the version is asked for. -/
def versionLine : String :=
  "boolex 0.1.0\n"

/-- What the arguments are answered with when they are not allowed. -/
def usageLine : String :=
  "Usage: boolex [OPTIONS] <CONTENTS>\n"

/-- The message for a file that is missing or holds no text. -/
def unreadableLine (path : String) : String :=
  "Failed to read the input file '" ++ path ++ "'. Perhaps this file does not exist?\n"

/-- What is left of a run. -/
structure Exit where
  code : Nat
  stdout : List UInt8 := []
  stderr : List UInt8 := []
  deriving DecidableEq, Repr, Inhabited

/-- The mode in which `not` is read. -/
def Arguments.notMode (arguments : Arguments) : NotMode :=
  if arguments.negateOperand then .operand else .operatorText

/-- The script that the arguments select, given the files that can be read. -/
def Arguments.script? (readFile : String → Option (List UInt8)) (arguments : Arguments) :
    Option String :=
  if arguments.fromFile then readFile arguments.contents >>= Text.decode?
  else some arguments.contents

/-- The session in which a command line runs its script. -/
def Arguments.session (arguments : Arguments) (stdin : List UInt8) : Session :=
  { notMode := arguments.notMode, console := ⟨{ pending := stdin }, {}⟩ }

/-- Runs a script and reports on it. -/
def runScript (rule : Rule) (source : String) (session : Session) : Exit :=
  match Session.runScript rule source session with
  | .ok (some value) after =>
    { code := 0
      stdout := after.console.output.written.toList ++ Text.encode (Console.valueLine value) }
  | .ok none after => { code := 0, stdout := after.console.output.written.toList }
  | .error error after =>
    { code := 1
      stdout := after.console.output.written.toList
      stderr := Text.encode (error.message ++ "\n") }

/-- Runs a command line. -/
def run (readFile : String → Option (List UInt8)) (stdin : List UInt8) (arguments : List String) :
    Exit :=
  match Arguments.parse arguments with
  | .error .version => { code := 0, stdout := Text.encode versionLine }
  | .error .misuse => { code := 2, stderr := Text.encode usageLine }
  | .ok parsed =>
    match parsed.script? readFile with
    | none => { code := 1, stderr := Text.encode (unreadableLine parsed.contents) }
    | some source => runScript parsed.rule source (parsed.session stdin)

end BoolScript.CommandLine
