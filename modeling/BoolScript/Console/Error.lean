/-!
# What goes wrong at the console

Input may end where an answer is needed, and either device may fail. A device tells what happened in
words of its own, which become part of the message.
-/

namespace BoolScript

/-- Why the console did not do what it was asked. -/
inductive ConsoleError where
  /-- The input ended before an answer for this name. -/
  | inputClosed (name : String)
  /-- Reading or writing failed, with the details that the device gives. -/
  | io (details : String)
  deriving DecidableEq, Repr, Inhabited

namespace ConsoleError

/-- The message that tells what went wrong. -/
def message : ConsoleError → String
  | inputClosed name => "Ввод завершён до получения значения " ++ name
  | io details => "Ошибка ввода-вывода: " ++ details

/-- The input breaks off. -/
def inputBroken : ConsoleError :=
  io "source broken"

/-- A line of input is no text. -/
def notText : ConsoleError :=
  io "stream did not contain valid UTF-8"

/-- The output takes no more bytes. -/
def outputFull : ConsoleError :=
  io "sink full"

/-- The output cannot be flushed. -/
def flushFailed : ConsoleError :=
  io "flush failed"

end ConsoleError

end BoolScript
