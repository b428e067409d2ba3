import BoolScript.Console.Error
import BoolScript.Text.Line
import BoolScript.Text.Utf8

/-!
# The reading end of the console

Input is a run of bytes that is read line by line. What has been read is gone, whatever came of it:
also a line that is no text, and one that broke off because the input failed in the middle of it.
`Input.readLine` tells four cases apart, and the lemmas behind it say when each of them arises.
-/

namespace BoolScript

/-- The reading end of a console. -/
structure Input where
  /-- The bytes not yet read. -/
  pending : List UInt8
  /-- How many bytes have been read. -/
  consumed : Nat := 0
  /-- Whether reading fails where the bytes end. -/
  fails : Bool := false
  deriving DecidableEq, Repr, Inhabited

namespace Input

/-- Takes a line off the input. The line is gone even if it breaks off or is no text. -/
def readLine (input : Input) : Except ConsoleError (Option String) × Input :=
  let (line, rest) := Text.splitLine input.pending
  let answer :=
    if input.fails && !Text.isFinished line then .error .inputBroken
    else if line.isEmpty then .ok none
    else match Text.decode? line with
      | some text => .ok (some text)
      | none => .error .notText
  (answer, ⟨rest, input.consumed + line.length, input.fails⟩)

/-- Reading moves bytes from one side of the reading position to the other. -/
theorem consumed_readLine (input : Input) :
    input.readLine.2.consumed + input.readLine.2.pending.length =
      input.consumed + input.pending.length := by
  have := congrArg List.length (Text.splitLine_append input.pending)
  simp only [List.length_append] at this
  simp only [readLine]
  omega

/-- A line that lacks its line feed is the last one, and a broken input loses it. -/
theorem readLine_of_fails {input : Input} (hf : input.fails = true)
    (hl : Text.isFinished (Text.splitLine input.pending).1 = false) :
    input.readLine.1 = .error .inputBroken := by
  simp [readLine, hf, hl]

/-- Input that is read to its end and does not fail has no further line. -/
theorem readLine_of_pending_eq_nil {input : Input} (hf : input.fails = false)
    (hp : input.pending = []) : input.readLine.1 = .ok none := by
  simp [readLine, hf, hp, Text.splitLine_nil]

/-- A line that is a text is answered as this text. -/
theorem readLine_of_encode {input : Input} {line : String} (hn : line ≠ "")
    (hl : (Text.splitLine input.pending).1 = Text.encode line)
    (hf : Text.isFinished (Text.encode line) = true ∨ input.fails = false) :
    input.readLine.1 = .ok (some line) := by
  have : Text.encode line ≠ [] :=
    fun h => hn (Text.encode_injective (h.trans Text.encode_empty.symm))
  rcases hf with hf | hf <;> simp [readLine, hl, hf, this]

/-- A line that is no text is an error of its own. -/
theorem readLine_of_decode?_eq_none {input : Input}
    (hd : Text.decode? (Text.splitLine input.pending).1 = none)
    (hf : Text.isFinished (Text.splitLine input.pending).1 = true ∨ input.fails = false) :
    input.readLine.1 = .error .notText := by
  have : (Text.splitLine input.pending).1 ≠ [] := by
    intro h
    rw [h, ← Text.encode_empty, Text.decode?_encode] at hd
    exact absurd hd (Option.some_ne_none _)
  rcases hf with hf | hf <;> simp [readLine, hd, hf, this]

end Input

end BoolScript
