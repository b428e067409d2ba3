import BoolScript.Console.Error

/-!
# The writing end of the console

Output keeps every byte that it takes. It may have room for a limited number of bytes only, and then
takes as many of them as fit: what a full output holds is always the beginning of what was written.
-/

namespace BoolScript

/-- The writing end of a console. -/
structure Output where
  /-- The bytes written so far. -/
  written : Array UInt8 := #[]
  /-- How many more bytes the output takes, if there is a limit. -/
  room : Option Nat := none
  /-- Whether flushing fails. -/
  flushFails : Bool := false
  deriving DecidableEq, Repr, Inhabited

namespace Output

/-- Writes as many of the bytes as there is room for, and says whether these are all. -/
def write (output : Output) (bytes : List UInt8) : Bool × Output :=
  match output.room with
  | none => (true, { output with written := output.written ++ bytes })
  | some room =>
    (bytes.length ≤ room,
      { output with
        written := output.written ++ bytes.take room
        room := some (room - bytes.length) })

/-- What has been written stays. -/
theorem toList_written_write (output : Output) (bytes : List UInt8) :
    (output.write bytes).2.written.toList =
      output.written.toList ++ bytes.take (output.room.getD bytes.length) := by
  unfold write
  split <;> simp_all

/-- Output without a limit takes everything. -/
theorem write_of_room_eq_none {output : Output} (h : output.room = none) (bytes : List UInt8) :
    output.write bytes = (true, { output with written := output.written ++ bytes }) := by
  simp [write, h]

/-- All bytes are taken exactly if there is room for them. -/
theorem write_fst_iff {output : Output} {bytes : List UInt8} :
    (output.write bytes).1 = true ↔ ∀ room, output.room = some room → bytes.length ≤ room := by
  unfold write
  split <;> simp_all

end Output

end BoolScript
