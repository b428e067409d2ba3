import BoolScript.Console.Input

/-!
# All lines of a text

`splitLine` takes one line off some bytes. `lines` cuts the bytes into all their lines at once, and
`lines_eq_cons` says that the two agree, so that reading line by line is reading a list.
-/

namespace BoolScript

namespace Text

/-- The lines of some bytes, each with its line feed; the last one may lack it. -/
def lines : List UInt8 → List (List UInt8)
  | [] => []
  | byte :: rest =>
    if byte = lineFeed then [byte] :: lines rest
    else match lines rest with
      | [] => [[byte]]
      | line :: others => (byte :: line) :: others

@[simp] theorem lines_nil : lines [] = [] := rfl

/-- The first line goes on as long as no line feed comes. -/
theorem splitLine_cons (byte : UInt8) (rest : List UInt8) :
    splitLine (byte :: rest) =
      if byte = lineFeed then ([byte], rest)
      else (byte :: (splitLine rest).1, (splitLine rest).2) := by
  by_cases h : byte = lineFeed
  · simp [splitLine, h]
  · have hd : (byte :: rest).dropWhile (· != lineFeed) = rest.dropWhile (· != lineFeed) := by
      simp [h]
    rw [if_neg h, splitLine, splitLine, hd]
    split <;> simp [h]

/-- The first line is the one that is taken off, and the others are the lines of the rest. -/
theorem lines_eq_cons {bytes : List UInt8} (h : bytes ≠ []) :
    lines bytes = (splitLine bytes).1 :: lines (splitLine bytes).2 := by
  induction bytes with
  | nil => exact absurd rfl h
  | cons byte rest ih =>
    rw [lines, splitLine_cons]
    by_cases hb : byte = lineFeed
    · rw [if_pos hb, if_pos hb]
    · rw [if_neg hb, if_neg hb]
      cases rest with
      | nil => rfl
      | cons next others => rw [ih (by simp)]

/-- Nothing is lost between the lines. -/
theorem flatten_lines (bytes : List UInt8) : (lines bytes).flatten = bytes := by
  induction bytes with
  | nil => rfl
  | cons byte rest ih =>
    rw [lines]
    split
    · rw [List.flatten_cons, ih, List.singleton_append]
    · split
      · next hn =>
        rw [hn] at ih
        simp [← ih]
      · next line others hl =>
        rw [hl] at ih
        simp [← ih]

theorem lines_eq_nil_iff {bytes : List UInt8} : lines bytes = [] ↔ bytes = [] := by
  constructor
  · intro h
    rw [← flatten_lines bytes, h]
    rfl
  · rintro rfl
    rfl

end Text

namespace Input

/-- Reading a line takes the first line off, if there is one. -/
theorem lines_pending_readLine (input : Input) :
    Text.lines input.readLine.2.pending = (Text.lines input.pending).tail := by
  by_cases h : input.pending = []
  · simp [readLine, h, Text.splitLine_nil]
  · rw [Text.lines_eq_cons h]
    rfl

/-- A line that is answered is the first line, as a text. -/
theorem lines_of_readLine {input : Input} {text : String}
    (h : input.readLine.1 = .ok (some text)) :
    Text.lines input.pending = Text.encode text :: Text.lines input.readLine.2.pending := by
  have hp : input.pending ≠ [] := by
    intro hp
    by_cases hf : input.fails = true
    · rw [readLine_of_fails hf (by rw [hp]; rfl)] at h
      cases h
    · rw [readLine_of_pending_eq_nil (by simpa using hf) hp] at h
      cases h
  rw [Text.lines_eq_cons hp]
  congr 1
  simp only [readLine] at h
  split at h
  · cases h
  · split at h
    · cases h
    · split at h
      · next line hd =>
        cases h
        exact (Text.decode?_eq_some_iff.1 hd).symm
      · cases h

theorem splitLine_of_readLine {input : Input} {text : String}
    (h : input.readLine.1 = .ok (some text)) :
    (Text.splitLine input.pending).1 = Text.encode text := by
  have hl := lines_of_readLine h
  have hp : input.pending ≠ [] := fun hp => by simp [hp] at hl
  exact (List.cons.inj ((Text.lines_eq_cons hp).symm.trans hl)).1

/-- Where no line is left, none is taken. -/
theorem splitLine_of_readLine_eq_none {input : Input} (h : input.readLine.1 = .ok none) :
    (Text.splitLine input.pending).1 = [] := by
  simp only [readLine] at h
  split at h
  · cases h
  · split at h
    · next hl => exact List.isEmpty_iff.1 hl
    · split at h <;> cases h

/-- Reading fails in two ways, each with an error of its own. -/
theorem eq_of_readLine_eq_error {input : Input} {error : ConsoleError}
    (h : input.readLine.1 = .error error) : error = .inputBroken ∨ error = .notText := by
  simp only [readLine] at h
  split at h
  · exact .inl (Except.error.inj h).symm
  · split at h
    · cases h
    · split at h
      · cases h
      · exact .inr (Except.error.inj h).symm

/-! ## Taking several lines -/

/-- The first lines of an input are these texts, and taking them leaves the other input. -/
structure Takes (input : Input) (texts : List String) (after : Input) : Prop where
  lines : Text.lines input.pending = texts.map Text.encode ++ Text.lines after.pending
  consumed : after.consumed = input.consumed + (texts.map Text.encode).flatten.length
  fails : after.fails = input.fails

namespace Takes

theorem nil (input : Input) : input.Takes [] input :=
  ⟨rfl, rfl, rfl⟩

theorem cons {input after : Input} {text : String} {texts : List String}
    (h : input.readLine.1 = .ok (some text)) (rest : input.readLine.2.Takes texts after) :
    input.Takes (text :: texts) after := by
  have hl := lines_of_readLine h
  -- The bytes that are read are those of the first line.
  have hc := consumed_readLine input
  have hp := congrArg List.flatten hl
  rw [List.flatten_cons, Text.flatten_lines, Text.flatten_lines] at hp
  refine ⟨?_, ?_, rest.fails⟩
  · rw [hl, rest.lines, List.map_cons, List.cons_append]
  · rw [rest.consumed, List.map_cons, List.flatten_cons, List.length_append]
    rw [hp, List.length_append] at hc
    omega

/-- The bytes of the lines that are taken are the first bytes of the input. -/
theorem pending {input after : Input} {texts : List String} (h : input.Takes texts after) :
    input.pending = (texts.map Text.encode).flatten ++ after.pending := by
  have hp := congrArg List.flatten h.lines
  rwa [List.flatten_append, Text.flatten_lines, Text.flatten_lines] at hp

end Takes

end Input

end BoolScript
