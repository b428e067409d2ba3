/-!
# Lines of input

A line runs up to and including a line feed; the last one may lack it. `splitLine` takes the first
line off, and `splitLine_append` says that nothing is lost between the two parts. A typed answer is
what stands before the line's end (`dropLineEnd`), so that `true` typed with either style of line
break is the same answer. What a last character does to it is said by `dropLineEnd_push` and
`dropLineEnd_push_of_not`.
-/

namespace BoolScript.Text

/-- The byte that ends a line. -/
def lineFeed : UInt8 := 10

/-- The first line, with its line feed if it has one, and what follows it. -/
def splitLine (bytes : List UInt8) : List UInt8 × List UInt8 :=
  match bytes.dropWhile (· != lineFeed) with
  | [] => (bytes, [])
  | last :: rest => (bytes.takeWhile (· != lineFeed) ++ [last], rest)

/-- Whether a line has its line feed. -/
def isFinished (line : List UInt8) : Bool :=
  line.getLast? == some lineFeed

theorem splitLine_append (bytes : List UInt8) :
    (splitLine bytes).1 ++ (splitLine bytes).2 = bytes := by
  unfold splitLine
  split
  · simp
  · next last rest h =>
    have := List.takeWhile_append_dropWhile (p := (· != lineFeed)) (l := bytes)
    rw [h] at this
    simpa using this

theorem splitLine_nil : splitLine [] = ([], []) := rfl

/-- Only the end of the bytes gives an empty line. -/
theorem splitLine_fst_eq_nil_iff {bytes : List UInt8} :
    (splitLine bytes).1 = [] ↔ bytes = [] := by
  constructor
  · intro h
    unfold splitLine at h
    split at h
    · exact h
    · simp at h
  · rintro rfl
    rfl

/-- A line is finished unless the bytes end in it. -/
theorem isFinished_of_splitLine_snd {bytes : List UInt8} (h : (splitLine bytes).2 ≠ []) :
    isFinished (splitLine bytes).1 = true := by
  unfold splitLine at h ⊢
  split at h
  · exact absurd rfl h
  · next last rest hd =>
    have hl := List.head?_dropWhile_not (· != lineFeed) bytes
    rw [hd] at hl
    have : last = lineFeed := by simpa using hl
    simp [isFinished, this]

/-! ## Line ends -/

/-- The two characters that line breaks are made of. -/
def isLineBreak (c : Char) : Bool :=
  c == '\r' || c == '\n'

/-- A text without the line breaks at its end. -/
def dropLineEnd (text : String) : String :=
  String.ofList (text.toList.reverse.dropWhile isLineBreak).reverse

/-- Line breaks at the end make no difference. -/
theorem dropLineEnd_push {text : String} {c : Char} (h : isLineBreak c = true) :
    dropLineEnd (text.push c) = dropLineEnd text := by
  simp [dropLineEnd, h]

/-- A text that ends in anything else is left as it is. -/
theorem dropLineEnd_push_of_not {text : String} {c : Char} (h : isLineBreak c = false) :
    dropLineEnd (text.push c) = text.push c := by
  simp [dropLineEnd, h]

@[simp] theorem dropLineEnd_empty : dropLineEnd "" = "" := by
  simp [dropLineEnd]

end BoolScript.Text
