/-!
# Words without regard to letter case

Keywords, literals and typed answers are recognised in any mixture of capital and small letters.
Only the ASCII letters have two cases here: a text outside ASCII is equal to itself alone.

Literals are read strictly (`truth?`) and answers leniently (`isTrue`). `truth?_congr` and
`isTrue_congr` say that neither reading sees letter case, and `isTrue_of_truth?` that the readings
agree on every text that both have a value for.
-/

namespace BoolScript.Text

/-- The characters of a text with the ASCII capitals made small. -/
def folded (text : String) : List Char :=
  text.toList.map Char.toLower

/-- Whether two texts differ at most in the case of ASCII letters. -/
def sameFolded (text word : String) : Bool :=
  folded text == folded word

theorem sameFolded_iff {text word : String} :
    sameFolded text word = true ↔ folded text = folded word := by
  simp [sameFolded]

@[simp] theorem sameFolded_self (text : String) : sameFolded text text = true := by
  simp [sameFolded]

/-! ## Truth words -/

/-- The strict reading of a truth word: `true` and `false` in any letter case, nothing else. -/
def truth? (text : String) : Option Bool :=
  if sameFolded text "true" then some true
  else if sameFolded text "false" then some false
  else none

/-- The lenient reading of a truth word: `true` in any letter case is true, and every other text
is false. -/
def isTrue (text : String) : Bool :=
  sameFolded text "true"

theorem truth?_congr {text other : String} (h : folded text = folded other) :
    truth? text = truth? other := by
  simp [truth?, sameFolded, h]

theorem isTrue_congr {text other : String} (h : folded text = folded other) :
    isTrue text = isTrue other := by
  simp [isTrue, sameFolded, h]

/-- The two readings agree wherever the strict one has an answer. -/
theorem isTrue_of_truth? {text : String} {value : Bool} (h : truth? text = some value) :
    isTrue text = value := by
  unfold truth? at h
  unfold isTrue
  split at h
  · simp_all
  · split at h <;> simp_all

end BoolScript.Text
