import BoolScript.SyntaxError

/-!
# From text to tokens

A script is read one character at a time. The scanner keeps the tokens that are complete, how many
bytes it has read, and what it is in the middle of: a word, a comment, the first of the two slashes
that open a comment, or nothing (`Scanner.Mode`). A character either ends what is under way and is
then looked at afresh, or becomes part of it; one that can do neither is an error, which therefore
does not depend on anything further on.

## Shape of the scanner

* `Scanner.begin` looks at a character with nothing under way;
* `Scanner.push` reads one character in any mode;
* `Scanner.finish` says what the end of the text means;
* `tokenize` runs the scanner over a whole text.

Blanks and comments leave no token. A comment ends before the next carriage return or line feed, so
the line break itself is an ordinary blank.
-/

namespace BoolScript

/-- What a scanner is in the middle of. -/
inductive Scanner.Mode where
  /-- Nothing is under way. -/
  | gap
  /-- A word is under way; its characters are kept last first. -/
  | word (start : Nat) (letters : List Char)
  /-- One slash has been read, and the next character must be another. -/
  | slash (start : Nat)
  /-- A comment is under way. -/
  | comment
  deriving DecidableEq, Repr, Inhabited

/-- A text read in part. -/
structure Scanner where
  /-- The complete tokens, in the order of the text. -/
  tokens : Array Token
  /-- How many bytes have been read. -/
  position : Nat
  /-- What is under way. -/
  mode : Scanner.Mode
  deriving DecidableEq, Repr, Inhabited

namespace Scanner

/-- The scanner before the first character. -/
def start : Scanner :=
  ⟨#[], 0, .gap⟩

/-- The token of a word whose characters are given last first. -/
def wordToken (start : Nat) (letters : List Char) : Token :=
  let word := String.ofList letters.reverse
  ⟨wordKind word, word, start⟩

/-- Reads a character at a place where nothing is under way. -/
def begin (tokens : Array Token) (position : Nat) (c : Char) : Except SyntaxError Scanner :=
  let next := position + c.utf8Size
  if isBlank c then .ok ⟨tokens, next, .gap⟩
  else if isWordStart c then .ok ⟨tokens, next, .word position [c]⟩
  else if c == '/' then .ok ⟨tokens, next, .slash position⟩
  else match symbolKind? c with
    | some kind => .ok ⟨tokens.push ⟨kind, c.toString, position⟩, next, .gap⟩
    | none => .error (.unknownCharacter c.toString position)

/-- Reads one character. -/
def push (s : Scanner) (c : Char) : Except SyntaxError Scanner :=
  match s.mode with
  | .gap => begin s.tokens s.position c
  | .word start letters =>
    if isWordPart c then
      .ok ⟨s.tokens, s.position + c.utf8Size, .word start (c :: letters)⟩
    else begin (s.tokens.push (wordToken start letters)) s.position c
  | .slash start =>
    if c == '/' then .ok ⟨s.tokens, s.position + c.utf8Size, .comment⟩
    else .error (.unknownCharacter "/" start)
  | .comment =>
    if c == '\r' || c == '\n' then begin s.tokens s.position c
    else .ok ⟨s.tokens, s.position + c.utf8Size, .comment⟩

/-- Reads a run of characters. -/
def pushAll (s : Scanner) (text : List Char) : Except SyntaxError Scanner :=
  text.foldlM push s

/-- The tokens of a text that ends here. -/
def finish (s : Scanner) : Except SyntaxError (List Token) :=
  match s.mode with
  | .word start letters => .ok (s.tokens.push (wordToken start letters)).toList
  | .slash start => .error (.unknownCharacter "/" start)
  | .gap | .comment => .ok s.tokens.toList

/-! ## Single characters -/

/-- A character at which nothing is under way is a blank, starts a word or a comment, or is a token
by itself. -/
theorem begin_cases {tokens : Array Token} {position : Nat} {c : Char} {next : Scanner}
    (h : begin tokens position c = .ok next) :
    (isBlank c = true ∧ next = ⟨tokens, position + c.utf8Size, .gap⟩) ∨
    (isWordStart c = true ∧ next = ⟨tokens, position + c.utf8Size, .word position [c]⟩) ∨
    (c = '/' ∧ next = ⟨tokens, position + c.utf8Size, .slash position⟩) ∨
    ∃ kind, symbolKind? c = some kind ∧
      next = ⟨tokens.push ⟨kind, c.toString, position⟩, position + c.utf8Size, .gap⟩ := by
  unfold begin at h
  split at h
  · next hb => exact .inl ⟨hb, (Except.ok.inj h).symm⟩
  · split at h
    · next hw => exact .inr (.inl ⟨hw, (Except.ok.inj h).symm⟩)
    · split at h
      · next hd => exact .inr (.inr (.inl ⟨by simpa using hd, (Except.ok.inj h).symm⟩))
      · split at h
        · next kind hk => exact .inr (.inr (.inr ⟨kind, hk, (Except.ok.inj h).symm⟩))
        · cases h

theorem position_begin {tokens : Array Token} {position : Nat} {c : Char} {next : Scanner}
    (h : begin tokens position c = .ok next) : next.position = position + c.utf8Size := by
  rcases begin_cases h with ⟨-, rfl⟩ | ⟨-, rfl⟩ | ⟨-, rfl⟩ | ⟨_, -, rfl⟩ <;> rfl

/-- Every character moves the position on by the bytes that it takes in UTF-8. -/
theorem position_push {s next : Scanner} {c : Char} (h : s.push c = .ok next) :
    next.position = s.position + c.utf8Size := by
  unfold push at h
  split at h
  · exact position_begin h
  · split at h
    · cases h; rfl
    · exact position_begin h
  · split at h
    · cases h; rfl
    · cases h
  · split at h
    · exact position_begin h
    · cases h; rfl

/-! ## Runs of characters -/

@[simp] theorem pushAll_nil (s : Scanner) : s.pushAll [] = .ok s := rfl

@[simp] theorem pushAll_cons (s : Scanner) (c : Char) (text : List Char) :
    s.pushAll (c :: text) = s.push c >>= fun next => next.pushAll text := rfl

/-- Reading two runs one after the other is reading them as one. -/
theorem pushAll_append (s : Scanner) (text more : List Char) :
    s.pushAll (text ++ more) = s.pushAll text >>= fun next => next.pushAll more :=
  List.foldlM_append

theorem pushAll_append_eq_ok_iff {s next : Scanner} {text more : List Char} :
    s.pushAll (text ++ more) = .ok next ↔
      ∃ middle, s.pushAll text = .ok middle ∧ middle.pushAll more = .ok next := by
  rw [pushAll_append]
  cases s.pushAll text with
  | ok middle => simp [Bind.bind, Except.bind]
  | error error => simp [Bind.bind, Except.bind]

theorem pushAll_singleton (s : Scanner) (c : Char) : s.pushAll [c] = s.push c :=
  bind_pure (s.push c)

theorem pushAll_cons_eq_ok_iff {s next : Scanner} {c : Char} {text : List Char} :
    s.pushAll (c :: text) = .ok next ↔
      ∃ middle, s.push c = .ok middle ∧ middle.pushAll text = .ok next := by
  rw [← List.singleton_append, pushAll_append_eq_ok_iff, pushAll_singleton]

end Scanner

/-- The tokens of a script, without its blanks and comments. -/
def tokenize (source : String) : Except SyntaxError (List Token) :=
  Scanner.start.pushAll source.toList >>= Scanner.finish

theorem tokenize_of_pushAll {source : String} {s : Scanner}
    (h : Scanner.start.pushAll source.toList = .ok s) : tokenize source = s.finish := by
  rw [tokenize, h]
  rfl

theorem tokenize_eq_ok_iff {source : String} {tokens : List Token} :
    tokenize source = .ok tokens ↔
      ∃ s, Scanner.start.pushAll source.toList = .ok s ∧ s.finish = .ok tokens := by
  cases h : Scanner.start.pushAll source.toList with
  | ok s => simp [tokenize_of_pushAll h]
  | error error => simp [tokenize, h, Bind.bind, Except.bind]

end BoolScript
