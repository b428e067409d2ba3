import BoolScript.Text.CaseFolding

/-!
# Tokens

A token is a word or a symbol of a script: its kind, the text it was written as, and where it
starts. Positions count the bytes of the script in UTF-8, not its characters.

## Shape of the vocabulary

Seven keywords are told from names by their letters alone, in any mixture of capital and small
letters (`wordKind`). Four symbols stand for themselves (`symbolKind?`). Blank space and comments
have kinds of their own, although scanning a script never yields them: a list of tokens put
together by hand may hold them, and no rule of the grammar accepts them.
-/

namespace BoolScript

/-- What a token is. -/
inductive Kind where
  | trueWord
  | falseWord
  | name
  | assign
  | not
  | and
  | or
  | xor
  | print
  | openParen
  | closeParen
  | semicolon
  | space
  | comment
  deriving DecidableEq, Repr, Inhabited

/-- The name of a kind in messages. -/
def Kind.label : Kind → String
  | trueWord => "TRUE"
  | falseWord => "FALSE"
  | name => "ID"
  | assign => "ASSIGN"
  | not => "NOT"
  | and => "AND"
  | or => "OR"
  | xor => "XOR"
  | print => "PRINT"
  | openParen => "LPAR"
  | closeParen => "RPAR"
  | semicolon => "SEMICOLON"
  | space => "SPACE"
  | comment => "COMMENT"

theorem Kind.label_injective {kind other : Kind} (h : kind.label = other.label) :
    kind = other := by
  cases kind <;> cases other <;> first | rfl | exact absurd h (by decide)

/-- A piece of a script. -/
structure Token where
  /-- What the token is. -/
  kind : Kind
  /-- The token as written. -/
  text : String
  /-- How many bytes of the script stand before it. -/
  position : Nat
  deriving DecidableEq, Repr, Inhabited

/-! ## Words -/

/-- The keywords, in small letters. -/
def keywords : List (String × Kind) :=
  [("true", .trueWord), ("false", .falseWord), ("not", .not), ("and", .and), ("or", .or),
    ("xor", .xor), ("print", .print)]

/-- The kind of a word: a keyword in any letter case, else a name. -/
def wordKind (word : String) : Kind :=
  match keywords.find? fun entry => Text.sameFolded word entry.1 with
  | some (_, kind) => kind
  | none => .name

/-- A word is a name exactly if it is no keyword in any letter case. -/
theorem wordKind_eq_name_iff {word : String} :
    wordKind word = .name ↔ ∀ entry ∈ keywords, Text.sameFolded word entry.1 = false := by
  unfold wordKind
  split
  · next entry keyword kind h =>
    have hm := List.mem_of_find?_eq_some h
    have hs := List.find?_some h
    constructor
    · rintro rfl
      simp [keywords] at hm
    · intro hn
      simp [hn _ hm] at hs
  · next h =>
    simpa using List.find?_eq_none.1 h

/-- The kind of a word is that of a keyword which it is in some letter case. -/
theorem exists_keyword_of_wordKind {word : String} {kind : Kind} (h : wordKind word = kind)
    (hk : kind ≠ .name) :
    ∃ keyword, (keyword, kind) ∈ keywords ∧ Text.sameFolded word keyword = true := by
  unfold wordKind at h
  split at h
  · next keyword kind' hf =>
    have hs := List.find?_some hf
    subst h
    exact ⟨keyword, List.mem_of_find?_eq_some hf, hs⟩
  · exact absurd h.symm hk

/-- The letter case of a word makes no difference to its kind. -/
theorem wordKind_congr {word other : String} (h : Text.folded word = Text.folded other) :
    wordKind word = wordKind other := by
  simp [wordKind, Text.sameFolded, h]

/-- Letters and the underscore start a word. -/
def isWordStart (c : Char) : Bool :=
  c.isAlpha || c == '_'

/-- A word goes on with letters, digits and underscores. -/
def isWordPart (c : Char) : Bool :=
  c.isAlphanum || c == '_'

theorem isWordPart_of_isWordStart {c : Char} (h : isWordStart c = true) :
    isWordPart c = true := by
  simp only [isWordStart, isWordPart, Char.isAlphanum, Bool.or_eq_true] at h ⊢
  exact h.imp .inl id

/-! ## Symbols and blanks -/

/-- The kind of a character that is a token by itself. -/
def symbolKind? : Char → Option Kind
  | '=' => some .assign
  | '(' => some .openParen
  | ')' => some .closeParen
  | ';' => some .semicolon
  | _ => none

/-- The characters that separate tokens and mean nothing else. -/
def isBlank (c : Char) : Bool :=
  c == ' ' || c == '\t' || c == '\r' || c == '\n' || c == '\x0c'

end BoolScript
