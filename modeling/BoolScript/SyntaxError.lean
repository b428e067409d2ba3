import BoolScript.Token.Basic

/-!
# Syntax errors

A script can be wrong in three ways: it holds a character that starts no token, a token stands
where others are required, or an operand is missing. Each error keeps what its message shows, and
`SyntaxError.message` is the only place where the wording stands.
-/

namespace BoolScript

/-- A place in a list of tokens: where its next token starts, or past the last one. -/
inductive Location where
  | position (offset : Nat)
  | endOfInput
  deriving DecidableEq, Repr, Inhabited

/-- The place as messages give it. -/
def Location.phrase : Location → String
  | position offset => "в позиции " ++ toString offset
  | endOfInput => "в конце файла"

/-- The place at which a list of tokens goes on. -/
def Location.ofTokens : List Token → Location
  | [] => endOfInput
  | token :: _ => position token.position

@[simp] theorem Location.ofTokens_nil : ofTokens [] = endOfInput := rfl

@[simp] theorem Location.ofTokens_cons (token : Token) (rest : List Token) :
    ofTokens (token :: rest) = position token.position := rfl

/-- Why a script was refused. -/
inductive SyntaxError where
  /-- A token of one of these kinds is required. -/
  | expected (kinds : List Kind) (location : Location)
  /-- A literal or a variable is required. -/
  | expectedOperand (location : Location)
  /-- No token has this character here. -/
  | unknownCharacter (text : String) (position : Nat)
  deriving DecidableEq, Repr, Inhabited

/-- The message for the author of the script. -/
def SyntaxError.message : SyntaxError → String
  | expected kinds location =>
    "Ожидается [" ++ ", ".intercalate (kinds.map Kind.label) ++ "] " ++ location.phrase
  | expectedOperand location => "Ожидается число или переменная " ++ location.phrase
  | unknownCharacter text position =>
    "Неизвестный символ '" ++ text ++ "' в позиции " ++ toString position

end BoolScript
