import BoolScript.Script

/-!
# Arguments of the command line

The arguments say which script to run and how. One of them is the script itself, or the path of the
file that holds it; the others are options, in any order around it. Short options may share a dash,
and an option with a value takes it from the rest of its own argument or from the next one. After
`--` no argument is an option.

## Shape of the reader

Arguments are read from left to right by `Reader.push`, and what has been read so far is all that
matters for the next one. Reading stops at once at a request for the version and at anything that is
not allowed, so the first of the two decides: an option that is given twice or is unknown, a value
where none is taken or the lack of one, and a second script. `Arguments.parse` requires a script at
the end.

A request for help is left out. Help is a page about the program and not one of its answers, so `-h`
and `--help` are unknown options here, and arguments with one of them are not allowed.
-/

namespace BoolScript.CommandLine

/-- What the arguments ask for. -/
structure Arguments where
  /-- The script, or the path of its file. -/
  contents : String
  /-- Whether the script is in a file. -/
  fromFile : Bool := false
  /-- What the script is read as. -/
  rule : Rule := .expression
  /-- Whether `not` negates its operand. -/
  negateOperand : Bool := false
  deriving DecidableEq, Repr, Inhabited

/-- Why arguments are not read to their end. -/
inductive Stop where
  /-- The version is asked for. -/
  | version
  /-- The arguments are not allowed. -/
  | misuse
  deriving DecidableEq, Repr, Inhabited

/-- The options without a value. The verbose switch is accepted and changes no result. -/
inductive Switch where
  | file
  | negateOperand
  | verbose
  | version
  deriving DecidableEq, Repr, Inhabited

/-- The options. -/
inductive Flag where
  | switch (switch : Switch)
  | rule
  deriving DecidableEq, Repr, Inhabited

/-- The option that a letter behind a single dash stands for. No letter stands for help. -/
def Flag.ofShort? : Char → Option Flag
  | 'f' => some (.switch .file)
  | 'r' => some .rule
  | 'v' => some (.switch .verbose)
  | 'V' => some (.switch .version)
  | _ => none

/-- The option that a word behind two dashes stands for. No word stands for help. -/
def Flag.ofLong? : String → Option Flag
  | "file" => some (.switch .file)
  | "rule" => some .rule
  | "negate-operand" => some (.switch .negateOperand)
  | "verbose" => some (.switch .verbose)
  | "version" => some (.switch .version)
  | _ => none

/-- The rule that a name stands for. -/
def ruleNamed? : String → Option Rule
  | "expression" => some .expression
  | "assignment" => some .assignment
  | "unary" => some .unary
  | "program" => some .program
  | _ => none

/-- How the next argument is to be taken. -/
inductive Expecting where
  /-- As an option, or else as the script. -/
  | anything
  /-- As the value of the rule option. -/
  | rule
  /-- As the script. -/
  | contents
  deriving DecidableEq, Repr, Inhabited

/-- Arguments read in part. -/
structure Reader where
  switches : List Switch := []
  rule : Option Rule := none
  contents : Option String := none
  expecting : Expecting := .anything
  deriving DecidableEq, Repr, Inhabited

namespace Reader

/-- Takes a switch, which may be given once. -/
def addSwitch (reader : Reader) (switch : Switch) : Except Stop Reader :=
  if switch = .version then .error .version
  else if switch ∈ reader.switches then .error .misuse
  else .ok { reader with switches := switch :: reader.switches }

/-- Takes the value of the rule option, which may be given once. -/
def setRule (reader : Reader) (name : String) : Except Stop Reader :=
  match reader.rule, ruleNamed? name with
  | none, some rule => .ok { reader with rule, expecting := .anything }
  | _, _ => .error .misuse

/-- Takes the script, which may be given once. -/
def setContents (reader : Reader) (contents : String) : Except Stop Reader :=
  match reader.contents with
  | none => .ok { reader with contents }
  | some _ => .error .misuse

/-- Reads the letters behind a single dash. What follows the letter of the rule option is its value,
with or without an equals sign in between. -/
def pushShort (reader : Reader) : List Char → Except Stop Reader
  | [] => .ok reader
  | letter :: rest =>
    match Flag.ofShort? letter with
    | some (.switch switch) => do (← reader.addSwitch switch).pushShort rest
    | some .rule =>
      match rest with
      | [] => .ok { reader with expecting := .rule }
      | '=' :: value => reader.setRule (String.ofList value)
      | value => reader.setRule (String.ofList value)
    | none => .error .misuse

/-- Reads what stands behind two dashes: the word of an option, and a value if an equals sign
follows the word. -/
def pushLong (reader : Reader) (text : List Char) : Except Stop Reader :=
  let word := String.ofList (text.takeWhile (· != '='))
  match Flag.ofLong? word, text.dropWhile (· != '=') with
  | some (.switch switch), [] => reader.addSwitch switch
  | some .rule, [] => .ok { reader with expecting := .rule }
  | some .rule, _ :: value => reader.setRule (String.ofList value)
  | _, _ => .error .misuse

/-- Reads one argument. A dash alone is not an option. -/
def push (reader : Reader) (argument : String) : Except Stop Reader :=
  match reader.expecting, argument.toList with
  | .contents, _ => reader.setContents argument
  | .rule, '-' :: _ :: _ => .error .misuse
  | .rule, _ => reader.setRule argument
  | .anything, ['-', '-'] => .ok { reader with expecting := .contents }
  | .anything, '-' :: '-' :: text => reader.pushLong text
  | .anything, '-' :: letter :: letters => reader.pushShort (letter :: letters)
  | .anything, _ => reader.setContents argument

/-- Behind `--` an argument is taken as the script, whatever it looks like. -/
theorem push_of_expecting_contents {reader : Reader} (h : reader.expecting = .contents)
    (argument : String) : reader.push argument = reader.setContents argument := by
  simp [push, h]

/-- What the arguments ask for if there are no more of them. -/
def finish (reader : Reader) : Except Stop Arguments :=
  match reader.expecting, reader.contents with
  | .rule, _ | _, none => .error .misuse
  | _, some contents =>
    .ok
      { contents
        fromFile := .file ∈ reader.switches
        rule := reader.rule.getD .expression
        negateOperand := .negateOperand ∈ reader.switches }

end Reader

/-- Reads the arguments of a command line. -/
def Arguments.parse (arguments : List String) : Except Stop Arguments :=
  arguments.foldlM Reader.push {} >>= Reader.finish

end BoolScript.CommandLine
