import BoolScript.CommandLine.Run
import BoolScript.Proofs.Selection

/-!
# Invocations are runs of scripts

Whatever the arguments select is run once, in a session that has no variables and reads the standard
input. The exit code and both outputs report this run and nothing else (`run_of_selects`), so two
invocations that select the same script, rule and mode do the same for every standard input. In
particular a script does in a file what it does among the arguments.

## Shape of the proof

The arguments of a selection are read as the selection, and the script is found there or in its file
(`finds_iff`). What is left of the run of the command line is the run of the script
(`run_eq_runScript`), and its three ends are told apart by `Reports`.
-/

namespace BoolScript.CommandLine

/-- The script is found, among the arguments or in the file that they name. -/
inductive Finds (readFile : String → Option (List UInt8)) (selected : Arguments) :
    String → Prop where
  | inline (h : selected.fromFile = false) : Finds readFile selected selected.contents
  | file {script : String} (h : selected.fromFile = true)
      (hr : readFile selected.contents = some (Text.encode script)) :
      Finds readFile selected script

/-- The end of a run of a script, and what is left of it outside. -/
inductive Reports : EStateM.Result ScriptError Session (Option Bool) → Exit → Prop where
  /-- The value is a line behind what the script wrote. -/
  | value (value : Bool) (after : Session) :
      Reports (.ok (some value) after)
        { code := 0
          stdout := after.console.output.written.toList ++
            Text.encode (Console.truthWord value ++ "\n")
          stderr := [] }
  /-- Without a value there is only what the script wrote. -/
  | nothing (after : Session) :
      Reports (.ok none after)
        { code := 0, stdout := after.console.output.written.toList, stderr := [] }
  /-- An error is a line of its own output. What the script wrote before stays. -/
  | error (error : ScriptError) (after : Session) :
      Reports (.error error after)
        { code := 1
          stdout := after.console.output.written.toList
          stderr := Text.encode (error.message ++ "\n") }

section

variable {readFile : String → Option (List UInt8)} {selected : Arguments} {script : String}

theorem finds_iff :
    Finds readFile selected script ↔ selected.script? readFile = some script := by
  unfold Arguments.script?
  constructor
  · rintro (h | ⟨h, hr⟩)
    · rw [h]
      rfl
    · rw [if_pos h, hr]
      exact Text.decode?_encode script
  · intro h
    split at h
    · next hf =>
      obtain ⟨bytes, hb, hd⟩ := Option.bind_eq_some_iff.1 h
      rw [← Text.decode?_eq_some_iff.1 hd] at hb
      exact .file hf hb
    · next hf =>
      obtain rfl := Option.some.inj h
      exact .inline (Bool.eq_false_iff.2 hf)

theorem reports_runScript (rule : Rule) (source : String) (session : Session) :
    Reports (Session.runScript rule source session) (runScript rule source session) := by
  unfold runScript
  cases h : Session.runScript rule source session with
  | ok value after =>
    cases value with
    | none => exact .nothing after
    | some value => exact .value value after
  | error error after => exact .error error after

variable {arguments : List String}

/-- An invocation is a run of the script that it selects. -/
theorem run_eq_runScript (hs : Selects arguments selected) (hf : Finds readFile selected script)
    (stdin : List UInt8) :
    run readFile stdin arguments = runScript selected.rule script (selected.session stdin) := by
  simp only [run, Arguments.parse_eq_ok_iff.2 hs, finds_iff.1 hf]

/-- Invocations of the same script, by the same rule and in the same mode, do the same. -/
theorem run_congr (hs : Selects arguments selected) (hf : Finds readFile selected script)
    {others : List String} {other : Arguments} {readOther : String → Option (List UInt8)}
    (hs' : Selects others other) (hf' : Finds readOther other script)
    (hr : other.rule = selected.rule) (hn : other.negateOperand = selected.negateOperand)
    (stdin : List UInt8) : run readOther stdin others = run readFile stdin arguments := by
  have hsession : other.session stdin = selected.session stdin := by
    simp only [Arguments.session, Arguments.notMode, hn]
  rw [run_eq_runScript hs hf, run_eq_runScript hs' hf', hr, hsession]

/-- Every script can be run from the arguments and from a file, to the same effect. -/
theorem run_spelled_file {path : String} (h : readFile path = some (Text.encode script))
    (rule : Rule) (negateOperand : Bool) (stdin : List UInt8) :
    run readFile stdin (Arguments.spelled ⟨path, true, rule, negateOperand⟩) =
      run readFile stdin (Arguments.spelled ⟨script, false, rule, negateOperand⟩) := by
  let inFile : Arguments := ⟨path, true, rule, negateOperand⟩
  let inline : Arguments := ⟨script, false, rule, negateOperand⟩
  have hf : Finds readFile inFile script := .file rfl h
  have hi : Finds readFile inline script := .inline rfl
  exact run_congr inline.selects_spelled hi inFile.selects_spelled hf rfl rfl stdin

/-- An invocation reports the run of its script in a fresh session on the standard input, in which
`not` negates its operand exactly if the arguments say so. Any other invocation that comes to the
same script, rule and mode has the same exit code and the same outputs, wherever its script is. -/
theorem run_of_selects (hs : Selects arguments selected) (hf : Finds readFile selected script) :
    (∀ stdin : List UInt8,
      let mode : NotMode := if selected.negateOperand then .operand else .operatorText
      Reports (Session.runScript selected.rule script ⟨.empty, mode, ⟨⟨stdin, 0, false⟩, {}⟩⟩)
        (run readFile stdin arguments)) ∧
      ∀ (others : List String) (other : Arguments) (readOther : String → Option (List UInt8)),
        Selects others other → Finds readOther other script → other.rule = selected.rule →
        other.negateOperand = selected.negateOperand →
        ∀ stdin : List UInt8, run readOther stdin others = run readFile stdin arguments := by
  refine ⟨fun stdin => ?_, fun others other readOther hs' hf' hr hn stdin =>
    run_congr hs hf hs' hf' hr hn stdin⟩
  rw [run_eq_runScript hs hf]
  exact reports_runScript selected.rule script (selected.session stdin)

/-- A program in a file, and the same program as an argument. -/
theorem run_of_selects_program_file :
    let folder : Folder := ⟨[("script.bool", Text.encode "print x; y not;")]⟩
    let inFile := ["-fr", "program", "script.bool", "--negate-operand"]
    let inline := ["--negate-operand", "--rule=program", "--", "print x; y not;"]
    let stdin := Text.encode "TRUE\r\nno\n"
    run folder.read? stdin inFile =
        { code := 0
          stdout := Text.encode "Введите значение x:\ntrue\nВведите значение y:\ntrue\n" } ∧
      run folder.read? stdin inline = run folder.read? stdin inFile ∧
      Reports
        (Session.runScript .program "print x; y not;" ⟨.empty, .operand, ⟨⟨stdin, 0, false⟩, {}⟩⟩)
        (run folder.read? stdin inFile) := by
  intro folder inFile inline stdin
  have hs : Selects inFile ⟨"script.bool", true, .program, true⟩ :=
    Arguments.parse_eq_ok_iff.1 (by decide +kernel)
  have hs' : Selects inline ⟨"print x; y not;", false, .program, true⟩ :=
    Arguments.parse_eq_ok_iff.1 (by decide +kernel)
  have hf : Finds folder.read? ⟨"script.bool", true, .program, true⟩ "print x; y not;" :=
    .file rfl (by decide +kernel)
  obtain ⟨hrun, hsame⟩ := run_of_selects hs hf
  exact ⟨by decide +kernel, hsame inline _ folder.read? hs' (.inline rfl) rfl rfl stdin, hrun stdin⟩

end

end BoolScript.CommandLine
