import BoolScript.Proofs.AlikeScripts
import BoolScript.Proofs.LineBreaks
import BoolScript.Proofs.UpFront

/-!
# A program may be run in parts

A program can be cut behind a semicolon and its parts run one after the other in the same session;
nobody can tell (`Session.runScript_joined`).

## Shape of the proof

Reading, scanning and evaluating all take one part after the other. The tokens of the second part
stand further on in the whole program, but that shows in positions only, and the trees of a script
mean the same wherever they stand. Statements are read one after the other (`Reading.program_append`)
unless the first part ends in an expression that lacks its semicolon, which might go on into the
second part.
-/

namespace BoolScript

/-! ## Reading -/

namespace Reading

/-- A program whose tokens end in a semicolon, or which has none, ends in a finished statement. -/
theorem ProgramDerivation.last_eq_none {d : ProgramDerivation}
    (h : ∀ token ∈ d.tokens.getLast?, token.kind = .semicolon) : d.last = none := by
  cases hl : d.last with
  | none => rfl
  | some last =>
    have hne := last.tokens_ne_nil
    have hlast : d.tokens.getLast? = some (last.tokens.getLast hne) := by
      rw [tokens, hl, Option.map_some, Option.getD_some, List.getLast?_append,
        List.getLast?_eq_some_getLast hne, Option.some_or]
    -- No token of an expression is a semicolon.
    exact absurd (h _ hlast) (last.kind_ne_semicolon _ (List.getLast_mem hne))

/-- Finished statements and a program behind them are a program. -/
theorem program_append {tokens more rest rest' : List Token} {trees others : List Expr}
    (h : program tokens = .ok trees rest) (hs : ∀ token ∈ tokens.getLast?, token.kind = .semicolon)
    (hm : program more = .ok others rest') :
    program (tokens ++ more) = .ok (trees ++ others) [] := by
  obtain ⟨d, rfl, rfl⟩ := ProgramDerivation.exists_of_program h
  obtain ⟨d', rfl, rfl⟩ := ProgramDerivation.exists_of_program hm
  have hd := ProgramDerivation.program_tokens ⟨d.statements ++ d'.statements, d'.last⟩
  simpa [ProgramDerivation.tokens, ProgramDerivation.trees, d.last_eq_none hs] using hd

/-- Tokens that are moved are the same words and symbols. -/
theorem forall₂_synonymous_moved (offset : Nat) (tokens : List Token) :
    List.Forall₂ Token.Synonymous tokens (tokens.map (Token.moved offset)) := by
  rw [List.forall₂_map_right_iff, List.forall₂_same]
  exact fun token _ => ⟨rfl, fun _ => rfl, rfl⟩

/-- A program is read wherever it stands. -/
theorem exists_program_moved {tokens rest : List Token} {trees : List Expr}
    (h : program tokens = .ok trees rest) (offset : Nat) :
    ∃ moved rest', program (tokens.map (Token.moved offset)) = .ok moved rest' ∧
      List.Forall₂ (Expr.Corresponds Token.Synonymous) trees moved := by
  have hc := corresponds_program keepsKinds_synonymous _ _ (forall₂_synonymous_moved offset tokens)
  rw [h] at hc
  generalize program (tokens.map (Token.moved offset)) = result at hc
  cases hc with
  | ok ht _ => exact ⟨_, _, rfl, ht⟩

end Reading

/-- Two programs on lines of their own are read as one, if the first one is finished. -/
theorem exists_parse_joined {source more : String} {tokens : List Token} {trees others : List Expr}
    (ht : tokenize source = .ok tokens) (hp : Rule.program.parse source = .ok trees)
    (hs : ∀ token ∈ tokens.getLast?, token.kind = .semicolon)
    (hm : Rule.program.parse more = .ok others) :
    ∃ moved, Rule.program.parse (source ++ "\n" ++ more) = .ok (trees ++ moved) ∧
      List.Forall₂ (Expr.Corresponds Token.Synonymous) others moved := by
  obtain ⟨_, _, ht', hr⟩ := Rule.parse_eq_ok_iff.1 hp
  obtain rfl : tokens = _ := Except.ok.inj (ht.symm.trans ht')
  obtain ⟨tokens', _, hm, hr'⟩ := Rule.parse_eq_ok_iff.1 hm
  obtain ⟨moved, _, hmoved, hc⟩ :=
    Reading.exists_program_moved hr' (source.utf8ByteSize + 1)
  exact ⟨moved, Rule.parse_of_reading_eq_ok (tokenize_joined ht hm)
    (Reading.program_append hr hs hmoved), hc⟩

/-! ## Evaluating -/

namespace Session

/-- What has been evaluated before matters only where nothing more is. -/
theorem run_evalAllFrom (mode : NotMode) (value : Option Bool) (trees : List Expr) :
    run (Expr.evalAllFrom mode value trees) = do
      let value' ← run (Expr.evalAll mode trees)
      return if trees.isEmpty then value else value' := by
  cases trees with
  | nil => rfl
  | cons tree trees => exact (bind_pure _).symm

/-- Trees are evaluated part by part. The value is that of the last tree, in whichever part it
is. -/
theorem evalAll_append (trees more : List Expr) :
    evalAll (trees ++ more) = do
      let value ← evalAll trees
      let value' ← evalAll more
      return if more.isEmpty then value else value' := by
  funext session
  rw [evalAll_eq, Expr.evalAll, Expr.evalAllFrom_append, run_bind]
  have hrun := runs_evalAll trees session
  cases h : evalAll trees session with
  | error error after =>
    rw [bind_of_error h]
    exact bind_of_error (evalAll_eq trees session ▸ h)
  | ok value middle =>
    -- The second part is evaluated in the mode that the first part has left as it was.
    rw [h] at hrun
    have hmode : middle.notMode = session.notMode := hrun.notMode
    rw [bind_of_ok h, bind_of_ok (evalAll_eq trees session ▸ h), run_evalAllFrom, ← hmode]
    exact bind_congr_apply (evalAll_eq more middle).symm

/-! ## Running -/

/-- Splitting a program is unobservable. If a program is finished, it does not matter whether
another one follows it in the same script, on a line of its own, or is run behind it in the same
session: the result, the variables, the mode and the console are the same, and so is the error if
one of them fails, with the session as it was then. The value is that of the second program unless
that one is empty. -/
theorem runScript_joined {source more : String} {tokens : List Token} {trees others : List Expr}
    (ht : tokenize source = .ok tokens) (hp : Rule.program.parse source = .ok trees)
    (hs : ∀ token ∈ tokens.getLast?, token.kind = .semicolon)
    (hm : Rule.program.parse more = .ok others) (session : Session) :
    runScript .program (source ++ "\n" ++ more) session =
      (do
        let value ← runScript .program source
        let value' ← runScript .program more
        return if others.isEmpty then value else value') session := by
  obtain ⟨moved, hj, hc⟩ := exists_parse_joined ht hp hs hm
  have hempty : moved.isEmpty = others.isEmpty := by cases hc <;> rfl
  have heval := evalAll_append trees moved
  cases h : evalAll trees session with
  | error error after =>
    rw [bind_of_error (runScript_of_error hp h)]
    exact runScript_of_error hj (by rw [heval, bind_of_error h])
  | ok value middle =>
    have hsame := evalAll_eq_of_corresponds hc (isSound_of_parse hm) middle
    rw [bind_of_ok (runScript_of_ok hp h)]
    cases h' : evalAll others middle with
    | error error after =>
      rw [bind_of_error (runScript_of_error hm h')]
      exact runScript_of_error hj (by rw [heval, bind_of_ok h, bind_of_error (hsame ▸ h')])
    | ok value' after =>
      rw [bind_of_ok (runScript_of_ok hm h'), ← hempty]
      exact runScript_of_ok hj (by rw [heval, bind_of_ok h, bind_of_ok (hsame ▸ h')]; rfl)

/-- The first program ends in a comment, and the second one asks for a name and prints its value. -/
theorem runScript_joined_behind_comment :
    let session : Session := ⟨.empty, .operatorText, ⟨⟨Text.encode "True\n", 0, false⟩, {}⟩⟩
    runScript .program ("x = true; // first" ++ "\n" ++ "print y; y xor x") session =
      (do
        let _ ← runScript .program "x = true; // first"
        runScript .program "print y; y xor x") session := by
  intro session
  have ht : tokenize "x = true; // first" =
      .ok [⟨.name, "x", 0⟩, ⟨.assign, "=", 2⟩, ⟨.trueWord, "true", 4⟩, ⟨.semicolon, ";", 8⟩] := rfl
  have hp : Rule.program.parse "x = true; // first" =
      .ok [.binary .assign (.var "x" 0) (.literal "true" 4) 2] := by decide +kernel
  have hm : Rule.program.parse "print y; y xor x" =
      .ok [.unary .print "print" (.var "y" 6) 0,
        .logical .xor (.var "y" 9) (.var "x" 15) 11] := by decide +kernel
  simpa using runScript_joined ht hp (by simp) hm session

end Session

end BoolScript
