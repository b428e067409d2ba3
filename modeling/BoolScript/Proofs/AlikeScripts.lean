import BoolScript.Proofs.Correspondence
import BoolScript.Proofs.SoundTrees
import BoolScript.Proofs.Tokenization

/-!
# Only kinds and names matter

Scripts that have tokens of the same kinds, with the same names among them, do the same. They may be
laid out differently, with other comments, and with keywords and truth words in another letter case;
of all this nothing can be told from a run, but for the position that a syntax error names.

## Shape of the proof

Tokens of scripts that are of one kind have one text in some letter case, names apart, so alike
tokens mean the same (`Token.Synonymous`). Reading takes synonymous tokens to corresponding trees.
Corresponding trees have the same action if they are sound, and those of a script are: only a fault
could show where a node stands or in which letter case it is written.
-/

namespace BoolScript

/-! ## Tokens -/

/-- Tokens of one kind that are the same name if they are names. -/
def Token.Alike (token token' : Token) : Prop :=
  token.kind = token'.kind ∧ (token.kind = .name → token.text = token'.text)

/-- Tokens of one kind whose texts differ in letter case at most, and in nothing if they are
names. -/
structure Token.Synonymous (token token' : Token) : Prop where
  kind : token.kind = token'.kind
  name : token.kind = .name → token.text = token'.text
  folded : Text.folded token.text = Text.folded token'.text

theorem keepsKinds_synonymous : KeepsKinds Token.Synonymous :=
  fun _ _ h => h.kind

/-- Alike tokens that have texts of their kinds are synonymous. -/
theorem Token.Alike.synonymous {token token' : Token} (h : token.Alike token')
    (hl : IsLexeme token.kind token.text) (hl' : IsLexeme token'.kind token'.text) :
    token.Synonymous token' := by
  obtain ⟨hk, hn⟩ := h
  refine ⟨hk, hn, ?_⟩
  by_cases hname : token.kind = .name
  · rw [hn hname]
  · rw [← hk] at hl'
    exact hl.folded_eq hl' hname

theorem forall₂_synonymous {tokens tokens' : List Token}
    (h : List.Forall₂ Token.Alike tokens tokens')
    (hl : ∀ token ∈ tokens, IsLexeme token.kind token.text)
    (hl' : ∀ token ∈ tokens', IsLexeme token.kind token.text) :
    List.Forall₂ Token.Synonymous tokens tokens' := by
  induction h with
  | nil => exact .nil
  | cons ht h ih =>
    rw [List.forall_mem_cons] at hl hl'
    exact .cons (ht.synonymous hl.1 hl'.1) (ih hl.2 hl'.2)

/-! ## Trees -/

namespace Expr

/-- A sound tree has the same action as a tree of synonymous tokens. -/
theorem Corresponds.eval_eq {tree tree' : Expr} (h : Corresponds Token.Synonymous tree tree')
    (hs : tree.IsSound) (mode : NotMode) : tree.eval mode = tree'.eval mode := by
  induction h with
  | literal h hk =>
    obtain ⟨value, hv⟩ := hs
    rw [eval_literal, eval_literal, literalValue, literalValue, ← Text.truth?_congr h.folded, hv]
  | var h hk => rw [eval_var, eval_var, h.name hk]
  | logical h hk hl hr ihl ihr => rw [eval_logical, eval_logical, ihl hs.1, ihr hs.2]
  | assign h hk ht hv iht ihv =>
    obtain ⟨⟨name, htarget⟩, hvalue⟩ := hs
    cases ht with
    | var ht hn => rw [eval_assign, eval_assign, ihv hvalue, ht.name hn]
    | literal | logical | assign | print | not => cases htarget
  | print h hk ho ih => rw [eval_print, eval_print, ih hs]
  | not h hk ho ih =>
    cases mode with
    | operatorText =>
      rw [eval_not_operatorText, eval_not_operatorText, Text.isTrue_congr h.folded]
    | operand => rw [eval_not_operand, eval_not_operand, ih hs]

theorem evalAllFrom_eq_of_corresponds {trees trees' : List Expr}
    (h : List.Forall₂ (Corresponds Token.Synonymous) trees trees')
    (hs : ∀ tree ∈ trees, tree.IsSound) (mode : NotMode) (value : Option Bool) :
    evalAllFrom mode value trees = evalAllFrom mode value trees' := by
  induction h generalizing value with
  | nil => rfl
  | cons ht h ih =>
    rw [List.forall_mem_cons] at hs
    rw [evalAllFrom_cons, evalAllFrom_cons, ht.eval_eq hs.1]
    simp only [ih hs.2]

end Expr

/-! ## Scripts -/

namespace Session

theorem evalAll_eq_of_corresponds {trees trees' : List Expr}
    (h : List.Forall₂ (Expr.Corresponds Token.Synonymous) trees trees')
    (hs : ∀ tree ∈ trees, tree.IsSound) (session : Session) :
    evalAll trees session = evalAll trees' session := by
  rw [evalAll, evalAll, get_bind_apply, get_bind_apply, Expr.evalAll, Expr.evalAll,
    Expr.evalAllFrom_eq_of_corresponds h hs]

/-- Outcomes that are the same, except that a syntax error names the same token in each list, or the
end of both. -/
inductive SameOutcome (tokens tokens' : List Token) :
    EStateM.Result ScriptError Session (Option Bool) →
    EStateM.Result ScriptError Session (Option Bool) → Prop where
  | ok (value : Option Bool) (after : Session) :
    SameOutcome tokens tokens' (.ok value after) (.ok value after)
  | failed (error : EvalError) (after : Session) :
    SameOutcome tokens tokens' (.error (.failed error) after) (.error (.failed error) after)
  | refused (index : Nat) {error error' : SyntaxError} (after : Session)
    (he : SyntaxError.SameAt (.ofTokens (tokens.drop index)) (.ofTokens (tokens'.drop index))
      error error') :
    SameOutcome tokens tokens' (.error (.refused error) after) (.error (.refused error') after)

/-- Only the kinds of the tokens and the names among them matter. Scripts that have the same kinds
of tokens in the same order, with the same names, have the same outcome by every rule and in every
session: the same value or the same failure, with the same variables and the same console after it,
or syntax errors that require the same at corresponding tokens. -/
theorem runScript_of_alike {source source' : String} {tokens tokens' : List Token}
    (ht : tokenize source = .ok tokens) (ht' : tokenize source' = .ok tokens')
    (ha : List.Forall₂ Token.Alike tokens tokens') (rule : Rule) (session : Session) :
    SameOutcome tokens tokens' (runScript rule source session)
      (runScript rule source' session) := by
  have hsame := forall₂_synonymous ha (isLexeme_of_mem_tokenize ht) (isLexeme_of_mem_tokenize ht')
  have hread := rule.corresponds_reading keepsKinds_synonymous _ _ hsame
  have hsuffix := rule.trims_reading tokens
  have hsuffix' := rule.trims_reading tokens'
  generalize hr : rule.reading tokens = result, hr' : rule.reading tokens' = result'
    at hread hsuffix hsuffix'
  cases hread with
  | @ok trees trees' _ _ htrees _ =>
    have hp := Rule.parse_of_reading_eq_ok ht hr
    have hp' := Rule.parse_of_reading_eq_ok ht' hr'
    have heval := evalAll_eq_of_corresponds htrees (isSound_of_parse hp) session
    cases h : evalAll trees session with
    | ok value after =>
      rw [runScript_of_ok hp h, runScript_of_ok hp' (heval ▸ h)]
      exact .ok value after
    | error error after =>
      rw [runScript_of_error hp h, runScript_of_error hp' (heval ▸ h)]
      exact .failed error after
  | @error error error' rest rest' he hleft =>
    rw [runScript_of_parse_eq_error (Rule.parse_of_reading_eq_error ht hr),
      runScript_of_parse_eq_error (Rule.parse_of_reading_eq_error ht' hr')]
    obtain ⟨index, rfl, rfl⟩ := Reading.exists_drop_eq hsame hleft hsuffix hsuffix'
    exact .refused index session he

/-- The same program in another layout and letter case, with another comment. -/
theorem runScript_of_alike_layout :
    let tokens : List Token :=
      [⟨.name, "x", 0⟩, ⟨.assign, "=", 2⟩, ⟨.trueWord, "TRUE", 4⟩, ⟨.semicolon, ";", 8⟩,
        ⟨.print, "print", 18⟩, ⟨.name, "Y", 24⟩, ⟨.semicolon, ";", 25⟩]
    let tokens' : List Token :=
      [⟨.name, "x", 1⟩, ⟨.assign, "=", 2⟩, ⟨.trueWord, "true", 3⟩, ⟨.semicolon, ";", 8⟩,
        ⟨.print, "PRINT", 9⟩, ⟨.name, "Y", 15⟩, ⟨.semicolon, ";", 20⟩]
    let session : Session := ⟨.empty, .operatorText, ⟨⟨Text.encode "True\nno", 0, false⟩, {}⟩⟩
    SameOutcome tokens tokens' (runScript .program "x = TRUE; // once\nprint Y;" session)
      (runScript .program "\tx=true\n;PRINT Y//;\n;" session) := by
  intro tokens tokens' session
  have ha : List.Forall₂ Token.Alike tokens tokens' := by simp [tokens, tokens', Token.Alike]
  exact runScript_of_alike rfl rfl ha .program session

end Session

end BoolScript
