import BoolScript.Proofs.UnknownCharacters

/-!
# Scanning behind a line break

A line break ends whatever is under way, a comment too, and the scanner then starts afresh. So the
text behind a line break is scanned as if nothing stood in front of it, except that its positions
count the bytes in front of it too (`Scanner.pushAll_behind`), and two scripts on lines of their own
have the tokens of the one and of the other (`tokenize_joined`).

## Shape of the proof

`Scanner.behind` puts other tokens in front of those of a scanner and moves its positions on. Each
step of the scanner does the same before and after the move, errors included; `Scanner.moving` says
so of a step's result.
-/

namespace BoolScript

/-- The token with some more bytes in front of it. -/
def Token.moved (offset : Nat) (token : Token) : Token :=
  { token with position := offset + token.position }

/-- The place with some more bytes in front of it. -/
def Location.moved (offset : Nat) : Location → Location
  | position start => position (offset + start)
  | endOfInput => endOfInput

/-- The error with some more bytes in front of the script. -/
def SyntaxError.moved (offset : Nat) : SyntaxError → SyntaxError
  | expected kinds location => expected kinds (location.moved offset)
  | expectedOperand location => expectedOperand (location.moved offset)
  | unknownCharacter text position => unknownCharacter text (offset + position)

namespace Scanner

/-- What is under way, with some more bytes in front of it. -/
def Mode.moved (offset : Nat) : Mode → Mode
  | gap => gap
  | word start letters => word (offset + start) letters
  | slash start => slash (offset + start)
  | comment => comment

/-- The scanner with other tokens in front of its own, and some more bytes in front of all it has
read. -/
def behind (front : Array Token) (offset : Nat) (s : Scanner) : Scanner :=
  ⟨front ++ s.tokens.map (Token.moved offset), offset + s.position, s.mode.moved offset⟩

/-- The result of a step with some more bytes in front of it. -/
def moving {α β : Type} (offset : Nat) (move : α → β) : Except SyntaxError α → Except SyntaxError β
  | .ok answer => .ok (move answer)
  | .error error => .error (error.moved offset)

section

variable {front : Array Token} {offset : Nat}

/-- Moving goes on with what the first step answers. -/
theorem moving_bind {α β γ δ : Type} {step : Except SyntaxError α} {next : α → Except SyntaxError β}
    {move : α → γ} {move' : β → δ} {next' : γ → Except SyntaxError δ}
    (h : ∀ answer, next' (move answer) = moving offset move' (next answer)) :
    (moving offset move step >>= next') = moving offset move' (step >>= next) := by
  cases step with
  | ok answer => exact h answer
  | error error => rfl

theorem moved_wordToken (start : Nat) (letters : List Char) :
    (wordToken start letters).moved offset = wordToken (offset + start) letters := rfl

theorem push_moved (tokens : Array Token) (token : Token) :
    (front ++ tokens.map (Token.moved offset)).push (token.moved offset) =
      front ++ (tokens.push token).map (Token.moved offset) := by
  rw [Array.map_push, Array.append_push]

theorem begin_behind (tokens : Array Token) (position : Nat) (c : Char) :
    begin (front ++ tokens.map (Token.moved offset)) (offset + position) c =
      moving offset (behind front offset) (begin tokens position c) := by
  have hp : offset + position + c.utf8Size = offset + (position + c.utf8Size) := Nat.add_assoc ..
  unfold begin
  dsimp only
  rw [hp]
  split
  · rfl
  · split
    · rfl
    · split
      · rfl
      · cases symbolKind? c with
        | none => rfl
        | some kind => simp only [moving, behind, Mode.moved, ← push_moved, Token.moved]

/-- One character does the same behind other tokens. -/
theorem push_behind (s : Scanner) (c : Char) :
    (s.behind front offset).push c = moving offset (behind front offset) (s.push c) := by
  obtain ⟨tokens, position, mode⟩ := s
  have hp : offset + position + c.utf8Size = offset + (position + c.utf8Size) := Nat.add_assoc ..
  cases mode with
  | gap => exact begin_behind tokens position c
  | word start letters =>
    simp only [push, behind, Mode.moved]
    split
    · rw [hp]
      rfl
    · rw [← moved_wordToken, push_moved]
      exact begin_behind _ position c
  | slash start =>
    simp only [push, behind, Mode.moved]
    split
    · rw [hp]
      rfl
    · rfl
  | comment =>
    simp only [push, behind, Mode.moved]
    split
    · exact begin_behind tokens position c
    · rw [hp]
      rfl

/-- A text is scanned in the same way behind other tokens. -/
theorem pushAll_behind (s : Scanner) (text : List Char) :
    (s.behind front offset).pushAll text = moving offset (behind front offset) (s.pushAll text) := by
  induction text generalizing s with
  | nil => rfl
  | cons c text ih =>
    rw [pushAll_cons, pushAll_cons, push_behind]
    exact moving_bind ih

theorem finish_behind (s : Scanner) :
    (s.behind front offset).finish =
      moving offset (fun tokens => front.toList ++ tokens.map (Token.moved offset)) s.finish := by
  obtain ⟨tokens, position, mode⟩ := s
  cases mode with
  | word start letters =>
    simp only [finish, behind, Mode.moved, moving]
    rw [← moved_wordToken, push_moved, Array.toList_append, Array.toList_map]
  | slash start => rfl
  | gap | comment =>
    simp only [finish, behind, Mode.moved, moving, Array.toList_append, Array.toList_map]

end

/-- In front of a line break a text might as well end: the tokens are complete or there is an error,
and nothing is under way behind it. -/
theorem push_lineBreak (s : Scanner) {c : Char} (hc : Text.isLineBreak c = true) :
    s.push c = s.finish >>= fun tokens => .ok (start.behind tokens.toArray (s.position + 1)) := by
  have hb : c ∈ blanks := mem_blanks_of_isLineBreak hc
  have hsize : c.utf8Size = 1 ∧ (c == '/') = false := by
    simp only [Text.isLineBreak, Bool.or_eq_true, beq_iff_eq] at hc
    rcases hc with rfl | rfl <;> exact ⟨rfl, rfl⟩
  by_cases hm : ∃ start, s.mode = .slash start
  · obtain ⟨first, hm⟩ := hm
    simp [push, finish, hm, hsize.2, Bind.bind, Except.bind]
  · rw [not_exists] at hm
    have hstops : s.Stops c := by
      unfold Stops
      split
      · trivial
      · exact not_isWordPart_of_mem_blanks hb
      · next first hs => exact hm first hs
      · exact hc
    rw [push_of_stops hstops, begin_blank hb, finish_of_not_slash hm, hsize.1]
    simp [behind, start, Mode.moved, Bind.bind, Except.bind]

/-- What stands behind a line break is scanned apart from what stands in front of it. -/
theorem pushAll_lineBreak (s : Scanner) {c : Char} (hc : Text.isLineBreak c = true)
    (more : List Char) :
    s.pushAll (c :: more) >>= finish =
      s.finish >>= fun tokens =>
        moving (s.position + 1)
          (fun others => tokens ++ others.map (Token.moved (s.position + 1)))
          (start.pushAll more >>= finish) := by
  rw [pushAll_cons, push_lineBreak s hc]
  cases s.finish with
  | error error => rfl
  | ok tokens =>
    change (start.behind tokens.toArray (s.position + 1)).pushAll more >>= finish = moving _ _ _
    rw [pushAll_behind, moving_bind finish_behind]

end Scanner

/-- Two scripts on lines of their own are scanned one after the other. The positions in the second
one count the bytes in front of it too. -/
theorem tokenize_append_lineBreak (source more : String) {c : Char}
    (hc : Text.isLineBreak c = true) :
    tokenize (source ++ c.toString ++ more) =
      tokenize source >>= fun tokens =>
        Scanner.moving (source.utf8ByteSize + 1)
          (fun others => tokens ++ others.map (Token.moved (source.utf8ByteSize + 1)))
          (tokenize more) := by
  cases hs : Scanner.start.pushAll source.toList with
  | error error =>
    rw [tokenize, tokenize, Text.toList_around, Scanner.pushAll_append, hs]
    rfl
  | ok s =>
    rw [tokenize_of_pushAll hs, tokenize, Text.toList_around, Scanner.pushAll_append_of_ok hs,
      s.pushAll_lineBreak hc, Scanner.position_of_pushAll_start hs]
    rfl

/-- Two scripts on lines of their own have the tokens of both, and those of the second one are
moved by the bytes in front of it. -/
theorem tokenize_joined {source more : String} {tokens others : List Token}
    (h : tokenize source = .ok tokens) (hm : tokenize more = .ok others) :
    tokenize (source ++ "\n" ++ more) =
      .ok (tokens ++ others.map (Token.moved (source.utf8ByteSize + 1))) := by
  have hjoined := tokenize_append_lineBreak source more (c := '\n') (by decide)
  rw [h, hm] at hjoined
  exact hjoined

/-- Scanning distributes over a line break, whatever is under way in front of it. A failure of the
first script is one of the whole. Otherwise the whole has the tokens of the first script and behind
them those of the second, or it fails as the second does, with all positions in the second script
moved on by the bytes of the first and the line break. -/
theorem tokenize_distributes_over_lineBreak (source more : String) {c : Char}
    (hc : c = '\r' ∨ c = '\n') :
    (∀ error, tokenize source = .error error →
      tokenize (source ++ c.toString ++ more) = .error error) ∧
    ∀ tokens, tokenize source = .ok tokens →
      (∀ others, tokenize more = .ok others →
        tokenize (source ++ c.toString ++ more) =
          .ok (tokens ++ others.map (Token.moved (source.utf8ByteSize + 1)))) ∧
      ∀ error, tokenize more = .error error → ∃ text position,
        error = .unknownCharacter text position ∧
        tokenize (source ++ c.toString ++ more) =
          .error (.unknownCharacter text (source.utf8ByteSize + 1 + position)) := by
  have hbreak : Text.isLineBreak c = true := by
    rcases hc with rfl | rfl <;> decide
  have hjoined := tokenize_append_lineBreak source more hbreak
  refine ⟨fun error h => ?_, fun tokens h => ⟨fun others hm => ?_, fun error hm => ?_⟩⟩
  · rw [hjoined, h]
    rfl
  · rw [hjoined, h, hm]
    rfl
  · obtain ⟨_, c', _, -, -, rfl⟩ := exists_isUnknown hm
    refine ⟨_, _, rfl, ?_⟩
    rw [hjoined, h, hm]
    rfl

/-- The first script ends in a comment with a letter of two bytes, and the second one fails. -/
theorem tokenize_distributes_over_lineBreak_behind_comment :
    tokenize "x // ü" = .ok [⟨.name, "x", 0⟩] ∧
      tokenize "or 1" = .error (.unknownCharacter "1" 3) ∧
      tokenize ("x // ü" ++ '\r'.toString ++ "or 1") = .error (.unknownCharacter "1" 11) := by
  have hsource : tokenize "x // ü" = .ok [⟨.name, "x", 0⟩] := by decide +kernel
  have hmore : tokenize "or 1" = .error (.unknownCharacter "1" 3) := by decide +kernel
  obtain ⟨-, hsecond⟩ := tokenize_distributes_over_lineBreak "x // ü" "or 1" (c := '\r') (.inl rfl)
  obtain ⟨-, hfails⟩ := hsecond _ hsource
  obtain ⟨text, position, he, hjoined⟩ := hfails _ hmore
  cases he
  exact ⟨hsource, hmore, hjoined⟩

end BoolScript
