import BoolScript.Proofs.Tiling
import BoolScript.Token.Scanner

/-!
# Tiles are scanned

The tokens of a tiling are the tokens that the scanner finds in the script (`Tiling.tokenize_eq`).

## Shape of the proof

In front of a character that ends what is under way, a scanner looks at the character afresh,
whatever it was in the middle of (`Scanner.push_of_stops`). From there a gap leaves no token
(`Scanner.exists_pushAll_gap`), and the text of a token leaves this token. So a scanner that has
just read some tiles reads the next one too (`Scanner.Settled.exists_pushAll_tile`), and all of them
one after the other. That two words do not touch is needed where a word is under way: it would go on
into the next one.
-/

namespace BoolScript

/-- The characters are a gap whatever stands behind them: no comment is under way in the end. -/
def IsClosedGap (gap : List Char) : Prop :=
  ∀ behind, IsGap behind gap

theorem isClosedGap_nil : IsClosedGap [] :=
  fun _ => .nil

theorem IsClosedGap.blank {gap : List Char} (h : IsClosedGap gap) {c : Char} (hc : c ∈ blanks) :
    IsClosedGap (gap ++ [c]) :=
  fun behind => (h ([c] ++ behind)).append (.blank hc .nil)

/-- A comment may be under way at the end of a script. -/
theorem IsClosedGap.comment {gap text : List Char} (h : IsClosedGap gap)
    (ht : ∀ c ∈ text, Text.isLineBreak c = false) : IsGap [] (gap ++ '/' :: '/' :: text) := by
  refine (h _).append ?_
  have := @IsGap.comment [] _ _ ht (by simp) .nil
  rwa [List.append_nil] at this

theorem mem_blanks_of_isLineBreak {c : Char} (h : Text.isLineBreak c = true) : c ∈ blanks := by
  simp only [Text.isLineBreak, Bool.or_eq_true, beq_iff_eq] at h
  rcases h with rfl | rfl <;> decide

/-- A line break ends a comment. -/
theorem IsClosedGap.comment_lineBreak {gap text : List Char} (h : IsClosedGap gap)
    (ht : ∀ c ∈ text, Text.isLineBreak c = false) {c : Char} (hc : Text.isLineBreak c = true) :
    IsClosedGap (gap ++ '/' :: '/' :: text ++ [c]) := by
  intro behind
  rw [List.append_assoc]
  exact (h _).append (.comment ht (by simpa using hc) (.blank (mem_blanks_of_isLineBreak hc) .nil))

namespace Scanner

theorem position_pushAll {s next : Scanner} {text : List Char} (h : s.pushAll text = .ok next) :
    next.position = s.position + Text.byteSize text := by
  induction text generalizing s with
  | nil =>
    cases h
    simp
  | cons c text ih =>
    obtain ⟨middle, hp, h⟩ := pushAll_cons_eq_ok_iff.1 h
    rw [ih h, position_push hp, Text.byteSize_cons]
    omega

/-- The position of a scanner that has read a whole text counts the bytes of the text. -/
theorem position_of_pushAll_start {source : String} {s : Scanner}
    (h : start.pushAll source.toList = .ok s) : s.position = source.utf8ByteSize := by
  rw [position_pushAll h]
  simp [start, Text.byteSize]

theorem pushAll_cons_of_ok {s middle : Scanner} {c : Char} (h : s.push c = .ok middle)
    (text : List Char) : s.pushAll (c :: text) = middle.pushAll text := by
  rw [pushAll_cons, h]
  rfl

theorem pushAll_append_of_ok {s middle : Scanner} {text : List Char}
    (h : s.pushAll text = .ok middle) (more : List Char) :
    s.pushAll (text ++ more) = middle.pushAll more := by
  rw [pushAll_append, h]
  rfl

/-! ## Characters looked at afresh -/

/-- The tokens that are complete if nothing more comes. -/
def completed (s : Scanner) : Array Token :=
  match s.mode with
  | .word start letters => s.tokens.push (wordToken start letters)
  | .gap | .slash _ | .comment => s.tokens

theorem completed_of_word {s : Scanner} {start : Nat} {letters : List Char}
    (h : s.mode = .word start letters) :
    s.completed = s.tokens.push (wordToken start letters) := by
  rw [completed, h]

theorem finish_of_not_slash {s : Scanner} (h : ∀ start, s.mode ≠ .slash start) :
    s.finish = .ok s.completed.toList := by
  unfold finish completed
  split <;> simp_all

/-- What is under way ends in front of this character. -/
def Stops (s : Scanner) (c : Char) : Prop :=
  match s.mode with
  | .gap => True
  | .word _ _ => isWordPart c = false
  | .slash _ => False
  | .comment => Text.isLineBreak c = true

/-- A character in front of which everything ends is looked at afresh. -/
theorem push_of_stops {s : Scanner} {c : Char} (h : s.Stops c) :
    s.push c = begin s.completed s.position c := by
  obtain ⟨tokens, position, mode⟩ := s
  match mode, h with
  | .gap, _ => rfl
  | .word start letters, h =>
    have hp : isWordPart c = false := h
    simp [push, completed, hp]
  | .comment, h =>
    have hb : (c == '\r' || c == '\n') = true := h
    simp [push, completed, hb]

/-- A character ends what is under way and is looked at afresh, or it becomes part of it. -/
theorem push_cases {s next : Scanner} {c : Char} (h : s.push c = .ok next) :
    (s.Stops c ∧ begin s.completed s.position c = .ok next) ∨
    (∃ start letters, s.mode = .word start letters ∧ isWordPart c = true ∧
      next = ⟨s.tokens, s.position + c.utf8Size, .word start (c :: letters)⟩) ∨
    (∃ start, s.mode = .slash start ∧ c = '/' ∧
      next = ⟨s.tokens, s.position + c.utf8Size, .comment⟩) ∨
    s.mode = .comment ∧ Text.isLineBreak c = false ∧
      next = ⟨s.tokens, s.position + c.utf8Size, .comment⟩ := by
  by_cases hs : s.Stops c
  · exact .inl ⟨hs, push_of_stops hs ▸ h⟩
  right
  obtain ⟨tokens, position, mode⟩ := s
  cases mode with
  | gap => exact absurd trivial hs
  | word start letters =>
    have hc : isWordPart c = true := by simpa [Stops] using hs
    simp only [push, hc, if_true] at h
    exact .inl ⟨start, letters, rfl, hc, (Except.ok.inj h).symm⟩
  | slash start =>
    unfold push at h
    dsimp only at h
    split at h
    · next hc => exact .inr (.inl ⟨start, rfl, by simpa using hc, (Except.ok.inj h).symm⟩)
    · cases h
  | comment =>
    have hc : Text.isLineBreak c = false := by simpa [Stops] using hs
    have hb : (c == '\r' || c == '\n') = false := hc
    simp only [push, hb, Bool.false_eq_true, if_false] at h
    exact .inr (.inr ⟨rfl, hc, (Except.ok.inj h).symm⟩)

theorem begin_blank {c : Char} (h : c ∈ blanks) (tokens : Array Token) (position : Nat) :
    begin tokens position c = .ok ⟨tokens, position + c.utf8Size, .gap⟩ := by
  rw [begin, if_pos (isBlank_iff.2 h)]

theorem not_isWordPart_of_mem_blanks {c : Char} (h : c ∈ blanks) : isWordPart c = false := by
  have hall : blanks.all (fun c => !isWordPart c) = true := by decide
  simpa using List.all_eq_true.1 hall c h

theorem begin_wordStart {c : Char} (h : isWordStart c = true) (tokens : Array Token)
    (position : Nat) :
    begin tokens position c = .ok ⟨tokens, position + c.utf8Size, .word position [c]⟩ := by
  have hb : isBlank c = false := by
    rw [Bool.eq_false_iff]
    intro hb
    have := not_isWordPart_of_mem_blanks (isBlank_iff.1 hb)
    rw [isWordPart_of_isWordStart h] at this
    cases this
  rw [begin, if_neg (by simp [hb]), if_pos h]

theorem begin_slash (tokens : Array Token) (position : Nat) :
    begin tokens position '/' = .ok ⟨tokens, position + 1, .slash position⟩ := rfl

theorem begin_symbol {c : Char} {kind : Kind} (h : (c, kind) ∈ symbols) (tokens : Array Token)
    (position : Nat) :
    begin tokens position c =
      .ok ⟨tokens.push ⟨kind, c.toString, position⟩, position + c.utf8Size, .gap⟩ := by
  have hs := symbolKind?_eq_some_iff.2 h
  have hall : ∀ entry ∈ symbols,
      isBlank entry.1 = false ∧ isWordStart entry.1 = false ∧ (entry.1 == '/') = false := by decide
  obtain ⟨hb, hw, hd⟩ := hall _ h
  rw [begin, if_neg (by simp [hb]), if_neg (by simp [hw]), if_neg (by simp [hd]), hs]

theorem not_isWordPart_of_mem_symbols {c : Char} {kind : Kind} (h : (c, kind) ∈ symbols) :
    isWordPart c = false := by
  have hall : ∀ entry ∈ symbols, isWordPart entry.1 = false := by decide
  exact hall _ h

/-! ## Tiles are scanned -/

/-- The characters of a comment leave a comment under way. -/
theorem pushAll_comment {text : List Char} (ht : ∀ c ∈ text, Text.isLineBreak c = false)
    (tokens : Array Token) (position : Nat) :
    ∃ after, pushAll ⟨tokens, position, .comment⟩ text = .ok after ∧ after.tokens = tokens ∧
      after.mode = .comment := by
  induction text generalizing position with
  | nil => exact ⟨_, rfl, rfl, rfl⟩
  | cons c text ih =>
    obtain ⟨hc, ht⟩ := List.forall_mem_cons.1 ht
    have hb : (c == '\r' || c == '\n') = false := hc
    have hp : push ⟨tokens, position, .comment⟩ c =
        .ok ⟨tokens, position + c.utf8Size, .comment⟩ := by simp [push, hb]
    obtain ⟨after, ha, hk, hm⟩ := ih ht (position + c.utf8Size)
    exact ⟨after, (pushAll_cons_of_ok hp text).trans ha, hk, hm⟩

/-- The characters of a word leave a word under way. -/
theorem pushAll_wordParts {text : List Char} (ht : ∀ c ∈ text, isWordPart c = true)
    (tokens : Array Token) (position start : Nat) (letters : List Char) :
    ∃ after, pushAll ⟨tokens, position, .word start letters⟩ text = .ok after ∧
      after.tokens = tokens ∧ after.mode = .word start (text.reverse ++ letters) := by
  induction text generalizing position letters with
  | nil => exact ⟨_, rfl, rfl, rfl⟩
  | cons c text ih =>
    obtain ⟨hc, ht⟩ := List.forall_mem_cons.1 ht
    have hp : push ⟨tokens, position, .word start letters⟩ c =
        .ok ⟨tokens, position + c.utf8Size, .word start (c :: letters)⟩ := by simp [push, hc]
    obtain ⟨after, ha, hk, hm⟩ := ih ht (position + c.utf8Size) (c :: letters)
    exact ⟨after, (pushAll_cons_of_ok hp text).trans ha, hk, by simp [hm]⟩

/-- A gap adds no token. Behind it nothing is under way, unless the gap is empty or ends in a
comment that the next character ends. -/
theorem exists_pushAll_gap {behind gap : List Char} (h : IsGap behind gap) {s : Scanner}
    (hs : ∀ c ∈ gap.head?, s.Stops c) :
    ∃ after, s.pushAll gap = .ok after ∧ after.completed = s.completed ∧
      (gap = [] ∧ after = s ∨ after.mode = .gap ∨
        after.mode = .comment ∧ ∀ c ∈ behind.head?, Text.isLineBreak c = true) := by
  induction h generalizing s with
  | nil => exact ⟨s, rfl, rfl, .inl ⟨rfl, rfl⟩⟩
  | @blank c gap hc _ ih =>
    have hp : s.push c = .ok ⟨s.completed, s.position + c.utf8Size, .gap⟩ :=
      (push_of_stops (hs c rfl)).trans (begin_blank hc _ _)
    obtain ⟨after, ha, hk, hm⟩ :=
      @ih ⟨s.completed, s.position + c.utf8Size, .gap⟩ fun _ _ => trivial
    refine ⟨after, (pushAll_cons_of_ok hp gap).trans ha, hk, .inr ?_⟩
    rcases hm with ⟨-, rfl⟩ | hm
    · exact .inl rfl
    · exact hm
  | @comment text gap ht he _ ih =>
    have hp : s.push '/' = .ok ⟨s.completed, s.position + 1, .slash s.position⟩ :=
      (push_of_stops (hs '/' rfl)).trans (begin_slash _ _)
    obtain ⟨middle, hmid, htok, hmode⟩ := pushAll_comment ht s.completed (s.position + 1 + 1)
    have hk : middle.completed = s.completed := by simp [completed, hmode, htok]
    have hstart : s.pushAll ('/' :: '/' :: text) = .ok middle := by
      rw [pushAll_cons_of_ok hp]
      exact hmid
    have hstops : ∀ c ∈ gap.head?, middle.Stops c := by
      intro c hc
      have : Text.isLineBreak c = true := he c (by cases gap <;> simp_all)
      simpa [Stops, hmode] using this
    obtain ⟨after, ha, hka, hm⟩ := ih hstops
    refine ⟨after, (pushAll_append_of_ok hstart gap).trans ha, hka.trans hk, .inr ?_⟩
    rcases hm with ⟨rfl, rfl⟩ | hm
    · exact .inr ⟨hmode, he⟩
    · exact hm

/-- A gap starts with no part of a word. -/
theorem not_isWordPart_of_isGap {behind gap : List Char} (h : IsGap behind gap) :
    ∀ c ∈ gap.head?, isWordPart c = false := by
  cases h with
  | nil => simp
  | blank hc => simpa using not_isWordPart_of_mem_blanks hc
  | comment => simp; decide

/-- No line break starts a token. -/
theorem head?_of_isLexeme {kind : Kind} {text : String} (h : IsLexeme kind text) :
    ∃ c ∈ text.toList.head?, Text.isLineBreak c = false := by
  rcases isLexeme_iff.1 h with ⟨⟨first, rest, ht, hf, -⟩, -⟩ | ⟨c, hc, rfl⟩
  · refine ⟨first, by simp [ht], ?_⟩
    rw [Bool.eq_false_iff]
    intro hb
    have := not_isWordPart_of_mem_blanks (mem_blanks_of_isLineBreak hb)
    rw [isWordPart_of_isWordStart hf] at this
    cases this
  · have hall : ∀ entry ∈ symbols, Text.isLineBreak entry.1 = false := by decide
    exact ⟨c, by simp [Char.toString], hall _ hc⟩

/-- A word is read where nothing is under way. -/
theorem exists_pushAll_word {s : Scanner} (hs : s.mode = .gap) {text : String}
    (ht : IsWordText text.toList) :
    ∃ after, s.pushAll text.toList = .ok after ∧
      after.completed = s.completed.push ⟨wordKind text, text, s.position⟩ ∧
      ∃ start letters, after.mode = .word start letters := by
  obtain ⟨first, rest, htext, hf, hr⟩ := ht
  have hstops : s.Stops first := by simp [Stops, hs]
  have hp := (push_of_stops hstops).trans (begin_wordStart hf _ _)
  obtain ⟨after, ha, hta, hma⟩ := pushAll_wordParts hr s.completed
    (s.position + first.utf8Size) s.position [first]
  have hletters : String.ofList (rest.reverse ++ [first]).reverse = text := by
    rw [List.reverse_append, List.reverse_reverse, List.reverse_singleton,
      List.singleton_append, ← htext, String.ofList_toList]
  refine ⟨after, ?_, ?_, _, _, hma⟩
  · rw [htext, pushAll_cons_of_ok hp, ha]
  · rw [completed_of_word hma, hta]
    simp only [wordToken, hletters]

/-- A symbol is read where everything ends in front of it. -/
theorem exists_pushAll_symbol {s : Scanner} {c : Char} (hs : s.Stops c) {kind : Kind}
    (hc : (c, kind) ∈ symbols) :
    ∃ after, s.pushAll c.toString.toList = .ok after ∧
      after.completed = s.completed.push ⟨kind, c.toString, s.position⟩ ∧ after.mode = .gap := by
  have hp := (push_of_stops hs).trans (begin_symbol hc _ _)
  have htext : c.toString.toList = [c] := by simp [Char.toString]
  exact ⟨_, by rw [htext, pushAll_cons_of_ok hp, pushAll_nil], rfl, rfl⟩

/-- The scanner has read these tiles, and their tokens are complete. -/
structure Settled (s : Scanner) (tiles : List Tile) : Prop where
  tokens : s.completed.toList = tiles.map Tile.token
  position : s.position = Text.byteSize (Tile.texts tiles)
  /-- At most a word is under way. -/
  mode : s.mode = .gap ∨ (∃ start letters, s.mode = .word start letters) ∧ EndsInWord tiles

namespace Settled

variable {s : Scanner} {tiles : List Tile}

theorem start : start.Settled [] :=
  ⟨rfl, rfl, .inl rfl⟩

theorem stops (h : s.Settled tiles) {c : Char} (hc : isWordPart c = false) : s.Stops c := by
  rcases h.mode with hm | ⟨⟨start, letters, hm⟩, -⟩
  · simp [Stops, hm]
  · simp [Stops, hm, hc]

/-- In front of a token, a gap leaves nothing under way, or there is none. -/
theorem exists_pushAll_gap (h : s.Settled tiles) {gap : List Char} {kind : Kind} {text : String}
    (hg : IsGap text.toList gap) (hl : IsLexeme kind text) :
    ∃ after, s.pushAll gap = .ok after ∧ after.completed = s.completed ∧
      (after.mode = .gap ∨ gap = [] ∧ after = s) := by
  have hstops : ∀ c ∈ gap.head?, s.Stops c := fun c hc => h.stops (not_isWordPart_of_isGap hg c hc)
  obtain ⟨after, ha, hk, hm⟩ := Scanner.exists_pushAll_gap hg hstops
  refine ⟨after, ha, hk, ?_⟩
  rcases hm with hm | hm | ⟨-, hb⟩
  · exact .inr hm
  · exact .inl hm
  · -- A comment would go on into the token.
    obtain ⟨c, hc, hn⟩ := head?_of_isLexeme hl
    rw [hb c hc] at hn
    cases hn

/-- A token with nothing but its gap in front adds itself to the complete tokens. -/
theorem exists_pushAll_text (h : s.Settled tiles) {tile : Tile} (hl : IsLaid (tiles ++ [tile]))
    {middle : Scanner} (hm : middle.mode = .gap ∨ tile.gap = [] ∧ middle = s)
    (hp : middle.position = tile.token.position) :
    ∃ after, middle.pushAll tile.token.text.toList = .ok after ∧
      after.completed = middle.completed.push tile.token ∧
      (after.mode = .gap ∨
        (∃ start letters, after.mode = .word start letters) ∧ tile.token.kind.IsWord) := by
  obtain ⟨gap, ⟨kind, text, position⟩⟩ := tile
  have hlex : IsLexeme kind text := hl.lexeme _ (List.mem_append_right _ List.mem_cons_self)
  obtain rfl : middle.position = position := hp
  rcases isLexeme_iff.1 hlex with ⟨hw, rfl⟩ | ⟨c, hc, rfl⟩
  · have hword : (wordKind text).IsWord := hlex.isWord_of_isWordText hw
    -- Two words do not touch, so no word is under way.
    have hmode : middle.mode = .gap := by
      rcases hm with hm | ⟨rfl, rfl⟩
      · exact hm
      · refine h.mode.resolve_right ?_
        rintro ⟨-, front, last, rfl, hlast⟩
        exact hl.apart front last _ [] (List.append_assoc front [last] _) hlast hword rfl
    obtain ⟨after, ha, hk, hma⟩ := exists_pushAll_word hmode hw
    exact ⟨after, ha, hk, .inr ⟨hma, hword⟩⟩
  · have hstops : middle.Stops c := by
      rcases hm with hm | ⟨-, rfl⟩
      · simp [Stops, hm]
      · exact h.stops (not_isWordPart_of_mem_symbols hc)
    obtain ⟨after, ha, hk, hma⟩ := exists_pushAll_symbol hstops hc
    exact ⟨after, ha, hk, .inl hma⟩

/-- One more tile is scanned. -/
theorem exists_pushAll_tile (h : s.Settled tiles) {tile : Tile} (hl : IsLaid (tiles ++ [tile])) :
    ∃ after, s.pushAll tile.text = .ok after ∧ after.Settled (tiles ++ [tile]) := by
  have hmem : tile ∈ tiles ++ [tile] := List.mem_append_right _ List.mem_cons_self
  obtain ⟨middle, hmid, hk, hm⟩ := h.exists_pushAll_gap (hl.gap tile hmem) (hl.lexeme tile hmem)
  have hp : middle.position = tile.token.position := by
    rw [position_pushAll hmid, h.position, hl.position tiles tile [] rfl, Text.byteSize_append]
  obtain ⟨after, ha, hka, hma⟩ := h.exists_pushAll_text hl hm hp
  have hall : s.pushAll tile.text = .ok after := (pushAll_append_of_ok hmid _).trans ha
  refine ⟨after, hall, ?_, ?_, hma.imp_right fun hw => ⟨hw.1, tiles, tile, rfl, hw.2⟩⟩
  · simp [hka, hk, h.tokens]
  · rw [position_pushAll hall, h.position]
    simp [Tile.text]

/-- Tiles behind each other are scanned. -/
theorem exists_pushAll_texts (h : s.Settled tiles) {more : List Tile}
    (hl : IsLaid (tiles ++ more)) :
    ∃ after, s.pushAll (Tile.texts more) = .ok after ∧ after.Settled (tiles ++ more) := by
  induction more generalizing s tiles with
  | nil => exact ⟨s, rfl, by rwa [List.append_nil]⟩
  | cons tile more ih =>
    rw [List.append_cons] at hl ⊢
    obtain ⟨middle, hmid, hsettled⟩ := h.exists_pushAll_tile hl.of_append
    obtain ⟨after, ha, hall⟩ := ih hsettled hl
    exact ⟨after, (pushAll_append_of_ok hmid _).trans ha, hall⟩

/-- The gap at the end of a script adds no token. -/
theorem pushAll_finish (h : s.Settled tiles) {rest : List Char} (hg : IsGap [] rest) :
    s.pushAll rest >>= finish = .ok (tiles.map Tile.token) := by
  have hstops : ∀ c ∈ rest.head?, s.Stops c := fun c hc => h.stops (not_isWordPart_of_isGap hg c hc)
  obtain ⟨after, ha, hk, hm⟩ := Scanner.exists_pushAll_gap hg hstops
  have hmode : ∀ start, after.mode ≠ .slash start := by
    intro start
    rcases hm with ⟨-, rfl⟩ | hm | ⟨hm, -⟩
    · rcases h.mode with hm | ⟨⟨_, _, hm⟩, -⟩ <;> simp [hm]
    · simp [hm]
    · simp [hm]
  rw [ha, ← h.tokens, ← hk]
  exact finish_of_not_slash hmode

end Settled

end Scanner

/-- The tokens of a tiling are the tokens of the script. -/
theorem Tiling.tokenize_eq {source : String} (tiling : Tiling source) :
    tokenize source = .ok tiling.tokens := by
  have hlaid : IsLaid ([] ++ tiling.tiles) := tiling.laid
  obtain ⟨after, ha, hs⟩ := Scanner.Settled.start.exists_pushAll_texts hlaid
  rw [tokenize, ← tiling.text, Scanner.pushAll_append_of_ok ha]
  exact hs.pushAll_finish tiling.gap

end BoolScript
