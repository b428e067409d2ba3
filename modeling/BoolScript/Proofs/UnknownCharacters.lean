import BoolScript.Proofs.Tokenization

/-!
# Where scanning stops

Scanning fails at one character only: the first that is part of no comment, goes on with no word and
starts neither a token nor a gap. `IsUnknown` says which character that is by what stands around it,
and `tokenize_stops_at_unknown` says that scanning fails with this character and the bytes in front
of it, if there is one, and with nothing else. What stands further on makes no difference, except
that a slash is made known by a second one.

## Shape of the proof

A scanner refuses a character if what is under way ends in front of it and nothing starts with it
(`Scanner.Refuses`). Every failure is such a refusal (`Scanner.exists_refuses`), also that of a
slash, which is noticed one character late. What is under way can be told from the text that has
been read: a comment, if two slashes stand on its last line, and a word, if one stands at its end
(`Scanner.refuses_iff`).
-/

namespace BoolScript

/-! ## What stands in front of a character -/

/-- A comment has been opened on the last line of the text. -/
def Text.EndsInComment (text : String) : Prop :=
  ∃ front comment, text.toList = front ++ '/' :: '/' :: comment ∧
    ∀ c ∈ comment, isLineBreak c = false

/-- The text ends in a word. -/
def Text.EndsInWord (text : String) : Prop :=
  ∃ word, word <:+ text.toList ∧ IsWordText word

/-- A character that has no business between these two texts. -/
structure IsUnknown (front : String) (c : Char) (behind : String) : Prop where
  /-- What stands in front of the character can be scanned. -/
  scanned : ∃ tokens, tokenize front = .ok tokens
  /-- The character does not stand in a comment. -/
  outside : ¬ Text.EndsInComment front
  not_blank : c ∉ blanks
  not_symbol : ∀ kind, (c, kind) ∉ symbols
  /-- The character is neither a letter nor an underscore. -/
  not_wordStart : isWordStart c = false
  /-- A digit stands behind no word. -/
  not_digit : c.isDigit = true → ¬ Text.EndsInWord front
  /-- A slash stands in front of no other slash. -/
  not_slash : c = '/' → behind.toList.head? ≠ some '/'

theorem IsWordText.exists_last {text : List Char} (h : IsWordText text) :
    ∃ front last, text = front ++ [last] ∧ isWordPart last = true := by
  obtain ⟨first, rest, rfl, hf, hr⟩ := h
  rcases rest.eq_nil_or_concat with rfl | ⟨front, last, rfl⟩
  · exact ⟨[], first, rfl, isWordPart_of_isWordStart hf⟩
  · exact ⟨first :: front, last, by simp, hr last (by simp)⟩

theorem Text.toList_around (front : String) (c : Char) (behind : String) :
    (front ++ c.toString ++ behind).toList = front.toList ++ c :: behind.toList := by
  simp [Char.toString]

/-- The bytes in front of a character tell which one it is. -/
theorem eq_of_utf8ByteSize_eq {front behind front' behind' : String} {c c' : Char}
    (h : front ++ c.toString ++ behind = front' ++ c'.toString ++ behind')
    (hp : front.utf8ByteSize = front'.utf8ByteSize) :
    front = front' ∧ c = c' ∧ behind = behind' := by
  have hlist := congrArg String.toList h
  rw [Text.toList_around, Text.toList_around] at hlist
  have hfront : front.toList = front'.toList :=
    Text.eq_of_prefix_of_byteSize_eq ⟨_, rfl⟩ ⟨_, hlist.symm⟩ (by simpa [Text.byteSize] using hp)
  rw [hfront] at hlist
  obtain ⟨hc, hbehind⟩ := List.cons.inj (List.append_cancel_left hlist)
  exact ⟨String.toList_inj.1 hfront, hc, String.toList_inj.1 hbehind⟩

namespace Scanner

/-! ## Refused characters -/

theorem begin_eq_error {c : Char} (hb : c ∉ blanks) (hw : isWordStart c = false) (hd : c ≠ '/')
    (hs : ∀ kind, (c, kind) ∉ symbols) (tokens : Array Token) (position : Nat) :
    begin tokens position c = .error (.unknownCharacter c.toString position) := by
  have hsymbol : symbolKind? c = none := by
    rw [Option.eq_none_iff_forall_ne_some]
    exact fun kind hk => hs kind (symbolKind?_eq_some_iff.1 hk)
  rw [begin, if_neg (mt isBlank_iff.1 hb), if_neg (by simp [hw]), if_neg (by simpa using hd),
    hsymbol]

/-- A character that starts nothing. -/
theorem of_begin_eq_error {tokens : Array Token} {position : Nat} {c : Char} {error : SyntaxError}
    (h : begin tokens position c = .error error) :
    c ∉ blanks ∧ isWordStart c = false ∧ c ≠ '/' ∧ (∀ kind, (c, kind) ∉ symbols) ∧
      error = .unknownCharacter c.toString position := by
  have hb : c ∉ blanks := by
    intro hb
    rw [begin_blank hb] at h
    cases h
  have hw : isWordStart c = false := by
    rw [Bool.eq_false_iff]
    intro hw
    rw [begin_wordStart hw] at h
    cases h
  have hd : c ≠ '/' := by
    rintro rfl
    rw [begin_slash] at h
    cases h
  have hs : ∀ kind, (c, kind) ∉ symbols := by
    intro kind hs
    rw [begin_symbol hs] at h
    cases h
  rw [begin_eq_error hb hw hd hs] at h
  exact ⟨hb, hw, hd, hs, (Except.error.inj h).symm⟩

/-- What is under way ends in front of the character, and nothing starts with it. -/
structure Refuses (s : Scanner) (c : Char) (behind : List Char) : Prop where
  stops : s.Stops c
  not_blank : c ∉ blanks
  not_symbol : ∀ kind, (c, kind) ∉ symbols
  not_wordStart : isWordStart c = false
  not_slash : c = '/' → behind.head? ≠ some '/'

/-- A slash has been read that needs another one behind it. -/
theorem pushAll_slash {s : Scanner} {start : Nat} (hm : s.mode = .slash start) {text : List Char}
    (ht : text.head? ≠ some '/') :
    s.pushAll text >>= finish = .error (.unknownCharacter "/" start) := by
  cases text with
  | nil => simp [Bind.bind, Except.bind, finish, hm]
  | cons c text =>
    have hc : (c == '/') = false := by simpa using ht
    simp [push, hm, hc, Bind.bind, Except.bind]

/-- Scanning fails with a character that is refused. -/
theorem Refuses.pushAll_eq_error {s : Scanner} {c : Char} {behind : List Char}
    (h : s.Refuses c behind) :
    s.pushAll (c :: behind) >>= finish = .error (.unknownCharacter c.toString s.position) := by
  have hpush := push_of_stops h.stops
  by_cases hd : c = '/'
  · subst hd
    rw [pushAll_cons_of_ok (hpush.trans (begin_slash _ _))]
    exact pushAll_slash rfl (h.not_slash rfl)
  · rw [begin_eq_error h.not_blank h.not_wordStart hd h.not_symbol] at hpush
    rw [pushAll_cons, hpush]
    rfl

/-- A character that has been read with a failure is refused, unless the failure is that of a slash
in front of it. -/
theorem refuses_of_push_eq_error {s : Scanner} (hm : ∀ start, s.mode ≠ .slash start) {c : Char}
    {error : SyntaxError} (h : s.push c = .error error) (behind : List Char) :
    s.Refuses c behind ∧ error = .unknownCharacter c.toString s.position := by
  have hstops : s.Stops c := by
    obtain ⟨tokens, position, mode⟩ := s
    unfold push at h
    unfold Stops
    cases mode with
    | gap => trivial
    | word start letters =>
      dsimp only at h ⊢
      split at h
      · cases h
      · next hc => simpa using hc
    | slash start => exact absurd rfl (hm start)
    | comment =>
      dsimp only at h ⊢
      split at h
      · next hc => exact hc
      · cases h
  rw [push_of_stops hstops] at h
  obtain ⟨hb, hw, hd, hs, he⟩ := of_begin_eq_error h
  exact ⟨⟨hstops, hb, hs, hw, fun hc => absurd hc hd⟩, he⟩

/-- Only a slash at which something may start leaves a slash under way. -/
theorem of_push_slash {s next : Scanner} {c : Char} {start : Nat} (h : s.push c = .ok next)
    (hm : next.mode = .slash start) : s.Stops '/' ∧ c = '/' ∧ start = s.position := by
  rcases push_cases h with ⟨hs, hb⟩ | ⟨_, _, -, -, rfl⟩ | ⟨_, -, -, rfl⟩ | ⟨-, -, rfl⟩
  · rcases begin_cases hb with ⟨-, rfl⟩ | ⟨-, rfl⟩ | ⟨rfl, rfl⟩ | ⟨_, -, rfl⟩
    · cases hm
    · cases hm
    · cases hm
      exact ⟨hs, rfl, rfl⟩
    · cases hm
  all_goals cases hm

/-- Every failure is that of a character which is refused, or of a slash that was under way. -/
theorem exists_refuses {s : Scanner} {text : List Char} {error : SyntaxError}
    (h : s.pushAll text >>= finish = .error error) :
    (∃ start, s.mode = .slash start ∧ text.head? ≠ some '/' ∧
      error = .unknownCharacter "/" start) ∨
    ∃ front c behind after, text = front ++ c :: behind ∧ s.pushAll front = .ok after ∧
      after.Refuses c behind ∧ error = .unknownCharacter c.toString after.position := by
  by_cases hm : ∃ start, s.mode = .slash start ∧ text.head? ≠ some '/'
  · obtain ⟨start, hm, ht⟩ := hm
    rw [pushAll_slash hm ht] at h
    exact .inl ⟨start, hm, ht, (Except.error.inj h).symm⟩
  right
  induction text generalizing s with
  | nil =>
    have hmode : ∀ start, s.mode ≠ .slash start := fun start he => hm ⟨start, he, by simp⟩
    have hf : s.finish = .error error := h
    rw [finish_of_not_slash hmode] at hf
    cases hf
  | cons c text ih =>
    cases hp : s.push c with
    | error error' =>
      -- A second slash is not refused.
      have hmode : ∀ start, s.mode ≠ .slash start := by
        intro start he
        refine hm ⟨start, he, fun hc => ?_⟩
        obtain rfl : c = '/' := by simpa using hc
        simp [push, he] at hp
      obtain ⟨hr, he⟩ := refuses_of_push_eq_error hmode hp text
      rw [pushAll_cons, hp] at h
      obtain rfl : error' = error := Except.error.inj h
      exact ⟨[], c, text, s, rfl, rfl, hr, he⟩
    | ok next =>
      rw [pushAll_cons_of_ok hp] at h
      by_cases hn : ∃ start, next.mode = .slash start ∧ text.head? ≠ some '/'
      · obtain ⟨start, hn, ht⟩ := hn
        obtain ⟨hstops, rfl, rfl⟩ := of_push_slash hp hn
        rw [pushAll_slash hn ht] at h
        have hall : ∀ kind, ('/', kind) ∉ symbols := by
          intro kind
          simp [symbols]
        exact ⟨[], '/', text, s, rfl, rfl, ⟨hstops, by decide, hall, by decide, fun _ => ht⟩,
          (Except.error.inj h).symm⟩
      · obtain ⟨front, c', behind, after, rfl, ha, hr, he⟩ := ih h hn
        exact ⟨c :: front, c', behind, after, rfl, (pushAll_cons_of_ok hp front).trans ha, hr, he⟩

/-! ## What is under way -/

/-- Two slashes open a comment, if they do not stand in one. -/
theorem mode_of_pushAll_slashes {s next : Scanner} (h : s.pushAll ['/', '/'] = .ok next) :
    next.mode = .comment := by
  obtain ⟨tokens, position, mode⟩ := s
  cases mode <;> (cases h; rfl)

/-- Where nothing is under way a letter or an underscore starts a word, and a digit is refused. -/
theorem mode_of_begin_wordPart {tokens : Array Token} {position : Nat} {c : Char} {next : Scanner}
    (hc : isWordPart c = true) (h : begin tokens position c = .ok next) :
    ∃ start letters, next.mode = .word start letters := by
  rcases begin_cases h with ⟨hb, -⟩ | ⟨-, rfl⟩ | ⟨rfl, -⟩ | ⟨kind, hk, -⟩
  · simp [not_isWordPart_of_mem_blanks (isBlank_iff.1 hb)] at hc
  · exact ⟨_, _, rfl⟩
  · cases hc
  · simp [not_isWordPart_of_mem_symbols (symbolKind?_eq_some_iff.1 hk)] at hc

/-- A letter, a digit or an underscore is part of a word or of a comment. -/
theorem mode_of_push_wordPart {s next : Scanner} {c : Char} (hc : isWordPart c = true)
    (h : s.push c = .ok next) :
    (∃ start letters, next.mode = .word start letters) ∨ next.mode = .comment := by
  rcases push_cases h with ⟨-, hb⟩ | ⟨_, _, -, -, rfl⟩ | ⟨_, -, -, rfl⟩ | ⟨-, -, rfl⟩
  · exact .inl (mode_of_begin_wordPart hc hb)
  · exact .inl ⟨_, _, rfl⟩
  · exact .inr rfl
  · exact .inr rfl

section

variable {text : String} {s : Scanner}

/-- A comment is under way exactly if the text that has been read ends in one. -/
theorem mode_eq_comment_iff (h : start.pushAll text.toList = .ok s) :
    s.mode = .comment ↔ Text.EndsInComment text := by
  constructor
  · intro hm
    obtain ⟨tiles, pending, ht, -, -, -, hholds⟩ := hasRead_start.pushAll h
    rw [hm] at hholds
    obtain ⟨gap, comment, rfl, -, hn⟩ := hholds
    refine ⟨Tile.texts tiles ++ gap, comment, ?_, hn⟩
    simpa using ht
  · rintro ⟨front, comment, ht, hn⟩
    rw [ht, show front ++ '/' :: '/' :: comment = front ++ (['/', '/'] ++ comment) from rfl,
      pushAll_append_eq_ok_iff] at h
    obtain ⟨first, -, h⟩ := h
    obtain ⟨⟨tokens, position, mode⟩, hs, h⟩ := pushAll_append_eq_ok_iff.1 h
    obtain rfl : mode = .comment := mode_of_pushAll_slashes hs
    obtain ⟨after, ha, -, hm⟩ := pushAll_comment hn tokens position
    rw [ha] at h
    cases h
    exact hm

/-- Outside of comments a word is under way exactly if the text that has been read ends in one. -/
theorem mode_eq_word_iff (h : start.pushAll text.toList = .ok s) (hc : s.mode ≠ .comment) :
    (∃ start letters, s.mode = .word start letters) ↔ Text.EndsInWord text := by
  constructor
  · rintro ⟨first, letters, hm⟩
    obtain ⟨tiles, pending, ht, -, -, -, hholds⟩ := hasRead_start.pushAll h
    rw [hm] at hholds
    obtain ⟨gap, rfl, -, -, -, hw⟩ := hholds
    refine ⟨letters.reverse, ⟨Tile.texts tiles ++ gap, ?_⟩, hw⟩
    simpa using ht.symm
  · rintro ⟨word, ⟨front, ht⟩, hw⟩
    obtain ⟨init, last, rfl, hl⟩ := hw.exists_last
    rw [← ht, ← List.append_assoc] at h
    obtain ⟨middle, -, h⟩ := pushAll_append_eq_ok_iff.1 h
    rw [pushAll_singleton] at h
    exact (mode_of_push_wordPart hl h).resolve_right hc

/-- Whether a character is refused can be told from the texts around it. -/
theorem refuses_iff (h : start.pushAll text.toList = .ok s) {c : Char} {behind : String} :
    s.Refuses c behind.toList ↔ IsUnknown text c behind := by
  have hfinish := tokenize_of_pushAll h
  constructor
  · rintro ⟨hstops, hb, hs, hw, hd⟩
    have hslash : ∀ first, s.mode ≠ .slash first := by
      intro first hm
      simp [Stops, hm] at hstops
    have hcomment : s.mode ≠ .comment := by
      intro hm
      have hbreak : Text.isLineBreak c = true := by simpa [Stops, hm] using hstops
      exact hb (mem_blanks_of_isLineBreak hbreak)
    refine ⟨⟨_, hfinish.trans (finish_of_not_slash hslash)⟩, mt (mode_eq_comment_iff h).2 hcomment,
      hb, hs, hw, fun hdigit hword => ?_, hd⟩
    obtain ⟨first, letters, hm⟩ := (mode_eq_word_iff h hcomment).2 hword
    have hpart : isWordPart c = false := by simpa [Stops, hm] using hstops
    simp [isWordPart, Char.isAlphanum, hdigit] at hpart
  · rintro ⟨⟨tokens, ht⟩, ho, hb, hs, hw, hdigit, hd⟩
    refine ⟨?_, hb, hs, hw, hd⟩
    have hcomment : s.mode ≠ .comment := mt (mode_eq_comment_iff h).1 ho
    rw [hfinish] at ht
    unfold Stops
    split
    · trivial
    · next first letters hm =>
      -- The character is no letter, and it is no digit behind a word either.
      have hnot : c.isDigit = false := by
        rw [Bool.eq_false_iff]
        exact fun hc => hdigit hc ((mode_eq_word_iff h hcomment).1 ⟨first, letters, hm⟩)
      simp only [isWordStart, Bool.or_eq_false_iff] at hw
      simp [isWordPart, Char.isAlphanum, hw, hnot]
    · next first hm =>
      rw [finish, hm] at ht
      cases ht
    · next hm => exact absurd hm hcomment

end

end Scanner

section

variable {source : String}

/-- An unknown character is the failure of any script in which it stands at this place. -/
theorem IsUnknown.tokenize_eq_error {front : String} {c : Char} {behind : String}
    (h : IsUnknown front c behind) :
    tokenize (front ++ c.toString ++ behind) =
      .error (.unknownCharacter c.toString front.utf8ByteSize) := by
  obtain ⟨tokens, ht⟩ := h.scanned
  obtain ⟨s, hs, -⟩ := tokenize_eq_ok_iff.1 ht
  rw [tokenize, Text.toList_around, Scanner.pushAll_append_of_ok hs,
    ← Scanner.position_of_pushAll_start hs]
  exact ((Scanner.refuses_iff hs).2 h).pushAll_eq_error

/-- Only a slash depends on what stands behind it. -/
theorem IsUnknown.with_behind {front : String} {c : Char} {behind behind' : String}
    (h : IsUnknown front c behind) (hs : c = '/' → behind'.toList.head? ≠ some '/') :
    IsUnknown front c behind' :=
  { h with not_slash := hs }

/-- Every failure is that of an unknown character. -/
theorem exists_isUnknown {error : SyntaxError} (h : tokenize source = .error error) :
    ∃ front c behind, source = front ++ c.toString ++ behind ∧ IsUnknown front c behind ∧
      error = .unknownCharacter c.toString front.utf8ByteSize := by
  obtain ⟨_, hm, -⟩ | ⟨front, c, behind, s, ht, hs, hr, -⟩ := Scanner.exists_refuses h
  · cases hm
  · have hunknown : IsUnknown (String.ofList front) c (String.ofList behind) := by
      refine (Scanner.refuses_iff (s := s) ?_).1 ?_
      · rwa [String.toList_ofList]
      · rwa [String.toList_ofList]
    have hsource : source = String.ofList front ++ c.toString ++ String.ofList behind := by
      rw [← String.toList_inj, ht, Text.toList_around, String.toList_ofList, String.toList_ofList]
    refine ⟨_, c, _, hsource, hunknown, ?_⟩
    rw [hsource, hunknown.tokenize_eq_error] at h
    exact (Except.error.inj h).symm

end

/-- Scanning fails at one character and says which. It fails with a character and a position if and
only if the script has an unknown character with this many bytes in front of it; there is one such
place at most, and no other way to fail. What stands behind the character may be replaced, as long
as it does not complete a pair of slashes. -/
theorem tokenize_stops_at_unknown (source : String) :
    (∀ text position, tokenize source = .error (.unknownCharacter text position) ↔
      ∃ front c behind, source = front ++ c.toString ++ behind ∧ text = c.toString ∧
        position = front.utf8ByteSize ∧ IsUnknown front c behind) ∧
    (∀ error, tokenize source = .error error →
      ∃ text position, error = .unknownCharacter text position) ∧
    (∀ front c behind front' c' behind', source = front ++ c.toString ++ behind →
      source = front' ++ c'.toString ++ behind' → IsUnknown front c behind →
      IsUnknown front' c' behind' → front = front' ∧ c = c' ∧ behind = behind') ∧
    ∀ front c behind, source = front ++ c.toString ++ behind →
      tokenize source = .error (.unknownCharacter c.toString front.utf8ByteSize) →
      ∀ behind' : String, (c = '/' → behind'.toList.head? ≠ some '/') →
        tokenize (front ++ c.toString ++ behind') = tokenize source := by
  refine ⟨fun text position => ⟨fun h => ?_, ?_⟩, fun error h => ?_, ?_, ?_⟩
  · obtain ⟨front, c, behind, hsource, hunknown, he⟩ := exists_isUnknown h
    cases he
    exact ⟨front, c, behind, hsource, rfl, rfl, hunknown⟩
  · rintro ⟨front, c, behind, rfl, rfl, rfl, hunknown⟩
    exact hunknown.tokenize_eq_error
  · obtain ⟨_, _, _, _, _, rfl⟩ := exists_isUnknown h
    exact ⟨_, _, rfl⟩
  · rintro front c behind front' c' behind' rfl hsource hu hu'
    have he := hu.tokenize_eq_error
    rw [hsource, hu'.tokenize_eq_error] at he
    obtain ⟨-, hp⟩ := SyntaxError.unknownCharacter.inj (Except.error.inj he)
    exact eq_of_utf8ByteSize_eq hsource hp.symm
  · rintro front c behind rfl h behind' hslash
    obtain ⟨front', c', others, hsource, hunknown, he⟩ := exists_isUnknown h
    obtain ⟨-, hp⟩ := SyntaxError.unknownCharacter.inj he
    obtain ⟨rfl, rfl, rfl⟩ := eq_of_utf8ByteSize_eq hsource hp
    rw [h]
    exact (hunknown.with_behind hslash).tokenize_eq_error

-- The same letter is welcome in a comment, and a digit in a word.
example : tokenize "// é\nx1 é" = .error (.unknownCharacter "é" 9) := by
  decide +kernel

end BoolScript
