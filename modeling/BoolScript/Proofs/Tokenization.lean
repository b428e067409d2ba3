import BoolScript.Proofs.ScannedTiles

/-!
# Scripts are scanned exactly as they are tiled

Scanning a script gives some tokens if and only if the script has a tiling with these tokens, and a
script has one tiling at most. So every character of a script belongs to a token or to a gap, words
are as long as they can be, and nothing else is ever taken for a token.

## Shape of the proof

That tiles are scanned is known. For the other direction, what a scanner has read is some tiles and
characters behind them that are the beginning of another tile; which beginning they are is what the
scanner is in the middle of (`Scanner.Mode.Holds`). One character keeps this
(`Scanner.HasRead.push`), and at the end of the script the characters behind the tiles are a word or
the last gap.
-/

namespace BoolScript

namespace Scanner

/-- The characters behind some tiles are what a scanner in this mode is in the middle of. -/
def Mode.Holds (tiles : List Tile) (pending : List Char) : Mode → Prop
  | .gap => IsClosedGap pending ∧ (EndsInWord tiles → pending ≠ [])
  | .word start letters => ∃ gap, pending = gap ++ letters.reverse ∧
      IsClosedGap gap ∧ (EndsInWord tiles → gap ≠ []) ∧
      start = Text.byteSize (Tile.texts tiles ++ gap) ∧ IsWordText letters.reverse
  | .slash _ => ∃ gap, pending = gap ++ ['/'] ∧ IsClosedGap gap
  | .comment => ∃ gap text, pending = gap ++ '/' :: '/' :: text ∧
      IsClosedGap gap ∧ ∀ c ∈ text, Text.isLineBreak c = false

/-- What a scanner has read: tiles, whose tokens are complete, and the beginning of another. -/
def HasRead (s : Scanner) (read : List Char) : Prop :=
  ∃ tiles pending, read = Tile.texts tiles ++ pending ∧ IsLaid tiles ∧
    s.tokens.toList = tiles.map Tile.token ∧
    s.position = Text.byteSize (Tile.texts tiles ++ pending) ∧ s.mode.Holds tiles pending

theorem hasRead_start : start.HasRead [] :=
  ⟨[], [], rfl, isLaid_nil, rfl, rfl, isClosedGap_nil, by simp [EndsInWord]⟩

/-- A symbol is one more tile. -/
theorem isLaid_symbol {tiles : List Tile} {gap : List Char} {c : Char} {kind : Kind}
    (h : IsLaid tiles) (hg : IsClosedGap gap) (hc : (c, kind) ∈ symbols) :
    IsLaid (tiles ++ [⟨gap, ⟨kind, c.toString, Text.byteSize (Tile.texts tiles ++ gap)⟩⟩]) :=
  h.snoc rfl (.symbol hc) (hg _) fun _ hw => absurd hw (Kind.not_isWord_of_symbol hc)

/-- A word that does not touch another is one more tile. -/
theorem isLaid_word {tiles : List Tile} {gap letters : List Char} (h : IsLaid tiles)
    (hg : IsClosedGap gap) (ha : EndsInWord tiles → gap ≠ []) (hw : IsWordText letters.reverse) :
    IsLaid (tiles ++ [⟨gap, wordToken (Text.byteSize (Tile.texts tiles ++ gap)) letters⟩]) := by
  refine h.snoc rfl (isLexeme_iff.2 (.inl ⟨?_, rfl⟩)) (hg _) fun ht _ => ha ht
  simpa [wordToken] using hw

theorem not_endsInWord_of_symbol {tiles : List Tile} {tile : Tile} {c : Char} {kind : Kind}
    (hc : (c, kind) ∈ symbols) (ht : tile.token.kind = kind) : ¬ EndsInWord (tiles ++ [tile]) := by
  rintro ⟨front, last, he, hw⟩
  obtain ⟨-, he⟩ := List.append_inj' he rfl
  obtain rfl : tile = last := by simpa using he
  rw [ht] at hw
  exact Kind.not_isWord_of_symbol hc hw

/-- A character that is looked at afresh starts something behind the tiles, or it is a tile. -/
theorem hasRead_begin {tiles : List Tile} {pending : List Char} {tokens : Array Token}
    {position : Nat} {c : Char} {next : Scanner} (hl : IsLaid tiles)
    (ht : tokens.toList = tiles.map Tile.token)
    (hp : position = Text.byteSize (Tile.texts tiles ++ pending)) (hg : IsClosedGap pending)
    (ha : isWordStart c = true → EndsInWord tiles → pending ≠ [])
    (h : begin tokens position c = .ok next) :
    next.HasRead (Tile.texts tiles ++ pending ++ [c]) := by
  have hposition : next.position = Text.byteSize (Tile.texts tiles ++ (pending ++ [c])) := by
    rw [position_begin h, hp, ← List.append_assoc, Text.byteSize_append _ [c],
      Text.byteSize_singleton]
  rcases begin_cases h with ⟨hb, rfl⟩ | ⟨hw, rfl⟩ | ⟨rfl, rfl⟩ | ⟨kind, hk, rfl⟩
  · exact ⟨tiles, pending ++ [c], by simp, hl, ht, hposition, hg.blank (isBlank_iff.1 hb), by simp⟩
  · exact ⟨tiles, pending ++ [c], by simp, hl, ht, hposition, pending, rfl, hg, ha hw, hp, c, [],
      rfl, hw, by simp⟩
  · exact ⟨tiles, pending ++ ['/'], by simp, hl, ht, hposition, pending, rfl, hg⟩
  · have hc := symbolKind?_eq_some_iff.1 hk
    refine ⟨_, [], ?_, isLaid_symbol hl hg hc, ?_, ?_, isClosedGap_nil, ?_⟩
    · simp [Char.toString]
    · simp [ht, hp]
    · rw [hposition]
      simp [Char.toString]
    · exact fun hw => absurd hw (not_endsInWord_of_symbol hc rfl)

/-- One character keeps what a scanner has read. -/
theorem HasRead.push {s next : Scanner} {read : List Char} {c : Char} (hr : s.HasRead read)
    (h : s.push c = .ok next) : next.HasRead (read ++ [c]) := by
  obtain ⟨tiles, pending, rfl, hl, ht, hp, hm⟩ := hr
  have hposition : next.position = Text.byteSize (Tile.texts tiles ++ (pending ++ [c])) := by
    rw [position_push h, hp, ← List.append_assoc, Text.byteSize_append _ [c],
      Text.byteSize_singleton]
  unfold Scanner.push at h
  split at h
  · next he =>
    rw [he] at hm
    exact hasRead_begin hl ht hp hm.1 (fun _ => hm.2) h
  · next start letters he =>
    rw [he] at hm
    obtain ⟨gap, rfl, hg, ha, rfl, hw⟩ := hm
    split at h
    · next hc =>
      cases h
      refine ⟨tiles, gap ++ letters.reverse ++ [c], by simp, hl, ht, hposition, gap, by simp, hg,
        ha, rfl, ?_⟩
      rw [List.reverse_cons]
      exact hw.append hc
    · next hc =>
      -- The word is complete, and the character stands behind it without a gap.
      have hlaid := isLaid_word hl hg ha hw
      have hread := @hasRead_begin _ [] _ _ _ _ hlaid (by simp [ht]) (by simp [hp, wordToken])
        isClosedGap_nil (fun hs => absurd (isWordPart_of_isWordStart hs) hc) h
      simpa [wordToken] using hread
  · next start he =>
    rw [he] at hm
    obtain ⟨gap, rfl, hg⟩ := hm
    split at h
    · next hc =>
      cases h
      obtain rfl : c = '/' := by simpa using hc
      exact ⟨tiles, gap ++ ['/'] ++ ['/'], by simp, hl, ht, hposition, gap, [], by simp, hg,
        by simp⟩
    · cases h
  · next he =>
    rw [he] at hm
    obtain ⟨gap, text, rfl, hg, hn⟩ := hm
    split at h
    · next hc =>
      rw [begin_blank (mem_blanks_of_isLineBreak hc)] at h
      cases h
      exact ⟨tiles, gap ++ '/' :: '/' :: text ++ [c], by simp, hl, ht, hposition,
        hg.comment_lineBreak hn hc, by simp⟩
    · next hc =>
      cases h
      have hc : Text.isLineBreak c = false := Bool.eq_false_iff.2 hc
      refine ⟨tiles, gap ++ '/' :: '/' :: text ++ [c], by simp, hl, ht, hposition, gap, text ++ [c],
        by simp, hg, ?_⟩
      rw [List.forall_mem_append]
      exact ⟨hn, by simpa using hc⟩

/-- What a scanner has read grows with the characters. -/
theorem HasRead.pushAll {s next : Scanner} {read text : List Char} (hr : s.HasRead read)
    (h : s.pushAll text = .ok next) : next.HasRead (read ++ text) := by
  induction text generalizing s read with
  | nil =>
    cases h
    rwa [List.append_nil]
  | cons c text ih =>
    obtain ⟨middle, hp, h⟩ := pushAll_cons_eq_ok_iff.1 h
    rw [List.append_cons]
    exact ih (hr.push hp) h

/-- A script that ends where the scanner is has a tiling. -/
theorem HasRead.exists_tiling {s : Scanner} {source : String} (hr : s.HasRead source.toList)
    {tokens : List Token} (h : s.finish = .ok tokens) :
    ∃ tiling : Tiling source, tiling.tokens = tokens := by
  obtain ⟨tiles, pending, he, hl, ht, -, hm⟩ := hr
  unfold finish at h
  split at h
  · next start letters hmode =>
    cases h
    rw [hmode] at hm
    obtain ⟨gap, rfl, hg, ha, rfl, hw⟩ := hm
    exact ⟨⟨_, [], by simp [he, wordToken], isLaid_word hl hg ha hw, .nil⟩,
      by simp [Tiling.tokens, ht]⟩
  · cases h
  · next hmode =>
    cases h
    rw [hmode] at hm
    exact ⟨⟨tiles, pending, he.symm, hl, hm.1 []⟩, ht.symm⟩
  · next hmode =>
    cases h
    rw [hmode] at hm
    obtain ⟨gap, text, rfl, hg, hn⟩ := hm
    exact ⟨⟨tiles, _, he.symm, hl, hg.comment hn⟩, ht.symm⟩

end Scanner

/-- What is scanned has a tiling. -/
theorem exists_tiling_of_tokenize {source : String} {tokens : List Token}
    (h : tokenize source = .ok tokens) : ∃ tiling : Tiling source, tiling.tokens = tokens := by
  obtain ⟨s, hs, hf⟩ := tokenize_eq_ok_iff.1 h
  exact (Scanner.hasRead_start.pushAll hs).exists_tiling hf

/-- A token of a script has a text of its kind. -/
theorem isLexeme_of_mem_tokenize {source : String} {tokens : List Token}
    (h : tokenize source = .ok tokens) : ∀ token ∈ tokens, IsLexeme token.kind token.text := by
  obtain ⟨tiling, rfl⟩ := exists_tiling_of_tokenize h
  intro token hm
  obtain ⟨tile, ht, rfl⟩ := List.mem_map.1 hm
  exact tiling.laid.lexeme tile ht

end BoolScript
