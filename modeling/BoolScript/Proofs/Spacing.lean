import BoolScript.Proofs.ScannedTiles

/-!
# Texts with single spaces between them

A script that consists of lexemes with one space between any two of them is scanned into exactly
these lexemes, each where the bytes of the others and of the spaces put it: `tokenize_spaced`. The
kind of a lexeme is not a matter of choice, because its text settles it (`IsLexeme.textKind_eq`).
-/

namespace BoolScript

/-- The kind that a token with this text has. -/
def textKind (text : String) : Kind :=
  match text.toList with
  | [c] => (symbolKind? c).getD (wordKind text)
  | _ => wordKind text

/-- No lexeme has two kinds. -/
theorem IsLexeme.textKind_eq {kind : Kind} {text : String} (h : IsLexeme kind text) :
    textKind text = kind := by
  rcases isLexeme_iff.1 h with ⟨⟨first, rest, ht, hfirst, -⟩, hk⟩ | ⟨c, hc, rfl⟩
  · have hnone : symbolKind? first = none := by
      cases hs : symbolKind? first with
      | none => rfl
      | some other =>
        -- No symbol starts a word.
        have hall : ∀ entry ∈ symbols, isWordStart entry.1 = false := by decide
        rw [hall _ (symbolKind?_eq_some_iff.1 hs)] at hfirst
        cases hfirst
    rw [textKind, ht]
    cases rest with
    | nil => simpa [hnone] using hk
    | cons => exact hk
  · have hs : symbolKind? c = some kind := symbolKind?_eq_some_iff.2 hc
    have hc : c.toString.toList = [c] := by simp [Char.toString]
    simp only [textKind, hc, hs, Option.getD_some]

/-- The tokens of some texts with single spaces between them, if the first one stands here. -/
def tokensFrom (position : Nat) : List String → List Token
  | [] => []
  | text :: more =>
    ⟨textKind text, text, position⟩ :: tokensFrom (position + text.utf8ByteSize + 1) more

/-- The tiles of some texts with single spaces between them, if the first one stands here, behind
this gap. -/
def tilesFrom (gap : List Char) (position : Nat) : List String → List Tile
  | [] => []
  | text :: more =>
    ⟨gap, ⟨textKind text, text, position⟩⟩ ::
      tilesFrom [' '] (position + text.utf8ByteSize + 1) more

theorem map_token_tilesFrom (gap : List Char) (position : Nat) (texts : List String) :
    (tilesFrom gap position texts).map Tile.token = tokensFrom position texts := by
  induction texts generalizing gap position with
  | nil => rfl
  | cons text more ih => rw [tilesFrom, tokensFrom, List.map_cons, ih]

/-- The tiles make up the text. -/
theorem texts_tilesFrom (gap : List Char) (position : Nat) (text : String) (more : List String) :
    Tile.texts (tilesFrom gap position (text :: more)) =
      gap ++ (" ".intercalate (text :: more)).toList := by
  induction more generalizing gap position text with
  | nil => rw [tilesFrom, Tile.texts_cons, tilesFrom, String.intercalate_singleton, Tile.texts_nil,
      List.append_nil]
  | cons next more ih =>
    have hspace : " ".toList = [' '] := by decide
    rw [tilesFrom, Tile.texts_cons, ih, String.intercalate_cons_cons, String.toList_append,
      String.toList_append, hspace, List.append_assoc]

theorem Text.byteSize_toList (text : String) : Text.byteSize text.toList = text.utf8ByteSize := by
  rw [Text.byteSize, String.ofList_toList, Text.length_encode]

/-- The tiles fit together behind others. -/
theorem IsLaid.append_tilesFrom {before : List Tile} (h : IsLaid before) {gap : List Char}
    (hg : gap = [' '] ∨ before = [] ∧ gap = []) {texts : List String}
    (ht : ∀ text ∈ texts, ∃ kind, IsLexeme kind text) :
    IsLaid (before ++ tilesFrom gap (Text.byteSize (Tile.texts before ++ gap)) texts) := by
  induction texts generalizing before gap with
  | nil =>
    rw [tilesFrom, List.append_nil]
    exact h
  | cons text more ih =>
    have hlexeme : IsLexeme (textKind text) text := by
      obtain ⟨kind, hk⟩ := ht text List.mem_cons_self
      rw [hk.textKind_eq]
      exact hk
    let tile : Tile :=
      ⟨gap, ⟨textKind text, text, Text.byteSize (Tile.texts before ++ gap)⟩⟩
    have hlaid : IsLaid (before ++ [tile]) := by
      refine h.snoc rfl hlexeme ?_ ?_
      · rcases hg with rfl | ⟨-, rfl⟩
        · exact .blank (by decide) .nil
        · exact .nil
      · rintro ⟨front, last, rfl, -⟩ -
        rcases hg with rfl | ⟨he, -⟩
        · simp
        · simp at he
    have hposition : Text.byteSize (Tile.texts (before ++ [tile]) ++ [' ']) =
        Text.byteSize (Tile.texts before ++ gap) + text.utf8ByteSize + 1 := by
      have hspace : Text.byteSize [' '] = 1 := by decide
      rw [← Text.byteSize_toList]
      simp [Tile.texts_append, tile, hspace]
      omega
    have hall := ih hlaid (.inl rfl) fun other ho => ht other (List.mem_cons_of_mem _ ho)
    rw [hposition, List.append_assoc] at hall
    exact hall

/-- How some lexemes with single spaces between them are tiled. -/
def spacedTiling {texts : List String} (h : ∀ text ∈ texts, ∃ kind, IsLexeme kind text) :
    Tiling (" ".intercalate texts) where
  tiles := tilesFrom [] 0 texts
  rest := []
  text := by
    cases texts with
    | nil => rfl
    | cons text more => rw [texts_tilesFrom, List.nil_append, List.append_nil]
  laid := isLaid_nil.append_tilesFrom (.inr ⟨rfl, rfl⟩) h
  gap := .nil

/-- Lexemes with single spaces between them are scanned one by one. -/
theorem tokenize_spaced {texts : List String} (h : ∀ text ∈ texts, ∃ kind, IsLexeme kind text) :
    tokenize (" ".intercalate texts) = .ok (tokensFrom 0 texts) := by
  rw [(spacedTiling h).tokenize_eq, Tiling.tokens, spacedTiling, map_token_tilesFrom]

/-- A token of a script stands there where its position says. -/
theorem Tiling.exists_split {source : String} (tiling : Tiling source) {front behind : List Token}
    {token : Token} (h : tiling.tokens = front ++ token :: behind) :
    ∃ before after : String, source = before ++ token.text ++ after ∧
      before.utf8ByteSize = token.position := by
  obtain ⟨tiles, others, ht, -, ho⟩ := List.map_eq_append_iff.1 h
  obtain ⟨tile, more, rfl, rfl, -⟩ := List.map_eq_cons_iff.1 ho
  refine ⟨String.ofList (Tile.texts tiles ++ tile.gap),
    String.ofList (Tile.texts more ++ tiling.rest), ?_, ?_⟩
  · rw [← String.toList_inj, ← tiling.text, ht]
    simp
  · rw [tiling.laid.position tiles tile more ht, Text.byteSize, Text.length_encode]

end BoolScript
