import BoolScript.Token.Basic
import BoolScript.Text.Line
import BoolScript.Text.Utf8
import Mathlib

/-!
# Scripts as tokens and gaps

What it means that some tokens are the tokens of a script, said without reading the script from left
to right: the script is cut into pieces, and the pieces are the texts of the tokens and the gaps
between them.

## Shape of a tiling

* `IsLexeme` says which texts a token of some kind may have;
* `IsGap` says which characters may stand between tokens. A comment has to come to its end before
  the next token starts, so what stands behind a gap takes part in this;
* `IsLaid` says of tiles, each a gap and the token behind it, that they fit together: every position
  counts the bytes in front of it, and two words never touch.

A `Tiling` of a script is a list of tiles and one gap behind them all, with the whole script for
their text. `Tiling.eq_of_tokens_eq` says that the tokens leave no choice of the gaps.
-/

namespace BoolScript

/-! ## Bytes -/

namespace Text

/-- How many bytes some characters take in UTF-8. -/
def byteSize (text : List Char) : Nat :=
  (encode (String.ofList text)).length

@[simp] theorem byteSize_nil : byteSize [] = 0 := rfl

@[simp] theorem byteSize_append (text more : List Char) :
    byteSize (text ++ more) = byteSize text + byteSize more := by
  simp [byteSize, String.ofList_append]

@[simp] theorem byteSize_singleton (c : Char) : byteSize [c] = c.utf8Size := by
  simp [byteSize]

theorem byteSize_cons (c : Char) (text : List Char) :
    byteSize (c :: text) = c.utf8Size + byteSize text := by
  rw [← List.singleton_append, byteSize_append, byteSize_singleton]

theorem byteSize_eq_zero_iff {text : List Char} : byteSize text = 0 ↔ text = [] := by
  cases text with
  | nil => simp
  | cons c text =>
    have := Char.utf8Size_pos c
    simp only [byteSize_cons, reduceCtorEq, iff_false]
    omega

/-- Two beginnings of the same text that take the same number of bytes are the same. -/
theorem eq_of_prefix_of_byteSize_eq {front other text : List Char} (hf : front <+: text)
    (ho : other <+: text) (h : byteSize front = byteSize other) : front = other := by
  rcases List.prefix_or_prefix_of_prefix hf ho with ⟨more, rfl⟩ | ⟨more, rfl⟩
  · obtain rfl : more = [] := by
      rw [byteSize_append] at h
      exact byteSize_eq_zero_iff.1 (by omega)
    simp
  · obtain rfl : more = [] := by
      rw [byteSize_append] at h
      exact byteSize_eq_zero_iff.1 (by omega)
    simp

end Text

/-! ## Lexemes -/

/-- The characters that are tokens by themselves. -/
def symbols : List (Char × Kind) :=
  [('=', .assign), ('(', .openParen), (')', .closeParen), (';', .semicolon)]

theorem symbolKind?_eq_some_iff {c : Char} {kind : Kind} :
    symbolKind? c = some kind ↔ (c, kind) ∈ symbols := by
  unfold symbolKind? symbols
  constructor
  · intro h
    split at h <;> simp_all
  · intro h
    simp only [List.mem_cons, Prod.mk.injEq, List.not_mem_nil, or_false] at h
    rcases h with ⟨rfl, rfl⟩ | ⟨rfl, rfl⟩ | ⟨rfl, rfl⟩ | ⟨rfl, rfl⟩ <;> rfl

/-- A letter or an underscore, and behind it letters, digits and underscores. -/
def IsWordText (text : List Char) : Prop :=
  ∃ first rest, text = first :: rest ∧ isWordStart first = true ∧ ∀ c ∈ rest, isWordPart c = true

theorem IsWordText.append {text : List Char} (h : IsWordText text) {c : Char}
    (hc : isWordPart c = true) : IsWordText (text ++ [c]) := by
  obtain ⟨first, rest, rfl, hf, hr⟩ := h
  exact ⟨first, rest ++ [c], rfl, hf, List.forall_mem_append.2 ⟨hr, by simpa using hc⟩⟩

/-- The texts that a token of each kind may have. -/
inductive IsLexeme : Kind → String → Prop where
  /-- A keyword in any letter case. -/
  | keyword {text keyword : String} {kind : Kind} (hk : (keyword, kind) ∈ keywords)
    (ht : Text.sameFolded text keyword = true) : IsLexeme kind text
  /-- A word that is no keyword in any letter case. -/
  | name {text : String} (hw : IsWordText text.toList)
    (hn : ∀ entry ∈ keywords, Text.sameFolded text entry.1 = false) : IsLexeme .name text
  /-- A character that is a token by itself. -/
  | symbol {c : Char} {kind : Kind} (h : (c, kind) ∈ symbols) : IsLexeme kind c.toString

/-- The kinds of words. -/
def Kind.IsWord (kind : Kind) : Prop :=
  kind = .name ∨ ∃ keyword, (keyword, kind) ∈ keywords

theorem Kind.not_isWord_of_symbol {c : Char} {kind : Kind} (h : (c, kind) ∈ symbols) :
    ¬ kind.IsWord := by
  simp only [symbols, List.mem_cons, Prod.mk.injEq, List.not_mem_nil, or_false] at h
  rcases h with ⟨-, rfl⟩ | ⟨-, rfl⟩ | ⟨-, rfl⟩ | ⟨-, rfl⟩ <;> simp [IsWord, keywords]

/-- A keyword in any letter case is a word. -/
theorem isWordText_of_keyword {text keyword : String} {kind : Kind}
    (hk : (keyword, kind) ∈ keywords) (ht : Text.sameFolded text keyword = true) :
    IsWordText text.toList := by
  have hletters : ∀ entry ∈ keywords,
      Text.folded entry.1 ≠ [] ∧ (Text.folded entry.1).all Char.isAlpha = true := by decide
  obtain ⟨hne, hall⟩ := hletters _ hk
  rw [← Text.sameFolded_iff.1 ht] at hne hall
  rw [List.all_eq_true] at hall
  have halpha : ∀ c ∈ text.toList, c.isAlpha = true := by
    intro c hc
    rw [← Char.isAlpha_toLower_eq_isAlpha]
    exact hall _ (List.mem_map_of_mem hc)
  cases h : text.toList with
  | nil => simp [Text.folded, h] at hne
  | cons first rest =>
    rw [h] at halpha
    refine ⟨first, rest, rfl, ?_, fun c hc => ?_⟩
    · simp [isWordStart, halpha first List.mem_cons_self]
    · exact isWordPart_of_isWordStart
        (by simp [isWordStart, halpha c (List.mem_cons_of_mem _ hc)])

theorem wordKind_of_keyword {text keyword : String} {kind : Kind}
    (hk : (keyword, kind) ∈ keywords) (ht : Text.sameFolded text keyword = true) :
    wordKind text = kind := by
  have hkinds : ∀ entry ∈ keywords, wordKind entry.1 = entry.2 := by decide
  rw [wordKind_congr (Text.sameFolded_iff.1 ht)]
  exact hkinds (keyword, kind) hk

/-- A lexeme is a word that has its kind by `wordKind`, or a symbol. -/
theorem isLexeme_iff {kind : Kind} {text : String} :
    IsLexeme kind text ↔ (IsWordText text.toList ∧ wordKind text = kind) ∨
      ∃ c, (c, kind) ∈ symbols ∧ text = c.toString := by
  constructor
  · intro h
    cases h with
    | keyword hk ht => exact .inl ⟨isWordText_of_keyword hk ht, wordKind_of_keyword hk ht⟩
    | name hw hn => exact .inl ⟨hw, wordKind_eq_name_iff.2 hn⟩
    | symbol hs => exact .inr ⟨_, hs, rfl⟩
  · rintro (⟨hw, hk⟩ | ⟨c, hs, rfl⟩)
    · by_cases hn : kind = .name
      · subst hn
        exact .name hw (wordKind_eq_name_iff.1 hk)
      · obtain ⟨keyword, hm, ht⟩ := exists_keyword_of_wordKind hk hn
        exact .keyword hm ht
    · exact .symbol hs

theorem IsLexeme.isWord_of_isWordText {kind : Kind} {text : String} (h : IsLexeme kind text)
    (hw : IsWordText text.toList) : kind.IsWord := by
  cases h with
  | keyword hk => exact .inr ⟨_, hk⟩
  | name => exact .inl rfl
  | @symbol c kind hs =>
    -- No symbol starts a word.
    have hall : ∀ entry ∈ symbols, isWordStart entry.1 = false := by decide
    obtain ⟨first, rest, ht, hf, -⟩ := hw
    obtain ⟨rfl, -⟩ : c = first ∧ [] = rest := by simpa [Char.toString] using ht
    rw [hall _ hs] at hf
    cases hf

/-- The texts of a kind differ in letter case at most, except that names have any texts. -/
theorem IsLexeme.folded_eq {kind : Kind} {text other : String} (h : IsLexeme kind text)
    (ho : IsLexeme kind other) (hk : kind ≠ .name) : Text.folded text = Text.folded other := by
  have hwords : ∀ entry ∈ keywords, ∀ entry' ∈ keywords, entry.2 = entry'.2 →
      entry.1 = entry'.1 := by decide
  have hsymbols : ∀ entry ∈ symbols, ∀ entry' ∈ symbols, entry.2 = entry'.2 →
      entry.1 = entry'.1 := by decide
  cases h with
  | name => exact absurd rfl hk
  | @keyword _ word _ hm ht =>
    cases ho with
    | name => exact absurd rfl hk
    | @keyword _ word' _ hm' ht' =>
      obtain rfl : word = word' := hwords _ hm _ hm' rfl
      exact (Text.sameFolded_iff.1 ht).trans (Text.sameFolded_iff.1 ht').symm
    | symbol hs => exact absurd (.inr ⟨_, hm⟩) (Kind.not_isWord_of_symbol hs)
  | @symbol c _ hs =>
    cases ho with
    | name => exact absurd rfl hk
    | keyword hm => exact absurd (.inr ⟨_, hm⟩) (Kind.not_isWord_of_symbol hs)
    | @symbol c' _ hs' =>
      obtain rfl : c = c' := hsymbols _ hs _ hs' rfl
      rfl

/-! ## Gaps -/

/-- The characters of blank space. -/
def blanks : List Char :=
  [' ', '\t', '\r', '\n', '\x0c']

theorem isBlank_iff {c : Char} : isBlank c = true ↔ c ∈ blanks := by
  simp [isBlank, blanks, or_assoc]

/-- The characters may stand in front of the others as a gap: they are blank space and comments, and
each comment goes on up to a line break or the end of the text. -/
inductive IsGap (behind : List Char) : List Char → Prop where
  | nil : IsGap behind []
  | blank {c : Char} {gap : List Char} (hc : c ∈ blanks) (h : IsGap behind gap) :
    IsGap behind (c :: gap)
  | comment {text gap : List Char} (ht : ∀ c ∈ text, Text.isLineBreak c = false)
    (he : ∀ c ∈ (gap ++ behind).head?, Text.isLineBreak c = true) (h : IsGap behind gap) :
    IsGap behind ('/' :: '/' :: text ++ gap)

/-- Two gaps one behind the other are a gap. -/
theorem IsGap.append {gap more behind : List Char} (h : IsGap (more ++ behind) gap)
    (hm : IsGap behind more) : IsGap behind (gap ++ more) := by
  induction h with
  | nil => exact hm
  | blank hc _ ih => exact .blank hc ih
  | @comment text gap ht he _ ih =>
    rw [List.append_assoc]
    exact .comment ht (by rwa [List.append_assoc]) ih

/-! ## Tiles -/

/-- A gap and the token behind it. -/
@[ext]
structure Tile where
  gap : List Char
  token : Token

/-- The characters of a tile. -/
def Tile.text (tile : Tile) : List Char :=
  tile.gap ++ tile.token.text.toList

/-- The characters of some tiles. -/
def Tile.texts (tiles : List Tile) : List Char :=
  tiles.flatMap Tile.text

@[simp] theorem Tile.texts_nil : Tile.texts [] = [] := rfl

@[simp] theorem Tile.texts_append (tiles more : List Tile) :
    Tile.texts (tiles ++ more) = Tile.texts tiles ++ Tile.texts more := by
  simp [texts]

@[simp] theorem Tile.texts_cons (tile : Tile) (tiles : List Tile) :
    Tile.texts (tile :: tiles) = tile.gap ++ (tile.token.text.toList ++ Tile.texts tiles) := by
  simp [texts, text]

/-- The tiles fit together. -/
structure IsLaid (tiles : List Tile) : Prop where
  /-- A position counts the bytes in front of the token. -/
  position : ∀ before tile after, tiles = before ++ tile :: after →
    tile.token.position = Text.byteSize (Tile.texts before ++ tile.gap)
  /-- A token has a text of its kind. -/
  lexeme : ∀ tile ∈ tiles, IsLexeme tile.token.kind tile.token.text
  /-- The characters in front of a token are a gap. -/
  gap : ∀ tile ∈ tiles, IsGap tile.token.text.toList tile.gap
  /-- Two words do not touch. -/
  apart : ∀ before first second after, tiles = before ++ first :: second :: after →
    first.token.kind.IsWord → second.token.kind.IsWord → second.gap ≠ []

theorem isLaid_nil : IsLaid [] where
  position := by simp
  lexeme := by simp
  gap := by simp
  apart := by simp

/-- The last of some tiles is a word. -/
def EndsInWord (tiles : List Tile) : Prop :=
  ∃ front last, tiles = front ++ [last] ∧ last.token.kind.IsWord

/-- One more tile fits behind the others. -/
theorem IsLaid.snoc {tiles : List Tile} {tile : Tile} (h : IsLaid tiles)
    (position : tile.token.position = Text.byteSize (Tile.texts tiles ++ tile.gap))
    (lexeme : IsLexeme tile.token.kind tile.token.text)
    (gap : IsGap tile.token.text.toList tile.gap)
    (apart : EndsInWord tiles → tile.token.kind.IsWord → tile.gap ≠ []) :
    IsLaid (tiles ++ [tile]) where
  position := by
    intro before other after he
    rcases after.eq_nil_or_concat with rfl | ⟨others, last, rfl⟩
    · obtain ⟨rfl, he⟩ := List.append_inj' he rfl
      obtain rfl : tile = other := by simpa using he
      exact position
    · rw [List.concat_eq_append, ← List.cons_append, ← List.append_assoc] at he
      exact h.position before other others (List.append_inj' he rfl).1
  lexeme := by
    simpa [or_imp, forall_and] using ⟨h.lexeme, lexeme⟩
  gap := by
    simpa [or_imp, forall_and] using ⟨h.gap, gap⟩
  apart := by
    intro before first second after he hf hs
    rcases after.eq_nil_or_concat with rfl | ⟨others, last, rfl⟩
    · rw [List.append_cons before] at he
      obtain ⟨rfl, he⟩ := List.append_inj' he rfl
      obtain rfl : tile = second := by simpa using he
      exact apart ⟨before, first, rfl, hf⟩ hs
    · rw [List.concat_eq_append, ← List.cons_append, ← List.cons_append,
        ← List.append_assoc] at he
      exact h.apart before first second others (List.append_inj' he rfl).1 hf hs

/-- The first of some tiles that fit together fit together. -/
theorem IsLaid.of_append {tiles more : List Tile} (h : IsLaid (tiles ++ more)) : IsLaid tiles where
  position := by
    rintro before tile after rfl
    exact h.position before tile (after ++ more) (by simp)
  lexeme := fun tile hm => h.lexeme tile (List.mem_append_left more hm)
  gap := fun tile hm => h.gap tile (List.mem_append_left more hm)
  apart := by
    rintro before first second after rfl
    exact h.apart before first second (after ++ more) (by simp)

/-- A script cut into tiles and a gap behind them. -/
structure Tiling (source : String) where
  tiles : List Tile
  rest : List Char
  /-- Nothing of the script is lost. -/
  text : Tile.texts tiles ++ rest = source.toList
  laid : IsLaid tiles
  gap : IsGap [] rest

/-- The tokens of a tiling. -/
def Tiling.tokens {source : String} (tiling : Tiling source) : List Token :=
  tiling.tiles.map Tile.token

/-! ### One choice of the gaps -/

/-- The bytes in front of a token tell its gap from what stands in front of it. -/
theorem gap_eq_of_position_eq {before : List Tile} {tile other : Tile} {source : List Char}
    (ht : Tile.texts before ++ tile.gap <+: source) (ho : Tile.texts before ++ other.gap <+: source)
    (h : Text.byteSize (Tile.texts before ++ tile.gap) =
      Text.byteSize (Tile.texts before ++ other.gap)) : tile.gap = other.gap :=
  List.append_cancel_left (Text.eq_of_prefix_of_byteSize_eq ht ho h)

/-- Behind the same tiles the same tokens have the same gaps. -/
theorem tiles_eq_of_tokens_eq {source : List Char} {before tiles others : List Tile}
    {rest rest' : List Char} (hl : IsLaid (before ++ tiles)) (hl' : IsLaid (before ++ others))
    (ht : Tile.texts (before ++ tiles) ++ rest = source)
    (ht' : Tile.texts (before ++ others) ++ rest' = source)
    (h : tiles.map Tile.token = others.map Tile.token) : tiles = others ∧ rest = rest' := by
  induction tiles generalizing before others with
  | nil =>
    obtain rfl : others = [] := by simpa using h.symm
    exact ⟨rfl, List.append_cancel_left (ht.trans ht'.symm)⟩
  | cons tile tiles ih =>
    cases others with
    | nil => simp at h
    | cons other others =>
      obtain ⟨hk, hrest⟩ := List.cons.inj h
      have hp := hl.position before tile tiles rfl
      have hp' := hl'.position before other others rfl
      have htile : Tile.texts before ++ tile.gap <+: source :=
        ⟨tile.token.text.toList ++ Tile.texts tiles ++ rest, by simp [← ht]⟩
      have hother : Tile.texts before ++ other.gap <+: source :=
        ⟨other.token.text.toList ++ Tile.texts others ++ rest', by simp [← ht']⟩
      have hgap : tile.gap = other.gap :=
        gap_eq_of_position_eq htile hother (by rw [← hp, ← hp', hk])
      obtain rfl := Tile.ext hgap hk
      rw [List.append_cons] at hl hl' ht ht'
      obtain ⟨rfl, rfl⟩ := ih hl hl' ht ht' hrest
      exact ⟨rfl, rfl⟩

/-- The tokens of a tiling leave no choice of the gaps. -/
theorem Tiling.eq_of_tokens_eq {source : String} {tiling other : Tiling source}
    (h : tiling.tokens = other.tokens) : tiling = other := by
  obtain ⟨tiles, rest, ht, hl, hg⟩ := tiling
  obtain ⟨tiles', rest', ht', hl', hg'⟩ := other
  have hlaid : IsLaid ([] ++ tiles) := hl
  obtain ⟨rfl, rfl⟩ := tiles_eq_of_tokens_eq hlaid hl' ht ht' h
  rfl

end BoolScript
