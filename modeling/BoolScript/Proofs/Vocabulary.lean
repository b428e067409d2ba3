import BoolScript.Proofs.Derivation
import BoolScript.Token.Scanner

/-!
# The truth words of a script

A token of a script is a truth word only if its text is one, so an expression that is read from a
script has truth words for its literals. Tokens put together by hand need not be like that.

`forall_mem_tokenize` is an induction over the scanner: what holds of the words and of the symbols
holds of all tokens of a script.
-/

namespace BoolScript

namespace Scanner

variable {P : Token → Prop}

/-- A property that every token has which the scanner can complete. -/
structure Completes (P : Token → Prop) : Prop where
  word : ∀ start letters, P (wordToken start letters)
  symbol : ∀ {c kind}, symbolKind? c = some kind → ∀ position, P ⟨kind, c.toString, position⟩

/-- The property is kept where nothing is under way. -/
theorem Completes.begin (hP : Completes P) {tokens : Array Token} {position : Nat} {c : Char}
    {next : Scanner} (h : begin tokens position c = .ok next) (ht : ∀ token ∈ tokens, P token) :
    ∀ token ∈ next.tokens, P token := by
  rcases begin_cases h with ⟨-, rfl⟩ | ⟨-, rfl⟩ | ⟨-, rfl⟩ | ⟨kind, hk, rfl⟩
  · exact ht
  · exact ht
  · exact ht
  · intro token hm
    rcases Array.mem_push.1 hm with hm | rfl
    · exact ht token hm
    · exact hP.symbol hk position

/-- The property is kept when a word is completed. -/
theorem Completes.push_word (hP : Completes P) {tokens : Array Token}
    (ht : ∀ token ∈ tokens, P token) (start : Nat) (letters : List Char) :
    ∀ token ∈ tokens.push (wordToken start letters), P token := by
  intro token hm
  rcases Array.mem_push.1 hm with hm | rfl
  · exact ht token hm
  · exact hP.word start letters

/-- One character keeps the property. -/
theorem Completes.push (hP : Completes P) {s next : Scanner} {c : Char} (h : s.push c = .ok next)
    (ht : ∀ token ∈ s.tokens, P token) : ∀ token ∈ next.tokens, P token := by
  unfold Scanner.push at h
  split at h
  · exact hP.begin h ht
  · next start letters _ =>
    split at h
    · cases h
      exact ht
    · -- The word ends in front of this character, which is then looked at afresh.
      exact hP.begin h (hP.push_word ht start letters)
  · split at h
    · cases h
      exact ht
    · cases h
  · split at h
    · exact hP.begin h ht
    · cases h
      exact ht

/-- So does a run of characters. -/
theorem Completes.pushAll (hP : Completes P) {s next : Scanner} {text : List Char}
    (h : s.pushAll text = .ok next) (ht : ∀ token ∈ s.tokens, P token) :
    ∀ token ∈ next.tokens, P token := by
  induction text generalizing s with
  | nil =>
    cases h
    exact ht
  | cons c text ih =>
    obtain ⟨middle, hp, h⟩ := pushAll_cons_eq_ok_iff.1 h
    exact ih h (hP.push hp ht)

/-- And so does the end of the text. -/
theorem Completes.finish (hP : Completes P) {s : Scanner} {tokens : List Token}
    (h : s.finish = .ok tokens) (ht : ∀ token ∈ s.tokens, P token) : ∀ token ∈ tokens, P token := by
  unfold Scanner.finish at h
  split at h
  · next start letters _ =>
    cases h
    intro token hm
    exact hP.push_word ht start letters token (Array.mem_toList_iff.1 hm)
  · cases h
  · cases h
    intro token hm
    exact ht token (Array.mem_toList_iff.1 hm)
  · cases h
    intro token hm
    exact ht token (Array.mem_toList_iff.1 hm)

end Scanner

/-- What holds of the words and of the symbols holds of all tokens of a script. -/
theorem forall_mem_tokenize {P : Token → Prop} (hP : Scanner.Completes P) {source : String}
    {tokens : List Token} (h : tokenize source = .ok tokens) : ∀ token ∈ tokens, P token := by
  obtain ⟨s, hs, hf⟩ := tokenize_eq_ok_iff.1 h
  refine hP.finish hf (hP.pushAll hs ?_)
  intro token hm
  exact absurd hm (Array.not_mem_empty token)

/-! ## Truth words -/

/-- If the token is a truth word by its kind, it is one by its text. -/
def Token.IsSpelled (token : Token) : Prop :=
  (token.kind = .trueWord → Text.truth? token.text = some true) ∧
    (token.kind = .falseWord → Text.truth? token.text = some false)

theorem isSpelled_wordToken (start : Nat) (letters : List Char) :
    (Scanner.wordToken start letters).IsSpelled := by
  constructor
  · intro h
    obtain ⟨keyword, hm, hs⟩ := exists_keyword_of_wordKind h (by decide)
    obtain rfl : keyword = "true" := by simpa [keywords] using hm
    rw [Text.truth?, Scanner.wordToken, if_pos hs]
  · intro h
    obtain ⟨keyword, hm, hs⟩ := exists_keyword_of_wordKind h (by decide)
    obtain rfl : keyword = "false" := by simpa [keywords] using hm
    -- No word is both `true` and `false` in some letter case.
    have hne : Text.sameFolded (String.ofList letters.reverse) "true" = false := by
      rw [Text.sameFolded, Text.sameFolded_iff.1 hs]
      decide
    rw [Text.truth?, Scanner.wordToken, hne, if_neg Bool.false_ne_true, if_pos hs]

theorem isSpelled_symbol {c : Char} {kind : Kind} (h : symbolKind? c = some kind)
    (position : Nat) : Token.IsSpelled ⟨kind, c.toString, position⟩ := by
  have hk : kind ≠ .trueWord ∧ kind ≠ .falseWord := by
    unfold symbolKind? at h
    split at h <;> cases h <;> decide
  exact ⟨fun ht => absurd ht hk.1, fun hf => absurd hf hk.2⟩

/-- The truth words of a script are truth words. -/
theorem isSpelled_of_mem_tokenize {source : String} {tokens : List Token}
    (h : tokenize source = .ok tokens) : ∀ token ∈ tokens, token.IsSpelled :=
  forall_mem_tokenize ⟨isSpelled_wordToken, isSpelled_symbol⟩ h

/-! ## Trees over truth words -/

namespace Reading

theorem Element.hasTruthWords_tree {element : Element} (h : element.token.IsSpelled) :
    element.tree.HasTruthWords := by
  rw [Element.tree]
  rcases element.kind with hk | hk | hk
  · rw [if_neg (by simp [hk])]
    exact ⟨true, h.1 hk⟩
  · rw [if_neg (by simp [hk])]
    exact ⟨false, h.2 hk⟩
  · rw [if_pos hk]
    trivial

/-- An expression over such tokens has truth words for its literals. -/
theorem Derivation.hasTruthWords_tree {strength : Strength} {d : Derivation strength}
    (h : ∀ token ∈ d.tokens, token.IsSpelled) : d.tree.HasTruthWords := by
  induction d with
  | leaf operand => exact operand.hasTruthWords_tree (h _ List.mem_cons_self)
  | parens opening inner closing ho hc ih =>
    apply ih
    intro token hm
    exact h token (List.mem_cons_of_mem _ (List.mem_append_left _ hm))
  | factor inner ih | conjunction inner ih => exact ih h
  | tight left operator right ho ihl ihr | loose left operator right ho ihl ihr =>
    constructor
    · apply ihl
      intro token hm
      exact h token (List.mem_append_left _ hm)
    · apply ihr
      intro token hm
      exact h token (List.mem_append_right _ (List.mem_cons_of_mem _ hm))

end Reading

end BoolScript
