import BoolScript.Expr.Render
import BoolScript.Proofs.Derivation
import BoolScript.Proofs.Spacing
import BoolScript.Reading.Completeness

/-!
# Formulas can be written down and read back

Every formula has a text, with each operator between its operands and no more parentheses than its
shape asks for: `Expr.written`. Reading the text gives the formula back, with each node at the place
where its token stands in the text (`Reading.expression_reads_written`). So there is no formula that
cannot be expressed, and the parentheses that are left out are those that the strengths of the
connectives and the leaning to the left make superfluous.

## Shape of the proof

What a formula is written as is a list of texts, and any tokens with these texts are an expression,
wherever they stand: `Reading.Yields` says so for one strength of expression. Each rule of the
grammar has its lemma, and the induction on the formula picks the rules by the parentheses.
-/

namespace BoolScript

namespace Expr

/-! ## Writing -/

/-- The root is an `or` or a `xor`. -/
def isLoose : Expr → Bool
  | binary (.logical .or) _ _ _ | binary (.logical .xor) _ _ _ => true
  | binary (.logical .and) _ _ _ | binary .assign _ _ _ | literal _ _ | var _ _
  | unary _ _ _ _ => false

/-- The root is an `and`. -/
def isTight : Expr → Bool
  | binary (.logical .and) _ _ _ => true
  | binary (.logical .or) _ _ _ | binary (.logical .xor) _ _ _ | binary .assign _ _ _
  | literal _ _ | var _ _ | unary _ _ _ _ => false

/-- The texts of an operand, in parentheses if it needs them. -/
def enclosed (needed : Bool) (texts : List String) : List String :=
  if needed then "(" :: texts ++ [")"] else texts

/-- The texts that a formula is written as. A left operand needs parentheses if it binds more loosely
than its connective, a right operand also if it binds as tightly. -/
def words : Expr → List String
  | literal text _ => [text]
  | var name _ => [name]
  | binary (.logical connective) left right _ =>
    enclosed (connective == .and && left.isLoose) left.words ++ connective.symbol ::
      enclosed (right.isLoose || connective == .and && right.isTight) right.words
  | binary .assign _ _ _ | unary _ _ _ _ => []

/-- The text of a formula, with a space between any two tokens. -/
def written (tree : Expr) : String :=
  " ".intercalate tree.words

/-- The strength of the expression that a formula is written as. -/
def strength (tree : Expr) : Reading.Strength :=
  if tree.isLoose then .disjunction else if tree.isTight then .conjunction else .factor

section

variable {connective : Connective} (hc : connective ≠ .and) (left right : Expr) (position : Nat)

include hc

/-- To the left of an `or` or a `xor` nothing needs parentheses. -/
theorem words_of_ne_and : (logical connective left right position).words =
    left.words ++ connective.symbol :: enclosed right.isLoose right.words := by
  have hne : (connective == .and) = false := beq_eq_false_iff_ne.2 hc
  rw [words, hne, Bool.false_and, Bool.false_and, Bool.or_false, enclosed,
    if_neg Bool.false_ne_true]

theorem strength_of_ne_and : (logical connective left right position).strength = .disjunction := by
  cases connective with
  | and => exact absurd rfl hc
  | or | xor => rfl

end

/-! ## Reading back -/

/-- The tree without the places of its nodes. -/
def unplaced : Expr → Expr
  | literal text _ => literal text 0
  | var name _ => var name 0
  | binary op left right _ => binary op left.unplaced right.unplaced 0
  | unary op text operand _ => unary op text operand.unplaced 0

/-- The nodes of a tree from left to right, each with the text of its token and its place. -/
def places : Expr → List (String × Nat)
  | literal text position => [(text, position)]
  | var name position => [(name, position)]
  | binary op left right position => left.places ++ (op.symbol, position) :: right.places
  | unary _ text operand position => (text, position) :: operand.places

end Expr

/-- Parentheses leave no node in a tree. -/
def Token.isParenthesis (token : Token) : Bool :=
  token.kind == .openParen || token.kind == .closeParen

/-- The places of the tokens that leave nodes. -/
def Token.places (tokens : List Token) : List (String × Nat) :=
  (tokens.filter fun token => !token.isParenthesis).map fun token => (token.text, token.position)

/-- A tree that differs from another one in the places of its nodes only, which are those of the
tokens, node by node. -/
structure Expr.IsPlaced (tree read : Expr) (tokens : List Token) : Prop where
  same : read.unplaced = tree.unplaced
  places : read.places = Token.places tokens

@[simp] theorem Token.places_append (tokens more : List Token) :
    Token.places (tokens ++ more) = Token.places tokens ++ Token.places more := by
  simp [Token.places]

theorem Token.places_cons_of_parenthesis {token : Token} (h : token.isParenthesis = true)
    (tokens : List Token) : Token.places (token :: tokens) = Token.places tokens := by
  simp [Token.places, h]

theorem Token.places_cons_of_not {token : Token} (h : token.isParenthesis = false)
    (tokens : List Token) :
    Token.places (token :: tokens) = (token.text, token.position) :: Token.places tokens := by
  simp [Token.places, h]

/-- The tokens have these texts. -/
structure Spells (texts : List String) (tokens : List Token) : Prop where
  texts : tokens.map Token.text = texts
  lexeme : ∀ token ∈ tokens, IsLexeme token.kind token.text

namespace Spells

theorem of_append {texts more : List String} {tokens : List Token}
    (h : Spells (texts ++ more) tokens) :
    ∃ front behind, tokens = front ++ behind ∧ Spells texts front ∧ Spells more behind := by
  obtain ⟨front, behind, rfl, hf, hb⟩ := List.map_eq_append_iff.1 h.texts
  exact ⟨front, behind, rfl, ⟨hf, fun token ht => h.lexeme token (List.mem_append_left _ ht)⟩,
    ⟨hb, fun token ht => h.lexeme token (List.mem_append_right _ ht)⟩⟩

/-- The text of the first token tells its kind. -/
theorem of_cons {text : String} {more : List String} {tokens : List Token} {kind : Kind}
    (h : Spells (text :: more) tokens) (hk : IsLexeme kind text) :
    ∃ token behind, tokens = token :: behind ∧ token.text = text ∧ token.kind = kind ∧
      Spells more behind := by
  obtain ⟨token, behind, rfl, rfl, hb⟩ := List.map_eq_cons_iff.1 h.texts
  have hlexeme := h.lexeme token List.mem_cons_self
  exact ⟨token, behind, rfl, rfl, hlexeme.textKind_eq.symm.trans hk.textKind_eq,
    ⟨hb, fun other ho => h.lexeme other (List.mem_cons_of_mem _ ho)⟩⟩

theorem eq_nil {tokens : List Token} (h : Spells [] tokens) : tokens = [] :=
  List.map_eq_nil_iff.1 h.texts

end Spells

theorem spells_tokensFrom {texts : List String} (h : ∀ text ∈ texts, ∃ kind, IsLexeme kind text)
    (position : Nat) : Spells texts (tokensFrom position texts) := by
  induction texts generalizing position with
  | nil => exact ⟨rfl, fun token ht => absurd ht List.not_mem_nil⟩
  | cons text more ih =>
    obtain ⟨kind, hk⟩ := h text List.mem_cons_self
    obtain ⟨ht, hl⟩ := ih (fun other ho => h other (List.mem_cons_of_mem _ ho))
      (position + text.utf8ByteSize + 1)
    refine ⟨congrArg (text :: ·) ht, List.forall_mem_cons.2 ⟨?_, hl⟩⟩
    rw [hk.textKind_eq]
    exact hk

/-- The kind of the token of a connective. -/
def Connective.kind : Connective → Kind
  | and => .and
  | or => .or
  | xor => .xor

theorem Connective.isLexeme_symbol (connective : Connective) :
    IsLexeme connective.kind connective.symbol := by
  have hm : (connective.symbol, connective.kind) ∈ keywords := by cases connective <;> decide
  exact .keyword hm (Text.sameFolded_self _)

/-- A truth word is a keyword. -/
theorem Text.isLexeme_of_truth? {text : String} (h : ∃ value, truth? text = some value) :
    ∃ kind, IsLexeme kind text ∧ (kind = .trueWord ∨ kind = .falseWord) := by
  have htrue : ("true", Kind.trueWord) ∈ keywords := by decide
  have hfalse : ("false", Kind.falseWord) ∈ keywords := by decide
  obtain ⟨value, h⟩ := h
  unfold truth? at h
  split at h
  · next ht => exact ⟨.trueWord, .keyword htrue ht, .inl rfl⟩
  · split at h
    · next hf => exact ⟨.falseWord, .keyword hfalse hf, .inr rfl⟩
    · cases h

namespace Reading

theorem connective?_kind (connective : Connective) :
    connective? connective.kind = some connective := by
  cases connective <;> rfl

/-! ## What tokens yield -/

/-- Any tokens with these texts are an expression of this strength, which is read as this tree. -/
def Yields (strength : Strength) (texts : List String) (tree : Expr) : Prop :=
  ∀ tokens, Spells texts tokens →
    ∃ read, Derives strength tokens read ∧ tree.IsPlaced read tokens

namespace Yields

variable {texts more : List String} {tree left right : Expr}

theorem conjunction (h : Yields .factor texts tree) : Yields .conjunction texts tree := by
  intro tokens ht
  obtain ⟨read, hd, hp⟩ := h tokens ht
  exact ⟨read, hd.factor, hp⟩

theorem disjunction (h : Yields .conjunction texts tree) : Yields .disjunction texts tree := by
  intro tokens ht
  obtain ⟨read, hd, hp⟩ := h tokens ht
  exact ⟨read, hd.conjunction, hp⟩

/-- Parentheses make an operand of any expression. -/
theorem parens (h : Yields .disjunction texts tree) :
    Yields .factor ("(" :: texts ++ [")"]) tree := by
  intro tokens ht
  have hopen : IsLexeme .openParen "(" := .symbol (c := '(') (by decide)
  have hclose : IsLexeme .closeParen ")" := .symbol (c := ')') (by decide)
  obtain ⟨opening, others, rfl, -, ho, ht⟩ := ht.of_cons hopen
  obtain ⟨inner, last, rfl, hi, hl⟩ := ht.of_append
  obtain ⟨closing, rest, rfl, -, hc, hrest⟩ := hl.of_cons hclose
  obtain rfl := hrest.eq_nil
  obtain ⟨read, hd, hp⟩ := h inner hi
  have ho' : opening.isParenthesis = true := by simp [Token.isParenthesis, ho]
  have hc' : closing.isParenthesis = true := by simp [Token.isParenthesis, hc]
  refine ⟨read, .parens ho hd hc, hp.same, ?_⟩
  rw [hp.places, Token.places_cons_of_parenthesis ho', Token.places_append,
    Token.places_cons_of_parenthesis hc']
  exact (List.append_nil _).symm

/-- A token that is no parenthesis is an operand by itself. -/
theorem leaf {kind : Kind} {text : String} (hk : IsLexeme kind text)
    (hl : ∀ token : Token, token.kind = kind → token.text = text → token.isParenthesis = false ∧
      ∃ read, leaf? token = some read ∧ read.unplaced = tree.unplaced ∧
        read.places = [(token.text, token.position)]) :
    Yields .factor [text] tree := by
  intro tokens ht
  obtain ⟨token, rest, rfl, htext, hkind, hrest⟩ := ht.of_cons hk
  obtain rfl := hrest.eq_nil
  obtain ⟨hp, read, hread, hs, hr⟩ := hl token hkind htext
  refine ⟨read, .leaf hread, hs, ?_⟩
  rw [hr, Token.places_cons_of_not hp]
  rfl

theorem literal {text : String} (h : ∃ value, Text.truth? text = some value) (position : Nat) :
    Yields .factor [text] (.literal text position) := by
  obtain ⟨kind, hk, hkind⟩ : ∃ kind, IsLexeme kind text ∧ (kind = .trueWord ∨ kind = .falseWord) :=
    Text.isLexeme_of_truth? h
  refine .leaf hk fun token ht htext => ?_
  rcases hkind with rfl | rfl
  all_goals
    refine ⟨by simp [Token.isParenthesis, ht], .literal token.text token.position, ?_, ?_, rfl⟩
    · simp [leaf?, ht]
    · rw [htext]
      rfl

theorem var {name : String} (h : IsLexeme .name name) (position : Nat) :
    Yields .factor [name] (.var name position) := by
  refine .leaf h fun token ht htext => ?_
  refine ⟨by simp [Token.isParenthesis, ht], .var token.text token.position, ?_, ?_, rfl⟩
  · simp [leaf?, ht]
  · rw [htext]
    rfl

/-- Two operands are joined at the place of the operator. -/
theorem join {strength strength' whole : Strength} {connective : Connective}
    (hl : Yields strength texts left) (hr : Yields strength' more right)
    (rule : ∀ {front behind : List Token} {operator : Token} {l r : Expr},
      operator.kind = connective.kind → Derives strength front l → Derives strength' behind r →
      Derives whole (front ++ operator :: behind) (.logical connective l r operator.position))
    (position : Nat) :
    Yields whole (texts ++ connective.symbol :: more) (.logical connective left right position) := by
  intro tokens ht
  obtain ⟨front, others, rfl, hfront, ho⟩ := ht.of_append
  obtain ⟨operator, behind, rfl, htext, hk, hbehind⟩ := ho.of_cons connective.isLexeme_symbol
  obtain ⟨l, hdl, hpl⟩ := hl front hfront
  obtain ⟨r, hdr, hpr⟩ := hr behind hbehind
  have hnode : operator.isParenthesis = false := by
    cases connective <;> simp [Token.isParenthesis, hk, Connective.kind]
  refine ⟨_, rule hk hdl hdr, ?_, ?_⟩
  · rw [Expr.unplaced, Expr.unplaced, hpl.same, hpr.same]
  · rw [Expr.places, hpl.places, hpr.places, Token.places_append, Token.places_cons_of_not hnode,
      htext]
    rfl

theorem tight (hl : Yields .conjunction texts left) (hr : Yields .factor more right)
    (position : Nat) :
    Yields .conjunction (texts ++ "and" :: more) (.logical .and left right position) :=
  hl.join hr (fun hk hdl hdr => hdl.tight hk hdr) position

theorem loose {connective : Connective} (hc : connective ≠ .and)
    (hl : Yields .disjunction texts left) (hr : Yields .conjunction more right) (position : Nat) :
    Yields .disjunction (texts ++ connective.symbol :: more)
      (.logical connective left right position) := by
  refine hl.join hr (fun hk hdl hdr => hdl.loose ?_ hc hdr) position
  rw [hk, connective?_kind]

end Yields

/-! ## Formulas -/

section

variable {tree : Expr}

/-- Without parentheses a formula is a disjunction at least. -/
theorem Yields.disjunction_words (h : Yields tree.strength tree.words tree) :
    Yields .disjunction tree.words tree := by
  unfold Expr.strength at h
  split at h
  · exact h
  · split at h
    · exact h.disjunction
    · exact h.conjunction.disjunction

/-- A formula whose root is an `or` or a `xor` is no conjunction, unless it is enclosed. -/
theorem Yields.conjunction_enclosed (h : Yields tree.strength tree.words tree) :
    Yields .conjunction (Expr.enclosed tree.isLoose tree.words) tree := by
  by_cases hl : tree.isLoose = true
  · rw [Expr.enclosed, if_pos hl]
    exact h.disjunction_words.parens.conjunction
  · rw [Expr.enclosed, if_neg hl]
    rw [Expr.strength, if_neg hl] at h
    split at h
    · exact h
    · exact h.conjunction

/-- A formula whose root is a connective is no operand, unless it is enclosed. -/
theorem Yields.factor_enclosed (h : Yields tree.strength tree.words tree) :
    Yields .factor (Expr.enclosed (tree.isLoose || tree.isTight) tree.words) tree := by
  by_cases hroot : (tree.isLoose || tree.isTight) = true
  · rw [Expr.enclosed, if_pos hroot]
    exact h.disjunction_words.parens
  · rw [Expr.enclosed, if_neg hroot]
    rw [Bool.or_eq_true, not_or] at hroot
    rw [Expr.strength, if_neg hroot.1, if_neg hroot.2] at h
    exact h

/-- Any tokens with the texts of a formula are read as the formula, at the places of the tokens. -/
theorem yields_words (hf : tree.IsFormula) (ht : tree.HasTruthWords)
    (hn : ∀ name ∈ tree.names, IsLexeme .name name) : Yields tree.strength tree.words tree := by
  induction tree with
  | literal text position => exact .literal ht position
  | var name position => exact .var (hn name List.mem_cons_self) position
  | unary => exact hf.elim
  | binary op left right position ihl ihr =>
    match op with
    | .assign => exact hf.elim
    | .logical connective =>
      have hl := ihl hf.1 ht.1 fun name hm => hn name (List.mem_append_left _ hm)
      have hr := ihr hf.2 ht.2 fun name hm => hn name (List.mem_append_right _ hm)
      by_cases hc : connective = .and
      · subst hc
        exact hl.conjunction_enclosed.tight hr.factor_enclosed position
      · rw [Expr.words_of_ne_and hc, Expr.strength_of_ne_and hc]
        exact hl.disjunction_words.loose hc hr.conjunction_enclosed position

end

end Reading

/-- A formula is written with lexemes only. -/
theorem Expr.exists_isLexeme_of_mem_words {tree : Expr} (hf : tree.IsFormula)
    (ht : tree.HasTruthWords) (hn : ∀ name ∈ tree.names, IsLexeme .name name) :
    ∀ text ∈ tree.words, ∃ kind, IsLexeme kind text := by
  have henclosed : ∀ (needed : Bool) (texts : List String),
      (∀ text ∈ texts, ∃ kind, IsLexeme kind text) →
      ∀ text ∈ enclosed needed texts, ∃ kind, IsLexeme kind text := by
    intro needed texts h text hm
    have hopen : IsLexeme .openParen "(" := .symbol (c := '(') (by decide)
    have hclose : IsLexeme .closeParen ")" := .symbol (c := ')') (by decide)
    cases needed with
    | false => exact h text hm
    | true =>
      rcases List.mem_cons.1 hm with rfl | hm
      · exact ⟨_, hopen⟩
      · rcases List.mem_append.1 hm with hm | hm
        · exact h text hm
        · exact ⟨_, List.mem_singleton.1 hm ▸ hclose⟩
  induction tree with
  | literal text position =>
    intro other hm
    obtain ⟨kind, hk, -⟩ := Text.isLexeme_of_truth? ht
    exact ⟨kind, List.mem_singleton.1 hm ▸ hk⟩
  | var name position =>
    intro other hm
    exact ⟨_, List.mem_singleton.1 hm ▸ hn name List.mem_cons_self⟩
  | unary => exact hf.elim
  | binary op left right position ihl ihr =>
    match op with
    | .assign => exact hf.elim
    | .logical connective =>
      intro text hm
      rw [words] at hm
      rcases List.mem_append.1 hm with hm | hm
      · exact henclosed _ _
          (ihl hf.1 ht.1 fun name hm => hn name (List.mem_append_left _ hm)) text hm
      · rcases List.mem_cons.1 hm with rfl | hm
        · exact ⟨_, connective.isLexeme_symbol⟩
        · exact henclosed _ _
            (ihr hf.2 ht.2 fun name hm => hn name (List.mem_append_right _ hm)) text hm

/-- Every formula is read back from its text. The tokens of the text are its words, each at its
place in the text. They are read as an expression to the last one, and the tree that comes of it is
the formula, node by node at the places of the tokens that are no parentheses. -/
theorem Reading.expression_reads_written {tree : Expr} (hf : tree.IsFormula) (ht : tree.HasTruthWords)
    (hn : ∀ name ∈ tree.names, IsLexeme .name name) :
    ∃ tokens read, tokenize tree.written = .ok tokens ∧ Reading.expression tokens = .ok read [] ∧
      tree.IsPlaced read tokens ∧ tokens.map Token.text = tree.words ∧
      ∀ front token behind, tokens = front ++ token :: behind →
        ∃ before after : String, tree.written = before ++ token.text ++ after ∧
          before.utf8ByteSize = token.position := by
  have hwords := Expr.exists_isLexeme_of_mem_words hf ht hn
  have hspells := spells_tokensFrom hwords 0
  have hyields := (Reading.yields_words hf ht hn).disjunction_words
  obtain ⟨read, hd, hp⟩ := hyields _ hspells
  have htokens := tokenize_spaced hwords
  have hstops : Reading.Stops .disjunction [] := fun token hm => by cases hm
  have hread := Reading.operators_of_derives hd hstops
  rw [List.append_nil] at hread
  refine ⟨tokensFrom 0 tree.words, read, htokens, hread, hp, hspells.texts, ?_⟩
  intro front token behind he
  have htiling := (spacedTiling hwords).tokenize_eq.symm.trans htokens
  exact (spacedTiling hwords).exists_split ((Except.ok.inj htiling).trans he)

/-- A formula with every connective, with operands that need parentheses and others that do not, and
with a name that begins like a keyword. -/
theorem Reading.expression_reads_written_of_three_connectives :
    let tree : Expr := .logical .xor
      (.logical .and (.logical .or (.var "x" 0) (.literal "TRUE" 0) 0) (.var "_y1" 0) 0)
      (.logical .or (.var "nots" 0) (.literal "fAlse" 0) 0) 0
    tree.written = "( x or TRUE ) and _y1 xor ( nots or fAlse )" ∧
      ∃ tokens read, tokenize tree.written = .ok tokens ∧ expression tokens = .ok read [] ∧
        tree.IsPlaced read tokens ∧ tokens.map Token.text = tree.words ∧
        ∀ front token behind, tokens = front ++ token :: behind →
          ∃ before after : String, tree.written = before ++ token.text ++ after ∧
            before.utf8ByteSize = token.position := by
  intro tree
  have hname : ∀ name ∈ tree.names, IsLexeme .name name := by
    intro name hm
    have hnames : tree.names = ["x", "_y1", "nots"] := rfl
    rw [hnames] at hm
    have hkind : wordKind name = .name := by
      revert name
      decide
    have hword : IsWordText name.toList := by
      simp only [List.mem_cons, List.not_mem_nil, or_false] at hm
      rcases hm with rfl | rfl | rfl
      · exact ⟨'x', [], by decide, by decide, List.all_eq_true.1 (by decide)⟩
      · exact ⟨'_', ['y', '1'], by decide, by decide, List.all_eq_true.1 (by decide)⟩
      · exact ⟨'n', ['o', 't', 's'], by decide, by decide, List.all_eq_true.1 (by decide)⟩
    exact isLexeme_iff.2 (.inl ⟨hword, hkind⟩)
  have htruth : tree.HasTruthWords :=
    ⟨⟨⟨trivial, true, by decide⟩, trivial⟩, trivial, false, by decide⟩
  have hformula : tree.IsFormula := ⟨⟨⟨trivial, trivial⟩, trivial⟩, trivial, trivial⟩
  exact ⟨by decide, expression_reads_written hformula htruth hname⟩

end BoolScript
