import BoolScript.Proofs.Unambiguity
import BoolScript.Reading.Soundness

/-!
# Expressions are read exactly as the grammar has them

Reading an expression answers with a tree and leaves some tokens if and only if the tokens in front
of those derive the tree and those do not continue it. There is one way at most to cut tokens like
that, for each strength of expression.

## Shape of the chains

The rules of the grammar grow a chain of connectives at its right end. `Chain` has the same chain as
one operand and a list of links behind it, and the tree as a fold over the links from the left; the
two lemmas `exists_derivation_conjunction_iff` and `exists_derivation_disjunction_iff` say that the
rules and the lists are the same grammar.
-/

namespace BoolScript.Reading

/-! ## Chains -/

/-- A connective and the operand behind it. -/
structure Link (strength : Strength) (kinds : List Kind) where
  operator : Token
  operand : Derivation strength
  kind : operator.kind ∈ kinds

namespace Link

variable {strength : Strength} {kinds : List Kind}

/-- The tokens of a link. -/
def tokens (link : Link strength kinds) : List Token :=
  link.operator :: link.operand.tokens

/-- The connective of a link. -/
def connective (link : Link strength kinds) : Connective :=
  if link.operator.kind = .and then .and else if link.operator.kind = .or then .or else .xor

/-- What stands in front of a link becomes the left operand of its connective. -/
def join (left : Expr) (link : Link strength kinds) : Expr :=
  .logical link.connective left link.operand.tree link.operator.position

end Link

/-- An operand and any number of links behind it. -/
structure Chain (strength : Strength) (kinds : List Kind) where
  first : Derivation strength
  links : List (Link strength kinds)

namespace Chain

variable {strength : Strength} {kinds : List Kind}

/-- The tokens of a chain. -/
def tokens (chain : Chain strength kinds) : List Token :=
  chain.first.tokens ++ chain.links.flatMap Link.tokens

/-- The tree of a chain, which leans to the left. -/
def tree (chain : Chain strength kinds) : Expr :=
  chain.links.foldl Link.join chain.first.tree

/-- A chain with one more link at its end. -/
def snoc (chain : Chain strength kinds) (link : Link strength kinds) : Chain strength kinds :=
  ⟨chain.first, chain.links ++ [link]⟩

@[simp] theorem tokens_single (first : Derivation strength) :
    (mk first [] : Chain strength kinds).tokens = first.tokens := by
  simp [tokens]

@[simp] theorem tree_single (first : Derivation strength) :
    (mk first [] : Chain strength kinds).tree = first.tree := rfl

@[simp] theorem tokens_snoc (chain : Chain strength kinds) (link : Link strength kinds) :
    (chain.snoc link).tokens = chain.tokens ++ link.tokens := by
  simp [tokens, snoc]

@[simp] theorem tree_snoc (chain : Chain strength kinds) (link : Link strength kinds) :
    (chain.snoc link).tree = link.join chain.tree := by
  simp [tree, snoc]

/-- If an operand is an expression, and an expression goes on with a link, then a chain is an
expression. -/
theorem exists_derivation {whole : Strength}
    (single : ∀ d : Derivation strength, ∃ e : Derivation whole,
      e.tokens = d.tokens ∧ e.tree = d.tree)
    (extend : ∀ (left : Derivation whole) (link : Link strength kinds), ∃ e : Derivation whole,
      e.tokens = left.tokens ++ link.tokens ∧ e.tree = link.join left.tree)
    (chain : Chain strength kinds) :
    ∃ e : Derivation whole, e.tokens = chain.tokens ∧ e.tree = chain.tree := by
  -- The links behind any expression can be read off one by one.
  have hlinks : ∀ (links : List (Link strength kinds)) (left : Derivation whole),
      ∃ e : Derivation whole, e.tokens = left.tokens ++ links.flatMap Link.tokens ∧
        e.tree = links.foldl Link.join left.tree := by
    intro links
    induction links with
    | nil =>
      intro left
      exact ⟨left, by simp, rfl⟩
    | cons link links ih =>
      intro left
      obtain ⟨middle, ht, hl⟩ := extend left link
      obtain ⟨e, hte, hle⟩ := ih middle
      exact ⟨e, by simp [hte, ht], by simp [hle, hl]⟩
  obtain ⟨left, ht, hl⟩ := single chain.first
  obtain ⟨e, hte, hle⟩ := hlinks chain.links left
  exact ⟨e, by rw [hte, ht, tokens], by rw [hle, hl, tree]⟩

end Chain

/-! ### Conjunctions -/

theorem Derivation.exists_chain_of_conjunction :
    ∀ d : Derivation .conjunction, ∃ chain : Chain .factor [.and],
      chain.tokens = d.tokens ∧ chain.tree = d.tree
  | .factor inner => ⟨⟨inner, []⟩, by simp [tokens], rfl⟩
  | .tight left operator right ho => by
    obtain ⟨chain, ht, hl⟩ := left.exists_chain_of_conjunction
    refine ⟨chain.snoc ⟨operator, right, by simp [ho]⟩, ?_, ?_⟩
    · simp [ht, Link.tokens, tokens]
    · simp [hl, Link.join, Link.connective, ho, tree]

/-- A conjunction is an operand and any number of links with `and`. -/
theorem exists_derivation_conjunction_iff {read : List Token} {tree : Expr} :
    (∃ d : Derivation .conjunction, d.tokens = read ∧ d.tree = tree) ↔
      ∃ chain : Chain .factor [.and], chain.tokens = read ∧ chain.tree = tree := by
  constructor
  · rintro ⟨d, rfl, rfl⟩
    exact d.exists_chain_of_conjunction
  · rintro ⟨chain, rfl, rfl⟩
    refine chain.exists_derivation (fun d => ⟨.factor d, rfl, rfl⟩) fun left link => ?_
    have hk : link.operator.kind = .and := by simpa using link.kind
    refine ⟨.tight left link.operator link.operand hk, rfl, ?_⟩
    simp [Link.join, Link.connective, hk, Derivation.tree]

/-! ### Disjunctions -/

theorem Derivation.exists_chain_of_disjunction :
    ∀ d : Derivation .disjunction, ∃ chain : Chain .conjunction [.or, .xor],
      chain.tokens = d.tokens ∧ chain.tree = d.tree
  | .conjunction inner => ⟨⟨inner, []⟩, by simp [tokens], rfl⟩
  | .loose left operator right ho => by
    obtain ⟨chain, ht, hl⟩ := left.exists_chain_of_disjunction
    refine ⟨chain.snoc ⟨operator, right, by simpa using ho⟩, ?_, ?_⟩
    · simp [ht, Link.tokens, tokens]
    · rcases ho with ho | ho <;> simp [hl, Link.join, Link.connective, ho, tree]

/-- A disjunction is a conjunction and any number of links with `or` and `xor`. -/
theorem exists_derivation_disjunction_iff {read : List Token} {tree : Expr} :
    (∃ d : Derivation .disjunction, d.tokens = read ∧ d.tree = tree) ↔
      ∃ chain : Chain .conjunction [.or, .xor], chain.tokens = read ∧ chain.tree = tree := by
  constructor
  · rintro ⟨d, rfl, rfl⟩
    exact d.exists_chain_of_disjunction
  · rintro ⟨chain, rfl, rfl⟩
    refine chain.exists_derivation (fun d => ⟨.conjunction d, rfl, rfl⟩) fun left link => ?_
    have hk : link.operator.kind = .or ∨ link.operator.kind = .xor := by simpa using link.kind
    refine ⟨.loose left link.operator link.operand hk, rfl, ?_⟩
    rcases hk with hk | hk <;> simp [Link.join, Link.connective, hk, Derivation.tree]

/-! ## Where expressions stop -/

/-- The kinds of the connectives that an expression of this strength takes. -/
def Strength.connectives : Strength → List Kind
  | factor => []
  | conjunction => [.and]
  | disjunction => [.and, .or, .xor]

theorem stops_iff {strength : Strength} {rest : List Token} :
    Stops strength rest ↔ ∀ next ∈ rest.head?, next.kind ∉ strength.connectives := by
  refine forall₂_congr fun next _ => ?_
  cases strength <;> cases next.kind <;> simp [connective?, Strength.admits, Strength.connectives]

/-! ## Reading -/

/-- Reading answers with what the grammar derives, up to where it stops. -/
theorem operators_eq_ok_iff_exists_derivation {strength : Strength} {tokens rest : List Token}
    {tree : Expr} :
    operators strength tokens = .ok tree rest ↔
      ∃ d : Derivation strength, tokens = d.tokens ++ rest ∧ d.tree = tree ∧
        Stops strength rest := by
  constructor
  · intro h
    obtain ⟨read, rfl, hd, hs⟩ := derives_of_operators h
    obtain ⟨d, rfl, rfl⟩ := hd.exists_derivation
    exact ⟨d, rfl, rfl, hs⟩
  · rintro ⟨d, rfl, rfl, hs⟩
    exact operators_of_derives d.derives hs

/-- Tokens are cut in one way into an expression and what does not continue it. -/
theorem Derivation.eq_of_append_eq {strength : Strength} {d other : Derivation strength}
    {rest rest' : List Token} (h : d.tokens ++ rest = other.tokens ++ rest')
    (hs : Stops strength rest) (hs' : Stops strength rest') : d = other ∧ rest = rest' := by
  -- The reader stops at one place only.
  have hd := operators_of_derives d.derives hs
  rw [h, operators_of_derives other.derives hs'] at hd
  obtain ⟨-, rfl⟩ : other.tree = d.tree ∧ rest' = rest := by simpa using hd
  exact ⟨eq_of_tokens_eq (List.append_cancel_right h), rfl⟩

/-- Expressions of every strength are read exactly as the grammar has them. Reading answers if and
only if the tokens are an expression and a rest that does not continue it, and then with the tree of
the expression and this rest; there is one such cut at most. In the grammar a conjunction is a chain
of operands, a disjunction one of conjunctions, and the trees of both lean to the left. -/
theorem expressions_read_grammar (tokens : List Token) :
    (∀ tree rest, expression tokens = .ok tree rest ↔
      ∃ d : Derivation .disjunction, tokens = d.tokens ++ rest ∧ d.tree = tree ∧
        ∀ next ∈ rest.head?, next.kind ∉ [.and, .or, .xor]) ∧
    (∀ tree rest, conjunction tokens = .ok tree rest ↔
      ∃ d : Derivation .conjunction, tokens = d.tokens ++ rest ∧ d.tree = tree ∧
        ∀ next ∈ rest.head?, next.kind ≠ .and) ∧
    (∀ tree rest, factor tokens = .ok tree rest ↔
      ∃ d : Derivation .factor, tokens = d.tokens ++ rest ∧ d.tree = tree) ∧
    (∀ (strength : Strength) (d other : Derivation strength) (rest rest' : List Token),
      tokens = d.tokens ++ rest → (∀ next ∈ rest.head?, next.kind ∉ strength.connectives) →
      tokens = other.tokens ++ rest' → (∀ next ∈ rest'.head?, next.kind ∉ strength.connectives) →
      d = other ∧ rest = rest') ∧
    (∀ tree, (∃ d : Derivation .conjunction, d.tokens = tokens ∧ d.tree = tree) ↔
      ∃ chain : Chain .factor [.and], chain.tokens = tokens ∧ chain.tree = tree) ∧
    ∀ tree, (∃ d : Derivation .disjunction, d.tokens = tokens ∧ d.tree = tree) ↔
      ∃ chain : Chain .conjunction [.or, .xor], chain.tokens = tokens ∧ chain.tree = tree := by
  refine ⟨?_, ?_, ?_, ?_, fun _ => exists_derivation_conjunction_iff,
    fun _ => exists_derivation_disjunction_iff⟩
  · intro tree rest
    simp only [expression, operators_eq_ok_iff_exists_derivation, stops_iff, Strength.connectives]
  · intro tree rest
    simp only [conjunction, operators_eq_ok_iff_exists_derivation, stops_iff, Strength.connectives,
      List.mem_singleton]
  · intro tree rest
    simp only [factor, operators_eq_ok_iff_exists_derivation, stops_iff, Strength.connectives]
    simp
  · intro strength d other rest rest' h hs h' hs'
    exact Derivation.eq_of_append_eq (h.symm.trans h') (stops_iff.2 hs) (stops_iff.2 hs')

end BoolScript.Reading
