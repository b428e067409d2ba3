import BoolScript.Proofs.ProgramGrammar
import BoolScript.Proofs.TextRoundTrip
import BoolScript.Proofs.Tokenization
import BoolScript.Script

/-!
# Every node stands for one token

The trees of a script have a node for every token except parentheses and semicolons, and no others.
A node has the position of its token, and its text where it keeps one, so it points at its own text
in the script (`NodesPointAtTokens`). No token is lost, none has two nodes, and none is attached to
a node of another kind. The operands of a binary node lie on the two sides of it, and the trees of a
script lie one behind the other. Only a `not` may stand on either side of its operand.

## Shape of the proof

`Matches` says that some nodes and some tokens stand for each other, one to one and in any order. It
is kept when both are put together, so that each rule of the grammar is a sum of single tokens,
punctuation and smaller derivations. The order of the nodes is then that of the tokens, whose
positions ascend because each of them counts what stands in front of it.
-/

namespace BoolScript

namespace Expr

/-! ## Nodes -/

/-- The position of the root. -/
def position : Expr → Nat
  | literal _ position | var _ position | binary _ _ _ position | unary _ _ _ position => position

/-- The nodes of a tree, each with the subtree under it. -/
def nodes : Expr → List Expr
  | literal text position => [literal text position]
  | var name position => [var name position]
  | binary op left right position => binary op left right position :: (left.nodes ++ right.nodes)
  | unary op text operand position => unary op text operand position :: operand.nodes

/-- The root is the node of a token: it is of the token's kind, has its position, and keeps its text
unless it has two operands. -/
inductive StandsFor : Expr → Token → Prop where
  | literal {token : Token} (hk : token.kind = .trueWord ∨ token.kind = .falseWord) :
    StandsFor (literal token.text token.position) token
  | var {token : Token} (hk : token.kind = .name) :
    StandsFor (var token.text token.position) token
  | logical {token : Token} {connective : Connective}
    (hk : Reading.connective? token.kind = some connective) (left right : Expr) :
    StandsFor (logical connective left right token.position) token
  | assign {token : Token} (hk : token.kind = .assign) (target value : Expr) :
    StandsFor (binary .assign target value token.position) token
  | print {token : Token} (hk : token.kind = .print) (operand : Expr) :
    StandsFor (unary .print token.text operand token.position) token
  | not {token : Token} (hk : token.kind = .not) (operand : Expr) :
    StandsFor (unary .not token.text operand token.position) token

theorem StandsFor.position_eq {node : Expr} {token : Token} (h : node.StandsFor token) :
    node.position = token.position := by
  cases h <;> rfl

/-- Every node of the one lies in front of every node of the other. -/
def Precedes (tree other : Expr) : Prop :=
  ∀ first ∈ tree.nodes, ∀ second ∈ other.nodes, first.position < second.position

/-- Wherever there are two operands, the nodes of the left one lie in front of the operator and
those of the right one behind it. -/
def IsOrdered : Expr → Prop
  | literal _ _ | var _ _ => True
  | binary _ left right position =>
    (∀ node ∈ left.nodes, node.position < position) ∧
      (∀ node ∈ right.nodes, position < node.position) ∧ left.IsOrdered ∧ right.IsOrdered
  | unary _ _ operand _ => operand.IsOrdered

end Expr

namespace Text

/-- A text stands in a script at a position, which counts the bytes in front of it. -/
def StandsAt (source text : String) (position : Nat) : Prop :=
  ∃ before after : String, source = before ++ text ++ after ∧ before.utf8ByteSize = position

end Text

/-- The script has the text of the root at the position of the root. An operator has its symbol for
a text, in any letter case. -/
def Expr.IsWrittenIn (source : String) : Expr → Prop
  | literal text position => Text.StandsAt source text position
  | var name position => Text.StandsAt source name position
  | binary op _ _ position =>
    ∃ text, Text.sameFolded text op.symbol = true ∧ Text.StandsAt source text position
  | unary op text _ position =>
    Text.sameFolded text op.symbol = true ∧ Text.StandsAt source text position

/-! ## Nodes and tokens -/

/-- Parentheses and semicolons leave no node in a tree. -/
def Token.isPunctuation (token : Token) : Bool :=
  token.isParenthesis || token.kind == .semicolon

theorem Token.isPunctuation_iff {token : Token} : token.isPunctuation = true ↔
    token.kind = .openParen ∨ token.kind = .closeParen ∨ token.kind = .semicolon := by
  simp [isPunctuation, isParenthesis, or_assoc]

/-- The tokens that leave nodes. -/
def Token.significant (tokens : List Token) : List Token :=
  tokens.filter fun token => !token.isPunctuation

/-- The positions of the tokens ascend. -/
def Token.Ascend (tokens : List Token) : Prop :=
  tokens.Pairwise fun first second => first.position < second.position

/-- The nodes and the tokens that leave nodes stand for each other, one to one, in any order. -/
def Matches (nodes : List Expr) (tokens : List Token) : Prop :=
  Multiset.Rel Expr.StandsFor nodes (Token.significant tokens)

/-- The nodes of some trees point at tokens of a script. -/
structure NodesPointAtTokens (source : String) (tokens : List Token) (trees : List Expr) :
    Prop where
  /-- Nodes and tokens stand for each other. -/
  stand : Matches (trees.flatMap Expr.nodes) tokens
  /-- Their positions are the same. -/
  positions : ((trees.flatMap Expr.nodes).map Expr.position).Perm
    ((Token.significant tokens).map Token.position)
  /-- No position is that of two tokens. -/
  ascend : Token.Ascend tokens
  /-- The script has the texts of the nodes at their positions. -/
  written : ∀ tree ∈ trees, ∀ node ∈ tree.nodes, node.IsWrittenIn source
  /-- The trees lie one behind the other. -/
  apart : trees.Pairwise Expr.Precedes
  /-- The nodes of operands lie on their sides of the operator. -/
  ordered : ∀ tree ∈ trees, tree.IsOrdered

namespace Matches

theorem nil : Matches [] [] :=
  .zero

theorem append {nodes more : List Expr} {tokens rest : List Token} (h : Matches nodes tokens)
    (hm : Matches more rest) : Matches (nodes ++ more) (tokens ++ rest) := by
  rw [Matches, Token.significant, List.filter_append, ← Multiset.coe_add, ← Multiset.coe_add]
  exact Multiset.Rel.add h hm

theorem perm {nodes others : List Expr} {tokens : List Token} (h : Matches nodes tokens)
    (hp : nodes.Perm others) : Matches others tokens := by
  rwa [Matches, ← Multiset.coe_eq_coe.2 hp]

theorem punctuation {token : Token} (h : token.isPunctuation = true) : Matches [] [token] := by
  simp [Matches, Token.significant, h]

theorem single {node : Expr} {token : Token} (h : node.StandsFor token) :
    Matches [node] [token] := by
  have hp : token.isPunctuation = false := by
    rw [Bool.eq_false_iff, ne_eq, Token.isPunctuation_iff]
    cases h with
    | literal hk => rcases hk with hk | hk <;> simp [hk]
    | var hk | assign hk | print hk | not hk => simp [hk]
    | logical hk => rcases Reading.connective?_eq_some_iff.1 hk with h | h | h <;> simp [h.1]
  simpa [Matches, Token.significant, hp] using Multiset.Rel.cons h .zero

/-- A node between its operands. -/
theorem binary {op : BinaryOperator} {left right : Expr} {front behind : List Token} {token : Token}
    (hl : Matches left.nodes front) (hr : Matches right.nodes behind)
    (h : (Expr.binary op left right token.position).StandsFor token) :
    Matches (Expr.binary op left right token.position).nodes (front ++ token :: behind) :=
  (hl.append ((single h).append hr)).perm List.perm_middle

/-- What stands for some tokens in turn stands for all of them. -/
theorem flatMap {α : Type} {parts : List α} {nodes : α → List Expr} {tokens : α → List Token}
    (h : ∀ part, Matches (nodes part) (tokens part)) :
    Matches (parts.flatMap nodes) (parts.flatMap tokens) := by
  induction parts with
  | nil => exact nil
  | cons part parts ih => exact (h part).append ih

variable {nodes : List Expr} {tokens : List Token}

theorem exists_token (h : Matches nodes tokens) {node : Expr} (hm : node ∈ nodes) :
    ∃ token ∈ tokens, node.StandsFor token := by
  obtain ⟨token, ht, hs⟩ := Multiset.exists_mem_of_rel_of_mem h (Multiset.mem_coe.2 hm)
  exact ⟨token, List.mem_of_mem_filter (Multiset.mem_coe.1 ht), hs⟩

theorem positions (h : Matches nodes tokens) :
    (nodes.map Expr.position).Perm ((Token.significant tokens).map Token.position) := by
  rw [← Multiset.coe_eq_coe, ← Multiset.map_coe, ← Multiset.map_coe, ← Multiset.rel_eq,
    Multiset.rel_map]
  exact h.mono fun node _ token _ hs => hs.position_eq

/-- What holds of the positions of the tokens holds of those of the nodes. -/
theorem forall_position (h : Matches nodes tokens) {P : Nat → Prop}
    (ht : ∀ token ∈ tokens, P token.position) : ∀ node ∈ nodes, P node.position := by
  intro node hm
  obtain ⟨token, hmem, hs⟩ := h.exists_token hm
  rw [hs.position_eq]
  exact ht token hmem

/-- Nodes are in order if their tokens are. -/
theorem position_lt {others : List Expr} {rest : List Token} (h : Matches nodes tokens)
    (ho : Matches others rest)
    (ht : ∀ first ∈ tokens, ∀ second ∈ rest, first.position < second.position) :
    ∀ first ∈ nodes, ∀ second ∈ others, first.position < second.position := by
  refine h.forall_position (P := fun place => ∀ second ∈ others, place < second.position) ?_
  intro token hm
  exact ho.forall_position (ht token hm)

end Matches

/-- A node with two operands is in order if its tokens are. -/
theorem Expr.isOrdered_binary {op : BinaryOperator} {left right : Expr}
    {front behind : List Token} {token : Token} (hl : Matches left.nodes front)
    (hr : Matches right.nodes behind) (ha : Token.Ascend (front ++ token :: behind))
    (hlo : Token.Ascend front → left.IsOrdered) (hro : Token.Ascend behind → right.IsOrdered) :
    (binary op left right token.position).IsOrdered := by
  obtain ⟨hfront, hrest, hlt⟩ := List.pairwise_append.1 ha
  obtain ⟨hgt, hbehind⟩ := List.pairwise_cons.1 hrest
  have hleft : ∀ first ∈ front, first.position < token.position := fun first hf =>
    hlt first hf token List.mem_cons_self
  exact ⟨hl.forall_position (P := (· < token.position)) hleft,
    hr.forall_position (P := (token.position < ·)) hgt, hlo hfront, hro hbehind⟩

/-! ## Derivations -/

namespace Reading

theorem Element.standsFor (element : Element) : element.tree.StandsFor element.token := by
  rw [Element.tree]
  rcases element.kind with hk | hk | hk
  · rw [if_neg (by simp [hk])]
    exact .literal (.inl hk)
  · rw [if_neg (by simp [hk])]
    exact .literal (.inr hk)
  · rw [if_pos hk]
    exact .var hk

theorem Element.nodes_tree (element : Element) : element.tree.nodes = [element.tree] := by
  rw [Element.tree]
  split <;> rfl

theorem Element.matches_tree (element : Element) :
    Matches element.tree.nodes [element.token] := by
  rw [element.nodes_tree]
  exact .single element.standsFor

/-- The connective of a loose operator is its own. -/
theorem standsFor_loose {operator : Token} (ho : operator.kind = .or ∨ operator.kind = .xor)
    (left right : Expr) : Expr.StandsFor
      (.logical (if operator.kind = .or then .or else .xor) left right operator.position)
      operator := by
  refine .logical ?_ left right
  rcases ho with ho | ho <;> simp [ho, connective?]

/-- The nodes of an expression stand for its tokens. -/
theorem Derivation.matches_tree {strength : Strength} (d : Derivation strength) :
    Matches d.tree.nodes d.tokens := by
  induction d with
  | leaf operand => exact operand.matches_tree
  | parens opening inner closing ho hc ih =>
    have hopen : Matches [] [opening] := .punctuation (Token.isPunctuation_iff.2 (.inl ho))
    have hclose : Matches [] [closing] :=
      .punctuation (Token.isPunctuation_iff.2 (.inr (.inl hc)))
    simpa [tokens, tree] using (hopen.append ih).append hclose
  | factor inner ih | conjunction inner ih => exact ih
  | tight left operator right ho ihl ihr =>
    exact ihl.binary ihr (.logical (by rw [ho]; rfl) _ _)
  | loose left operator right ho ihl ihr => exact ihl.binary ihr (standsFor_loose ho _ _)

/-- Where the tokens ascend, the operands of an expression lie on their sides of the operators. -/
theorem Derivation.isOrdered_tree {strength : Strength} (d : Derivation strength)
    (h : Token.Ascend d.tokens) : d.tree.IsOrdered := by
  induction d with
  | leaf operand =>
    rw [tree, Element.tree]
    split <;> trivial
  | parens opening inner closing ho hc ih =>
    have hinner := (List.pairwise_append.1 h).1
    exact ih (List.pairwise_cons.1 hinner).2
  | factor inner ih | conjunction inner ih => exact ih h
  | tight left operator right ho ihl ihr | loose left operator right ho ihl ihr =>
    exact Expr.isOrdered_binary left.matches_tree right.matches_tree h ihl ihr

theorem Element.isOrdered_tree (element : Element) : element.tree.IsOrdered :=
  (Derivation.leaf element).isOrdered_tree (List.pairwise_singleton _ _)

namespace StatementDerivation

/-- The nodes of a statement stand for its tokens. -/
theorem matches_tree (d : StatementDerivation) : Matches d.tree.nodes d.tokens := by
  have hend : ∀ {semicolon : Token}, semicolon.kind = .semicolon → Matches [] [semicolon] :=
    fun he => .punctuation (Token.isPunctuation_iff.2 (.inr (.inr he)))
  cases d with
  | assignment target sign value semicolon ht hs he =>
    have htarget : Matches (Expr.var target.text target.position).nodes [target] :=
      .single (.var ht)
    have hnode := htarget.binary value.matches_tree (.assign hs _ _)
    simpa [tokens, tree] using hnode.append (hend he)
  | postfixNot operand operator semicolon ho he =>
    -- The operand stands in front of the operator here, but below it in the tree.
    have hnode := operand.matches_tree.append (.single (.not ho operand.tree))
    simpa [tokens, tree, Expr.nodes] using
      (hnode.perm List.perm_append_comm).append (hend he)
  | prefixNot operator operand semicolon ho he =>
    have hnode := (Matches.single (.not ho operand.tree)).append operand.matches_tree
    simpa [tokens, tree, Expr.nodes] using hnode.append (hend he)
  | print operator operand semicolon ho he =>
    have hnode := (Matches.single (.print ho operand.tree)).append operand.matches_tree
    simpa [tokens, tree, Expr.nodes] using hnode.append (hend he)
  | expression inner semicolon he =>
    simpa [tokens, tree] using inner.matches_tree.append (hend he)

theorem isOrdered_tree (d : StatementDerivation) (h : Token.Ascend d.tokens) :
    d.tree.IsOrdered := by
  cases d with
  | assignment target sign value semicolon ht hs he =>
    have hvalue : Token.Ascend ([target] ++ sign :: [value.token]) :=
      List.Pairwise.sublist (List.sublist_append_left [target, sign, value.token] [semicolon]) h
    exact Expr.isOrdered_binary (.single (.var ht)) value.matches_tree hvalue (fun _ => trivial)
      fun _ => value.isOrdered_tree
  | postfixNot operand | prefixNot _ operand | print _ operand => exact operand.isOrdered_tree
  | expression inner semicolon he => exact inner.isOrdered_tree (List.pairwise_append.1 h).1

end StatementDerivation

namespace ProgramDerivation

/-- The nodes of a program stand for its tokens. -/
theorem matches_trees (d : ProgramDerivation) :
    Matches (d.trees.flatMap Expr.nodes) d.tokens := by
  have hstatements : Matches (d.statements.flatMap fun first => first.tree.nodes)
      (d.statements.flatMap StatementDerivation.tokens) :=
    .flatMap StatementDerivation.matches_tree
  rw [trees, tokens, List.flatMap_append, List.flatMap_map]
  refine hstatements.append ?_
  cases d.last with
  | none => exact .nil
  | some last => simpa using last.matches_tree

/-- Where the tokens ascend, the trees of a program lie one behind the other. -/
theorem pairwise_trees (d : ProgramDerivation) (h : Token.Ascend d.tokens) :
    d.trees.Pairwise Expr.Precedes := by
  obtain ⟨hstatements, -, hlast⟩ := List.pairwise_append.1 h
  rw [trees, List.pairwise_append, List.pairwise_map]
  refine ⟨?_, ?_, ?_⟩
  · exact (List.pairwise_flatMap.1 hstatements).2.imp fun {first second} hlt =>
      first.matches_tree.position_lt second.matches_tree hlt
  · cases d.last <;> simp
  · rintro _ hf _ ho
    obtain ⟨first, hm, rfl⟩ := List.mem_map.1 hf
    cases hl : d.last with
    | none => simp [hl] at ho
    | some last =>
      obtain rfl : _ = last.tree := by simpa [hl] using ho
      refine first.matches_tree.position_lt last.matches_tree fun token ht other hother => ?_
      exact hlast token (List.mem_flatMap.2 ⟨first, hm, ht⟩) other (by simpa [hl] using hother)

theorem isOrdered_trees (d : ProgramDerivation) (h : Token.Ascend d.tokens) :
    ∀ tree ∈ d.trees, tree.IsOrdered := by
  obtain ⟨hstatements, hlast, -⟩ := List.pairwise_append.1 h
  intro tree hm
  rcases List.mem_append.1 hm with hm | hm
  · obtain ⟨first, hf, rfl⟩ := List.mem_map.1 hm
    exact first.isOrdered_tree ((List.pairwise_flatMap.1 hstatements).1 first hf)
  · cases hl : d.last with
    | none => simp [hl] at hm
    | some last =>
      obtain rfl : tree = last.tree := by simpa [hl] using hm
      rw [hl] at hlast
      exact last.isOrdered_tree hlast

end ProgramDerivation

end Reading

/-! ## Tokens of a script -/

theorem IsLexeme.toList_ne_nil {kind : Kind} {text : String} (h : IsLexeme kind text) :
    text.toList ≠ [] := by
  rcases isLexeme_iff.1 h with ⟨⟨first, rest, ht, -⟩, -⟩ | ⟨c, -, rfl⟩
  · simp [ht]
  · simp [Char.toString]

/-- Every token counts the ones in front of it. -/
theorem IsLaid.ascend {tiles : List Tile} (h : IsLaid tiles) :
    Token.Ascend (tiles.map Tile.token) := by
  rw [Token.Ascend, List.pairwise_map]
  induction tiles using List.reverseRecOn with
  | nil => exact .nil
  | append_singleton front last ih =>
    refine List.pairwise_append.2 ⟨ih h.of_append, List.pairwise_singleton _ _, ?_⟩
    intro tile hm other ho
    obtain rfl := List.mem_singleton.1 ho
    obtain ⟨before, after, rfl⟩ := List.append_of_mem hm
    have hsize : Text.byteSize tile.token.text.toList ≠ 0 := by
      rw [ne_eq, Text.byteSize_eq_zero_iff]
      exact (h.lexeme tile (List.mem_append_left _ hm)).toList_ne_nil
    rw [h.position before tile (after ++ [other]) (by simp),
      h.position (before ++ tile :: after) other [] (by simp)]
    simp only [Tile.texts_append, Tile.texts_cons, Text.byteSize_append]
    omega

/-- A node that stands for a token of a script is written there. -/
theorem Expr.StandsFor.isWrittenIn {source : String} {node : Expr} {token : Token}
    (h : node.StandsFor token) (hl : IsLexeme token.kind token.text)
    (ht : Text.StandsAt source token.text token.position) : node.IsWrittenIn source := by
  have hfolded : ∀ {kind : Kind} {symbol : String}, token.kind = kind → kind ≠ .name →
      IsLexeme kind symbol → Text.sameFolded token.text symbol = true := by
    rintro _ symbol rfl hn hs
    exact Text.sameFolded_iff.2 (hl.folded_eq hs hn)
  have hnot : ("not", Kind.not) ∈ keywords := by decide
  have hprint : ("print", Kind.print) ∈ keywords := by decide
  cases h with
  | literal | var => exact ht
  | @logical _ connective hk =>
    have hkind : token.kind = connective.kind := by
      rcases Reading.connective?_eq_some_iff.1 hk with ⟨h, rfl⟩ | ⟨h, rfl⟩ | ⟨h, rfl⟩ <;>
        exact h
    refine ⟨token.text, hfolded hkind ?_ connective.isLexeme_symbol, ht⟩
    cases connective <;> decide
  | assign hk =>
    exact ⟨token.text, hfolded hk (by decide) (.symbol (c := '=') (by decide)), ht⟩
  | print hk =>
    exact ⟨hfolded hk (by decide) (.keyword hprint (Text.sameFolded_self _)), ht⟩
  | not hk => exact ⟨hfolded hk (by decide) (.keyword hnot (Text.sameFolded_self _)), ht⟩

/-- The nodes of the trees of a script point at its tokens. Nodes and tokens other than parentheses
and semicolons stand for each other, one to one, and have the same positions. The text of a node is
what the script has at its position, and the symbol of an operator in some letter case. The trees
lie one behind the other, and the operands of each binary node on the two sides of it. -/
theorem Reading.program_nodes_point_at_tokens {source : String} {tokens rest : List Token}
    {trees : List Expr} (ht : tokenize source = .ok tokens)
    (hp : program tokens = .ok trees rest) : NodesPointAtTokens source tokens trees := by
  obtain ⟨tiling, rfl⟩ := exists_tiling_of_tokenize ht
  obtain ⟨d, hd, rfl⟩ := ProgramDerivation.exists_of_program hp
  have hascend : Token.Ascend tiling.tokens := tiling.laid.ascend
  rw [← hd] at hascend
  have hmatches := d.matches_trees
  refine hd ▸ ⟨hmatches, hmatches.positions, hascend, ?_, d.pairwise_trees hascend,
    d.isOrdered_trees hascend⟩
  intro tree hm node hn
  obtain ⟨token, hmem, hs⟩ := hmatches.exists_token (List.mem_flatMap.2 ⟨tree, hm, hn⟩)
  rw [hd] at hmem
  obtain ⟨front, behind, hsplit⟩ := List.append_of_mem hmem
  exact hs.isWrittenIn (isLexeme_of_mem_tokenize ht token hmem) (tiling.exists_split hsplit)

/-- A comment whose letters take two bytes each, a `not` behind its operand, parentheses that leave
no node, and an expression without its semicolon. -/
theorem Reading.program_nodes_point_at_tokens_of_commented_script :
    let source := "// да\nX = TRUE; y NoT;\n(a OR b) and x"
    let trees : List Expr :=
      [.binary .assign (.var "X" 8) (.literal "TRUE" 12) 10,
        .unary .not "NoT" (.var "y" 18) 20,
        .logical .and (.logical .or (.var "a" 26) (.var "b" 31) 28) (.var "x" 38) 34]
    ∃ tokens rest, tokenize source = .ok tokens ∧ program tokens = .ok trees rest ∧
      NodesPointAtTokens source tokens trees := by
  intro source trees
  have hparse : Rule.program.parse source = .ok trees := by decide +kernel
  obtain ⟨tokens, rest, ht, hp⟩ := Rule.parse_eq_ok_iff.1 hparse
  exact ⟨tokens, rest, ht, hp, program_nodes_point_at_tokens ht hp⟩

end BoolScript
