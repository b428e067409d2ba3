import BoolScript.Expr.Render
import BoolScript.Proofs.Cuts
import BoolScript.Proofs.TextRoundTrip

/-!
# The written form of a tree tells the tree

The form with every operator in front of its operands shows where each operand ends, although it is
a flat text: a word ends where no more letters come, and everything else ends with the parenthesis
that closes it. So two trees of proper words have the same form only if they are the same but for
the places of their nodes and the texts of their unary operators, which the form does not show
(`Expr.render_eq_iff`). This is so of all trees, also of those that no script is read as.

## Shape of the proof

The induction is on a tree with any text behind it that does not go on with a word. What a tree is
written as, together with that text, can be cut in one way only (`shown_eq_of_render_append`); the
operator is cut off in front of its operands by the space behind it.
-/

namespace BoolScript

/-! ## Words -/

theorem IsWordText.forall_isWordPart {text : List Char} (h : IsWordText text) :
    ∀ c ∈ text, isWordPart c = true := by
  obtain ⟨first, rest, rfl, hf, hr⟩ := h
  exact List.forall_mem_cons.2 ⟨isWordPart_of_isWordStart hf, hr⟩

/-- No word begins with a parenthesis. -/
theorem IsWordText.append_ne_open {text : List Char} (h : IsWordText text) (rest more : List Char) :
    text ++ rest ≠ '(' :: more := by
  obtain ⟨first, others, rfl, hf, -⟩ := h
  intro he
  obtain ⟨rfl, -⟩ := List.cons.inj he
  exact absurd hf (by decide)

/-- Words are told from what stands behind them. -/
theorem IsWordText.append_inj {text text' : String} {rest rest' : List Char}
    (h : IsWordText text.toList) (h' : IsWordText text'.toList)
    (hr : Text.EndsRun isWordPart rest) (hr' : Text.EndsRun isWordPart rest')
    (he : text.toList ++ rest = text'.toList ++ rest') : text = text' ∧ rest = rest' := by
  obtain ⟨ht, hrest⟩ :=
    Text.run_append_inj h.forall_isWordPart h'.forall_isWordPart hr hr' he
  exact ⟨String.toList_inj.1 ht, hrest⟩

/-- A truth word is a word and no name. -/
theorem Text.isWordText_of_truth? {text : String} (h : ∃ value, truth? text = some value) :
    IsWordText text.toList ∧ wordKind text ≠ .name := by
  obtain ⟨kind, hlexeme, hkind⟩ := isLexeme_of_truth? h
  rcases isLexeme_iff.1 hlexeme with ⟨hw, hk⟩ | ⟨c, hc, -⟩
  · refine ⟨hw, ?_⟩
    rw [hk]
    rcases hkind with rfl | rfl <;> decide
  · rcases hkind with rfl | rfl <;> simp [symbols] at hc

/-- A name is a word. -/
theorem IsLexeme.isWordText_of_name {name : String} (h : IsLexeme .name name) :
    IsWordText name.toList ∧ wordKind name = .name := by
  rcases isLexeme_iff.1 h with hword | ⟨c, hc, -⟩
  · exact hword
  · simp [symbols] at hc

namespace Expr

/-! ## Written forms -/

/-- What the written form shows of a tree: neither the places of the nodes nor the texts of the
unary operators. -/
def shown : Expr → Expr
  | literal text _ => literal text 0
  | var name _ => var name 0
  | binary op left right _ => binary op left.shown right.shown 0
  | unary op _ operand _ => unary op "" operand.shown 0

/-- Trees of which the same is shown are written alike. -/
theorem render_shown (tree : Expr) : tree.shown.render = tree.render := by
  induction tree with
  | literal | var => rfl
  | binary op left right position ihl ihr => rw [shown, render, render, ihl, ihr]
  | unary op text operand position ih => rw [shown, render, render, ih]

theorem toList_render_binary_append (op : BinaryOperator) (left right : Expr) (position : Nat)
    (rest : List Char) :
    (binary op left right position).render.toList ++ rest =
      '(' :: (op.symbol.toList ++ ' ' ::
        (left.render.toList ++ ' ' :: (right.render.toList ++ ')' :: rest))) := by
  simp [render]

theorem toList_render_unary_append (op : UnaryOperator) (text : String) (operand : Expr)
    (position : Nat) (rest : List Char) :
    (unary op text operand position).render.toList ++ rest =
      '(' :: (op.symbol.toList ++ ' ' :: (operand.render.toList ++ ')' :: rest)) := by
  simp [render]

/-- A symbol ends at the space behind it. -/
theorem symbol_append_inj {symbol symbol' : String} {rest rest' : List Char}
    (h : ∀ c ∈ symbol.toList, (c != ' ') = true) (h' : ∀ c ∈ symbol'.toList, (c != ' ') = true)
    (he : symbol.toList ++ ' ' :: rest = symbol'.toList ++ ' ' :: rest') :
    symbol = symbol' ∧ rest = rest' := by
  obtain ⟨hs, hrest⟩ := Text.run_append_inj h h' (Text.endsRun_cons (by decide) rest)
    (Text.endsRun_cons (by decide) rest') he
  exact ⟨String.toList_inj.1 hs, (List.cons.inj hrest).2⟩

/-! ## Cutting -/

/-- The tree has one node. -/
def IsLeaf : Expr → Prop
  | literal _ _ | var _ _ => True
  | binary _ _ _ _ | unary _ _ _ _ => False

section

variable {tree other : Expr} (ht : tree.HasTruthWords) (hn : ∀ name ∈ tree.names, IsLexeme .name name)
  (ho : other.HasTruthWords) (hm : ∀ name ∈ other.names, IsLexeme .name name)

include ht hn

/-- A leaf is written as a word. -/
theorem IsLeaf.isWordText_render (h : tree.IsLeaf) : IsWordText tree.render.toList := by
  cases tree with
  | literal text position => exact (Text.isWordText_of_truth? ht).1
  | var name position => exact (hn name List.mem_cons_self).isWordText_of_name.1
  | binary | unary => exact h.elim

include ho hm

/-- A word is the form of one leaf, because no truth word is a name. -/
theorem IsLeaf.shown_eq (h : tree.IsLeaf) (h' : other.IsLeaf) (he : tree.render = other.render) :
    tree.shown = other.shown := by
  cases tree with
  | literal text position =>
    cases other with
    | literal => exact congrArg (literal · 0) he
    | var name position' =>
      obtain rfl : text = name := he
      exact absurd (hm text List.mem_cons_self).isWordText_of_name.2 (Text.isWordText_of_truth? ht).2
    | binary | unary => exact h'.elim
  | var name position =>
    cases other with
    | literal text position' =>
      obtain rfl : name = text := he
      exact absurd (hn name List.mem_cons_self).isWordText_of_name.2 (Text.isWordText_of_truth? ho).2
    | var => exact congrArg (var · 0) he
    | binary | unary => exact h'.elim
  | binary | unary => exact h.elim

/-- Nothing else is written as a word, whatever stands behind it. -/
theorem IsLeaf.shown_eq_of_append (h : tree.IsLeaf) {rest rest' : List Char}
    (hr : Text.EndsRun isWordPart rest) (hr' : Text.EndsRun isWordPart rest')
    (he : tree.render.toList ++ rest = other.render.toList ++ rest') :
    tree.shown = other.shown ∧ rest = rest' := by
  have hw := h.isWordText_render ht hn
  by_cases h' : other.IsLeaf
  · obtain ⟨hrender, hrest⟩ := hw.append_inj (h'.isWordText_render ho hm) hr hr' he
    exact ⟨h.shown_eq ht hn ho hm h' hrender, hrest⟩
  · cases other with
    | literal | var => exact absurd trivial h'
    | binary => exact absurd (he.trans (toList_render_binary_append ..)) (hw.append_ne_open _ _)
    | unary => exact absurd (he.trans (toList_render_unary_append ..)) (hw.append_ne_open _ _)

theorem IsLeaf.shown_eq_of_append_symm (h : other.IsLeaf) {rest rest' : List Char}
    (hr : Text.EndsRun isWordPart rest) (hr' : Text.EndsRun isWordPart rest')
    (he : tree.render.toList ++ rest = other.render.toList ++ rest') :
    tree.shown = other.shown ∧ rest = rest' := by
  obtain ⟨hs, hrest⟩ := h.shown_eq_of_append ho hm ht hn hr' hr he.symm
  exact ⟨hs.symm, hrest.symm⟩

end

/-- Whatever stands behind a tree, if it does not go on with a word, the tree is told from it. -/
theorem shown_eq_of_render_append {tree other : Expr} {rest rest' : List Char}
    (ht : tree.HasTruthWords) (hn : ∀ name ∈ tree.names, IsLexeme .name name)
    (ho : other.HasTruthWords) (hm : ∀ name ∈ other.names, IsLexeme .name name)
    (hr : Text.EndsRun isWordPart rest) (hr' : Text.EndsRun isWordPart rest')
    (he : tree.render.toList ++ rest = other.render.toList ++ rest') :
    tree.shown = other.shown ∧ rest = rest' := by
  have hspace (more : List Char) : Text.EndsRun isWordPart (' ' :: more) :=
    Text.endsRun_cons (by decide) more
  have hclose (more : List Char) : Text.EndsRun isWordPart (')' :: more) :=
    Text.endsRun_cons (by decide) more
  induction tree generalizing other rest rest' with
  | literal | var => exact IsLeaf.shown_eq_of_append ht hn ho hm trivial hr hr' he
  | binary op left right position ihl ihr =>
    cases other with
    | literal | var => exact IsLeaf.shown_eq_of_append_symm ht hn ho hm trivial hr hr' he
    | binary op' left' right' position' =>
      rw [toList_render_binary_append, toList_render_binary_append] at he
      obtain ⟨hop, he⟩ := symbol_append_inj BinaryOperator.ne_space_of_mem_symbol
        BinaryOperator.ne_space_of_mem_symbol (List.cons.inj he).2
      -- The left operand is cut off at the space behind it, the right one at the parenthesis.
      obtain ⟨hl, he⟩ := ihl ht.1 (fun name h => hn name (List.mem_append_left _ h)) ho.1
        (fun name h => hm name (List.mem_append_left _ h)) (hspace _) (hspace _) he
      obtain ⟨hright, he⟩ := ihr ht.2 (fun name h => hn name (List.mem_append_right _ h)) ho.2
        (fun name h => hm name (List.mem_append_right _ h)) (hclose _) (hclose _) (List.cons.inj he).2
      rw [shown, shown, BinaryOperator.symbol_injective hop, hl, hright]
      exact ⟨rfl, (List.cons.inj he).2⟩
    | unary op' text' operand' position' =>
      rw [toList_render_binary_append, toList_render_unary_append] at he
      obtain ⟨hop, -⟩ := symbol_append_inj BinaryOperator.ne_space_of_mem_symbol
        UnaryOperator.ne_space_of_mem_symbol (List.cons.inj he).2
      exact absurd hop (op.symbol_ne op')
  | unary op text operand position ih =>
    cases other with
    | literal | var => exact IsLeaf.shown_eq_of_append_symm ht hn ho hm trivial hr hr' he
    | binary op' left' right' position' =>
      rw [toList_render_unary_append, toList_render_binary_append] at he
      obtain ⟨hop, -⟩ := symbol_append_inj UnaryOperator.ne_space_of_mem_symbol
        BinaryOperator.ne_space_of_mem_symbol (List.cons.inj he).2
      exact absurd hop.symm (op'.symbol_ne op)
    | unary op' text' operand' position' =>
      rw [toList_render_unary_append, toList_render_unary_append] at he
      obtain ⟨hop, he⟩ := symbol_append_inj UnaryOperator.ne_space_of_mem_symbol
        UnaryOperator.ne_space_of_mem_symbol (List.cons.inj he).2
      have ho' : operand'.HasTruthWords := ho
      obtain ⟨hoperand, he⟩ := ih ht hn ho' hm (hclose _) (hclose _) he
      rw [shown, shown, UnaryOperator.symbol_injective hop, hoperand]
      exact ⟨rfl, (List.cons.inj he).2⟩

/-- Trees of truth words and names are written alike exactly if they are the same but for what the
written form does not show. -/
theorem render_eq_iff {tree other : Expr} (ht : tree.HasTruthWords)
    (hn : ∀ name ∈ tree.names, IsLexeme .name name) (ho : other.HasTruthWords)
    (hm : ∀ name ∈ other.names, IsLexeme .name name) :
    tree.render = other.render ↔ tree.shown = other.shown := by
  constructor
  · intro he
    have hend : Text.EndsRun isWordPart [] := Text.endsRun_nil _
    exact (shown_eq_of_render_append ht hn ho hm hend hend (by rw [he])).1
  · intro hs
    rw [← render_shown, hs, render_shown]

/-- An assignment inside a `print`, once with the texts and places of a script and once with others.
-/
theorem render_eq_iff_of_nested_assignment :
    let tree : Expr := .unary .print "print"
      (.binary .assign (.var "nots" 6)
        (.unary .not "not" (.logical .xor (.literal "TRUE" 18) (.var "_y1" 27) 23) 13) 11) 0
    let other : Expr := .unary .print ")"
      (.binary .assign (.var "nots" 0)
        (.unary .not "x not" (.logical .xor (.literal "TRUE" 0) (.var "_y1" 0) 0) 0) 0) 0
    tree.render = "(print (= nots (not (xor TRUE _y1))))" ∧ tree ≠ other ∧
      (tree.render = other.render ↔ tree.shown = other.shown) := by
  intro tree other
  have hnots : IsLexeme .name "nots" := isLexeme_iff.2 (.inl ⟨⟨'n', ['o', 't', 's'], by decide,
    by decide, List.all_eq_true.1 (by decide)⟩, by decide⟩)
  have hy : IsLexeme .name "_y1" := isLexeme_iff.2 (.inl ⟨⟨'_', ['y', '1'], by decide, by decide,
    List.all_eq_true.1 (by decide)⟩, by decide⟩)
  have hname : ∀ name ∈ ["nots", "_y1"], IsLexeme .name name := by
    simp [hnots, hy]
  have htruth : ∃ value, Text.truth? "TRUE" = some value := ⟨true, by decide⟩
  have htree : tree.HasTruthWords := ⟨trivial, htruth, trivial⟩
  have hother : other.HasTruthWords := ⟨trivial, htruth, trivial⟩
  exact ⟨by decide, by decide, render_eq_iff htree hname hother hname⟩

end Expr

end BoolScript
