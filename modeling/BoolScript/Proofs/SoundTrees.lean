import BoolScript.Proofs.ProgramGrammar
import BoolScript.Proofs.Requests
import BoolScript.Proofs.Vocabulary
import BoolScript.Script

/-!
# The trees of a script are sound

A tree may be meaningless in two ways: a literal is no truth word, or something other than a
variable is assigned to. Trees put together by hand can be like that. The trees of a script are not,
by whichever rule it is read: `isSound_of_parse`. The scanner makes a token a truth word only if its
text is one, and the reader makes an assignment only of a name.

The action of a sound tree has no fault in it, whatever its surroundings answer
(`Expr.isFaultless_evalAll`).
-/

namespace BoolScript

namespace Expr

/-- Every literal is a truth word, and every assignment is to a variable. -/
def IsSound : Expr → Prop
  | literal text _ => ∃ value, Text.truth? text = some value
  | var _ _ => True
  | binary (.logical _) left right _ => left.IsSound ∧ right.IsSound
  | binary .assign target value _ => (∃ name, target.target? = some name) ∧ value.IsSound
  | unary _ _ operand _ => operand.IsSound

/-- A formula is sound if its literals are truth words. -/
theorem IsFormula.isSound {tree : Expr} (hf : tree.IsFormula) (hw : tree.HasTruthWords) :
    tree.IsSound := by
  induction tree with
  | literal text position => exact hw
  | var name position => trivial
  | binary op left right position ihl ihr =>
    cases op with
    | logical connective => exact ⟨ihl hf.1 hw.1, ihr hf.2 hw.2⟩
    | assign => exact hf.elim
  | unary op text operand position ih => exact hf.elim

end Expr

/-! ## Reading -/

namespace Reading

theorem Element.isSound_tree {element : Element} (h : element.token.IsSpelled) :
    element.tree.IsSound :=
  (Derivation.leaf element).isFormula_tree.isSound (Element.hasTruthWords_tree h)

theorem Derivation.isSound_tree {strength : Strength} {d : Derivation strength}
    (h : ∀ token ∈ d.tokens, token.IsSpelled) : d.tree.IsSound :=
  d.isFormula_tree.isSound (d.hasTruthWords_tree h)

theorem StatementDerivation.isSound_tree {d : StatementDerivation}
    (h : ∀ token ∈ d.tokens, token.IsSpelled) : d.tree.IsSound := by
  cases d with
  | assignment target sign value semicolon =>
    exact ⟨⟨target.text, rfl⟩, value.isSound_tree (h _ (by simp [tokens]))⟩
  | postfixNot operand operator semicolon | prefixNot operator operand semicolon
  | print operator operand semicolon => exact operand.isSound_tree (h _ (by simp [tokens]))
  | expression inner semicolon =>
    exact inner.isSound_tree fun token hm => h token (List.mem_append_left _ hm)

/-- A tree that is derived from some of these tokens. -/
inductive IsDerivedFrom (tokens : List Token) : Expr → Prop where
  | expression (d : Derivation .disjunction) (h : d.tokens ⊆ tokens) : IsDerivedFrom tokens d.tree
  | statement (d : StatementDerivation) (h : d.tokens ⊆ tokens) : IsDerivedFrom tokens d.tree

theorem isDerivedFrom_of_program {d : ProgramDerivation} {tree : Expr} (h : tree ∈ d.trees) :
    IsDerivedFrom d.tokens tree := by
  rcases List.mem_append.1 h with h | h
  · obtain ⟨first, hm, rfl⟩ := List.mem_map.1 h
    refine .statement first fun token ht => ?_
    exact List.mem_append_left _ (List.mem_flatMap.2 ⟨first, hm, ht⟩)
  · obtain ⟨only, ho, rfl⟩ : ∃ only, d.last = some only ∧ only.tree = tree := by simpa using h
    refine .expression only fun token ht => ?_
    exact List.mem_append_right _ (by simpa [ho] using ht)

/-- The trees that a rule reads are derived from the tokens. -/
theorem isDerivedFrom_of_reading {rule : Rule} {tokens rest : List Token} {trees : List Expr}
    (h : rule.reading tokens = .ok trees rest) : ∀ tree ∈ trees, IsDerivedFrom tokens tree := by
  cases rule with
  | expression =>
    obtain ⟨tree, _, he, hp⟩ := bind_eq_ok_iff.1 h
    obtain ⟨rfl, rfl⟩ := pure_eq_ok_iff.1 hp
    obtain ⟨read, rfl, hd, -⟩ := derives_of_operators he
    obtain ⟨d, rfl, rfl⟩ := hd.exists_derivation
    simpa using IsDerivedFrom.expression d (List.subset_append_left _ _)
  | assignment =>
    obtain ⟨tree, _, ha, hp⟩ := bind_eq_ok_iff.1 h
    obtain ⟨rfl, rfl⟩ := pure_eq_ok_iff.1 hp
    cases tree with
    | none => simp
    | some tree =>
      obtain ⟨hs, hform⟩ := assignment_eq_some_iff.1 ha
      obtain ⟨d, rfl, rfl⟩ := derivation_of_assignment hs hform
      simpa using IsDerivedFrom.statement d (List.subset_append_left _ _)
  | unary =>
    obtain ⟨tree, _, hu, hp⟩ := bind_eq_ok_iff.1 h
    obtain ⟨rfl, rfl⟩ := pure_eq_ok_iff.1 hp
    obtain ⟨d, rfl, rfl⟩ := derivation_of_unaryStatement hu
    simpa using IsDerivedFrom.statement d (List.subset_append_left _ _)
  | program =>
    obtain ⟨d, rfl, rfl⟩ := ProgramDerivation.exists_of_program h
    exact fun tree => isDerivedFrom_of_program

end Reading

/-- The trees of a script are sound. -/
theorem isSound_of_parse {rule : Rule} {source : String} {trees : List Expr}
    (h : rule.parse source = .ok trees) : ∀ tree ∈ trees, tree.IsSound := by
  obtain ⟨tokens, rest, ht, hr⟩ := Rule.parse_eq_ok_iff.1 h
  intro tree hm
  have hspelled := isSpelled_of_mem_tokenize ht
  cases Reading.isDerivedFrom_of_reading hr tree hm with
  | expression d hd => exact d.isSound_tree fun token hm => hspelled token (hd hm)
  | statement d hd => exact d.isSound_tree fun token hm => hspelled token (hd hm)

/-! ## Requests of sound trees -/

namespace Expr

/-- A sound tree requests values, and it does not fail. -/
theorem IsSound.fail_notMem_requests {tree : Expr} (h : tree.IsSound) (mode : NotMode)
    (defect : Fault) : .fail defect ∉ tree.requests mode := by
  induction tree with
  | literal text position =>
    obtain ⟨value, hv⟩ := h
    simp [requests, literalValue, hv]
  | var name position => simp [requests]
  | binary op left right position ihl ihr =>
    cases op with
    | logical connective => simp [requests, ihl h.1, ihr h.2]
    | assign =>
      obtain ⟨⟨name, ht⟩, hv⟩ := h
      simp [requests, ht, ihr hv]
  | unary op text operand position ih =>
    cases op with
    | print => simp [requests, ih h]
    | not => cases mode <;> simp [requests, ih h]

/-- Only names of the tree are read and written. -/
theorem mem_names_of_mem_requests {tree : Expr} {mode : NotMode} {request : Request}
    (h : request ∈ tree.requests mode) {name : String} (hn : request.name? = some name) :
    name ∈ tree.names := by
  induction tree with
  | literal text position =>
    rw [requests] at h
    split at h
    · cases h
    · obtain rfl := List.mem_singleton.1 h
      cases hn
  | var other position =>
    obtain rfl := List.mem_singleton.1 h
    cases hn
    exact List.mem_singleton_self name
  | binary op left right position ihl ihr =>
    cases op with
    | logical connective =>
      rw [requests, List.mem_append] at h
      exact List.mem_append.2 (h.imp ihl ihr)
    | assign =>
      rw [requests] at h
      split at h
      · next target ht =>
        rcases List.mem_append.1 h with h | h
        · exact List.mem_append_right _ (ihr h)
        · -- The name that is written is the left side.
          obtain rfl := List.mem_singleton.1 h
          obtain rfl : target = name := Option.some.inj hn
          obtain ⟨start, rfl⟩ := target?_eq_some_iff.1 ht
          exact List.mem_append_left _ (List.mem_singleton_self target)
      · obtain rfl := List.mem_singleton.1 h
        cases hn
  | unary op text operand position ih =>
    cases op with
    | print =>
      rcases List.mem_append.1 h with h | h
      · exact ih h
      · obtain rfl := List.mem_singleton.1 h
        cases hn
    | not =>
      cases mode with
      | operatorText => cases h
      | operand => exact ih h

/-- Only names of the trees are read and written. -/
theorem mem_names_of_mem_requestsAll {trees : List Expr} {mode : NotMode} {request : Request}
    (h : request ∈ requestsAll mode trees) {name : String} (hn : request.name? = some name) :
    name ∈ trees.flatMap names := by
  obtain ⟨tree, ht, hm⟩ := List.mem_flatMap.1 h
  exact List.mem_flatMap.2 ⟨tree, ht, mem_names_of_mem_requests hm hn⟩

end Expr

/-- No branch of the action ends in a fault. -/
def Action.IsFaultless {α : Type} : Action α → Prop
  | finish _ => True
  | fault _ => False
  | fetch _ next => ∀ value, (next value).IsFaultless
  | store _ _ next => next.IsFaultless
  | print _ next => next.IsFaultless

theorem Action.Follows.isFaultless {α : Type} {requests : List Request} {action : Action α}
    (h : Follows requests action) (hf : ∀ defect, .fail defect ∉ requests) :
    action.IsFaultless := by
  induction h with
  | finish => trivial
  | fault defect rest => exact absurd List.mem_cons_self (hf defect)
  | fetch _ ih =>
    intro value
    exact ih value fun defect hm => hf defect (List.mem_cons_of_mem _ hm)
  | store _ ih | print _ ih => exact ih fun defect hm => hf defect (List.mem_cons_of_mem _ hm)

theorem Expr.fail_notMem_requestsAll {trees : List Expr} (h : ∀ tree ∈ trees, tree.IsSound)
    (mode : NotMode) (defect : Fault) : .fail defect ∉ Expr.requestsAll mode trees := by
  rw [requestsAll, List.mem_flatMap]
  rintro ⟨tree, hm, hf⟩
  exact (h tree hm).fail_notMem_requests mode defect hf

/-- The action of sound trees has no fault in it. -/
theorem Expr.isFaultless_evalAll {trees : List Expr} (h : ∀ tree ∈ trees, tree.IsSound)
    (mode : NotMode) : (Expr.evalAll mode trees).IsFaultless :=
  (follows_evalAll mode trees).isFaultless (fail_notMem_requestsAll h mode)

end BoolScript
