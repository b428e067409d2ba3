import BoolScript.Proofs.Correspondence

/-!
# The rules see kinds alone

What a rule does with tokens depends on their kinds only. Texts and positions are put where they
belong, and where this is depends on the kinds too. To say so, the tokens are replaced by others of
the same kinds that have nothing of their own but their places in the list (`Token.numbered`). What
a rule makes of those tells which token each node comes from and which token an error points at, and
the result on the tokens themselves is this with their texts and positions filled in
(`Reading.eq_filledIn`). So if all texts and positions are changed, the rule chooses as before, and
other things are filled in (`Reading.rules_choose_by_kinds`).
-/

namespace BoolScript

/-! ## Filling in -/

/-- Tokens of these kinds that are known by their places in the list alone. -/
def Token.numbered (kinds : List Kind) : List Token :=
  kinds.mapIdx fun index kind => ⟨kind, "", index⟩

/-- The token at this place of the list. -/
def Token.nth (tokens : List Token) (index : Nat) : Token :=
  tokens.getD index default

/-- The tree with the texts and positions of the tokens whose places its nodes have. -/
def Expr.filledIn (tokens : List Token) : Expr → Expr
  | literal _ index => literal (Token.nth tokens index).text (Token.nth tokens index).position
  | var _ index => var (Token.nth tokens index).text (Token.nth tokens index).position
  | binary op left right index =>
    binary op (left.filledIn tokens) (right.filledIn tokens) (Token.nth tokens index).position
  | unary op _ operand index =>
    unary op (Token.nth tokens index).text (operand.filledIn tokens)
      (Token.nth tokens index).position

/-- The position of the token at this place; the end of the tokens stays the end. -/
def Location.filledIn (tokens : List Token) : Location → Location
  | position index => position (Token.nth tokens index).position
  | endOfInput => endOfInput

/-- The same error at the position of the token whose place it has. -/
def SyntaxError.filledIn (tokens : List Token) : SyntaxError → SyntaxError
  | expected kinds location => expected kinds (location.filledIn tokens)
  | expectedOperand location => expectedOperand (location.filledIn tokens)
  | unknownCharacter text index => unknownCharacter text (Token.nth tokens index).position

/-! ## Numbered tokens -/

namespace Token

/-- The numbered token has the place and the kind of the token. -/
def IsNumberOf (tokens : List Token) (number token : Token) : Prop :=
  tokens[number.position]? = some token ∧ number.kind = token.kind

theorem keepsKinds_isNumberOf (tokens : List Token) : KeepsKinds (IsNumberOf tokens) :=
  fun _ _ h => h.2

theorem forall₂_numbered (tokens : List Token) :
    List.Forall₂ (IsNumberOf tokens) (numbered (tokens.map kind)) tokens := by
  rw [List.forall₂_iff_get]
  refine ⟨by simp [numbered], ?_⟩
  intro index h h'
  simp [numbered, IsNumberOf, h']

theorem IsNumberOf.nth_eq {tokens : List Token} {number token : Token}
    (h : IsNumberOf tokens number token) : nth tokens number.position = token := by
  rw [nth, List.getD_eq_getElem?_getD, h.1, Option.getD_some]

end Token

/-- A list is mapped to another one if its items are. -/
theorem map_eq_of_forall₂ {α β : Type} {R : α → β → Prop} {f : α → β} {items : List α}
    {items' : List β} (hf : ∀ item item', R item item' → f item = item')
    (h : List.Forall₂ R items items') : items.map f = items' := by
  have hmap : List.Forall₂ Eq (items.map f) items' := List.forall₂_map_left_iff.2 (h.imp hf)
  rwa [List.forall₂_eq_eq_eq] at hmap

section

variable {tokens : List Token}

/-- What is made of numbered tokens is filled in with what is made of the tokens. -/
theorem Expr.Corresponds.filledIn_eq {tree tree' : Expr}
    (h : Corresponds (Token.IsNumberOf tokens) tree tree') : tree.filledIn tokens = tree' := by
  induction h with
  | literal h | var h => rw [filledIn, h.nth_eq]
  | logical h _ _ _ ihl ihr | assign h _ _ _ ihl ihr => rw [filledIn, h.nth_eq, ihl, ihr]
  | print h _ _ ih | not h _ _ ih => rw [filledIn, h.nth_eq, ih]

theorem Location.filledIn_ofTokens {rest rest' : List Token}
    (h : List.Forall₂ (Token.IsNumberOf tokens) rest rest') :
    (ofTokens rest).filledIn tokens = ofTokens rest' := by
  cases h with
  | nil => rfl
  | cons h _ => rw [ofTokens_cons, ofTokens_cons, filledIn, h.nth_eq]

theorem SyntaxError.SameAt.filledIn_eq {place place' : Location} {error error' : SyntaxError}
    (h : SameAt place place' error error') (hp : place.filledIn tokens = place') :
    error.filledIn tokens = error' := by
  cases h <;> rw [filledIn, hp]

end

namespace Reading

variable {α : Type} {A : (Token → Token → Prop) → α → α → Prop} {fill : List Token → α → α}
  {rule : Reading α}

/-- The result with the tokens whose places it has, in the answer or error and among those that are
left over. -/
def filledIn (fill : List Token → α → α) (tokens : List Token) :
    EStateM.Result SyntaxError (List Token) α → EStateM.Result SyntaxError (List Token) α
  | .ok answer rest =>
    .ok (fill tokens answer) (rest.map fun token => Token.nth tokens token.position)
  | .error error rest =>
    .error (error.filledIn tokens) (rest.map fun token => Token.nth tokens token.position)

/-! ## Choices -/

/-- The rule makes the same choices on the tokens and on their images. -/
structure ChoosesAlike (fill : List Token → α → α) (f : Token → Token) (tokens : List Token)
    (rule : Reading α) : Prop where
  /-- It takes equally many tokens, so that it leaves the images of those that it leaves. -/
  leftover_eq : leftover (rule (tokens.map f)) = (leftover (rule tokens)).map f
  /-- What comes of the tokens is settled by their kinds, but for what is filled in. -/
  result_eq : rule tokens =
    filledIn fill tokens (rule (Token.numbered (tokens.map Token.kind)))
  /-- The images are filled in at the same places of the same result. -/
  image_eq : rule (tokens.map f) =
    filledIn fill (tokens.map f) (rule (Token.numbered (tokens.map Token.kind)))

theorem SameResult.forall₂_leftover {β γ : Type} {R : Token → Token → Prop} {B : β → γ → Prop}
    {result : EStateM.Result SyntaxError (List Token) β}
    {result' : EStateM.Result SyntaxError (List Token) γ} (h : SameResult R B result result') :
    List.Forall₂ R (leftover result) (leftover result') := by
  cases h with
  | ok _ hr | error _ hr => exact hr

/-- The result on tokens is the one on numbered tokens with the tokens filled in. -/
theorem eq_filledIn (h : ∀ R, KeepsKinds R → Corresponds R (A R) rule rule)
    (hfill : ∀ tokens answer answer', A (Token.IsNumberOf tokens) answer answer' →
      fill tokens answer = answer') (tokens : List Token) :
    rule tokens = filledIn fill tokens (rule (Token.numbered (tokens.map Token.kind))) := by
  have hsame := h _ (Token.keepsKinds_isNumberOf tokens) _ _ (Token.forall₂_numbered tokens)
  have hrest {rest rest' : List Token} (hr : List.Forall₂ (Token.IsNumberOf tokens) rest rest') :
      rest.map (fun token => Token.nth tokens token.position) = rest' :=
    map_eq_of_forall₂ (fun _ _ hn => hn.nth_eq) hr
  generalize rule (Token.numbered (tokens.map Token.kind)) = drawn at hsame ⊢
  generalize rule tokens = result at hsame ⊢
  cases hsame with
  | ok ha hr => rw [filledIn, hfill _ _ _ ha, hrest hr]
  | error he hr => rw [filledIn, he.filledIn_eq (Location.filledIn_ofTokens hr), hrest hr]

/-- A rule that corresponds to itself, whatever the relation of tokens, chooses by kinds. -/
theorem choosesAlike_of_corresponds (h : ∀ R, KeepsKinds R → Corresponds R (A R) rule rule)
    (hfill : ∀ tokens answer answer', A (Token.IsNumberOf tokens) answer answer' →
      fill tokens answer = answer') {f : Token → Token} (hf : ∀ token, (f token).kind = token.kind)
    (tokens : List Token) : ChoosesAlike fill f tokens rule := by
  have hkinds : (tokens.map f).map Token.kind = tokens.map Token.kind := by simp [hf]
  refine ⟨?_, eq_filledIn h hfill tokens, ?_⟩
  · have himage : List.Forall₂ (fun token token' => f token = token') tokens (tokens.map f) :=
      List.forall₂_map_right_iff.2 (List.forall₂_same.2 fun _ _ => rfl)
    have hkeeps : KeepsKinds fun token token' => f token = token' := by
      rintro token _ rfl
      exact (hf token).symm
    exact (map_eq_of_forall₂ (fun _ _ he => he)
      (h _ hkeeps _ _ himage).forall₂_leftover).symm
  · rw [eq_filledIn h hfill (tokens.map f), hkinds]

/-- The rules choose by kinds alone. If the texts and the positions of tokens are changed in any way,
each rule takes as many tokens as before. It makes the same trees, with the texts and positions of
the changed tokens in the same places, or fails with the same error, which names the position of the
same token after the change, or the end as before. -/
theorem rules_choose_by_kinds {f : Token → Token} (hf : ∀ token, (f token).kind = token.kind)
    (tokens : List Token) :
    (∀ rule ∈ [expression, conjunction, factor, element, statement, unaryStatement],
      ChoosesAlike Expr.filledIn f tokens rule) ∧
    ChoosesAlike (fun tokens => Option.map (Expr.filledIn tokens)) f tokens assignment ∧
    ChoosesAlike (fun tokens => List.map (Expr.filledIn tokens)) f tokens program := by
  have hsingle {rule : Reading Expr}
      (h : ∀ R, KeepsKinds R → Corresponds R (Expr.Corresponds R) rule rule) :
      ChoosesAlike Expr.filledIn f tokens rule :=
    choosesAlike_of_corresponds h (fun _ _ _ ht => ht.filledIn_eq) hf tokens
  refine ⟨?_, ?_, ?_⟩
  · simp only [List.forall_mem_cons, List.not_mem_nil, false_implies, implies_true, and_true]
    exact ⟨hsingle fun R hR => corresponds_operators hR _,
      hsingle fun R hR => corresponds_operators hR _,
      hsingle fun R hR => corresponds_operators hR _, hsingle fun R hR => corresponds_element hR,
      hsingle fun R hR => corresponds_statement hR,
      hsingle fun R hR => corresponds_unaryStatement hR⟩
  · refine choosesAlike_of_corresponds (fun R hR => corresponds_assignment hR) ?_ hf tokens
    intro tokens answer answer' ha
    cases ha with
    | none => rfl
    | some ht => exact congrArg some ht.filledIn_eq
  · refine choosesAlike_of_corresponds (fun R hR => corresponds_program hR) ?_ hf tokens
    intro tokens trees trees' ht
    exact map_eq_of_forall₂ (fun _ _ h => h.filledIn_eq) ht

/-- A statement, and behind it an expression that breaks off at a blank, with other texts and other
positions. Two tokens have the same position, which no script has. -/
theorem rules_choose_by_kinds_of_hand_made_tokens :
    let f : Token → Token := fun token => ⟨token.kind, token.text ++ "0", 2 * token.position + 7⟩
    let tokens : List Token := [⟨.print, "PRINT", 3⟩, ⟨.name, "x", 3⟩, ⟨.semicolon, ";", 0⟩,
      ⟨.openParen, "(", 2⟩, ⟨.name, "y", 9⟩, ⟨.and, "and", 1⟩, ⟨.space, " ", 5⟩]
    statement tokens = .ok (.unary .print "PRINT" (.var "x" 3) 3) (tokens.drop 3) ∧
      statement (tokens.map f) =
        .ok (.unary .print "PRINT0" (.var "x0" 13) 13) ((tokens.map f).drop 3) ∧
      factor (tokens.drop 3) = .error (.expectedOperand (.position 5)) (tokens.drop 6) ∧
      factor ((tokens.map f).drop 3) =
        .error (.expectedOperand (.position 17)) ((tokens.map f).drop 6) ∧
      (∀ rule ∈ [expression, conjunction, factor, element, statement, unaryStatement],
        ChoosesAlike Expr.filledIn f tokens rule) ∧
      ChoosesAlike (fun tokens => Option.map (Expr.filledIn tokens)) f tokens assignment ∧
      ChoosesAlike (fun tokens => List.map (Expr.filledIn tokens)) f tokens program := by
  intro f tokens
  have hf : ∀ token, (f token).kind = token.kind := fun _ => rfl
  exact ⟨rfl, rfl, rfl, rfl, rules_choose_by_kinds hf tokens⟩

end Reading

end BoolScript
