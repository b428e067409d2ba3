import BoolScript.Proofs.Derivation

/-!
# The grammar is unambiguous

Two derivations of an expression with the same tokens are the same derivation
(`Derivation.eq_of_tokens_eq`), also where the tokens do not tell their texts or positions apart.

## Shape of the proof

The rules for connectives are the only ones that cut their tokens in two, and the cut is found by
counting parentheses. `depth` is the number of parentheses that are open after some tokens. Every
derivation ends at depth zero, and a connective at depth zero is one that its strength admits
(`Derivation.front_of_connective`). So the right operand of a chain holds no connective of the chain
at depth zero, and two cuts of the same tokens cannot be at different places.
-/

namespace BoolScript.Reading

/-! ## Depth of parentheses -/

/-- What a token adds to the number of open parentheses. -/
def rise (token : Token) : Int :=
  if token.kind = .openParen then 1 else if token.kind = .closeParen then -1 else 0

/-- The number of parentheses that are open after these tokens. -/
def depth : List Token → Int
  | [] => 0
  | token :: rest => rise token + depth rest

@[simp] theorem depth_nil : depth [] = 0 := rfl

@[simp] theorem depth_cons (token : Token) (rest : List Token) :
    depth (token :: rest) = rise token + depth rest := rfl

@[simp] theorem depth_append (front back : List Token) :
    depth (front ++ back) = depth front + depth back := by
  induction front with
  | nil => simp
  | cons token front ih =>
    rw [List.cons_append, depth_cons, depth_cons, ih]
    omega

theorem rise_of_connective {token : Token} {connective : Connective}
    (h : connective? token.kind = some connective) : rise token = 0 := by
  rcases connective?_eq_some_iff.1 h with ⟨hk, -⟩ | ⟨hk, -⟩ | ⟨hk, -⟩ <;> simp [rise, hk]

theorem Element.rise_token (element : Element) : rise element.token = 0 := by
  rcases element.kind with hk | hk | hk <;> simp [rise, hk]

/-- An operand is no connective. -/
theorem Element.connective?_token (element : Element) : connective? element.token.kind = none := by
  rcases element.kind with hk | hk | hk <;> simp [connective?, hk]

/-- A list that is cut at two of its members is cut there in one order or the other. -/
theorem append_cons_eq_append_cons {left right front back : List Token} {operator token : Token}
    (h : left ++ operator :: right = front ++ token :: back) :
    (∃ between, left = front ++ token :: between ∧ back = between ++ operator :: right) ∨
      (left = front ∧ operator = token ∧ right = back) ∨
      ∃ between, front = left ++ operator :: between ∧ right = between ++ token :: back := by
  rcases List.append_eq_append_iff.1 h with ⟨cut, rfl, hc⟩ | ⟨cut, rfl, hc⟩
  · cases cut with
    | nil =>
      obtain ⟨rfl, rfl⟩ := List.cons.inj hc
      exact .inr (.inl ⟨by simp, rfl, rfl⟩)
    | cons first between =>
      obtain ⟨rfl, rfl⟩ := List.cons.inj hc
      exact .inr (.inr ⟨between, rfl, rfl⟩)
  · cases cut with
    | nil =>
      obtain ⟨rfl, rfl⟩ := List.cons.inj hc
      exact .inr (.inl ⟨by simp, rfl, rfl⟩)
    | cons first between =>
      obtain ⟨rfl, rfl⟩ := List.cons.inj hc
      exact .inl ⟨between, rfl, rfl⟩

namespace Derivation

/-- Every parenthesis that is opened is closed. -/
theorem depth_tokens {strength : Strength} (d : Derivation strength) : depth d.tokens = 0 := by
  induction d with
  | leaf operand => simp [tokens, operand.rise_token]
  | parens opening inner closing ho hc ih => simp [tokens, ih, rise, ho, hc]
  | factor inner ih => exact ih
  | tight left operator right ho ihl ihr =>
    have hz : rise operator = 0 := by simp [rise, ho]
    simp [tokens, ihl, ihr, hz]
  | conjunction inner ih => exact ih
  | loose left operator right ho ihl ihr =>
    have hz : rise operator = 0 := by rcases ho with ho | ho <;> simp [rise, ho]
    simp [tokens, ihl, ihr, hz]

/-- In front of a connective no more parentheses are closed than opened, and if none is open there,
then the strength of the derivation admits the connective. -/
theorem front_of_connective {strength : Strength} (d : Derivation strength)
    {front back : List Token} {token : Token} {connective : Connective}
    (h : d.tokens = front ++ token :: back) (hc : connective? token.kind = some connective) :
    0 ≤ depth front ∧ (depth front = 0 → strength.admits connective = true) := by
  induction d generalizing front back with
  | leaf operand =>
    -- The only token is the operand itself.
    cases front with
    | nil =>
      obtain ⟨rfl, -⟩ := List.cons.inj h
      rw [operand.connective?_token] at hc
      cases hc
    | cons first front => simp [tokens] at h
  | parens opening inner closing ho hk ih =>
    cases front with
    | nil =>
      obtain ⟨rfl, -⟩ := List.cons.inj h
      simp [ho, connective?] at hc
    | cons first front =>
      obtain ⟨hf, hi⟩ := List.cons.inj h
      have hr : rise first = 1 := by simp [← hf, rise, ho]
      rcases append_cons_eq_append_cons hi with ⟨between, hi, -⟩ | ⟨-, rfl, -⟩ | ⟨_, -, hn⟩
      · -- The opening parenthesis is still open here.
        have := (ih hi).1
        rw [depth_cons, hr]
        constructor
        · omega
        · omega
      · simp [hk, connective?] at hc
      · simp at hn
  | factor inner ih =>
    have := ih h
    exact ⟨this.1, fun hz => by simpa [Strength.admits] using this.2 hz⟩
  | tight left operator right ho ihl ihr =>
    rcases append_cons_eq_append_cons h with ⟨between, hl, -⟩ | ⟨rfl, rfl, -⟩ | ⟨between, rfl, hr⟩
    · exact ihl hl
    · -- The connective is the operator of the chain.
      rw [left.depth_tokens]
      have : connective = .and := by simpa [ho, connective?, eq_comm] using hc
      exact ⟨Int.le_refl 0, fun _ => by simp [this, Strength.admits]⟩
    · have hz : rise operator = 0 := by simp [rise, ho]
      have hd : depth (left.tokens ++ operator :: between) = depth between := by
        simp [left.depth_tokens, hz]
      rw [hd]
      have := ihr hr
      exact ⟨this.1, fun hz => by simpa [Strength.admits] using this.2 hz⟩
  | conjunction inner ih => exact ⟨(ih h).1, fun _ => rfl⟩
  | loose left operator right ho ihl ihr =>
    refine ⟨?_, fun _ => rfl⟩
    rcases append_cons_eq_append_cons h with ⟨between, hl, -⟩ | ⟨rfl, -, -⟩ | ⟨between, rfl, hr⟩
    · exact (ihl hl).1
    · exact Int.le_of_eq left.depth_tokens.symm
    · have hz : rise operator = 0 := by rcases ho with ho | ho <;> simp [rise, ho]
      have := (ihr hr).1
      simpa [left.depth_tokens, hz] using this

/-! ## Cuts -/

/-- A derivation is not cut in two by a connective that its strength does not admit. -/
theorem tokens_ne_append {strength other : Strength} (d : Derivation strength)
    (left : Derivation other) {operator : Token} {connective : Connective}
    (hc : connective? operator.kind = some connective) (ha : strength.admits connective = false)
    (right : List Token) : d.tokens ≠ left.tokens ++ operator :: right := by
  intro h
  have := (d.front_of_connective h hc).2 left.depth_tokens
  rw [ha] at this
  cases this

/-- Two chains with the same tokens are cut at the same place, if their operators are not admitted
in their right operands. -/
theorem cut_unique {strength other : Strength} {left left' : Derivation strength}
    {right right' : Derivation other} {operator operator' : Token} {c c' : Connective}
    (hc : connective? operator.kind = some c) (ha : other.admits c = false)
    (hc' : connective? operator'.kind = some c') (ha' : other.admits c' = false)
    (h : left.tokens ++ operator :: right.tokens = left'.tokens ++ operator' :: right'.tokens) :
    left.tokens = left'.tokens ∧ operator = operator' ∧ right.tokens = right'.tokens := by
  rcases append_cons_eq_append_cons h with ⟨between, hl, hr⟩ | he | ⟨between, hl, hr⟩
  -- An earlier cut would put its operator at depth zero into the right operand of the other.
  · have hz : depth between = 0 := by
      have := congrArg depth hl
      simpa [depth_tokens, rise_of_connective hc'] using this.symm
    have := (right'.front_of_connective hr hc).2 hz
    rw [ha] at this
    cases this
  · exact he
  · have hz : depth between = 0 := by
      have := congrArg depth hl
      simpa [depth_tokens, rise_of_connective hc] using this.symm
    have := (right.front_of_connective hr hc').2 hz
    rw [ha'] at this
    cases this

theorem connective?_of_loose {kind : Kind} (h : kind = .or ∨ kind = .xor) :
    ∃ connective, connective? kind = some connective ∧
      Strength.conjunction.admits connective = false := by
  rcases h with rfl | rfl
  · exact ⟨.or, rfl, rfl⟩
  · exact ⟨.xor, rfl, rfl⟩

/-- An expression has one derivation. -/
theorem eq_of_tokens_eq {strength : Strength} {d other : Derivation strength}
    (h : d.tokens = other.tokens) : d = other := by
  induction d with
  | leaf operand =>
    cases other with
    | leaf operand' =>
      rw [Element.eq_of_token_eq (List.cons.inj h).1]
    | parens opening inner closing ho hc => simp [tokens] at h
  | parens opening inner closing ho hc ih =>
    cases other with
    | leaf operand' => simp [tokens] at h
    | parens opening' inner' closing' ho' hc' =>
      obtain ⟨rfl, hi⟩ := List.cons.inj h
      obtain ⟨hi, hk⟩ := List.append_inj' hi rfl
      obtain rfl := ih hi
      obtain rfl : closing = closing' := by simpa using hk
      rfl
  | factor inner ih =>
    cases other with
    | factor inner' => rw [ih h]
    | tight left' operator' right' ho' =>
      exact absurd h (inner.tokens_ne_append left' (by rw [ho']; rfl) rfl _)
  | tight left operator right ho ihl ihr =>
    cases other with
    | factor inner' =>
      exact absurd h.symm (inner'.tokens_ne_append left (by rw [ho]; rfl) rfl _)
    | tight left' operator' right' ho' =>
      have hc : connective? operator.kind = some .and := by rw [ho]; rfl
      have hc' : connective? operator'.kind = some .and := by rw [ho']; rfl
      obtain ⟨hl, rfl, hr⟩ := cut_unique hc rfl hc' rfl h
      rw [ihl hl, ihr hr]
  | conjunction inner ih =>
    cases other with
    | conjunction inner' => rw [ih h]
    | loose left' operator' right' ho' =>
      obtain ⟨connective, hc, ha⟩ := connective?_of_loose ho'
      exact absurd h (inner.tokens_ne_append left' hc ha _)
  | loose left operator right ho ihl ihr =>
    obtain ⟨connective, hc, ha⟩ := connective?_of_loose ho
    cases other with
    | conjunction inner' => exact absurd h.symm (inner'.tokens_ne_append left hc ha _)
    | loose left' operator' right' ho' =>
      obtain ⟨connective', hc', ha'⟩ := connective?_of_loose ho'
      obtain ⟨hl, rfl, hr⟩ := cut_unique hc ha hc' ha' h
      rw [ihl hl, ihr hr]

end Derivation

end BoolScript.Reading
