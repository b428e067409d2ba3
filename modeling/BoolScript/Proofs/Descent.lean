import BoolScript.Proofs.ReadingSteps

/-!
# Expressions are read by descent

The rules for expressions can call each other as the grammar does. An operand in parentheses is an
expression between an opening and a closing parenthesis (`factor_eq`); a conjunction is an operand
and what goes on behind it with `and` (`conjunction_eq`); an expression is a conjunction and what
goes on behind it with `or` and `xor` (`expression_eq`). These are equations of readings, so they
hold of failures and of the tokens that are left as well, and no other readings satisfy them
(`isDescent_iff`).

## Shape of the proof

Inside a parenthesis an expression is read as one of its own, up to the parenthesis that closes it
(`Partial.readOn_inside`). So a place where an operand has to come reads an operand and goes on
behind it, whatever waits around it (`Partial.readOn_awaiting`). From a complete operand on, reading
is a chain at the level of this operand: the operators that wait there say what the chain has made
so far, and every further operand leaves fewer tokens.
-/

namespace BoolScript.Reading

/-! ## Partly read expressions -/

namespace Partial

/-- What a partly read expression amounts to in front of tokens that do not continue it. -/
def conclude (state : Partial) : Reading Expr := fun tokens =>
  match state.result (.ofTokens tokens) with
  | .ok tree => .ok tree tokens
  | .error error => .error error tokens

/-- Reads an expression that has been read in part, as far as it goes. -/
def readOn (strength : Strength) (state : Partial) : Reading Expr := fun tokens =>
  (state.shiftAll strength tokens).1.conclude (state.shiftAll strength tokens).2

theorem readOn_start (strength : Strength) : start.readOn strength = operators strength := rfl

theorem readOn_of_shift {strength : Strength} {state next : Partial} {token : Token}
    (h : state.shift strength token = some next) (rest : List Token) :
    state.readOn strength (token :: rest) = next.readOn strength rest := by
  simp only [readOn, shiftAll_cons h]

theorem readOn_of_refused {strength : Strength} {state : Partial} {token : Token}
    (h : state.shift strength token = none) (rest : List Token) :
    state.readOn strength (token :: rest) = state.conclude (token :: rest) := by
  simp only [readOn, shiftAll, h]

/-- A complete expression is read where nothing continues it. -/
theorem readOn_of_stops {strength : Strength} {level : Level} {operand : Expr}
    {tokens : List Token} (h : Stops strength tokens) :
    (holding [] level operand).readOn strength tokens = .ok (level.close operand) tokens := by
  cases tokens with
  | nil => rfl
  | cons token rest => exact readOn_of_refused (shift_holding_eq_none_iff.2 (h token rfl)) rest

/-! ### Parentheses -/

/-- The same expression inside more levels of parentheses. -/
def inside (around : List Level) : Partial → Partial
  | awaiting outer level => awaiting (outer ++ around) level
  | holding outer level operand => holding (outer ++ around) level operand

/-- What continues an expression continues it inside a parenthesis, where every connective is
admitted. -/
theorem shift_inside {goal : Strength} {state next : Partial} {token : Token}
    (h : state.shift .disjunction token = some next) (around : Level) (outer : List Level) :
    (state.inside (around :: outer)).shift goal token = some (next.inside (around :: outer)) := by
  cases state with
  | awaiting inner level =>
    rcases shift_awaiting_eq_some h with ⟨leaf, hl, rfl⟩ | ⟨hk, rfl⟩
    · exact shift_leaf hl
    · exact shift_open hk
  | holding inner level operand =>
    rcases shift_holding_eq_some h with ⟨connective, hc, -, rfl⟩ | ⟨above, others, rfl, hk, rfl⟩
    · exact shift_connective hc (by simp)
    · exact shift_close hk

/-- A token that does not continue an expression closes the parenthesis around it, or it is
refused. -/
theorem readOn_inside_of_refused {goal : Strength} {state : Partial} {token : Token}
    (h : state.shift .disjunction token = none) (around : Level) (outer : List Level)
    (rest : List Token) :
    (state.inside (around :: outer)).readOn goal (token :: rest) =
      (state.conclude >>= fun tree => expect [.closeParen] >>= fun _ =>
        (holding outer around tree).readOn goal : Reading Expr) (token :: rest) := by
  cases state with
  | awaiting inner level =>
    have hs : (awaiting (inner ++ around :: outer) level).shift goal token = none := by
      cases hl : leaf? token <;> simp_all [shift]
    exact readOn_of_refused hs rest
  | holding inner level operand =>
    have hn : connective? token.kind = none := by
      cases hc : connective? token.kind <;> simp_all [shift, Strength.admits]
    cases inner with
    | cons above others =>
      have hk : token.kind ≠ .closeParen := by
        intro hk
        rw [shift_close hk] at h
        cases h
      have hs : (holding (above :: others ++ around :: outer) level operand).shift goal token =
          none := by
        simp [shift, hn, hk]
      exact readOn_of_refused hs rest
    | nil =>
      have hc : (holding [] level operand).conclude (token :: rest) =
          .ok (level.close operand) (token :: rest) := rfl
      rw [bind_of_ok hc]
      by_cases hk : token.kind = .closeParen
      · rw [bind_of_ok (expect_cons (by simp [hk]) rest)]
        exact readOn_of_shift (shift_close hk) rest
      · have hs : (holding (around :: outer) level operand).shift goal token = none := by
          simp [shift, hn, hk]
        rw [bind_of_error (expect_of_not (by simp [hk]))]
        exact readOn_of_refused hs rest

/-- Inside a parenthesis an expression is read as one of its own, up to the parenthesis that closes
it. -/
theorem readOn_inside (goal : Strength) (state : Partial) (around : Level) (outer : List Level) :
    (state.inside (around :: outer)).readOn goal =
      (state.readOn .disjunction >>= fun tree => expect [.closeParen] >>= fun _ =>
        (holding outer around tree).readOn goal) := by
  funext tokens
  induction tokens generalizing state with
  | nil =>
    cases state with
    | awaiting inner level => rfl
    | holding inner level operand => cases inner <;> rfl
  | cons token rest ih =>
    cases hs : state.shift .disjunction token with
    | some next =>
      rw [readOn_of_shift (shift_inside hs around outer), ih,
        bind_congr_apply (readOn_of_shift hs rest)]
    | none =>
      rw [readOn_inside_of_refused hs, bind_congr_apply (readOn_of_refused hs rest)]

end Partial

/-! ## Operands -/

/-- Whether an opening parenthesis comes next. -/
def startsParenthesis : List Token → Bool
  | first :: _ => first.kind == .openParen
  | [] => false

theorem startsParenthesis_iff {tokens : List Token} :
    startsParenthesis tokens = true ↔
      ∃ opening rest, tokens = opening :: rest ∧ opening.kind = .openParen := by
  cases tokens <;> simp [startsParenthesis]

/-- Reads something in parentheses. -/
def enclosed (inner : Reading Expr) : Reading Expr := do
  let _ ← expect [.openParen]
  let tree ← inner
  let _ ← expect [.closeParen]
  return tree

theorem enclosed_cons {opening : Token} (ho : opening.kind = .openParen) (inner : Reading Expr)
    (rest : List Token) :
    enclosed inner (opening :: rest) =
      (inner >>= fun tree => expect [.closeParen] >>= fun _ => pure tree : Reading Expr) rest := by
  rw [enclosed, bind_of_ok (expect_cons (by simp [ho]) rest)]

theorem factor_of_parenthesis {opening : Token} (ho : opening.kind = .openParen)
    (rest : List Token) : factor (opening :: rest) = enclosed expression (opening :: rest) := by
  have hstop (tree : Expr) : (Partial.holding [] .empty tree).readOn .factor = pure tree := by
    funext tokens
    exact Partial.readOn_of_stops fun _ _ _ _ => rfl
  calc factor (opening :: rest)
      = (Partial.start.inside [.empty]).readOn .factor rest :=
        Partial.readOn_of_shift (Partial.shift_open ho) rest
    _ = enclosed expression (opening :: rest) := by
        rw [Partial.readOn_inside, enclosed_cons ho]
        simp only [hstop]
        rfl

theorem factor_of_leaf {token : Token} {leaf : Expr} (hl : leaf? token = some leaf)
    (rest : List Token) : factor (token :: rest) = .ok leaf rest := by
  calc factor (token :: rest)
      = (Partial.holding [] .empty leaf).readOn .factor rest :=
        Partial.readOn_of_shift (Partial.shift_leaf hl) rest
    _ = .ok leaf rest := Partial.readOn_of_stops fun _ _ _ _ => rfl

/-- A token that no operand starts with is where the operand is missing. -/
theorem factor_of_refused {token : Token} (hl : leaf? token = none)
    (ho : token.kind ≠ .openParen) (rest : List Token) :
    factor (token :: rest) =
      .error (.expectedOperand (.position token.position)) (token :: rest) := by
  have hs : Partial.start.shift .factor token = none := by
    simp [Partial.start, Partial.shift, hl, ho]
  exact Partial.readOn_of_refused hs rest

/-- An operand is an expression in parentheses, a truth word or a name. -/
theorem factor_eq :
    factor = (do if startsParenthesis (← get) then enclosed expression else element) := by
  funext tokens
  rw [get_bind_apply]
  cases tokens with
  | nil => rfl
  | cons token rest =>
    by_cases ho : token.kind = .openParen
    · rw [factor_of_parenthesis ho]
      simp [startsParenthesis, ho]
    · have hs : startsParenthesis (token :: rest) = false := by simpa [startsParenthesis] using ho
      rw [hs, if_neg Bool.false_ne_true]
      cases hl : leaf? token with
      | some leaf => rw [factor_of_leaf hl, element_cons hl]
      | none =>
        rw [factor_of_refused hl ho, element_of_not (by simp [hl])]
        rfl

namespace Partial

/-- A place where an operand has to come reads one and goes on behind it. -/
theorem readOn_awaiting (goal : Strength) (outer : List Level) (level : Level) :
    (awaiting outer level).readOn goal =
      factor >>= fun tree => (holding outer level tree).readOn goal := by
  funext tokens
  cases tokens with
  | nil => rfl
  | cons token rest =>
    by_cases ho : token.kind = .openParen
    · calc (awaiting outer level).readOn goal (token :: rest)
          = (start.inside (level :: outer)).readOn goal rest :=
            readOn_of_shift (shift_open ho) rest
        _ = (enclosed expression >>= fun tree => (holding outer level tree).readOn goal :
              Reading Expr) (token :: rest) := by
            rw [readOn_inside, enclosed]
            simp only [bind_assoc, pure_bind]
            rw [bind_of_ok (expect_cons (by simp [ho]) rest)]
            rfl
        _ = _ := (bind_congr_apply (factor_of_parenthesis ho rest)).symm
    · cases hl : leaf? token with
      | some leaf =>
        rw [bind_of_ok (factor_of_leaf hl rest)]
        exact readOn_of_shift (shift_leaf hl) rest
      | none =>
        have hs : (awaiting outer level).shift goal token = none := by simp [shift, hl, ho]
        rw [bind_of_error (factor_of_refused hl ho rest)]
        exact readOn_of_refused hs rest

/-- A connective that the rule takes has an operand behind it. -/
theorem readOn_connective {goal : Strength} {level : Level} {operand : Expr} {operator : Token}
    {connective : Connective} (hc : connective? operator.kind = some connective)
    (ha : goal.admits connective = true) (rest : List Token) :
    (holding [] level operand).readOn goal (operator :: rest) =
      (factor >>= fun right =>
        (holding [] (level.extend operand connective operator.position) right).readOn goal :
          Reading Expr) rest := by
  rw [readOn_of_shift (shift_connective hc fun _ => ha), readOn_awaiting]

end Partial

/-! ## Chains -/

/-- Reads what goes on behind a left operand: connectives of this list, and an operand behind each
of them. A connective has everything in front of it on its left. -/
def goOn (connectives : List Connective) (operand : Reading Expr) (ht : Trims operand)
    (left : Expr) : Reading Expr := fun tokens =>
  match tokens with
  | [] => .ok left []
  | operator :: rest =>
    match (connective? operator.kind).filter (· ∈ connectives) with
    | none => .ok left (operator :: rest)
    | some connective =>
      match _h : operand rest with
      | .ok right others =>
        goOn connectives operand ht (.logical connective left right operator.position) others
      | .error error others => .error error others
termination_by tokens => tokens.length
decreasing_by exact ht.length_lt_cons ‹_› operator

/-- Reads operands with connectives of this list between them, as a tree that leans to the left. -/
def leftAssociative (connectives : List Connective) (operand : Reading Expr)
    (ht : Trims operand) : Reading Expr := do
  let left ← operand
  goOn connectives operand ht left

section

variable {connectives : List Connective} {operand : Reading Expr} {ht : Trims operand}
  {left : Expr}

/-- A connective of the list has an operand behind it. -/
theorem goOn_cons {operator : Token} {connective : Connective}
    (hc : connective? operator.kind = some connective) (hm : connective ∈ connectives)
    (rest : List Token) :
    goOn connectives operand ht left (operator :: rest) =
      (operand >>= fun right =>
        goOn connectives operand ht (.logical connective left right operator.position)) rest := by
  have hf : (connective? operator.kind).filter (· ∈ connectives) = some connective := by
    simp [hc, hm]
  rw [goOn]
  split
  · next hn => simp [hf] at hn
  · next found hs =>
    obtain rfl : connective = found := Option.some.inj (hf.symm.trans hs)
    split
    · next right others hr => rw [bind_of_ok hr]
    · next error others hr => rw [bind_of_error hr]

/-- Without a connective of the list the tree is complete. -/
theorem goOn_of_not {tokens : List Token}
    (h : ∀ token ∈ tokens.head?, ∀ connective, connective? token.kind = some connective →
      connective ∉ connectives) :
    goOn connectives operand ht left tokens = .ok left tokens := by
  cases tokens with
  | nil => rw [goOn]
  | cons operator rest =>
    have hf : (connective? operator.kind).filter (· ∈ connectives) = none := by
      simpa using h operator rfl
    rw [goOn, hf]

/-- A connective of the list comes next, or none does. -/
theorem goesOn_or_not (connectives : List Connective) (tokens : List Token) :
    (∃ operator rest connective, tokens = operator :: rest ∧
      connective? operator.kind = some connective ∧ connective ∈ connectives) ∨
    ∀ token ∈ tokens.head?, ∀ connective, connective? token.kind = some connective →
      connective ∉ connectives := by
  cases tokens with
  | nil => exact .inr (by simp)
  | cons operator rest =>
    cases hc : connective? operator.kind with
    | none => exact .inr (by simp [hc])
    | some connective =>
      by_cases hm : connective ∈ connectives
      · exact .inl ⟨operator, rest, connective, rfl, hc, hm⟩
      · exact .inr (by simpa [hc] using hm)

/-- What goes on depends on the operands alone, and each of them is read from fewer tokens. -/
theorem goOn_congr {other : Reading Expr} (ho : Trims other) {tokens : List Token}
    (h : ∀ rest : List Token, rest.length < tokens.length → operand rest = other rest) :
    goOn connectives operand ht left tokens = goOn connectives other ho left tokens := by
  induction hl : tokens.length using Nat.strongRecOn generalizing left tokens with
  | _ length ih =>
    subst hl
    rcases goesOn_or_not connectives tokens with ⟨operator, rest, connective, rfl, hc, hm⟩ | hs
    · rw [goOn_cons hc hm, goOn_cons hc hm, bind_congr_apply (h rest (Nat.lt_succ_self _))]
      refine bind_congr_of_ok fun right others hr => ?_
      have hlt := ho.length_lt_cons hr operator
      exact ih others.length hlt (fun rest hrest => h rest (Nat.lt_trans hrest hlt)) rfl
    · rw [goOn_of_not hs, goOn_of_not hs]

/-- So does a whole chain, whose first operand is read from all the tokens. -/
theorem leftAssociative_congr {other : Reading Expr} (ho : Trims other) {tokens : List Token}
    (h : operand tokens = other tokens)
    (hr : ∀ rest : List Token, rest.length < tokens.length → operand rest = other rest) :
    leftAssociative connectives operand ht tokens = leftAssociative connectives other ho tokens := by
  rw [leftAssociative, leftAssociative, bind_congr_apply h]
  refine bind_congr_of_ok fun left rest hl => goOn_congr ho fun others hlt => ?_
  exact hr others (Nat.lt_of_lt_of_le hlt (ho.length_le hl))

end

theorem trims_factor : Trims factor :=
  trims_operators .factor

theorem trims_conjunction : Trims conjunction :=
  trims_operators .conjunction

namespace Partial

/-- Behind an operand of a conjunction the chain of its operands goes on. -/
theorem readOn_conjunction {level : Level} (hn : level.loose = none) (operand : Expr) :
    (holding [] level operand).readOn .conjunction =
      goOn [.and] factor trims_factor (level.closeTight operand) := by
  funext tokens
  induction hl : tokens.length using Nat.strongRecOn generalizing level operand tokens with
  | _ length ih =>
    subst hl
    rcases goesOn_or_not [.and] tokens with ⟨operator, rest, connective, rfl, hc, hm⟩ | hs
    · obtain rfl : connective = .and := by simpa using hm
      rw [readOn_connective hc rfl, goOn_cons hc hm]
      refine bind_congr_of_ok fun right others hr => ?_
      have hnext : (level.extend operand .and operator.position).loose = none := hn
      exact ih others.length (trims_factor.length_lt_cons hr operator) hnext right others rfl
    · have hstops : Stops .conjunction tokens := by simpa [Stops, Strength.admits] using hs
      rw [goOn_of_not hs, readOn_of_stops hstops, Level.close, hn]

end Partial

/-- A conjunction is a chain of operands with `and` between them. -/
theorem conjunction_eq : conjunction = leftAssociative [.and] factor trims_factor := by
  calc conjunction = (Partial.awaiting [] .empty).readOn .conjunction := rfl
    _ = leftAssociative [.and] factor trims_factor := by
      rw [Partial.readOn_awaiting, leftAssociative]
      exact bind_congr fun left => Partial.readOn_conjunction rfl left

namespace Partial

/-- Behind an operand of a disjunction the conjunction that it belongs to is read to its end, and
then the chain of conjunctions goes on. -/
theorem readOn_disjunction (level : Level) (operand : Expr) :
    (holding [] level operand).readOn .disjunction =
      goOn [.and] factor trims_factor (level.closeTight operand) >>= fun last =>
        goOn [.or, .xor] conjunction trims_conjunction (Level.close ⟨level.loose, none⟩ last) := by
  funext tokens
  induction hl : tokens.length using Nat.strongRecOn generalizing level operand tokens with
  | _ length ih =>
    subst hl
    have hclose : Level.close ⟨level.loose, none⟩ (level.closeTight operand) =
        level.close operand := by
      cases level with
      | mk loose tight => cases loose <;> rfl
    rcases goesOn_or_not [.and] tokens with ⟨operator, rest, connective, rfl, hc, hm⟩ | hs
    · -- The conjunction goes on.
      obtain rfl : connective = .and := by simpa using hm
      rw [readOn_connective hc rfl, bind_congr_apply (goOn_cons hc hm rest), bind_assoc]
      refine bind_congr_of_ok fun right others hr => ?_
      exact ih others.length (trims_factor.length_lt_cons hr operator) _ right others rfl
    · rw [bind_of_ok (goOn_of_not hs), hclose]
      rcases goesOn_or_not [.or, .xor] tokens with ⟨operator, rest, connective, rfl, hc, hm⟩ | hs'
      · -- The conjunction is complete, and another one follows.
        have hne : connective ≠ .and := by simpa using hs operator rfl connective hc
        have hconjunction := congrFun conjunction_eq rest
        rw [readOn_connective hc rfl, goOn_cons hc hm, bind_congr_apply hconjunction,
          leftAssociative, bind_assoc, Level.extend_of_ne_and hne]
        refine bind_congr_of_ok fun right others hr => ?_
        exact ih others.length (trims_factor.length_lt_cons hr operator) _ right others rfl
      · have hstops : Stops .disjunction tokens := by
          intro token ht connective hc
          have h := hs token ht connective hc
          have h' := hs' token ht connective hc
          cases connective <;> simp at h h'
        rw [goOn_of_not hs', readOn_of_stops hstops]

end Partial

/-- An expression is a chain of conjunctions with `or` and `xor` between them. -/
theorem expression_eq :
    expression = leftAssociative [.or, .xor] conjunction trims_conjunction := by
  funext tokens
  calc expression tokens
      = (factor >>= fun left => (Partial.holding [] .empty left).readOn .disjunction :
          Reading Expr) tokens :=
        congrFun (Partial.readOn_awaiting .disjunction [] .empty) tokens
    _ = (leftAssociative [.and] factor trims_factor >>=
          goOn [.or, .xor] conjunction trims_conjunction : Reading Expr) tokens := by
        rw [leftAssociative, bind_assoc]
        simp only [Partial.readOn_disjunction]
        rfl
    _ = leftAssociative [.or, .xor] conjunction trims_conjunction tokens :=
        (bind_congr_apply (congrFun conjunction_eq tokens)).symm

/-! ## The one reader by descent -/

/-- Three readings that call each other as the rules of the grammar do. -/
structure IsDescent (operand chain whole : Reading Expr) : Prop where
  trims_operand : Trims operand
  trims_chain : Trims chain
  operand_eq : operand = (do if startsParenthesis (← get) then enclosed whole else element)
  chain_eq : chain = leftAssociative [.and] operand trims_operand
  whole_eq : whole = leftAssociative [.or, .xor] chain trims_chain

namespace IsDescent

variable {operand chain whole : Reading Expr}

/-- Readings by descent agree on all tokens, since they call each other for fewer of them. -/
theorem agrees (h : IsDescent operand chain whole) (tokens : List Token) :
    operand tokens = factor tokens ∧ chain tokens = conjunction tokens ∧
      whole tokens = expression tokens := by
  induction hl : tokens.length using Nat.strongRecOn generalizing tokens with
  | _ length ih =>
    subst hl
    have hoperand : operand tokens = factor tokens := by
      rw [h.operand_eq, factor_eq, get_bind_apply, get_bind_apply]
      cases hs : startsParenthesis tokens with
      | false => rfl
      | true =>
        obtain ⟨opening, rest, rfl, ho⟩ := startsParenthesis_iff.1 hs
        show enclosed whole (opening :: rest) = enclosed expression (opening :: rest)
        rw [enclosed_cons ho, enclosed_cons ho,
          bind_congr_apply (ih rest.length (Nat.lt_succ_self _) rest rfl).2.2]
    have hchain : chain tokens = conjunction tokens := by
      rw [h.chain_eq, conjunction_eq]
      exact leftAssociative_congr trims_factor hoperand fun rest hlt =>
        (ih rest.length hlt rest rfl).1
    have hwhole : whole tokens = expression tokens := by
      rw [h.whole_eq, expression_eq]
      exact leftAssociative_congr trims_conjunction hchain fun rest hlt =>
        (ih rest.length hlt rest rfl).2.1
    exact ⟨hoperand, hchain, hwhole⟩

end IsDescent

/-- The three rules for expressions, and no other readings, are readings by descent. -/
theorem isDescent_iff {operand chain whole : Reading Expr} :
    IsDescent operand chain whole ↔
      operand = factor ∧ chain = conjunction ∧ whole = expression := by
  constructor
  · intro h
    exact ⟨funext fun tokens => (h.agrees tokens).1, funext fun tokens => (h.agrees tokens).2.1,
      funext fun tokens => (h.agrees tokens).2.2⟩
  · rintro ⟨rfl, rfl, rfl⟩
    exact ⟨trims_factor, trims_conjunction, factor_eq, conjunction_eq, expression_eq⟩

end BoolScript.Reading
