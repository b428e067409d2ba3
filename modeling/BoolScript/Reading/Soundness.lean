import BoolScript.Reading.Completeness

/-!
# Only expressions are read

What the reader reads is derived by the grammar, with the same tree, and the tokens left behind do
not continue it (`derives_of_operators`).

## Shape of the proof

The tokens read so far are cut at the open parentheses and at the waiting operators. Every piece in
front of a waiting operator is an expression that the operator may have on its left, and the pieces
fit together again when the operators are closed (`Level.Reads.close`). `Partial.Reads` states this
of a partly read expression, and each shift keeps it (`Partial.Reads.shift`).

A rule that takes few connectives never lets one wait outside of all parentheses. This is
`Partial.Respects`, which each shift keeps as well.
-/

namespace BoolScript.Reading

/-! ## Levels -/

/-- The tokens are an expression of this strength and the operator that waits behind it; without a
waiting operator there are none. -/
def Pending.Reads (strength : Strength) : Option Pending → List Token → Prop
  | none, tokens => tokens = []
  | some pending, tokens => ∃ left operator, tokens = left ++ [operator] ∧
      Derives strength left pending.left ∧ connective? operator.kind = some pending.connective ∧
      pending.position = operator.position

/-- The tokens are what a level has read in front of its last operand. -/
def Level.Reads (level : Level) (tokens : List Token) : Prop :=
  ∃ first second, tokens = first ++ second ∧
    Pending.Reads .disjunction level.loose first ∧ Pending.Reads .conjunction level.tight second ∧
    (∀ pending ∈ level.loose, pending.connective ≠ .and) ∧
    ∀ pending ∈ level.tight, pending.connective = .and

namespace Level

theorem reads_empty : Level.empty.Reads [] :=
  ⟨[], [], rfl, rfl, rfl, by simp [empty], by simp [empty]⟩

/-- Closing the waiting `and` over an operand gives a conjunction. -/
theorem derives_closeTight {level : Level} {second last : List Token} {operand : Expr}
    (hs : Pending.Reads .conjunction level.tight second)
    (hc : ∀ pending ∈ level.tight, pending.connective = .and) (h : Derives .factor last operand) :
    Derives .conjunction (second ++ last) (level.closeTight operand) := by
  obtain ⟨loose, tight⟩ := level
  cases tight with
  | none =>
    obtain rfl : second = [] := hs
    exact h.factor
  | some pending =>
    obtain ⟨left, operator, rfl, hl, ho, hp⟩ := hs
    have ha : pending.connective = .and := hc pending rfl
    have hk : operator.kind = .and := by
      rw [ha] at ho
      revert ho
      cases operator.kind <;> simp [connective?]
    simpa [closeTight, Pending.close, ha, hp] using hl.tight hk h

/-- Closing all waiting operators over an operand gives a disjunction. -/
theorem Reads.close {level : Level} {tokens last : List Token} {operand : Expr}
    (hr : level.Reads tokens) (h : Derives .factor last operand) :
    Derives .disjunction (tokens ++ last) (level.close operand) := by
  obtain ⟨first, second, rfl, hf, hs, hn, hc⟩ := hr
  have ht := derives_closeTight hs hc h
  obtain ⟨loose, tight⟩ := level
  cases loose with
  | none =>
    obtain rfl : first = [] := hf
    exact ht.conjunction
  | some pending =>
    obtain ⟨left, operator, rfl, hl, ho, hp⟩ := hf
    simpa [Level.close, Pending.close, hp] using hl.loose ho (hn pending rfl) ht

/-- A level goes on behind a connective. -/
theorem Reads.extend {level : Level} {tokens last : List Token} {operand : Expr} {operator : Token}
    {connective : Connective} (hr : level.Reads tokens) (h : Derives .factor last operand)
    (ho : connective? operator.kind = some connective) :
    (level.extend operand connective operator.position).Reads (tokens ++ last ++ [operator]) := by
  have hd := hr.close h
  obtain ⟨first, second, rfl, hf, hs, hn, hc⟩ := hr
  cases connective with
  | and =>
    refine ⟨first, second ++ last ++ [operator], by simp, hf, ?_, hn, by simp [Level.extend]⟩
    exact ⟨second ++ last, operator, rfl, derives_closeTight hs hc h, ho, rfl⟩
  | or | xor =>
    refine ⟨first ++ second ++ last ++ [operator], [], by simp, ?_, rfl, by simp [Level.extend],
      by simp [Level.extend]⟩
    exact ⟨first ++ second ++ last, operator, rfl, hd, ho, rfl⟩

/-- The tokens are what the levels around the innermost parenthesis have read, each up to the
parenthesis that opens the next one. -/
def AllRead : List Level → List Token → Prop
  | [], tokens => tokens = []
  | level :: outer, tokens => ∃ before inside opening, tokens = before ++ inside ++ [opening] ∧
      AllRead outer before ∧ level.Reads inside ∧ opening.kind = .openParen

end Level

/-! ## Partly read expressions -/

namespace Partial

/-- The tokens are what a partly read expression has read. -/
def Reads : Partial → List Token → Prop
  | awaiting outer level, tokens => ∃ before inside, tokens = before ++ inside ∧
      Level.AllRead outer before ∧ level.Reads inside
  | holding outer level operand, tokens => ∃ before inside last, tokens = before ++ inside ++ last ∧
      Level.AllRead outer before ∧ level.Reads inside ∧ Derives .factor last operand

theorem reads_start : start.Reads [] :=
  ⟨[], [], rfl, rfl, Level.reads_empty⟩

/-- No connective waits outside of all parentheses that the rule does not take. -/
def Respects (strength : Strength) : Partial → Prop
  | awaiting outer level | holding outer level _ => ∀ outermost ∈ (level :: outer).getLast?,
      (∀ pending ∈ outermost.loose, strength.admits pending.connective = true) ∧
      ∀ pending ∈ outermost.tight, strength.admits pending.connective = true

theorem respects_start (strength : Strength) : start.Respects strength := by
  simp [start, Respects, Level.empty]

/-- Shifting a token reads it. -/
theorem Reads.shift {strength : Strength} {state next : Partial} {tokens : List Token}
    {token : Token} (hr : state.Reads tokens) (hs : state.shift strength token = some next) :
    next.Reads (tokens ++ [token]) := by
  cases state with
  | awaiting outer level =>
    obtain ⟨before, inside, rfl, ho, hl⟩ := hr
    rcases shift_awaiting_eq_some hs with ⟨leaf, h, rfl⟩ | ⟨h, rfl⟩
    · exact ⟨before, inside, [token], rfl, ho, hl, .leaf h⟩
    · exact ⟨before ++ inside ++ [token], [], by simp, ⟨before, inside, token, rfl, ho, hl, h⟩,
        Level.reads_empty⟩
  | holding outer level operand =>
    obtain ⟨before, inside, last, rfl, ho, hl, hd⟩ := hr
    rcases shift_holding_eq_some hs with ⟨connective, h, -, rfl⟩ | ⟨around, others, rfl, h, rfl⟩
    · exact ⟨before, inside ++ last ++ [token], by simp, ho, hl.extend hd h⟩
    · obtain ⟨front, surrounding, opening, rfl, ho, ha, hk⟩ := ho
      exact ⟨front, surrounding, opening :: (inside ++ last) ++ [token], by simp, ho, ha,
        .parens hk (hl.close hd) h⟩

theorem Respects.shift {strength : Strength} {state next : Partial} {token : Token}
    (hr : state.Respects strength) (hs : state.shift strength token = some next) :
    next.Respects strength := by
  cases state with
  | awaiting outer level =>
    rcases shift_awaiting_eq_some hs with ⟨leaf, h, rfl⟩ | ⟨h, rfl⟩
    · exact hr
    · simpa [Respects] using hr
  | holding outer level operand =>
    rcases shift_holding_eq_some hs with ⟨connective, h, ha, rfl⟩ | ⟨around, others, rfl, h, rfl⟩
    · cases outer with
      | nil =>
        simp only [Respects, List.getLast?_singleton, Option.mem_some_iff, forall_eq'] at hr ⊢
        cases connective <;> simp_all [Level.extend]
      | cons => simpa [Respects] using hr
    · simpa [Respects] using hr

/-- Shifting keeps what a shift of one token keeps. -/
theorem shiftAll_induction (motive : Partial → List Token → Prop) {strength : Strength}
    (step : ∀ state next tokens token, motive state tokens →
      state.shift strength token = some next → motive next (tokens ++ [token]))
    {state stopped : Partial} {before tokens rest : List Token} (h : motive state before)
    (hs : state.shiftAll strength tokens = (stopped, rest)) :
    ∃ read, tokens = read ++ rest ∧ motive stopped (before ++ read) := by
  induction tokens generalizing state before with
  | nil =>
    obtain ⟨rfl, rfl⟩ : state = stopped ∧ [] = rest := by simpa [shiftAll] using hs
    exact ⟨[], rfl, by simpa using h⟩
  | cons token others ih =>
    unfold shiftAll at hs
    split at hs
    · next next hn =>
      obtain ⟨read, rfl, hr⟩ := ih (step _ _ _ _ h hn) hs
      exact ⟨token :: read, rfl, by simpa using hr⟩
    · obtain ⟨rfl, rfl⟩ : state = stopped ∧ token :: others = rest := by simpa using hs
      exact ⟨[], rfl, by simpa using h⟩

/-- A complete expression at a level that respects the rule is an expression of its strength. -/
theorem derives_close {strength : Strength} {level : Level} {operand : Expr} {tokens : List Token}
    (hr : (holding [] level operand).Reads tokens)
    (hs : (holding [] level operand).Respects strength) :
    Derives strength tokens (level.close operand) := by
  obtain ⟨_, inside, last, rfl, rfl, hl, hd⟩ := hr
  simp only [Respects, List.getLast?_singleton, Option.mem_some_iff, forall_eq'] at hs
  match strength with
  | .disjunction => exact hl.close hd
  | .conjunction =>
    obtain ⟨first, second, rfl, hf, ht, hn, hc⟩ := hl
    obtain ⟨loose, tight⟩ := level
    cases loose with
    | none =>
      obtain rfl : first = [] := hf
      exact Level.derives_closeTight ht hc hd
    | some pending => exact absurd (by simpa [Strength.admits] using hs.1 pending rfl) (hn _ rfl)
  | .factor =>
    obtain ⟨first, second, rfl, hf, ht, -, -⟩ := hl
    obtain ⟨loose, tight⟩ := level
    cases loose with
    | some pending => exact absurd (hs.1 pending rfl) (by simp [Strength.admits])
    | none =>
      cases tight with
      | some pending => exact absurd (hs.2 pending rfl) (by simp [Strength.admits])
      | none =>
        obtain rfl : first = [] := hf
        obtain rfl : second = [] := ht
        exact hd

end Partial

/-- The reader reads nothing but expressions, and stops only where they stop. -/
theorem derives_of_operators {strength : Strength} {tokens rest : List Token} {tree : Expr}
    (h : operators strength tokens = .ok tree rest) :
    ∃ read, tokens = read ++ rest ∧ Derives strength read tree ∧ Stops strength rest := by
  obtain ⟨stopped, hs, hr⟩ := operators_eq_ok_iff.1 h
  obtain ⟨read, rfl, hk, hp⟩ := Partial.shiftAll_induction
    (fun state tokens => state.Reads tokens ∧ state.Respects strength)
    (fun _ _ _ _ h hn => ⟨h.1.shift hn, h.2.shift hn⟩)
    ⟨Partial.reads_start, Partial.respects_start strength⟩ hs
  match stopped, hr with
  | .holding [] level operand, hr =>
    obtain rfl : level.close operand = tree := by simpa [Partial.result] using hr
    refine ⟨read, rfl, Partial.derives_close hk hp, ?_⟩
    intro token ht
    cases rest with
    | nil => cases ht
    | cons first rest =>
      obtain rfl : first = token := by simpa using ht
      exact Partial.shift_holding_eq_none_iff.1 (Partial.shift_eq_none_of_shiftAll hs)

end BoolScript.Reading
