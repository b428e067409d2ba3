import BoolScript.Proofs.Requests

/-!
# Connectives spare nothing

The atoms of a tree are its largest subtrees without a connective at the root. All of them are
evaluated, from left to right, whatever the values are, so all that a tree does is what its atoms do
one after the other. The connectives above them, how these are grouped and where they stand make a
difference to the value alone (`Session.eval_of_same_atoms`), and if there is one connective only,
not even the grouping does, because each of them is associative.

## Shape of the proof

`Action.effect` is an action without its value. `Expr.effect_eval` says that the effect of a tree is
that of its atoms, evaluated as if they were a program. For trees with a single connective,
`Expr.gather` goes through the atoms and keeps the value so far, and `Expr.eval_bind_gather` takes
the atoms of a tree out of it.
-/

namespace BoolScript

/-! ## Actions without their values -/

/-- The action without its value. -/
def Action.effect {α : Type} (action : Action α) : Action Unit :=
  action >>= fun _ => .finish ()

/-- What comes behind an action that is asked for no value has no use for one. -/
theorem Action.effect_bind {α β : Type} (action : Action α) (next : α → Action β)
    (last : Action Unit) (h : ∀ value, (next value).effect = last) :
    (action >>= next).effect = action.effect >>= fun _ => last := by
  have hnext : (fun value => (next value).effect) = fun _ => last := funext h
  rw [effect, bind_assoc, effect, bind_assoc]
  exact congrArg (action >>= ·) hnext

theorem Action.effect_bind_finish {α β : Type} (action : Action α) (value : α → β) :
    (action >>= fun v => finish (value v)).effect = action.effect :=
  bind_bind action _ _

namespace Connective

/-- The value that a connective leaves as it is when it stands on its left. -/
def unit : Connective → Bool
  | and => true
  | or | xor => false

theorem combine_unit (connective : Connective) (value : Bool) :
    connective.combine connective.unit value = value := by
  cases connective <;> simp [combine, unit]

theorem combine_assoc (connective : Connective) (first second third : Bool) :
    connective.combine (connective.combine first second) third =
      connective.combine first (connective.combine second third) := by
  cases connective <;> simp [combine, Bool.and_assoc, Bool.or_assoc]

end Connective

namespace Expr

/-! ## Atoms -/

/-- The largest subtrees without a connective at the root, from left to right. -/
def atoms : Expr → List Expr
  | binary (.logical _) left right _ => left.atoms ++ right.atoms
  | binary .assign target value position => [binary .assign target value position]
  | literal text position => [literal text position]
  | var name position => [var name position]
  | unary op text operand position => [unary op text operand position]

/-- The connectives above the atoms. -/
def connectives : Expr → List Connective
  | binary (.logical connective) left right _ =>
    left.connectives ++ connective :: right.connectives
  | binary .assign _ _ _ | literal _ _ | var _ _ | unary _ _ _ _ => []

/-- A tree is taken apart into its atoms by joining what is known of its operands; a tree with no
connective at the root is its only atom. -/
theorem atoms_induction {motive : Expr → Prop}
    (atom : ∀ tree : Expr, tree.atoms = [tree] → tree.connectives = [] → motive tree)
    (logical : ∀ connective left right position, motive left → motive right →
      motive (logical connective left right position)) (tree : Expr) : motive tree := by
  induction tree with
  | literal | var | unary => exact atom _ rfl rfl
  | binary op left right position ihl ihr =>
    cases op with
    | logical connective => exact logical connective left right position ihl ihr
    | assign => exact atom _ rfl rfl

/-! ## Effects -/

section

variable (mode : NotMode)

/-- The value that a run of trees is given at first has no effect. -/
theorem effect_evalAllFrom (value : Option Bool) (trees : List Expr) :
    (evalAllFrom mode value trees).effect = (evalAll mode trees).effect := by
  cases trees with
  | nil => rfl
  | cons tree trees => rw [evalAll, evalAllFrom_cons, evalAllFrom_cons]

theorem effect_evalAll_append (trees more : List Expr) :
    (evalAll mode (trees ++ more)).effect =
      (evalAll mode trees).effect >>= fun _ => (evalAll mode more).effect := by
  rw [evalAll, evalAllFrom_append]
  exact Action.effect_bind _ _ _ fun value => effect_evalAllFrom mode value more

theorem effect_evalAll_singleton (tree : Expr) :
    (evalAll mode [tree]).effect = (tree.eval mode).effect := by
  rw [evalAll, evalAllFrom_cons]
  exact Action.effect_bind_finish _ some

/-- The effect of a tree is that of its atoms, one after the other. -/
theorem effect_eval (tree : Expr) :
    (tree.eval mode).effect = (evalAll mode tree.atoms).effect := by
  induction tree using atoms_induction with
  | atom tree ha => rw [ha, effect_evalAll_singleton]
  | logical connective left right position ihl ihr =>
    rw [eval_logical, Action.effect_bind _ _ _ fun l => Action.effect_bind_finish _ _, ihl, ihr,
      atoms, effect_evalAll_append]

end

/-! ## A single connective -/

/-- Evaluates trees one after the other, and joins every value to the value so far. -/
def gather (connective : Connective) (mode : NotMode) : Bool → List Expr → Action Bool
  | value, [] => .finish value
  | value, tree :: trees => tree.eval mode >>= fun v =>
    gather connective mode (connective.combine value v) trees

/-- A tree in front of other trees may be replaced by its atoms. -/
theorem eval_bind_gather {connective : Connective} (mode : NotMode) {tree : Expr}
    (h : ∀ other ∈ tree.connectives, other = connective) (value : Bool) (trees : List Expr) :
    (tree.eval mode >>= fun v => gather connective mode (connective.combine value v) trees) =
      gather connective mode value (tree.atoms ++ trees) := by
  induction tree using atoms_induction generalizing value trees with
  | atom tree ha => rw [ha]; rfl
  | logical root left right position ihl ihr =>
    rw [connectives, List.forall_mem_append, List.forall_mem_cons] at h
    obtain ⟨hl, rfl, hr⟩ := h
    -- The value so far is joined to the left operand first, and then to the right one.
    calc _ = left.eval mode >>= fun l => right.eval mode >>= fun r =>
          gather root mode (root.combine (root.combine value l) r) trees := by
          simp only [eval_logical, bind_assoc, Action.finish_bind, root.combine_assoc]
      _ = left.eval mode >>= fun l =>
          gather root mode (root.combine value l) (right.atoms ++ trees) := by
          simp only [ihr hr]
      _ = gather root mode value ((logical root left right position).atoms ++ trees) := by
          rw [ihl hl, atoms, List.append_assoc]

/-- A tree with a single connective has the value of its atoms under that connective. -/
theorem eval_eq_gather {connective : Connective} (mode : NotMode) {tree : Expr}
    (h : ∀ other ∈ tree.connectives, other = connective) :
    tree.eval mode = gather connective mode connective.unit tree.atoms := by
  have hgather := eval_bind_gather mode h connective.unit []
  simp only [connective.combine_unit, gather, List.append_nil] at hgather
  exact (Action.bind_finish _).symm.trans hgather

end Expr

/-! ## Sessions -/

namespace Session

/-- Runs of actions with the same effect end in the same way but for the value. -/
theorem run_of_effect_eq {first second : Action Bool} (h : first.effect = second.effect)
    (session : Session) :
    (∃ value value' after, run first session = .ok value after ∧
      run second session = .ok value' after) ∨
    ∃ error after, run first session = .error error after ∧
      run second session = .error error after := by
  have hrun := congrArg (run · session) h
  simp only [Action.effect, run_bind] at hrun
  cases hf : run first session with
  | ok value after =>
    rw [bind_of_ok hf] at hrun
    obtain ⟨value', middle, hs, hp⟩ := bind_eq_ok_iff.1 hrun.symm
    obtain ⟨-, rfl⟩ := pure_eq_ok_iff.1 hp
    exact .inl ⟨value, value', _, rfl, hs⟩
  | error error after =>
    rw [bind_of_error hf] at hrun
    rcases bind_eq_error_iff.1 hrun.symm with hs | ⟨value', middle, -, hp⟩
    · exact .inr ⟨error, after, rfl, hs⟩
    · cases hp

/-- Nothing but the value depends on the connectives of a tree. Trees with the same atoms are
evaluated alike in every session: both come to a value or both fail with the same error, and the
variables, the mode and both ends of the console are then the same. If there is one connective only
in both of them, so is the value, however the atoms are grouped. -/
theorem eval_of_same_atoms {tree other : Expr} (h : tree.atoms = other.atoms) (session : Session) :
    ((∃ value value' after, eval tree session = .ok value after ∧
        eval other session = .ok value' after) ∨
      ∃ error after, eval tree session = .error error after ∧
        eval other session = .error error after) ∧
    ∀ connective, (∀ inner ∈ tree.connectives, inner = connective) →
      (∀ inner ∈ other.connectives, inner = connective) →
      eval tree session = eval other session := by
  rw [eval, eval, get_bind_apply, get_bind_apply]
  constructor
  · refine run_of_effect_eq ?_ session
    rw [Expr.effect_eval, Expr.effect_eval, h]
  · intro connective ht ho
    rw [Expr.eval_eq_gather _ ht, Expr.eval_eq_gather _ ho, h]

/-- A name that is asked for, a value that is printed and a variable that is assigned, grouped to
the left with one connective and to the right with others, and once more to the right with the one. -/
theorem eval_of_same_atoms_regrouped :
    let first : Expr := .var "x" 0
    let second : Expr := .unary .print "print" (.var "x" 6) 0
    let third : Expr := .binary .assign (.var "y" 0) (.literal "TRUE" 4) 2
    let left : Expr := .logical .xor (.logical .xor first second 1) third 2
    let mixed : Expr := .logical .and first (.logical .or second third 7) 9
    let right : Expr := .logical .xor first (.logical .xor second third 7) 9
    let session : Session := ⟨.empty, .operand, ⟨⟨Text.encode "TRUE\n", 0, false⟩, {}⟩⟩
    left.atoms = mixed.atoms ∧ left.atoms = right.atoms ∧
      ((∃ value value' after, eval left session = .ok value after ∧
          eval mixed session = .ok value' after) ∨
        ∃ error after, eval left session = .error error after ∧
          eval mixed session = .error error after) ∧
      eval left session = eval right session := by
  intro first second third left mixed right session
  have hmixed : left.atoms = mixed.atoms := rfl
  have hright : left.atoms = right.atoms := rfl
  refine ⟨hmixed, hright, (eval_of_same_atoms hmixed session).1, ?_⟩
  exact (eval_of_same_atoms hright session).2 .xor (by decide) (by decide)

end Session

end BoolScript
