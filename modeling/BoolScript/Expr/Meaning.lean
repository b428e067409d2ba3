import BoolScript.Action
import BoolScript.Expr.Basic
import BoolScript.Text.CaseFolding

/-!
# What a tree means

The meaning of a tree is an action. Operands are evaluated from left to right, and all of them are:
no connective spares its right operand. An assignment looks at its left side before it evaluates its
right side. Printing has the value false whatever it prints.

A `not` means one of two things, by the mode of the evaluation. By default it negates its own text,
read as a truth word, and its operand is dead; in the other mode it negates its operand.

## Shape of the evaluator

`Expr.evalThen` evaluates a tree and hands the value to what comes next, so that the action of a
deep tree is built in one pass. `Expr.evalThen_eq_bind` says that nothing else depends on what comes
next, and the equations of `Expr.eval` give the meaning of each kind of node.
-/

namespace BoolScript

/-- What a `not` negates. -/
inductive NotMode where
  /-- The text of the operator, read as a truth word. -/
  | operatorText
  /-- The value of the operand. -/
  | operand
  deriving DecidableEq, Repr, Inhabited

/-- The value of a literal with this text at this position. -/
def literalValue (text : String) (position : Nat) : Except Fault Bool :=
  match Text.truth? text with
  | some value => .ok value
  | none => .error (.notBoolean text position)

namespace Expr

/-- The name that an assignment to this tree gives a value, if the tree is a variable. -/
def target? : Expr → Option String
  | var name _ => some name
  | _ => none

theorem target?_eq_some_iff {tree : Expr} {name : String} :
    tree.target? = some name ↔ ∃ position, tree = var name position := by
  cases tree <;> simp [target?]

/-- Evaluates a tree and goes on with its value. -/
def evalThen {α : Type} (mode : NotMode) : Expr → (Bool → Action α) → Action α
  | literal text position, next =>
    match literalValue text position with
    | .ok value => next value
    | .error defect => .fault defect
  | var name _, next => .fetch name next
  | binary (.logical connective) left right _, next =>
    left.evalThen mode fun l => right.evalThen mode fun r => next (connective.combine l r)
  | binary .assign target value position, next =>
    match target.target? with
    | some name => value.evalThen mode fun v => .store name v (next v)
    | none => .fault (.notAssignable position)
  | unary .print _ operand _, next => operand.evalThen mode fun v => .print v (next false)
  | unary .not text operand _, next =>
    match mode with
    | .operatorText => next !Text.isTrue text
    | .operand => operand.evalThen mode fun v => next !v

/-- Evaluates a tree. -/
def eval (mode : NotMode) (tree : Expr) : Action Bool :=
  tree.evalThen mode .finish

/-- Evaluates trees one after the other, and has the value of the last one; without trees it is the
value given first. -/
def evalAllFrom (mode : NotMode) : Option Bool → List Expr → Action (Option Bool)
  | value, [] => .finish value
  | _, tree :: trees => tree.evalThen mode fun value => evalAllFrom mode (some value) trees

/-- Evaluates trees one after the other, and has the value of the last one, if there is one. -/
def evalAll (mode : NotMode) (trees : List Expr) : Action (Option Bool) :=
  evalAllFrom mode none trees

/-! ## The meaning of each kind of node -/

theorem evalThen_eq_bind {α : Type} (mode : NotMode) (tree : Expr) (next : Bool → Action α) :
    tree.evalThen mode next = tree.eval mode >>= next := by
  unfold eval
  suffices h : ∀ (inner : Bool → Action Bool),
      tree.evalThen mode (fun value => inner value >>= next) = tree.evalThen mode inner >>= next by
    simpa using h .finish
  induction tree generalizing α with
  | literal text position =>
    intro inner
    unfold evalThen
    split <;> rfl
  | var name position => intro inner; rfl
  | binary op left right position ihl ihr =>
    intro inner
    match op with
    | .logical connective =>
      simp only [evalThen]
      rw [← ihl]
      congr 1
      funext l
      rw [← ihr]
    | .assign =>
      simp only [evalThen]
      split
      · rw [← ihr]; rfl
      · rfl
  | unary op text operand position ih =>
    intro inner
    match op with
    | .print => simp only [evalThen]; rw [← ih]; rfl
    | .not =>
      match mode with
      | .operatorText => rfl
      | .operand => simp only [evalThen]; rw [← ih]

theorem eval_literal (mode : NotMode) (text : String) (position : Nat) :
    (literal text position).eval mode =
      match literalValue text position with
      | .ok value => .finish value
      | .error defect => .fault defect := rfl

theorem eval_var (mode : NotMode) (name : String) (position : Nat) :
    (var name position).eval mode = .fetch name .finish := rfl

theorem eval_logical (mode : NotMode) (connective : Connective) (left right : Expr)
    (position : Nat) :
    (logical connective left right position).eval mode =
      left.eval mode >>= fun l => right.eval mode >>= fun r =>
        .finish (connective.combine l r) := by
  rw [eval, evalThen, evalThen_eq_bind]
  congr 1
  funext l
  rw [evalThen_eq_bind]

theorem eval_assign (mode : NotMode) (name : String) (value : Expr) (start position : Nat) :
    (binary .assign (var name start) value position).eval mode =
      value.eval mode >>= fun v => .store name v (.finish v) := by
  simp only [eval, evalThen, target?]
  rw [evalThen_eq_bind]
  rfl

theorem eval_assign_of_target?_eq_none (mode : NotMode) {target : Expr} (h : target.target? = none)
    (value : Expr) (position : Nat) :
    (binary .assign target value position).eval mode = .fault (.notAssignable position) := by
  simp only [eval, evalThen, h]

theorem eval_print (mode : NotMode) (text : String) (operand : Expr) (position : Nat) :
    (unary .print text operand position).eval mode =
      operand.eval mode >>= fun v => .print v (.finish false) := by
  rw [eval, evalThen, evalThen_eq_bind]

theorem eval_not_operatorText (text : String) (operand : Expr) (position : Nat) :
    (unary .not text operand position).eval .operatorText = .finish !Text.isTrue text := rfl

theorem eval_not_operand (text : String) (operand : Expr) (position : Nat) :
    (unary .not text operand position).eval .operand =
      operand.eval .operand >>= fun v => .finish !v := by
  rw [eval, evalThen, evalThen_eq_bind]

theorem evalAllFrom_cons (mode : NotMode) (value : Option Bool) (tree : Expr)
    (trees : List Expr) :
    evalAllFrom mode value (tree :: trees) =
      tree.eval mode >>= fun v => evalAllFrom mode (some v) trees := by
  rw [evalAllFrom, evalThen_eq_bind]

/-- Two runs of trees one after the other are one run. -/
theorem evalAllFrom_append (mode : NotMode) (value : Option Bool) (trees more : List Expr) :
    evalAllFrom mode value (trees ++ more) =
      evalAllFrom mode value trees >>= fun v => evalAllFrom mode v more := by
  induction trees generalizing value with
  | nil => rfl
  | cons tree trees ih => simp only [List.cons_append, evalAllFrom_cons, ih, bind_assoc]

end Expr

end BoolScript
