/-!
# Actions

What an evaluation asks of its surroundings, without the surroundings: the value of a name, which
the variables or the user know; a new value for a name; a value to be printed. Between two requests
nothing is computed that the surroundings could see, so an `Action` is the whole meaning of a tree,
and everything about input, output and variables is a matter of who carries it out.

## Shape of an action

An action is a tree that branches on the answers. It ends with a value or with a `Fault`, a defect
of the evaluated tree itself. Actions are sequenced by grafting (`Action.bind`), which makes them a
lawful monad.
-/

namespace BoolScript

/-- A defect of a tree that makes it meaningless, found when its evaluation comes to it. -/
inductive Fault where
  /-- The text of a literal is no truth word. -/
  | notBoolean (text : String) (position : Nat)
  /-- The left side of an assignment is no variable. -/
  | notAssignable (position : Nat)
  deriving DecidableEq, Repr, Inhabited

/-- The message that names a fault. -/
def Fault.message : Fault → String
  | notBoolean text position =>
    "Значение '" ++ text ++ "' не является логическим в позиции " ++ toString position
  | notAssignable position => "Неизвестное выражение в позиции " ++ toString position

/-- A computation of an `α` that makes requests to its surroundings. -/
inductive Action (α : Type) where
  /-- Ends with a value. -/
  | finish (value : α)
  /-- Ends with a fault. -/
  | fault (defect : Fault)
  /-- Goes on with the value of a name. -/
  | fetch (name : String) (next : Bool → Action α)
  /-- Gives a name a value. -/
  | store (name : String) (value : Bool) (next : Action α)
  /-- Prints a value. -/
  | print (value : Bool) (next : Action α)

namespace Action

instance {α : Type} [Inhabited α] : Inhabited (Action α) :=
  ⟨finish default⟩

/-- The first action, and after it the one that its value determines. -/
protected def bind {α β : Type} : Action α → (α → Action β) → Action β
  | finish value, next => next value
  | fault defect, _ => fault defect
  | fetch name rest, next => fetch name fun value => (rest value).bind next
  | store name value rest, next => store name value (rest.bind next)
  | print value rest, next => print value (rest.bind next)

instance : Monad Action where
  pure := finish
  bind := Action.bind

/-! ## Sequencing -/

@[simp] theorem finish_bind {α β : Type} (value : α) (next : α → Action β) :
    finish value >>= next = next value := rfl

@[simp] theorem fault_bind {α β : Type} (defect : Fault) (next : α → Action β) :
    (fault defect : Action α) >>= next = fault defect := rfl

@[simp] theorem fetch_bind {α β : Type} (name : String) (rest : Bool → Action α)
    (next : α → Action β) :
    fetch name rest >>= next = fetch name fun value => rest value >>= next := rfl

@[simp] theorem store_bind {α β : Type} (name : String) (value : Bool) (rest : Action α)
    (next : α → Action β) :
    store name value rest >>= next = store name value (rest >>= next) := rfl

@[simp] theorem print_bind {α β : Type} (value : Bool) (rest : Action α) (next : α → Action β) :
    print value rest >>= next = print value (rest >>= next) := rfl

theorem bind_finish {α : Type} (action : Action α) : action >>= finish = action := by
  induction action with
  | finish | fault => rfl
  | fetch name rest ih => exact congrArg (fetch name) (funext ih)
  | store name value rest ih => exact congrArg (store name value) ih
  | print value rest ih => exact congrArg (print value) ih

theorem bind_bind {α β γ : Type} (action : Action α) (next : α → Action β)
    (last : β → Action γ) :
    action >>= next >>= last = action >>= fun value => next value >>= last := by
  induction action with
  | finish | fault => rfl
  | fetch name rest ih => exact congrArg (fetch name) (funext ih)
  | store name value rest ih => exact congrArg (store name value) ih
  | print value rest ih => exact congrArg (print value) ih

instance : LawfulMonad Action :=
  LawfulMonad.mk' Action (fun action => bind_finish action) (fun _ _ => rfl)
    (fun action next last => bind_bind action next last)

end Action

end BoolScript
