import BoolScript.Proofs.Runs

/-!
# What every run keeps

A run is made of four tasks: writing, flushing, reading a line and giving a name a value. A property
of these four that sequences inherit is one of every run, and `Session.IsInherited.run` is the
induction that nobody has to repeat. One kind of property is that a computation keeps a relation
between the session before and after (`Session.IsKept`).

The relation that is kept by any run is `Session.Advances`: what is written is never taken back, what
is read is gone, and a name that has a value has one from then on.
-/

namespace BoolScript

section

variable {ε σ α β : Type} {R : σ → σ → Prop} {task : EStateM ε σ α} {next : α → EStateM ε σ β}

/-- Whether it fails or not, the computation takes every state to a related one. -/
def Moves (R : σ → σ → Prop) (task : EStateM ε σ α) : Prop :=
  ∀ before, R before (stateAfter (task before))

theorem Moves.pure (refl : ∀ state, R state state) (answer : α) :
    Moves R (pure answer : EStateM ε σ α) :=
  fun before => refl before

theorem Moves.throw (refl : ∀ state, R state state) (error : ε) :
    Moves R (throw error : EStateM ε σ α) :=
  fun before => refl before

theorem Moves.bind (trans : ∀ {first middle last}, R first middle → R middle last → R first last)
    (h : Moves R task) (hn : ∀ answer, Moves R (next answer)) : Moves R (task >>= next) := by
  intro before
  have ht := h before
  cases hr : task before with
  | ok answer middle =>
    rw [hr] at ht
    rw [bind_of_ok hr]
    exact trans ht (hn answer middle)
  | error error after =>
    rw [hr] at ht
    rw [bind_of_error hr]
    exact ht

end

namespace Session

/-! ## Questions in a session -/

theorem onConsole_bind {α β : Type} (task : ConsoleM α) (next : α → ConsoleM β) :
    onConsole (task >>= next) = onConsole task >>= fun answer => onConsole (next answer) := by
  funext session
  cases h : task session.console with
  | ok answer console =>
    rw [bind_of_ok (onConsole_of_ok h), onConsole, bind_of_ok h]
    rfl
  | error error console =>
    rw [bind_of_error (onConsole_of_error h), onConsole, bind_of_error h]
    rfl

/-- A question in a session is made of tasks in the session. -/
theorem onConsole_ask (name : String) :
    onConsole (Console.ask name) = (do
      onConsole (Console.write (Console.prompt name))
      onConsole Console.flush
      match ← onConsole Console.readLine with
      | some line => return Console.answer line
      | none => throw (.console (.inputClosed name))) := by
  rw [Console.ask, onConsole_bind]
  congr 1
  funext _
  rw [onConsole_bind]
  congr 1
  funext _
  rw [onConsole_bind]
  congr 1
  funext line
  cases line <;> rfl

/-- A name is answered from the variables or by the user. -/
theorem fetch_eq_elim (name : String) :
    fetch name = get >>= fun session => (session.bindings.get? name).elim
      (do
        let value ← onConsole (Console.ask name)
        store name value
        return value) Pure.pure := by
  funext session
  cases h : session.bindings.get? name with
  | some value =>
    rw [fetch_of_bound h, get_bind_apply, h]
    rfl
  | none =>
    rw [fetch_of_unbound h, get_bind_apply, h]
    rfl

/-! ## What the tasks leave behind -/

theorem stateAfter_write (text : String) (session : Session) :
    stateAfter (onConsole (Console.write text) session) = session.atConsole
      { session.console with output := (session.console.output.write (Text.encode text)).2 } := by
  rw [onConsole, Console.write]
  by_cases hc : (session.console.output.write (Text.encode text)).1 = true
  all_goals
    simp only [hc]
    rfl

theorem stateAfter_flush (session : Session) :
    stateAfter (onConsole Console.flush session) = session := by
  rw [onConsole, Console.flush]
  by_cases hf : session.console.output.flushFails = true
  all_goals
    simp only [hf]
    rfl

theorem stateAfter_readLine (session : Session) :
    stateAfter (onConsole Console.readLine session) = session.atConsole
      { session.console with input := session.console.input.readLine.2 } := by
  rw [onConsole, Console.readLine]
  generalize session.console.input.readLine = result
  obtain ⟨_ | _, _⟩ := result <;> rfl

theorem stateAfter_reply (name : String) (session : Session) :
    stateAfter (onConsole (Console.reply name) session) = session.atConsole
      { session.console with input := session.console.input.readLine.2 } := by
  rw [onConsole, Console.reply_eq]
  generalize session.console.input.readLine.1 = line
  obtain _ | _ | _ := line <;> rfl

/-! ## What holds of every run -/

/-- A property of computations that is passed on from the tasks to whatever is made of them. -/
structure IsInherited (P : ∀ {α : Type}, SessionM α → Prop) : Prop where
  pure : ∀ {α : Type} (value : α), P (pure value : SessionM α)
  throw : ∀ {α : Type} (error : EvalError), P (throw error : SessionM α)
  bind : ∀ {α β : Type} {task : SessionM α} {next : α → SessionM β}, P task →
    (∀ value, P (next value)) → P (task >>= next)
  /-- What is done next may depend on the variables. -/
  look : ∀ {α : Type} {next : Bindings → SessionM α}, (∀ bindings, P (next bindings)) →
    P (get >>= fun session => next session.bindings)
  write : ∀ text, P (onConsole (Console.write text))
  flush : P (onConsole Console.flush)
  readLine : P (onConsole Console.readLine)
  store : ∀ name value, P (store name value)

namespace IsInherited

variable {P : ∀ {α : Type}, SessionM α → Prop}

theorem ask (h : IsInherited P) (name : String) : P (onConsole (Console.ask name)) := by
  rw [onConsole_ask]
  refine h.bind (h.write _) fun _ => h.bind h.flush fun _ => h.bind h.readLine fun line => ?_
  cases line with
  | some line => exact h.pure _
  | none => exact h.throw _

theorem fetch (h : IsInherited P) (name : String) : P (fetch name) := by
  have hanswer : ∀ bindings : Bindings, P ((bindings.get? name).elim
      (do
        let value ← onConsole (Console.ask name)
        Session.store name value
        return value) Pure.pure) := by
    intro bindings
    cases bindings.get? name with
    | some value => exact h.pure value
    | none =>
      exact h.bind (h.ask name) fun value => h.bind (h.store name value) fun _ => h.pure value
  rw [fetch_eq_elim]
  exact h.look hanswer

/-- Every run has the property. -/
theorem run {α : Type} (h : IsInherited P) (action : Action α) : P (run action) := by
  induction action with
  | finish value => exact h.pure value
  | fault defect => exact h.throw _
  | fetch name next ih => exact h.bind (h.fetch name) ih
  | store name value next ih => exact h.bind (h.store name value) fun _ => ih
  | print value next ih => exact h.bind (h.write _) fun _ => ih

end IsInherited

/-! ## Relations that are kept -/

/-- The four tasks of which runs are made keep the relation. -/
structure IsKept (R : Session → Session → Prop) : Prop where
  refl : ∀ session, R session session
  trans : ∀ {first middle last}, R first middle → R middle last → R first last
  write : ∀ text, Moves R (onConsole (Console.write text))
  flush : Moves R (onConsole Console.flush)
  readLine : Moves R (onConsole Console.readLine)
  store : ∀ name value, Moves R (store name value)

theorem IsKept.isInherited {R : Session → Session → Prop} (h : IsKept R) :
    IsInherited (Moves R) where
  pure := .pure h.refl
  throw := .throw h.refl
  bind := fun ht hn => ht.bind h.trans hn
  look := fun hn session => hn session.bindings session
  write := h.write
  flush := h.flush
  readLine := h.readLine
  store := h.store

/-- Every run keeps the relation. -/
theorem IsKept.run {R : Session → Session → Prop} (h : IsKept R) {α : Type} (action : Action α) :
    Moves R (run action) :=
  h.isInherited.run action

/-! ## Sessions only advance -/

/-- The second session is one to which the first one can come by running something. -/
structure Advances (before after : Session) : Prop where
  written : before.console.output.written.toList <+: after.console.output.written.toList
  read : ∃ bytes, before.console.input.pending = bytes ++ after.console.input.pending ∧
    after.console.input.consumed = before.console.input.consumed + bytes.length
  bound : ∀ name, (before.bindings.get? name).isSome → (after.bindings.get? name).isSome

theorem Advances.refl (session : Session) : session.Advances session :=
  ⟨List.prefix_rfl, ⟨[], rfl, rfl⟩, fun _ => id⟩

theorem Advances.trans {first middle last : Session} (h : first.Advances middle)
    (hl : middle.Advances last) : first.Advances last := by
  obtain ⟨bytes, hp, hc⟩ := h.read
  obtain ⟨more, hp', hc'⟩ := hl.read
  refine ⟨h.written.trans hl.written, ⟨bytes ++ more, ?_, ?_⟩, fun name hn => ?_⟩
  · rw [hp, hp', List.append_assoc]
  · rw [hc', hc, List.length_append, Nat.add_assoc]
  · exact hl.bound name (h.bound name hn)

theorem advances_bind (session : Session) (name : String) (value : Bool) :
    session.Advances (session.bind name value) :=
  ⟨List.prefix_rfl, ⟨[], rfl, rfl⟩, fun _ h => Bindings.isSome_get?_insert h name value⟩

theorem advances_write (session : Session) (text : String) :
    session.Advances (stateAfter (onConsole (Console.write text) session)) := by
  rw [stateAfter_write]
  have hw := Output.toList_written_write session.console.output (Text.encode text)
  exact ⟨⟨_, hw.symm⟩, ⟨[], rfl, rfl⟩, fun _ => id⟩

theorem advances_readLine (session : Session) :
    session.Advances (stateAfter (onConsole Console.readLine session)) := by
  rw [stateAfter_readLine]
  have hsplit := Text.splitLine_append session.console.input.pending
  exact ⟨List.prefix_rfl, ⟨_, hsplit.symm, rfl⟩, fun _ => id⟩

/-- No run takes anything back. -/
theorem isKept_advances : IsKept Advances where
  refl := .refl
  trans := .trans
  write := fun text session => session.advances_write text
  flush := fun session => (stateAfter_flush session).symm ▸ .refl session
  readLine := advances_readLine
  store := fun name value session => session.advances_bind name value

end Session

end BoolScript
