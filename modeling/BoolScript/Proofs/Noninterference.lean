import BoolScript.Proofs.Advance
import BoolScript.Proofs.SoundTrees
import BoolScript.Proofs.UpFront

/-!
# Names that do not occur make no difference

An evaluation reads and writes the variables of its trees and no others. So two sessions that agree
on the names of some trees, and have the same before them at the console, evaluate these trees
alike: to the same value or error, with the same bytes written and as many read
(`Session.evalAll_of_agreement`). All other variables stay as they are, and so does the mode.

## Shape of the proof

What has passed at a console before matters to no task: a session may have it put behind it
(`Session.behind`) and does the same. So both consoles may be taken for the same fresh one, and the
sessions then differ in variables alone that do not occur (`Session.IsVariant`). They carry out the
action of the trees step by step in the same way, since it requests only names that occur.
-/

namespace BoolScript

namespace Session

/-! ## What has passed before -/

/-- The session with these bytes written and this many bytes read before everything else. -/
def behind (written : Array UInt8) (consumed : Nat) (session : Session) : Session :=
  session.atConsole
    ⟨{ session.console.input with consumed := consumed + session.console.input.consumed },
      { session.console.output with written := written ++ session.console.output.written }⟩

/-- The session as if nothing had been written or read before. -/
def afresh (session : Session) : Session :=
  session.atConsole
    ⟨{ session.console.input with consumed := 0 }, { session.console.output with written := #[] }⟩

theorem behind_afresh (session : Session) :
    session.afresh.behind session.console.output.written session.console.input.consumed =
      session := by
  simp [behind, afresh, atConsole]

/-- The task does the same whatever has passed before. -/
def IgnoresPast {α : Type} (task : SessionM α) : Prop :=
  ∀ written consumed session,
    task (session.behind written consumed) = mapState (behind written consumed) (task session)

section

variable {α β : Type}

theorem IgnoresPast.bind {task : SessionM α} {next : α → SessionM β} (h : IgnoresPast task)
    (hn : ∀ value, IgnoresPast (next value)) : IgnoresPast (task >>= next) :=
  fun written consumed session =>
    bind_mapState (h written consumed session) fun value middle _ => hn value written consumed middle

theorem write_behind (written : Array UInt8) (output : Output) (bytes : List UInt8) :
    { output with written := written ++ output.written }.write bytes =
      ((output.write bytes).1,
        { (output.write bytes).2 with written := written ++ (output.write bytes).2.written }) := by
  have hassoc (more : List UInt8) :
      written ++ output.written ++ more = written ++ (output.written ++ more) := by
    apply Array.toList_inj.1
    simp
  unfold Output.write
  cases output.room with
  | none => simp only [hassoc]
  | some room => simp only [hassoc]

theorem ignoresPast_write (text : String) : IgnoresPast (onConsole (Console.write text)) := by
  rintro written consumed ⟨bindings, notMode, input, output⟩
  simp only [onConsole, Console.write, behind, atConsole, write_behind]
  generalize output.write (Text.encode text) = result
  obtain ⟨_ | _, _⟩ := result <;> rfl

theorem ignoresPast_flush : IgnoresPast (onConsole Console.flush) := by
  rintro written consumed ⟨bindings, notMode, input, ⟨before, room, flushFails⟩⟩
  cases flushFails <;> rfl

theorem readLine_behind (consumed : Nat) (input : Input) :
    { input with consumed := consumed + input.consumed }.readLine =
      (input.readLine.1,
        { input.readLine.2 with consumed := consumed + input.readLine.2.consumed }) := by
  simp only [Input.readLine, Nat.add_assoc]

theorem ignoresPast_readLine : IgnoresPast (onConsole Console.readLine) := by
  rintro written consumed ⟨bindings, notMode, input, output⟩
  simp only [onConsole, Console.readLine, behind, atConsole, readLine_behind]
  generalize input.readLine = result
  obtain ⟨_ | _, _⟩ := result <;> rfl

theorem isInherited_ignoresPast : IsInherited IgnoresPast where
  pure := fun _ _ _ _ => rfl
  throw := fun _ _ _ _ => rfl
  bind := .bind
  look := fun hn written consumed session => hn session.bindings written consumed session
  write := ignoresPast_write
  flush := ignoresPast_flush
  readLine := ignoresPast_readLine
  store := fun _ _ _ _ _ => rfl

/-- A run does the same whatever has passed before. -/
theorem ignoresPast_run (action : Action α) : IgnoresPast (run action) :=
  isInherited_ignoresPast.run action

end

/-! ## Other variables -/

/-- The second session is the first one, except for variables that are none of these. -/
structure IsVariant (names : List String) (session other : Session) : Prop where
  console : other.console = session.console
  notMode : other.notMode = session.notMode
  bindings : ∀ name ∈ names, other.bindings.get? name = session.bindings.get? name

section

variable {α : Type} {names : List String} {session other : Session} {requests : List Request}
  {action : Action α}

theorem IsVariant.bind (h : session.IsVariant names other) (name : String) (value : Bool) :
    (session.bind name value).IsVariant names (other.bind name value) := by
  refine ⟨h.console, h.notMode, fun occurring ho => ?_⟩
  simp only [bindings_bind, Bindings.get?_insert, h.bindings occurring ho]

theorem IsVariant.onConsole (h : session.IsVariant names other) (task : ConsoleM α) :
    SameEnd (IsVariant names) (onConsole task session) (onConsole task other) := by
  cases ht : task session.console with
  | ok value console =>
    rw [onConsole_of_ok ht, onConsole_of_ok (h.console.symm ▸ ht)]
    exact .ok ⟨rfl, h.notMode, h.bindings⟩
  | error error console =>
    rw [onConsole_of_error ht, onConsole_of_error (h.console.symm ▸ ht)]
    exact .error ⟨rfl, h.notMode, h.bindings⟩

theorem IsVariant.fetch (h : session.IsVariant names other) {name : String} (hn : name ∈ names) :
    SameEnd (IsVariant names) (fetch name session) (fetch name other) := by
  have hb := h.bindings name hn
  cases hv : session.bindings.get? name with
  | some value =>
    rw [fetch_of_bound hv, fetch_of_bound (hb.trans hv)]
    exact .ok h
  | none =>
    rw [fetch_of_unbound hv, fetch_of_unbound (hb.trans hv)]
    exact (h.onConsole _).bind fun value _ _ hm => .ok (hm.bind name value)

/-- A run ends in the same way if the names that it requests are among these. -/
theorem IsVariant.run (hf : Action.Follows requests action)
    (hn : ∀ request ∈ requests, ∀ name ∈ request.name?, name ∈ names)
    (h : session.IsVariant names other) :
    SameEnd (IsVariant names) (run action session) (run action other) := by
  induction hf generalizing session other with
  | finish value => exact .ok h
  | fault defect rest => exact .error h
  | fetch _ ih =>
    obtain ⟨hname, hrest⟩ := List.forall_mem_cons.1 hn
    exact (h.fetch (hname _ rfl)).bind fun value _ _ hm => ih value hrest hm
  | store _ ih => exact ih (List.forall_mem_cons.1 hn).2 (h.bind _ _)
  | print _ ih =>
    exact (h.onConsole _).bind fun _ _ _ hm => ih (List.forall_mem_cons.1 hn).2 hm

theorem get?_bind_of_ne {session : Session} {name other : String} {value : Bool}
    (h : other ≠ name) :
    (session.bind name value).bindings.get? other = session.bindings.get? other := by
  rw [bindings_bind, Bindings.get?_insert, if_neg h]

/-- A run leaves a name as it is if it does not request it. -/
theorem Runs.get?_of_notMem {events : List Event} {result : EStateM.Result EvalError Session α}
    (h : Runs action session events result) (hf : Action.Follows requests action) {name : String}
    (hn : ∀ request ∈ requests, name ∉ request.name?) :
    (stateAfter result).bindings.get? name = session.bindings.get? name := by
  induction h generalizing requests with
  | finish | fault | askFailed | showFailed => rfl
  | known _ _ ih =>
    cases hf with
    | fetch hf => exact ih (hf _) (List.forall_mem_cons.1 hn).2
  | asked _ _ _ ih =>
    cases hf with
    | fetch hf =>
      obtain ⟨hname, hrest⟩ := List.forall_mem_cons.1 hn
      rw [ih (hf _) hrest]
      exact get?_bind_of_ne fun he => hname (congrArg some he.symm)
  | stored _ ih =>
    cases hf with
    | store hf =>
      obtain ⟨hname, hrest⟩ := List.forall_mem_cons.1 hn
      rw [ih hf hrest]
      exact get?_bind_of_ne fun he => hname (congrArg some he.symm)
  | shown _ _ ih =>
    cases hf with
    | print hf => exact ih hf (List.forall_mem_cons.1 hn).2

end

/-! ## Evaluations -/

/-- The second session is in the same mode as the first one, has the same values for these names,
and the same before it: the same bytes to read and an output that does the same. -/
structure AgreesOn (names : List String) (session other : Session) : Prop where
  notMode : other.notMode = session.notMode
  bindings : ∀ name ∈ names, other.bindings.get? name = session.bindings.get? name
  pending : other.console.input.pending = session.console.input.pending
  fails : other.console.input.fails = session.console.input.fails
  room : other.console.output.room = session.console.output.room
  flushFails : other.console.output.flushFails = session.console.output.flushFails

/-- The second session is the first one when these bytes have been written and this many bytes have
been read. Variables may have changed, but only these. -/
structure Proceeds (names : List String) (bytes : List UInt8) (count : Nat)
    (before after : Session) : Prop where
  written : after.console.output.written.toList = before.console.output.written.toList ++ bytes
  consumed : after.console.input.consumed = before.console.input.consumed + count
  notMode : after.notMode = before.notMode
  frame : ∀ name ∉ names, after.bindings.get? name = before.bindings.get? name

variable {names : List String} {trees : List Expr} {session other : Session}

theorem AgreesOn.isVariant_afresh (h : session.AgreesOn names other) :
    session.afresh.IsVariant names other.afresh := by
  refine ⟨?_, h.notMode, h.bindings⟩
  simp only [afresh, console_atConsole, h.pending, h.fails, h.room, h.flushFails]

theorem IsVariant.agreesOn_behind (h : session.IsVariant names other)
    (written written' : Array UInt8) (consumed consumed' : Nat) :
    (session.behind written consumed).AgreesOn names (other.behind written' consumed') where
  notMode := h.notMode
  bindings := h.bindings
  pending := congrArg (fun console => console.input.pending) h.console
  fails := congrArg (fun console => console.input.fails) h.console
  room := congrArg (fun console => console.output.room) h.console
  flushFails := congrArg (fun console => console.output.flushFails) h.console

theorem evalAll_afresh (trees : List Expr) (session : Session) :
    evalAll trees session = mapState
      (behind session.console.output.written session.console.input.consumed)
      (evalAll trees session.afresh) := by
  rw [evalAll_eq trees session.afresh, ← ignoresPast_run, behind_afresh]
  exact evalAll_eq trees session

theorem IsVariant.evalAll (h : session.IsVariant (trees.flatMap Expr.names) other) :
    SameEnd (IsVariant (trees.flatMap Expr.names)) (evalAll trees session)
      (evalAll trees other) := by
  rw [evalAll_eq, evalAll_eq, h.notMode]
  exact h.run (Expr.follows_evalAll _ trees) fun _ hr _ => Expr.mem_names_of_mem_requestsAll hr

/-- An evaluation goes on from where it begins, and it changes only variables of its trees. -/
theorem proceeds_evalAll (trees : List Expr) (session : Session) :
    let start := stateAfter (evalAll trees session.afresh)
    Proceeds (trees.flatMap Expr.names) start.console.output.written.toList
      start.console.input.consumed session (stateAfter (evalAll trees session)) := by
  have hrun := runs_evalAll trees session
  have hframe : ∀ name ∉ trees.flatMap Expr.names,
      (stateAfter (evalAll trees session)).bindings.get? name = session.bindings.get? name := by
    intro name hn
    refine hrun.get?_of_notMem (Expr.follows_evalAll _ trees) fun request hr hm => ?_
    exact hn (Expr.mem_names_of_mem_requestsAll hr hm)
  have hafter : stateAfter (evalAll trees session) =
      (stateAfter (evalAll trees session.afresh)).behind session.console.output.written
        session.console.input.consumed := by
    rw [evalAll_afresh]
    cases evalAll trees session.afresh <;> rfl
  refine ⟨?_, ?_, hrun.notMode, hframe⟩
  · rw [hafter, behind, console_atConsole, Array.toList_append]
  · rw [hafter, behind, console_atConsole]

/-- An evaluation depends on the variables that occur in its trees, and on no others. Sessions that
agree on these come to the same value or the same error and agree on them afterwards; the same bytes
are written and as many are read. Each keeps its mode and all of its other variables. -/
theorem evalAll_of_agreement (h : session.AgreesOn (trees.flatMap Expr.names) other) :
    SameEnd
      (fun after after' => after.AgreesOn (trees.flatMap Expr.names) after' ∧
        ∃ bytes count, Proceeds (trees.flatMap Expr.names) bytes count session after ∧
          Proceeds (trees.flatMap Expr.names) bytes count other after')
      (evalAll trees session) (evalAll trees other) := by
  have hends := h.isVariant_afresh.evalAll
  have hp := proceeds_evalAll trees session
  have hp' := proceeds_evalAll trees other
  rw [evalAll_afresh trees session] at hp ⊢
  rw [evalAll_afresh trees other] at hp' ⊢
  generalize evalAll trees session.afresh = result, evalAll trees other.afresh = result' at *
  cases hends with
  | ok ha =>
    simp only [stateAfter, ha.console] at hp'
    exact .ok ⟨ha.agreesOn_behind _ _ _ _, _, _, hp, hp'⟩
  | error ha =>
    simp only [stateAfter, ha.console] at hp'
    exact .error ⟨ha.agreesOn_behind _ _ _ _, _, _, hp, hp'⟩

/-- One session knows nothing but `z`. The other one knows `w` besides, has written something before
and has read seven bytes. Both ask for `y` and show the conjunction of `x` and `z`. -/
theorem evalAll_of_agreement_beside_another_name :
    let trees : List Expr :=
      [.binary .assign (.var "x" 0) (.var "y" 4) 2,
        .unary .print "print" (.logical .and (.var "x" 13) (.var "z" 19) 15) 7]
    let session : Session :=
      ⟨.insert .empty "z" true, .operatorText, ⟨⟨Text.encode "True\nno", 0, false⟩, {}⟩⟩
    let other : Session :=
      ⟨.insert (.insert .empty "z" true) "w" false, .operatorText,
        ⟨⟨Text.encode "True\nno", 7, false⟩, ⟨#[33, 10], none, false⟩⟩⟩
    session.AgreesOn (trees.flatMap Expr.names) other ∧
      ∃ after after', evalAll trees session = .ok (some false) after ∧
        evalAll trees other = .ok (some false) after' ∧
        after.console.input.consumed = 5 ∧ after'.console.input.consumed = 12 ∧
        after.AgreesOn (trees.flatMap Expr.names) after' ∧
        after'.bindings.get? "w" = other.bindings.get? "w" := by
  intro trees session other
  have hagree : session.AgreesOn (trees.flatMap Expr.names) other :=
    ⟨rfl, by decide, rfl, rfl, rfl, rfl⟩
  have hends := evalAll_of_agreement hagree
  obtain ⟨after, hr, hc⟩ : ∃ after, evalAll trees session = .ok (some false) after ∧
      after.console.input.consumed = 5 := by
    subst trees session
    exact ⟨_, rfl, rfl⟩
  rw [hr] at hends
  obtain ⟨after', hr', ha, bytes, count, hp, hp'⟩ := hends.of_ok
  -- As much is read in the second session as in the first one.
  have hcount : 5 = 0 + count := hc ▸ hp.consumed
  have hc' : after'.console.input.consumed = 7 + count := hp'.consumed
  exact ⟨hagree, after, after', hr, hr', hc, by omega, ha, hp'.frame "w" (by decide)⟩

end Session

end BoolScript
