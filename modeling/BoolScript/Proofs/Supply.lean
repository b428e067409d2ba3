import BoolScript.Proofs.Runs

/-!
# Answers given beforehand

What becomes of a run if the values that it would ask for are among the variables already. The
answers are put there by `Bindings.insertAll`. The run then asks nothing, and does everything else
as before: `Session.Runs.supplied` is a simulation between the two runs, whose relation says that
the second session knows what the first one knows and what it is going to be told.
-/

namespace BoolScript

namespace Bindings

/-- The bindings with values for some names, the later ones in place of the earlier ones. -/
def insertAll (bindings : Bindings) (entries : List (String × Bool)) : Bindings :=
  entries.foldl (fun bindings entry => bindings.insert entry.1 entry.2) bindings

@[simp] theorem insertAll_nil (bindings : Bindings) : bindings.insertAll [] = bindings := rfl

@[simp] theorem insertAll_cons (bindings : Bindings) (name : String) (value : Bool)
    (entries : List (String × Bool)) :
    bindings.insertAll ((name, value) :: entries) =
      (bindings.insert name value).insertAll entries := rfl

/-- Values for new names change nothing else. -/
theorem get?_insertAll {bindings : Bindings} {entries : List (String × Bool)}
    (hn : (entries.map Prod.fst).Nodup)
    (hu : ∀ name ∈ entries.map Prod.fst, bindings.get? name = none) (name : String) :
    (bindings.insertAll entries).get? name = (bindings.get? name).or (entries.lookup name) := by
  induction entries generalizing bindings with
  | nil => simp
  | cons entry entries ih =>
    obtain ⟨key, value⟩ := entry
    obtain ⟨hk, hn⟩ := List.nodup_cons.1 hn
    have hu' : ∀ other ∈ entries.map Prod.fst, (bindings.insert key value).get? other = none := by
      intro other ho
      have hne : other ≠ key := fun he => hk (he ▸ ho)
      rw [get?_insert, if_neg hne]
      exact hu other (List.mem_cons_of_mem _ ho)
    rw [insertAll_cons, ih hn hu', get?_insert, List.lookup_cons]
    by_cases he : name = key
    · subst he
      have : bindings.get? name = none := hu name List.mem_cons_self
      simp [this]
    · have : (name == key) = false := by simpa using he
      rw [if_neg he, this]

end Bindings

namespace Session

variable {α : Type} {action : Action α} {session : Session} {events : List Event}

/-- A session that knows the answers already does what the first one did, but asks nothing: it has
the same result, leaves the input alone and shows the same values. -/
theorem Runs.supplied {result : EStateM.Result EvalError Session α}
    (h : Runs action session events result) {value : α} {after : Session}
    (hr : result = .ok value after) {again : Session}
    (hk : ∀ name, again.bindings.get? name =
      (session.bindings.get? name).or ((Event.questions events).lookup name))
    (ho : again.console.output.room = none) :
    ∃ final, Runs action again (Event.showings events) (.ok value final) ∧
      (∀ name, final.bindings.get? name = after.bindings.get? name) ∧
      final.console.input = again.console.input := by
  induction h generalizing again with
  | finish value session =>
    cases hr
    refine ⟨again, .finish value again, fun name => ?_, rfl⟩
    simpa using hk name
  | fault | askFailed | showFailed => cases hr
  | @known name next session value events result h _ ih =>
    -- What the first session knows, the second one knows too.
    have hv : again.bindings.get? name = some value := by rw [hk, h, Option.some_or]
    obtain ⟨final, hf, hb, hi⟩ := ih hr hk ho
    exact ⟨final, .known hv hf, hb, hi⟩
  | @asked name next session value console events result h _ _ ih =>
    have hv : again.bindings.get? name = some value := by
      rw [hk, h, Event.questions_asked, List.lookup_cons_self, Option.none_or]
    -- From now on both sessions know the answer.
    have hk' : ∀ other, again.bindings.get? other =
        (((session.atConsole console).bind name value).bindings.get? other).or
          ((Event.questions events).lookup other) := by
      intro other
      rw [bindings_bind, bindings_atConsole, Bindings.get?_insert]
      by_cases he : other = name
      · rw [if_pos he, he, hv, Option.some_or]
      · have hne : (other == name) = false := by simpa using he
        rw [if_neg he, hk, Event.questions_asked, List.lookup_cons, hne]
    obtain ⟨final, hf, hb, hi⟩ := ih hr hk' ho
    exact ⟨final, .known hv hf, hb, hi⟩
  | @stored name value next session events result _ ih =>
    have hk' : ∀ other, (again.bind name value).bindings.get? other =
        ((session.bind name value).bindings.get? other).or
          ((Event.questions events).lookup other) := by
      intro other
      rw [bindings_bind, bindings_bind, Bindings.get?_insert, Bindings.get?_insert]
      by_cases he : other = name
      · rw [if_pos he, if_pos he, Option.some_or]
      · rw [if_neg he, if_neg he, hk]
    obtain ⟨final, hf, hb, hi⟩ := ih hr hk' ho
    exact ⟨final, .stored hf, hb, hi⟩
  | @shown value next session console events result _ _ ih =>
    let bytes := Text.encode (Console.valueLine value)
    let shown := again.atConsole ⟨again.console.input, (again.console.output.write bytes).2⟩
    have hc := congrArg Prod.fst (Output.write_of_room_eq_none ho bytes)
    have hp : Console.print value again.console = .ok () shown.console :=
      Console.write_of_complete hc
    have hk' : ∀ name, shown.bindings.get? name =
        ((session.atConsole console).bindings.get? name).or
          ((Event.questions events).lookup name) := hk
    have ho' : shown.console.output.room = none := by
      rw [console_atConsole, Output.write_of_room_eq_none ho]
      exact ho
    obtain ⟨final, hf, hb, hi⟩ := ih hr hk' ho'
    exact ⟨final, .shown hp hf, hb, hi⟩

end Session

end BoolScript
