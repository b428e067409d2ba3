import BoolScript.Proofs.SessionHistory

/-!
# What is not read does not matter

An evaluation takes its answers line by line and never looks behind the last line it has taken. If
it has read whole lines and did not fail for want of input, then the bytes that it left may be any
others, and the input may fail behind them or not: the evaluation ends in the same way and leaves
the other bytes to whatever comes next (`Session.evalAll_of_unread`).

An unfinished last line is kept apart, since other bytes behind it would make it another line, and
so is an input that is at its end where an answer is needed, since other bytes might be the answer.

## Shape of the proof

`Session.refilled` exchanges what is left to read. `Session.IgnoresUnread` says that a task does the
same with other bytes behind those that it reads, and sequences of such tasks do so too: what both
parts read together are whole lines, so the first part has not stopped in the middle of a line.
-/

namespace BoolScript

namespace Text

/-- Nothing, or bytes that end where a line does. -/
def IsWholeLines (bytes : List UInt8) : Prop :=
  bytes = [] ∨ isFinished bytes = true

theorem isFinished_append {bytes more : List UInt8} (h : more ≠ []) :
    isFinished (bytes ++ more) = isFinished more := by
  rw [isFinished, isFinished, List.getLast?_append, List.getLast?_eq_some_getLast h, Option.some_or]

theorem IsWholeLines.of_append {bytes more : List UInt8} (h : IsWholeLines (bytes ++ more)) :
    IsWholeLines more := by
  by_cases hm : more = []
  · exact .inl hm
  · rcases h with h | h
    · exact absurd (List.append_eq_nil_iff.1 h).2 hm
    · exact .inr (isFinished_append hm ▸ h)

/-- A line with its line feed is cut off from any bytes behind it. -/
theorem splitLine_fst_append {bytes : List UInt8} (h : isFinished (splitLine bytes).1 = true)
    (rest : List UInt8) : splitLine ((splitLine bytes).1 ++ rest) = ((splitLine bytes).1, rest) := by
  induction bytes with
  | nil => cases h
  | cons byte others ih =>
    rw [splitLine_cons] at h ⊢
    by_cases hb : byte = lineFeed
    · simp only [if_pos hb, List.singleton_append, splitLine_cons]
    · simp only [if_neg hb] at h ⊢
      -- The line feed stands among the other bytes.
      have hrest : (splitLine others).1 ≠ [] := by
        intro hn
        rw [hn, isFinished, List.getLast?_singleton, beq_iff_eq] at h
        exact hb (Option.some.inj h)
      rw [← List.singleton_append, isFinished_append hrest] at h
      rw [List.cons_append, splitLine_cons, if_neg hb, ih h]

/-- Whole lines are lines of their own, whatever bytes are behind them. -/
theorem lines_append {bytes : List UInt8} (h : IsWholeLines bytes) (rest : List UInt8) :
    lines (bytes ++ rest) = lines bytes ++ lines rest := by
  induction bytes with
  | nil => rfl
  | cons byte others ih =>
    have hbyte : IsWholeLines ([byte] ++ others) := h
    have hothers := ih hbyte.of_append
    rw [List.cons_append, lines, lines, hothers]
    by_cases hb : byte = lineFeed
    · rw [if_pos hb, if_pos hb, List.cons_append]
    · rw [if_neg hb, if_neg hb]
      cases hl : lines others with
      | cons line more => rfl
      | nil =>
        -- The last byte is a line feed, and this one is none.
        obtain rfl := lines_eq_nil_iff.1 hl
        rcases h with h | h
        · cases h
        · rw [isFinished, List.getLast?_singleton, beq_iff_eq] at h
          exact absurd (Option.some.inj h) hb

end Text

/-- A line with its line feed is read in the same way, whatever comes behind it. -/
theorem Input.readLine_of_isFinished {input : Input}
    (hf : Text.isFinished (Text.splitLine input.pending).1 = true) (rest : List UInt8)
    (fails : Bool) :
    { input with pending := (Text.splitLine input.pending).1 ++ rest, fails }.readLine =
      (input.readLine.1, { input.readLine.2 with pending := rest, fails }) := by
  simp only [readLine, Text.splitLine_fst_append hf, hf, Bool.not_true, Bool.and_false]

/-- The input is at its end, or fails there, where an answer is needed. -/
def ConsoleError.IsInputEnd (error : ConsoleError) : Prop :=
  error = .inputBroken ∨ ∃ name, error = .inputClosed name

namespace Session

/-- The session with these bytes left to read, and an input that fails behind them or not. -/
def refilled (pending : List UInt8) (fails : Bool) (session : Session) : Session :=
  session.atConsole
    { session.console with input := { session.console.input with pending, fails } }

/-- The computation fails because the input is at its end. -/
def EndsInput {α : Type} (result : EStateM.Result EvalError Session α) : Prop :=
  ∃ error, failure? result = some (.console error) ∧ error.IsInputEnd

/-- The task reads lines. If these are whole and the input does not come to its end, the task does
the same with any other bytes behind them. -/
structure IgnoresUnread {α : Type} (task : SessionM α) : Prop where
  reads : Moves (fun before after => ∃ bytes, ReadsLines before after bytes) task
  unread : ∀ session bytes, session.ReadsLines (stateAfter (task session)) bytes →
    Text.IsWholeLines bytes → ¬ EndsInput (task session) →
    ∀ rest fails, task (session.refilled (bytes ++ rest) fails) =
      mapState (refilled rest fails) (task session)

/-- What is read between two sessions is told by what is left to read in them. -/
theorem ReadsLines.eq {before after : Session} {bytes other : List UInt8}
    (h : before.ReadsLines after bytes) (ho : before.ReadsLines after other) : bytes = other :=
  List.append_cancel_right (h.pending.symm.trans ho.pending)

/-- If whole lines are read in two parts, both parts have read whole lines. -/
theorem ReadsLines.isWholeLines {first middle last : Session} {bytes more : List UInt8}
    (h : first.ReadsLines middle bytes) (hl : middle.ReadsLines last more)
    (hw : Text.IsWholeLines (bytes ++ more)) :
    Text.IsWholeLines bytes ∧ Text.IsWholeLines more := by
  refine ⟨?_, hw.of_append⟩
  rcases h.stops with hb | hb | hb
  · exact .inl hb
  · exact .inr hb
  · -- Nothing is left for the second part, so the first one has read all that both have read.
    have hmore : more = [] := (List.append_eq_nil_iff.1 (hl.pending.symm.trans hb)).1
    rwa [hmore, List.append_nil] at hw

section

variable {α β : Type}

/-- A task that reads nothing and does the same with any other input left to read. -/
theorem IgnoresUnread.of_still {task : SessionM α}
    (hr : ∀ session, (stateAfter (task session)).console.input = session.console.input)
    (h : ∀ session pending fails, task (session.refilled pending fails) =
      mapState (refilled pending fails) (task session)) : IgnoresUnread task := by
  have hreads (session : Session) : session.ReadsLines (stateAfter (task session)) [] := by
    refine ⟨?_, ?_, .inl rfl⟩ <;> rw [hr session] <;> rfl
  refine ⟨fun session => ⟨[], hreads session⟩, fun session bytes hb _ _ rest fails => ?_⟩
  rw [hb.eq (hreads session)]
  exact h session rest fails

theorem IgnoresUnread.pure (value : α) : IgnoresUnread (pure value : SessionM α) :=
  .of_still (fun _ => rfl) fun _ _ _ => rfl

theorem IgnoresUnread.throw (error : EvalError) : IgnoresUnread (throw error : SessionM α) :=
  .of_still (fun _ => rfl) fun _ _ _ => rfl

theorem IgnoresUnread.bind {task : SessionM α} {next : α → SessionM β} (h : IgnoresUnread task)
    (hn : ∀ value, IgnoresUnread (next value)) : IgnoresUnread (task >>= next) := by
  refine ⟨h.reads.bind isKept_readsLines.trans fun value => (hn value).reads,
    fun session bytes hb hw he rest fails => ?_⟩
  cases ht : task session with
  | ok value middle =>
    rw [bind_of_ok ht] at hb he ⊢
    obtain ⟨front, hfront⟩ := h.reads session
    obtain ⟨behind, hbehind⟩ := (hn value).reads middle
    have hunread := h.unread session front hfront
    rw [ht] at hfront hunread
    obtain rfl : front ++ behind = bytes := (hfront.trans hbehind).eq hb
    obtain ⟨hwf, hwb⟩ := hfront.isWholeLines hbehind hw
    have hfirst := hunread hwf (fun ⟨_, hf, _⟩ => by cases hf) (behind ++ rest) fails
    rw [List.append_assoc, bind_of_ok hfirst]
    exact (hn value).unread middle behind hbehind hwb he rest fails
  | error error after =>
    have hunread := h.unread session bytes
    rw [bind_of_error ht] at hb he ⊢
    rw [ht] at hunread
    exact bind_of_error (hunread hb hw he rest fails)

/-- What is done next may depend on the variables. -/
theorem IgnoresUnread.look {next : Bindings → SessionM α}
    (hn : ∀ bindings, IgnoresUnread (next bindings)) :
    IgnoresUnread (get >>= fun session => next session.bindings) :=
  ⟨fun session => (hn session.bindings).reads session,
    fun session => (hn session.bindings).unread session⟩

/-! ### Single tasks -/

theorem ignoresUnread_write (text : String) : IgnoresUnread (onConsole (Console.write text)) := by
  refine .of_still (fun session => by rw [stateAfter_write]; rfl) fun session pending fails => ?_
  have houtput : (session.refilled pending fails).console.output = session.console.output := rfl
  rw [onConsole, onConsole, Console.write, Console.write, houtput]
  by_cases hc : (session.console.output.write (Text.encode text)).1 = true
  all_goals
    simp only [hc]
    rfl

theorem ignoresUnread_flush : IgnoresUnread (onConsole Console.flush) := by
  refine .of_still (fun session => by rw [stateAfter_flush]) fun session pending fails => ?_
  obtain ⟨bindings, notMode, input, ⟨written, room, flushFails⟩⟩ := session
  cases flushFails <;> rfl

theorem ignoresUnread_store (name : String) (value : Bool) : IgnoresUnread (store name value) :=
  .of_still (fun _ => rfl) fun _ _ _ => rfl

/-! ### Questions -/

theorem onConsole_ask_eq_reply (name : String) :
    onConsole (Console.ask name) = onConsole (Console.write (Console.prompt name)) >>= fun _ =>
      onConsole Console.flush >>= fun _ => onConsole (Console.reply name) := by
  rw [show Console.ask name = Console.write (Console.prompt name) >>= fun _ =>
    Console.flush >>= fun _ => Console.reply name from rfl, onConsole_bind]
  congr 1
  funext _
  rw [onConsole_bind]

/-- A reply that reads a line with its line feed is the same, whatever comes behind it. -/
theorem reply_refilled {session : Session}
    (hf : Text.isFinished (Text.splitLine session.console.input.pending).1 = true)
    (name : String) (rest : List UInt8) (fails : Bool) :
    onConsole (Console.reply name)
        (session.refilled ((Text.splitLine session.console.input.pending).1 ++ rest) fails) =
      mapState (refilled rest fails) (onConsole (Console.reply name) session) := by
  have hsame := Input.readLine_of_isFinished hf rest fails
  rw [onConsole, onConsole, Console.reply_eq, Console.reply_eq, refilled, console_atConsole, hsame]
  generalize session.console.input.readLine.1 = line
  obtain _ | _ | _ := line <;> rfl

/-- Where nothing is left, a reply comes to the end of the input. -/
theorem endsInput_reply {session : Session} (hp : session.console.input.pending = [])
    (name : String) : EndsInput (onConsole (Console.reply name) session) := by
  rw [onConsole, Console.reply_eq]
  cases hf : session.console.input.fails with
  | true =>
    have hl : session.console.input.readLine.1 = .error .inputBroken :=
      Input.readLine_of_fails hf (by rw [hp]; rfl)
    rw [hl]
    exact ⟨_, rfl, .inl rfl⟩
  | false =>
    rw [Input.readLine_of_pending_eq_nil hf hp]
    exact ⟨_, rfl, .inr ⟨name, rfl⟩⟩

theorem ignoresUnread_reply (name : String) : IgnoresUnread (onConsole (Console.reply name)) := by
  have hreads (session : Session) : session.ReadsLines
      (stateAfter (onConsole (Console.reply name) session))
      (Text.splitLine session.console.input.pending).1 := by
    rw [stateAfter_reply, ← stateAfter_readLine]
    exact session.readsLines_readLine
  refine ⟨fun session => ⟨_, hreads session⟩, fun session bytes hb hw he rest fails => ?_⟩
  obtain rfl := (hreads session).eq hb
  -- The line is there, since the input is not at its end.
  have hf : Text.isFinished (Text.splitLine session.console.input.pending).1 = true := by
    refine hw.resolve_left fun hn => he (endsInput_reply ?_ name)
    exact Text.splitLine_fst_eq_nil_iff.1 hn
  exact reply_refilled hf name rest fails

theorem ignoresUnread_ask (name : String) : IgnoresUnread (onConsole (Console.ask name)) := by
  rw [onConsole_ask_eq_reply]
  exact (ignoresUnread_write _).bind fun _ => ignoresUnread_flush.bind fun _ =>
    ignoresUnread_reply name

theorem ignoresUnread_fetch (name : String) : IgnoresUnread (fetch name) := by
  have hanswer : ∀ bindings : Bindings, IgnoresUnread ((bindings.get? name).elim
      (do
        let value ← onConsole (Console.ask name)
        store name value
        return value) Pure.pure) := by
    intro bindings
    cases bindings.get? name with
    | some value => exact .pure value
    | none =>
      exact (ignoresUnread_ask name).bind fun value => (ignoresUnread_store name value).bind
        fun _ => .pure value
  rw [fetch_eq_elim]
  exact .look hanswer

/-! ### Runs -/

/-- A run does the same with any other bytes behind those that it reads. -/
theorem ignoresUnread_run (action : Action α) : IgnoresUnread (run action) := by
  induction action with
  | finish value => exact .pure value
  | fault defect => exact .throw _
  | fetch name next ih => exact (ignoresUnread_fetch name).bind ih
  | store name value next ih => exact (ignoresUnread_store name value).bind fun _ => ih
  | print value next ih => exact (ignoresUnread_write _).bind fun _ => ih

end

/-! ## Evaluations -/

/-- What an evaluation has left unread makes no difference to it. Let it read `read`, which are whole
lines, and leave `rest`, and let it not fail because the input is at its end. With any other bytes
behind `read`, and an input that fails behind them or not, it ends in the same way: with the same
value or the same error, the same bytes written, the same variables, and `read` consumed. Each line
that it reads is one of the lines of `read` and the answer to one question, and the steps behind it
find all of the other bytes. -/
theorem evalAll_of_unread {trees : List Expr} {session : Session} {read rest : List UInt8}
    (hp : session.console.input.pending = read ++ rest)
    (ha : (stateAfter (evalAll trees session)).console.input.pending = rest)
    (hw : Text.IsWholeLines read) (he : ¬ EndsInput (evalAll trees session)) :
    (stateAfter (evalAll trees session)).console.input.consumed =
        session.console.input.consumed + read.length ∧
      (∀ rest' fails, evalAll trees (session.refilled (read ++ rest') fails) =
        mapState (refilled rest' fails) (evalAll trees session)) ∧
      (∃ deeds, Does (evalAll trees) session deeds (evalAll trees session) ∧
        IsOrderly session.bindings [] deeds (failure? (evalAll trees session)) ∧
        deeds.filterMap Deed.line? = Text.lines read) ∧
      ∀ rest' fails later,
        (session.refilled (read ++ rest') fails).steps (.evalAll trees :: later) =
          (session.step (.evalAll trees)).1 ::
            ((session.step (.evalAll trees)).2.refilled rest' fails).steps later := by
  have hrun := ignoresUnread_run (Expr.evalAll session.notMode trees)
  have hreads : session.ReadsLines (stateAfter (evalAll trees session)) read := by
    obtain ⟨bytes, hb⟩ := hrun.reads session
    rw [← evalAll_eq] at hb
    have hsame := hb.pending
    rw [hp, ha] at hsame
    rwa [List.append_cancel_right hsame]
  have hunread : ∀ rest' fails, evalAll trees (session.refilled (read ++ rest') fails) =
      mapState (refilled rest' fails) (evalAll trees session) := by
    intro rest' fails
    rw [evalAll_eq] at hreads he ⊢
    rw [evalAll_eq trees session]
    exact hrun.unread session read hreads hw he rest' fails
  refine ⟨hreads.consumed, hunread, ?_, ?_⟩
  · obtain ⟨deeds, hd, hm, ho⟩ := session.exists_doesStep (.evalAll trees)
    obtain ⟨hs, hf⟩ :=
      session.perform_of_trees (show (Step.evalAll trees).trees? = some trees from rfl)
    refine ⟨deeds, hd, hf ▸ ho, ?_⟩
    have hlines := hm.lines
    rw [hs, ha] at hlines
    have hlines : Text.lines (read ++ rest) = _ := hp ▸ hlines
    rw [Text.lines_append hw] at hlines
    exact (List.append_cancel_right hlines).symm
  · intro rest' fails later
    have hstep : (session.refilled (read ++ rest') fails).step (.evalAll trees) =
        ((session.step (.evalAll trees)).1,
          (session.step (.evalAll trees)).2.refilled rest' fails) := by
      rw [step, step, perform, perform, hunread]
      cases evalAll trees session <;> rfl
    rw [steps, hstep]

/-- The second answer is a line that is no text, which ends the evaluation. An unfinished line is
left behind it; in its place the input may have another line, or nothing at all, and fail there. -/
theorem evalAll_of_unread_behind_broken_text :
    let trees : List Expr :=
      [.binary .assign (.var "x" 0) (.logical .and (.var "y" 4) (.var "z" 10) 6) 2]
    let read : List UInt8 := Text.encode "True\r\n" ++ [255, 10]
    let session : Session :=
      ⟨.empty, .operatorText, ⟨⟨read ++ Text.encode "left", 0, false⟩, {}⟩⟩
    ∃ after, evalAll trees session = .error (.console .notText) after ∧
      after.console.input.consumed = 8 ∧
      evalAll trees (session.refilled (read ++ Text.encode "false\n") true) =
        .error (.console .notText) (after.refilled (Text.encode "false\n") true) ∧
      evalAll trees (session.refilled (read ++ []) true) =
        .error (.console .notText) (after.refilled [] true) := by
  intro trees read session
  obtain ⟨after, hr, ha⟩ : ∃ after, evalAll trees session = .error (.console .notText) after ∧
      after.console.input.pending = Text.encode "left" := by
    subst trees session read
    exact ⟨_, rfl, rfl⟩
  have he : ¬ EndsInput (evalAll trees session) := by
    rintro ⟨error, hf, hend⟩
    rw [hr] at hf
    cases hf
    rcases hend with h | ⟨name, h⟩
    · revert h
      decide
    · cases h
  obtain ⟨hc, hunread, -, -⟩ :=
    evalAll_of_unread rfl (show (stateAfter (evalAll trees session)).console.input.pending = _ from
      hr ▸ ha) (.inr (by decide)) he
  rw [hr] at hc hunread
  exact ⟨after, hr, hc, hunread _ true, hunread [] true⟩

end Session

end BoolScript
