import BoolScript.Proofs.FormulaRun
import BoolScript.Proofs.UnreadInput
import BoolScript.Proofs.UpFront

/-!
# A failed evaluation of a formula can be resumed

The evaluation of a formula that breaks off, whatever device it fails at, has kept the answers to
the questions that went well: these are the first ones of all that it would ask. Evaluated again in
the session that it left behind, the formula asks for the other names only, and it ends as if the
first evaluation had not been interrupted and had been given the same answers once more
(`Session.eval_resumed`).

## Shape of the proof

The resumed evaluation runs beside an uninterrupted one that finds the answers of the first one as
lines in front of its input. `Session.Resumes` relates the two: what the first session knows, the
other one knows or is about to be told by its next lines. Whenever a name is read, either both know
it, or the uninterrupted one takes a line for it, or both take the same line (`Resumes.fetch`).
-/

namespace BoolScript

/-! ## Prompts that go well -/

namespace Console

/-- The lines that give these answers. -/
def answerBytes (answered : List (String × Bool)) : List UInt8 :=
  answered.flatMap fun entry => Text.encode (valueLine entry.2)

/-- The console behind the prompt for a name. -/
def prompted (name : String) (console : Console) : Console :=
  { console with output := (console.output.write (Text.encode (prompt name))).2 }

theorem promptBytes_cons (name : String) (names : List String) :
    promptBytes (name :: names) = Text.encode (prompt name) ++ promptBytes names := rfl

section

variable {name : String} {names : List String} {console : Console}

theorem write_prompt_fst (h : console.output.HasRoom (promptBytes (name :: names)).length) :
    (console.output.write (Text.encode (prompt name))).1 = true := by
  refine h.write_fst ?_
  rw [promptBytes_cons, List.length_append]
  omega

/-- Where there is room for the prompt, a question is settled by the reply to it. -/
theorem ask_eq_reply (h : console.output.HasRoom (promptBytes (name :: names)).length) :
    ask name console = reply name (prompted name console) := by
  have hw : write (prompt name) console = .ok () (prompted name console) :=
    write_of_complete (write_prompt_fst h)
  have hf : flush (prompted name console) = .ok () (prompted name console) :=
    flush_eq_ok_iff.2 ⟨(Output.flushFails_write _ _).trans h.flush, rfl⟩
  rw [ask, bind_of_ok hw, bind_of_ok hf]
  rfl

theorem hasRoom_prompted (h : console.output.HasRoom (promptBytes (name :: names)).length) :
    (prompted name console).output.HasRoom (promptBytes names).length := by
  have hroom := h.write_snd (Text.encode (prompt name))
  rwa [promptBytes_cons, List.length_append, Nat.add_sub_cancel_left] at hroom

theorem written_prompted (h : console.output.HasRoom (promptBytes (name :: names)).length) :
    (prompted name console).output.written.toList =
      console.output.written.toList ++ Text.encode (prompt name) :=
  Output.written_of_complete (write_prompt_fst h)

/-- A reply writes nothing. -/
theorem output_reply (name : String) (console : Console) :
    (stateAfter (reply name console)).output = console.output := by
  rw [reply_eq]
  split <;> rfl

/-- Whatever comes of it, a question that there is room for writes its prompt. -/
theorem output_ask (h : console.output.HasRoom (promptBytes (name :: names)).length) :
    (stateAfter (ask name console)).output = (prompted name console).output := by
  rw [ask_eq_reply h, output_reply]

end

theorem answer_valueLine (value : Bool) : answer (valueLine value) = value := by
  cases value <;> decide

/-- A stored answer is a line that gives this answer again. -/
theorem reply_of_answer {console : Console} {value : Bool} {rest : List UInt8} (name : String)
    (h : console.input.pending = Text.encode (valueLine value) ++ rest) :
    ∃ after, reply name console = .ok value after ∧ after.output = console.output ∧
      after.input.pending = rest ∧ after.input.fails = console.input.fails := by
  have hself : (Text.splitLine (Text.encode (valueLine value))).1 =
      Text.encode (valueLine value) := by
    cases value <;> decide
  have hfinished : Text.isFinished (Text.encode (valueLine value)) = true := by
    cases value <;> decide
  have hline : Text.isFinished (Text.splitLine (Text.encode (valueLine value))).1 = true :=
    hself.symm ▸ hfinished
  have hsplit : Text.splitLine console.input.pending = (Text.encode (valueLine value), rest) := by
    have hcut := Text.splitLine_fst_append hline rest
    rwa [hself, ← h] at hcut
  have hl : console.input.readLine.1 = .ok (some (valueLine value)) := by
    refine Input.readLine_of_encode ?_ (congrArg Prod.fst hsplit) (.inl hfinished)
    cases value <;> decide
  refine ⟨{ console with input := console.input.readLine.2 }, ?_, rfl, ?_, rfl⟩
  · rw [reply_eq, hl]
    exact congrArg (EStateM.Result.ok · _) (answer_valueLine value)
  · exact congrArg Prod.snd hsplit

/-- The second console has the same bytes to read. -/
structure SameInput (console other : Console) : Prop where
  pending : other.input.pending = console.input.pending
  fails : other.input.fails = console.input.fails

theorem SameInput.reply {console other : Console} (h : console.SameInput other) (name : String) :
    SameEnd SameInput (reply name console) (reply name other) := by
  have hline : other.input.readLine.1 = console.input.readLine.1 := by
    simp only [Input.readLine, h.pending, h.fails]
  have hafter : SameInput { console with input := console.input.readLine.2 }
      { other with input := other.input.readLine.2 } := by
    refine ⟨?_, h.fails⟩
    simp only [Input.readLine, h.pending]
  rw [reply_eq, reply_eq, hline]
  split
  · exact .ok hafter
  · exact .error hafter
  · exact .error hafter

end Console

/-! ## Questions that are left -/

/-- If the first of the names that are asked for become known, the others are still asked for. -/
theorem prompts_eq_append {known later : String → Bool} {requests : List Request}
    {asked : List String} (h : asked <+: prompts known requests)
    (hl : ∀ name, later name = (known name || asked.contains name)) :
    prompts known requests = asked ++ prompts later requests := by
  induction requests generalizing known later asked with
  | nil => rw [List.prefix_nil.1 h]; rfl
  | cons request rest ih =>
    cases request with
    | read name =>
      cases hk : known name with
      | true =>
        have hlater : later name = true := by rw [hl, hk, Bool.true_or]
        rw [prompts_read_of_known hk] at h ⊢
        rw [prompts_read_of_known hlater]
        exact ih h hl
      | false =>
        rw [prompts_read_of_unknown hk] at h ⊢
        cases asked with
        | nil =>
          have hsame : later = known := by
            funext other
            rw [hl, List.contains_nil, Bool.or_false]
          rw [hsame, prompts_read_of_unknown hk]
          rfl
        | cons other others =>
          obtain ⟨rfl, h⟩ := List.cons_prefix_cons.1 h
          have hlater : later other = true := by
            rw [hl, List.contains_cons, beq_self_eq_true, Bool.true_or, Bool.or_true]
          rw [prompts_read_of_known hlater, List.cons_append]
          refine congrArg _ (ih h fun name => ?_)
          rw [hl, learn, List.contains_cons, Bool.or_left_comm, Bool.or_assoc]
    | write name =>
      have hlearned : ∀ other, learn later name other =
          (learn known name other || asked.contains other) := by
        intro other
        rw [learn, learn, hl, Bool.or_assoc]
      exact ih h hlearned
    | print => exact ih h hl
    | fail defect => rw [List.prefix_nil.1 h]; rfl

namespace Session

/-! ## Reading names -/

/-- The output has room for the prompts for those of the names that have no value. -/
def HasRoomFor (names : List String) (session : Session) : Prop :=
  session.console.output.HasRoom
    (Console.promptBytes (prompts session.knows (names.map .read))).length

variable {α : Type} {name : String} {names : List String} {session : Session}

theorem HasRoomFor.of_bound {value : Bool} (h : session.HasRoomFor (name :: names))
    (hb : session.bindings.get? name = some value) : session.HasRoomFor names := by
  rwa [HasRoomFor, List.map_cons, prompts_read_of_known (knows_of_some hb)] at h

theorem HasRoomFor.of_unbound (h : session.HasRoomFor (name :: names))
    (hb : session.bindings.get? name = none) : session.console.output.HasRoom
      (Console.promptBytes (name :: prompts (learn session.knows name) (names.map .read))).length := by
  rwa [HasRoomFor, List.map_cons, prompts_read_of_unknown (knows_of_none hb)] at h

/-- Behind an answer there is room for the prompts that are left. -/
theorem HasRoomFor.answered (h : session.HasRoomFor (name :: names))
    (hb : session.bindings.get? name = none) {console : Console}
    (hc : console.output = (Console.prompted name session.console).output) (value : Bool) :
    ((session.atConsole console).bind name value).HasRoomFor names := by
  have hroom := Console.hasRoom_prompted (h.of_unbound hb)
  rw [HasRoomFor, knows_bind, console_bind, console_atConsole, hc]
  exact hroom

/-- A run that only reads names, with room for its prompts, writes prompts for the first of those
that have no value. -/
theorem exists_asked {action : Action α} (hf : Action.Follows (names.map .read) action)
    (h : session.HasRoomFor names) :
    ∃ asked, asked <+: prompts session.knows (names.map .read) ∧
      (stateAfter (run action session)).console.output.written.toList =
        session.console.output.written.toList ++ Console.promptBytes asked := by
  induction names generalizing action session with
  | nil =>
    cases hf
    exact ⟨[], List.nil_prefix, (List.append_nil _).symm⟩
  | cons name names ih =>
    cases hf with
    | fetch hf =>
      rw [run, List.map_cons]
      cases hb : session.bindings.get? name with
      | some value =>
        rw [bind_of_ok (fetch_of_bound hb), prompts_read_of_known (knows_of_some hb)]
        exact ih (hf value) (h.of_bound hb)
      | none =>
        have hroom := h.of_unbound hb
        have houtput := Console.output_ask hroom
        have hwritten := Console.written_prompted hroom
        rw [prompts_read_of_unknown (knows_of_none hb)]
        cases ha : Console.ask name session.console with
        | ok value console =>
          have hafter : console.output = (Console.prompted name session.console).output := by
            rwa [ha] at houtput
          obtain ⟨asked, hasked, hrest⟩ := ih (hf value) (h.answered hb hafter value)
          rw [knows_bind] at hasked
          refine ⟨name :: asked, List.cons_prefix_cons.2 ⟨rfl, hasked⟩, ?_⟩
          rw [bind_of_ok (fetch_of_answer hb ha), hrest, console_bind, console_atConsole, hafter,
            hwritten, List.append_assoc, Console.promptBytes_cons]
        | error error console =>
          have hafter : console.output = (Console.prompted name session.console).output := by
            rwa [ha] at houtput
          refine ⟨[name], List.cons_prefix_cons.2 ⟨rfl, List.nil_prefix⟩, ?_⟩
          rw [bind_of_error (fetch_of_failure hb ha), Console.promptBytes_singleton, ← hwritten]
          exact congrArg (·.written.toList) hafter

/-! ## Two runs side by side -/

/-- The second session has the same values of all names and the same bytes to read. -/
structure EndsAlike (session other : Session) : Prop where
  bindings : ∀ name, other.bindings.get? name = session.bindings.get? name
  input : session.console.SameInput other.console

/-- Names are going to be read in two sessions with room for the prompts. The second one knows the
answers to the first questions, which the first one finds in front of its input. -/
structure Resumes (names : List String) (answered : List (String × Bool))
    (whole resumed : Session) : Prop where
  bindings : ∀ name,
    resumed.bindings.get? name = (whole.bindings.get? name).or (answered.lookup name)
  next : answered.map Prod.fst <+: prompts whole.knows (names.map .read)
  pending : whole.console.input.pending =
    Console.answerBytes answered ++ resumed.console.input.pending
  fails : whole.console.input.fails = resumed.console.input.fails
  room : whole.HasRoomFor names
  roomResumed : resumed.HasRoomFor names

variable {answered : List (String × Bool)} {whole resumed : Session}

/-- When all names are read, all answers have been taken. -/
theorem Resumes.endsAlike (h : Resumes [] answered whole resumed) : resumed.EndsAlike whole := by
  have hnone : answered = [] := List.map_eq_nil_iff.1 (List.prefix_nil.1 h.next)
  subst hnone
  refine ⟨fun name => ?_, h.pending, h.fails⟩
  rw [h.bindings, List.lookup_nil, Option.or_none]

/-- What becomes of a name that is read in both sessions: the same value, after which the other names
may be read, or the same error. -/
inductive FetchesAlike (name : String) (names : List String) (whole resumed : Session) : Prop where
  | ok {value : Bool} {after after' : Session} {left : List (String × Bool)}
    (h : fetch name whole = .ok value after) (h' : fetch name resumed = .ok value after')
    (hr : Resumes names left after after')
  | error {error : EvalError} {after after' : Session} (h : fetch name whole = .error error after)
    (h' : fetch name resumed = .error error after') (he : after'.EndsAlike after)

theorem Resumes.fetch (h : Resumes (name :: names) answered whole resumed) :
    FetchesAlike name names whole resumed := by
  have hnext := h.next
  rw [List.map_cons] at hnext
  cases hb : whole.bindings.get? name with
  | some value =>
    have hb' : resumed.bindings.get? name = some value := by rw [h.bindings, hb, Option.some_or]
    rw [prompts_read_of_known (knows_of_some hb)] at hnext
    exact .ok (fetch_of_bound hb) (fetch_of_bound hb')
      ⟨h.bindings, hnext, h.pending, h.fails, h.room.of_bound hb, h.roomResumed.of_bound hb'⟩
  | none =>
    rw [prompts_read_of_unknown (knows_of_none hb)] at hnext
    have hask := Console.ask_eq_reply (h.room.of_unbound hb)
    have houtput := Console.output_ask (h.room.of_unbound hb)
    cases answered with
    | nil =>
      -- Neither session knows the name, and both take the same line.
      have hsame (other : String) : resumed.bindings.get? other = whole.bindings.get? other := by
        rw [h.bindings, List.lookup_nil, Option.or_none]
      have hb' : resumed.bindings.get? name = none := (hsame name).trans hb
      have hask' := Console.ask_eq_reply (h.roomResumed.of_unbound hb')
      have houtput' := Console.output_ask (h.roomResumed.of_unbound hb')
      have hinput : (Console.prompted name resumed.console).SameInput
          (Console.prompted name whole.console) := ⟨h.pending, h.fails⟩
      have hreply := hinput.reply name
      rw [← hask, ← hask'] at hreply
      cases ha' : Console.ask name resumed.console with
      | ok value console' =>
        rw [ha'] at hreply houtput'
        obtain ⟨console, ha, hc⟩ := hreply.of_ok
        rw [ha] at houtput
        have hr : Resumes names [] ((whole.atConsole console).bind name value)
            ((resumed.atConsole console').bind name value) := by
          refine ⟨fun other => ?_, List.nil_prefix, hc.pending, hc.fails,
            h.room.answered hb houtput value, h.roomResumed.answered hb' houtput' value⟩
          simp only [bindings_bind, bindings_atConsole, Bindings.get?_insert, hsame,
            List.lookup_nil, Option.or_none]
        exact .ok (fetch_of_answer hb ha) (fetch_of_answer hb' ha') hr
      | error error console' =>
        rw [ha'] at hreply
        obtain ⟨console, ha, hc⟩ := hreply.of_error
        exact .error (fetch_of_failure hb ha) (fetch_of_failure hb' ha')
          ⟨fun other => (hsame other).symm, hc⟩
    | cons entry left =>
      -- The answer that the one session knows is the next line of the other one.
      obtain ⟨key, value⟩ := entry
      obtain ⟨rfl, hleft⟩ := List.cons_prefix_cons.1 hnext
      have hb' : resumed.bindings.get? key = some value := by
        rw [h.bindings, hb, List.lookup_cons_self, Option.none_or]
      have hline : (Console.prompted key whole.console).input.pending =
          Text.encode (Console.valueLine value) ++
            (Console.answerBytes left ++ resumed.console.input.pending) :=
        h.pending.trans (List.append_assoc ..)
      obtain ⟨console, ha, hc, hp, hfails⟩ := Console.reply_of_answer key hline
      rw [← hask] at ha
      have hr : Resumes names left ((whole.atConsole console).bind key value) resumed := by
        refine ⟨fun other => ?_, ?_, hp, hfails.trans h.fails, h.room.answered hb hc value,
          h.roomResumed.of_bound hb'⟩
        · rw [h.bindings, bindings_bind, bindings_atConsole, Bindings.get?_insert,
            List.lookup_cons]
          by_cases he : other = key
          · rw [if_pos he, he, hb, beq_self_eq_true]
            rfl
          · have hne : (other == key) = false := by simpa using he
            rw [if_neg he, hne]
        · rw [knows_bind]
          exact hleft
      exact .ok (fetch_of_answer hb ha) (fetch_of_bound hb') hr

/-- Both runs end in the same way. -/
theorem Resumes.run {action : Action α} (h : Resumes names answered whole resumed)
    (hf : Action.Follows (names.map .read) action) :
    SameEnd EndsAlike (run action resumed) (run action whole) := by
  induction names generalizing action answered whole resumed with
  | nil =>
    cases hf
    exact .ok h.endsAlike
  | cons name names ih =>
    cases hf with
    | fetch hf =>
      rw [Session.run]
      cases h.fetch with
      | ok hv hv' hr =>
        rw [bind_of_ok hv, bind_of_ok hv']
        exact ih hr (hf _)
      | error he he' ha =>
        rw [bind_of_error he, bind_of_error he']
        exact .error ha

/-! ## Formulas -/

theorem isSome_lookup (entries : List (String × Bool)) (name : String) :
    (entries.lookup name).isSome = (entries.map Prod.fst).contains name := by
  induction entries with
  | nil => rfl
  | cons entry entries ih =>
    rw [List.lookup_cons, List.map_cons, List.contains_cons]
    cases name == entry.1 with
    | true => rfl
    | false => rw [Bool.false_or, ih]

/-- The questions of a formula are asked for the names that are not known. -/
theorem prompts_names (known : String → Bool) (tree : Expr) :
    prompts known (tree.names.map .read) = tree.unknownNames known :=
  prompts_map_read known tree.names

/-- A failed evaluation of a formula can be resumed. Whatever it fails at, it has kept all values
that there were, and besides them the answers to the first of the questions that it would ask if
nothing failed. Let it be evaluated again with other bytes to read and an output that does not fail.
This ends like an evaluation from the beginning that has the same answers, as lines of their own, in
front of these bytes: with the same value or error, the same variables and the same bytes left to
read. It writes prompts for the first of the names that were still unknown, and nothing else. -/
theorem eval_resumed {tree : Expr} (hf : tree.IsFormula) (hw : tree.HasTruthWords)
    {session stopped : Session} {error : EvalError}
    (h : eval tree session = .error error stopped) :
    ∃ answered : List (String × Bool),
      tree.unknownNames session.knows =
        answered.map Prod.fst ++ tree.unknownNames stopped.knows ∧
      (∀ name, stopped.bindings.get? name =
        (session.bindings.get? name).or (answered.lookup name)) ∧
      ∀ (input : Input) (consumed : Nat) (output output' : Output),
        output.HasRoom (Console.promptBytes (tree.unknownNames session.knows)).length →
        output'.HasRoom (Console.promptBytes (tree.unknownNames stopped.knows)).length →
        let whole := eval tree (session.atConsole
          ⟨⟨Console.answerBytes answered ++ input.pending, consumed, input.fails⟩, output⟩)
        let resumed := eval tree (stopped.atConsole ⟨input, output'⟩)
        SameEnd EndsAlike resumed whole ∧
          ∃ asked, asked <+: tree.unknownNames stopped.knows ∧
            (stateAfter resumed).console.output.written.toList =
              output'.written.toList ++ Console.promptBytes asked := by
  have hfollows (mode : NotMode) : Action.Follows (tree.names.map .read) (tree.eval mode) := by
    rw [← Expr.requests_eq_map_read mode hf hw]
    exact Expr.follows_eval mode tree
  have hrun := runs (tree.eval session.notMode) session
  rw [← eval_eq, h] at hrun
  let answered := Event.questions (events (tree.eval session.notMode) session)
  have hbindings : ∀ name, stopped.bindings.get? name =
      (session.bindings.get? name).or (answered.lookup name) := by
    intro name
    have hkept := hrun.bindings_eq_insertAll (hfollows _) (write_notMem_map_read tree.names)
    rw [← Bindings.get?_insertAll hrun.nodup_questions fun name => hrun.unbound_of_question]
    exact congrArg (·.get? name) hkept
  have hprefix : answered.map Prod.fst <+: prompts session.knows (tree.names.map .read) := by
    cases error with
    | fault defect => exact absurd (hrun.fail_mem (hfollows _) rfl) (by simp)
    | console error =>
      cases hrun.failsAt (hfollows _) rfl with
      | question _ _ hnext => exact (List.prefix_append _ _).trans hnext
      | value _ _ _ hp => simp at hp
  have hknows : ∀ name, stopped.knows name =
      (session.knows name || (answered.map Prod.fst).contains name) := by
    intro name
    rw [knows, knows, hbindings, Option.isSome_or, isSome_lookup]
  have hmode : stopped.notMode = session.notMode := hrun.notMode
  refine ⟨answered, ?_, hbindings, fun input consumed output output' ho ho' => ?_⟩
  · rw [← prompts_names, ← prompts_names]
    exact prompts_eq_append hprefix hknows
  · let again : Session := session.atConsole
      ⟨⟨Console.answerBytes answered ++ input.pending, consumed, input.fails⟩, output⟩
    let rest : Session := stopped.atConsole ⟨input, output'⟩
    have hroom : again.HasRoomFor tree.names := by
      rw [HasRoomFor, prompts_names]
      exact ho
    have hroom' : rest.HasRoomFor tree.names := by
      rw [HasRoomFor, prompts_names]
      exact ho'
    have hr : Resumes tree.names answered again rest :=
      ⟨hbindings, hprefix, rfl, rfl, hroom, hroom'⟩
    intro whole resumed
    have hwhole : whole = run (tree.eval session.notMode) again := eval_eq tree again
    have hresumed : resumed = run (tree.eval session.notMode) rest := by
      rw [← hmode]
      exact eval_eq tree rest
    rw [hwhole, hresumed, ← prompts_names]
    exact ⟨hr.run (hfollows _), exists_asked (hfollows _) hroom'⟩

/-- The answers for `a` and `b` are kept, and the line for `d` is no text. The second time, only `d`
is asked for, of an input that fails behind its line. -/
theorem eval_resumed_behind_broken_text :
    let tree : Expr := .logical .xor (.logical .and (.var "a" 0) (.var "b" 6) 2)
      (.logical .or (.var "c" 14) (.logical .and (.var "a" 20) (.var "d" 26) 22) 17) 10
    let session : Session := ⟨.insert .empty "c" false, .operatorText,
      ⟨⟨Text.encode "true\r\nno\n" ++ [255, 10], 0, false⟩, {}⟩⟩
    ∃ stopped answered, eval tree session = .error (.console .notText) stopped ∧
      answered.map Prod.fst = ["a", "b"] ∧
      SameEnd EndsAlike (eval tree (stopped.atConsole ⟨⟨Text.encode "True\n", 0, true⟩, {}⟩))
        (eval tree (session.atConsole
          ⟨⟨Console.answerBytes answered ++ Text.encode "True\n", 0, true⟩, {}⟩)) := by
  intro tree session
  obtain ⟨stopped, hr, hleft⟩ : ∃ stopped, eval tree session = .error (.console .notText) stopped ∧
      tree.unknownNames stopped.knows = ["d"] := by
    subst tree session
    exact ⟨_, rfl, by decide⟩
  have hf : tree.IsFormula := ⟨⟨trivial, trivial⟩, trivial, trivial, trivial⟩
  have hw : tree.HasTruthWords := ⟨⟨trivial, trivial⟩, trivial, trivial, trivial⟩
  obtain ⟨answered, hnames, -, hresumed⟩ := eval_resumed hf hw hr
  have hfirst : tree.unknownNames session.knows = ["a", "b"] ++ ["d"] := by decide
  rw [hleft, hfirst] at hnames
  exact ⟨stopped, answered, hr, (List.append_cancel_right hnames).symm,
    (hresumed ⟨Text.encode "True\n", 0, true⟩ 0 {} {} (.of_room_eq_none rfl rfl _)
      (.of_room_eq_none rfl rfl _)).1⟩

end Session

end BoolScript
