import BoolScript.Proofs.Noninterference
import BoolScript.Proofs.SessionHistory

/-!
# Independent evaluations commute

Two trees are independent if neither prints and neither assigns a name that occurs in the other. In a
session that knows all of their names they may be evaluated in either order: each comes to the same
value or the same error, the variables are the same in the end, and the console is not touched
(`Session.perform_comm`). The trees may be malformed, and one that fails in the middle has made some
of its assignments, in both orders the same ones.

## Shape of the proof

An evaluation that has nothing to ask or to print changes the names that it assigns and nothing else
(`Session.isVariant_eval`). So behind the evaluation of the one tree the session looks the same to
the other one, which ends there as it does at once. A name that is assigned has then the value that
its own tree gives it, whichever comes first.
-/

namespace BoolScript

namespace Expr

/-- Nothing is printed anywhere in the tree. -/
def HasNoPrint : Expr → Prop
  | literal _ _ | var _ _ => True
  | binary _ left right _ => left.HasNoPrint ∧ right.HasNoPrint
  | unary .print _ _ _ => False
  | unary .not _ operand _ => operand.HasNoPrint

/-- The names that are assigned a value anywhere in the tree. -/
def assigned : Expr → List String
  | literal _ _ | var _ _ => []
  | binary (.logical _) left right _ => left.assigned ++ right.assigned
  | binary .assign target value _ => target.target?.toList ++ target.assigned ++ value.assigned
  | unary _ _ operand _ => operand.assigned

/-- Neither of the trees prints, and neither assigns a name that occurs in the other. -/
structure AreIndependent (tree other : Expr) : Prop where
  quiet : tree.HasNoPrint
  quietOther : other.HasNoPrint
  apart : ∀ name ∈ tree.assigned, name ∉ other.names
  apartOther : ∀ name ∈ other.assigned, name ∉ tree.names

variable {tree other : Expr} {name : String} {mode : NotMode}

theorem AreIndependent.symm (h : tree.AreIndependent other) : other.AreIndependent tree :=
  ⟨h.quietOther, h.quiet, h.apartOther, h.apart⟩

/-- A name that is assigned occurs in the tree. -/
theorem mem_names_of_mem_assigned (h : name ∈ tree.assigned) : name ∈ tree.names := by
  induction tree with
  | literal | var => cases h
  | binary op left right position ihl ihr =>
    cases op with
    | logical connective => exact List.mem_append.2 ((List.mem_append.1 h).imp ihl ihr)
    | assign =>
      rcases List.mem_append.1 h with h | h
      · refine List.mem_append_left _ ((List.mem_append.1 h).elim (fun ht => ?_) ihl)
        obtain ⟨start, rfl⟩ := target?_eq_some_iff.1 (Option.mem_toList.1 ht)
        exact List.mem_singleton_self name
      · exact List.mem_append_right _ (ihr h)
  | unary op text operand position ih => exact ih h

theorem AreIndependent.notMem_assigned (h : tree.AreIndependent other)
    (hn : name ∈ tree.assigned) : name ∉ other.assigned :=
  fun ho => h.apart name hn (mem_names_of_mem_assigned ho)

theorem HasNoPrint.print_notMem_requests (h : tree.HasNoPrint) : .print ∉ tree.requests mode := by
  induction tree with
  | literal text position =>
    rw [requests]
    cases literalValue text position <;> simp
  | var other position => simp [requests]
  | binary op left right position ihl ihr =>
    cases op with
    | logical connective => simp [requests, ihl h.1, ihr h.2]
    | assign =>
      rw [requests]
      cases left.target? <;> simp [ihr h.2]
  | unary op text operand position ih =>
    cases op with
    | print => exact h.elim
    | not => cases mode <;> simp [requests, ih h]

/-- Only names that are assigned in the tree are written. -/
theorem mem_assigned_of_write_mem_requests (h : .write name ∈ tree.requests mode) :
    name ∈ tree.assigned := by
  induction tree with
  | literal text position =>
    rw [requests] at h
    cases hv : literalValue text position <;> simp [hv] at h
  | var other position => simp [requests] at h
  | binary op left right position ihl ihr =>
    cases op with
    | logical connective =>
      rw [requests, List.mem_append] at h
      exact List.mem_append.2 (h.imp ihl ihr)
    | assign =>
      rw [requests] at h
      cases ht : left.target? with
      | none => simp [ht] at h
      | some target =>
        simp only [ht, List.mem_append, List.mem_singleton, Request.write.injEq] at h
        rw [assigned, ht]
        rcases h with h | rfl
        · exact List.mem_append_right _ (ihr h)
        · exact List.mem_append_left _ List.mem_cons_self
  | unary op text operand position ih =>
    cases op with
    | print => exact ih (by simpa [requests] using h)
    | not =>
      cases mode with
      | operatorText => simp [requests] at h
      | operand => exact ih h

end Expr

namespace Session

/-! ## Evaluations that keep to themselves -/

section

variable {names : List String} {session : Session}

theorem IsVariant.refl (names : List String) (session : Session) : session.IsVariant names session :=
  ⟨rfl, rfl, fun _ _ => rfl⟩

theorem IsVariant.trans {middle last : Session} (h : session.IsVariant names middle)
    (hl : middle.IsVariant names last) : session.IsVariant names last :=
  ⟨hl.console.trans h.console, hl.notMode.trans h.notMode,
    fun name hn => (hl.bindings name hn).trans (h.bindings name hn)⟩

/-- A session that differs in other variables knows the same of these. -/
theorem IsVariant.knows {other : Session} (h : session.IsVariant names other) {name : String}
    (hn : name ∈ names) : other.knows name = session.knows name := by
  rw [Session.knows, Session.knows, h.bindings name hn]

theorem isVariant_bind {name : String} (hn : name ∉ names) (value : Bool) :
    session.IsVariant names (session.bind name value) :=
  ⟨rfl, rfl, fun _ ho => get?_bind_of_ne fun he => hn (he ▸ ho)⟩

/-- A run that has nothing to ask or to print leaves everything as it is but the names that it
writes, whether it fails or not. -/
theorem Runs.isVariant {α : Type} {action : Action α} {events : List Event}
    {result : EStateM.Result EvalError Session α} {requests : List Request}
    (h : Runs action session events result) (hf : Action.Follows requests action)
    (hk : ∀ name, .read name ∈ requests → session.knows name = true) (hp : .print ∉ requests)
    (hn : ∀ name ∈ names, .write name ∉ requests) :
    session.IsVariant names (stateAfter result) := by
  induction h generalizing requests with
  | finish | fault => exact .refl names _
  | known _ _ ih =>
    cases hf with
    | fetch hf =>
      exact ih (hf _) (fun name hm => hk name (List.mem_cons_of_mem _ hm))
        (fun hm => hp (List.mem_cons_of_mem _ hm))
        fun name ho hm => hn name ho (List.mem_cons_of_mem _ hm)
  | asked hb _ _ _ | askFailed hb _ =>
    -- The name has a value.
    cases hf
    have hknown := hk _ List.mem_cons_self
    rw [knows_of_none hb] at hknown
    cases hknown
  | @stored name value _ session _ _ _ ih =>
    cases hf with
    | store hf =>
      have hname : name ∉ names := fun ho => hn name ho List.mem_cons_self
      refine (isVariant_bind hname value).trans (ih hf (fun other hm => ?_) ?_ ?_)
      · rw [knows_bind, learn, hk other (List.mem_cons_of_mem _ hm), Bool.or_true]
      · exact fun hm => hp (List.mem_cons_of_mem _ hm)
      · exact fun other ho hm => hn other ho (List.mem_cons_of_mem _ hm)
  | shown | showFailed =>
    cases hf
    exact absurd List.mem_cons_self hp

/-- The evaluation of a tree that prints nothing, and whose names are known, changes the names that
are assigned in it and nothing else. -/
theorem isVariant_eval {tree : Expr} (hp : tree.HasNoPrint)
    (hk : ∀ name ∈ tree.names, session.knows name = true)
    (hn : ∀ name ∈ names, name ∉ tree.assigned) :
    session.IsVariant names (session.perform (.eval tree)).2 := by
  rw [(session.perform_of_trees rfl).1]
  refine (runs_evalAll [tree] session).isVariant (Expr.follows_evalAll _ [tree]) ?_ ?_ ?_
  all_goals rw [Expr.requestsAll, List.flatMap_singleton]
  · exact fun name hm => hk name (Expr.mem_names_of_mem_requests hm rfl)
  · exact hp.print_notMem_requests
  · exact fun name ho hm => hn name ho (Expr.mem_assigned_of_write_mem_requests hm)

end

/-- A tree has the same outcome in sessions that differ in variables alone that do not occur in it,
and gives the others the same values. -/
theorem IsVariant.perform {tree : Expr} {session other : Session}
    (h : session.IsVariant tree.names other) :
    (other.perform (.eval tree)).1 = (session.perform (.eval tree)).1 ∧
      (session.perform (.eval tree)).2.IsVariant tree.names (other.perform (.eval tree)).2 := by
  have hvariant : session.IsVariant ([tree].flatMap Expr.names) other := by
    rwa [List.flatMap_singleton]
  have hends := hvariant.evalAll
  rw [List.flatMap_singleton] at hends
  exact perform_eval_of_sameEnd hends

/-! ## Both orders -/

section

variable {tree other : Expr} {session : Session}

/-- To the one tree, the session is the same behind the evaluation of the other one. -/
theorem isVariant_of_areIndependent (h : tree.AreIndependent other)
    (hk : ∀ name ∈ other.names, session.knows name = true) :
    session.IsVariant tree.names (session.perform (.eval other)).2 :=
  isVariant_eval h.quietOther hk fun name hn ho => h.apartOther name ho hn

/-- A name that the second tree does not assign has the value that the first one leaves it. -/
theorem get?_after_of_notMem_assigned (h : tree.AreIndependent other)
    (hk : ∀ name ∈ tree.names ++ other.names, session.knows name = true) {name : String}
    (hn : name ∉ other.assigned) :
    (session.after [.eval tree, .eval other]).bindings.get? name =
      (session.perform (.eval tree)).2.bindings.get? name := by
  have hlooks : session.IsVariant other.names (session.perform (.eval tree)).2 :=
    isVariant_of_areIndependent h.symm fun name hm => hk name (List.mem_append_left _ hm)
  have hsecond : (session.perform (.eval tree)).2.IsVariant [name]
      (session.after [.eval tree, .eval other]) := by
    refine isVariant_eval h.quietOther (fun name hm => ?_) (by simpa using hn)
    rw [hlooks.knows hm]
    exact hk name (List.mem_append_right _ hm)
  exact hsecond.bindings name List.mem_cons_self

/-- A name that is assigned in the one tree has the same value in the end, whichever tree comes
first. -/
theorem get?_after_comm_of_mem_assigned (h : tree.AreIndependent other)
    (hk : ∀ name ∈ tree.names ++ other.names, session.knows name = true) {name : String}
    (hn : name ∈ tree.assigned) :
    (session.after [.eval tree, .eval other]).bindings.get? name =
      (session.after [.eval other, .eval tree]).bindings.get? name := by
  have hlooks : session.IsVariant tree.names (session.perform (.eval other)).2 :=
    isVariant_of_areIndependent h fun name hm => hk name (List.mem_append_right _ hm)
  rw [get?_after_of_notMem_assigned h hk (h.notMem_assigned hn)]
  exact (hlooks.perform.2.bindings name (Expr.mem_names_of_mem_assigned hn)).symm

/-- The evaluations of both trees leave the console and the mode as they are. -/
theorem isVariant_after (h : tree.AreIndependent other)
    (hk : ∀ name ∈ tree.names ++ other.names, session.knows name = true) :
    session.IsVariant [] (session.after [.eval tree, .eval other]) := by
  have hlooks : session.IsVariant other.names (session.perform (.eval tree)).2 :=
    isVariant_of_areIndependent h.symm fun name hm => hk name (List.mem_append_left _ hm)
  have hfirst : session.IsVariant [] (session.perform (.eval tree)).2 :=
    ⟨hlooks.console, hlooks.notMode, fun _ hm => absurd hm List.not_mem_nil⟩
  refine hfirst.trans (isVariant_eval h.quietOther (fun name hm => ?_) fun _ hm => ?_)
  · rw [hlooks.knows hm]
    exact hk name (List.mem_append_right _ hm)
  · exact absurd hm List.not_mem_nil

/-- Independent evaluations commute. Let neither of two trees print or assign a name that occurs in
the other, and let the session know all of their names. Then each tree has the same outcome, a value
or an error, before and behind the other one, all variables have the same values in the end, and the
console is left as it is in both orders: nothing is written and nothing is read. -/
theorem perform_comm (h : tree.AreIndependent other)
    (hk : ∀ name ∈ tree.names ++ other.names, session.knows name = true) :
    ((session.perform (.eval other)).2.perform (.eval tree)).1 =
        (session.perform (.eval tree)).1 ∧
      ((session.perform (.eval tree)).2.perform (.eval other)).1 =
        (session.perform (.eval other)).1 ∧
      (∀ name, (session.after [.eval tree, .eval other]).bindings.get? name =
        (session.after [.eval other, .eval tree]).bindings.get? name) ∧
      (session.after [.eval tree, .eval other]).console = session.console ∧
      (session.after [.eval other, .eval tree]).console = session.console := by
  have hk' : ∀ name ∈ other.names ++ tree.names, session.knows name = true := by
    intro name hm
    exact hk name (List.mem_append.2 (List.mem_append.1 hm).symm)
  have hlooks : session.IsVariant tree.names (session.perform (.eval other)).2 :=
    isVariant_of_areIndependent h fun name hm => hk name (List.mem_append_right _ hm)
  have hlooks' : session.IsVariant other.names (session.perform (.eval tree)).2 :=
    isVariant_of_areIndependent h.symm fun name hm => hk name (List.mem_append_left _ hm)
  refine ⟨hlooks.perform.1, hlooks'.perform.1, fun name => ?_, (isVariant_after h hk).console,
    (isVariant_after h.symm hk').console⟩
  by_cases hn : name ∈ tree.assigned
  · exact get?_after_comm_of_mem_assigned h hk hn
  by_cases ho : name ∈ other.assigned
  · exact (get?_after_comm_of_mem_assigned h.symm hk' ho).symm
  · -- Neither tree assigns the name, so each order leaves it as the session has it.
    rw [get?_after_of_notMem_assigned h hk ho, get?_after_of_notMem_assigned h.symm hk' hn]
    have hfirst : session.IsVariant [name] (session.perform (.eval tree)).2 :=
      isVariant_eval h.quiet (fun _ hm => hk _ (List.mem_append_left _ hm)) (by simpa using hn)
    have hfirst' : session.IsVariant [name] (session.perform (.eval other)).2 :=
      isVariant_eval h.quietOther (fun _ hm => hk _ (List.mem_append_right _ hm))
        (by simpa using ho)
    rw [hfirst.bindings name List.mem_cons_self, hfirst'.bindings name List.mem_cons_self]

/-- The first tree assigns `x` and reads it again, and then fails at a literal that is no truth word.
The second one assigns `y` within another assignment. Both read `z`. -/
theorem perform_comm_with_malformed_literal :
    let tree : Expr := .logical .or (.binary .assign (.var "x" 0) (.var "z" 4) 2)
      (.logical .and (.var "x" 8) (.literal "maybe" 12) 10) 6
    let other : Expr := .binary .assign (.var "w" 0) (.logical .xor
      (.binary .assign (.var "y" 5) (.literal "true" 10) 7) (.var "z" 16) 14) 2
    let session : Session := ⟨.insert (.insert (.insert (.insert .empty "w" false) "x" false)
      "y" false) "z" true, .operatorText, ⟨⟨Text.encode "true\n", 0, false⟩, {}⟩⟩
    ((session.perform (.eval other)).2.perform (.eval tree)).1 =
        .failure (.failed (.fault (.notBoolean "maybe" 12))) ∧
      ((session.perform (.eval tree)).2.perform (.eval other)).1 = .value (some false) ∧
      (session.after [.eval other, .eval tree]).bindings.get? "x" = some true ∧
      (session.after [.eval other, .eval tree]).console = session.console := by
  intro tree other session
  have hi : tree.AreIndependent other :=
    ⟨⟨⟨trivial, trivial⟩, trivial, trivial⟩, ⟨trivial, ⟨trivial, trivial⟩, trivial⟩, by decide,
      by decide⟩
  have hk : ∀ name ∈ tree.names ++ other.names, session.knows name = true := by decide
  obtain ⟨hs, ht, hb, -, hc⟩ := perform_comm hi hk
  refine ⟨hs.trans ?_, ht.trans ?_, (hb "x").symm.trans ?_, hc⟩ <;>
  · subst tree other session
    rfl

end

end Session

end BoolScript
