import BoolScript.Proofs.Advance
import BoolScript.Proofs.Correspondence
import BoolScript.Proofs.Nodes
import BoolScript.Proofs.UpFront

/-!
# The mode matters where a `not` is reached, and nowhere else

By default a `not` negates its own text, and its operand is dead: any other operand may stand in its
place, also a meaningless one or one that prompts, prints or assigns. In the other mode the operand
is alive. So the two modes are told apart by an evaluation only if it reaches a `not`, and trees
without a `not` mean the same in both. Since the text of a `not` in a script is never `true`, each
of them has the value true by default.

## Shape of the proof

`Expr.SameOutsideNot` relates trees that differ in operands of `not`; their actions are equal.
`Session.Reaches` says which nodes an evaluation comes to, along the rules of the evaluation. Tasks
do not look at the mode (`Session.IgnoresMode`), so an evaluation that reaches no `not` is the same
in both modes, node by node. The texts of the nodes come from the tokens by the correspondence of
readings, taken on a single list of tokens.
-/

namespace BoolScript

/-! ## Dead operands -/

namespace Expr

/-- Whether the root is a `not`. -/
def isNot : Expr → Bool
  | unary .not _ _ _ => true
  | literal _ _ | var _ _ | binary _ _ _ _ | unary .print _ _ _ => false

theorem mem_nodes_self (tree : Expr) : tree ∈ tree.nodes := by
  cases tree <;> exact List.mem_cons_self

/-- The same tree, except that any operands may stand under a `not`. -/
inductive SameOutsideNot : Expr → Expr → Prop where
  | literal (text : String) (position : Nat) :
    SameOutsideNot (.literal text position) (.literal text position)
  | var (name : String) (position : Nat) :
    SameOutsideNot (.var name position) (.var name position)
  | binary {left left' right right' : Expr} (hl : SameOutsideNot left left')
    (hr : SameOutsideNot right right') (op : BinaryOperator) (position : Nat) :
    SameOutsideNot (.binary op left right position) (.binary op left' right' position)
  | print {operand operand' : Expr} (ho : SameOutsideNot operand operand') (text : String)
    (position : Nat) :
    SameOutsideNot (.unary .print text operand position) (.unary .print text operand' position)
  | not (text : String) (operand operand' : Expr) (position : Nat) :
    SameOutsideNot (.unary .not text operand position) (.unary .not text operand' position)

variable {tree other : Expr}

theorem SameOutsideNot.target?_eq (h : tree.SameOutsideNot other) :
    tree.target? = other.target? := by
  cases h <;> rfl

/-- Where operands of `not` are dead, such trees mean the same. -/
theorem SameOutsideNot.eval_eq (h : tree.SameOutsideNot other) :
    tree.eval .operatorText = other.eval .operatorText := by
  induction h with
  | literal | var | not => rfl
  | @binary left left' right right' hl hr op position ihl ihr =>
    cases op with
    | logical connective => rw [eval_logical, eval_logical, ihl, ihr]
    | assign =>
      cases ht : left.target? with
      | some name =>
        obtain ⟨start, rfl⟩ := target?_eq_some_iff.1 ht
        -- A variable has no operands.
        cases hl
        rw [eval_assign, eval_assign, ihr]
      | none =>
        rw [eval_assign_of_target?_eq_none _ ht,
          eval_assign_of_target?_eq_none _ (hl.target?_eq ▸ ht)]
  | print ho text position ih => rw [eval_print, eval_print, ih]

end Expr

namespace Session

/-! ## What an evaluation does at each node -/

section

variable {tree : Expr} {session : Session}

theorem notMode_of_eval {value : Bool} {after : Session} (h : eval tree session = .ok value after) :
    after.notMode = session.notMode := by
  have hrun := (runs (tree.eval session.notMode) session).notMode
  rwa [← eval_eq, h] at hrun

theorem eval_logical (connective : Connective) (left right : Expr) (position : Nat)
    (session : Session) :
    eval (.logical connective left right position) session =
      (do
        let l ← eval left
        let r ← eval right
        return connective.combine l r : SessionM Bool) session := by
  rw [eval_eq, Expr.eval_logical, run_bind]
  cases hl : eval left session with
  | ok l middle =>
    have hmode := notMode_of_eval hl
    rw [bind_of_ok hl, bind_of_ok ((eval_eq left session).symm.trans hl), run_bind, ← hmode]
    exact bind_congr_apply (eval_eq right middle).symm
  | error error after =>
    rw [bind_of_error hl, bind_of_error ((eval_eq left session).symm.trans hl)]

theorem eval_assign (name : String) (value : Expr) (start position : Nat) (session : Session) :
    eval (.binary .assign (.var name start) value position) session =
      (do
        let v ← eval value
        store name v
        return v : SessionM Bool) session := by
  rw [eval_eq, Expr.eval_assign, run_bind]
  exact bind_congr_apply (eval_eq value session).symm

theorem eval_print (text : String) (operand : Expr) (position : Nat) (session : Session) :
    eval (.unary .print text operand position) session =
      (do
        let v ← eval operand
        onConsole (Console.print v)
        return false : SessionM Bool) session := by
  rw [eval_eq, Expr.eval_print, run_bind]
  exact bind_congr_apply (eval_eq operand session).symm

end

/-! ## The nodes that are reached -/

/-- The evaluation of the tree in the session comes to this node. It comes to a right operand if the
left one has a value, and to the operand of a `not` if this is what is negated. -/
inductive Reaches : Session → Expr → Expr → Prop where
  | root (session : Session) (tree : Expr) : Reaches session tree tree
  | left {session : Session} {left right node : Expr} (h : Reaches session left node)
    (connective : Connective) (position : Nat) :
    Reaches session (.logical connective left right position) node
  | right {session middle : Session} {left right node : Expr} {value : Bool}
    (hl : eval left session = .ok value middle) (h : Reaches middle right node)
    (connective : Connective) (position : Nat) :
    Reaches session (.logical connective left right position) node
  | value {session : Session} {value node : Expr} (h : Reaches session value node)
    (name : String) (start position : Nat) :
    Reaches session (.binary .assign (.var name start) value position) node
  | print {session : Session} {operand node : Expr} (h : Reaches session operand node)
    (text : String) (position : Nat) :
    Reaches session (.unary .print text operand position) node
  | not {session : Session} {operand node : Expr} (hm : session.notMode = .operand)
    (h : Reaches session operand node) (text : String) (position : Nat) :
    Reaches session (.unary .not text operand position) node

/-- Only nodes of the tree are reached. -/
theorem Reaches.mem_nodes {session : Session} {tree node : Expr} (h : session.Reaches tree node) :
    node ∈ tree.nodes := by
  induction h with
  | root session tree => exact tree.mem_nodes_self
  | left _ _ _ ih => exact List.mem_cons_of_mem _ (List.mem_append_left _ ih)
  | right _ _ _ _ ih => exact List.mem_cons_of_mem _ (List.mem_append_right _ ih)
  | value _ _ _ _ ih => exact List.mem_cons_of_mem _ (List.mem_append_right _ ih)
  | print _ _ _ ih | not _ _ _ _ ih => exact List.mem_cons_of_mem _ ih

/-! ## Other modes -/

/-- The session in this mode. -/
def inMode (mode : NotMode) (session : Session) : Session :=
  { session with notMode := mode }

/-- The task does the same in every mode. -/
def IgnoresMode {α : Type} (task : SessionM α) : Prop :=
  ∀ mode session, task (session.inMode mode) = mapState (inMode mode) (task session)

theorem ignoresMode_onConsole {α : Type} (task : ConsoleM α) : IgnoresMode (onConsole task) := by
  intro mode session
  rw [onConsole, onConsole, show (session.inMode mode).console = session.console from rfl]
  cases task session.console <;> rfl

theorem isInherited_ignoresMode : IsInherited IgnoresMode where
  pure := fun _ _ _ => rfl
  throw := fun _ _ _ => rfl
  bind := fun h hn mode session =>
    bind_mapState (h mode session) fun value middle _ => hn value mode middle
  look := fun hn mode session => hn session.bindings mode session
  write := fun _ => ignoresMode_onConsole _
  flush := ignoresMode_onConsole _
  readLine := ignoresMode_onConsole _
  store := fun _ _ _ _ => rfl

/-- An evaluation that reaches no `not` is the same in every mode. -/
theorem eval_inMode {tree : Expr} {session : Session}
    (h : ∀ node, session.Reaches tree node → node.isNot = false) (mode : NotMode) :
    eval tree (session.inMode mode) = mapState (inMode mode) (eval tree session) := by
  -- The actions of the leaves are the same in every mode, and so is a fault.
  have hsame (action : Action Bool) :
      run action (session.inMode mode) = mapState (inMode mode) (run action session) :=
    isInherited_ignoresMode.run action mode session
  induction tree generalizing session with
  | literal text position =>
    rw [eval_eq, eval_eq]
    exact hsame _
  | var name position =>
    rw [eval_eq, eval_eq]
    exact hsame _
  | binary op left right position ihl ihr =>
    cases op with
    | logical connective =>
      have hleft := ihl (fun node hn => h node (.left hn _ _)) hsame
      rw [eval_logical, eval_logical]
      refine bind_mapState hleft fun l middle hl => ?_
      have hright := ihr (fun node hn => h node (.right hl hn _ _))
        fun action => isInherited_ignoresMode.run action mode middle
      exact bind_mapState hright fun r last _ => rfl
    | assign =>
      cases ht : left.target? with
      | some name =>
        obtain ⟨start, rfl⟩ := Expr.target?_eq_some_iff.1 ht
        have hvalue := ihr (fun node hn => h node (.value hn _ _ _)) hsame
        rw [eval_assign, eval_assign]
        exact bind_mapState hvalue fun v after _ => rfl
      | none =>
        rw [eval_eq, eval_eq, Expr.eval_assign_of_target?_eq_none _ ht,
          Expr.eval_assign_of_target?_eq_none _ ht]
        exact hsame _
  | unary op text operand position ih =>
    cases op with
    | print =>
      have hoperand := ih (fun node hn => h node (.print hn _ _)) hsame
      rw [eval_print, eval_print]
      refine bind_mapState hoperand fun v after _ => ?_
      exact bind_mapState (ignoresMode_onConsole _ mode after) fun _ _ _ => rfl
    | not => cases h _ (.root session _)

/-- Then no `not` is reached in another mode either. -/
theorem Reaches.of_inMode {mode : NotMode} {session : Session} {tree node : Expr}
    (hr : (session.inMode mode).Reaches tree node)
    (h : ∀ node, session.Reaches tree node → node.isNot = false) : session.Reaches tree node := by
  generalize hs : session.inMode mode = start at hr
  induction hr generalizing session with
  | root => exact .root _ _
  | left _ connective position ih =>
    exact .left (ih (fun node hn => h node (.left hn _ _)) hs) _ _
  | right hl _ connective position ih =>
    subst hs
    -- The left operand has the same value in the first mode.
    rw [eval_inMode fun node hn => h node (.left hn _ _)] at hl
    cases he : eval _ session with
    | ok value middle =>
      rw [he] at hl
      cases hl
      exact .right he (ih (fun node hn => h node (.right he hn _ _)) rfl) _ _
    | error error after =>
      rw [he] at hl
      cases hl
  | value _ name start position ih =>
    exact .value (ih (fun node hn => h node (.value hn _ _ _)) hs) _ _ _
  | print _ text position ih => exact .print (ih (fun node hn => h node (.print hn _ _)) hs) _ _
  | not => cases h _ (.root session _)

end Session

/-! ## The texts of `not` in scripts -/

/-- If the token is a `not` by its kind, its text is not `true`. -/
def Token.NegatesToTrue (token : Token) : Prop :=
  token.kind = .not → Text.isTrue token.text = false

theorem IsLexeme.negatesToTrue {token : Token} (h : IsLexeme token.kind token.text) :
    token.NegatesToTrue := by
  intro hk
  rw [hk] at h
  have hnot : IsLexeme .not "not" := .keyword (by decide) (Text.sameFolded_self _)
  rw [Text.isTrue_congr (h.folded_eq hnot (by decide))]
  decide

/-- In a tree that is made of such tokens every `not` has such a text. -/
theorem Expr.Corresponds.isTrue_eq_false {R : Token → Token → Prop}
    (hR : ∀ token token', R token token' → token.NegatesToTrue) {tree tree' : Expr}
    (h : Corresponds R tree tree') {text : String} {operand : Expr} {position : Nat}
    (hm : .unary .not text operand position ∈ tree.nodes) : Text.isTrue text = false := by
  induction h with
  | literal | var => simp [nodes] at hm
  | logical _ _ _ _ ihl ihr | assign _ _ _ _ ihl ihr =>
    rcases List.mem_cons.1 hm with he | hm
    · cases he
    · exact (List.mem_append.1 hm).elim ihl ihr
  | print _ _ _ ih =>
    rcases List.mem_cons.1 hm with he | hm
    · cases he
    · exact ih hm
  | not h hk _ ih =>
    rcases List.mem_cons.1 hm with he | hm
    · cases he
      exact hR _ _ h hk
    · exact ih hm

namespace Reading

/-- One of the rules reads the tree from the front of these tokens. -/
inductive Builds (tokens : List Token) : Expr → Prop where
  | rule {rule : Reading Expr} {tree : Expr} {rest : List Token}
    (hr : rule ∈ [expression, conjunction, factor, element, statement, unaryStatement])
    (h : rule tokens = .ok tree rest) : Builds tokens tree
  | assignment {tree : Expr} {rest : List Token} (h : assignment tokens = .ok (some tree) rest) :
    Builds tokens tree
  | program {trees : List Expr} {tree : Expr} {rest : List Token}
    (h : program tokens = .ok trees rest) (hm : tree ∈ trees) : Builds tokens tree

/-- What is read from tokens that correspond to themselves does so too. -/
theorem Corresponds.self {α : Type} {R : Token → Token → Prop} {A : α → α → Prop}
    {reading : Reading α} (h : Corresponds R A reading reading) {tokens rest : List Token}
    {answer : α} (ht : List.Forall₂ R tokens tokens) (hr : reading tokens = .ok answer rest) :
    A answer answer := by
  have hsame := h tokens tokens ht
  rw [hr] at hsame
  cases hsame with
  | ok ha _ => exact ha

theorem Builds.corresponds {R : Token → Token → Prop} (hR : KeepsKinds R) {tokens : List Token}
    {tree : Expr} (h : Builds tokens tree) (ht : List.Forall₂ R tokens tokens) :
    Expr.Corresponds R tree tree := by
  cases h with
  | @rule rule _ _ hr h =>
    have hrules : ∀ rule ∈ [expression, conjunction, factor, element, statement, unaryStatement],
        Corresponds R (Expr.Corresponds R) rule rule := by
      simp only [List.forall_mem_cons, List.not_mem_nil, false_implies, implies_true, and_true]
      exact ⟨corresponds_operators hR _, corresponds_operators hR _, corresponds_operators hR _,
        corresponds_element hR, corresponds_statement hR, corresponds_unaryStatement hR⟩
    exact (hrules rule hr).self ht h
  | assignment h =>
    cases (corresponds_assignment hR).self ht h with
    | some h => exact h
  | program h hm => exact List.forall₂_same.1 ((corresponds_program hR).self ht h) tree hm

/-- By default, a `not` has the value true if it is read from tokens of scripts. -/
theorem Builds.eval_eq_true {tokens : List Token} {tree : Expr} (h : Builds tokens tree)
    (ht : ∀ token ∈ tokens, ∃ source all, tokenize source = .ok all ∧ token ∈ all) {node : Expr}
    (hm : node ∈ tree.nodes) (hn : node.isNot = true) {session : Session}
    (hs : session.notMode = .operatorText) : Session.eval node session = .ok true session := by
  let R (token token' : Token) : Prop := token = token' ∧ token.NegatesToTrue
  have htokens : List.Forall₂ R tokens tokens := by
    refine List.forall₂_same.2 fun token hm => ⟨rfl, ?_⟩
    obtain ⟨source, all, hall, hmem⟩ := ht token hm
    exact (isLexeme_of_mem_tokenize hall token hmem).negatesToTrue
  have hself := h.corresponds (fun token token' hr => congrArg _ hr.1) htokens
  cases node with
  | literal | var | binary => cases hn
  | unary op text operand position =>
    cases op with
    | print => cases hn
    | not =>
      have htext := hself.isTrue_eq_false (fun _ _ hr => hr.2) hm
      rw [Session.eval_eq, hs, Expr.eval_not_operatorText, htext]
      rfl

end Reading

/-! ## The mode -/

/-- The mode matters at `not` alone, where operands are dead by default.

* By default any other operands may stand under any number of `not`, anywhere in a tree: its
  evaluation ends in the same way, with the same bytes read and written and the same variables.
* An evaluation that reaches no `not` is the same in every mode, and reaches none in any mode. In
  particular, a tree without a `not` is evaluated in the same way in every mode.
* By default every `not` that is read from tokens of scripts, whichever rule reads it and on which
  side of its operand it stands, has the value true. -/
theorem Session.eval_by_mode :
    (∀ (tree other : Expr) (session : Session), tree.SameOutsideNot other →
      session.notMode = .operatorText → eval other session = eval tree session) ∧
    (∀ (tree : Expr) (session : Session) (mode : NotMode),
      (∀ node, session.Reaches tree node → node.isNot = false) →
        eval tree (session.inMode mode) = mapState (inMode mode) (eval tree session) ∧
          ∀ node, (session.inMode mode).Reaches tree node → node.isNot = false) ∧
    (∀ (tree : Expr) (session : Session) (mode : NotMode),
      (∀ node ∈ tree.nodes, node.isNot = false) →
        eval tree (session.inMode mode) = mapState (inMode mode) (eval tree session)) ∧
    ∀ (tokens : List Token) (tree node : Expr) (session : Session),
      (∀ token ∈ tokens, ∃ source all, tokenize source = .ok all ∧ token ∈ all) →
        Reading.Builds tokens tree → node ∈ tree.nodes → node.isNot = true →
          session.notMode = .operatorText → eval node session = .ok true session := by
  refine ⟨fun tree other session h hs => ?_, fun tree session mode h => ?_,
    fun tree session mode h => ?_, fun tokens tree node session ht hb hm hn hs => ?_⟩
  · rw [eval_eq, eval_eq, hs, h.eval_eq]
  · exact ⟨eval_inMode h mode, fun node hr => h node (hr.of_inMode h)⟩
  · exact eval_inMode (fun node hr => h node hr.mem_nodes) mode
  · exact hb.eval_eq_true ht hm hn hs

/-- By default `x NOT;` has the value true without a question for `x`, also as a part of another tree
and with an operand that is meaningless. On the left of an assignment it is not even reached, so that
this assignment fails alike in the other mode. -/
theorem Session.eval_by_mode_of_postfix_not :
    let session : Session := ⟨.empty, .operatorText, ⟨⟨[], 0, false⟩, {}⟩⟩
    let node : Expr := .unary .not "NOT" (.var "x" 0) 2
    let other : Expr := .unary .not "NOT" (.unary .print "print" (.literal "maybe" 6) 0) 2
    let faulty : Expr := .binary .assign node (.literal "true" 6) 4
    eval node session = .ok true session ∧
      eval (.logical .and other (.var "y" 10) 6) session =
        eval (.logical .and node (.var "y" 10) 6) session ∧
      eval faulty (session.inMode .operand) =
        mapState (inMode .operand) (eval faulty session) := by
  intro session node other faulty
  let tokens : List Token := [⟨.name, "x", 0⟩, ⟨.not, "NOT", 2⟩, ⟨.semicolon, ";", 5⟩]
  have hsource : tokenize "x NOT;" = .ok tokens := rfl
  have hread : Reading.unaryStatement tokens = .ok node [] := rfl
  obtain ⟨hdead, hreached, -, htrue⟩ := eval_by_mode
  refine ⟨?_, ?_, ?_⟩
  · exact htrue tokens node node session (fun token hm => ⟨"x NOT;", tokens, hsource, hm⟩)
      (.rule (by simp) hread) node.mem_nodes_self rfl rfl
  · exact hdead _ _ session (.binary (.not _ _ _ _) (.var _ _) _ _) rfl
  · refine (hreached faulty session .operand fun reached h => ?_).1
    -- Nothing is evaluated but the assignment itself.
    subst faulty node
    cases h
    rfl

end BoolScript
