import BoolScript.CommandLine.Arguments
import Mathlib.Data.List.Forall2

/-!
# Spelling options and a script

The arguments of a command line are a spelling of options and a script. Here the spellings are
described without a reader: `Spells` says which arguments give which items, in their order. An
option may be a word or a letter, letters may share a dash, and a rule may stand in the same
argument as its option or in the next one.

## Shape of the proof

Items can be given to a reader one by one, by `Reader.add`. Arguments have the same effect as the
items that they spell (`Spells.foldlM_push`): each portion of them leaves a reader that goes on with
anything, so that portions can be taken one after the other. The letters behind a single dash are
the one portion with an inner induction.
-/

namespace BoolScript

/-- The name of a rule on the command line. -/
def Rule.name : Rule → String
  | expression => "expression"
  | assignment => "assignment"
  | unary => "unary"
  | program => "program"

namespace CommandLine

/-- The word that stands for a switch behind two dashes. -/
def Switch.word : Switch → String
  | file => "file"
  | negateOperand => "negate-operand"
  | verbose => "verbose"
  | version => "version"

/-- The letter that stands for a switch behind a single dash. -/
def Switch.letter? : Switch → Option Char
  | file => some 'f'
  | negateOperand => none
  | verbose => some 'v'
  | version => some 'V'

/-! ## Spellings -/

/-- What a part of the arguments gives. -/
inductive Item where
  | switch (switch : Switch)
  | rule (rule : Rule)
  | contents (text : String)
  deriving DecidableEq, Repr

/-- The letters stand for the switches. -/
def Letters (switches : List Switch) (letters : List Char) : Prop :=
  List.Forall₂ (fun switch letter => switch.letter? = some letter) switches letters

/-- An argument that gives switches and nothing else. -/
inductive SwitchArgument : List Switch → String → Prop where
  | word (switch : Switch) : SwitchArgument [switch] ("--" ++ switch.word)
  | letters {switches : List Switch} {letters : List Char} (h : Letters switches letters)
      (hne : letters ≠ []) : SwitchArgument switches (String.ofList ('-' :: letters))

/-- The part of an argument up to the name of the rule option, with switches before it. -/
inductive RuleOpening : List Switch → String → Prop where
  | word : RuleOpening [] "--rule"
  | letters {switches : List Switch} {letters : List Char} (h : Letters switches letters) :
      RuleOpening switches (String.ofList ('-' :: (letters ++ ['r'])))

/-- The argument is no option: it does not start with a dash, or is a dash alone. -/
def IsPlain (argument : String) : Prop :=
  ∀ letter rest, argument.toList ≠ '-' :: letter :: rest

/-- Arguments that belong together, and the items that they give. -/
inductive Portion : List String → List Item → Prop where
  | contents {text : String} (h : IsPlain text) : Portion [text] [.contents text]
  | switches {switches : List Switch} {argument : String} (h : SwitchArgument switches argument) :
      Portion [argument] (switches.map .switch)
  /-- The name of the rule may be an argument of its own. -/
  | rule {switches : List Switch} {opening : String} (h : RuleOpening switches opening)
      (rule : Rule) : Portion [opening, rule.name] (switches.map .switch ++ [.rule rule])
  /-- It may stand behind an equals sign. -/
  | ruleEquals {switches : List Switch} {opening : String} (h : RuleOpening switches opening)
      (rule : Rule) :
      Portion [opening ++ "=" ++ rule.name] (switches.map .switch ++ [.rule rule])
  /-- It may stand right behind the letter of its option. -/
  | ruleJoined {switches : List Switch} {letters : List Char} (h : Letters switches letters)
      (rule : Rule) :
      Portion [String.ofList ('-' :: (letters ++ 'r' :: rule.name.toList))]
        (switches.map .switch ++ [.rule rule])

/-- The arguments give these items in this order. -/
inductive Spells : List String → List Item → Prop where
  | nil : Spells [] []
  /-- Behind `--` there are no options. -/
  | dashes (texts : List String) : Spells ("--" :: texts) (texts.map .contents)
  | append {first arguments : List String} {given items : List Item} (hf : Portion first given)
      (hr : Spells arguments items) : Spells (first ++ arguments) (given ++ items)

/-! ## The vocabulary -/

theorem ruleNamed?_eq_some_iff {name : String} {rule : Rule} :
    ruleNamed? name = some rule ↔ name = rule.name := by
  constructor
  · intro h
    unfold ruleNamed? at h
    split at h <;> cases h <;> rfl
  · rintro rfl
    cases rule <;> rfl

theorem Flag.ofShort?_eq_switch_iff {letter : Char} {switch : Switch} :
    Flag.ofShort? letter = some (.switch switch) ↔ switch.letter? = some letter := by
  constructor
  · intro h
    unfold Flag.ofShort? at h
    split at h <;> cases h <;> rfl
  · intro h
    cases switch <;> cases h <;> rfl

theorem Flag.ofShort?_eq_rule_iff {letter : Char} :
    Flag.ofShort? letter = some .rule ↔ letter = 'r' := by
  constructor
  · intro h
    unfold Flag.ofShort? at h
    split at h <;> cases h
    rfl
  · rintro rfl
    rfl

theorem Flag.ofLong?_eq_switch_iff {word : String} {switch : Switch} :
    Flag.ofLong? word = some (.switch switch) ↔ word = switch.word := by
  constructor
  · intro h
    unfold Flag.ofLong? at h
    split at h <;> cases h <;> rfl
  · rintro rfl
    cases switch <;> rfl

theorem Flag.ofLong?_eq_rule_iff {word : String} :
    Flag.ofLong? word = some .rule ↔ word = "rule" := by
  constructor
  · intro h
    unfold Flag.ofLong? at h
    split at h <;> cases h
    rfl
  · rintro rfl
    rfl

/-! ## Items given to a reader -/

theorem bind_eq_ok_iff {α β : Type} {first : Except Stop α} {next : α → Except Stop β}
    {value : β} :
    first >>= next = .ok value ↔ ∃ mid, first = .ok mid ∧ next mid = .ok value := by
  cases first with
  | error stop => exact ⟨nofun, fun ⟨_, h, _⟩ => nomatch h⟩
  | ok mid => exact ⟨fun h => ⟨mid, rfl, h⟩, fun ⟨_, rfl, h⟩ => h⟩

namespace Reader

/-- Takes an item. -/
def add (reader : Reader) : Item → Except Stop Reader
  | .switch given => reader.addSwitch given
  | .rule given =>
    match reader.rule with
    | none => .ok { reader with rule := some given, expecting := .anything }
    | some _ => .error .misuse
  | .contents text => reader.setContents text

section

variable {reader after : Reader}

theorem addSwitch_eq_ok_iff {switch : Switch} : reader.addSwitch switch = .ok after ↔
    switch ≠ .version ∧ switch ∉ reader.switches ∧
      { reader with switches := switch :: reader.switches } = after := by
  unfold addSwitch
  split
  · next h => simp [h]
  · next h =>
    split
    · next hm => simp [hm]
    · next hm => simp [h, hm]

theorem add_rule_eq_ok_iff {rule : Rule} : reader.add (.rule rule) = .ok after ↔
    reader.rule = none ∧ { reader with rule := some rule, expecting := .anything } = after := by
  unfold add
  cases h : reader.rule <;> simp

theorem setContents_eq_ok_iff {text : String} : reader.setContents text = .ok after ↔
    reader.contents = none ∧ { reader with contents := some text } = after := by
  unfold setContents
  cases h : reader.contents <;> simp

theorem setRule_name (reader : Reader) (rule : Rule) :
    reader.setRule rule.name = reader.add (.rule rule) := by
  unfold setRule add
  rw [ruleNamed?_eq_some_iff.2 rfl]
  cases reader.rule <;> rfl

theorem setRule_eq_ok {name : String} (h : reader.setRule name = .ok after) :
    ∃ rule : Rule, name = rule.name ∧ reader.add (.rule rule) = .ok after := by
  unfold setRule at h
  split at h
  · next rule hr hn =>
    obtain rfl := ruleNamed?_eq_some_iff.1 hn
    exact ⟨rule, rfl, by simpa [add, hr] using h⟩
  · cases h

/-- Behind an item a reader expects anything, if it has done so before. -/
theorem expecting_of_add {item : Item} (h : reader.add item = .ok after)
    (he : reader.expecting = .anything) : after.expecting = .anything := by
  cases item with
  | switch switch =>
    obtain ⟨-, -, rfl⟩ := addSwitch_eq_ok_iff.1 h
    exact he
  | rule rule =>
    obtain ⟨-, rfl⟩ := add_rule_eq_ok_iff.1 h
    rfl
  | contents text =>
    obtain ⟨-, rfl⟩ := setContents_eq_ok_iff.1 h
    exact he

theorem expecting_of_foldlM_add {items : List Item} (h : items.foldlM add reader = .ok after)
    (he : reader.expecting = .anything) : after.expecting = .anything := by
  induction items generalizing reader with
  | nil =>
    cases h
    exact he
  | cons item items ih =>
    obtain ⟨mid, hi, h⟩ := bind_eq_ok_iff.1 ((List.foldlM_cons ..).symm.trans h)
    exact ih h (expecting_of_add hi he)

/-! ## The effect of a spelling -/

theorem pushShort_of_switch {switch : Switch} {letter : Char} (h : switch.letter? = some letter)
    (letters : List Char) (reader : Reader) : reader.pushShort (letter :: letters) =
      reader.addSwitch switch >>= fun mid => mid.pushShort letters := by
  rw [pushShort.eq_def]
  simp only [Flag.ofShort?_eq_switch_iff.2 h]

theorem pushShort_append {switches : List Switch} {letters : List Char}
    (h : Letters switches letters) (rest : List Char) (reader : Reader) :
    reader.pushShort (letters ++ rest) =
      (switches.map Item.switch).foldlM add reader >>= fun mid => mid.pushShort rest := by
  induction h generalizing reader with
  | nil => rfl
  | cons hl _ ih =>
    rw [List.cons_append, pushShort_of_switch hl, List.map_cons, List.foldlM_cons, bind_assoc]
    simp only [ih]
    rfl

theorem push_long {text : String} (hne : text ≠ "") (he : reader.expecting = .anything) :
    reader.push ("--" ++ text) = reader.pushLong text.toList := by
  have ht : ("--" ++ text).toList = '-' :: '-' :: text.toList := by simp
  cases hc : text.toList with
  | nil => exact absurd (String.toList_eq_nil_iff.1 hc) hne
  | cons letter letters => simp only [push, he, ht, hc]

theorem push_short {letters : List Char} (hne : letters ≠ []) (hd : letters.head? ≠ some '-')
    (he : reader.expecting = .anything) :
    reader.push (String.ofList ('-' :: letters)) = reader.pushShort letters := by
  cases letters with
  | nil => exact absurd rfl hne
  | cons letter letters =>
    have hl : letter ≠ '-' := by
      rintro rfl
      exact hd rfl
    unfold push
    rw [he, String.toList_ofList]
    split <;> simp_all

theorem pushLong_word (reader : Reader) (switch : Switch) :
    reader.pushLong switch.word.toList = reader.addSwitch switch := by
  cases switch <;> rfl

theorem pushLong_rule (reader : Reader) (rule : Rule) :
    reader.pushLong ("rule=" ++ rule.name).toList = reader.setRule rule.name := by
  cases rule <;> rfl

theorem pushShort_rule (reader : Reader) (rule : Rule) :
    reader.pushShort ('r' :: rule.name.toList) = reader.setRule rule.name := by
  cases rule <;> rfl

theorem pushShort_rule_equals (reader : Reader) (rule : Rule) :
    reader.pushShort ('r' :: '=' :: rule.name.toList) = reader.setRule rule.name := by
  cases rule <;> rfl

/-- No switch has a dash for its letter. -/
theorem head?_ne_dash {switches : List Switch} {letters rest : List Char}
    (h : Letters switches letters) (hr : rest.head? ≠ some '-') :
    (letters ++ rest).head? ≠ some '-' := by
  cases h with
  | nil => exact hr
  | @cons switch letter _ _ hl =>
    cases switch <;> cases hl <;> exact fun h => nomatch h

theorem push_of_isPlain {text : String} (h : IsPlain text) (he : reader.expecting = .anything) :
    reader.push text = reader.add (.contents text) := by
  unfold push
  rw [he]
  split <;> simp_all [IsPlain, add]

theorem push_of_switchArgument {switches : List Switch} {argument : String}
    (h : SwitchArgument switches argument) (he : reader.expecting = .anything) :
    reader.push argument = (switches.map Item.switch).foldlM add reader := by
  cases h with
  | word switch =>
    have hne : switch.word ≠ "" := by cases switch <;> decide
    rw [push_long hne he, pushLong_word]
    show _ = reader.addSwitch switch >>= pure
    rw [bind_pure]
  | @letters _ letters h hne =>
    have hd : (letters ++ []).head? ≠ some '-' := head?_ne_dash h (by simp)
    have happ := pushShort_append h [] reader
    rw [List.append_nil] at hd happ
    rw [push_short hne hd he, happ]
    exact bind_pure _

theorem push_short_rule {switches : List Switch} {letters rest : List Char}
    (h : Letters switches letters) (he : reader.expecting = .anything) :
    reader.push (String.ofList ('-' :: (letters ++ 'r' :: rest))) =
      (switches.map Item.switch).foldlM add reader >>= fun mid => mid.pushShort ('r' :: rest) := by
  have hd : (letters ++ 'r' :: rest).head? ≠ some '-' := head?_ne_dash h (by simp)
  rw [push_short (by simp) hd he, pushShort_append h]

theorem push_of_ruleOpening {switches : List Switch} {opening : String}
    (h : RuleOpening switches opening) (he : reader.expecting = .anything) :
    reader.push opening =
      (switches.map Item.switch).foldlM add reader >>= fun mid =>
        .ok { mid with expecting := .rule } := by
  cases h with
  | word => exact push_long (show "rule" ≠ "" by decide) he
  | letters h => exact push_short_rule h he

/-- The value of the rule option is taken as the rule that it names. -/
theorem push_name (reader : Reader) (rule : Rule) :
    push { reader with expecting := .rule } rule.name = reader.add (.rule rule) := by
  have hs := setRule_name { reader with expecting := .rule } rule
  cases rule <;> exact hs

theorem append_equals (letters : List Char) (name : String) :
    String.ofList ('-' :: (letters ++ ['r'])) ++ "=" ++ name =
      String.ofList ('-' :: (letters ++ 'r' :: '=' :: name.toList)) := by
  apply String.toList_injective
  simp

theorem push_rule_equals {switches : List Switch} {opening : String}
    (h : RuleOpening switches opening) (rule : Rule) (he : reader.expecting = .anything) :
    reader.push (opening ++ "=" ++ rule.name) =
      (switches.map Item.switch).foldlM add reader >>= fun mid => mid.add (.rule rule) := by
  cases h with
  | word =>
    have ht : "--rule" ++ "=" ++ rule.name = "--" ++ ("rule=" ++ rule.name) := by
      cases rule <;> rfl
    rw [ht, push_long (by cases rule <;> decide) he, pushLong_rule, setRule_name]
    rfl
  | @letters _ letters h =>
    rw [append_equals, push_short_rule h he]
    simp only [pushShort_rule_equals, setRule_name]

theorem push_rule_joined {switches : List Switch} {letters : List Char}
    (h : Letters switches letters) (rule : Rule) (he : reader.expecting = .anything) :
    reader.push (String.ofList ('-' :: (letters ++ 'r' :: rule.name.toList))) =
      (switches.map Item.switch).foldlM add reader >>= fun mid => mid.add (.rule rule) := by
  rw [push_short_rule h he]
  simp only [pushShort_rule, setRule_name]

/-- Whether options may still come makes no difference at the end. -/
theorem finish_of_contents (he : reader.expecting = .contents) :
    reader.finish = finish { reader with expecting := .anything } := by
  unfold finish
  rw [he]
  cases reader.contents <;> rfl

/-- Behind `--` all arguments are contents. -/
theorem foldlM_push_contents (texts : List String) (he : reader.expecting = .contents) :
    texts.foldlM push reader >>= finish =
      (texts.map Item.contents).foldlM add { reader with expecting := .anything } >>= finish := by
  induction texts generalizing reader with
  | nil => exact finish_of_contents he
  | cons text texts ih =>
    rw [List.foldlM_cons, push_of_expecting_contents he, List.map_cons, List.foldlM_cons]
    cases hc : reader.contents with
    | none =>
      simp only [add, setContents, hc]
      exact ih he
    | some other =>
      simp only [add, setContents, hc]
      rfl

end

end Reader

section

variable {arguments : List String} {items : List Item} {reader : Reader}

/-- A portion of the arguments has the effect of its items. -/
theorem Portion.foldlM_push (h : Portion arguments items) (he : reader.expecting = .anything) :
    arguments.foldlM Reader.push reader = items.foldlM Reader.add reader := by
  have hone : ∀ argument : String,
      [argument].foldlM Reader.push reader = reader.push argument := fun argument => bind_pure _
  cases h with
  | contents h =>
    rw [hone, Reader.push_of_isPlain h he]
    exact (bind_pure _).symm
  | switches h => rw [hone, Reader.push_of_switchArgument h he]
  | rule h rule =>
    rw [List.foldlM_cons, Reader.push_of_ruleOpening h he, bind_assoc, List.foldlM_append]
    exact bind_congr fun mid => congrArg (· >>= pure) (Reader.push_name mid rule)
  | ruleEquals h rule =>
    rw [hone, Reader.push_rule_equals h rule he, List.foldlM_append]
    exact bind_congr fun mid => (bind_pure _).symm
  | ruleJoined h rule =>
    rw [hone, Reader.push_rule_joined h rule he, List.foldlM_append]
    exact bind_congr fun mid => (bind_pure _).symm

/-- Arguments have the effect of the items that they spell. -/
theorem Spells.foldlM_push (h : Spells arguments items) (he : reader.expecting = .anything) :
    arguments.foldlM Reader.push reader >>= Reader.finish =
      items.foldlM Reader.add reader >>= Reader.finish := by
  induction h generalizing reader with
  | nil => rfl
  | dashes texts =>
    let mid : Reader := { reader with expecting := .contents }
    have hp : reader.push "--" = .ok mid := by simp [Reader.push, he, mid]
    have hc := Reader.foldlM_push_contents texts (show mid.expecting = .contents from rfl)
    have hr : ({ mid with expecting := .anything } : Reader) = reader := by rw [← he]
    rw [hr] at hc
    rw [List.foldlM_cons, hp]
    exact hc
  | @append first arguments given items hf _ ih =>
    rw [List.foldlM_append, List.foldlM_append, hf.foldlM_push he, bind_assoc, bind_assoc]
    cases hm : given.foldlM Reader.add reader with
    | error stop => rfl
    | ok mid => exact ih (Reader.expecting_of_foldlM_add hm he)

end

end CommandLine

end BoolScript
