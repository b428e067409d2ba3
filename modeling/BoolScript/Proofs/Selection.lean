import BoolScript.Proofs.Spellings
import Mathlib.Data.List.Nodup

/-!
# What arguments select

A spelling of items selects a script and the way to run it if each item may stand there:
`Item.Select` says what a list of items asks for, and `Selects` what arguments ask for. The reader
of the arguments agrees with this description (`Arguments.parse_eq_ok_iff`), and everything that can
be asked for has a spelling (`Arguments.selects_spelled`).

## Shape of the proof

Arguments that are read to their end spell some items, because whatever the reader expects next is
there (`Reader.isMet_of_push`). What is left are the items, each of which may be given once: what a
reader holds is what it has been given (`Reader.foldlM_add_eq_ok_iff`).
-/

namespace BoolScript.CommandLine

/-- The switch that an item is. -/
def Item.switch? : Item → Option Switch
  | .switch given => some given
  | .rule _ | .contents _ => none

/-- The rule that an item is. -/
def Item.rule? : Item → Option Rule
  | .rule given => some given
  | .switch _ | .contents _ => none

/-- The text that an item is. -/
def Item.contents? : Item → Option String
  | .contents text => some text
  | .switch _ | .rule _ => none

/-- What items ask for. One of them is the script or the path of its file, and none is given twice
nor asks for the version. -/
structure Item.Select (items : List Item) (selected : Arguments) : Prop where
  nodup : (items.filterMap Item.switch?).Nodup
  version : Switch.version ∉ items.filterMap Item.switch?
  rule : items.filterMap Item.rule? = [] ∧ selected.rule = .expression ∨
    items.filterMap Item.rule? = [selected.rule]
  contents : items.filterMap Item.contents? = [selected.contents]
  fromFile : selected.fromFile = true ↔ Switch.file ∈ items.filterMap Item.switch?
  negateOperand :
    selected.negateOperand = true ↔ Switch.negateOperand ∈ items.filterMap Item.switch?

/-- The arguments are a spelling of what is selected. -/
def Selects (arguments : List String) (selected : Arguments) : Prop :=
  ∃ items, Spells arguments items ∧ Item.Select items selected

/-! ## The items of a reading -/

/-- What a reader expects next is there. -/
def Expecting.IsMet : Expecting → List String → Prop
  | .anything, arguments => ∃ items, Spells arguments items
  | .rule, arguments => ∃ (rule : Rule) (rest : List String) (items : List Item),
      arguments = rule.name :: rest ∧ Spells rest items
  | .contents, _ => True

section

variable {argument : String} {arguments : List String}

theorem Portion.isMet {given : List Item} (h : Portion [argument] given)
    (hm : Expecting.anything.IsMet arguments) : Expecting.anything.IsMet (argument :: arguments) :=
  hm.imp' (given ++ ·) fun _ hr => .append h hr

theorem RuleOpening.isMet {switches : List Switch} (h : RuleOpening switches argument)
    (hm : Expecting.rule.IsMet arguments) :
    Expecting.anything.IsMet (argument :: arguments) := by
  obtain ⟨rule, rest, items, rfl, hr⟩ := hm
  exact ⟨_, .append (.rule h rule) hr⟩

namespace Reader

variable {reader after : Reader}

theorem expecting_of_setRule {name : String} (h : reader.setRule name = .ok after) :
    ∃ rule : Rule, name = rule.name ∧ after.expecting = .anything := by
  obtain ⟨rule, rfl, hr⟩ := setRule_eq_ok h
  obtain ⟨-, rfl⟩ := add_rule_eq_ok_iff.1 hr
  exact ⟨rule, rfl, rfl⟩

/-- Behind the letters of some switches there are more of them, up to the end or to the letter of
the rule option, whose value may follow. -/
theorem isMet_of_pushShort {switches : List Switch} {front letters : List Char}
    (hf : Letters switches front) (hne : front ++ letters ≠ [])
    (h : reader.pushShort letters = .ok after) (he : reader.expecting = .anything)
    (hm : after.expecting.IsMet arguments) :
    Expecting.anything.IsMet (String.ofList ('-' :: (front ++ letters)) :: arguments) := by
  induction letters generalizing reader switches front with
  | nil =>
    cases h
    rw [he] at hm
    rw [List.append_nil] at hne ⊢
    exact (Portion.switches (.letters hf hne)).isMet hm
  | cons letter rest ih =>
    rw [pushShort.eq_def] at h
    dsimp only at h
    split at h
    · next switch hs =>
      have hl := Flag.ofShort?_eq_switch_iff.1 hs
      obtain ⟨mid, ha, h⟩ := bind_eq_ok_iff.1 h
      have hmid : mid.expecting = .anything :=
        expecting_of_add (show reader.add (.switch switch) = .ok mid from ha) he
      rw [List.append_cons] at hne ⊢
      exact ih (List.rel_append hf (.cons hl .nil)) hne h hmid
    · next hr =>
      obtain rfl := Flag.ofShort?_eq_rule_iff.1 hr
      split at h
      · cases h
        exact (RuleOpening.letters hf).isMet hm
      · next value =>
        obtain ⟨rule, hn, ha⟩ := expecting_of_setRule h
        obtain rfl : value = rule.name.toList := by rw [← hn, String.toList_ofList]
        rw [ha] at hm
        rw [← append_equals]
        exact (Portion.ruleEquals (.letters hf) rule).isMet hm
      · obtain ⟨rule, hn, ha⟩ := expecting_of_setRule h
        obtain rfl : rest = rule.name.toList := by rw [← hn, String.toList_ofList]
        rw [ha] at hm
        exact (Portion.ruleJoined hf rule).isMet hm
    · cases h

theorem isMet_of_pushLong {text : List Char} (h : reader.pushLong text = .ok after)
    (he : reader.expecting = .anything) (hm : after.expecting.IsMet arguments) :
    Expecting.anything.IsMet (("--" ++ String.ofList text) :: arguments) := by
  have htext := List.takeWhile_append_dropWhile (p := fun c => c != '=') (l := text)
  unfold pushLong at h
  dsimp only at h
  split at h
  · next switch hw hd =>
    rw [hd, List.append_nil] at htext
    rw [htext] at hw
    rw [Flag.ofLong?_eq_switch_iff.1 hw]
    have ha : after.expecting = .anything :=
      expecting_of_add (show reader.add (.switch switch) = .ok after from h) he
    rw [ha] at hm
    exact (Portion.switches (.word switch)).isMet hm
  · next hw hd =>
    rw [hd, List.append_nil] at htext
    rw [htext] at hw
    cases h
    rw [Flag.ofLong?_eq_rule_iff.1 hw]
    exact RuleOpening.word.isMet hm
  · next c value hw hd =>
    obtain ⟨rule, hn, ha⟩ := expecting_of_setRule h
    -- the word ends before the first equals sign
    obtain rfl : c = '=' := by
      have hhead := List.head?_dropWhile_not (fun c => c != '=') text
      rw [hd] at hhead
      simpa using hhead
    have ht : "--" ++ String.ofList text = "--rule" ++ "=" ++ rule.name := by
      apply String.toList_injective
      rw [← hn, ← htext, hd]
      have hw' := congrArg String.toList (Flag.ofLong?_eq_rule_iff.1 hw)
      rw [String.toList_ofList] at hw'
      simp [hw']
    rw [ht]
    rw [ha] at hm
    exact (Portion.ruleEquals .word rule).isMet hm
  · cases h

/-- A reader that goes on well from an argument is given what it expects. -/
theorem isMet_of_push (h : reader.push argument = .ok after)
    (hm : after.expecting.IsMet arguments) : reader.expecting.IsMet (argument :: arguments) := by
  have harg : ∀ {letters : List Char}, argument.toList = letters →
      argument = String.ofList letters := fun h => String.toList_injective (by simpa using h)
  unfold push at h
  split at h
  · next hx =>
    rw [hx]
    trivial
  · cases h
  · next hx hn =>
    rw [hx]
    obtain ⟨rule, rfl, ha⟩ := expecting_of_setRule h
    rw [ha] at hm
    obtain ⟨items, hi⟩ := hm
    exact ⟨rule, arguments, items, rfl, hi⟩
  · next hx ha =>
    rw [hx, harg ha]
    exact ⟨_, .dashes arguments⟩
  · next text _ hx ha =>
    have ht : argument = "--" ++ String.ofList text := String.toList_injective (by simp [ha])
    rw [hx, ht]
    exact isMet_of_pushLong h hx hm
  · next hx ha =>
    rw [hx, harg ha]
    exact isMet_of_pushShort .nil (List.cons_ne_nil _ _) h hx hm
  · next hx hdashes hlong hshort =>
    have hp : IsPlain argument := fun letter rest ht => hshort letter rest ht
    have ha : after.expecting = .anything :=
      expecting_of_add (show reader.add (.contents argument) = .ok after from h) hx
    rw [ha] at hm
    rw [hx]
    exact (Portion.contents hp).isMet hm

/-- Arguments that are read to their end are what the reader has expected. -/
theorem isMet_of_foldlM_push {selected : Arguments} {reader : Reader}
    (h : arguments.foldlM push reader >>= finish = .ok selected) :
    reader.expecting.IsMet arguments := by
  induction arguments generalizing reader with
  | nil =>
    cases he : reader.expecting with
    | anything => exact ⟨[], .nil⟩
    | contents => trivial
    | rule =>
      have : reader.finish = .ok selected := h
      simp [finish, he] at this
  | cons argument arguments ih =>
    rw [List.foldlM_cons, bind_assoc] at h
    obtain ⟨mid, hp, h⟩ := bind_eq_ok_iff.1 h
    exact isMet_of_push hp (ih h)

end Reader

end

/-! ## What items ask for -/

/-- A reader that may go on with anything, and has been asked for each of its switches once. -/
structure Reader.IsReady (reader : Reader) : Prop where
  expecting : reader.expecting = .anything
  nodup : reader.switches.Nodup
  version : Switch.version ∉ reader.switches

/-- A reader has been given the items on top of what it held before. -/
structure Reader.Takes (reader : Reader) (items : List Item) (after : Reader) : Prop where
  ready : after.IsReady
  switches : after.switches = (items.filterMap Item.switch?).reverse ++ reader.switches
  rule : after.rule.toList = reader.rule.toList ++ items.filterMap Item.rule?
  contents : after.contents.toList = reader.contents.toList ++ items.filterMap Item.contents?

namespace Reader

variable {reader after : Reader} {items : List Item}

private theorem eq_none_of_toList {α : Type} {all first : Option α} {item : α} {items : List α}
    (h : all.toList = first.toList ++ item :: items) : first = none := by
  cases first with
  | none => rfl
  | some other => cases all <;> simp at h

theorem IsReady.add {item : Item} (hr : reader.IsReady) (h : reader.add item = .ok after) :
    after.IsReady := by
  refine ⟨expecting_of_add h hr.expecting, ?_, ?_⟩ <;> cases item with
  | switch switch =>
    obtain ⟨hv, hn, rfl⟩ := addSwitch_eq_ok_iff.1 h
    simp [hn, hr.nodup, hr.version, Ne.symm hv]
  | rule rule =>
    obtain ⟨-, rfl⟩ := add_rule_eq_ok_iff.1 h
    simp [hr.nodup, hr.version]
  | contents text =>
    obtain ⟨-, rfl⟩ := setContents_eq_ok_iff.1 h
    simp [hr.nodup, hr.version]

/-- The first item is taken on its own. -/
theorem takes_cons_iff {item : Item} : reader.Takes (item :: items) after ↔
    ∃ mid, reader.add item = .ok mid ∧ mid.Takes items after := by
  cases item with
  | switch switch =>
    simp only [add, addSwitch_eq_ok_iff]
    constructor
    · intro h
      have hs : after.switches =
          (items.filterMap Item.switch?).reverse ++ switch :: reader.switches := by
        simpa [Item.switch?] using h.switches
      have hv : switch ≠ .version := by
        rintro rfl
        exact h.ready.version (by simp [hs])
      have hn : switch ∉ reader.switches := by
        have hnodup := h.ready.nodup
        rw [hs] at hnodup
        exact (List.nodup_cons.1 (List.nodup_append.1 hnodup).2.1).1
      exact ⟨_, ⟨hv, hn, rfl⟩, h.ready, hs, h.rule, h.contents⟩
    · rintro ⟨_, ⟨-, -, rfl⟩, h⟩
      exact ⟨h.ready, by simpa [Item.switch?] using h.switches, h.rule, h.contents⟩
  | rule rule =>
    simp only [add_rule_eq_ok_iff]
    constructor
    · intro h
      have hr : after.rule.toList = reader.rule.toList ++ rule :: items.filterMap Item.rule? :=
        h.rule
      have hnone := eq_none_of_toList hr
      rw [hnone] at hr
      exact ⟨_, ⟨hnone, rfl⟩, h.ready, h.switches, hr, h.contents⟩
    · rintro ⟨_, ⟨hnone, rfl⟩, h⟩
      refine ⟨h.ready, h.switches, ?_, h.contents⟩
      rw [hnone]
      exact h.rule
  | contents text =>
    simp only [add, setContents_eq_ok_iff]
    constructor
    · intro h
      have hc : after.contents.toList =
          reader.contents.toList ++ text :: items.filterMap Item.contents? := h.contents
      have hnone := eq_none_of_toList hc
      rw [hnone] at hc
      exact ⟨_, ⟨hnone, rfl⟩, h.ready, h.switches, h.rule, hc⟩
    · rintro ⟨_, ⟨hnone, rfl⟩, h⟩
      refine ⟨h.ready, h.switches, h.rule, ?_⟩
      rw [hnone]
      exact h.contents

theorem takes_nil_iff (hr : reader.IsReady) : reader.Takes [] after ↔ reader = after := by
  constructor
  · intro h
    have hrule : reader.rule = after.rule := by
      simpa using (congrArg List.head? h.rule).symm
    have hcontents : reader.contents = after.contents := by
      simpa using (congrArg List.head? h.contents).symm
    have hswitches : reader.switches = after.switches := h.switches.symm
    have hexpecting := hr.expecting.trans h.ready.expecting.symm
    cases reader
    congr
  · rintro rfl
    exact ⟨hr, rfl, by simp, by simp⟩

/-- Items are taken one after the other. -/
theorem foldlM_add_eq_ok_iff (hr : reader.IsReady) :
    items.foldlM add reader = .ok after ↔ reader.Takes items after := by
  induction items generalizing reader with
  | nil =>
    rw [takes_nil_iff hr]
    exact Except.ok.injEq reader after ▸ Iff.rfl
  | cons item items ih =>
    rw [takes_cons_iff, List.foldlM_cons, bind_eq_ok_iff]
    exact exists_congr fun mid => and_congr_right fun hm => ih (hr.add hm)

theorem finish_eq_ok_iff {selected : Arguments} (he : reader.expecting = .anything) :
    reader.finish = .ok selected ↔ reader.contents = some selected.contents ∧
      reader.rule.getD .expression = selected.rule ∧
      (selected.fromFile = true ↔ Switch.file ∈ reader.switches) ∧
      (selected.negateOperand = true ↔ Switch.negateOperand ∈ reader.switches) := by
  have hb : ∀ (b : Bool) (p : Prop) [Decidable p], decide p = b ↔ (b = true ↔ p) := by
    intro b p _
    cases b <;> simp
  cases hc : reader.contents with
  | none => simp [finish, he, hc]
  | some contents =>
    obtain ⟨text, fromFile, rule, negateOperand⟩ := selected
    simp only [finish, he, hc, Except.ok.injEq, Arguments.mk.injEq, Option.some.injEq, hb]
    exact and_congr_right fun _ => and_left_comm

end Reader

/-- Items have been taken by a reader that finds a script at the end exactly if they select it. -/
theorem Item.select_iff {items : List Item} {selected : Arguments} :
    Item.Select items selected ↔
      items.foldlM Reader.add {} >>= Reader.finish = .ok selected := by
  have hr : Reader.IsReady {} := ⟨rfl, .nil, List.not_mem_nil⟩
  rw [bind_eq_ok_iff]
  constructor
  · intro h
    let after : Reader :=
      ⟨(items.filterMap Item.switch?).reverse, (items.filterMap Item.rule?).head?,
        some selected.contents, .anything⟩
    have hready : after.IsReady :=
      ⟨rfl, List.nodup_reverse.2 h.nodup, fun hm => h.version (List.mem_reverse.1 hm)⟩
    have ht : Reader.Takes {} items after := by
      refine ⟨hready, (List.append_nil _).symm, ?_, h.contents.symm⟩
      rcases h.rule with ⟨hr, -⟩ | hr <;> simp [after, hr]
    refine ⟨after, (Reader.foldlM_add_eq_ok_iff hr).2 ht, (Reader.finish_eq_ok_iff rfl).2
      ⟨rfl, ?_, ?_, ?_⟩⟩
    · rcases h.rule with ⟨hr, hs⟩ | hr <;> simp [after, *]
    · simpa [after] using h.fromFile
    · simpa [after] using h.negateOperand
  · rintro ⟨after, ha, hf⟩
    have ht := (Reader.foldlM_add_eq_ok_iff hr).1 ha
    obtain ⟨hc, hrule, hfile, hnegate⟩ := (Reader.finish_eq_ok_iff ht.ready.expecting).1 hf
    have hs : after.switches = (items.filterMap Item.switch?).reverse := by
      simpa using ht.switches
    have hrules : after.rule.toList = items.filterMap Item.rule? := ht.rule
    have hcontents : after.contents.toList = items.filterMap Item.contents? := ht.contents
    have hnodup := ht.ready.nodup
    have hversion := ht.ready.version
    rw [hs] at hfile hnegate hnodup hversion
    refine ⟨List.nodup_reverse.1 hnodup, fun hm => hversion (List.mem_reverse.2 hm), ?_, ?_,
      by simpa using hfile, by simpa using hnegate⟩
    · rw [← hrules, ← hrule]
      cases after.rule <;> simp
    · rw [← hcontents, hc]
      rfl

/-- The arguments are read as a selection exactly if they are a spelling of it. -/
theorem Arguments.parse_eq_ok_iff {arguments : List String} {selected : Arguments} :
    Arguments.parse arguments = .ok selected ↔ Selects arguments selected := by
  constructor
  · intro h
    obtain ⟨items, hs⟩ := Reader.isMet_of_foldlM_push h
    exact ⟨items, hs, Item.select_iff.2 ((hs.foldlM_push rfl).symm.trans h)⟩
  · rintro ⟨items, hs, hi⟩
    exact (hs.foldlM_push rfl).trans (Item.select_iff.1 hi)

/-! ## Everything has a spelling -/

/-- A switch that is given if a condition holds. -/
theorem Spells.switch_append {arguments : List String} {items : List Item}
    (h : Spells arguments items) (given : Bool) (switch : Switch) :
    Spells ((if given then ["--" ++ switch.word] else []) ++ arguments)
      ((if given then [.switch switch] else []) ++ items) := by
  cases given with
  | false => exact h
  | true => exact .append (.switches (.word switch)) h

/-- Arguments for a selection. The script stands behind `--`, since it may look like an option. -/
def Arguments.spelled (selected : Arguments) : List String :=
  (if selected.fromFile then ["--" ++ Switch.file.word] else []) ++
    ((if selected.negateOperand then ["--" ++ Switch.negateOperand.word] else []) ++
      ["--rule", selected.rule.name, "--", selected.contents])

/-- Everything that can be asked for can be spelled. -/
theorem Arguments.selects_spelled (selected : Arguments) : Selects selected.spelled selected := by
  have hs : Spells ["--rule", selected.rule.name, "--", selected.contents]
      ([.rule selected.rule] ++ [.contents selected.contents]) :=
    .append (.rule .word selected.rule) (.dashes [selected.contents])
  refine ⟨_, (hs.switch_append selected.negateOperand .negateOperand).switch_append
    selected.fromFile .file, ?_⟩
  constructor <;> cases selected.fromFile <;> cases selected.negateOperand <;>
    simp [List.filterMap_cons, Item.switch?, Item.rule?, Item.contents?]

end BoolScript.CommandLine
