import BoolScript.Proofs.Cuts
import BoolScript.Script

/-!
# A message tells the error

Nothing is escaped in a message: a text, a name or what a device says may be anything, also the
words of another message. Yet no two errors have the same message (`ScriptError.message_eq_iff`).

## Shape of a message

Every message has an opening, which depends on the sort of the error alone, and the details behind
it. No opening is the beginning of another one, so it is found without knowing the details
(`ScriptError.opening_eq_of_message_eq`). The details are taken apart from the side on which an end
is known: the kinds that were required end at the first bracket, and a position behind a text begins
behind the last character that is no digit.
-/

namespace BoolScript

/-! ## Places -/

theorem Location.phrase_position (offset : Nat) :
    (position offset).phrase = "в позиции " ++ toString offset := rfl

theorem Location.phrase_endOfInput : endOfInput.phrase = "в конце файла" := rfl

theorem Location.phrase_position_ne (offset : Nat) :
    (position offset).phrase ≠ endOfInput.phrase := by
  intro h
  rw [phrase_position, phrase_endOfInput] at h
  have hlist := congrArg String.toList h
  simp at hlist

theorem Location.phrase_injective {location location' : Location}
    (h : location.phrase = location'.phrase) : location = location' := by
  cases location with
  | position offset =>
    cases location' with
    | position offset' =>
      rw [phrase_position, phrase_position, String.append_right_inj] at h
      rw [Text.toString_injective h]
    | endOfInput => exact absurd h (phrase_position_ne offset)
  | endOfInput =>
    cases location' with
    | position offset' => exact absurd h.symm (phrase_position_ne offset')
    | endOfInput => rfl

/-! ## Required kinds -/

namespace Kind

/-- The kinds behind the first one, as messages list them. -/
def listed (kinds : List Kind) : List Char :=
  kinds.flatMap fun kind => ", ".toList ++ kind.label.toList

theorem listed_cons (kind : Kind) (kinds : List Kind) :
    listed (kind :: kinds) = ", ".toList ++ (kind.label.toList ++ listed kinds) := by
  rw [listed, List.flatMap_cons, List.append_assoc]
  rfl

theorem toList_intercalate_cons (kind : Kind) (kinds : List Kind) :
    (", ".intercalate ((kind :: kinds).map label)).toList = kind.label.toList ++ listed kinds := by
  induction kinds generalizing kind with
  | nil => simp [listed]
  | cons next kinds ih =>
    rw [List.map_cons, List.map_cons, String.intercalate_cons_cons, String.toList_append,
      String.toList_append, ← List.map_cons, ih, listed_cons, List.append_assoc]

theorem isAlpha_of_mem_label {kind : Kind} : ∀ c ∈ kind.label.toList, c.isAlpha = true := by
  cases kind <;> exact List.all_eq_true.1 (by decide)

/-- A label ends where the next kind is listed, or at the end of the list. -/
theorem endsRun_listed (kinds : List Kind) : Text.EndsRun Char.isAlpha (listed kinds) := by
  cases kinds with
  | nil => exact Text.endsRun_nil _
  | cons kind kinds => exact Text.endsRun_cons (by decide) _

theorem listed_injective {kinds kinds' : List Kind} (h : listed kinds = listed kinds') :
    kinds = kinds' := by
  induction kinds generalizing kinds' with
  | nil =>
    cases kinds' with
    | nil => rfl
    | cons => simp [listed] at h
  | cons kind kinds ih =>
    cases kinds' with
    | nil => simp [listed] at h
    | cons kind' kinds' =>
      rw [listed_cons, listed_cons] at h
      obtain ⟨hlabel, hlisted⟩ := Text.run_append_inj isAlpha_of_mem_label isAlpha_of_mem_label
        (endsRun_listed kinds) (endsRun_listed kinds') (List.append_cancel_left h)
      rw [label_injective (String.toList_inj.1 hlabel), ih hlisted]

theorem intercalate_cons_ne_empty (kind : Kind) (kinds : List Kind) :
    ", ".intercalate ((kind :: kinds).map label) ≠ "" := by
  intro h
  have hlabel : kind.label.toList ≠ [] := by cases kind <;> decide
  rw [← String.toList_inj, toList_intercalate_cons] at h
  exact hlabel (List.append_eq_nil_iff.1 h).1

/-- The labels between the brackets tell the kinds. -/
theorem eq_of_intercalate_eq {kinds kinds' : List Kind}
    (h : ", ".intercalate (kinds.map label) = ", ".intercalate (kinds'.map label)) :
    kinds = kinds' := by
  cases kinds with
  | nil =>
    cases kinds' with
    | nil => rfl
    | cons kind' kinds' => exact absurd h.symm (intercalate_cons_ne_empty kind' kinds')
  | cons kind kinds =>
    cases kinds' with
    | nil => exact absurd h (intercalate_cons_ne_empty kind kinds)
    | cons kind' kinds' =>
      apply listed_injective
      rw [listed_cons, listed_cons, ← toList_intercalate_cons, ← toList_intercalate_cons, h]

theorem ne_bracket_of_mem_intercalate {kinds : List Kind} :
    ∀ c ∈ (", ".intercalate (kinds.map label)).toList, (c != ']') = true := by
  have hlabel (kind : Kind) : ∀ c ∈ kind.label.toList, (c != ']') = true := by
    cases kind <;> exact List.all_eq_true.1 (by decide)
  have hcomma : ∀ c ∈ ", ".toList, (c != ']') = true := List.all_eq_true.1 (by decide)
  cases kinds with
  | nil => simp
  | cons kind kinds =>
    rw [toList_intercalate_cons, List.forall_mem_append]
    refine ⟨hlabel kind, ?_⟩
    intro c hc
    obtain ⟨other, -, hc⟩ := List.mem_flatMap.1 hc
    rcases List.mem_append.1 hc with hc | hc
    · exact hcomma c hc
    · exact hlabel other c hc

end Kind

/-! ## Openings and details -/

namespace ScriptError

/-- What the message of an error begins with. -/
def opening : ScriptError → String
  | refused (.expected _ _) => "Ожидается ["
  | refused (.expectedOperand _) => "Ожидается число или переменная "
  | refused (.unknownCharacter _ _) => "Неизвестный символ '"
  | failed (.fault (.notBoolean _ _)) => "Значение '"
  | failed (.fault (.notAssignable _)) => "Неизвестное выражение в позиции "
  | failed (.console (.inputClosed _)) => "Ввод завершён до получения значения "
  | failed (.console (.io _)) => "Ошибка ввода-вывода: "

/-- What the message says behind its opening. -/
def details : ScriptError → String
  | refused (.expected kinds location) =>
    ", ".intercalate (kinds.map Kind.label) ++ "] " ++ location.phrase
  | refused (.expectedOperand location) => location.phrase
  | refused (.unknownCharacter text position) => text ++ "' в позиции " ++ toString position
  | failed (.fault (.notBoolean text position)) =>
    text ++ "' не является логическим в позиции " ++ toString position
  | failed (.fault (.notAssignable position)) => toString position
  | failed (.console (.inputClosed name)) => name
  | failed (.console (.io what)) => what

theorem message_eq_append (error : ScriptError) :
    error.message = error.opening ++ error.details := by
  have hassoc (opening first second third : String) :
      opening ++ first ++ second ++ third = opening ++ (first ++ second ++ third) := by
    rw [String.append_assoc, String.append_assoc, String.append_assoc]
  rcases error with (⟨kinds, location⟩ | location | ⟨text, position⟩) |
    (⟨text, position⟩ | position) | name | what
  · exact hassoc _ _ _ _
  · rfl
  · exact hassoc _ _ _ _
  · exact hassoc _ _ _ _
  · rfl
  · rfl
  · rfl

/-- The openings of all messages. -/
def openings : List String :=
  ["Ожидается [", "Ожидается число или переменная ", "Неизвестный символ '", "Значение '",
    "Неизвестное выражение в позиции ", "Ввод завершён до получения значения ",
    "Ошибка ввода-вывода: "]

theorem opening_mem_openings (error : ScriptError) : error.opening ∈ openings := by
  rcases error with (_ | _ | _) | (_ | _) | _ | _ <;> simp [opening, openings]

/-- No opening is the beginning of another one. -/
theorem eq_of_prefix_of_mem_openings :
    ∀ first ∈ openings, ∀ second ∈ openings, first.toList <+: second.toList → first = second := by
  decide

/-- The opening of a message is found without the details. -/
theorem opening_eq_of_message_eq {error other : ScriptError} (h : error.message = other.message) :
    error.opening = other.opening ∧ error.details = other.details := by
  have hlist : error.opening.toList ++ error.details.toList =
      other.opening.toList ++ other.details.toList := by
    rw [← String.toList_append, ← String.toList_append, ← message_eq_append, ← message_eq_append, h]
  have hm := opening_mem_openings error
  have hm' := opening_mem_openings other
  have ho : error.opening = other.opening := by
    rcases List.prefix_or_prefix_of_prefix ⟨_, rfl⟩ ⟨_, hlist.symm⟩ with hp | hp
    · exact eq_of_prefix_of_mem_openings _ hm _ hm' hp
    · exact (eq_of_prefix_of_mem_openings _ hm' _ hm hp).symm
  refine ⟨ho, String.toList_inj.1 ?_⟩
  rw [ho] at hlist
  exact List.append_cancel_left hlist

/-! ## Taking the details apart -/

/-- The kinds that were required end at the bracket. -/
theorem eq_of_details_expected {kinds kinds' : List Kind} {location location' : Location}
    (h : (refused (.expected kinds location)).details =
      (refused (.expected kinds' location')).details) : kinds = kinds' ∧ location = location' := by
  have hlist := congrArg String.toList h
  have hbracket : "] ".toList = [']', ' '] := by decide
  rw [details, details, String.toList_append, String.toList_append, String.toList_append,
    String.toList_append, List.append_assoc, List.append_assoc, hbracket] at hlist
  obtain ⟨hkinds, hrest⟩ := Text.run_append_inj Kind.ne_bracket_of_mem_intercalate
    Kind.ne_bracket_of_mem_intercalate (Text.endsRun_cons (by decide) _)
    (Text.endsRun_cons (by decide) _) hlist
  have hphrase : location.phrase.toList = location'.phrase.toList := by simpa using hrest
  exact ⟨Kind.eq_of_intercalate_eq (String.toList_inj.1 hkinds),
    Location.phrase_injective (String.toList_inj.1 hphrase)⟩

/-- Errors whose messages have the same opening are of one sort, and the details tell the rest. -/
theorem eq_of_details_eq {error other : ScriptError} (ho : error.opening = other.opening)
    (hd : error.details = other.details) : error = other := by
  rcases error with (⟨kinds, location⟩ | location | ⟨text, position⟩) |
    (⟨text, position⟩ | position) | name | what <;>
  rcases other with (⟨kinds', location'⟩ | location' | ⟨text', position'⟩) |
    (⟨text', position'⟩ | position') | name' | what' <;>
  -- Errors of different sorts are told apart by the openings.
  simp only [opening, String.reduceEq] at ho
  · obtain ⟨rfl, rfl⟩ := eq_of_details_expected hd
    rfl
  · rw [Location.phrase_injective hd]
  · obtain ⟨rfl, rfl⟩ := Text.append_number_inj (by decide) hd
    rfl
  · obtain ⟨rfl, rfl⟩ := Text.append_number_inj (by decide) hd
    rfl
  · rw [Text.toString_injective hd]
  · obtain rfl : name = name' := hd
    rfl
  · obtain rfl : what = what' := hd
    rfl

/-- A message tells the error. -/
theorem message_eq_iff {error other : ScriptError} :
    error.message = other.message ↔ error = other := by
  constructor
  · intro h
    obtain ⟨hopening, hdetails⟩ := opening_eq_of_message_eq h
    exact eq_of_details_eq hopening hdetails
  · intro h
    rw [h]

end ScriptError

end BoolScript
