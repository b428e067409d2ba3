import BoolScript.Console.Basic
import BoolScript.Proofs.Lines
import Mathlib.Data.List.Induction

/-!
# Carriage returns before line feeds

Some systems end their lines with a line feed, and some put a carriage return before it.
`Text.withReturns` takes bytes from the first style to the second, by giving every line feed a
carriage return of its own, whatever stands before it. Lines are cut at the same places in both
styles, and a line stands for the same answer, or fails to be a text, in both
(`Input.IsRestyled.readLine`).

## Shape of the proof

The end of the first line is found by induction on the bytes. For its text the other direction is
needed: the byte of a character that is a byte long ends a text exactly if the text before it is a
text and the character stands behind it (`Text.decode?_append_byte`), so line ends can be taken off
a text from behind, one at a time.
-/

namespace BoolScript

namespace Text

/-- The byte before a line feed in the style with two bytes. -/
def carriageReturn : UInt8 := 13

/-- The bytes with a carriage return before every line feed. -/
def withReturns (bytes : List UInt8) : List UInt8 :=
  bytes.flatMap fun byte => if byte = lineFeed then [carriageReturn, lineFeed] else [byte]

/-- A carriage return that is there already is kept. -/
example : withReturns (encode "no\r\n\nyes") = encode "no\r\r\n\r\nyes" := by decide

@[simp] theorem withReturns_nil : withReturns [] = [] := rfl

theorem withReturns_append (bytes more : List UInt8) :
    withReturns (bytes ++ more) = withReturns bytes ++ withReturns more :=
  List.flatMap_append

theorem withReturns_cons (byte : UInt8) (rest : List UInt8) : withReturns (byte :: rest) =
    (if byte = lineFeed then [carriageReturn, lineFeed] else [byte]) ++ withReturns rest := rfl

theorem withReturns_eq_nil_iff {bytes : List UInt8} : withReturns bytes = [] ↔ bytes = [] := by
  cases bytes with
  | nil => simp
  | cons byte rest =>
    rw [withReturns_cons]
    split <;> simp

/-- Where no line ends, nothing is changed. -/
theorem withReturns_of_notMem {bytes : List UInt8} (h : lineFeed ∉ bytes) :
    withReturns bytes = bytes := by
  induction bytes with
  | nil => rfl
  | cons byte rest ih =>
    have hb : byte ≠ lineFeed := fun hb => h (by simp [hb])
    have hr : lineFeed ∉ rest := fun hr => h (List.mem_cons_of_mem _ hr)
    rw [withReturns_cons, if_neg hb, ih hr, List.singleton_append]

/-! ## Lines -/

/-- The first line is cut off at the same line feed. -/
theorem splitLine_withReturns (bytes : List UInt8) : splitLine (withReturns bytes) =
    (withReturns (splitLine bytes).1, withReturns (splitLine bytes).2) := by
  induction bytes with
  | nil => rfl
  | cons byte rest ih =>
    rw [withReturns_cons, splitLine_cons]
    by_cases hb : byte = lineFeed
    · have hreturn : carriageReturn ≠ lineFeed := by decide
      rw [if_pos hb, if_pos hb]
      show splitLine (carriageReturn :: lineFeed :: withReturns rest) = _
      rw [splitLine_cons, if_neg hreturn, splitLine_cons, if_pos rfl, hb]
      rfl
    · rw [if_neg hb, if_neg hb, List.singleton_append, splitLine_cons, if_neg hb, ih,
        withReturns_cons, if_neg hb, List.singleton_append]

theorem isFinished_withReturns (line : List UInt8) :
    isFinished (withReturns line) = isFinished line := by
  induction line using List.reverseRecOn with
  | nil => rfl
  | append_singleton front last _ =>
    rw [withReturns_append, withReturns_cons, withReturns_nil, List.append_nil]
    unfold isFinished
    by_cases hl : last = lineFeed
    · rw [if_pos hl, hl, List.getLast?_concat]
      simp
    · rw [if_neg hl, List.getLast?_concat, List.getLast?_concat]

/-- The first line has no line feed inside. -/
theorem splitLine_fst_cases (bytes : List UInt8) :
    lineFeed ∉ (splitLine bytes).1 ∨
      ∃ body, lineFeed ∉ body ∧ (splitLine bytes).1 = body ++ [lineFeed] := by
  induction bytes with
  | nil => exact .inl List.not_mem_nil
  | cons byte rest ih =>
    rw [splitLine_cons]
    by_cases hb : byte = lineFeed
    · rw [if_pos hb, hb]
      exact .inr ⟨[], List.not_mem_nil, rfl⟩
    · rw [if_neg hb]
      rcases ih with h | ⟨body, h, hl⟩
      · exact .inl fun hm => (List.mem_cons.1 hm).elim (fun he => hb he.symm) h
      · refine .inr ⟨byte :: body, fun hm => (List.mem_cons.1 hm).elim (fun he => hb he.symm) h, ?_⟩
        rw [hl, List.cons_append]

/-! ## The last character of a text -/

section

variable {c : Char} (hc : c.utf8Size = 1)

include hc

theorem encode_push (text : String) : encode (text.push c) = encode text ++ [c.val.toUInt8] := by
  simp [encode, String.toByteArray_push, List.utf8Encode_singleton,
    String.utf8EncodeChar_eq_singleton hc]

/-- Only the character itself ends with its byte. -/
theorem eq_of_utf8EncodeChar {last : Char} {front : List UInt8}
    (h : String.utf8EncodeChar last = front ++ [c.val.toUInt8]) : front = [] ∧ last = c := by
  have hbyte := String.utf8EncodeChar_eq_singleton hc
  have hfirst : c.val.toUInt8.IsUTF8FirstByte := by
    have h0 := UInt8.isUTF8FirstByte_getElem_zero_utf8EncodeChar (c := c)
    simpa only [hbyte, List.getElem_singleton] using h0
  have hlength : front.length < (String.utf8EncodeChar last).length := by simp [h]
  -- the bytes of a character behind its first one are of another kind
  have hfront : front = [] := by
    have hget : (String.utf8EncodeChar last)[front.length] = c.val.toUInt8 := by simp [h]
    rw [← hget, UInt8.isUTF8FirstByte_getElem_utf8EncodeChar] at hfirst
    exact List.length_eq_zero_iff.1 hfirst
  refine ⟨hfront, ?_⟩
  rw [hfront, List.nil_append, ← hbyte] at h
  have hencode : encode (String.singleton last) = encode (String.singleton c) := by
    simp [encode, List.utf8Encode_singleton, h]
  simpa using congrArg String.toList (encode_injective hencode)

/-- A text that ends with the byte of the character ends with the character. -/
theorem exists_push_of_encode {text : String} {bytes : List UInt8}
    (h : encode text = bytes ++ [c.val.toUInt8]) :
    ∃ front, text = front.push c ∧ encode front = bytes := by
  rcases List.eq_nil_or_concat text.toList with hl | ⟨chars, last, hl⟩
  · rw [String.toList_eq_nil_iff.1 hl, encode_empty] at h
    simp at h
  · let front := String.ofList chars
    have htext : text = front ++ String.singleton last := by
      apply String.toList_injective
      simp [front, hl]
    have hencode : encode text = encode front ++ String.utf8EncodeChar last := by
      rw [htext, encode_append]
      simp [encode, List.utf8Encode_singleton]
    obtain ⟨before, byte, hlast⟩ :=
      (List.eq_nil_or_concat _).resolve_left (String.utf8EncodeChar_ne_nil (c := last))
    rw [List.concat_eq_append] at hlast
    rw [hencode, hlast, ← List.append_assoc] at h
    obtain ⟨hbytes, hbyte⟩ := List.append_inj' h rfl
    rw [hbyte] at hlast
    obtain ⟨rfl, rfl⟩ := eq_of_utf8EncodeChar hc hlast
    rw [List.append_nil] at hbytes
    exact ⟨front, htext.trans String.append_singleton, hbytes⟩

/-- The byte of the character makes no other bytes a text than those that are one without it. -/
theorem decode?_append_byte (bytes : List UInt8) :
    decode? (bytes ++ [c.val.toUInt8]) = (decode? bytes).map (·.push c) := by
  cases hd : decode? bytes with
  | some text =>
    rw [Option.map_some, decode?_eq_some_iff, encode_push hc, decode?_eq_some_iff.1 hd]
  | none =>
    rw [Option.map_none, Option.eq_none_iff_forall_ne_some]
    intro text ht
    obtain ⟨front, -, hf⟩ := exists_push_of_encode hc (decode?_eq_some_iff.1 ht)
    rw [decode?_eq_some_iff.2 hf] at hd
    cases hd

end

/-! ## Answers -/

/-- What a line stands for, if it is a text. -/
theorem map_answer_withReturns (bytes : List UInt8) :
    (decode? (withReturns (splitLine bytes).1)).map Console.answer =
      (decode? (splitLine bytes).1).map Console.answer := by
  rcases splitLine_fst_cases bytes with h | ⟨body, h, hl⟩
  · rw [withReturns_of_notMem h]
  · have hfeed (front : List UInt8) :
        decode? (front ++ [lineFeed]) = (decode? front).map (·.push '\n') :=
      decode?_append_byte (c := '\n') rfl front
    have hreturn (front : List UInt8) :
        decode? (front ++ [carriageReturn]) = (decode? front).map (·.push '\r') :=
      decode?_append_byte (c := '\r') rfl front
    have hpush (c : Char) (hb : isLineBreak c = true) :
        Console.answer ∘ (fun text => text.push c) = Console.answer :=
      funext fun _ => congrArg isTrue (dropLineEnd_push hb)
    have hline : withReturns (body ++ [lineFeed]) = (body ++ [carriageReturn]) ++ [lineFeed] := by
      rw [withReturns_append, withReturns_of_notMem h, List.append_assoc]
      rfl
    rw [hl, hline, hfeed, hfeed, Option.map_map, Option.map_map, hpush '\n' rfl, hreturn,
      Option.map_map, hpush '\r' rfl]

end Text

/-! ## Inputs -/

namespace Input

/-- The second input is the first one in the style with two bytes, and has been read to the same
place. All bytes are those of the first input, read or not. -/
structure IsRestyled (bytes : List UInt8) (input other : Input) : Prop where
  pending : other.pending = Text.withReturns input.pending
  fails : other.fails = input.fails
  read : ∃ read, bytes = read ++ input.pending ∧ input.consumed = read.length ∧
    other.consumed = (Text.withReturns read).length

theorem isRestyled_start (bytes : List UInt8) (fails : Bool) :
    IsRestyled bytes ⟨bytes, 0, fails⟩ ⟨Text.withReturns bytes, 0, fails⟩ :=
  ⟨rfl, rfl, [], rfl, rfl, rfl⟩

variable {bytes : List UInt8} {input other : Input}

/-- What is gone of the second input is what is gone of the first one, in the other style. -/
theorem IsRestyled.take_consumed (h : IsRestyled bytes input other) :
    input.consumed ≤ bytes.length ∧ other.consumed ≤ (Text.withReturns bytes).length ∧
      (Text.withReturns bytes).take other.consumed =
        Text.withReturns (bytes.take input.consumed) := by
  obtain ⟨read, rfl, hc, ho⟩ := h.read
  rw [hc, ho, Text.withReturns_append, List.take_left, List.take_left, List.length_append,
    List.length_append]
  exact ⟨Nat.le_add_right _ _, Nat.le_add_right _ _, rfl⟩

/-- The answer that a line stands for, told by what matters of the line. -/
theorem map_answer_readLine (input : Input) :
    input.readLine.1.map (·.map Console.answer) =
      let line := (Text.splitLine input.pending).1
      if input.fails && !Text.isFinished line then .error .inputBroken
      else if line = [] then .ok none
      else ((Text.decode? line).map Console.answer).elim (.error .notText) (.ok ∘ some) := by
  simp only [readLine, List.isEmpty_iff]
  split
  · rfl
  · split
    · rfl
    · cases Text.decode? (Text.splitLine input.pending).1 <;> rfl

/-- Both inputs have the same line next: a text with the same answer, no text, or none. -/
theorem IsRestyled.readLine (h : IsRestyled bytes input other) :
    other.readLine.1.map (·.map Console.answer) = input.readLine.1.map (·.map Console.answer) ∧
      IsRestyled bytes input.readLine.2 other.readLine.2 := by
  have hsplit := Text.splitLine_withReturns input.pending
  rw [← h.pending] at hsplit
  constructor
  · rw [map_answer_readLine, map_answer_readLine, h.fails, hsplit]
    simp only [Text.isFinished_withReturns, Text.withReturns_eq_nil_iff,
      Text.map_answer_withReturns]
  · obtain ⟨read, hb, hc, ho⟩ := h.read
    refine ⟨congrArg Prod.snd hsplit, h.fails, read ++ (Text.splitLine input.pending).1, ?_, ?_, ?_⟩
    · rw [hb, List.append_assoc]
      exact congrArg (read ++ ·) (Text.splitLine_append input.pending).symm
    · rw [List.length_append, ← hc]
      rfl
    · rw [Text.withReturns_append, List.length_append, ← ho]
      exact congrArg (other.consumed + ·.1.length) hsplit

end Input

end BoolScript
