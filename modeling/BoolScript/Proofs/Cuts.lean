/-!
# Where a part of a text ends

A text that is put together of parts need not tell where one part ends and the next one begins. It
does where a part consists of characters of one sort and no such character comes next to it: then
the text can be cut there in one way only. This holds for a part in front (`run_append_inj`), whose
end is looked for, and for a part behind (`append_run_inj`), whose beginning is, and the other part
may be any text. A number behind a space is a part of the second kind (`append_number_inj`).
-/

namespace BoolScript.Text

/-! ## Runs of characters -/

/-- No character of this sort comes next. -/
def EndsRun (sort : Char → Bool) (rest : List Char) : Prop :=
  ∀ c ∈ rest.head?, sort c = false

theorem endsRun_nil (sort : Char → Bool) : EndsRun sort [] := by
  simp [EndsRun]

theorem endsRun_cons {sort : Char → Bool} {c : Char} (h : sort c = false) (rest : List Char) :
    EndsRun sort (c :: rest) := by
  simpa [EndsRun] using h

section

variable {sort : Char → Bool} {run run' rest rest' : List Char}

theorem takeWhile_run (h : ∀ c ∈ run, sort c = true) (hr : EndsRun sort rest) :
    (run ++ rest).takeWhile sort = run := by
  rw [List.takeWhile_append_of_pos h]
  cases rest with
  | nil => simp
  | cons c rest =>
    have hc : sort c = false := hr c rfl
    rw [List.takeWhile_cons_of_neg (by simp [hc]), List.append_nil]

/-- A run in front ends where its sort of characters does. -/
theorem run_append_inj (h : ∀ c ∈ run, sort c = true) (h' : ∀ c ∈ run', sort c = true)
    (hr : EndsRun sort rest) (hr' : EndsRun sort rest') (he : run ++ rest = run' ++ rest') :
    run = run' ∧ rest = rest' := by
  have hrun : run = run' := by
    rw [← takeWhile_run h hr, he, takeWhile_run h' hr']
  subst hrun
  exact ⟨rfl, List.append_cancel_left he⟩

/-- A run behind begins where its sort of characters does. -/
theorem append_run_inj (h : ∀ c ∈ run, sort c = true) (h' : ∀ c ∈ run', sort c = true)
    (hr : EndsRun sort rest.reverse) (hr' : EndsRun sort rest'.reverse)
    (he : rest ++ run = rest' ++ run') : rest = rest' ∧ run = run' := by
  have hreverse : run.reverse ++ rest.reverse = run'.reverse ++ rest'.reverse := by
    rw [← List.reverse_append, he, List.reverse_append]
  obtain ⟨hrun, hrest⟩ := run_append_inj (by simpa using h) (by simpa using h') hr hr' hreverse
  exact ⟨List.reverse_inj.1 hrest, List.reverse_inj.1 hrun⟩

end

/-! ## Numbers -/

theorem isDigit_of_mem_toString {number : Nat} {c : Char} (h : c ∈ (toString number).toList) :
    c.isDigit = true := by
  rw [Nat.toString_eq_repr, Nat.toList_repr] at h
  exact Nat.isDigit_of_mem_toDigits (by decide) (by decide) h

/-- The digits of a number determine it. -/
theorem toString_injective {number number' : Nat} (h : toString number = toString number') :
    number = number' := by
  rw [Nat.toString_eq_ofList_toDigits, Nat.toString_eq_ofList_toDigits, String.ofList_inj] at h
  rw [← Nat.ofDigitChars_ten_toDigits (n := number), h, Nat.ofDigitChars_ten_toDigits]

/-- Whatever stands in front, a number begins behind the last space. -/
theorem append_number_inj {front front' between : String} {number number' : Nat}
    (hs : between.toList.getLast? = some ' ')
    (h : front ++ between ++ toString number = front' ++ between ++ toString number') :
    front = front' ∧ number = number' := by
  have hends (text : String) : EndsRun Char.isDigit (text ++ between).toList.reverse := by
    intro c hc
    rw [List.head?_reverse, String.toList_append, List.getLast?_append, hs] at hc
    cases hc
    rfl
  have hlist := congrArg String.toList h
  rw [String.toList_append, String.toList_append (t := toString number')] at hlist
  obtain ⟨hfront, hnumber⟩ := append_run_inj (fun _ => isDigit_of_mem_toString)
    (fun _ => isDigit_of_mem_toString) (hends front) (hends front') hlist
  exact ⟨(String.append_left_inj between).1 (String.toList_inj.1 hfront),
    toString_injective (String.toList_inj.1 hnumber)⟩

end BoolScript.Text
