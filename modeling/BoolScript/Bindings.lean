/-!
# Bindings

The variables that have a value, each with its value. A name has at most one entry, so bindings are
told apart by `get?` alone up to the order of their entries.
-/

namespace BoolScript

/-- A finite assignment of truth values to names. -/
structure Bindings where
  /-- The names and their values, the latest first. -/
  entries : List (String × Bool)
  /-- No name has two values. -/
  nodup : (entries.map Prod.fst).Nodup
  deriving DecidableEq, Repr

namespace Bindings

/-- No name has a value. -/
def empty : Bindings :=
  ⟨[], .nil⟩

instance : Inhabited Bindings :=
  ⟨empty⟩

/-- The value of a name, if it has one. -/
def get? (bindings : Bindings) (name : String) : Option Bool :=
  bindings.entries.lookup name

/-- The entries without the one of a name. -/
private def without (entries : List (String × Bool)) (name : String) : List (String × Bool) :=
  entries.filter fun entry => entry.1 != name

private theorem nodup_without {entries : List (String × Bool)} (name : String)
    (h : (entries.map Prod.fst).Nodup) : ((without entries name).map Prod.fst).Nodup :=
  (List.filter_sublist.map Prod.fst).nodup h

private theorem lookup_without_self (entries : List (String × Bool)) (name : String) :
    (without entries name).lookup name = none := by
  rw [List.lookup_eq_none_iff]
  intro entry h
  have : entry.1 ≠ name := by simpa using (List.mem_filter.1 h).2
  simpa using this.symm

private theorem lookup_without_of_ne {name other : String} (entries : List (String × Bool))
    (h : other ≠ name) : (without entries name).lookup other = entries.lookup other := by
  induction entries with
  | nil => rfl
  | cons entry entries ih =>
    obtain ⟨key, value⟩ := entry
    unfold without at ih ⊢
    rw [List.filter_cons]
    split
    · rw [List.lookup_cons, List.lookup_cons, ih]
    · next hk =>
      have : (other == key) = false := by simp_all
      rw [List.lookup_cons, this, ih]

/-- The bindings with a value for a name, in place of the one it had. -/
def insert (bindings : Bindings) (name : String) (value : Bool) : Bindings where
  entries := (name, value) :: without bindings.entries name
  nodup := by
    refine List.nodup_cons.2 ⟨?_, nodup_without name bindings.nodup⟩
    simp [without]

/-- The bindings without a value for a name. -/
def erase (bindings : Bindings) (name : String) : Bindings where
  entries := without bindings.entries name
  nodup := nodup_without name bindings.nodup

/-! ## What a change does to the values -/

@[simp] theorem get?_empty (name : String) : empty.get? name = none := rfl

theorem get?_insert (bindings : Bindings) (name other : String) (value : Bool) :
    (bindings.insert name value).get? other =
      if other = name then some value else bindings.get? other := by
  unfold get? insert
  split
  · next h => simp [h]
  · next h =>
    have : (other == name) = false := by simpa using h
    rw [List.lookup_cons, this, lookup_without_of_ne _ h]

/-- A name that has a value has one when any name is given a value. -/
theorem isSome_get?_insert {bindings : Bindings} {other : String}
    (h : (bindings.get? other).isSome) (name : String) (value : Bool) :
    ((bindings.insert name value).get? other).isSome := by
  rw [get?_insert]
  split
  · rfl
  · exact h

theorem get?_erase (bindings : Bindings) (name other : String) :
    (bindings.erase name).get? other = if other = name then none else bindings.get? other := by
  unfold get? erase
  split
  · next h => simp [h, lookup_without_self]
  · next h => simp [lookup_without_of_ne _ h]

end Bindings

end BoolScript
