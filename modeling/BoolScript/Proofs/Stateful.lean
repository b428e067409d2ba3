/-!
# Computations that keep their state when they fail

Reading tokens, tasks at the console and runs in a session are all of one kind: each takes a state
to an answer or an error, and to a state after it. These lemmas say when a sequence of two such
computations answers and when it fails, whatever the states are. Two computations that end alike may
leave their states in some relation (`SameEnd`), and sequences of such computations do so too.
-/

namespace BoolScript

variable {ε σ α β : Type} {task other : EStateM ε σ α} {next : α → EStateM ε σ β} {before after : σ}

/-- A sequence answers if both of its parts do. -/
theorem bind_eq_ok_iff {answer : β} :
    (task >>= next) before = .ok answer after ↔
      ∃ first middle, task before = .ok first middle ∧ next first middle = .ok answer after := by
  simp only [Bind.bind, EStateM.bind]
  cases h : task before with
  | ok first middle =>
    constructor
    · exact fun hn => ⟨first, middle, rfl, hn⟩
    · rintro ⟨_, _, he, hn⟩
      cases he
      exact hn
  | error error middle => simp

theorem bind_of_ok {first : α} {middle : σ} (h : task before = .ok first middle) :
    (task >>= next) before = next first middle := by
  simp only [Bind.bind, EStateM.bind, h]

theorem bind_of_error {error : ε} (h : task before = .error error after) :
    (task >>= next) before = .error error after := by
  simp only [Bind.bind, EStateM.bind, h]

/-- A sequence fails if its first part does, or the second one behind an answer of the first. -/
theorem bind_eq_error_iff {error : ε} :
    (task >>= next) before = .error error after ↔ task before = .error error after ∨
      ∃ first middle, task before = .ok first middle ∧ next first middle = .error error after := by
  simp only [Bind.bind, EStateM.bind]
  cases h : task before with
  | ok first middle =>
    constructor
    · exact fun hn => .inr ⟨first, middle, rfl, hn⟩
    · rintro (he | ⟨_, _, he, hn⟩)
      · cases he
      · cases he
        exact hn
  | error error middle => simp

/-- What goes on behind a computation depends on its outcome alone. -/
theorem bind_congr_apply {before' : σ} (h : task before = other before') :
    (task >>= next) before = (other >>= next) before' := by
  simp only [Bind.bind, EStateM.bind, h]

/-- What goes on behind a computation matters only where the computation answers. -/
theorem bind_congr_of_ok {next' : α → EStateM ε σ β}
    (h : ∀ first middle, task before = .ok first middle → next first middle = next' first middle) :
    (task >>= next) before = (task >>= next') before := by
  cases ht : task before with
  | ok first middle =>
    rw [bind_of_ok ht, bind_of_ok ht]
    exact h first middle ht
  | error error middle => rw [bind_of_error ht, bind_of_error ht]

theorem get_bind_apply (next : σ → EStateM ε σ β) (before : σ) :
    (get >>= next) before = next before before := rfl

theorem pure_eq_ok_iff {value answer : α} :
    (pure value : EStateM ε σ α) before = .ok answer after ↔ value = answer ∧ before = after := by
  change EStateM.Result.ok value before = .ok answer after ↔ _
  simp

/-! ## Results compared -/

/-- The same result with another state. -/
def mapState {ε σ τ α : Type} (f : σ → τ) : EStateM.Result ε σ α → EStateM.Result ε τ α
  | .ok answer state => .ok answer (f state)
  | .error error state => .error error (f state)

/-- A sequence carries a change of its state along if both of its parts do. -/
theorem bind_mapState {f : σ → σ} (h : task (f before) = mapState f (task before))
    (hn : ∀ value middle, task before = .ok value middle →
      next value (f middle) = mapState f (next value middle)) :
    (task >>= next) (f before) = mapState f ((task >>= next) before) := by
  cases ht : task before with
  | ok value middle =>
    rw [ht] at h
    rw [bind_of_ok ht, bind_of_ok h]
    exact hn value middle ht
  | error error after =>
    rw [ht] at h
    rw [bind_of_error ht, bind_of_error h]
    rfl

variable {R : σ → σ → Prop}

/-- Results with the same value or the same error, in states in this relation. -/
inductive SameEnd (R : σ → σ → Prop) :
    EStateM.Result ε σ α → EStateM.Result ε σ α → Prop where
  | ok {value : α} {after other : σ} (h : R after other) :
    SameEnd R (.ok value after) (.ok value other)
  | error {error : ε} {after other : σ} (h : R after other) :
    SameEnd R (.error error after) (.error error other)

theorem SameEnd.of_ok {value : α} {after : σ} {result : EStateM.Result ε σ α}
    (h : SameEnd R (.ok value after) result) :
    ∃ other, result = .ok value other ∧ R after other := by
  cases h with
  | ok h => exact ⟨_, rfl, h⟩

theorem SameEnd.of_error {error : ε} {after : σ} {result : EStateM.Result ε σ α}
    (h : SameEnd R (.error error after) result) :
    ∃ other, result = .error error other ∧ R after other := by
  cases h with
  | error h => exact ⟨_, rfl, h⟩

/-- What goes on behind a value goes on in both states. -/
theorem SameEnd.bind {task : EStateM ε σ α} {next : α → EStateM ε σ β} {before before' : σ}
    (h : SameEnd R (task before) (task before'))
    (hn : ∀ value middle middle', R middle middle' →
      SameEnd R (next value middle) (next value middle')) :
    SameEnd R ((task >>= next) before) ((task >>= next) before') := by
  cases ht : task before with
  | ok value middle =>
    rw [ht] at h
    obtain ⟨middle', ht', hm⟩ := h.of_ok
    rw [bind_of_ok ht, bind_of_ok ht']
    exact hn value middle middle' hm
  | error error after =>
    rw [ht] at h
    obtain ⟨after', ht', ha⟩ := h.of_error
    rw [bind_of_error ht, bind_of_error ht']
    exact .error ha

end BoolScript
