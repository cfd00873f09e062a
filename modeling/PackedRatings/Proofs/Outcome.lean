import PackedRatings.Requirement

/-!
# Success and refusal of composed operations

A composed operation succeeds exactly when each of its steps does. It refuses nothing but the
contents of a file if none of its steps refuses anything else.
-/
namespace PackedRatings

variable {ε : Type u} {α : Type v} {β : Type v}

theorem bind_eq_ok_iff {x : Except ε α} {f : α → Except ε β} {b : β} :
    (x >>= f) = .ok b ↔ ∃ a, x = .ok a ∧ f a = .ok b := by
  cases x with
  | ok a => simp [bind, Except.bind]
  | error e => simp [bind, Except.bind]

theorem pure_eq_ok_iff {a b : α} : (pure a : Except ε α) = .ok b ↔ a = b := by
  simp [pure, Except.pure]

theorem map_eq_ok_iff {x : Except ε α} {f : α → β} {b : β} :
    x.map f = .ok b ↔ ∃ a, x = .ok a ∧ f a = b := by
  cases x with
  | ok a => simp [Except.map]
  | error e => simp [Except.map]

theorem toOption_eq_some_iff {x : Except ε α} {a : α} : x.toOption = some a ↔ x = .ok a := by
  cases x with
  | ok a => simp [Except.toOption]
  | error e => simp [Except.toOption]

theorem Requirement.check_eq_ok_iff {requirement : Requirement} {p : Prop} [Decidable p]
    {u : Unit} : requirement.check p = .ok u ↔ p := by
  by_cases hp : p
  · simp [check, hp]
  · simp [check, hp]

/-- Every refusal of `x` is a complaint about the contents of a file. -/
def RefusesFormatOnly (x : Except Failure α) : Prop :=
  ∀ failure, x = .error failure → ∃ element message, failure = .invalidFormat element message

namespace RefusesFormatOnly

theorem ok (a : α) : RefusesFormatOnly (.ok a) := by
  intro failure h
  cases h

theorem error (element message : String) :
    RefusesFormatOnly (.error (.invalidFormat element message) : Except Failure α) := by
  intro failure h
  cases h
  exact ⟨element, message, rfl⟩

theorem bind {x : Except Failure α} {f : α → Except Failure β} (hx : RefusesFormatOnly x)
    (hf : ∀ a, x = .ok a → RefusesFormatOnly (f a)) : RefusesFormatOnly (x >>= f) := by
  cases x with
  | ok a => exact hf a rfl
  | error e =>
    intro failure h
    cases h
    exact hx e rfl

theorem mapError (x : Except ε α) {f : ε → Failure}
    (hf : ∀ e, ∃ element message, f e = .invalidFormat element message) :
    RefusesFormatOnly (x.mapError f) := by
  cases x with
  | ok a => exact ok a
  | error e =>
    intro failure h
    cases h
    exact hf e

/-- A requirement that guards data complains about the data. -/
theorem failure {requirement : Requirement} (h : requirement.clause.1 = .data) :
    RefusesFormatOnly (.error requirement.failure : Except Failure α) := by
  have hfailure : requirement.failure =
      .invalidFormat (unquoted requirement.clause.2.1) s!"expected {requirement.clause.2.2}" := by
    change requirement.clause.1.failure _ _ = _
    rw [h]
    rfl
  rw [hfailure]
  exact error _ _

theorem check {requirement : Requirement} {p : Prop} [Decidable p]
    (h : requirement.clause.1 = .data) : RefusesFormatOnly (requirement.check p) := by
  rw [Requirement.check]
  split
  · exact ok ()
  · exact failure h

end RefusesFormatOnly

end PackedRatings
