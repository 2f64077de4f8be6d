/-!
# Outcomes of steps that may fail

A computation that may fail is put together from steps, and goes on only after a step that has
succeeded. So whoever knows that the whole has succeeded knows it of each step
(`BranchFusion.ok_of_bind`, `BranchFusion.map_eq_ok`), and a failure of the whole is the failure of
one step after others that have succeeded (`BranchFusion.error_of_bind`,
`BranchFusion.map_eq_error`).
-/

namespace BranchFusion

variable {ε α β : Type}

/-- If a step and what follows it succeed, then the step succeeds, and so does what follows it from
its result. -/
theorem ok_of_bind {x : Except ε α} {f : α → Except ε β} {y : β} (h : x >>= f = .ok y) :
    ∃ a, x = .ok a ∧ f a = .ok y := by
  cases x with
  | ok a => exact ⟨a, rfl, h⟩
  | error e => exact absurd h (by simp [bind, Except.bind])

/-- If the whole fails, then the step fails, or it succeeds and what follows it fails. -/
theorem error_of_bind {x : Except ε α} {f : α → Except ε β} {e : ε} (h : x >>= f = .error e) :
    x = .error e ∨ ∃ a, x = .ok a ∧ f a = .error e := by
  cases x with
  | ok a => exact .inr ⟨a, rfl, h⟩
  | error e' => exact .inl (by simpa [bind, Except.bind] using h)

/-- A result that is only mapped is there if what is mapped is there. -/
theorem map_eq_ok {x : Except ε α} {f : α → β} {y : β} :
    x.map f = .ok y ↔ ∃ a, x = .ok a ∧ f a = y := by
  cases x with
  | ok a => simp [Except.map]
  | error e => simp [Except.map]

/-- A failure is not touched by what is mapped over the results. -/
theorem map_eq_error {x : Except ε α} {f : α → β} {e : ε} : x.map f = .error e ↔ x = .error e := by
  cases x with
  | ok a => simp [Except.map]
  | error e' => simp [Except.map]

theorem ok_of_toOption {x : Except ε α} {a : α} (h : x.toOption = some a) : x = .ok a := by
  cases x with
  | ok b => exact congrArg Except.ok (Option.some.inj h)
  | error e => exact absurd h (by simp [Except.toOption])

end BranchFusion
