/-!
# Results that may be errors

What it takes for one step after the other to succeed, and for two ways of steps to end alike.
-/

namespace SceneCode

variable {ε α β : Type}

theorem bind_eq_ok {x : Except ε α} {f : α → Except ε β} {b : β} :
    x >>= f = .ok b ↔ ∃ a, x = .ok a ∧ f a = .ok b := by
  cases x with
  | error e => simp [bind, Except.bind]
  | ok a => simp [bind, Except.bind]

theorem pure_eq_ok {a b : α} : (pure a : Except ε α) = .ok b ↔ b = a := by
  simp [pure, Except.pure, eq_comm]

theorem map_eq_ok {x : Except ε α} {f : α → β} {b : β} :
    x.map f = .ok b ↔ ∃ a, x = .ok a ∧ b = f a := by
  cases x with
  | error e => simp [Except.map]
  | ok a => simp [Except.map, eq_comm]

/-- Both results are the same value, or both are errors, which may differ as the relation says. -/
inductive EndAlike (R : ε → ε → Prop) : Except ε α → Except ε α → Prop where
  | ok (a : α) : EndAlike R (.ok a) (.ok a)
  | error {e e' : ε} (h : R e e') : EndAlike R (.error e) (.error e')

namespace EndAlike

variable {R : ε → ε → Prop} {x y : Except ε α}

theorem refl (hR : ∀ e, R e e) (x : Except ε α) : EndAlike R x x := by
  cases x with
  | error e => exact .error (hR e)
  | ok a => exact .ok a

theorem bind {f g : α → Except ε β} (h : EndAlike R x y) (hf : ∀ a, EndAlike R (f a) (g a)) :
    EndAlike R (x >>= f) (y >>= g) := by
  cases h with
  | ok a => exact hf a
  | error h => exact .error h

theorem map (f : α → β) (h : EndAlike R x y) : EndAlike R (x.map f) (y.map f) := by
  cases h with
  | ok a => exact .ok (f a)
  | error h => exact .error h

theorem eq_ok {a : α} (h : EndAlike R x y) (hx : x = .ok a) : y = .ok a := by
  cases h with
  | ok b => exact hx
  | error h => cases hx

end EndAlike

end SceneCode
