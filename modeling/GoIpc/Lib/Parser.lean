import Mathlib.Init

namespace GoIpc.Lib

/-!
# Parsers over a token list

A parser consumes a prefix of a list of tokens `τ`, or fails with an error `ε`.

* `bind_eq_ok` — a sequence accepts when its parts do, one after the other;
* `Runs` — what holds of the value and of the rest of the tokens when a parser accepts, with a condition
  on its errors; `Runs.bind` chains it.
-/

/-- Both computations succeed. -/
theorem except_bind_eq_ok {ε α β : Type} {x : Except ε α} {f : α → Except ε β} {b : β} :
    (x >>= f) = .ok b ↔ ∃ a, x = .ok a ∧ f a = .ok b := by
  cases x <;> simp [bind, Except.bind]

/-- One of the two fails, and no other before it. -/
theorem except_bind_eq_error {ε α β : Type} {x : Except ε α} {f : α → Except ε β} {e : ε} :
    (x >>= f) = .error e ↔ x = .error e ∨ ∃ a, x = .ok a ∧ f a = .error e := by
  cases x <;> simp [bind, Except.bind]

/-- The state is what is left of the tokens. -/
abbrev Parser (τ ε : Type) := StateT (List τ) (Except ε)

namespace Parser

variable {τ ε α β : Type} {p : Parser τ ε α} {f : α → Parser τ ε β} {ts : List τ}

/-- The second parser begins where the first has stopped. -/
theorem bind_apply (p : Parser τ ε α) (f : α → Parser τ ε β) (ts : List τ) :
    (p >>= f) ts = match p ts with
      | .ok (a, rest) => f a rest
      | .error e => .error e := by
  show (p ts >>= fun x => f x.1 x.2) = _
  cases p ts <;> rfl

/-- A sequence accepts when its parts do. -/
theorem bind_eq_ok {r : β × List τ} :
    (p >>= f) ts = .ok r ↔ ∃ a rest, p ts = .ok (a, rest) ∧ f a rest = .ok r := by
  rw [bind_apply]
  cases p ts with
  | error e => simp
  | ok x =>
    constructor
    · exact fun h => ⟨x.1, x.2, rfl, h⟩
    · rintro ⟨a, rest, hx, h⟩
      cases hx
      exact h

/-- `pure` takes no token. -/
theorem pure_eq_ok {a : α} {r : α × List τ} :
    (pure a : Parser τ ε α) ts = .ok r ↔ r = (a, ts) := by
  show Except.ok (a, ts) = .ok r ↔ _
  rw [Except.ok.injEq, eq_comm]

/-- `throw` accepts nothing. -/
theorem throw_eq_ok {e : ε} {r : α × List τ} : (throw e : Parser τ ε α) ts = .ok r ↔ False := by
  show Except.error e = .ok r ↔ False
  simp

/-- `p` on `ts` accepts with `Q`, or fails with an error that is `good`. -/
def Runs (good : ε → Prop) (p : Parser τ ε α) (ts : List τ) (Q : α → List τ → Prop) : Prop :=
  match p ts with
  | .ok (a, rest) => Q a rest
  | .error e => good e

variable {good : ε → Prop} {Q R : α → List τ → Prop} {S : β → List τ → Prop}

/-- A parser that accepts has kept its promise. -/
theorem Runs.of_ok (h : Runs good p ts Q) {a : α} {rest : List τ} (hok : p ts = .ok (a, rest)) :
    Q a rest := by
  rwa [Runs, hok] at h

/-- Its errors are good ones. -/
theorem Runs.of_error (h : Runs good p ts Q) {e : ε} (herr : p ts = .error e) : good e := by
  rwa [Runs, herr] at h

/-- What the first parser promises is what the second may expect. -/
theorem Runs.bind (h : Runs good p ts Q) (hf : ∀ a rest, Q a rest → Runs good (f a) rest S) :
    Runs good (p >>= f) ts S := by
  unfold Runs at h ⊢
  rw [bind_apply]
  split at h
  · next a rest hok => exact hf _ _ h
  · exact h

theorem Runs.pure {a : α} (h : Q a ts) : Runs good (pure a) ts Q := h

theorem Runs.throw {e : ε} (h : good e) : Runs good (throw e : Parser τ ε α) ts Q := h

end Parser

end GoIpc.Lib
