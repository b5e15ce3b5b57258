import Mathlib.Data.List.Basic

namespace GoIpc.Lib

/-!
# Labelled machines and their runs

A machine is a start state and a partial step function: `step s a = none` means that the
action `a` is not enabled in `s`.  All the concurrent parts of the development are machines
whose actions name the party that moves, so a list of actions is an interleaving.

* `Machine.run` — the state an interleaving leads to;
* `Machine.Reach ok` — the states reached by runs whose every step meets `ok`, a condition on
  the state before the step and on the action;
* `Reach.invariant` — the induction rule every invariant of the development goes through.
-/

variable {σ α : Type}

/-- A start state and a partial, deterministic step for every action. -/
structure Machine (σ α : Type) where
  init : σ
  step : σ → α → Option σ

namespace Machine

/-- Run a list of actions one after another. -/
def run (m : Machine σ α) (s : σ) : List α → Option σ
  | [] => some s
  | a :: as => (m.step s a).bind (fun t => m.run t as)

/-- The states reached by runs whose steps all meet `ok`. -/
inductive Reach (m : Machine σ α) (ok : σ → α → Prop) : σ → Prop
  | init : Reach m ok m.init
  | step {s t : σ} {a : α} : Reach m ok s → ok s a → m.step s a = some t → Reach m ok t

variable {m : Machine σ α} {ok ok' : σ → α → Prop}

@[simp] theorem run_nil (s : σ) : m.run s [] = some s := rfl

theorem run_cons {s t : σ} {a : α} (h : m.step s a = some t) (as : List α) :
    m.run s (a :: as) = m.run t as := by
  rw [run, h]
  rfl

theorem run_append (s : σ) (as bs : List α) :
    m.run s (as ++ bs) = (m.run s as).bind (fun t => m.run t bs) := by
  induction as generalizing s with
  | nil => rfl
  | cons a as ih =>
    simp only [List.cons_append, run]
    cases m.step s a with
    | none => rfl
    | some t => exact ih t

/-- **Invariance.** What holds at the start and is kept by every step that meets `ok` holds in
    every state reached through such steps. -/
theorem Reach.invariant {I : σ → Prop} (h0 : I m.init)
    (hstep : ∀ s t a, I s → ok s a → m.step s a = some t → I t)
    {s : σ} (h : m.Reach ok s) : I s := by
  induction h with
  | init => exact h0
  | step _ hok ht ih => exact hstep _ _ _ ih hok ht

/-- A weaker condition on the steps reaches more states. -/
theorem Reach.mono (himp : ∀ s a, ok s a → ok' s a) {s : σ} (h : m.Reach ok s) :
    m.Reach ok' s := by
  induction h with
  | init => exact .init
  | step _ hok ht ih => exact .step ih (himp _ _ hok) ht

/-- A run checked step by step: every step is enabled and meets the decidable condition `p`. -/
def runOk (m : Machine σ α) (p : σ → α → Bool) (s : σ) : List α → Option σ
  | [] => some s
  | a :: as => if p s a then (m.step s a).bind (fun t => m.runOk p t as) else none

/-- A checked run from a reached state ends in a reached state. -/
theorem Reach.of_runOk {p : σ → α → Bool} (hp : ∀ s a, p s a = true → ok s a)
    {s t : σ} (h : m.Reach ok s) (as : List α) (hr : m.runOk p s as = some t) : m.Reach ok t := by
  induction as generalizing s with
  | nil =>
    obtain rfl : s = t := by simpa [runOk] using hr
    exact h
  | cons a as ih =>
    simp only [runOk] at hr
    split at hr
    case isTrue hpa =>
      obtain ⟨u, hu, hr⟩ := Option.bind_eq_some_iff.mp hr
      exact ih (.step h (hp s a hpa) hu) hr
    case isFalse => exact absurd hr (by simp)

/-- A run from a reached state ends in a reached state, when every step is allowed. -/
theorem Reach.of_run (hok : ∀ s a, ok s a) {s t : σ} (h : m.Reach ok s) (as : List α)
    (hr : m.run s as = some t) : m.Reach ok t := by
  induction as generalizing s with
  | nil =>
    obtain rfl : s = t := by simpa [run] using hr
    exact h
  | cons a as ih =>
    simp only [run] at hr
    obtain ⟨u, hu, hr⟩ := Option.bind_eq_some_iff.mp hr
    exact ih (.step h (hok s a) hu) hr

/-- What a checked run from the start shows at its end, some reached state shows. -/
theorem Reach.exists_of_runOk {β : Type} {p : σ → α → Bool} (hp : ∀ s a, p s a = true → ok s a)
    {as : List α} {f : σ → β} {v : β} (h : (m.runOk p m.init as).map f = some v) :
    ∃ s, m.Reach ok s ∧ f s = v := by
  obtain ⟨s, hrun, hv⟩ := Option.map_eq_some_iff.mp h
  exact ⟨s, .of_runOk hp .init as hrun, hv⟩

/-- What a run from the start shows at its end, some reached state shows. -/
theorem Reach.exists_of_run {β : Type} {as : List α} {f : σ → β} {v : β}
    (h : (m.run m.init as).map f = some v) : ∃ s, m.Reach (fun _ _ => True) s ∧ f s = v := by
  obtain ⟨s, hrun, hv⟩ := Option.map_eq_some_iff.mp h
  exact ⟨s, .of_run (fun _ _ => trivial) .init as hrun, hv⟩

end Machine

end GoIpc.Lib
