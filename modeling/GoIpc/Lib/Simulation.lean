import GoIpc.Lib.Machine

namespace GoIpc.Lib

/-!
# Simulation between machines

A machine simulates another along an abstraction of its states when each of its steps is a (possibly
empty) run of the other.  The steps of that run are what an observer of the first machine is told.

* `Machine.observe` — what an observer is told along a run;
* `Machine.run_observe` — **simulation**: the observed run of the abstract machine leads from the
  abstraction of the first state to the abstraction of the last;
* `Machine.observe_invariant` — the induction rule for what relates a state to what was observed on
  the way to it.
-/

variable {σ α τ β : Type}

namespace Machine

/-- What an observer who is told `obs s a` in every step is told along a run. -/
def observe (m : Machine σ α) (obs : σ → α → List β) (s : σ) : List α → List β
  | [] => []
  | a :: as =>
      match m.step s a with
      | some t => obs s a ++ m.observe obs t as
      | none => []

variable {m : Machine σ α} {m' : Machine τ β} {ok : σ → α → Prop} {p : σ → α → Bool}
  {obs : σ → α → List β}

/-- **Simulation.** When every step from a reached state is, seen through `abs`, a run of the
    abstract machine over what is observed, so is every run. -/
theorem run_observe (abs : σ → τ) (hp : ∀ s a, p s a = true → ok s a)
    (hstep : ∀ s t a, m.Reach ok s → ok s a → m.step s a = some t →
      m'.run (abs s) (obs s a) = some (abs t))
    {s t : σ} (hs : m.Reach ok s) {as : List α} (hrun : m.runOk p s as = some t) :
    m'.run (abs s) (m.observe obs s as) = some (abs t) := by
  induction as generalizing s with
  | nil =>
    obtain rfl : s = t := by simpa [runOk] using hrun
    rfl
  | cons a as ih =>
    simp only [runOk] at hrun
    split at hrun
    case isTrue hpa =>
      obtain ⟨u, hu, hrun⟩ := Option.bind_eq_some_iff.mp hrun
      have hok := hp s a hpa
      simp only [observe, hu]
      rw [run_append, hstep s u a hs hok hu]
      exact ih (.step hs hok hu) hrun
    case isFalse => cases hrun

/-- **Invariance with a history.** What relates the start to no observation, and is kept by every step
    together with what is observed in it, relates every state to what was observed before it. -/
theorem observe_invariant {J : List β → σ → Prop} (h0 : J [] m.init)
    (hstep : ∀ bs s t a, m.Reach (fun _ _ => True) s → J bs s → m.step s a = some t →
      J (bs ++ obs s a) t)
    {as : List α} {t : σ} (hrun : m.run m.init as = some t) : J (m.observe obs m.init as) t := by
  suffices h : ∀ (as : List α) (bs : List β) (s : σ), m.Reach (fun _ _ => True) s → J bs s →
      m.run s as = some t → J (bs ++ m.observe obs s as) t from h as [] m.init .init h0 hrun
  intro as
  induction as with
  | nil =>
    intro bs s _ hJ hrun
    obtain rfl : s = t := by simpa using hrun
    simpa [observe] using hJ
  | cons a as ih =>
    intro bs s hs hJ hrun
    simp only [run] at hrun
    obtain ⟨u, hu, hrun⟩ := Option.bind_eq_some_iff.mp hrun
    simp only [observe, hu]
    rw [← List.append_assoc]
    exact ih _ u (.step hs trivial hu) (hstep bs s u a hs hJ hu) hrun

/-- A run is a checked run with nothing to check. -/
theorem runOk_true (s : σ) (as : List α) : m.runOk (fun _ _ => true) s as = m.run s as := by
  induction as generalizing s with
  | nil => rfl
  | cons a as ih =>
    simp only [runOk, run, if_true]
    congr 1
    exact funext ih

end Machine

end GoIpc.Lib
