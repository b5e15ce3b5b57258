import Mathlib.Data.Finset.Card
import Mathlib.Algebra.Order.Ring.Int

namespace GoIpc.Lib

open Function (update update_self update_of_ne)

/-!
# Counters that count parties

A shared counter that every party raises when it comes and lowers when it goes counts the parties
in between.  `Census p n` says so for a family of parties, of which only finitely many are in.
`Census.stay`, `Census.enter` and `Census.exit` are for a family of places `f` of which one party
changes its own.
-/

variable {ι : Type}

/-- Exactly `n` parties satisfy `p`. -/
def Census (p : ι → Prop) (n : Int) : Prop :=
  ∃ s : Finset ι, (∀ i, p i ↔ i ∈ s) ∧ n = s.card

namespace Census

variable {p q : ι → Prop} {n : Int} {i : ι}

/-- A counter starts at zero with nobody in. -/
theorem empty (h : ∀ i, ¬ p i) : Census p 0 :=
  ⟨∅, fun i => by simp [h i], by simp⟩

/-- Who is in decides the count. -/
theorem congr (h : Census p n) (hpq : ∀ i, q i ↔ p i) : Census q n := by
  obtain ⟨s, hs, hn⟩ := h
  exact ⟨s, fun i => (hpq i).trans (hs i), hn⟩

/-- A party comes. -/
theorem come [DecidableEq ι] (h : Census p n) (hp : ¬ p i) (hq : q i) (hother : ∀ j, j ≠ i → (q j ↔ p j)) :
    Census q (n + 1) := by
  obtain ⟨s, hs, rfl⟩ := h
  have hi : i ∉ s := fun hi => hp ((hs i).mpr hi)
  refine ⟨insert i s, fun j => ?_, ?_⟩
  · by_cases hj : j = i
    · subst hj
      simp [hq]
    · rw [hother j hj, hs j]
      simp [hj]
  · rw [Finset.card_insert_of_notMem hi]
    push_cast
    rfl

/-- A party goes. -/
theorem go [DecidableEq ι] (h : Census p n) (hp : p i) (hq : ¬ q i) (hother : ∀ j, j ≠ i → (q j ↔ p j)) :
    Census q (n - 1) := by
  obtain ⟨s, hs, rfl⟩ := h
  have hi : i ∈ s := (hs i).mp hp
  refine ⟨s.erase i, fun j => ?_, ?_⟩
  · by_cases hj : j = i
    · subst hj
      simp [hq]
    · rw [hother j hj, hs j]
      simp [hj]
  · have := Finset.card_erase_add_one hi
    omega

/-- Nobody is in when the counter is not positive. -/
theorem none_of_le (h : Census p n) (hn : n ≤ 0) (i : ι) : ¬ p i := by
  obtain ⟨s, hs, rfl⟩ := h
  have hs0 : s = ∅ := Finset.card_eq_zero.mp (by omega)
  rw [hs i, hs0]
  simp

/-- A counter is never below zero. -/
theorem nonneg (h : Census p n) : 0 ≤ n := by
  obtain ⟨s, -, rfl⟩ := h
  omega

/-- A counter that counts a party is positive. -/
theorem pos (h : Census p n) (hp : p i) : 0 < n := by
  obtain ⟨s, hs, rfl⟩ := h
  have := Finset.card_pos.mpr ⟨i, (hs i).mp hp⟩
  omega

/-- Parties `0 … N - 1` are at most `N`. -/
theorem le {p : Nat → Prop} {N : Nat} (h : Census p n) (hN : ∀ i, p i → i < N) : n ≤ N := by
  obtain ⟨s, hs, rfl⟩ := h
  have hsub : s ⊆ Finset.range N := fun i hi => Finset.mem_range.mpr (hN i ((hs i).mpr hi))
  have := Finset.card_le_card hsub
  rw [Finset.card_range] at this
  omega

/-! ### One party moves -/

section Places

variable [DecidableEq ι] {α : Type} {f : ι → α} {inside : α → Prop} {t : ι} {v : α}

/-- A move that the counter does not notice. -/
theorem stay (h : Census (fun u => inside (f u)) n) (hv : inside v ↔ inside (f t)) :
    Census (fun u => inside (update f t v u)) n := by
  refine h.congr fun u => ?_
  by_cases hu : u = t
  · subst hu
    rwa [update_self]
  · rw [update_of_ne hu]

/-- A party moves in. -/
theorem enter (h : Census (fun u => inside (f u)) n) (hout : ¬ inside (f t)) (hv : inside v) :
    Census (fun u => inside (update f t v u)) (n + 1) :=
  h.come (i := t) hout (by rwa [update_self]) fun u hu => by rw [update_of_ne hu]

/-- A party moves out. -/
theorem exit (h : Census (fun u => inside (f u)) n) (hin : inside (f t)) (hv : ¬ inside v) :
    Census (fun u => inside (update f t v u)) (n - 1) :=
  h.go (i := t) hin (by rwa [update_self]) fun u hu => by rw [update_of_ne hu]

end Places

end Census

end GoIpc.Lib
