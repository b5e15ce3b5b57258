import Mathlib.Order.Bounds.Basic
import Mathlib.Data.List.Forall2

namespace GoIpc.Lib

/-!
# Placing items one after another

Items with a size and an alignment are placed in a given order, each at the first free offset that is a
multiple of its alignment.

* `roundUp` — the least multiple of `a` from `n` on (`roundUp_isLeast`);
* `Fits` — a placement is aligned, in order and without overlap;
* `Tight` — every item is at the least offset after the one before it;
* `Tight.least` — a tight placement has the least offsets of all placements that fit.
-/

def roundUp (n a : Nat) : Nat := (n + a - 1) / a * a

theorem le_roundUp (n : Nat) {a : Nat} (ha : 0 < a) : n ≤ roundUp n a := by
  have h := Nat.div_add_mod (n + a - 1) a
  have hmod := Nat.mod_lt (n + a - 1) ha
  rw [Nat.mul_comm] at h
  unfold roundUp
  omega

theorem dvd_roundUp (n a : Nat) : a ∣ roundUp n a := Nat.dvd_mul_left ..

theorem roundUp_isLeast (n : Nat) {a : Nat} (ha : 0 < a) :
    IsLeast {m | n ≤ m ∧ a ∣ m} (roundUp n a) := by
  refine ⟨⟨le_roundUp n ha, dvd_roundUp n a⟩, ?_⟩
  rintro m ⟨hle, k, rfl⟩
  unfold roundUp
  rw [Nat.mul_comm a k]
  refine Nat.mul_le_mul_right a ?_
  rw [Nat.div_le_iff_le_mul_add_pred ha]
  rw [Nat.mul_comm a k] at hle ⊢
  omega

/-- An item at its offset. -/
structure Placed where
  offset : Nat
  size : Nat
  align : Nat
deriving DecidableEq

/-- The placement is aligned, in order and without overlap from `start` on. -/
def Fits : Nat → List Placed → Prop
  | _, [] => True
  | start, p :: ps => (start ≤ p.offset ∧ p.align ∣ p.offset) ∧ Fits (p.offset + p.size) ps

/-- Each item is at the least offset after the one before it. -/
def Tight : Nat → List Placed → Prop
  | _, [] => True
  | start, p :: ps =>
      IsLeast {o | start ≤ o ∧ p.align ∣ o} p.offset ∧ Tight (p.offset + p.size) ps

/-- Where the last item ends. -/
def endOf : Nat → List Placed → Nat
  | start, [] => start
  | _, p :: ps => endOf (p.offset + p.size) ps

variable {ps : List Placed} {start : Nat}

theorem Tight.fits (h : Tight start ps) : Fits start ps := by
  induction ps generalizing start with
  | nil => trivial
  | cons p ps ih => exact ⟨h.1.1, ih h.2⟩

theorem Fits.start_le (h : Fits start ps) : start ≤ endOf start ps := by
  induction ps generalizing start with
  | nil => exact le_rfl
  | cons p ps ih =>
    have := ih h.2
    have := h.1.1
    show start ≤ endOf (p.offset + p.size) ps
    omega

/-- Every item lies between the start and the end. -/
theorem Fits.within (h : Fits start ps) {p : Placed} (hp : p ∈ ps) :
    start ≤ p.offset ∧ p.align ∣ p.offset ∧ p.offset + p.size ≤ endOf start ps := by
  induction ps generalizing start with
  | nil => cases hp
  | cons q ps ih =>
    rcases List.mem_cons.mp hp with rfl | hp
    · exact ⟨h.1.1, h.1.2, h.2.start_le⟩
    · obtain ⟨hle, hdvd, hend⟩ := ih h.2 hp
      have := h.1.1
      exact ⟨by omega, hdvd, hend⟩

/-- Items follow one another. -/
theorem Fits.isChain (h : Fits start ps) : ps.IsChain (fun p q => p.offset + p.size ≤ q.offset) := by
  induction ps generalizing start with
  | nil => exact .nil
  | cons p ps ih =>
    cases ps with
    | nil => exact .singleton p
    | cons q ps => exact .cons_cons h.2.1.1 (ih h.2)

/-- **Least offsets**: no placement of the same items that fits has a smaller offset anywhere. -/
theorem Tight.least {start' : Nat} {qs : List Placed} (h : Tight start ps) (hfits : Fits start' qs)
    (hle : start ≤ start') (hsame : List.Forall₂ (fun p q => p.size = q.size ∧ p.align = q.align) ps qs) :
    List.Forall₂ (fun p q : Placed => p.offset ≤ q.offset) ps qs := by
  induction hsame generalizing start start' with
  | nil => exact .nil
  | @cons p q ps qs hpq _ ih =>
    have hoff : p.offset ≤ q.offset := h.1.2 ⟨hle.trans hfits.1.1, hpq.2 ▸ hfits.1.2⟩
    refine .cons hoff (ih h.2 hfits.2 ?_)
    have := hpq.1
    omega

end GoIpc.Lib
