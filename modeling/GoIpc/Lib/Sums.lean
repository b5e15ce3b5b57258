import Mathlib.Algebra.BigOperators.Group.List.Basic
import Mathlib.Algebra.GroupWithZero.Nat

namespace GoIpc.Lib

/-!
# Sums over the entries of a table

A table is a list; a step replaces one of its entries and shifts every sum over the table by the
difference of that entry.
-/

variable {α : Type} (f : α → Nat)

/-- The sum of `f` over the table. -/
def total (l : List α) : Nat := (l.map f).sum

@[simp] theorem total_nil : total f [] = 0 := rfl

@[simp] theorem total_cons (x : α) (l : List α) : total f (x :: l) = f x + total f l := by
  simp [total]

@[simp] theorem total_append (l l' : List α) : total f (l ++ l') = total f l + total f l' := by
  simp [total]

/-- Replacing one entry shifts the sum by the difference. -/
theorem total_set {l : List α} {i : Nat} {x : α} (h : l[i]? = some x) (y : α) :
    total f (l.set i y) + f x = total f l + f y := by
  induction l generalizing i with
  | nil => cases h
  | cons a l ih =>
    cases i with
    | zero =>
      obtain rfl : a = x := by simpa using h
      simp only [List.set_cons_zero, total_cons]
      omega
    | succ i =>
      have := ih (i := i) (by simpa using h)
      simp only [List.set_cons_succ, total_cons]
      omega

/-- A sum over a table is the sum of its parts. -/
theorem total_add (g : α → Nat) (l : List α) :
    total (fun x => f x + g x) l = total f l + total g l := by
  induction l with
  | nil => rfl
  | cons a l ih =>
    simp only [total_cons, ih]
    omega

/-- The sum vanishes with its entries. -/
theorem total_eq_zero {l : List α} (h : ∀ x ∈ l, f x = 0) : total f l = 0 := by
  induction l with
  | nil => rfl
  | cons a l ih =>
    rw [total_cons, h a (by simp), ih (fun x hx => h x (by simp [hx]))]

end GoIpc.Lib
