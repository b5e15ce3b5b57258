import Mathlib.Logic.Relation
import Mathlib.Data.List.Chain

namespace GoIpc.Lib

/-!
# Orders of a graph

A graph is given by the successors of each node.

* `Topo` — a list in which every node comes after its successors; no node of such a list reaches itself
  (`Topo.not_transGen`);
* `transGen_of_chain` — a path that goes on to a node on it closes a cycle.
-/

variable {α : Type*} {E : α → List α}

/-- `b` is a successor of `a`. -/
def Edge (E : α → List α) (a b : α) : Prop := b ∈ E a

/-- Every node comes after its successors. -/
def Topo (E : α → List α) (l : List α) : Prop := ∀ l₁ x l₂, l = l₁ ++ x :: l₂ → ∀ y ∈ E x, y ∈ l₁

theorem Topo.nil : Topo E [] := by
  intro l₁ x l₂ h
  simp at h

theorem Topo.snoc {l : List α} (h : Topo E l) {x : α} (hx : ∀ y ∈ E x, y ∈ l) : Topo E (l ++ [x]) := by
  intro l₁ z l₂ heq y hy
  rcases List.eq_nil_or_concat l₂ with rfl | ⟨l₃, w, rfl⟩
  · obtain ⟨rfl, hxz⟩ := List.append_inj' heq rfl
    cases hxz
    exact hx y hy
  · have hinit : l ++ [x] = (l₁ ++ z :: l₃) ++ [w] := by simpa using heq
    obtain ⟨rfl, -⟩ := List.append_inj' hinit rfl
    exact h l₁ z l₃ rfl y hy

/-- In such a list a path only goes back. -/
theorem Topo.before [DecidableEq α] {l : List α} (h : Topo E l) {x y : α} (hx : x ∈ l)
    (hxy : Relation.TransGen (Edge E) x y) : y ∈ l ∧ l.idxOf y < l.idxOf x := by
  have hedge : ∀ {a b : α}, a ∈ l → Edge E a b → b ∈ l ∧ l.idxOf b < l.idxOf a := by
    intro a b ha hab
    obtain ⟨l₁, l₂, rfl, hfirst⟩ := List.eq_append_cons_of_mem ha
    have hb := h l₁ a l₂ rfl b hab
    refine ⟨List.mem_append_left _ hb, ?_⟩
    rw [List.idxOf_append_of_mem hb, List.idxOf_append_of_notMem hfirst, List.idxOf_cons_self]
    exact Nat.lt_of_lt_of_le (List.idxOf_lt_length_of_mem hb) (Nat.le_add_right _ _)
  induction hxy with
  | single hab => exact hedge hx hab
  | tail _ hbc ih =>
    obtain ⟨hc, hlt⟩ := hedge ih.1 hbc
    exact ⟨hc, hlt.trans ih.2⟩

theorem Topo.not_transGen [DecidableEq α] {l : List α} (h : Topo E l) {x : α} (hx : x ∈ l) :
    ¬ Relation.TransGen (Edge E) x x := fun hcycle => Nat.lt_irrefl _ (h.before hx hcycle).2

/-- A path that goes on to a node on it closes a cycle. -/
theorem transGen_of_chain {l : List α} (h : l.IsChain (Edge E)) {x y : α} (hx : x ∈ l)
    (hlast : l.getLast? = some y) (hy : Edge E y x) : Relation.TransGen (Edge E) x x := by
  obtain ⟨l₁, l₂, rfl⟩ := List.append_of_mem hx
  have htail : (x :: l₂).IsChain (Edge E) := h.right_of_append
  rw [List.getLast?_append_cons, List.getLast?_eq_some_getLast (List.cons_ne_nil _ _), Option.some_inj] at hlast
  have hpath : Relation.ReflTransGen (Edge E) x y :=
    List.relationReflTransGen_of_exists_isChain_cons l₂ htail hlast
  exact Relation.TransGen.tail' hpath hy

end GoIpc.Lib
