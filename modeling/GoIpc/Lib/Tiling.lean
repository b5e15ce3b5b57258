import Mathlib.Data.List.Infix

namespace GoIpc.Lib

/-!
# Tilings of an interval

A list of blocks, each an interval `[lo e, hi e)`, tiles `[a, b)` when every block starts where
the one before it stops.  This is the shape of any log that hands out consecutive ranges of a
growing counter.

* `Tiled lo hi a l b` — the blocks of `l` tile `[a, b)`;
* `Tiled.disjoint`, `Tiled.next`, `Tiled.cover` — blocks never overlap, each is followed by
  another one or by the end, and every point of the interval lies in one;
* `below hi p l` — the blocks that end at or before `p`: a prefix of the list, which grows by
  exactly one block when `p` crosses the end of that block.
-/

variable {α : Type} {lo hi : α → Nat}

/-- The blocks of a list tile the interval from the first argument to the last. -/
def Tiled (lo hi : α → Nat) : Nat → List α → Nat → Prop
  | a, [], b => a = b
  | a, e :: es, b => lo e = a ∧ lo e < hi e ∧ Tiled lo hi (hi e) es b

namespace Tiled

variable {a b : Nat} {l : List α}

theorem le (h : Tiled lo hi a l b) : a ≤ b := by
  induction l generalizing a with
  | nil => exact le_of_eq h
  | cons e es ih =>
    obtain ⟨hlo, hlt, hrest⟩ := h
    have := ih hrest
    omega

/-- A block that starts at the end extends the tiling. -/
theorem concat (h : Tiled lo hi a l b) {e : α} (hlo : lo e = b) (hlt : lo e < hi e) :
    Tiled lo hi a (l ++ [e]) (hi e) := by
  induction l generalizing a with
  | nil =>
    obtain rfl : a = b := h
    exact ⟨hlo, hlt, rfl⟩
  | cons x xs ih => exact ⟨h.1, h.2.1, ih h.2.2⟩

theorem bounds (h : Tiled lo hi a l b) {e : α} (he : e ∈ l) :
    a ≤ lo e ∧ lo e < hi e ∧ hi e ≤ b := by
  induction l generalizing a with
  | nil => exact absurd he (by simp)
  | cons x xs ih =>
    obtain ⟨hlo, hlt, hrest⟩ := h
    rcases List.mem_cons.mp he with rfl | he
    · have := hrest.le
      omega
    · have := ih hrest he
      omega

/-- Blocks are determined by where they start, and two of them never overlap. -/
theorem eq_or_disjoint (h : Tiled lo hi a l b) {e e' : α} (he : e ∈ l) (he' : e' ∈ l) :
    e = e' ∨ hi e ≤ lo e' ∨ hi e' ≤ lo e := by
  induction l generalizing a with
  | nil => exact absurd he (by simp)
  | cons x xs ih =>
    obtain ⟨hlo, hlt, hrest⟩ := h
    rcases List.mem_cons.mp he with heq | hin <;> rcases List.mem_cons.mp he' with heq' | hin'
    · exact .inl (heq.trans heq'.symm)
    · exact .inr (.inl (heq ▸ (hrest.bounds hin').1))
    · exact .inr (.inr (heq' ▸ (hrest.bounds hin).1))
    · exact ih hrest hin hin'

/-- Two blocks that share a point are the same block. -/
theorem eq_of_overlap (h : Tiled lo hi a l b) {e e' : α} (he : e ∈ l) (he' : e' ∈ l) {c : Nat}
    (h1 : lo e ≤ c) (h2 : c < hi e) (h1' : lo e' ≤ c) (h2' : c < hi e') : e = e' := by
  rcases h.eq_or_disjoint he he' with heq | hd | hd
  · exact heq
  · omega
  · omega

theorem eq_of_lo_eq (h : Tiled lo hi a l b) {e e' : α} (he : e ∈ l) (he' : e' ∈ l)
    (hlo : lo e = lo e') : e = e' :=
  have hb := h.bounds he
  have hb' := h.bounds he'
  h.eq_of_overlap he he' (c := lo e) (le_refl _) hb.2.1 (by omega) (by omega)

/-- A block ends at the end of the tiling, or where another block starts. -/
theorem next (h : Tiled lo hi a l b) {e : α} (he : e ∈ l) :
    hi e = b ∨ ∃ e' ∈ l, lo e' = hi e := by
  induction l generalizing a with
  | nil => exact absurd he (by simp)
  | cons x xs ih =>
    obtain ⟨hlo, hlt, hrest⟩ := h
    rcases List.mem_cons.mp he with rfl | he
    · cases xs with
      | nil => exact .inl hrest
      | cons y ys => exact .inr ⟨y, by simp, hrest.1⟩
    · rcases ih hrest he with hb | ⟨e', he', hlo'⟩
      · exact .inl hb
      · exact .inr ⟨e', List.mem_cons_of_mem _ he', hlo'⟩

/-- Every point of the interval lies in a block. -/
theorem cover (h : Tiled lo hi a l b) {c : Nat} (h1 : a ≤ c) (h2 : c < b) :
    ∃ e ∈ l, lo e ≤ c ∧ c < hi e := by
  induction l generalizing a with
  | nil =>
    obtain rfl : a = b := h
    omega
  | cons x xs ih =>
    obtain ⟨hlo, hlt, hrest⟩ := h
    by_cases hc : c < hi x
    · exact ⟨x, by simp, by omega, hc⟩
    · obtain ⟨e, he, hcov⟩ := ih hrest (by omega)
      exact ⟨e, List.mem_cons_of_mem _ he, hcov⟩

/-- A map that keeps the ends of every block keeps the tiling. -/
theorem map (h : Tiled lo hi a l b) {f : α → α} (hlo : ∀ e, lo (f e) = lo e)
    (hhi : ∀ e, hi (f e) = hi e) : Tiled lo hi a (l.map f) b := by
  induction l generalizing a with
  | nil => exact h
  | cons x xs ih =>
    obtain ⟨hx, hlt, hrest⟩ := h
    refine ⟨by rw [hlo]; exact hx, by rw [hlo, hhi]; exact hlt, ?_⟩
    rw [hhi]
    exact ih hrest

end Tiled

/-- The blocks that end at or before `p`. -/
def below (hi : α → Nat) (p : Nat) (l : List α) : List α := l.filter (fun e => hi e ≤ p)

section Below

variable {a b p : Nat} {l : List α}

theorem mem_below {e : α} : e ∈ below hi p l ↔ e ∈ l ∧ hi e ≤ p := by
  simp [below]

/-- Nothing is below a point that every block passes. -/
theorem below_eq_nil (hp : ∀ e ∈ l, p < hi e) : below hi p l = [] := by
  apply List.filter_eq_nil_iff.mpr
  intro e he
  simpa using hp e he

/-- The blocks below a point come first. -/
theorem below_isPrefix (h : Tiled lo hi a l b) (p : Nat) : below hi p l <+: l := by
  induction l generalizing a with
  | nil => simp [below]
  | cons x xs ih =>
    obtain ⟨_, _, hrest⟩ := h
    by_cases hx : hi x ≤ p
    · have hcons : below hi p (x :: xs) = x :: below hi p xs := by simp [below, hx]
      rw [hcons]
      exact List.prefix_cons_inj x |>.mpr (ih hrest)
    · have hnil : below hi p (x :: xs) = [] := by
        apply below_eq_nil
        intro e he
        rcases List.mem_cons.mp he with rfl | he
        · omega
        · have := hrest.bounds he
          omega
      rw [hnil]
      exact List.nil_prefix

/-- A later point has all the blocks of an earlier one below it. -/
theorem below_mono (h : Tiled lo hi a l b) {q : Nat} (hpq : p ≤ q) :
    below hi p l <+: below hi q l := by
  refine List.prefix_of_prefix_length_le (below_isPrefix h p) (below_isPrefix h q) ?_
  refine (List.monotone_filter_right l ?_).length_le
  intro e he
  simp only [decide_eq_true_eq] at he ⊢
  omega

/-- Crossing the end of a block adds that block and nothing else. -/
theorem below_hi (h : Tiled lo hi a l b) {e : α} (he : e ∈ l) (h1 : lo e ≤ p) (h2 : p < hi e) :
    below hi (hi e) l = below hi p l ++ [e] := by
  induction l generalizing a with
  | nil => exact absurd he (by simp)
  | cons x xs ih =>
    obtain ⟨hx, hlt, hrest⟩ := h
    rcases List.mem_cons.mp he with rfl | he
    · have hlater : ∀ y ∈ xs, hi e < hi y := fun y hy => by
        have := hrest.bounds hy
        omega
      have hold : below hi p (e :: xs) = [] := below_eq_nil (by
        intro y hy
        rcases List.mem_cons.mp hy with rfl | hy
        · exact h2
        · have := hlater y hy
          omega)
      have hnew : below hi (hi e) xs = [] := below_eq_nil hlater
      rw [hold]
      simp only [below] at hnew
      simp [below, hnew]
    · have hxb := hrest.bounds he
      have := ih hrest he
      simp only [below] at this
      simp [below, show hi x ≤ hi e by omega, show hi x ≤ p by omega, this]

/-- Moving inside one block adds nothing. -/
theorem below_within (h : Tiled lo hi a l b) {e : α} (he : e ∈ l) {q : Nat} (h1 : lo e ≤ p)
    (h2 : p ≤ q) (h3 : q < hi e) : below hi q l = below hi p l := by
  apply List.filter_congr
  intro x hx
  have hd := h.eq_or_disjoint hx he
  simp only [decide_eq_decide]
  have hxb := h.bounds hx
  rcases hd with rfl | hd | hd
  · omega
  · omega
  · omega

/-- A map that keeps the ends of every block commutes with `below`. -/
theorem below_map {f : α → α} (hhi : ∀ e, hi (f e) = hi e) :
    below hi p (l.map f) = (below hi p l).map f := by
  simp only [below, List.filter_map]
  congr 1
  apply List.filter_congr
  intro x _
  simp [hhi]

/-- A block that ends above the point is not added by extending the list. -/
theorem below_concat {e : α} (h : p < hi e) : below hi p (l ++ [e]) = below hi p l := by
  simp [below, h]

end Below

end GoIpc.Lib
