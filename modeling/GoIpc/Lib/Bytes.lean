import Mathlib.Data.List.Basic
import Mathlib.Tactic.Ring

namespace GoIpc.Lib

/-!
# Byte memories

A memory is a function from addresses to bytes.  Every store of the development is a
`patch`: it replaces a contiguous span and leaves the rest alone.  Words are 32 bits wide
and little endian.

* `patch m i n g` — the span `[i, i + n)` now holds `g 0, g 1, …`;
* `load32` / `store32` — one word, with the read-back and frame lemmas;
* `clear`, `slice` — a span set to zero, a span read as a list;
* `leBytes` / `leNat` — a number as a list of bytes.
-/

/-- A memory: one byte per address. -/
abbrev Mem := Nat → UInt8

/-- Replace the span `[i, i + n)` by `g`, indexed from the start of the span. -/
def patch {β : Type} (m : Nat → β) (i n : Nat) (g : Nat → β) : Nat → β :=
  fun j => if i ≤ j ∧ j < i + n then g (j - i) else m j

section Patch

variable {β : Type} (m : Nat → β) {i n j : Nat} (g : Nat → β)

theorem patch_of_mem (h1 : i ≤ j) (h2 : j < i + n) : patch m i n g j = g (j - i) :=
  if_pos ⟨h1, h2⟩

theorem patch_of_not_mem (h : j < i ∨ i + n ≤ j) : patch m i n g j = m j :=
  if_neg (by omega)

end Patch

/-- Byte `k` of a 32-bit word, least significant first. -/
def byteOf (v : BitVec 32) (k : Nat) : UInt8 := UInt8.ofNat (v.toNat / 256 ^ k % 256)

/-- The word at address `i`. -/
def load32 (m : Mem) (i : Nat) : BitVec 32 :=
  BitVec.ofNat 32 ((m i).toNat + 256 * (m (i + 1)).toNat + 65536 * (m (i + 2)).toNat
    + 16777216 * (m (i + 3)).toNat)

/-- Store the word `v` at address `i`. -/
def store32 (m : Mem) (i : Nat) (v : BitVec 32) : Mem := patch m i 4 (byteOf v)

/-- Store one byte. -/
def store8 (m : Mem) (i : Nat) (b : UInt8) : Mem := patch m i 1 (fun _ => b)

/-- Set the span `[lo, hi)` to zero. -/
def clear (m : Mem) (lo hi : Nat) : Mem := patch m lo (hi - lo) (fun _ => 0)

/-- The bytes of the span `[i, i + n)`. -/
def slice (m : Mem) (i n : Nat) : List UInt8 := (List.range n).map (fun k => m (i + k))

variable (m : Mem)

theorem byteOf_toNat (v : BitVec 32) (k : Nat) : (byteOf v k).toNat = v.toNat / 256 ^ k % 256 := by
  unfold byteOf
  rw [UInt8.toNat_ofNat']
  exact Nat.mod_eq_of_lt (Nat.mod_lt _ (by decide))

/-- A word only depends on its four bytes. -/
theorem load32_congr {m m' : Mem} {i j : Nat} (h : ∀ k, k < 4 → m (i + k) = m' (j + k)) :
    load32 m i = load32 m' j := by
  have h0 := h 0 (by omega)
  have h1 := h 1 (by omega)
  have h2 := h 2 (by omega)
  have h3 := h 3 (by omega)
  simp only [Nat.add_zero] at h0
  simp only [load32, h0, h1, h2, h3]

/-- A word that was just stored reads back. -/
@[simp] theorem load32_store32 (i : Nat) (v : BitVec 32) : load32 (store32 m i v) i = v := by
  have hb : ∀ k, k < 4 → store32 m i v (i + k) = byteOf v k := by
    intro k hk
    rw [store32, patch_of_mem _ _ (by omega) (by omega)]
    congr 1
    omega
  have h0 := hb 0 (by omega)
  simp only [Nat.add_zero] at h0
  apply BitVec.eq_of_toNat_eq
  simp only [load32, h0, hb 1 (by omega), hb 2 (by omega), hb 3 (by omega), byteOf_toNat,
    BitVec.toNat_ofNat]
  have := v.isLt
  omega

/-- A patch that misses the word leaves it alone. -/
theorem load32_patch {i j n : Nat} (g : Nat → UInt8) (h : i + n ≤ j ∨ j + 4 ≤ i) :
    load32 (patch m i n g) j = load32 m j :=
  load32_congr (fun k hk => patch_of_not_mem _ _ (by omega))

theorem load32_store32_ne {i j : Nat} (v : BitVec 32) (h : i + 4 ≤ j ∨ j + 4 ≤ i) :
    load32 (store32 m i v) j = load32 m j :=
  load32_patch m (byteOf v) h

/-- A word of four zero bytes is zero. -/
theorem load32_zero {i : Nat} (h : ∀ k, k < 4 → m (i + k) = 0) : load32 m i = 0 := by
  have hc : load32 m i = load32 (fun _ => 0) 0 := load32_congr h
  rw [hc]
  rfl

@[simp] theorem byteOf_zero (k : Nat) : byteOf 0 k = 0 := by
  unfold byteOf
  simp

/-- Clearing a span behind its first word and then that word clears the span. -/
theorem store32_clear {i n : Nat} (h : 4 ≤ n) :
    store32 (clear m (i + 4) (i + n)) i 0 = clear m i (i + n) := by
  funext j
  simp only [store32, clear, patch, byteOf_zero]
  split_ifs <;> first | rfl | omega

@[simp] theorem length_slice (i n : Nat) : (slice m i n).length = n := by
  simp [slice]

/-- A slice only depends on the bytes of its span. -/
theorem slice_congr {m m' : Mem} {i j n : Nat} (h : ∀ k, k < n → m (i + k) = m' (j + k)) :
    slice m i n = slice m' j n := by
  apply List.map_congr_left
  intro k hk
  exact h k (List.mem_range.mp hk)

/-- A span of zeros reads as a list of zeros. -/
theorem slice_zero {i n : Nat} (h : ∀ k, k < n → m (i + k) = 0) :
    slice m i n = List.replicate n 0 := by
  apply List.eq_replicate_iff.mpr
  refine ⟨length_slice m i n, ?_⟩
  intro b hb
  obtain ⟨k, hk, rfl⟩ := List.mem_map.mp hb
  exact h k (List.mem_range.mp hk)

/-- Storing one byte of a span sets that element of the slice. -/
theorem slice_store8 {i n k : Nat} (b : UInt8) :
    slice (store8 m (i + k) b) i n = (slice m i n).set k b := by
  apply List.ext_getElem
  · simp
  · intro j h1 _
    simp only [length_slice] at h1
    rw [List.getElem_set]
    simp only [slice, List.getElem_map, List.getElem_range]
    by_cases hkj : k = j
    · subst hkj
      rw [if_pos rfl, store8, patch_of_mem _ _ (by omega) (by omega)]
    · rw [if_neg hkj, store8, patch_of_not_mem _ _ (by omega)]

/-! ### Little-endian numbers in byte lists -/

/-- The lowest `k` bytes of a number, least significant first. -/
def leBytes : Nat → Nat → List UInt8
  | 0, _ => []
  | k + 1, n => UInt8.ofNat n :: leBytes k (n / 256)

/-- The number a list of bytes stands for, least significant first. -/
def leNat : List UInt8 → Nat
  | [] => 0
  | b :: bs => b.toNat + 256 * leNat bs

@[simp] theorem length_leBytes (k n : Nat) : (leBytes k n).length = k := by
  induction k generalizing n with
  | zero => rfl
  | succ k ih => simp [leBytes, ih]

/-- Reading back gives the number modulo the width. -/
theorem leNat_leBytes (k n : Nat) : leNat (leBytes k n) = n % 256 ^ k := by
  induction k generalizing n with
  | zero => simp [leBytes, leNat, Nat.mod_one]
  | succ k ih =>
    rw [leBytes, leNat, ih, Nat.pow_succ', Nat.mod_mul]
    simp

end GoIpc.Lib
