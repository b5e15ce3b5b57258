import GoIpc.Lib.Tape
import Mathlib.Tactic.Linarith

namespace GoIpc.Ring

open GoIpc.Lib

/-!
# Ring layout and claim arithmetic

The constants of `ring.go`, the record format and the arithmetic every producer runs before it
claims.  A record is a header of eight bytes, `len : int32` and `type : uint32`, and then its
payload; the next record starts at the following multiple of eight.

* `Capacity` — a data region size the ring admits, with the facts the ring relies on;
* `align`, `hasRoom`, `maxMessageSize` — as in the source;
* `toEnd`, `need` — the bytes up to the wrap point, and what a claim of `aligned` bytes at
  `tail` takes: a record that would straddle the wrap point also claims the rest of the lap.

Cursors are natural numbers: the source's are 64 bits wide and never wrap in practice.
-/

/-- A 32-bit word of a record header. -/
abbrev Word := BitVec 32

/-- Overhead of a record, in bytes. -/
def recordHeaderSize : Nat := 8

/-- Number of claims a ring can attribute to their producers at the same time. -/
def claimSlots : Nat := 256

/-- The type of a record the reader skips. -/
def typePadding : Word := 0xFFFFFFFF#32

/-- Marks a claim slot whose owner claims nothing right now. -/
def noIntent : Nat := 2 ^ 64 - 1

/-- A size of the data region: a power of two from `MinCapacity` up to `2^31`. -/
structure Capacity where
  size : Nat
  pow : ∃ k, size = 2 ^ k
  min : 4096 ≤ size
  max : size ≤ 2 ^ 31

namespace Capacity

variable (C : Capacity)

theorem dvd : 4096 ∣ C.size := by
  obtain ⟨k, hk⟩ := C.pow
  have hmin := C.min
  rw [hk] at hmin ⊢
  have h12 : 12 ≤ k := by
    by_contra hlt
    have : 2 ^ k ≤ 2 ^ 11 := Nat.pow_le_pow_right (by omega) (by omega)
    omega
  exact Nat.pow_dvd_pow 2 h12

theorem mod_eight : C.size % 8 = 0 := by
  have := C.dvd
  omega

/-- The smallest ring the source accepts. -/
def smallest : Capacity where
  size := 4096
  pow := ⟨12, rfl⟩
  min := le_refl _
  max := by decide

end Capacity

/-- Round up to the record alignment (`(n + 7) &^ 7`). -/
def align (n : Nat) : Nat := (n + 7) / 8 * 8

theorem align_mod (n : Nat) : align n % 8 = 0 := by unfold align; omega

theorem le_align (n : Nat) : n ≤ align n := by unfold align; omega

theorem align_lt (n : Nat) : align n < n + 8 := by unfold align; omega

theorem align_of_mod {n : Nat} (h : n % 8 = 0) : align n = n := by unfold align; omega

theorem align_le {n k : Nat} (h : n ≤ k) (hk : k % 8 = 0) : align n ≤ k := by
  unfold align; omega

/-- The largest payload a single record may carry. -/
def maxMessageSize (C : Capacity) : Nat :=
  let limit := C.size / 2 - recordHeaderSize
  if limit > 2 ^ 31 - 1 - recordHeaderSize then 2 ^ 31 - 1 - recordHeaderSize else limit

/-- Below `2^31` the bound of an `int32` never cuts in. -/
theorem maxMessageSize_eq (C : Capacity) : maxMessageSize C = C.size / 2 - 8 := by
  have := C.max
  unfold maxMessageSize recordHeaderSize
  simp only
  split <;> omega

/-- `hasRoom` reports whether `need` bytes fit between `head` and `tail`. -/
def hasRoom (tail head capacity need : Nat) : Bool :=
  if head > tail || tail - head > capacity then false else capacity - (tail - head) ≥ need

theorem hasRoom_iff {tail head capacity need : Nat} :
    hasRoom tail head capacity need = true ↔ head ≤ tail ∧ tail + need ≤ head + capacity := by
  unfold hasRoom
  split
  case isTrue h =>
    simp only [Bool.or_eq_true, decide_eq_true_eq] at h
    constructor
    · intro hf; exact absurd hf (by simp)
    · intro hr; omega
  case isFalse h =>
    simp only [Bool.or_eq_true, decide_eq_true_eq, not_or] at h
    simp only [decide_eq_true_eq]
    omega

/-- Bytes from the index of `tail` to the end of the data region. -/
def toEnd (C : Capacity) (tail : Nat) : Nat := C.size - tail % C.size

/-- Padding a claim of `aligned` bytes at `tail` needs in front of its record. -/
def padOf (C : Capacity) (tail aligned : Nat) : Nat :=
  if toEnd C tail < aligned then toEnd C tail else 0

/-- What a claim of `aligned` bytes at `tail` takes. -/
def need (C : Capacity) (tail aligned : Nat) : Nat :=
  if toEnd C tail < aligned then aligned + toEnd C tail else aligned

theorem need_eq (C : Capacity) (tail aligned : Nat) :
    need C tail aligned = padOf C tail aligned + aligned := by
  unfold need padOf
  split <;> omega

theorem mod_size_mod_eight (C : Capacity) {c : Nat} (h : c % 8 = 0) : c % C.size % 8 = 0 := by
  rwa [Nat.mod_mod_of_dvd c (Nat.dvd_trans ⟨512, rfl⟩ C.dvd)]

theorem toEnd_pos (C : Capacity) (tail : Nat) : 0 < toEnd C tail := by
  have := C.min
  have := Nat.mod_lt tail (show 0 < C.size by omega)
  unfold toEnd
  omega

/-- A claim at a later tail ends no earlier: one without padding ends behind its record, one with
    padding behind a record at the start of the next lap. -/
theorem stop_mono (C : Capacity) (a : Nat) {t t' : Nat} (h : t ≤ t') :
    t + need C t a ≤ t' + need C t' a := by
  have hpos : 0 < C.size := by have := C.min; omega
  have hdiv := Nat.div_add_mod t C.size
  have hdiv' := Nat.div_add_mod t' C.size
  have hlt := Nat.mod_lt t hpos
  have hlt' := Nat.mod_lt t' hpos
  have hlap : t / C.size ≤ t' / C.size := Nat.div_le_div_right h
  unfold need toEnd
  rcases Nat.eq_or_lt_of_le hlap with hsame | hnext
  · rw [hsame] at hdiv
    split_ifs <;> omega
  · -- the old claim ends at most one record into the next lap
    have hmul : C.size * (t / C.size) + C.size ≤ C.size * (t' / C.size) := by
      rw [← Nat.mul_succ]
      exact Nat.mul_le_mul_left _ hnext
    split_ifs <;> omega

theorem toEnd_mod_eight (C : Capacity) {tail : Nat} (h : tail % 8 = 0) :
    toEnd C tail % 8 = 0 := by
  have h1 := mod_size_mod_eight C h
  have h2 := C.mod_eight
  unfold toEnd
  omega

theorem padOf_mod_eight (C : Capacity) {tail : Nat} (aligned : Nat) (h : tail % 8 = 0) :
    padOf C tail aligned % 8 = 0 := by
  have := toEnd_mod_eight C h
  unfold padOf
  split <;> omega

/-- After its padding, a claim starts at the beginning of the data region. -/
theorem add_toEnd_mod (C : Capacity) (tail : Nat) : (tail + toEnd C tail) % C.size = 0 := by
  have := C.min
  have hlt := Nat.mod_lt tail (show 0 < C.size by omega)
  unfold toEnd
  rw [← Nat.mod_add_mod, show tail % C.size + (C.size - tail % C.size) = C.size by omega]
  exact Nat.mod_self _

/-- The record of a claim never straddles the wrap point. -/
theorem record_fits (C : Capacity) {tail aligned : Nat} (h : aligned ≤ C.size) :
    (tail + padOf C tail aligned) % C.size + aligned ≤ C.size := by
  have := C.min
  have := Nat.mod_lt tail (show 0 < C.size by omega)
  unfold padOf
  split
  · rw [add_toEnd_mod]; omega
  · rename_i hlt
    unfold toEnd at hlt
    simp only [Nat.add_zero]
    omega

/-- The padding of a claim ends exactly at the wrap point. -/
theorem pad_fits (C : Capacity) (tail aligned : Nat) :
    tail % C.size + padOf C tail aligned ≤ C.size := by
  have := C.min
  have := Nat.mod_lt tail (show 0 < C.size by omega)
  unfold padOf toEnd
  split <;> omega

/-- Padding is shorter than the record it makes room for. -/
theorem padOf_lt (C : Capacity) {tail aligned : Nat} (h : 0 < aligned) :
    padOf C tail aligned < aligned := by
  unfold padOf
  split <;> omega

/-- The signed value of a stored length. -/
def signed (v : Word) : Int := v.toInt

theorem signed_ofInt {n : Int} (h1 : -(2 ^ 31) ≤ n) (h2 : n < 2 ^ 31) :
    signed (BitVec.ofInt 32 n) = n := by
  unfold signed
  rw [BitVec.toInt_ofInt]
  exact Int.bmod_eq_of_le (by norm_num; omega) (by norm_num; omega)

@[simp] theorem signed_zero : signed 0 = 0 := by decide

end GoIpc.Ring
