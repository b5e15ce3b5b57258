import GoIpc.Seq.Calls

namespace GoIpc.Seq

open GoIpc.Lib
open GoIpc.Ring (Word typePadding recordHeaderSize hasRoom)

/-!
# Claims on every ring that `initRing` and `AttachRing` admit

A `Capacity` is at most `2 ^ 31`.  The Go ring admits every power of two from 4096 that fits the length
of a slice; here the arithmetic of a claim is followed on all of them.

* `attachRing` — `AttachRing`;
* `Admits` — a capacity that one of the two returns, a power of two from `2 ^ 12` to `2 ^ 62`
  (`Admits.pow`);
* `GoRing.claim_exact` — the range, the bytes and the padding of a claim are exact just up to
  `2 ^ 31 - 16` bytes;
* `GoRing.claim_overflows` — above that the sum in `align` leaves the 32 bits.
-/

/-! ### Admitted capacities -/

inductive AttachFault
  | tooSmall
  | unaligned
  | badLayout
deriving DecidableEq

/-- `AttachRing`: the capacity of the handle.  It does not modify the buffer. -/
def GoRing.attachRing (R : Region) : Except AttachFault Nat :=
  if R.len < headerSize + minCapacity then .error .tooSmall
  else if R.addr % 8 ≠ 0 then .error .unaligned
  else if R.held.magic ≠ ringMagic ∨ R.held.version ≠ ringVersion then .error .badLayout
  else
    let capacity := R.held.capacity
    if capacity < minCapacity ∨ capacity &&& (capacity - 1) ≠ 0 ∨ R.len < headerSize + capacity then
      .error .badLayout
    else .ok capacity

/-- A capacity that `initRing` or `AttachRing` returns for a slice. -/
def Admits (cap : Nat) : Prop :=
  ∃ R : Region, R.len < 2 ^ 63 ∧
    ((∃ consumer b, GoRing.initRing R consumer = .ok (cap, b)) ∨ GoRing.attachRing R = .ok cap)

/-- The test for a power of two. -/
theorem eq_pow_of_and_sub_one {n : Nat} (hpos : 0 < n) (h : n &&& (n - 1) = 0) : ∃ k, n = 2 ^ k := by
  induction n using Nat.strongRecOn with
  | ind n ih =>
    rcases Nat.even_or_odd' n with ⟨m, rfl | rfl⟩
    · have hm : m &&& (m - 1) = 0 := by
        have hdiv : (2 * m &&& (2 * m - 1)) / 2 = m &&& (m - 1) := by
          rw [Nat.and_div_two, show 2 * m / 2 = m by omega, show (2 * m - 1) / 2 = m - 1 by omega]
        rw [← hdiv, h]
      obtain ⟨k, rfl⟩ := ih m (by omega) (by omega) hm
      exact ⟨k + 1, by rw [Nat.pow_succ, Nat.mul_comm]⟩
    · have hm : m = 0 := by
        have hdiv : (2 * m + 1 &&& (2 * m + 1 - 1)) / 2 = m := by
          rw [Nat.and_div_two, show (2 * m + 1) / 2 = m by omega, show (2 * m + 1 - 1) / 2 = m by omega,
            Nat.and_self]
        rw [h] at hdiv
        omega
      exact ⟨0, by omega⟩

/-- The largest power of two up to `n`. -/
theorem shift_size_sub_one {n : Nat} (h : 0 < n) : 1 <<< (Nat.size n - 1) ≤ n := by
  rw [Nat.shiftLeft_eq, Nat.one_mul]
  have hsize : 0 < Nat.size n := Nat.size_pos.mpr h
  exact Nat.lt_size.mp (by omega)

/-- **Admitted capacities** are powers of two from `2 ^ 12` to `2 ^ 62`. -/
theorem Admits.pow {cap : Nat} (h : Admits cap) : ∃ k, 12 ≤ k ∧ k ≤ 62 ∧ cap = 2 ^ k := by
  suffices hpow : minCapacity ≤ cap ∧ cap < 2 ^ 63 ∧ ∃ k, cap = 2 ^ k by
    obtain ⟨hmin, hmax, k, rfl⟩ := hpow
    have hlow : 12 ≤ k := (Nat.pow_le_pow_iff_right (by decide : 1 < 2)).mp hmin
    have hhigh : k < 63 := (Nat.pow_lt_pow_iff_right (by decide : 1 < 2)).mp hmax
    exact ⟨k, hlow, by omega, rfl⟩
  obtain ⟨R, hlen, ⟨consumer, b, hinit⟩ | hattach⟩ := h
  · unfold GoRing.initRing at hinit
    split_ifs at hinit with hsmall
    simp only [Except.ok.injEq, Prod.mk.injEq] at hinit
    obtain ⟨rfl, -⟩ := hinit
    have hroom : minCapacity ≤ R.len - headerSize := by omega
    have hpos : 0 < R.len - headerSize := by unfold minCapacity at hroom; omega
    have hle := shift_size_sub_one hpos
    refine ⟨?_, by omega, _, by rw [Nat.shiftLeft_eq, Nat.one_mul]⟩
    have hsize : 12 < Nat.size (R.len - headerSize) := Nat.lt_size.mpr hroom
    rw [Nat.shiftLeft_eq, Nat.one_mul]
    exact Nat.pow_le_pow_right (by decide : 0 < 2) (Nat.le_sub_one_of_lt hsize)
  · unfold GoRing.attachRing at hattach
    simp only at hattach
    split_ifs at hattach with hsmall haddr hmagic hcap
    cases hattach
    simp only [not_or, not_lt, not_not] at hcap
    obtain ⟨hmin, hand, hfits⟩ := hcap
    exact ⟨hmin, by omega, eq_pow_of_and_sub_one (by unfold minCapacity at hmin; omega) hand⟩

/-- A buffer with all three cursors at one place and nothing else. -/
def blankAt (cursor : Nat) : Buf :=
  ⟨0, 0, 0, 0, 0, cursor, cursor, cursor, 0, 0, fun _ => ⟨0, 0, 0⟩, fun _ => 0⟩

theorem admits_pow {k : Nat} (hlow : 12 ≤ k) (hhigh : k ≤ 62) : Admits (2 ^ k) := by
  have hmin : 2 ^ 12 ≤ 2 ^ k := Nat.pow_le_pow_right (by decide) hlow
  have hmax : 2 ^ k ≤ 2 ^ 62 := Nat.pow_le_pow_right (by decide) hhigh
  have hheader : headerSize = 4 * 128 + Ring.claimSlots * 64 := rfl
  unfold Ring.claimSlots at hheader
  let R : Region := ⟨8, headerSize + 2 ^ k, blankAt 0, by decide, by omega⟩
  refine ⟨R, show headerSize + 2 ^ k < 2 ^ 63 by omega, .inl ⟨0, (R.held.wiped R.len).formatted (2 ^ k) 0, ?_⟩⟩
  have hsize : Nat.size (R.len - headerSize) - 1 = k := by
    show Nat.size (headerSize + 2 ^ k - headerSize) - 1 = k
    rw [Nat.add_sub_cancel_left, Nat.size_pow]
    rfl
  unfold GoRing.initRing
  rw [if_neg (show ¬ headerSize + 2 ^ k < headerSize + minCapacity by unfold minCapacity; omega),
    if_neg (show ¬ 8 % 8 ≠ 0 by decide), hsize, Nat.shiftLeft_eq, Nat.one_mul]

/-! ### The arithmetic of a claim -/

namespace GoRing

/-- `toEnd` of `tryClaim`. -/
def toEnd (cap tail : Nat) : Nat := cap - tail % cap

/-- `need` of `tryClaim`. -/
def need (cap tail aligned : Nat) : Nat :=
  if toEnd cap tail < aligned then add64 aligned (toEnd cap tail) else aligned

theorem tail_take (b : Buf) (cap : Nat) (slot : Option Nat) (typ : Word) (recordLen aligned need : Nat) :
    (b.take cap slot typ recordLen aligned need).1.tail = add64 b.tail need := by
  have h := b.cursors_take cap slot typ recordLen aligned need
  simp only [Buf.cursors, Prod.mk.injEq] at h
  exact h.2.2

theorem index_take (b : Buf) (cap : Nat) (slot : Option Nat) (typ : Word) (recordLen aligned need : Nat) :
    (b.take cap slot typ recordLen aligned need).2 = if need ≠ aligned then 0 else b.tail % cap := by
  unfold Buf.take
  generalize add64 b.tail need = tail
  split <;> rfl

/-- A claim that has found room. -/
def takeRoom (cap : Nat) (slot : Option Nat) (typ : Word) (recordLen : Nat) (b : Buf) :
    Buf × Except Fault Claim :=
  ((b.take cap slot typ recordLen (align recordLen) (need cap b.tail (align recordLen))).1,
    .ok ⟨(b.take cap slot typ recordLen (align recordLen) (need cap b.tail (align recordLen))).2,
      recordLen, slot⟩)

variable {cap : Nat} {b : Buf} {slot : Option Nat} {typ : Word} {recordLen fuel : Nat}

theorem claimLoop_succ :
    claimLoop cap slot typ recordLen (fuel + 1) b =
      if hasRoom b.tail b.headCache cap (need cap b.tail (align recordLen)) then
        some (takeRoom cap slot typ recordLen b)
      else if b.head > b.tail then claimLoop cap slot typ recordLen fuel b
      else if hasRoom b.tail b.head cap (need cap b.tail (align recordLen)) then
        some (takeRoom cap slot typ recordLen { b with headCache := b.head })
      else some (b.release slot, .error .full) := rfl

/-- What a claim that has found room returns depends on the tail alone. -/
theorem takeRoom_ok {tail : Nat} (htail : b.tail = tail) {r : Buf} {c : Claim}
    (h : takeRoom cap slot typ recordLen b = (r, .ok c)) :
    r.tail = add64 tail (need cap tail (align recordLen)) ∧ c.total = recordLen ∧
    c.index = if need cap tail (align recordLen) ≠ align recordLen then 0 else tail % cap := by
  subst htail
  obtain ⟨index, total, slot'⟩ := c
  obtain ⟨hr, hc⟩ := Prod.mk.inj h
  obtain ⟨hindex, htotal, -⟩ := Claim.mk.inj (Except.ok.inj hc)
  rw [index_take] at hindex
  rw [← hr]
  exact ⟨tail_take _ _ _ _ _ _ _, htotal.symm, hindex.symm⟩

/-- A claim that succeeds has found room at the tail. -/
theorem claimLoop_ok {r : Buf} {c : Claim}
    (h : claimLoop cap slot typ recordLen fuel b = some (r, .ok c)) :
    r.tail = add64 b.tail (need cap b.tail (align recordLen)) ∧ c.total = recordLen ∧
    c.index = if need cap b.tail (align recordLen) ≠ align recordLen then 0 else b.tail % cap := by
  induction fuel with
  | zero => cases h
  | succ fuel ih =>
    rw [claimLoop_succ] at h
    split_ifs at h
    · exact takeRoom_ok (b := b) rfl (Option.some_inj.mp h)
    · exact ih h
    · exact takeRoom_ok (b := { b with headCache := b.head }) rfl (Option.some_inj.mp h)
    · cases h

/-- On an empty ring a claim that needs at most the capacity succeeds, whatever the cached head. -/
theorem claimLoop_empty (hempty : b.head = b.tail)
    (hneed : need cap b.tail (align recordLen) ≤ cap) :
    ∃ r c, claimLoop cap slot typ recordLen (fuel + 1) b = some (r, .ok c) := by
  have hroom : hasRoom b.tail b.head cap (need cap b.tail (align recordLen)) = true :=
    Ring.hasRoom_iff.mpr ⟨hempty.le, by omega⟩
  rw [claimLoop_succ, if_neg (show ¬ b.head > b.tail by omega), if_pos hroom]
  split_ifs
  · exact ⟨_, _, rfl⟩
  · exact ⟨_, _, rfl⟩

/-- The record of a claim starts at the tail or, behind its padding, at the start of the region. -/
theorem record_inside {tail aligned n : Nat} (hcap : 0 < cap)
    (hsum : n = aligned + if toEnd cap tail < aligned then toEnd cap tail else 0)
    (hle : recordLen ≤ aligned) (hfits : aligned ≤ cap) :
    (if n ≠ aligned then 0 else tail % cap) + recordLen ≤ cap ∧
    ∃ start, tail ≤ start ∧ start % cap = (if n ≠ aligned then 0 else tail % cap) ∧
      start + recordLen ≤ tail + n := by
  have hmod := Nat.mod_lt tail hcap
  have hdiv := Nat.div_add_mod tail cap
  by_cases hpad : toEnd cap tail < aligned
  · rw [if_pos hpad] at hsum
    unfold toEnd at hpad hsum
    rw [if_pos (show n ≠ aligned by omega)]
    -- the padding ends where the region does
    have hnext : cap * (tail / cap + 1) = cap * (tail / cap) + cap := by
      rw [Nat.mul_add, Nat.mul_one]
    exact ⟨by omega, cap * (tail / cap + 1), by omega, Nat.mul_mod_right .., by omega⟩
  · rw [if_neg hpad, Nat.add_zero] at hsum
    unfold toEnd at hpad
    rw [if_neg (not_not.mpr hsum)]
    exact ⟨by omega, tail, Nat.le_refl _, rfl, by omega⟩

/-- What is exact about a claim of `length` bytes at the tail of `b`. -/
structure ExactClaim (cap length : Nat) (b : Buf) : Prop where
  aligned : IsLeast {n | recordHeaderSize + length ≤ n ∧ 8 ∣ n} (align ↑(recordHeaderSize + length))
  need_eq : need cap b.tail (align ↑(recordHeaderSize + length)) =
    align ↑(recordHeaderSize + length) +
      if toEnd cap b.tail < align ↑(recordHeaderSize + length) then toEnd cap b.tail else 0
  need_le : need cap b.tail (align ↑(recordHeaderSize + length)) ≤ cap
  padding : toEnd cap b.tail < align ↑(recordHeaderSize + length) →
    8 ≤ toEnd cap b.tail ∧ toEnd cap b.tail ≤ 2 ^ 31 - 1
  bytes : ∀ fuel slot typ r c, tryClaim cap fuel slot typ length b = some (r, .ok c) →
    r.tail = add64 b.tail (need cap b.tail (align ↑(recordHeaderSize + length))) ∧
    c.total = recordHeaderSize + length ∧ c.index + c.total ≤ cap ∧
    ∃ start, b.tail ≤ start ∧ start % cap = c.index ∧
      start + c.total ≤ b.tail + need cap b.tail (align ↑(recordHeaderSize + length))
  empty : b.head = b.tail → ∀ fuel slot typ, typ ≠ typePadding →
    ∃ r c, tryClaim cap (fuel + 1) slot typ length b = some (r, .ok c)

/-- A message of at most `2 ^ 31 - 16` bytes has an exact claim: no sum leaves its width. -/
theorem ExactClaim.of_le {length : Nat} (hcap : Admits cap) (htail : b.tail % 8 = 0)
    (hlen : length ≤ maxMessageSize cap) (hshort : length ≤ 2 ^ 31 - 16) : ExactClaim cap length b := by
  obtain ⟨k, hlow, hhigh, hpow⟩ := hcap.pow
  have hmax : cap ≤ 2 ^ 62 := hpow ▸ Nat.pow_le_pow_right (by decide) hhigh
  have hmin : 2 ^ 12 ≤ cap := hpow ▸ Nat.pow_le_pow_right (by decide) hlow
  have hdvd : 16 ∣ cap := hpow ▸ Nat.pow_dvd_pow 2 (show 4 ≤ k by omega)
  have hhalf : recordHeaderSize + length ≤ cap / 2 := by
    unfold maxMessageSize recordHeaderSize at hlen
    unfold recordHeaderSize
    simp only at hlen
    split_ifs at hlen <;> omega
  have halign : align ↑(recordHeaderSize + length) = Ring.align (recordHeaderSize + length) :=
    align_eq (by unfold recordHeaderSize; omega)
  have hleast : IsLeast {n | recordHeaderSize + length ≤ n ∧ 8 ∣ n} (align ↑(recordHeaderSize + length)) := by
    rw [halign]
    exact ⟨⟨Ring.le_align _, Nat.dvd_of_mod_eq_zero (Ring.align_mod _)⟩,
      fun n hn => Ring.align_le hn.1 (Nat.mod_eq_zero_of_dvd hn.2)⟩
  have hbelow : align ↑(recordHeaderSize + length) ≤ cap / 2 := hleast.2 ⟨hhalf, by omega⟩
  -- so the length fits its 32-bit field
  have hsmall : align ↑(recordHeaderSize + length) ≤ 2 ^ 31 - 8 :=
    hleast.2 ⟨by unfold recordHeaderSize; omega, by decide⟩
  have hmod := Nat.mod_lt b.tail (show 0 < cap by omega)
  have height : b.tail % cap % 8 = 0 := by
    rw [Nat.mod_mod_of_dvd _ (Nat.dvd_trans (by decide : 8 ∣ 16) hdvd)]
    exact htail
  have hneed : need cap b.tail (align ↑(recordHeaderSize + length)) = align ↑(recordHeaderSize + length) +
      if toEnd cap b.tail < align ↑(recordHeaderSize + length) then toEnd cap b.tail else 0 := by
    unfold need toEnd
    split_ifs
    · exact add64_of_lt (by omega)
    · exact (Nat.add_zero _).symm
  -- the padding is shorter than the record, and the record at most half of the ring
  have hneedle : need cap b.tail (align ↑(recordHeaderSize + length)) ≤ cap := by
    rw [hneed]
    split_ifs <;> omega
  refine ⟨hleast, hneed, hneedle, ?_, ?_, ?_⟩
  · unfold toEnd
    omega
  · intro fuel slot typ r c h
    unfold tryClaim at h
    split_ifs at h
    · cases h
    · cases h
    · obtain ⟨hr, htotal, hindex⟩ := claimLoop_ok h
      rw [hindex, htotal]
      exact ⟨hr, rfl, record_inside (by omega) hneed hleast.1.1 (by omega)⟩
  · intro hempty fuel slot typ htyp
    unfold tryClaim
    rw [if_neg htyp, if_neg (Nat.not_lt.mpr hlen)]
    exact claimLoop_empty hempty hneedle

/-- From `2 ^ 31 - 7` on the sum in `align` leaves the 32 bits. -/
theorem align_wraps {n : Nat} (hlow : 2 ^ 31 - 7 ≤ n) (hhigh : n < 2 ^ 31) : align n = 2 ^ 64 - 2 ^ 31 := by
  have hsum : Int.bmod (n + 7) (2 ^ 32) = n + 7 - 2 ^ 32 := by
    rw [Int.bmod_eq_iff (by decide)]
    omega
  unfold align
  rw [hsum]
  omega

/-- **Claims on every admitted ring**: the arithmetic of a claim is exact just if the message has at most
    `2 ^ 31 - 16` bytes. -/
theorem claim_exact {length : Nat} (hcap : Admits cap) (htail : b.tail % 8 = 0)
    (hlen : length ≤ maxMessageSize cap) : ExactClaim cap length b ↔ length ≤ 2 ^ 31 - 16 := by
  refine ⟨fun hexact => ?_, ExactClaim.of_le hcap htail hlen⟩
  by_contra hlong
  have hmost : recordHeaderSize + length ≤ 2 ^ 31 - 1 := by
    unfold maxMessageSize recordHeaderSize at hlen
    unfold recordHeaderSize
    simp only at hlen
    split_ifs at hlen <;> omega
  -- `2 ^ 31` is a multiple of 8 that holds the record, and `align` gives more
  have hleast := hexact.aligned.2
    (show 2 ^ 31 ∈ {n | recordHeaderSize + length ≤ n ∧ 8 ∣ n} from ⟨by omega, by decide⟩)
  rw [align_wraps (by unfold recordHeaderSize; omega) (by omega)] at hleast
  exact absurd hleast (by decide)

/-- The longest message with an exact claim, and the next one. -/
theorem claim_exact_longest : ExactClaim (2 ^ 32) (2 ^ 31 - 16) (blankAt 8) ∧
    ¬ ExactClaim (2 ^ 32) (2 ^ 31 - 15) (blankAt 8) := by
  have hcap : Admits (2 ^ 32) := admits_pow (by decide) (by decide)
  exact ⟨(claim_exact hcap (by decide) (by decide)).mpr (by decide),
    fun h => absurd ((claim_exact hcap (by decide) (by decide)).mp h) (by decide)⟩

/-- For the longest message the sum in `align` leaves the 32 bits: the claim needs almost `2 ^ 64` bytes,
    and an empty ring is full. -/
theorem claim_overflows : ∃ cap length b, Admits cap ∧ b.tail % 8 = 0 ∧ length ≤ maxMessageSize cap ∧
    b.head = b.tail ∧ align ↑(recordHeaderSize + length) = 2 ^ 64 - 2 ^ 31 ∧
    tryClaim cap 1 none 0 length b = some (b, .error .full) := by
  refine ⟨2 ^ 32, 2 ^ 31 - 9, blankAt (2 ^ 32 - 8), admits_pow (by decide) (by decide), by decide,
    by decide, rfl, by decide, ?_⟩
  have hfull : hasRoom (2 ^ 32 - 8) (2 ^ 32 - 8) (2 ^ 32)
      (need (2 ^ 32) (2 ^ 32 - 8) (align ((recordHeaderSize + (2 ^ 31 - 9) : Nat) : Int))) = false := by
    decide
  unfold tryClaim
  rw [if_neg (by decide), if_neg (by decide), claimLoop_succ]
  simp only [blankAt, hfull, Bool.false_eq_true, if_false, gt_iff_lt, Nat.lt_irrefl]
  rfl

end GoRing

end GoIpc.Seq
