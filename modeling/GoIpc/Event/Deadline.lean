import Mathlib.Tactic.Linarith

namespace GoIpc.Event

/-!
# Deadlines of the C library

`goipc__deadline` adds a timeout to a reading of the monotonic clock, and `goipc__remaining` takes a
later reading off it.  The one carries seconds and nanoseconds apart, the other puts them together in
one `int64_t`, so it is the second that a very long timeout can overflow.

* `deadline`, `remaining` — the two functions, with the clock reading as an argument;
* `deadline_eq` — a deadline is normalized and exact for every timeout;
* `remaining_exact` — the time left is exact whenever its seconds fit an `int64_t` as nanoseconds;
* `remaining_overflow` — the longest timeout, and a reading taken late.

`time_t` and `long` have 64 bits.
-/

/-- The values of an `int64_t`. -/
def Fits (x : Int) : Prop := -2 ^ 63 ≤ x ∧ x < 2 ^ 63

instance (x : Int) : Decidable (Fits x) := inferInstanceAs (Decidable (_ ∧ _))

/-- The result of a signed operation; `none` is an overflow. -/
def signed (x : Int) : Option Int := if Fits x then some x else none

/-- `struct timespec` -/
structure Timespec where
  sec : Int
  nsec : Int
deriving DecidableEq, Repr

namespace Timespec

/-- A time in nanoseconds. -/
def ns (t : Timespec) : Int := t.sec * 1000000000 + t.nsec

def Normal (t : Timespec) : Prop := 0 ≤ t.nsec ∧ t.nsec < 1000000000

instance (t : Timespec) : Decidable t.Normal := inferInstanceAs (Decidable (_ ∧ _))

/-- A reading of `CLOCK_MONOTONIC`. -/
def Reading (t : Timespec) : Prop := t.Normal ∧ 0 ≤ t.sec ∧ t.sec < 2 ^ 40

instance (t : Timespec) : Decidable t.Reading := inferInstanceAs (Decidable (_ ∧ _))

end Timespec

/-- `goipc__deadline` when the clock reads `now`; the inner `none` is `NULL`. -/
def deadline (timeout : Int) (now : Timespec) : Option (Option Timespec) :=
  if timeout < 0 then some none
  else do
    let sec ← signed (timeout.tdiv 1000000000)
    let nsec ← signed (timeout.tmod 1000000000 + now.nsec)
    if nsec ≥ 1000000000 then
      let nsec ← signed (nsec - 1000000000)
      let sec ← signed (sec + 1)
      let total ← signed (now.sec + sec)
      return some ⟨total, nsec⟩
    else
      let total ← signed (now.sec + sec)
      return some ⟨total, nsec⟩

/-- `goipc__remaining` when the clock reads `now` -/
def remaining (deadline now : Timespec) : Option Timespec := do
  let sec ← signed (deadline.sec - now.sec)
  let sec ← signed (sec * 1000000000)
  let nsec ← signed (deadline.nsec - now.nsec)
  let ns ← signed (sec + nsec)
  let ns := if ns < 0 then 0 else ns
  return ⟨ns.tdiv 1000000000, ns.tmod 1000000000⟩

/-! ### The deadline -/

theorem signed_eq {x : Int} (h : Fits x) : signed x = some x := if_pos h

/-- **A deadline is exact**: it is normalized and `timeout` after the reading, and nothing on the way
    overflows. -/
theorem deadline_eq {timeout : Int} {now : Timespec} (h0 : 0 ≤ timeout) (hmax : Fits timeout)
    (hnow : now.Reading) :
    ∃ d, deadline timeout now = some (some d) ∧ d.Normal ∧ d.ns = now.ns + timeout := by
  obtain ⟨⟨hlo, hhi⟩, hsec, hsec'⟩ := hnow
  have hdiv := Int.tdiv_eq_ediv_of_nonneg (b := 1000000000) h0
  have hmod := Int.tmod_eq_emod_of_nonneg (b := 1000000000) h0
  have hsplit := Int.mul_ediv_add_emod timeout 1000000000
  unfold Fits at hmax
  rw [deadline, if_neg (by omega), hdiv, hmod, signed_eq (by unfold Fits; omega),
    signed_eq (by unfold Fits; omega)]
  by_cases hcarry : timeout % 1000000000 + now.nsec ≥ 1000000000
  · refine ⟨⟨now.sec + (timeout / 1000000000 + 1), timeout % 1000000000 + now.nsec - 1000000000⟩,
      ?_, ?_, ?_⟩
    · simp only [Option.bind_eq_bind, Option.bind_some, if_pos hcarry]
      rw [signed_eq (by unfold Fits; omega), Option.bind_some, signed_eq (by unfold Fits; omega),
        Option.bind_some, signed_eq (by unfold Fits; omega)]
      rfl
    · simp only [Timespec.Normal]
      omega
    · simp only [Timespec.ns]
      omega
  · refine ⟨⟨now.sec + timeout / 1000000000, timeout % 1000000000 + now.nsec⟩, ?_, ?_, ?_⟩
    · simp only [Option.bind_eq_bind, Option.bind_some, if_neg hcarry]
      rw [signed_eq (by unfold Fits; omega)]
      rfl
    · simp only [Timespec.Normal]
      omega
    · simp only [Timespec.ns]
      omega

/-! ### The time left -/

/-- What `goipc__remaining` computes with the seconds and with the nanoseconds left fits. -/
def Left (timeout : Int) (t0 t1 : Timespec) : Prop :=
  Fits ((t0.sec + (timeout + t0.nsec) / 1000000000 - t1.sec) * 1000000000) ∧
    Fits (timeout - (t1.ns - t0.ns))

instance (timeout : Int) (t0 t1 : Timespec) : Decidable (Left timeout t0 t1) :=
  inferInstanceAs (Decidable (_ ∧ _))

/-- Nanoseconds that are not negative, as seconds and nanoseconds. -/
theorem normal_split {ns : Int} (h : 0 ≤ ns) :
    (Timespec.mk (ns.tdiv 1000000000) (ns.tmod 1000000000)).Normal ∧
      (Timespec.mk (ns.tdiv 1000000000) (ns.tmod 1000000000)).ns = ns := by
  simp only [Timespec.Normal, Timespec.ns, Int.tdiv_eq_ediv_of_nonneg h, Int.tmod_eq_emod_of_nonneg h]
  omega

theorem sum_left (d now : Timespec) :
    (d.sec - now.sec) * 1000000000 + (d.nsec - now.nsec) = d.ns - now.ns := by
  simp only [Timespec.ns]
  omega

/-- The time between a normalized deadline and a reading, when no step overflows. -/
theorem remaining_eq {d now : Timespec} (hd : d.Normal) (hnow : now.Normal)
    (hsec : Fits ((d.sec - now.sec) * 1000000000)) (hns : Fits (d.ns - now.ns)) :
    ∃ r, remaining d now = some r ∧ r.Normal ∧ r.ns = max 0 (d.ns - now.ns) := by
  unfold Timespec.Normal at hd hnow
  have hdiff : Fits (d.sec - now.sec) := by
    unfold Fits at hsec ⊢
    omega
  have hnsec : Fits (d.nsec - now.nsec) := by
    unfold Fits
    omega
  have hleft : (if d.ns - now.ns < 0 then 0 else d.ns - now.ns) = max 0 (d.ns - now.ns) := by
    split_ifs <;> omega
  refine ⟨_, ?_, normal_split (le_max_left 0 (d.ns - now.ns))⟩
  simp only [remaining, signed_eq hdiff, signed_eq hsec, signed_eq hnsec, sum_left, signed_eq hns,
    Option.bind_eq_bind, Option.bind_some, hleft, Option.pure_def]

/-- A product or a sum that does not fit is an overflow. -/
theorem remaining_eq_none {d now : Timespec}
    (h : ¬ (Fits ((d.sec - now.sec) * 1000000000) ∧ Fits (d.ns - now.ns))) : remaining d now = none := by
  unfold remaining signed
  by_cases hdiff : Fits (d.sec - now.sec)
  · by_cases hsec : Fits ((d.sec - now.sec) * 1000000000)
    · have hns : ¬ Fits (d.ns - now.ns) := fun hns => h ⟨hsec, hns⟩
      by_cases hnsec : Fits (d.nsec - now.nsec)
      · simp [hdiff, hsec, hnsec, sum_left, hns]
      · simp [hdiff, hnsec]
    · simp [hdiff, hsec]
  · simp [hdiff]

/-- The seconds of a deadline, the carry included. -/
theorem sec_deadline {timeout : Int} {t0 d : Timespec} (hd : d.Normal) (hns : d.ns = t0.ns + timeout) :
    d.sec = t0.sec + (timeout + t0.nsec) / 1000000000 := by
  simp only [Timespec.ns, Timespec.Normal] at hd hns
  omega

/-- **Deadlines keep the timeout.**  For every timeout and all readings `t0` and `t1` the deadline does not
    overflow and is normalized; the time left does not overflow, is exact and normalized, exactly if
    `Left` holds. -/
theorem remaining_exact {timeout : Int} {t0 t1 : Timespec} (h0 : 0 ≤ timeout) (hmax : Fits timeout)
    (ht0 : t0.Reading) (ht1 : t1.Reading) : ∃ d, deadline timeout t0 = some (some d) ∧ d.Normal ∧
      (Left timeout t0 t1 ↔
        ∃ r, remaining d t1 = some r ∧ r.Normal ∧ r.ns = max 0 (timeout - (t1.ns - t0.ns))) := by
  obtain ⟨d, hd, hnormal, hns⟩ := deadline_eq h0 hmax ht0
  have hsum : timeout - (t1.ns - t0.ns) = d.ns - t1.ns := by omega
  rw [Left, ← sec_deadline hnormal hns, hsum]
  refine ⟨d, hd, hnormal, fun hleft => remaining_eq hnormal ht1.1 hleft.1 hleft.2, ?_⟩
  rintro ⟨r, hr, -⟩
  by_contra hleft
  cases (remaining_eq_none hleft).symm.trans hr

/-- A second and a half, read back after 0.8 seconds across a carry. -/
theorem remaining_exact_carry :
    ∃ d, deadline 1500000000 ⟨7, 600000000⟩ = some (some d) ∧ d.Normal ∧
      ∃ r, remaining d ⟨8, 400000000⟩ = some r ∧ r.Normal ∧
        r.ns = max 0 (1500000000 - (Timespec.ns ⟨8, 400000000⟩ - Timespec.ns ⟨7, 600000000⟩)) := by
  have h0 : (0 : Int) ≤ 1500000000 := by decide
  have ht0 : Timespec.Reading ⟨7, 600000000⟩ := by decide
  have ht1 : Timespec.Reading ⟨8, 400000000⟩ := by decide
  obtain ⟨d, hd, hnormal, hexact⟩ := remaining_exact h0 (by decide) ht0 ht1
  exact ⟨d, hd, hnormal, hexact.mp (by decide)⟩

/-- The longest timeout overflows as soon as the deadline carries a second; a reading 293 years after
    the deadline overflows downwards. -/
theorem remaining_overflow :
    Fits (2 ^ 63 - 1) ∧ Timespec.Reading ⟨0, 999999999⟩ ∧ Timespec.Reading ⟨9223372037, 0⟩ ∧
      deadline (2 ^ 63 - 1) ⟨0, 999999999⟩ = some (some ⟨9223372037, 854775806⟩) ∧
      remaining ⟨9223372037, 854775806⟩ ⟨0, 999999999⟩ = none ∧
      deadline 0 ⟨0, 0⟩ = some (some ⟨0, 0⟩) ∧ remaining ⟨0, 0⟩ ⟨9223372037, 0⟩ = none := by
  decide

end GoIpc.Event
