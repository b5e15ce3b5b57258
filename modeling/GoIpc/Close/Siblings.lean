import GoIpc.Lib.Census
import GoIpc.Lib.Machine
import Mathlib.Data.Nat.Bitwise

namespace GoIpc.Close

open GoIpc.Lib
open Function (update update_self update_of_ne forall_update_iff update_idem update_apply)

/-!
# The gates of the C and C++ libraries

Both libraries guard a close with the protocol of the Go queue, but wait differently.  The C gate
has a flag, a count (`atomic_long`) and a condition variable; the C++ gate keeps flag and count in
one 32-bit word that `drain` waits on with a futex.

* `C.Inv`, `Cpp.Inv` — the count counts the threads between the increment and the decrement, and a
  `drain` that sleeps has somebody to wake it;
* `gates_exact` — both gates, with fewer threads than their counters can count;
* `flooded_gate_lets_in` — 2³¹ threads that back out at once clear the mark of the C++ gate.

An `enter` carries whether it was called after `close`; the code does not look at it.
-/

/-! ### The C gate -/

namespace C

/-- Where a thread stands. -/
inductive Thread
  | out
  /-- `goipc__gate_enter` was called, `late` after the close -/
  | called (late : Bool)
  /-- the count is raised -/
  | added (late : Bool)
  /-- `goipc__gate_enter` returned true -/
  | inside (late : Bool)
  /-- `goipc__gate_enter` found the flag set and calls `goipc__gate_leave` -/
  | refused
  /-- in `goipc__gate_leave`, with the count lowered from one -/
  | last
  /-- the flag was found set -/
  | locking
  /-- holds the mutex, about to broadcast -/
  | broadcasting
  | unlocking
deriving DecidableEq

/-- Where the thread that closes and drains stands. -/
inductive Closer
  | idle
  | closed
  /-- holds the mutex, about to load the count -/
  | loading
  /-- holds the mutex, about to sleep -/
  | sleeping
  | asleep
  /-- out of the sleep, about to take the mutex again -/
  | woken
  | unlocking
  | drained
deriving DecidableEq

inductive Holder
  | drain
  | thread (t : Nat)
deriving DecidableEq

structure State where
  active : Int
  closing : Bool
  mu : Option Holder
  threads : Nat → Thread
  closer : Closer

inductive Act
  | enter (t : Nat)
  | leave (t : Nat)
  | step (t : Nat)
  | close
  | drain
  /-- a spurious wakeup -/
  | wakeup
deriving DecidableEq

/-- An `atomic_long` wraps around. -/
def long (n : Int) : Int := n.bmod (2 ^ 64)

namespace State

def start : State := ⟨0, false, none, fun _ => .out, .idle⟩

def move (s : State) (t : Nat) (v : Thread) : State :=
  { s with threads := update s.threads t v }

/-- `goipc__gate_leave` up to its decrement. -/
def lower (s : State) (t : Nat) : State :=
  { s.move t (if s.active = 1 then .last else .out) with active := long (s.active - 1) }

/-- One step of the gate with threads `0 … N - 1`. -/
def step (N : Nat) (s : State) : Act → Option State
  | .enter t =>
      if t < N ∧ s.threads t = .out then some (s.move t (.called (s.closer ≠ .idle))) else none
  | .leave t =>
      match s.threads t with
      | .inside _ => some (s.lower t)
      | _ => none
  | .step t =>
      match s.threads t with
      | .called late => some { s.move t (.added late) with active := long (s.active + 1) }
      | .added late => some (s.move t (if s.closing then .refused else .inside late))
      | .refused => some (s.lower t)
      | .last => some (s.move t (if s.closing then .locking else .out))
      | .locking =>
          if s.mu = none then some { s.move t .broadcasting with mu := some (.thread t) } else none
      | .broadcasting =>
          some { s.move t .unlocking with closer := if s.closer = .asleep then .woken else s.closer }
      | .unlocking => some { s.move t .out with mu := none }
      | .out | .inside _ => none
  | .close => if s.closer = .idle then some { s with closing := true, closer := .closed } else none
  | .drain =>
      match s.closer with
      | .closed | .woken =>
          if s.mu = none then some { s with mu := some .drain, closer := .loading } else none
      | .loading => some { s with closer := if s.active > 0 then .sleeping else .unlocking }
      -- `pthread_cond_wait` gives the mutex up and sleeps in one step
      | .sleeping => some { s with mu := none, closer := .asleep }
      | .unlocking => some { s with mu := none, closer := .drained }
      | .idle | .asleep | .drained => none
  | .wakeup => if s.closer = .asleep then some { s with closer := .woken } else none

end State

def gate (N : Nat) : Machine State Act := ⟨State.start, State.step N⟩

/-- A thread the count includes. -/
def Thread.counted : Thread → Prop
  | .added _ | .inside _ | .refused => True
  | _ => False

/-- A leaver that still has its wake to perform. -/
def Thread.wakes : Thread → Prop
  | .last | .locking | .broadcasting => True
  | _ => False

/-- A thread that holds the mutex. -/
def Thread.holds : Thread → Prop
  | .broadcasting | .unlocking => True
  | _ => False

/-- A place of `drain` with the mutex. -/
def Closer.holds : Closer → Prop
  | .loading | .sleeping | .unlocking => True
  | _ => False

/-- A place of `drain` from which only a wake leads on. -/
def Closer.waits : Closer → Prop
  | .sleeping | .asleep => True
  | _ => False

/-- `drain` has found the count at zero. -/
def Closer.through : Closer → Prop
  | .unlocking | .drained => True
  | _ => False

/-- What a thread's place says about the gate. -/
structure Placed (N : Nat) (s : State) (t : Nat) (v : Thread) : Prop where
  few : v ≠ .out → t < N
  called : v = .called true ∨ v = .added true → s.closer ≠ .idle
  inside : ∀ late, v = .inside late → late = false ∧ ¬ s.closer.through
  holds : v.holds → s.mu = some (.thread t)

structure Inv (N : Nat) (s : State) : Prop where
  count : Census (fun t => (s.threads t).counted) s.active
  flag : s.closing = true ↔ s.closer ≠ .idle
  placed : ∀ t, Placed N s t (s.threads t)
  holds : s.closer.holds → s.mu = some .drain
  waits : s.closer.waits → 0 < s.active ∨ ∃ t, (s.threads t).wakes

variable {N : Nat} {s s' : State} {t : Nat} {v : Thread}

/-- Places that say nothing about the gate. -/
theorem Placed.plain (hfew : v ≠ .out → t < N)
    (hv : v = .out ∨ v = .refused ∨ v = .last ∨ v = .locking) : Placed N s t v := by
  refine ⟨hfew, ?_, ?_, ?_⟩ <;> rcases hv with rfl | rfl | rfl | rfl <;> simp [Thread.holds]

theorem Inv.start : Inv N State.start where
  count := Census.empty (fun _ h => h)
  flag := by simp [State.start]
  placed t := .plain (fun h => absurd rfl h) (.inl rfl)
  holds h := h.elim
  waits h := h.elim

/-- The count stays in its range. -/
theorem Inv.active_lt (h : Inv N s) : 0 ≤ s.active ∧ s.active ≤ N := by
  refine ⟨h.count.nonneg, h.count.le (fun u hu => (h.placed u).few ?_)⟩
  intro hout
  rwa [hout] at hu

theorem long_eq {n : Int} (h0 : -(2 ^ 63) ≤ n) (h1 : n < 2 ^ 63) : long n = n := by
  unfold long
  rw [Int.bmod_def]
  split <;> omega

/-- A place stays right when only what it does not mention changes. -/
theorem Placed.keep (h : Placed N s t v) (hidle : s.closer ≠ .idle → s'.closer ≠ .idle)
    (hthrough : s'.closer.through → s.closer.through ∨ ∀ late, v ≠ .inside late)
    (hmu : s.mu = some (.thread t) → s'.mu = some (.thread t)) : Placed N s' t v :=
  ⟨h.few, fun hv => hidle (h.called hv),
    fun late hv => ⟨(h.inside late hv).1, fun hthr => (hthrough hthr).elim
      (h.inside late hv).2 (fun hnot => hnot late hv)⟩, fun hv => hmu (h.holds hv)⟩

/-- The threads after a move of `t`. -/
theorem Inv.placed_move (h : Inv N s) (hv : Placed N s' t v)
    (hthreads : s'.threads = update s.threads t v)
    (hother : ∀ u, u ≠ t → Placed N s u (s.threads u) → Placed N s' u (s.threads u)) (u : Nat) :
    Placed N s' u (s'.threads u) := by
  rw [hthreads]
  exact (forall_update_iff s.threads (Placed N s')).mpr
    ⟨hv, fun u hu => hother u hu (h.placed u)⟩ u

/-- A leaver other than `t` still has its wake to perform after a move of `t`. -/
theorem wakes_move (h : ∃ u, (s.threads u).wakes) (ht : ¬ (s.threads t).wakes ∨ v.wakes) :
    ∃ u, (update s.threads t v u).wakes := by
  refine (Function.exists_update_iff s.threads fun _ x => x.wakes).mpr ?_
  by_cases hv : v.wakes
  · exact .inl hv
  · obtain ⟨u, hu⟩ := h
    refine .inr ⟨u, ?_, hu⟩
    rintro rfl
    exact ht.elim (absurd hu) hv

/-- A thread moves, and the count with it. -/
theorem Inv.visit (h : Inv N s) {n : Int}
    (hcount : Census (fun u => (update s.threads t v u).counted) n)
    (hplaced : Placed N s t v)
    (hwaits : s.closer.waits → 0 < n ∨ ∃ u, (update s.threads t v u).wakes) :
    Inv N { s.move t v with active := n } :=
  ⟨hcount, h.flag, h.placed_move ⟨hplaced.few, hplaced.called, hplaced.inside, hplaced.holds⟩ rfl
    (fun _ _ hu => ⟨hu.few, hu.called, hu.inside, hu.holds⟩), h.holds, hwaits⟩

/-- A thread moves, and nothing else changes. -/
theorem Inv.move (h : Inv N s) (hv : v.counted ↔ (s.threads t).counted) (hplaced : Placed N s t v)
    (hwakes : s.closer.waits → ¬ (s.threads t).wakes ∨ v.wakes) : Inv N (s.move t v) :=
  h.visit (h.count.stay hv) hplaced
    fun hw => (h.waits hw).imp id fun hex => wakes_move hex (hwakes hw)

/-- The increment. -/
theorem Inv.raise (hN : N < 2 ^ 63) (h : Inv N s) {late : Bool} (hpc : s.threads t = .called late) :
    Inv N { s.move t (.added late) with active := long (s.active + 1) } := by
  have hplaced := h.placed t
  rw [hpc] at hplaced
  have hfew : t < N := hplaced.few (by simp)
  have hcount : Census (fun u => (update s.threads t (.added late) u).counted)
      (s.active + 1) := h.count.enter (hpc ▸ id) trivial
  have hle : s.active + 1 ≤ N := by
    refine hcount.le ((forall_update_iff s.threads fun u x => x.counted → u < N).mpr
      ⟨fun _ => hfew, fun u _ hu => (h.placed u).few fun hout => ?_⟩)
    rwa [hout] at hu
  have hrange := h.active_lt
  have hlong : long (s.active + 1) = s.active + 1 := long_eq (by omega) (by omega)
  rw [hlong]
  refine h.visit hcount ⟨fun _ => hfew, ?_, nofun, fun hv => hv.elim⟩
    fun _ => .inl (by omega)
  rintro (hv | hv)
  · cases hv
  · cases hv
    exact hplaced.called (.inl rfl)

/-- The decrement. -/
theorem Inv.lower (hN : N < 2 ^ 63) (h : Inv N s) (ht : (s.threads t).counted) :
    Inv N (s.lower t) := by
  have hrange := h.active_lt
  have hpos : 0 < s.active := h.count.pos ht
  have hlong : long (s.active - 1) = s.active - 1 := long_eq (by omega) (by omega)
  have htN : t < N := (h.placed t).few (fun hout => by rw [hout] at ht; exact ht)
  have hv : ∀ v : Thread, v = (if s.active = 1 then .last else .out) →
      ¬ v.counted ∧ Placed N s t v := by
    rintro v rfl
    split
    · exact ⟨id, .plain (fun _ => htN) (by simp)⟩
    · exact ⟨id, .plain (fun _ => htN) (by simp)⟩
  obtain ⟨hout, hplaced⟩ := hv _ rfl
  rw [State.lower, hlong]
  refine h.visit (h.count.exit ht hout) hplaced fun _ => ?_
  by_cases hone : s.active = 1
  · -- the last one out has its wake to perform
    refine .inr ⟨t, ?_⟩
    rw [update_self, if_pos hone]
    trivial
  · exact .inl (by omega)

/-- The flag is looked at: a thread that comes in was not called after the close. -/
theorem Inv.admit (h : Inv N s) {late : Bool} (hpc : s.threads t = .added late) :
    Inv N (s.move t (if s.closing then .refused else .inside late)) := by
  have hplaced := h.placed t
  rw [hpc] at hplaced
  have hfew : t < N := hplaced.few (by simp)
  refine h.move ?_ ?_ (by rw [hpc]; exact fun _ => .inl id)
  · rw [hpc]
    split <;> exact Iff.rfl
  · split
    · exact .plain (fun _ => hfew) (by simp)
    · next hopen =>
      -- the flag is not set, so nobody has called `close`
      have hidle : s.closer = .idle := by
        by_contra hne
        exact hopen (h.flag.mpr hne)
      refine ⟨fun _ => hfew, by simp, ?_, fun hv => hv.elim⟩
      intro late' hv
      cases hv
      refine ⟨?_, by rw [hidle]; exact id⟩
      cases late with
      | false => rfl
      | true => exact absurd hidle (hplaced.called (.inr rfl))

/-- The last one out takes the mutex. -/
theorem Inv.lock (h : Inv N s) (hpc : s.threads t = .locking) (hfree : s.mu = none) :
    Inv N { s.move t .broadcasting with mu := some (.thread t) } := by
  have hfew : t < N := (h.placed t).few (by rw [hpc]; simp)
  refine ⟨h.count.stay (hpc ▸ Iff.rfl), h.flag,
    h.placed_move (v := .broadcasting) ⟨fun _ => hfew, by simp, by simp, fun _ => rfl⟩ rfl
      (fun u _ hu => hu.keep id .inl (fun hm => ?_)), fun hc => ?_,
    fun hw => (h.waits hw).imp id fun hex => wakes_move hex (.inr trivial)⟩
  · rw [hfree] at hm
    cases hm
  · exact absurd (hfree.symm.trans (h.holds hc)) (by simp)

/-- The last one out wakes a `drain` that sleeps. -/
theorem Inv.broadcast (h : Inv N s) (hpc : s.threads t = .broadcasting) :
    Inv N { s.move t .unlocking with
      closer := if s.closer = .asleep then .woken else s.closer } := by
  have hplaced := h.placed t
  rw [hpc] at hplaced
  have hmu := hplaced.holds trivial
  have hnot : ¬ s.closer.holds := fun hc => absurd (hmu.symm.trans (h.holds hc)) (by simp)
  have hcloser : ∀ c, c = (if s.closer = .asleep then .woken else s.closer) →
      (c = .idle ↔ s.closer = .idle) ∧ (c.through ↔ s.closer.through) ∧ ¬ c.holds ∧
        ¬ c.waits := by
    rintro c rfl
    split
    · next hc =>
      rw [hc]
      simp [Closer.through, Closer.holds, Closer.waits]
    · next hc =>
      refine ⟨Iff.rfl, Iff.rfl, hnot, fun hw => ?_⟩
      cases hpc' : s.closer <;> simp_all [Closer.waits, Closer.holds]
  obtain ⟨hidle, hthrough, hholds, hwaits⟩ := hcloser _ rfl
  exact ⟨h.count.stay (hpc ▸ Iff.rfl), h.flag.trans (not_congr hidle.symm),
    h.placed_move (v := .unlocking) ⟨fun _ => hplaced.few (by simp), by simp, by simp,
      fun _ => hmu⟩ rfl (fun u _ hu => hu.keep (mt hidle.mp) (fun h => .inl (hthrough.mp h)) id),
    fun hc => absurd hc hholds, fun hw => absurd hw hwaits⟩

/-- The last one out gives the mutex up. -/
theorem Inv.unlock (h : Inv N s) (hpc : s.threads t = .unlocking) :
    Inv N { s.move t .out with mu := none } := by
  have hmu : s.mu = some (.thread t) := (h.placed t).holds (hpc ▸ trivial)
  refine ⟨h.count.stay (hpc ▸ Iff.rfl), h.flag,
    h.placed_move (v := .out) (.plain (by simp) (by simp)) rfl
      (fun u hu hpl => hpl.keep id .inl (fun hm => ?_)),
    fun hc => absurd (hmu.symm.trans (h.holds hc)) (by simp),
    fun hw => (h.waits hw).imp id fun hex => wakes_move hex (.inl (hpc ▸ id))⟩
  rw [hmu] at hm
  cases hm
  exact absurd rfl hu

/-- A step of `drain` after the close. -/
theorem Inv.closer_step (h : Inv N s) {c : Closer} {m : Option Holder} (hidle : s.closer ≠ .idle)
    (hc : c ≠ .idle) (hmu : ∀ t, s.mu = some (.thread t) → m = some (.thread t))
    (hthrough : c.through → s.closer.through ∨ ∀ t late, s.threads t ≠ .inside late)
    (hholds : c.holds → m = some .drain)
    (hwaits : c.waits → s.closer.waits ∨ 0 < s.active) :
    Inv N { s with mu := m, closer := c } :=
  ⟨h.count, ⟨fun _ => hc, fun _ => h.flag.mpr hidle⟩,
    fun t => (h.placed t).keep (fun _ => hc) (fun hthr => (hthrough hthr).imp id (fun hn => hn t))
      (hmu t), hholds, fun hw => (hwaits hw).elim h.waits .inl⟩

/-- **A step of a thread.** -/
theorem Inv.step_thread (hN : N < 2 ^ 63) (h : Inv N s) (hs : s.step N (.step t) = some s') :
    Inv N s' := by
  cases hpc : s.threads t with
  | out | inside late =>
    simp only [State.step, hpc] at hs
    cases hs
  | called late =>
    simp only [State.step, hpc] at hs
    cases hs
    exact h.raise hN hpc
  | added late =>
    simp only [State.step, hpc] at hs
    cases hs
    exact h.admit hpc
  | refused =>
    simp only [State.step, hpc] at hs
    cases hs
    exact h.lower hN (hpc ▸ trivial)
  | last =>
    simp only [State.step, hpc] at hs
    cases hs
    have hfew : t < N := (h.placed t).few (by rw [hpc]; simp)
    refine h.move ?_ ?_ (fun hw => .inr ?_)
    · rw [hpc]
      split <;> exact Iff.rfl
    · split <;> exact .plain (fun _ => hfew) (by simp)
    · -- a `drain` that waits comes after the close
      rw [if_pos (h.flag.mpr (fun hidle => by rw [hidle] at hw; exact hw))]
      trivial
  | locking =>
    simp only [State.step, hpc] at hs
    split_ifs at hs with hfree
    cases hs
    exact h.lock hpc hfree
  | broadcasting =>
    simp only [State.step, hpc] at hs
    cases hs
    exact h.broadcast hpc
  | unlocking =>
    simp only [State.step, hpc] at hs
    cases hs
    exact h.unlock hpc

/-- **A step of `drain`**: it goes through after it found the count at zero. -/
theorem Inv.step_drain (h : Inv N s) (hs : s.step N .drain = some s') : Inv N s' := by
  cases hpc : s.closer with
  | idle | asleep | drained =>
    simp only [State.step, hpc] at hs
    cases hs
  | closed | woken =>
    simp only [State.step, hpc] at hs
    split_ifs at hs with hfree
    cases hs
    exact h.closer_step (by simp [hpc]) (by simp) (fun t hm => by rw [hfree] at hm; cases hm)
      (fun hc => hc.elim) (fun _ => rfl) (fun hc => hc.elim)
  | loading =>
    simp only [State.step, hpc] at hs
    cases hs
    refine h.closer_step (by simp [hpc]) (by split <;> simp) (fun _ hm => hm) ?_ ?_ ?_
    · split
      · exact fun hc => hc.elim
      · next hzero =>
        refine fun _ => .inr (fun t late hin => h.count.none_of_le (not_lt.mp hzero) t ?_)
        rw [hin]
        trivial
    · exact fun _ => h.holds (hpc ▸ trivial)
    · split
      · next hpos => exact fun _ => .inr hpos
      · exact fun hc => hc.elim
  | sleeping | unlocking =>
    simp only [State.step, hpc] at hs
    cases hs
    have hmu := h.holds (hpc ▸ trivial)
    exact h.closer_step (by simp [hpc]) (by simp) (fun t hm => by rw [hmu] at hm; cases hm)
      (fun hc => by first | exact hc.elim | exact .inl (hpc ▸ trivial)) (fun hc => hc.elim)
      (fun hc => by first | exact hc.elim | exact .inl (hpc ▸ trivial))

/-- **Every step keeps the invariant.** -/
theorem Inv.step (hN : N < 2 ^ 63) {a : Act} (h : Inv N s) (hs : s.step N a = some s') :
    Inv N s' := by
  cases a with
  | step t => exact h.step_thread hN hs
  | drain => exact h.step_drain hs
  | enter t =>
    simp only [State.step] at hs
    split_ifs at hs with hout
    cases hs
    refine h.move ?_ ⟨fun _ => hout.1, ?_, nofun, fun hv => hv.elim⟩ ?_
    · rw [hout.2]
      exact Iff.rfl
    · simp
    · rw [hout.2]
      exact fun _ => .inl id
  | leave t =>
    simp only [State.step] at hs
    split at hs <;> cases hs
    next hin =>
      exact h.lower hN (hin ▸ trivial)
  | close =>
    simp only [State.step] at hs
    split_ifs at hs
    cases hs
    exact ⟨h.count, by simp, fun t => (h.placed t).keep (by simp) (fun hthr => hthr.elim) id,
      fun hc => hc.elim, fun hw => hw.elim⟩
  | wakeup =>
    simp only [State.step] at hs
    split_ifs at hs with hpc
    cases hs
    exact h.closer_step (by simp [hpc]) (by simp) (fun _ hm => hm) (fun hc => hc.elim)
      (fun hc => hc.elim) (fun hc => hc.elim)

end C

/-! ### The C++ gate -/

namespace Cpp

/-- Where a thread stands. -/
inductive Thread
  | out
  /-- `enter` was called, `late` after the close -/
  | called (late : Bool)
  /-- `enter` returned true -/
  | inside (late : Bool)
  /-- `enter` found the mark and calls `leave` -/
  | refused
  /-- in `leave`, about to wake -/
  | waking
deriving DecidableEq

/-- Where the thread that closes and drains stands. -/
inductive Closer
  | idle
  /-- in `drain`, about to load the word -/
  | closed
  /-- about to call `futex_wait` with the value it loaded -/
  | waiting (v : BitVec 32)
  | asleep
  | drained
deriving DecidableEq

structure State where
  word : BitVec 32
  threads : Nat → Thread
  closer : Closer

inductive Act
  | enter (t : Nat)
  | leave (t : Nat)
  | step (t : Nat)
  | close
  | drain
  /-- a spurious wakeup -/
  | wakeup
deriving DecidableEq

def closingBit : BitVec 32 := 0x80000000#32

namespace State

def start : State := ⟨0, fun _ => .out, .idle⟩

def move (s : State) (t : Nat) (v : Thread) : State :=
  { s with threads := update s.threads t v }

/-- `leave` up to its decrement. -/
def lower (s : State) (t : Nat) : State :=
  { s.move t (if s.word = closingBit ||| 1 then .waking else .out) with word := s.word - 1 }

/-- One step of the gate with threads `0 … N - 1`. -/
def step (N : Nat) (s : State) : Act → Option State
  | .enter t =>
      if t < N ∧ s.threads t = .out then some (s.move t (.called (s.closer ≠ .idle))) else none
  | .leave t =>
      match s.threads t with
      | .inside _ => some (s.lower t)
      | _ => none
  | .step t =>
      match s.threads t with
      | .called late =>
          some { s.move t (if s.word &&& closingBit ≠ 0 then .refused else .inside late) with
            word := s.word + 1 }
      | .refused => some (s.lower t)
      | .waking =>
          some { s.move t .out with closer := if s.closer = .asleep then .closed else s.closer }
      | .out | .inside _ => none
  | .close =>
      if s.closer = .idle then some { s with word := s.word ||| closingBit, closer := .closed }
      else none
  | .drain =>
      match s.closer with
      | .closed =>
          some { s with closer := if s.word = closingBit then .drained else .waiting s.word }
      -- the futex sleeps only if the word still has the expected value
      | .waiting v => some { s with closer := if s.word = v then .asleep else .closed }
      | .idle | .asleep | .drained => none
  | .wakeup => if s.closer = .asleep then some { s with closer := .closed } else none

end State

def gate (N : Nat) : Machine State Act := ⟨State.start, State.step N⟩

/-- A thread the count includes. -/
def Thread.counted : Thread → Prop
  | .inside _ | .refused => True
  | _ => False

/-- What a thread's place says about the gate. -/
structure Placed (N : Nat) (s : State) (t : Nat) (v : Thread) : Prop where
  few : v ≠ .out → t < N
  called : v = .called true → s.closer ≠ .idle
  inside : ∀ late, v = .inside late → late = false ∧ s.closer ≠ .drained

/-- The word is the mark and the count of the threads inside. -/
structure Inv (N n : Nat) (s : State) : Prop where
  count : Census (fun t => (s.threads t).counted) n
  word : s.word.toNat = (if s.closer = .idle then 0 else 2 ^ 31) + n
  placed : ∀ t, Placed N s t (s.threads t)
  waiting : ∀ v, s.closer = .waiting v → v ≠ closingBit
  asleep : s.closer = .asleep → 0 < n ∨ ∃ t, s.threads t = .waking

variable {N n : Nat} {s s' : State} {t : Nat} {v : Thread}

/-- Places that say nothing about the gate. -/
theorem Placed.plain (hfew : v ≠ .out → t < N) (hv : v = .out ∨ v = .refused ∨ v = .waking) :
    Placed N s t v := by
  refine ⟨hfew, ?_, ?_⟩ <;> rcases hv with rfl | rfl | rfl <;> simp

theorem Inv.start : Inv N 0 State.start where
  count := Census.empty (fun _ h => h)
  word := rfl
  placed t := .plain (fun h => absurd rfl h) (.inl rfl)
  waiting v h := by cases h
  asleep h := by cases h

theorem Inv.le (h : Inv N n s) : n ≤ N := by
  have := h.count.le (N := N) (fun u hu => (h.placed u).few (fun hout => by
    rw [hout] at hu
    exact hu))
  omega

/-- The mark is the top bit. -/
theorem closing_iff (w : BitVec 32) : w &&& closingBit ≠ 0 ↔ 2 ^ 31 ≤ w.toNat := by
  have hbit : (w &&& closingBit).toNat = (w.toNat.testBit 31).toNat * 2 ^ 31 := by
    rw [BitVec.toNat_and]
    exact Nat.and_two_pow w.toNat 31
  have htest : w.toNat.testBit 31 = decide (2 ^ 31 ≤ w.toNat) := by
    rw [Nat.testBit_eq_decide_div_mod_eq]
    have := w.isLt
    simp only [decide_eq_decide]
    omega
  rw [ne_eq, ← BitVec.toNat_inj, hbit, htest]
  by_cases hw : 2 ^ 31 ≤ w.toNat <;> simp

theorem toNat_mark {w : BitVec 32} (h : w.toNat < 2 ^ 31) :
    (w ||| closingBit).toNat = 2 ^ 31 + w.toNat := by
  rw [BitVec.toNat_or, Nat.or_comm]
  exact (Nat.two_pow_add_eq_or_of_lt (i := 31) h 1).symm

/-- The count is the rest of the word. -/
theorem count_eq {w : BitVec 32} (hw : w.toNat = 2 ^ 31 + n) :
    (w &&& ~~~closingBit).toNat = n := by
  rw [BitVec.toNat_and, hw, show (~~~closingBit).toNat = 2 ^ 31 - 1 from rfl,
    Nat.and_two_pow_sub_one_eq_mod]
  omega

/-- A place stays right while `close` and `drain` do not go on. -/
theorem Placed.keep (h : Placed N s t v) (hidle : s.closer ≠ .idle → s'.closer ≠ .idle)
    (hdrained : s'.closer = .drained → s.closer = .drained ∨ ∀ late, v ≠ .inside late) :
    Placed N s' t v :=
  ⟨h.few, fun hc => hidle (h.called hc), fun late hin => ⟨(h.inside late hin).1,
    fun hd => (hdrained hd).elim (h.inside late hin).2 fun hnot => hnot late hin⟩⟩

/-- A thread moves, the count and the word with it; `drain` may be woken. -/
theorem Inv.visit (h : Inv N n s) {m : Nat} {w : BitVec 32} {c : Closer}
    (hcount : Census (fun u => (update s.threads t v u).counted) m)
    (hword : w.toNat = (if s.closer = .idle then 0 else 2 ^ 31) + m) (hplaced : Placed N s t v)
    (hc : c = s.closer ∨ s.closer = .asleep ∧ c = .closed)
    (hasleep : c = .asleep → 0 < m ∨ ∃ u, update s.threads t v u = .waking) :
    Inv N m { s.move t v with word := w, closer := c } := by
  have hidle : c = .idle ↔ s.closer = .idle := by
    rcases hc with rfl | ⟨hs, rfl⟩
    · exact Iff.rfl
    · simp [hs]
  have hkeep : ∀ {u x}, Placed N s u x → Placed N { s.move t v with word := w, closer := c } u x := by
    intro u x hx
    refine hx.keep (mt hidle.mp) fun hd => .inl ?_
    rcases hc with rfl | ⟨-, rfl⟩
    · exact hd
    · cases hd
  refine ⟨hcount, ?_, ?_, fun v hv => ?_, hasleep⟩
  · show w.toNat = (if c = .idle then 0 else 2 ^ 31) + m
    simp only [hidle]
    exact hword
  · exact (forall_update_iff s.threads (Placed N _)).mpr
      ⟨hkeep hplaced, fun u _ => hkeep (h.placed u)⟩
  · rcases hc with rfl | ⟨-, rfl⟩
    · exact h.waiting v hv
    · cases hv

/-- A leaver other than `t` still has its wake to perform after a move of `t`. -/
theorem waking_move (h : ∃ u, s.threads u = .waking) (ht : s.threads t ≠ .waking) :
    ∃ u, update s.threads t v u = .waking := by
  obtain ⟨u, hu⟩ := h
  refine ⟨u, ?_⟩
  rw [update_of_ne]
  · exact hu
  · rintro rfl
    exact ht hu

/-- The increment: a thread that comes in was not called after the close. -/
theorem Inv.raise (hN : N < 2 ^ 31) (h : Inv N n s) {late : Bool} (hpc : s.threads t = .called late) :
    Inv N (n + 1) { s.move t (if s.word &&& closingBit ≠ 0 then .refused else .inside late) with
      word := s.word + 1 } := by
  have hplaced := h.placed t
  have hword := h.word
  rw [hpc] at hplaced
  have hfew : t < N := hplaced.few (by simp)
  have hle := h.le
  generalize hv : (if s.word &&& closingBit ≠ 0 then Thread.refused else .inside late) = v
  have hcounted : v.counted := by
    rw [← hv]
    split <;> trivial
  have hcount : Census (fun u => (update s.threads t v u).counted) (n + 1 : Nat) := by
    exact_mod_cast h.count.enter (by rw [hpc]; exact id) hcounted
  have hplaced' : Placed N s t v := by
    rw [← hv]
    split
    · exact .plain (fun _ => hfew) (by simp)
    · next hopen =>
      -- the mark is not set, so nobody has called `close`
      have hidle : s.closer = .idle := by
        by_contra hne
        rw [if_neg hne] at hword
        exact hopen ((closing_iff s.word).mpr (by omega))
      refine ⟨fun _ => hfew, by simp, fun late' hin => ?_⟩
      cases hin
      refine ⟨?_, by rw [hidle]; simp⟩
      cases late with
      | false => rfl
      | true => exact absurd hidle (hplaced.called rfl)
  have hle' : ((n + 1 : Nat) : Int) ≤ N := by
    refine hcount.le ((forall_update_iff s.threads fun u x => x.counted → u < N).mpr
      ⟨fun _ => hfew, fun u _ hu => (h.placed u).few fun hout => ?_⟩)
    rwa [hout] at hu
  refine h.visit hcount ?_ hplaced' (.inl rfl) fun _ => .inl (by omega)
  rw [BitVec.toNat_add, hword]
  split <;> simp <;> omega

/-- The decrement. -/
theorem Inv.lower (hN : N < 2 ^ 31) (h : Inv N n s) (ht : (s.threads t).counted) :
    Inv N (n - 1) (s.lower t) := by
  have hle := h.le
  have hpos : 0 < n := by
    have := h.count.pos ht
    omega
  have hword := h.word
  have hfew : t < N := (h.placed t).few (fun hout => by rw [hout] at ht; exact ht)
  have hlast : s.word = closingBit ||| 1 ↔ s.closer ≠ .idle ∧ n = 1 := by
    rw [← BitVec.toNat_inj, show (closingBit ||| 1).toNat = 2 ^ 31 + 1 from rfl]
    split at hword
    · next hidle => simp only [hidle, ne_eq, not_true, false_and, iff_false]; omega
    · next hidle => simp only [ne_eq, hidle, not_false_eq_true, true_and]; omega
  have hv : ∀ v : Thread, v = (if s.word = closingBit ||| 1 then .waking else .out) →
      ¬ v.counted ∧ Placed N s t v := by
    rintro v rfl
    split
    · exact ⟨id, .plain (fun _ => hfew) (by simp)⟩
    · exact ⟨id, .plain (fun _ => hfew) (by simp)⟩
  obtain ⟨hout, hplaced⟩ := hv _ rfl
  refine h.visit ?_ ?_ hplaced (.inl rfl) fun (hsleep : s.closer = .asleep) => ?_
  · rw [show ((n - 1 : Nat) : Int) = (n : Int) - 1 by omega]
    exact h.count.exit ht hout
  · rw [BitVec.toNat_sub, hword]
    split <;> simp <;> omega
  · by_cases hone : n = 1
    · -- the last one out wakes
      refine .inr ⟨t, ?_⟩
      rw [update_self, if_pos (hlast.mpr ⟨by rw [hsleep]; simp, hone⟩)]
    · exact .inl (by omega)

/-- A step of `drain` after the close. -/
theorem Inv.closer_step (h : Inv N n s) {c : Closer} (hidle : s.closer ≠ .idle) (hc : c ≠ .idle)
    (hdrained : c = .drained → n = 0) (hwaiting : ∀ v, c = .waiting v → v ≠ closingBit)
    (hasleep : c = .asleep → 0 < n) : Inv N n { s with closer := c } := by
  have hword := h.word
  rw [if_neg hidle] at hword
  refine ⟨h.count, ?_, fun t => (h.placed t).keep (fun _ => hc) fun hd => .inr fun late hin => ?_,
    hwaiting, fun hs => .inl (hasleep hs)⟩
  · show s.word.toNat = (if c = .idle then 0 else 2 ^ 31) + n
    rwa [if_neg hc]
  · refine absurd ?_ (h.count.none_of_le (by rw [hdrained hd]; rfl) t)
    rw [hin]
    trivial

/-- **A step of `drain`**: it returns after it found the bare mark, and sleeps only on a word that
    is not the bare mark. -/
theorem Inv.step_drain (h : Inv N n s) (hs : s.step N .drain = some s') : Inv N n s' := by
  have hword := h.word
  cases hpc : s.closer with
  | idle | asleep | drained =>
    simp only [State.step, hpc] at hs
    cases hs
  | closed =>
    rw [hpc] at hword
    simp only [State.step, hpc] at hs
    cases hs
    refine h.closer_step (by simp [hpc]) (by split <;> simp) (fun hd => ?_) (fun v hv => ?_)
      (fun hs => by split at hs <;> cases hs)
    · split at hd
      · next hmark =>
        rw [hmark, show closingBit.toNat = 2 ^ 31 from rfl, if_neg (by simp)] at hword
        omega
      · cases hd
    · split at hv <;> cases hv
      next hmark =>
        exact hmark
  | waiting v =>
    have hmark := h.waiting v hpc
    rw [hpc] at hword
    simp only [State.step, hpc] at hs
    cases hs
    refine h.closer_step (by simp [hpc]) (by split <;> simp) (fun hd => by split at hd <;> cases hd)
      (fun w hw => by split at hw <;> cases hw) (fun hs => ?_)
    split_ifs at hs with hv
    -- the word still is the value that was not the bare mark
    by_contra hzero
    refine hmark (hv ▸ BitVec.eq_of_toNat_eq ?_)
    rw [show closingBit.toNat = 2 ^ 31 from rfl]
    rw [if_neg (by simp)] at hword
    omega

/-- **A step of a thread.** -/
theorem Inv.step_thread (hN : N < 2 ^ 31) (h : Inv N n s) (hs : s.step N (.step t) = some s') :
    ∃ n', Inv N n' s' := by
  cases hpc : s.threads t with
  | out | inside late =>
    simp only [State.step, hpc] at hs
    cases hs
  | called late =>
    simp only [State.step, hpc] at hs
    cases hs
    exact ⟨_, h.raise hN hpc⟩
  | refused =>
    simp only [State.step, hpc] at hs
    cases hs
    exact ⟨_, h.lower hN (hpc ▸ trivial)⟩
  | waking =>
    simp only [State.step, hpc] at hs
    cases hs
    refine ⟨n, h.visit (h.count.stay (hpc ▸ Iff.rfl)) h.word (.plain (by simp) (by simp))
      ?_ fun hsleep => ?_⟩
    · split
      · next hs => exact .inr ⟨hs, rfl⟩
      · exact .inl rfl
    · split at hsleep
      · cases hsleep
      · next hs => exact absurd hsleep hs

/-- **Every step keeps the invariant.** -/
theorem Inv.step (hN : N < 2 ^ 31) {a : Act} (h : Inv N n s) (hs : s.step N a = some s') :
    ∃ n', Inv N n' s' := by
  have hword := h.word
  have hle := h.le
  cases a with
  | step t => exact h.step_thread hN hs
  | drain => exact ⟨n, h.step_drain hs⟩
  | enter t =>
    simp only [State.step] at hs
    split_ifs at hs with hout
    cases hs
    refine ⟨n, h.visit (h.count.stay (hout.2 ▸ Iff.rfl)) h.word
      ⟨fun _ => hout.1, by simp, by simp⟩ (.inl rfl) fun hsleep => ?_⟩
    exact (h.asleep hsleep).imp id fun hex => waking_move hex (by rw [hout.2]; simp)
  | leave t =>
    simp only [State.step] at hs
    split at hs <;> cases hs
    next hin =>
      exact ⟨_, h.lower hN (hin ▸ trivial)⟩
  | close =>
    simp only [State.step] at hs
    split_ifs at hs with hidle
    cases hs
    rw [if_pos hidle] at hword
    refine ⟨n, h.count, ?_, fun t => (h.placed t).keep (by simp) (by simp),
      nofun, nofun⟩
    show (s.word ||| closingBit).toNat = 2 ^ 31 + n
    rw [toNat_mark (by omega)]
    omega
  | wakeup =>
    simp only [State.step] at hs
    split_ifs at hs with hpc
    cases hs
    exact ⟨n, h.closer_step (by simp [hpc]) (by simp) (by simp) (by simp) (by simp)⟩

end Cpp

/-! ### Both gates -/

/-- **The gates are exact.**  With `N` threads at the C gate and `M` at the C++ gate, fewer than the
    counters count: once `drain` has returned nobody is between an `enter` that returned true and the
    decrement of its `leave`, no `enter` called after the close returns true, and a `drain` that
    sleeps finds a count above zero or a leaver that still has its wake to perform. -/
theorem gates_exact (N M : Nat) (hN : N < 2 ^ 63) (hM : M < 2 ^ 31) :
    (∀ s, (C.gate N).Reach (fun _ _ => True) s →
      (s.closer = .drained → ∀ t late, s.threads t ≠ .inside late) ∧
      (∀ t, s.threads t ≠ .inside true) ∧
      ¬ (s.closer = .asleep ∧ s.active = 0 ∧ ∀ t, ¬ (s.threads t).wakes)) ∧
    (∀ s, (Cpp.gate M).Reach (fun _ _ => True) s →
      (s.closer = .drained → ∀ t late, s.threads t ≠ .inside late) ∧
      (∀ t, s.threads t ≠ .inside true) ∧
      ¬ (s.closer = .asleep ∧ s.word &&& ~~~Cpp.closingBit = 0 ∧ ∀ t, s.threads t ≠ .waking)) := by
  constructor
  · intro s hr
    have h : C.Inv N s := hr.invariant (I := C.Inv N) C.Inv.start
      (fun _ _ _ hi _ hs => hi.step hN hs)
    refine ⟨fun hd t late hin => ?_, fun t hin => ?_, ?_⟩
    · exact ((h.placed t).inside late hin).2 (hd ▸ trivial)
    · exact absurd ((h.placed t).inside true hin).1 (by simp)
    · rintro ⟨hsleep, hzero, hnone⟩
      rcases h.waits (hsleep ▸ trivial) with hpos | ⟨t, ht⟩
      · omega
      · exact hnone t ht
  · intro s hr
    obtain ⟨n, h⟩ : ∃ n, Cpp.Inv M n s := hr.invariant (I := fun s => ∃ n, Cpp.Inv M n s)
      ⟨0, Cpp.Inv.start⟩ (fun _ _ _ hi _ hs => hi.elim (fun _ hi => hi.step hM hs))
    refine ⟨fun hd t late hin => ?_, fun t hin => ?_, ?_⟩
    · exact ((h.placed t).inside late hin).2 hd
    · exact absurd ((h.placed t).inside true hin).1 (by simp)
    · rintro ⟨hsleep, hzero, hnone⟩
      rcases h.asleep hsleep with hpos | ⟨t, ht⟩
      · have hword := h.word
        rw [if_neg (by rw [hsleep]; simp)] at hword
        have hle := h.le
        have hcount := Cpp.count_eq hword
        rw [hzero] at hcount
        simp at hcount
        omega
      · exact hnone t ht

/-- `drain` sleeps until thread 0 has left. -/
def drainRun : List C.Act :=
  [.enter 0, .step 0, .step 0, .close, .drain, .drain, .drain, .leave 0, .step 0, .step 0, .step 0,
   .step 0, .drain, .drain, .drain]

def drainWordRun : List Cpp.Act :=
  [.enter 0, .step 0, .close, .drain, .drain, .leave 0, .step 0, .drain]

theorem gates_exact_one_thread :
    (∃ s, (C.gate 1).Reach (fun _ _ => True) s ∧ s.closer = .drained ∧
      ∀ t late, s.threads t ≠ .inside late) ∧
    ∃ s, (Cpp.gate 1).Reach (fun _ _ => True) s ∧ s.closer = .drained ∧
      ∀ t late, s.threads t ≠ .inside late := by
  have hexact := gates_exact 1 1 (by decide) (by decide)
  constructor
  · have hrun : ((C.gate 1).run C.State.start drainRun).map C.State.closer = some .drained := by
      decide
    obtain ⟨s, hreach, hs⟩ := Machine.Reach.exists_of_run hrun
    exact ⟨s, hreach, hs, (hexact.1 s hreach).1 hs⟩
  · have hrun : ((Cpp.gate 1).run Cpp.State.start drainWordRun).map Cpp.State.closer
        = some .drained := by decide
    obtain ⟨s, hreach, hs⟩ := Machine.Reach.exists_of_run hrun
    exact ⟨s, hreach, hs, (hexact.2 s hreach).1 hs⟩

/-- The C++ gate after the close, with `k` threads in the middle of backing out. -/
def flooded (k : Nat) : Cpp.State :=
  ⟨BitVec.ofNat 32 (2 ^ 31 + k), fun t => if t < k then .refused else .out, .closed⟩

theorem flooded_enter {N k : Nat} (hk : k < N) :
    (Cpp.gate N).step (flooded k) (.enter k) = some ((flooded k).move k (.called true)) :=
  if_pos ⟨hk, by simp [flooded]⟩

theorem flooded_reach {N : Nat} (k : Nat) (hk : k ≤ 2 ^ 31) (hN : k ≤ N) :
    (Cpp.gate N).Reach (fun _ _ => True) (flooded k) := by
  induction k with
  | zero =>
    refine .step (s := Cpp.State.start) (a := .close) .init trivial ?_
    rfl
  | succ k ih =>
    have hbefore := ih (by omega) (by omega)
    refine .step (.step hbefore trivial (flooded_enter (by omega))) trivial (a := .step k) ?_
    -- the mark is still there, so the thread backs out
    have hmark : (flooded k).word &&& Cpp.closingBit ≠ 0 := by
      rw [Cpp.closing_iff]
      simp only [flooded, BitVec.toNat_ofNat]
      omega
    have hthreads : update (update (flooded k).threads k (.called true)) k .refused
        = (flooded (k + 1)).threads := by
      funext t
      rw [update_idem, update_apply]
      simp only [flooded]
      split_ifs <;> first | rfl | omega
    show ((flooded k).move k (.called true)).step N (.step k) = some (flooded (k + 1))
    simp only [Cpp.State.step, Cpp.State.move, update_self]
    refine congrArg some ?_
    show Cpp.State.mk ((flooded k).word + 1) (update _ k (if (flooded k).word &&&
      Cpp.closingBit ≠ 0 then .refused else .inside true)) .closed = flooded (k + 1)
    rw [if_pos hmark, hthreads]
    simp only [flooded]
    congr 1
    apply BitVec.eq_of_toNat_eq
    simp
    omega

/-- **A flooded gate lets a thread in after the close.**  When 2³¹ threads back out at once, their
    increments carry through the mark, and the next `enter` returns true. -/
theorem flooded_gate_lets_in :
    ∃ s, (Cpp.gate (2 ^ 31 + 1)).Reach (fun _ _ => True) s ∧ s.closer = .closed ∧
      s.threads (2 ^ 31) = .inside true := by
  have hflood := flooded_reach (N := 2 ^ 31 + 1) (2 ^ 31) le_rfl (by omega)
  have hword : (flooded (2 ^ 31)).word &&& Cpp.closingBit = 0 := by decide
  refine ⟨{ (flooded (2 ^ 31)).move (2 ^ 31) (.inside true) with word := 1 },
    .step (.step hflood trivial (flooded_enter (by omega))) trivial (a := .step (2 ^ 31)) ?_, rfl,
    update_self ..⟩
  show ((flooded (2 ^ 31)).move (2 ^ 31) (.called true)).step (2 ^ 31 + 1) (.step (2 ^ 31)) = _
  simp only [Cpp.State.step, Cpp.State.move, update_self]
  refine congrArg some ?_
  show Cpp.State.mk ((flooded (2 ^ 31)).word + 1) (update (update _ _ _) _
    (if (flooded (2 ^ 31)).word &&& Cpp.closingBit ≠ 0 then .refused else .inside true)) .closed = _
  rw [if_neg (by rw [hword]; simp), update_idem]
  rfl

end GoIpc.Close
