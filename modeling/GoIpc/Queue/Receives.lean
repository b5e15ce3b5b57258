import GoIpc.Lib.Machine
import Mathlib.Data.Fintype.Basic
import Mathlib.Logic.Function.Basic

namespace GoIpc.Queue.Receives

open GoIpc.Lib
open Function (update update_self update_of_ne)

/-!
# Receives that share a handle

`TryRecv`, `Recv`, `RecvInto` and `ReadBatch` of one receiving handle run under `recvMu`.  A blocking receive
takes the mutex before `park` and keeps it through `Event.Wait`, so whoever comes next waits for the mutex,
and neither its context nor the promise of `TryRecv` reaches it there.

* `machine n` — `n` goroutines that receive, with senders that publish and wake, a peer that may go and a
  handle that may close;
* `Call.Urgent`, `Blocked` — a call that must not wait, and one that waits behind a parked receive;
* `Apart` — the discipline that keeps urgent calls away from blocking ones;
* `urgent_receives_move` — under it no urgent call waits behind a parked one; `receives_block` — without it
  one does.
-/

/-! ### The machine -/

inductive Kind
  | tryRecv
  /-- `Recv` and `RecvInto` -/
  | recv
  | readBatch (limit : Int)
deriving DecidableEq

/-- The messages one read takes at most. -/
def Kind.limit : Kind → Int
  | .readBatch limit => limit
  | _ => 1

inductive Result
  | got (count : Nat)
  | empty
  | peerGone
  | ended
  | closed
  /-- an error of the ring or of the recovery -/
  | failed
deriving DecidableEq

/-- Which attempt of a call runs: the only one of `TryRecv`, or one of the three of `park`. -/
inductive Stage
  | only
  | first
  | second
  | last
deriving DecidableEq

/-- Where a call stands; everything but `waiting` holds `recvMu`. -/
inductive Pc
  /-- in `recvMu.Lock` -/
  | waiting
  /-- `receive` looks at the peer -/
  | checking (st : Stage)
  /-- `receive` reads the ring -/
  | reading (st : Stage) (gone : Bool)
  /-- before `waiters.Add(1)` -/
  | announcing
  /-- in `Event.Wait` -/
  | parked
  /-- `Event.Wait` returned -/
  | woken (err : Option Result)
  /-- before the `waiters.Add(-1)` of a second attempt that was not blocked -/
  | retiring (r : Result)
  /-- before `recvMu.Unlock` -/
  | returning (r : Result)
deriving DecidableEq

/-- A receive in progress; `ended` is its own context. -/
structure Call where
  kind : Kind
  ended : Bool
  pc : Pc
deriving DecidableEq

/-- `ready` counts the messages a read can reach, `owed` the senders between their commit and `wakeReceiver`. -/
structure State (n : Nat) where
  calls : Fin n → Option Call
  lock : Option (Fin n)
  ready : Nat
  owed : Nat
  tokens : Nat
  waiters : Nat
  gone : Bool
  closed : Bool

inductive Act (n : Nat)
  | start (g : Fin n) (kind : Kind) (ended : Bool)
  | endContext (g : Fin n)
  | lock (g : Fin n)
  | step (g : Fin n)
  /-- a read that fails -/
  | fail (g : Fin n)
  /-- a return of `Event.Wait` -/
  | token (g : Fin n)
  | cancelled (g : Fin n)
  | peerGone (g : Fin n)
  | closed (g : Fin n)
  /-- a commit that lets a read reach `count` messages more -/
  | publish (count : Nat)
  | wakeReceiver
  | peerGoes
  | close
deriving DecidableEq

variable {n : Nat}

namespace State

def start (n : Nat) : State n := ⟨fun _ => none, none, 0, 0, 0, 0, false, false⟩

/-- Call `c` of goroutine `g` goes to `pc`. -/
def move (s : State n) (g : Fin n) (c : Call) (pc : Pc) : State n :=
  { s with calls := update s.calls g (some { c with pc := pc }) }

/-- `Read` and the end of `receive`: what is left, and the result. -/
def read (s : State n) (limit : Int) (gone : Bool) : State n × Result :=
  let count := min limit.toNat s.ready
  if 0 < count then ({ s with ready := s.ready - count }, .got count)
  else (s, if gone then .peerGone else .empty)

end State

/-- Where an attempt goes on with its result. -/
def Stage.next : Stage → Result → Pc
  | .only, r => .returning r
  | .first, r => if r = .empty then .announcing else .returning r
  | .second, r => if r = .empty then .parked else .retiring r
  | .last, r => .returning (if r = .empty then .peerGone else r)

/-- The first attempt of a call. -/
def Kind.stage : Kind → Stage
  | .tryRecv => .only
  | _ => .first

namespace State

/-- A step of the call that holds the mutex. -/
def stepCall (s : State n) (g : Fin n) (c : Call) : Option (State n) :=
  match c.pc with
  | .checking st => some (s.move g c (.reading st s.gone))
  | .reading st gone =>
      let (t, r) := s.read c.kind.limit gone
      some (t.move g c (st.next r))
  | .announcing => some { s.move g c (.checking .second) with waiters := s.waiters + 1 }
  | .woken err =>
      let pc := match err with
        | none => .checking .first
        | some .peerGone => .checking .last
        | some e => .returning e
      some { s.move g c pc with waiters := s.waiters - 1 }
  | .retiring r => some { s.move g c (.returning r) with waiters := s.waiters - 1 }
  | .returning _ => some { s with calls := update s.calls g none, lock := none }
  | .waiting | .parked => none

/-- `Event.Wait` returns to the call of `g` when `may` allows it. -/
def wake (s : State n) (g : Fin n) (may : Call → Bool) (err : Option Result) : Option (State n) :=
  match s.calls g with
  | some c => if c.pc = .parked ∧ may c then some (s.move g c (.woken err)) else none
  | none => none

/-- One atomic step. -/
def step (s : State n) : Act n → Option (State n)
  | .start g kind ended =>
      match s.calls g with
      -- `enter` refuses on a closed handle
      | none => if s.closed then some s
          else some { s with calls := update s.calls g (some ⟨kind, ended, .waiting⟩) }
      | some _ => none
  | .endContext g =>
      match s.calls g with
      | some c => some { s with calls := update s.calls g (some { c with ended := true }) }
      | none => none
  | .lock g =>
      match s.calls g with
      | some c => if c.pc = .waiting ∧ s.lock = none then
          some { s.move g c (.checking c.kind.stage) with lock := some g } else none
      | none => none
  | .step g =>
      match s.calls g with
      | some c => s.stepCall g c
      | none => none
  | .fail g =>
      match s.calls g with
      | some c =>
          match c.pc with
          | .reading st _ => some (s.move g c (st.next .failed))
          | _ => none
      | none => none
  | .token g => if 0 < s.tokens then { s with tokens := s.tokens - 1 }.wake g (fun _ => true) none else none
  | .cancelled g => s.wake g Call.ended (some .ended)
  | .peerGone g => s.wake g (fun _ => s.gone) (some .peerGone)
  | .closed g => s.wake g (fun _ => s.closed) (some .closed)
  | .publish count => some { s with ready := s.ready + count, owed := s.owed + 1 }
  | .wakeReceiver =>
      if 0 < s.owed then
        some { s with owed := s.owed - 1, tokens := if 0 < s.waiters then s.tokens + 1 else s.tokens }
      else none
  | .peerGoes => some { s with gone := true }
  | .close => some { s with closed := true }

end State

/-- The handle with `n` goroutines. -/
def machine (n : Nat) : Machine (State n) (Act n) := ⟨.start n, State.step⟩

/-! ### Urgent calls -/

/-- A call that must not wait: a `TryRecv`, or a receive whose own context has ended. -/
def Call.Urgent (c : Call) : Prop := c.kind = .tryRecv ∨ c.ended

instance (c : Call) : Decidable c.Urgent := inferInstanceAs (Decidable (_ ∨ _))

/-- The call of `g` is urgent and waits for the mutex, which `h` holds while it is parked on an empty queue. -/
def Blocked (s : State n) (g h : Fin n) : Prop :=
  (∃ c ∈ s.calls g, c.Urgent ∧ c.pc = .waiting) ∧ s.lock = some h ∧
    (∃ d ∈ s.calls h, d.pc = .parked) ∧ s.ready = 0

instance (s : State n) (g h : Fin n) : Decidable (Blocked s g h) := inferInstanceAs (Decidable (_ ∧ _))

/-- Beside another receive `c` is not urgent while that one blocks, and does not block while that one is
    urgent. -/
def Apart (s : State n) (g : Fin n) (c : Call) : Prop :=
  ∀ h, h ≠ g → ∀ d ∈ s.calls h, (c.Urgent → d.kind = .tryRecv) ∧ (d.Urgent → c.kind = .tryRecv)

/-- Urgent and blocking receives stay apart: when a receive starts, and when a context ends. -/
def ok (s : State n) : Act n → Prop
  | .start g kind ended => Apart s g ⟨kind, ended, .waiting⟩
  | .endContext g => ∀ c ∈ s.calls g, Apart s g { c with ended := true }
  | _ => True

instance (s : State n) (g : Fin n) (c : Call) : Decidable (Apart s g c) :=
  inferInstanceAs (Decidable (∀ h, h ≠ g → ∀ d ∈ s.calls h, _))

instance (s : State n) : (a : Act n) → Decidable (ok s a)
  | .start g kind ended => inferInstanceAs (Decidable (Apart s g ⟨kind, ended, .waiting⟩))
  | .endContext g => inferInstanceAs (Decidable (∀ c ∈ s.calls g, Apart s g { c with ended := true }))
  | .lock _ | .step _ | .fail _ | .token _ | .cancelled _ | .peerGone _ | .closed _ | .publish _
  | .wakeReceiver | .peerGoes | .close => inferInstanceAs (Decidable True)

/-! ### What a step does -/

/-- Where a `TryRecv` can stand. -/
def Pc.Plain : Pc → Prop
  | .waiting | .checking .only | .reading .only _ | .returning _ => True
  | _ => False

variable {s s' : State n}

/-- What a step does to the calls and the mutex. -/
inductive Changed (s s' : State n) (a : Act n) : Prop
  | same (calls : s'.calls = s.calls) (lock : s'.lock = s.lock)
  | started (g : Fin n) (kind : Kind) (ended : Bool) (act : a = .start g kind ended) (free : s.calls g = none)
      (calls : s'.calls = update s.calls g (some ⟨kind, ended, .waiting⟩)) (lock : s'.lock = s.lock)
  | ended (g : Fin n) (c : Call) (act : a = .endContext g) (call : s.calls g = some c)
      (calls : s'.calls = update s.calls g (some { c with ended := true })) (lock : s'.lock = s.lock)
  | locked (g : Fin n) (c : Call) (call : s.calls g = some c) (waits : c.pc = .waiting) (free : s.lock = none)
      (calls : s'.calls = update s.calls g (some { c with pc := .checking c.kind.stage }))
      (lock : s'.lock = some g)
  | moved (g : Fin n) (c : Call) (pc : Pc) (call : s.calls g = some c) (holds : c.pc ≠ .waiting)
      (keeps : pc ≠ .waiting) (plain : c.pc.Plain → pc.Plain)
      (calls : s'.calls = update s.calls g (some { c with pc := pc })) (lock : s'.lock = s.lock)
  | unlocked (g : Fin n) (c : Call) (call : s.calls g = some c) (holds : c.pc ≠ .waiting)
      (calls : s'.calls = update s.calls g none) (lock : s'.lock = none)

theorem Stage.next_ne_waiting (st : Stage) (r : Result) : st.next r ≠ .waiting := by
  by_cases hr : r = .empty <;> cases st <;> simp [Stage.next, hr]

@[simp] theorem State.read_calls (limit : Int) (gone : Bool) : (s.read limit gone).1.calls = s.calls := by
  unfold State.read
  simp only
  split <;> rfl

@[simp] theorem State.read_lock (limit : Int) (gone : Bool) : (s.read limit gone).1.lock = s.lock := by
  unfold State.read
  simp only
  split <;> rfl

theorem Stage.next_plain {st : Stage} {gone : Bool} (r : Result) (h : (Pc.reading st gone).Plain) :
    (st.next r).Plain := by
  cases st <;> trivial

theorem State.stepCall_changed {g : Fin n} {c : Call} {a : Act n} (hc : s.calls g = some c)
    (h : s.stepCall g c = some s') : Changed s s' a := by
  obtain ⟨kind, ended, pc⟩ := c
  cases pc with
  | waiting => cases h
  | parked => cases h
  | checking st =>
    cases h
    refine .moved g _ _ hc (fun h => (by cases h)) (fun h => (by cases h)) (fun h => ?_) rfl rfl
    cases st <;> trivial
  | reading st gone =>
    have hread : (s.read kind.limit gone).1.move g _ (st.next (s.read kind.limit gone).2) = s' :=
      Option.some.inj h
    subst hread
    refine .moved g _ (st.next (s.read kind.limit gone).2) hc nofun
      (Stage.next_ne_waiting st _) (Stage.next_plain _) ?_ ?_
    · simp only [State.move, State.read_calls]
    · simp only [State.move, State.read_lock]
  | announcing =>
    cases h
    exact .moved g _ _ hc (fun h => (by cases h)) (fun h => (by cases h)) (fun h => h.elim) rfl rfl
  | woken err =>
    cases h
    refine .moved g _ _ hc nofun ?_ (fun h => h.elim) rfl rfl
    split <;> exact nofun
  | retiring r =>
    cases h
    exact .moved g _ _ hc (fun h => (by cases h)) (fun h => (by cases h)) (fun h => h.elim) rfl rfl
  | returning r =>
    cases h
    exact .unlocked g _ hc nofun rfl rfl

theorem State.wake_changed {t : State n} {g : Fin n} {may : Call → Bool} {err : Option Result} {a : Act n}
    (hcalls : t.calls = s.calls) (hlock : t.lock = s.lock) (h : t.wake g may err = some s') :
    Changed s s' a := by
  unfold State.wake at h
  split at h
  · rename_i c hc
    split_ifs at h with hpc
    cases h
    have hpark : c.pc = .parked := hpc.1
    refine .moved g c (.woken err) (hcalls ▸ hc) ?_ nofun ?_ ?_ hlock
    · rw [hpark]
      exact nofun
    · rw [hpark]
      exact fun h => h.elim
    · simp only [State.move, hcalls]
  · cases h

/-- **Inversion of a step.** -/
theorem State.step_changed {a : Act n} (h : s.step a = some s') : Changed s s' a := by
  cases a with
  | start g kind ended =>
    simp only [State.step] at h
    split at h
    · rename_i hfree
      split_ifs at h
      · cases h
        exact .same rfl rfl
      · cases h
        exact .started g kind ended rfl hfree rfl rfl
    · cases h
  | endContext g =>
    simp only [State.step] at h
    split at h
    · rename_i c hc
      cases h
      exact .ended g c rfl hc rfl rfl
    · cases h
  | lock g =>
    simp only [State.step] at h
    split at h
    · rename_i c hc
      split_ifs at h with hpc
      cases h
      exact .locked g c hc hpc.1 hpc.2 rfl rfl
    · cases h
  | step g =>
    simp only [State.step] at h
    split at h
    · rename_i c hc
      exact State.stepCall_changed hc h
    · cases h
  | fail g =>
    simp only [State.step] at h
    split at h
    · rename_i c hc
      split at h
      · rename_i st gone hpc
        cases h
        refine .moved g c _ hc ?_ (Stage.next_ne_waiting st _) ?_ rfl rfl
        · rw [hpc]
          exact nofun
        · rw [hpc]
          exact Stage.next_plain _
      · cases h
    · cases h
  | token g =>
    simp only [State.step] at h
    split_ifs at h
    exact State.wake_changed (t := { s with tokens := s.tokens - 1 }) rfl rfl h
  | cancelled g => exact State.wake_changed rfl rfl h
  | peerGone g => exact State.wake_changed rfl rfl h
  | closed g => exact State.wake_changed rfl rfl h
  | publish count =>
    cases h
    exact .same rfl rfl
  | wakeReceiver =>
    simp only [State.step] at h
    split at h <;> cases h
    exact .same rfl rfl
  | peerGoes =>
    cases h
    exact .same rfl rfl
  | close =>
    cases h
    exact .same rfl rfl

/-! ### The invariant -/

/-- Who holds the mutex is past it, a `TryRecv` never parks, and urgent and blocking receives are apart. -/
structure Inv (s : State n) : Prop where
  holds : ∀ g c, s.calls g = some c → (c.pc ≠ .waiting ↔ s.lock = some g)
  busy : ∀ g, s.lock = some g → ∃ c, s.calls g = some c
  plain : ∀ g c, s.calls g = some c → c.kind = .tryRecv → c.pc.Plain
  apart : ∀ g c, s.calls g = some c → Apart s g c

/-- **The calls after a step**: what stands in the place of `g` now is apart from the others, and the mutex
    stays as it was for them. -/
theorem Inv.update {g : Fin n} {e : Option Call} (hs : Inv s)
    (hcalls : s'.calls = update s.calls g e)
    (hothers : ∀ k, k ≠ g → (s'.lock = some k ↔ s.lock = some k))
    (hnone : e = none → s'.lock ≠ some g)
    (hnew : ∀ c ∈ e, Apart s g c ∧ (c.pc ≠ .waiting ↔ s'.lock = some g) ∧
      (c.kind = .tryRecv → c.pc.Plain)) : Inv s' := by
  have hself : s'.calls g = e := by rw [hcalls, update_self]
  have hother : ∀ k, k ≠ g → s'.calls k = s.calls k := fun k hk => by
    rw [hcalls, update_of_ne hk]
  refine ⟨fun k c hc => ?_, fun k hk => ?_, fun k c hc => ?_, fun k c hc h hh d hd => ?_⟩
  · by_cases hk : k = g
    · subst hk
      exact (hnew c (hself.symm.trans hc)).2.1
    · rw [hother k hk] at hc
      rw [hothers k hk]
      exact hs.holds k c hc
  · by_cases hkg : k = g
    · subst hkg
      rw [hself]
      exact Option.ne_none_iff_exists'.mp fun he => hnone he hk
    · rw [hother k hkg]
      exact hs.busy k ((hothers k hkg).mp hk)
  · by_cases hk : k = g
    · subst hk
      exact (hnew c (hself.symm.trans hc)).2.2
    · rw [hother k hk] at hc
      exact hs.plain k c hc
  · by_cases hk : k = g
    · subst hk
      rw [hother h hh] at hd
      exact (hnew c (hself.symm.trans hc)).1 h hh d hd
    · rw [hother k hk] at hc
      by_cases hg : h = g
      · subst hg
        exact ((hnew d (hself.symm.trans hd)).1 k hk c hc).symm
      · rw [hother h hg] at hd
        exact hs.apart k c hc h hh d hd

theorem Inv.start (n : Nat) : Inv (State.start n) where
  holds _ _ h := (by cases h)
  busy _ h := (by cases h)
  plain _ _ h := (by cases h)
  apart _ _ h := (by cases h)

/-- **A step keeps the invariant** when it keeps urgent and blocking receives apart. -/
theorem Inv.step {a : Act n} (hs : Inv s) (hok : ok s a) (h : s.step a = some s') : Inv s' := by
  cases State.step_changed h with
  | same calls lock =>
    exact ⟨by rw [calls, lock]; exact hs.holds, by rw [calls, lock]; exact hs.busy,
      by rw [calls]; exact hs.plain, by unfold Apart; rw [calls]; exact hs.apart⟩
  | started g kind ended act free calls lock =>
    subst act
    have hlock : s'.lock ≠ some g := fun hl => by
      obtain ⟨c, hc⟩ := hs.busy g (lock ▸ hl)
      rw [free] at hc
      cases hc
    refine hs.update calls (fun k _ => by rw [lock]) (fun _ => hlock) ?_
    rintro c ⟨⟩
    exact ⟨hok, ⟨fun h => absurd rfl h, fun hl => absurd hl hlock⟩, fun _ => trivial⟩
  | ended g c act call calls lock =>
    subst act
    refine hs.update calls (fun k _ => by rw [lock]) nofun ?_
    rintro c' ⟨⟩
    rw [lock]
    exact ⟨hok c call, hs.holds g c call, hs.plain g c call⟩
  | locked g c call waits free calls lock =>
    refine hs.update calls (fun k hk => ?_) nofun ?_
    · rw [lock, free]
      exact ⟨fun h => absurd (Option.some.inj h).symm hk, nofun⟩
    · rintro c' ⟨⟩
      refine ⟨hs.apart g c call, ⟨fun _ => lock, nofun⟩, fun hk => ?_⟩
      have hkind : c.kind = .tryRecv := hk
      simp only [hkind, Kind.stage]
      trivial
  | moved g c pc call holds keeps plain calls lock =>
    refine hs.update calls (fun k _ => by rw [lock]) nofun ?_
    rintro c' ⟨⟩
    rw [lock]
    exact ⟨hs.apart g c call, ⟨fun _ => (hs.holds g c call).mp holds, fun _ => keeps⟩,
      fun hk => plain (hs.plain g c call hk)⟩
  | unlocked g c call holds calls lock =>
    refine hs.update calls (fun k hk => ?_) (fun _ h => ?_) nofun
    · rw [lock, (hs.holds g c call).mp holds]
      exact ⟨nofun, fun h => absurd (Option.some.inj h).symm hk⟩
    · rw [lock] at h
      cases h

theorem Inv.of_reach (h : (machine n).Reach ok s) : Inv s :=
  h.invariant (Inv.start n) fun _ _ _ hs hok hstep => hs.step hok hstep

/-! ### Nobody waits behind a parked receive -/

/-- **No urgent receive is blocked** as long as urgent and blocking receives are kept apart: none waits behind a
    receive that is parked on an empty queue, and whoever holds the mutex an urgent receive waits for can take
    its next step. -/
theorem urgent_receives_move (h : (machine n).Reach ok s) :
    (∀ g k, ¬ Blocked s g k) ∧
    ∀ g c, s.calls g = some c → c.Urgent → c.pc = .waiting →
      ∀ k, s.lock = some k → ((machine n).step s (.step k)).isSome := by
  have hs := Inv.of_reach h
  -- the holder is another goroutine's call, and it is a `TryRecv`
  have hkey : ∀ g c, s.calls g = some c → c.Urgent → c.pc = .waiting → ∀ k, s.lock = some k →
      ∃ d, s.calls k = some d ∧ d.kind = .tryRecv ∧ d.pc ≠ .waiting := by
    intro g c hc hurgent hwait k hk
    obtain ⟨d, hd⟩ := hs.busy k hk
    have hpc := (hs.holds k d hd).mpr hk
    have hne : k ≠ g := by
      rintro rfl
      rw [hc] at hd
      cases hd
      exact hpc hwait
    exact ⟨d, hd, ((hs.apart g c hc) k hne d hd).1 hurgent, hpc⟩
  refine ⟨?_, ?_⟩
  · rintro g k ⟨⟨c, hc, hurgent, hwait⟩, hlock, ⟨d, hd, hpark⟩, -⟩
    obtain ⟨d', hd', hkind, -⟩ := hkey g c hc hurgent hwait k hlock
    rw [hd] at hd'
    cases hd'
    have hplain := hs.plain k d hd hkind
    rwa [hpark] at hplain
  · intro g c hc hurgent hwait k hk
    obtain ⟨d, hd, hkind, hpc⟩ := hkey g c hc hurgent hwait k hk
    have hplain := hs.plain k d hd hkind
    show (s.step (.step k)).isSome
    simp only [State.step, hd]
    obtain ⟨kind, ended, pc⟩ := d
    cases pc <;> first | rfl | exact absurd rfl hpc | exact hplain.elim

/-- Two `TryRecv` calls at once; the first has the mutex. -/
def politeRun (g h : Fin 2) : List (Act 2) :=
  [.start g .tryRecv false, .start h .tryRecv false, .lock g]

theorem urgent_receives_move_polite :
    ∃ s, (machine 2).Reach ok s ∧ (s.lock, (s.calls 1).map Call.pc) = (some 0, some .waiting) ∧
      (∀ g k, ¬ Blocked s g k) ∧
      ∀ g c, s.calls g = some c → c.Urgent → c.pc = .waiting →
        ∀ k, s.lock = some k → ((machine 2).step s (.step k)).isSome := by
  have hrun : ((machine 2).runOk (fun s a => decide (ok s a)) (.start 2) (politeRun 0 1)).map
      (fun s => (s.lock, (s.calls 1).map Call.pc)) = some (some 0, some .waiting) := by decide
  obtain ⟨s, hs, hv⟩ := Machine.Reach.exists_of_runOk (fun _ _ h => of_decide_eq_true h) hrun
  exact ⟨s, hs, hv, urgent_receives_move hs⟩

/-- A `Recv` parks on the empty queue. -/
def parks (g : Fin 2) : List (Act 2) :=
  [.start g .recv false, .lock g, .step g, .step g, .step g, .step g, .step g]

/-- Behind a parked `Recv` a `TryRecv` waits for the mutex, and so does a `Recv` whose context ends there. -/
theorem receives_block :
    (∃ s, (machine 2).Reach (fun _ _ => True) s ∧ Blocked s 1 0 ∧
      (s.calls 1).map Call.kind = some .tryRecv) ∧
    ∃ s, (machine 2).Reach (fun _ _ => True) s ∧ Blocked s 1 0 ∧
      (s.calls 1).map Call.kind = some .recv := by
  have htry : ((machine 2).run (.start 2) (parks 0 ++ [.start 1 .tryRecv false])).map
      (fun s => decide (Blocked s 1 0 ∧ (s.calls 1).map Call.kind = some .tryRecv)) = some true := by
    decide
  have hended : ((machine 2).run (.start 2) (parks 0 ++ [.start 1 .recv false, .endContext 1])).map
      (fun s => decide (Blocked s 1 0 ∧ (s.calls 1).map Call.kind = some .recv)) = some true := by
    decide
  obtain ⟨s, hs, hblocked⟩ := Machine.Reach.exists_of_run htry
  obtain ⟨t, ht, hblocked'⟩ := Machine.Reach.exists_of_run hended
  exact ⟨⟨s, hs, of_decide_eq_true hblocked⟩, ⟨t, ht, of_decide_eq_true hblocked'⟩⟩

end GoIpc.Queue.Receives
