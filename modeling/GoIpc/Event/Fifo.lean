import GoIpc.Lib.Machine
import Mathlib.Data.Fintype.Basic
import Mathlib.Data.List.Nodup
import Mathlib.Logic.Function.Basic

namespace GoIpc.Event.Fifo

open GoIpc.Lib
open Function (update update_self update_of_ne)

/-!
# Waits of a FIFO event

Every wait reads through a handle of its own, taken from the idle pool or opened for it.  The end of its context
aborts the read: `context.AfterFunc` sets the read deadline of the handle to the past, on a goroutine of its
own and possibly so late that the handle belongs to another wait.  That wait finds a deadline with no
cancellation of its own behind it and clears it.

* `machine n` — `n` waits, their contexts and callbacks, the pool, the tokens and `close`;
* `Stuck` — a wait left in its read although its own callback has run;
* `WaitOk`, `Inv` — one wait and its handle, and all of them with the pool;
* `fifo_wait` — no wait is stuck while no wait clears the deadline its own callback has set, and a context
  error is always the own context's; `stuck_wait` — the run in which one clears it.
-/

/-! ### The machine -/

inductive Result
  | token
  | ended
  | closed
  | failed
deriving DecidableEq

/-- Where a wait stands, with the handle it holds. -/
inductive Pc
  | idle
  | acquiring
  /-- in `openReader` -/
  | opening
  /-- before `context.AfterFunc` -/
  | arming (h : Nat)
  /-- in `Read` -/
  | reading (h : Nat)
  /-- `Read` met the deadline; before `ctx.Err` -/
  | judging (h : Nat)
  /-- before the `SetReadDeadline` of the loop -/
  | clearing (h : Nat)
  /-- before the deferred `stop` -/
  | stopping (h : Nat) (r : Result)
  /-- before the `SetReadDeadline` of `releaseReader` -/
  | releasing (h : Nat) (r : Result)
  /-- before `releaseReader` puts the handle back -/
  | pooling (h : Nat) (r : Result)
  | returned (r : Result)
deriving DecidableEq

/-- The `AfterFunc` of a wait, with the handle it cancels. -/
inductive Callback
  | unset
  | registered (h : Nat)
  /-- on its own goroutine, before `SetReadDeadline` -/
  | launched (h : Nat)
  | ran
  | stopped
deriving DecidableEq

/-- `cancellable` is `ctx.Done() != nil`, `ended` is `ctx.Err() != nil`. -/
structure Wait where
  pc : Pc
  cancellable : Bool
  ended : Bool
  callback : Callback
deriving DecidableEq

/-- `past h`: the read deadline of handle `h` is in the past; `down h`: the handle is closed. -/
structure State (n : Nat) where
  waits : Fin n → Wait
  past : Nat → Bool
  down : Nat → Bool
  opened : Nat
  idle : List Nat
  tokens : Nat
  closed : Bool

inductive Act (n : Nat)
  | start (w : Fin n) (cancellable ended : Bool)
  | step (w : Fin n)
  | dupFail (w : Fin n)
  /-- what `Read` returns -/
  | token (w : Fin n)
  | deadline (w : Fin n)
  | readClosed (w : Fin n)
  | readFail (w : Fin n)
  | endContext (w : Fin n)
  /-- the context launches the callback -/
  | fire (w : Fin n)
  | callback (w : Fin n)
  | signal (count : Nat)
  | close
  /-- `close` closes a handle -/
  | shut (h : Nat)
deriving DecidableEq

variable {n : Nat}

/-- `stop` of an `AfterFunc`: too late for a callback that was launched. -/
def Callback.stop : Callback → Callback
  | .registered _ => .stopped
  | c => c

/-- `context.AfterFunc(ctx, r.cancel)` -/
def Wait.arm (x : Wait) (h : Nat) : Callback :=
  if x.cancellable then (if x.ended then .launched h else .registered h) else .unset

namespace State

def start (n : Nat) : State n :=
  ⟨fun _ => ⟨.idle, false, false, .unset⟩, fun _ => false, fun _ => false, 0, [], 0, false⟩

def put (s : State n) (w : Fin n) (x : Wait) : State n := { s with waits := update s.waits w x }

/-- `SetReadDeadline`; it fails on a closed handle. -/
def setDeadline (s : State n) (h : Nat) (past : Bool) : State n :=
  { s with past := update s.past h (if s.down h then s.past h else past) }

/-- A step of the goroutine of a wait, outside `Read`. -/
def stepWait (s : State n) (w : Fin n) (x : Wait) : Option (State n) :=
  match x.pc with
  | .acquiring =>
      if s.closed then some (s.put w { x with pc := .returned .closed })
      else match s.idle with
        | h :: rest => some ({ s with idle := rest }.put w { x with pc := .arming h })
        | [] => some (s.put w { x with pc := .opening })
  | .opening =>
      if s.closed then some (s.put w { x with pc := .returned .closed })
      else some ({ s with opened := s.opened + 1, past := update s.past s.opened false }.put w
        { x with pc := .arming s.opened })
  | .arming h => some (s.put w { x with pc := .reading h, callback := x.arm h })
  | .judging h => some (s.put w { x with pc := if x.ended then .stopping h .ended else .clearing h })
  -- a deadline with no live cancellation behind it came from an earlier waiter
  | .clearing h => some ((s.setDeadline h false).put w { x with pc := .reading h })
  | .stopping h r => some (s.put w { x with pc := .releasing h r, callback := x.callback.stop })
  | .releasing h r => some ((s.setDeadline h false).put w { x with pc := .pooling h r })
  | .pooling h r =>
      some ({ s with idle := if s.closed then s.idle else h :: s.idle }.put w { x with pc := .returned r })
  | .idle | .reading _ | .returned _ => none

/-- `Read` of wait `w` returns, when `may` allows it for the handle. -/
def returnRead (s : State n) (w : Fin n) (may : Nat → Bool) (pc : Nat → Pc) : Option (State n) :=
  match (s.waits w).pc with
  | .reading h => if may h then some (s.put w { s.waits w with pc := pc h }) else none
  | _ => none

/-- One atomic step. -/
def step (s : State n) : Act n → Option (State n)
  | .start w cancellable ended =>
      if (s.waits w).pc = .idle ∧ (ended → cancellable) then
        some (s.put w ⟨.acquiring, cancellable, ended, .unset⟩) else none
  | .step w => s.stepWait w (s.waits w)
  | .dupFail w =>
      if (s.waits w).pc = .opening then
        some (s.put w { s.waits w with pc := .returned (if s.closed then .closed else .failed) }) else none
  | .token w =>
      if 0 < s.tokens then
        { s with tokens := s.tokens - 1 }.returnRead w (fun _ => true) (fun h => .stopping h .token)
      else none
  | .deadline w => s.returnRead w s.past .judging
  | .readClosed w => s.returnRead w s.down (fun h => .stopping h .closed)
  | .readFail w =>
      s.returnRead w (fun _ => true) (fun h => .stopping h (if s.closed then .closed else .failed))
  | .endContext w =>
      if (s.waits w).cancellable then some (s.put w { s.waits w with ended := true }) else none
  | .fire w =>
      match (s.waits w).callback with
      | .registered h => if (s.waits w).ended then some (s.put w { s.waits w with callback := .launched h })
          else none
      | _ => none
  | .callback w =>
      match (s.waits w).callback with
      | .launched h => some ((s.setDeadline h true).put w { s.waits w with callback := .ran })
      | _ => none
  | .signal count => some { s with tokens := s.tokens + count }
  | .close => some { s with closed := true, idle := [] }
  | .shut h => if s.closed then some { s with down := update s.down h true } else none

end State

/-- The event with `n` waits. -/
def machine (n : Nat) : Machine (State n) (Act n) := ⟨.start n, State.step⟩

/-- Wait `w` is blocked in `Read` on an open event with no token, after its own context has ended and its own
    callback has run. -/
def Stuck (s : State n) (w : Fin n) : Prop :=
  (∃ h, (s.waits w).pc = .reading h ∧ s.past h = false) ∧ s.tokens = 0 ∧ s.closed = false ∧
    (s.waits w).ended ∧ (s.waits w).callback = .ran

/-- No wait clears the deadline after its own callback has run. -/
def ownKept (s : State n) : Act n → Bool
  | .step w =>
      match (s.waits w).pc with
      | .clearing _ => (s.waits w).callback ≠ .ran
      | _ => true
  | _ => true

/-! ### One wait -/

/-- The handle a wait holds. -/
def Pc.handle : Pc → Option Nat
  | .arming h | .reading h | .judging h | .clearing h | .stopping h _ | .releasing h _ | .pooling h _ => some h
  | _ => none

/-- The handle of a wait in its loop. -/
def Pc.loop : Pc → Option Nat
  | .reading h | .judging h | .clearing h => some h
  | _ => none

/-- What a wait returns or is about to return. -/
def Pc.result : Pc → Option Result
  | .stopping _ r | .releasing _ r | .pooling _ r | .returned r => some r
  | _ => none

/-- A wait that has not reached `context.AfterFunc`. -/
def Pc.early : Pc → Bool
  | .idle | .acquiring | .opening | .arming _ => true
  | _ => false

def Callback.handle : Callback → Option Nat
  | .registered h | .launched h => some h
  | _ => none

theorem Pc.handle_of_loop {pc : Pc} {h : Nat} (hl : pc.loop = some h) : pc.handle = some h := by
  cases pc <;> first | exact hl | cases hl

/-- A wait and its handle: the handle is nobody's in the pool, the callback cancels this handle, and once it has run
    the deadline of the handle is in the past as long as the wait is in its loop.  That last part holds in runs
    that keep it (`kept`), the others in every run. -/
structure WaitOk (kept : Prop) (s : State n) (x : Wait) : Prop where
  own : ∀ h, x.pc.handle = some h → h < s.opened ∧ h ∉ s.idle
  early : x.pc.early → x.callback = .unset
  cancels : ∀ h k, x.pc.handle = some h → x.callback.handle = some k → k = h
  past : kept → s.closed = false → ∀ h, x.pc.loop = some h → x.callback = .ran → s.past h = true
  truthful : x.pc.result = some .ended → x.ended

variable {kept : Prop} {s s' : State n} {w : Fin n} {x : Wait}

/-- A wait is as it was when its handle is. -/
theorem WaitOk.frame (hx : WaitOk kept s x) (hopened : s.opened ≤ s'.opened)
    (hclosed : s'.closed = false → s.closed = false)
    (hidle : ∀ h, x.pc.handle = some h → h ∉ s'.idle)
    (hpast : ∀ h, x.pc.handle = some h → s.past h = true → s'.past h = true) : WaitOk kept s' x where
  own h hh := ⟨Nat.lt_of_lt_of_le (hx.own h hh).1 hopened, hidle h hh⟩
  early := hx.early
  cancels := hx.cancels
  past hk hc h hl hr := hpast h (Pc.handle_of_loop hl) (hx.past hk (hclosed hc) h hl hr)
  truthful := hx.truthful

/-- A wait that goes on with the handle it has, or without one. -/
theorem WaitOk.advance {pc : Pc} (hx : WaitOk kept s x) (hearly : pc.early = false)
    (hhandle : ∀ h, pc.handle = some h → x.pc.handle = some h)
    (hloop : ∀ h, pc.loop = some h → x.pc.loop = some h) (hresult : pc.result = some .ended → x.ended) :
    WaitOk kept s { x with pc := pc } where
  own h hh := hx.own h (hhandle h hh)
  early h := absurd h (by rw [hearly]; decide)
  cancels h k hh hk := hx.cancels h k (hhandle h hh) hk
  past hk hc h hl hr := hx.past hk hc h (hloop h hl) hr
  truthful := hresult

/-- A callback that can still run belongs to a wait that has armed it. -/
theorem WaitOk.not_early {h : Nat} (hx : WaitOk kept s x) (hcall : x.callback.handle = some h) : ¬ x.pc.early := by
  intro hearly
  rw [hx.early hearly] at hcall
  cases hcall

/-! ### All waits -/

/-- No two waits share a handle, and none shares one with the pool. -/
structure Inv (kept : Prop) (s : State n) : Prop where
  waits : ∀ w, WaitOk kept s (s.waits w)
  apart : ∀ v w h, (s.waits v).pc.handle = some h → (s.waits w).pc.handle = some h → v = w
  idle_lt : ∀ h ∈ s.idle, h < s.opened
  idle_nodup : s.idle.Nodup
  down : ∀ h, s.down h = true → s.closed = true

theorem Inv.start (n : Nat) : Inv kept (State.start n) where
  waits _ := ⟨nofun, fun _ => rfl, nofun, nofun,
    nofun⟩
  apart _ _ _ h := (by cases h)
  idle_lt _ h := (by cases h)
  idle_nodup := List.nodup_nil
  down _ h := (by cases h)

/-- **A step of one wait** keeps the invariant: it takes a handle only from the pool or a new one, gives back only
    its own, and touches the deadline of its own handle only, except to set it. -/
theorem Inv.put (hs : Inv kept s) (hwaits : s'.waits = update s.waits w x) (hx : WaitOk kept s' x)
    (hopened : s.opened ≤ s'.opened) (hclosed : s'.closed = s.closed) (hdown : s'.down = s.down)
    (hnew : ∀ h, x.pc.handle = some h → (s.waits w).pc.handle = some h ∨ h ∈ s.idle ∨ s.opened ≤ h)
    (hidle : ∀ h ∈ s'.idle, h ∈ s.idle ∨ (s.waits w).pc.handle = some h) (hnodup : s'.idle.Nodup)
    (hpast : ∀ h, s.past h = true → s'.past h = true ∨ (s.waits w).pc.handle = some h ∨ s.opened ≤ h) :
    Inv kept s' := by
  have hself : s'.waits w = x := by rw [hwaits, update_self]
  have hother : ∀ v, v ≠ w → s'.waits v = s.waits v := fun v hv => by
    rw [hwaits, update_of_ne hv]
  -- the handle of another wait is not one that `w` can take
  have hfar : ∀ v, v ≠ w → ∀ h, (s.waits v).pc.handle = some h →
      ¬ ((s.waits w).pc.handle = some h) ∧ h ∉ s.idle ∧ ¬ s.opened ≤ h := by
    intro v hv h hh
    have hown := (hs.waits v).own h hh
    exact ⟨fun hw => hv (hs.apart v w h hh hw), hown.2, by omega⟩
  refine ⟨fun v => ?_, fun v u h hv hu => ?_, fun h hh => ?_, hnodup, fun h hh => ?_⟩
  · by_cases hvw : v = w
    · rwa [hvw, hself]
    · rw [hother v hvw]
      refine (hs.waits v).frame hopened (fun h => hclosed ▸ h) (fun h hh hmem => ?_) (fun h hh hp => ?_)
      · have := hfar v hvw h hh
        rcases hidle h hmem with h1 | h1
        · exact this.2.1 h1
        · exact this.1 h1
      · have := hfar v hvw h hh
        rcases hpast h hp with h1 | h1 | h1
        · exact h1
        · exact absurd h1 this.1
        · exact absurd h1 this.2.2
  · -- a handle of `w` that another wait holds
    have hclash : ∀ v, v ≠ w → (s.waits v).pc.handle = some h → x.pc.handle = some h → False := by
      intro v hvw hv hxh
      have := hfar v hvw h hv
      rcases hnew h hxh with h1 | h1 | h1
      · exact this.1 h1
      · exact this.2.1 h1
      · exact this.2.2 h1
    by_cases hvw : v = w
    · by_cases huw : u = w
      · rw [hvw, huw]
      · rw [hvw, hself] at hv
        rw [hother u huw] at hu
        exact (hclash u huw hu hv).elim
    · rw [hother v hvw] at hv
      by_cases huw : u = w
      · rw [huw, hself] at hu
        exact (hclash v hvw hv hu).elim
      · rw [hother u huw] at hu
        exact hs.apart v u h hv hu
  · rcases hidle h hh with h1 | h1
    · exact Nat.lt_of_lt_of_le (hs.idle_lt h h1) hopened
    · exact Nat.lt_of_lt_of_le ((hs.waits w).own h h1).1 hopened
  · rw [hclosed]
    rw [hdown] at hh
    exact hs.down h hh

/-- A step of a wait that leaves the pool and the deadlines. -/
theorem Inv.put_same (hs : Inv kept s) (hx : WaitOk kept s x)
    (hhandle : ∀ h, x.pc.handle = some h → (s.waits w).pc.handle = some h) : Inv kept (s.put w x) :=
  hs.put rfl (hx.frame (Nat.le_refl _) id (fun h hh => (hx.own h hh).2) fun _ _ h => h) (Nat.le_refl _) rfl rfl
    (fun h hh => .inl (hhandle h hh)) (fun _ h => .inl h) hs.idle_nodup fun _ h => .inl h

/-- A wait that holds no handle and returns no context error. -/
theorem WaitOk.done {r : Result} {cancellable ended : Bool} {callback : Callback} (hr : r = .ended → ended) :
    WaitOk kept s ⟨.returned r, cancellable, ended, callback⟩ :=
  ⟨nofun, nofun, nofun, nofun,
    fun h => hr (Option.some.inj h)⟩

/-- The deadline a wait clears is its own handle's. -/
theorem Inv.put_clear {h : Nat} (hs : Inv kept s) (hx : WaitOk kept s x) (hown : (s.waits w).pc.handle = some h)
    (hhandle : x.pc.handle = some h) (hran : kept → x.pc.loop = none ∨ x.callback ≠ .ran) :
    Inv kept ((s.setDeadline h false).put w x) := by
  refine hs.put rfl ⟨hx.own, hx.early, hx.cancels, fun hk _ k hl hr => ?_, hx.truthful⟩ (Nat.le_refl _) rfl rfl
    (fun k hk => .inl ?_) (fun _ h => .inl h) hs.idle_nodup fun k hk => ?_
  · rcases hran hk with hnone | hne
    · rw [hnone] at hl
      cases hl
    · exact absurd hr hne
  · rw [hown, ← hhandle, hk]
  · by_cases hkh : k = h
    · rw [hkh]
      exact .inr (.inl hown)
    · refine .inl ?_
      show update s.past h _ k = true
      rwa [update_of_ne hkh]

theorem Wait.arm_handle {h k : Nat} (hk : (x.arm h).handle = some k) : k = h := by
  unfold Wait.arm at hk
  split_ifs at hk <;> cases hk <;> rfl

theorem Wait.arm_ne_ran (x : Wait) (h : Nat) : x.arm h ≠ .ran := by
  unfold Wait.arm
  split_ifs <;> exact nofun

theorem Callback.stop_handle {c : Callback} {k : Nat} (h : c.stop.handle = some k) : c.handle = some k := by
  cases c <;> first | exact h | cases h

/-- A step of the goroutine of a wait. -/
theorem Inv.stepWait (hs : Inv kept s) (hx : s.waits w = x) (hok : kept → ∀ h, x.pc = .clearing h → x.callback ≠ .ran)
    (h : s.stepWait w x = some s') : Inv kept s' := by
  have hw : WaitOk kept s x := hx ▸ hs.waits w
  have hhandle : (s.waits w).pc.handle = x.pc.handle := by rw [hx]
  obtain ⟨pc, cancellable, ended, callback⟩ := x
  cases pc with
  | idle => cases h
  | reading k => cases h
  | returned r => cases h
  | acquiring =>
    simp only [State.stepWait] at h
    split_ifs at h
    · cases h
      exact hs.put_same (.done nofun) nofun
    · have hunset : callback = .unset := hw.early rfl
      split at h
      -- the handle leaves the pool with this wait
      · rename_i k rest hidle
        cases h
        have hmem : k ∈ s.idle := by rw [hidle]; exact List.mem_cons_self ..
        have hnodup := hs.idle_nodup
        rw [hidle, List.nodup_cons] at hnodup
        refine hs.put rfl ⟨?_, fun _ => hunset, ?_, nofun, nofun⟩
          (Nat.le_refl _) rfl rfl ?_ (fun j hj => .inl ?_) hnodup.2 fun _ h => .inl h
        · rintro j ⟨⟩
          exact ⟨hs.idle_lt k hmem, hnodup.1⟩
        · rintro j i - hi
          rw [hunset] at hi
          cases hi
        · rintro j ⟨⟩
          exact .inr (.inl hmem)
        · rw [hidle]
          exact List.mem_cons_of_mem _ hj
      · cases h
        exact hs.put_same ⟨nofun, fun _ => hunset, nofun,
          nofun, nofun⟩ nofun
  | opening =>
    simp only [State.stepWait] at h
    split_ifs at h
    · cases h
      exact hs.put_same (.done nofun) nofun
    · cases h
      have hunset : callback = .unset := hw.early rfl
      -- the new handle has a number that nobody has had
      refine hs.put rfl ⟨?_, fun _ => hunset, ?_, nofun, nofun⟩
        (Nat.le_succ _) rfl rfl ?_ (fun _ h => .inl h) hs.idle_nodup fun k hk => ?_
      · rintro j ⟨⟩
        exact ⟨Nat.lt_succ_self _, fun hmem => Nat.lt_irrefl _ (hs.idle_lt _ hmem)⟩
      · rintro j i - hi
        rw [hunset] at hi
        cases hi
      · rintro j ⟨⟩
        exact .inr (.inr (Nat.le_refl _))
      · by_cases hkn : k = s.opened
        · exact .inr (.inr (by omega))
        · refine .inl ?_
          show update s.past s.opened false k = true
          rwa [update_of_ne hkn]
  | arming k =>
    cases h
    refine hs.put_same ⟨hw.own, nofun, ?_, fun _ _ _ _ hr => ?_, nofun⟩
      fun _ h => hhandle.trans h
    · rintro j i ⟨⟩ hi
      exact Wait.arm_handle hi
    · exact absurd hr (Wait.arm_ne_ran _ _)
  | judging k =>
    cases h
    cases ended with
    | true =>
      exact hs.put_same (hw.advance rfl (fun _ h => h) nofun fun _ => rfl)
        fun _ h => hhandle.trans h
    | false =>
      exact hs.put_same (hw.advance rfl (fun _ h => h) (fun _ h => h) nofun)
        fun _ h => hhandle.trans h
  | clearing k =>
    cases h
    -- the one step that can undo the own callback; `hok` excludes it
    exact hs.put_clear (hw.advance rfl (fun _ h => h) (fun _ h => h) nofun) hhandle rfl
      fun hk => .inr (hok hk k rfl)
  | stopping k r =>
    cases h
    exact hs.put_same ⟨hw.own, nofun, fun j i hj hi => hw.cancels j i hj (Callback.stop_handle hi),
      nofun, hw.truthful⟩ fun _ h => hhandle.trans h
  | releasing k r =>
    cases h
    exact hs.put_clear (hw.advance rfl (fun _ h => h) nofun hw.truthful) hhandle rfl
      fun _ => .inl rfl
  | pooling k r =>
    cases h
    -- the pool gets back a handle that it does not have
    obtain ⟨hlt, hmem⟩ := hw.own k rfl
    refine hs.put rfl (.done fun h => hw.truthful (congrArg some h)) (Nat.le_refl _) rfl rfl
      nofun (fun j hj => ?_) ?_ fun _ h => .inl h
    · have hj' : j ∈ (if s.closed then s.idle else k :: s.idle) := hj
      split_ifs at hj'
      · exact .inl hj'
      · rcases List.mem_cons.mp hj' with rfl | h1
        · exact .inr hhandle
        · exact .inl h1
    · show (if s.closed then s.idle else k :: s.idle).Nodup
      split_ifs
      · exact hs.idle_nodup
      · exact List.nodup_cons.mpr ⟨hmem, hs.idle_nodup⟩

/-- A return of `Read`: the wait looks at its context, or leaves the loop with another result than its
    context's. -/
theorem Inv.returnRead {may : Nat → Bool} {pc : Nat → Pc} (hs : Inv kept s)
    (hpc : ∀ h, pc h = .judging h ∨ ∃ r, r ≠ .ended ∧ pc h = .stopping h r)
    (h : s.returnRead w may pc = some s') : Inv kept s' := by
  unfold State.returnRead at h
  have hw := hs.waits w
  split at h
  · rename_i k hk
    split_ifs at h
    cases h
    rcases hpc k with heq | ⟨r, hr, heq⟩
    · rw [heq]
      exact hs.put_same (hw.advance rfl (by rw [hk]; exact fun _ h => h) (by rw [hk]; exact fun _ h => h)
        nofun) (by rw [hk]; exact fun _ h => h)
    · rw [heq]
      exact hs.put_same (hw.advance rfl (by rw [hk]; exact fun _ h => h) nofun
        fun h => absurd (Option.some.inj h) hr) (by rw [hk]; exact fun _ h => h)
  · cases h

/-- The tokens are nobody's business here. -/
theorem Inv.tokens (hs : Inv kept s) (count : Nat) : Inv kept { s with tokens := count } :=
  ⟨fun w => (hs.waits w).frame (Nat.le_refl _) id (fun h hh => ((hs.waits w).own h hh).2) fun _ _ h => h,
    hs.apart, hs.idle_lt, hs.idle_nodup, hs.down⟩

/-- **A step keeps the invariant** when the waits keep what their own callbacks have set. -/
theorem Inv.step {a : Act n} (hs : Inv kept s) (hok : kept → ownKept s a = true) (h : s.step a = some s') : Inv kept s' := by
  cases a with
  | start w cancellable ended =>
    simp only [State.step] at h
    split_ifs at h
    cases h
    exact hs.put_same ⟨nofun, fun _ => rfl, nofun,
      nofun, nofun⟩ nofun
  | step w =>
    refine hs.stepWait rfl (fun hkept k hk => ?_) h
    have := hok hkept
    simp only [ownKept, hk, decide_eq_true_eq] at this
    exact this
  | dupFail w =>
    simp only [State.step] at h
    split at h <;> cases h
    refine hs.put_same (.done fun h => ?_) nofun
    split_ifs at h
  | token w =>
    simp only [State.step] at h
    split_ifs at h
    exact (hs.tokens _).returnRead (fun k => .inr ⟨.token, nofun, rfl⟩) h
  | deadline w => exact hs.returnRead (fun k => .inl rfl) h
  | readClosed w => exact hs.returnRead (fun k => .inr ⟨.closed, nofun, rfl⟩) h
  | readFail w =>
    refine hs.returnRead (fun k => .inr ⟨_, fun h => ?_, rfl⟩) h
    split_ifs at h
  | endContext w =>
    simp only [State.step] at h
    split_ifs at h
    cases h
    have hw := hs.waits w
    exact hs.put_same ⟨hw.own, hw.early, hw.cancels, hw.past, fun _ => rfl⟩ fun _ h => h
  | fire w =>
    have hw := hs.waits w
    simp only [State.step] at h
    split at h
    · rename_i k hk
      split_ifs at h
      cases h
      refine hs.put_same ⟨hw.own, fun h => absurd h (hw.not_early (by rw [hk]; rfl)), fun j i hj hi => ?_,
        nofun, hw.truthful⟩ fun _ h => h
      exact hw.cancels j i hj (hk ▸ hi)
    · cases h
  | callback w =>
    have hw := hs.waits w
    simp only [State.step] at h
    split at h
    · rename_i k hk
      cases h
      have hcall : (s.waits w).callback.handle = some k := hk ▸ rfl
      refine hs.put rfl ⟨hw.own, fun h => absurd h (hw.not_early hcall), nofun,
        fun _ hopen j hj _ => ?_, hw.truthful⟩ (Nat.le_refl _) rfl rfl (fun _ h => .inl h) (fun _ h => .inl h)
        hs.idle_nodup fun j hj => .inl ?_
      · -- the callback cancels the handle its wait reads from
        obtain rfl := hw.cancels j k (Pc.handle_of_loop hj) hcall
        have hup : s.down k = false := by
          by_contra hdown
          have := hs.down k (by simpa using hdown)
          rw [show s.closed = false from hopen] at this
          cases this
        show update s.past k _ k = true
        rw [update_self, hup]
        rfl
      · show update s.past k _ j = true
        by_cases hjk : j = k
        · subst hjk
          rw [update_self, hj, ite_self]
        · rwa [update_of_ne hjk]
    · cases h
  | signal count =>
    cases h
    exact hs.tokens _
  | close =>
    cases h
    exact ⟨fun w => (hs.waits w).frame (Nat.le_refl _) nofun nofun
      fun _ _ h => h, hs.apart, nofun, List.nodup_nil, fun _ _ => rfl⟩
  | shut k =>
    simp only [State.step] at h
    split_ifs at h with hclosed
    cases h
    exact ⟨fun w => (hs.waits w).frame (Nat.le_refl _) id (fun h hh => ((hs.waits w).own h hh).2)
      fun _ _ h => h, hs.apart, hs.idle_lt, hs.idle_nodup, fun _ _ => hclosed⟩

/-! ### Waits that return -/

/-- **Waits of a FIFO event**: in every run in which no wait clears the deadline its own callback has set, no wait is
    stuck in its read; and in every run a wait that returns a context error has a context that ended. -/
theorem fifo_wait (n : Nat) :
    (∀ s, (machine n).Reach (fun s a => ownKept s a = true) s → ∀ w, ¬ Stuck s w) ∧
    ∀ s, (machine n).Reach (fun _ _ => True) s →
      ∀ w, (s.waits w).pc.result = some .ended → (s.waits w).ended = true := by
  refine ⟨fun s hreach w => ?_, fun s hreach w => ?_⟩
  · have hs : Inv True s := hreach.invariant (Inv.start n) fun _ _ _ hs hok hstep => hs.step (fun _ => hok) hstep
    rintro ⟨⟨h, hpc, hpast⟩, -, hopen, -, hran⟩
    have := (hs.waits w).past trivial hopen h (hpc ▸ rfl) hran
    rw [hpast] at this
    cases this
  · have hs : Inv False s := hreach.invariant (Inv.start n) fun _ _ _ hs _ hstep => hs.step False.elim hstep
    exact (hs.waits w).truthful

/-- Wait 0 returns with a token while its context ends, so its callback is still to come when the handle has gone to
    wait 1; it then aborts the read of wait 1, whose own context is live. -/
def handover : List (Act 2) :=
  [.start 0 true false, .step 0, .step 0, .step 0, .signal 1, .token 0, .endContext 0, .fire 0,
    .step 0, .step 0, .step 0, .start 1 true false, .step 1, .step 1, .callback 0, .deadline 1, .step 1]

theorem fifo_wait_handover :
    ∃ s, (machine 2).Reach (fun s a => ownKept s a = true) s ∧
      (s.waits 1 = ⟨.returned .ended, true, true, .ran⟩ ∧ ¬ Stuck s 1) ∧
      ((s.waits 1).pc.result = some .ended → (s.waits 1).ended = true) := by
  have hrun : ((machine 2).runOk ownKept (.start 2) (handover ++
      [.step 1, .endContext 1, .fire 1, .callback 1, .deadline 1, .step 1, .step 1, .step 1, .step 1])).map
      (fun s => s.waits 1) = some ⟨.returned .ended, true, true, .ran⟩ := by decide
  obtain ⟨s, hs, hv⟩ := Machine.Reach.exists_of_runOk (fun _ _ h => h) hrun
  exact ⟨s, hs, ⟨hv, (fifo_wait 2).1 s hs 1⟩, (fifo_wait 2).2 s (hs.mono fun _ _ _ => trivial) 1⟩

/-- After `ctx.Err` has returned nil, the context of wait 1 ends and its callback sets the deadline, which wait 1 then
    clears as a leftover of wait 0. -/
theorem stuck_wait : ∃ s, (machine 2).Reach (fun _ _ => True) s ∧ Stuck s 1 := by
  have hrun : ((machine 2).run (.start 2) (handover ++ [.endContext 1, .fire 1, .callback 1, .step 1])).map
      (fun s => (s.waits 1, s.past 0, s.tokens, s.closed)) =
      some (⟨.reading 0, true, true, .ran⟩, false, 0, false) := by decide
  obtain ⟨s, hs, hv⟩ := Machine.Reach.exists_of_run hrun
  obtain ⟨hwait, hpast, htokens, hclosed⟩ : s.waits 1 = ⟨.reading 0, true, true, .ran⟩ ∧ s.past 0 = false ∧
      s.tokens = 0 ∧ s.closed = false := by simpa using hv
  exact ⟨s, hs, ⟨0, by rw [hwait], hpast⟩, htokens, hclosed, by rw [hwait], by rw [hwait]⟩

end GoIpc.Event.Fifo
