import GoIpc.Lib.Machine
import Mathlib.Algebra.Group.Nat.Defs
import Mathlib.Data.List.Count
import Mathlib.Data.List.Nodup
import Mathlib.Logic.Function.Basic

namespace GoIpc.Process

open GoIpc.Lib
open Function (update update_self update_of_ne forall_update_iff update_eq_self)

/-!
# Exit watches

`onExit` puts a callback on the watch of a process, which it opens when there is none; the cancel
function takes it off again, and closes the watch with its last callback.  `watch.run` waits, copies the
callbacks under the lock, and calls the copies after it let the lock go.  A callback for a process that
is already gone is called on a goroutine of its own.

* `machine` — any number of registrations, cancels and watches over any number of processes; a section
  under `watches.mu` is one step;
* `Reg.Ok`, `Inv` — a callback is on its watch, among the copies, or called;
* `exit_watches` — callbacks start once, and none starts after its cancel, while no cancel returns for a
  callback that is already copied or handed to a goroutine;
* `late_start` — the two runs in which a cancelled callback starts.
-/

/-! ### The machine -/

/-- A process, as a dial of its life socket finds it.  `Release` removes the socket of a live process. -/
inductive Proc
  | listening
  | released
  | exited
deriving DecidableEq

/-- Where `watch.run` stands.  A flag says that the wait failed, and a list holds the callbacks still to
    be called, by their registrations. -/
inductive Phase
  | waiting
  /-- before the lock -/
  | waited (err : Bool)
  /-- before the check of `isDead` -/
  | copied (left : List Nat) (err : Bool)
  | calling (left : List Nat) (err : Bool)
  | finished
deriving DecidableEq

/-- The callbacks that were copied and did not start. -/
def Phase.left : Phase → List Nat
  | .copied left _ | .calling left _ => left
  | _ => []

/-- `run` has left its section under the lock. -/
def Phase.taken : Phase → Bool
  | .waiting | .waited _ => false
  | _ => true

/-- `watch`; `fns` is the map from a key to the registration it was made for. -/
structure Watch where
  id : Nat
  fns : List (Nat × Nat)
  stopped : Bool
  phase : Phase
deriving DecidableEq

/-- A registration: the watch and key its cancel function holds, or none for a process that was gone.
    `cancelled` and `returned` are for that function, `spawned` is a goroutine made for the callback that
    did not run yet, and `calls` has the error flag of every call. -/
structure Reg where
  watch : Option Nat
  key : Nat
  cancelled : Bool
  returned : Bool
  spawned : Bool
  calls : List Bool
deriving DecidableEq

/-- `watches`, with the processes, the `exited` map, and every watch and registration ever made. -/
structure State where
  procs : Nat → Proc
  exited : Nat → Bool
  byID : Nat → Option Nat
  next : Nat
  watches : Nat → Watch
  opened : Nat
  regs : Nat → Reg
  made : Nat

inductive Act
  | release (p : Nat)
  | exit (p : Nat)
  /-- `fails`: the dial returns an error that does not mean that the process is gone -/
  | onExit (p : Nat) (fails : Bool)
  /-- the section of a cancel function -/
  | cancel (r : Nat)
  | cancelReturn (r : Nat)
  /-- the kernel wait returns -/
  | wait (i : Nat) (err : Bool)
  /-- the section of `run` -/
  | copy (i : Nat)
  /-- the part of `run` before the calls; `fails` as for `onExit` -/
  | judge (i : Nat) (fails : Bool)
  | call (i r : Nat)
  | finish (i : Nat)
  /-- the goroutine of `go fn(nil)` -/
  | run (r : Nat)
deriving DecidableEq

namespace State

def start : State :=
  ⟨fun _ => .listening, fun _ => false, fun _ => none, 0, fun _ => ⟨0, [], false, .waiting⟩, 0,
    fun _ => ⟨none, 0, false, false, false, []⟩, 0⟩

/-- `watches.next++`, in 64 bits -/
def nextKey (s : State) : Nat := (s.next + 1) % 2 ^ 64

def setWatch (s : State) (i : Nat) (w : Watch) : State :=
  { s with watches := update s.watches i w }

def setReg (s : State) (r : Nat) (g : Reg) : State := { s with regs := update s.regs r g }

/-- A new watch, with its `run` on a goroutine of its own -/
def openWatch (s : State) (p : Nat) : State :=
  { s with
    watches := update s.watches s.opened ⟨p, [], false, .waiting⟩
    opened := s.opened + 1
    byID := update s.byID p (some s.opened) }

/-- `w.fns[key] = fn` with the next key -/
def register (s : State) (i : Nat) : State :=
  { s with
    next := s.nextKey
    watches := update s.watches i { s.watches i with
      fns := (s.nextKey, s.made) :: (s.watches i).fns.filter (fun e => e.1 ≠ s.nextKey) }
    regs := update s.regs s.made ⟨some i, s.nextKey, false, false, false, []⟩
    made := s.made + 1 }

/-- `go fn(nil)` for a process that is gone -/
def spawn (s : State) : State :=
  { s with
    regs := update s.regs s.made ⟨none, 0, false, false, true, []⟩
    made := s.made + 1 }

def onExit (s : State) (p : Nat) (fails : Bool) : State :=
  match s.byID p with
  | some i => s.register i
  | none =>
      if fails then s
      else if s.procs p = .listening then (s.openWatch p).register s.opened
      else s.spawn

/-- The function that `onExit` returned for the registration `r` -/
def cancel (s : State) (r : Nat) : State :=
  let g := { s.regs r with cancelled := true }
  match g.watch with
  | none => s.setReg r g
  | some i =>
      let w := s.watches i
      let fns := w.fns.filter (fun e => e.1 ≠ g.key)
      if fns = [] ∧ w.stopped = false then
        { s.setReg r g with byID := update s.byID w.id none }.setWatch i
          { w with fns := fns, stopped := true }
      else (s.setReg r g).setWatch i { w with fns := fns }

/-- `isDead` -/
def isDead (s : State) (p : Nat) (fails : Bool) : Bool :=
  s.exited p || (!fails && s.procs p ≠ .listening)

/-- The section of `run` -/
def copy (s : State) (i : Nat) (w : Watch) (err : Bool) : State :=
  if w.stopped then s.setWatch i { w with phase := .finished }
  else
    { s with byID := update s.byID w.id none }.setWatch i
      { w with stopped := true, phase := .copied (w.fns.map Prod.snd) err }

/-- An exit that is sure is stored in `exited`, and the callbacks get no error. -/
def judge (s : State) (i : Nat) (w : Watch) (left : List Nat) (err fails : Bool) : State :=
  let err := err && !s.isDead w.id fails
  { s with exited := if err then s.exited else update s.exited w.id true }.setWatch i
    { w with phase := .calling left err }

/-- `fn(err)` -/
def call (s : State) (r : Nat) (err : Bool) : State :=
  s.setReg r { s.regs r with calls := err :: (s.regs r).calls, spawned := false }

def step (s : State) : Act → Option State
  | .release p =>
      if s.procs p = .listening then some { s with procs := update s.procs p .released } else none
  | .exit p => some { s with procs := update s.procs p .exited }
  | .onExit p fails => some (s.onExit p fails)
  | .cancel r => if r < s.made then some (s.cancel r) else none
  | .cancelReturn r =>
      if r < s.made ∧ (s.regs r).cancelled then some (s.setReg r { s.regs r with returned := true }) else none
  | .wait i err =>
      let w := s.watches i
      if i < s.opened ∧ w.phase = .waiting ∧ (err = false → s.procs w.id = .exited) then
        some (s.setWatch i { w with phase := .waited err })
      else none
  | .copy i =>
      match (s.watches i).phase with
      | .waited err => some (s.copy i (s.watches i) err)
      | _ => none
  | .judge i fails =>
      match (s.watches i).phase with
      | .copied left err => some (s.judge i (s.watches i) left err fails)
      | _ => none
  -- the copies come from a map, so they are called in any order
  | .call i r =>
      match (s.watches i).phase with
      | .calling left err =>
          if r ∈ left then
            some ((s.call r err).setWatch i { s.watches i with phase := .calling (left.erase r) err })
          else none
      | _ => none
  | .finish i =>
      match (s.watches i).phase with
      | .calling [] _ => some (s.setWatch i { s.watches i with phase := .finished })
      | _ => none
  | .run r => if (s.regs r).spawned then some (s.call r false) else none

/-- The callback of `r` was copied or handed to a goroutine, and did not start. -/
def pending (s : State) (r : Nat) : Bool :=
  match (s.regs r).watch with
  | none => (s.regs r).spawned
  | some i => r ∈ (s.watches i).phase.left

end State

def machine : Machine State Act := ⟨State.start, State.step⟩

/-- No registration of a watch gets a key that the watch gave out before.  A key comes back after
    `2 ^ 64` registrations. -/
def freshKey (s : State) : Act → Bool
  | .onExit p _ =>
      s.byID p = none ∨ ∀ r < s.made, (s.regs r).watch = s.byID p → (s.regs r).key ≠ s.nextKey
  | _ => true

/-- No cancel function returns while its callback is about to be called. -/
def punctual (s : State) : Act → Bool
  | .cancelReturn r => !s.pending r
  | _ => true

/-! ### Callbacks -/

/-- What is true of a registration `g` on the watch `w`; with `strict`, no returned cancel has left its
    callback pending. -/
structure Reg.Ok (strict : Prop) (g : Reg) (r : Nat) (w : Watch) : Prop where
  spawned : g.spawned = false
  once : w.phase.left.count r + g.calls.length ≤ 1
  waiting : w.phase.taken = false → g.calls = [] ∧
    (g.cancelled = false → w.stopped = false ∧ (g.key, r) ∈ w.fns)
  taken : w.phase.taken = true → g.cancelled = false → w.phase.left.count r + g.calls.length = 1
  returned : g.returned = true → g.cancelled = true
  final : strict → g.returned = true → r ∉ w.phase.left

/-- What is true of a registration whose process was gone. -/
structure Reg.OkGone (strict : Prop) (g : Reg) : Prop where
  once : (if g.spawned then 1 else 0) + g.calls.length = 1
  final : strict → g.returned = true → g.spawned = false

/-- What is true of the watch `i` among the first `made` registrations. -/
structure Watch.Ok (made : Nat) (regs : Nat → Reg) (i : Nat) (w : Watch) : Prop where
  fns : ∀ k r, (k, r) ∈ w.fns → r < made ∧ (regs r).watch = some i ∧ (regs r).key = k ∧
    (regs r).cancelled = false
  nodup : (w.fns.map Prod.snd).Nodup
  left : ∀ r ∈ w.phase.left, r < made ∧ (regs r).watch = some i

structure Inv (strict : Prop) (s : State) : Prop where
  regs : ∀ r < s.made, ∀ i, (s.regs r).watch = some i → i < s.opened ∧ (s.regs r).Ok strict r (s.watches i)
  gone : ∀ r < s.made, (s.regs r).watch = none → (s.regs r).OkGone strict
  watches : ∀ i, (s.watches i).Ok s.made s.regs i
  byID : ∀ p i, s.byID p = some i → i < s.opened ∧ (s.watches i).id = p ∧ (s.watches i).stopped = false ∧
    (s.watches i).phase.taken = false
  keys : ∀ q < s.made, ∀ r < s.made, ∀ i, (s.regs q).watch = some i → (s.regs r).watch = some i →
    (s.regs q).key = (s.regs r).key → q = r
  later : ∀ r, s.made ≤ r → (s.regs r).spawned = false

theorem Watch.Ok.empty (made : Nat) (regs : Nat → Reg) (i p : Nat) :
    Watch.Ok made regs i ⟨p, [], false, .waiting⟩ :=
  ⟨fun _ _ h => absurd h List.not_mem_nil, List.nodup_nil, fun _ h => absurd h List.not_mem_nil⟩

theorem Inv.init (strict : Prop) : Inv strict State.start :=
  ⟨fun r hr => absurd hr (Nat.not_lt_zero r), fun r hr => absurd hr (Nat.not_lt_zero r),
    fun i => .empty 0 _ i 0, nofun, fun q hq => absurd hq (Nat.not_lt_zero q),
    fun _ _ => rfl⟩

variable {strict : Prop} {s t : State}

/-- What is left in a table after an entry was taken out. -/
theorem update_none_eq_some {f : Nat → Option Nat} {a p j : Nat} (h : update f a none p = some j) :
    p ≠ a ∧ f p = some j := by
  by_cases hp : p = a
  · rw [hp, update_self] at h
    cases h
  · rw [update_of_ne hp] at h
    exact ⟨hp, h⟩

variable {byID : Nat → Option Nat} {i r : Nat}

/-- A change of the watch `i`, of registrations and of the table. -/
theorem Inv.change (h : Inv strict s) {w : Watch} {regs : Nat → Reg} {exited : Nat → Bool}
    (hsame : ∀ q, (regs q).watch = (s.regs q).watch ∧ (regs q).key = (s.regs q).key ∧
      (s.made ≤ q → (regs q).spawned = false))
    (hok : ∀ q < s.made, (s.regs q).watch = some i → (s.regs q).Ok strict q (s.watches i) →
      (regs q).Ok strict q w) (hother : ∀ q j, (s.regs q).watch = some j → j ≠ i → regs q = s.regs q)
    (hgone : ∀ q < s.made, (s.regs q).watch = none → (regs q).OkGone strict)
    (hfns : ∀ k q, (k, q) ∈ w.fns → (k, q) ∈ (s.watches i).fns ∧ (regs q).cancelled = false)
    (hnodup : (w.fns.map Prod.snd).Nodup)
    (hleft : ∀ q ∈ w.phase.left, q < s.made ∧ (s.regs q).watch = some i)
    (hbyID : ∀ p j, byID p = some j → s.byID p = some j ∧
      (j = i → w.id = p ∧ w.stopped = false ∧ w.phase.taken = false)) :
    Inv strict { s with
      watches := update s.watches i w, regs := regs, byID := byID, exited := exited } where
  regs r hr j hj := by
    have hj' : (s.regs r).watch = some j := (hsame r).1.symm.trans hj
    obtain ⟨hlt, hold⟩ := h.regs r hr j hj'
    refine ⟨hlt, ?_⟩
    by_cases hji : j = i
    · subst hji
      simp only [update_self]
      exact hok r hr hj' hold
    · simp only [update_of_ne hji]
      rwa [hother r j hj' hji]
  gone r hr hnone := hgone r hr ((hsame r).1.symm.trans hnone)
  watches := (forall_update_iff s.watches (Watch.Ok s.made regs)).mpr
    ⟨⟨fun k r hmem => by
        obtain ⟨hmem, hcancelled⟩ := hfns k r hmem
        obtain ⟨hlt, hwatch, hkey, -⟩ := (h.watches i).fns k r hmem
        exact ⟨hlt, (hsame r).1.trans hwatch, (hsame r).2.1.trans hkey, hcancelled⟩,
      hnodup, fun r hr => ⟨(hleft r hr).1, (hsame r).1.trans (hleft r hr).2⟩⟩,
    fun j hji => ⟨fun k r hmem => by
        rw [hother r j ((h.watches j).fns k r hmem).2.1 hji]
        exact (h.watches j).fns k r hmem,
      (h.watches j).nodup,
      fun r hr => ⟨((h.watches j).left r hr).1, (hsame r).1.trans ((h.watches j).left r hr).2⟩⟩⟩
  byID p := (forall_update_iff s.watches fun j x => byID p = some j → j < s.opened ∧ x.id = p ∧
      x.stopped = false ∧ x.phase.taken = false).mpr
    ⟨fun hp => ⟨(h.byID p i (hbyID p i hp).1).1, (hbyID p i hp).2 rfl⟩,
      fun j _ hp => h.byID p j (hbyID p j hp).1⟩
  keys q hq r hr j hqj hrj hkey := h.keys q hq r hr j ((hsame q).1.symm.trans hqj)
    ((hsame r).1.symm.trans hrj) (by rw [← (hsame q).2.1, ← (hsame r).2.1]; exact hkey)
  later r hr := (hsame r).2.2 hr

/-- One registration is changed, and stays on its watch under its key. -/
theorem Inv.same_update (h : Inv strict s) {g : Reg} (hr : r < s.made)
    (hg : g.watch = (s.regs r).watch ∧ g.key = (s.regs r).key) :
    ∀ q, (update s.regs r g q).watch = (s.regs q).watch ∧
      (update s.regs r g q).key = (s.regs q).key ∧
      (s.made ≤ q → (update s.regs r g q).spawned = false) :=
  (forall_update_iff s.regs fun q x => x.watch = (s.regs q).watch ∧ x.key = (s.regs q).key ∧
      (s.made ≤ q → x.spawned = false)).mpr
    ⟨⟨hg.1, hg.2, fun hle => absurd hr (Nat.not_lt.mpr hle)⟩, fun q _ => ⟨rfl, rfl, h.later q⟩⟩

/-- A change of the watch `i` that keeps its callbacks. -/
theorem Inv.watch (h : Inv strict s) {w : Watch} {exited : Nat → Bool} (hfns : w.fns = (s.watches i).fns)
    (hok : ∀ q, (s.regs q).Ok strict q (s.watches i) → (s.regs q).Ok strict q w)
    (hleft : ∀ q ∈ w.phase.left, q < s.made ∧ (s.regs q).watch = some i)
    (hbyID : ∀ p j, byID p = some j → s.byID p = some j ∧
      (j = i → w.id = p ∧ w.stopped = false ∧ w.phase.taken = false)) :
    Inv strict { s with watches := update s.watches i w, byID := byID, exited := exited } :=
  h.change (fun q => ⟨rfl, rfl, h.later q⟩) (fun q _ _ => hok q) (fun _ _ _ _ => rfl) h.gone
    (fun k q hq => by rw [hfns] at hq; exact ⟨hq, ((h.watches i).fns k q hq).2.2.2⟩)
    (by rw [hfns]; exact (h.watches i).nodup) hleft hbyID

/-- A change of the watch `i` and of one registration on it. -/
theorem Inv.both (h : Inv strict s) {w : Watch} {g : Reg} (hr : r < s.made) (hi : (s.regs r).watch = some i)
    (hg : g.watch = (s.regs r).watch ∧ g.key = (s.regs r).key)
    (hself : (s.regs r).Ok strict r (s.watches i) → g.Ok strict r w)
    (hok : ∀ q < s.made, q ≠ r → (s.regs q).watch = some i → (s.regs q).Ok strict q (s.watches i) →
      (s.regs q).Ok strict q w)
    (hfns : ∀ k q, (k, q) ∈ w.fns → (k, q) ∈ (s.watches i).fns ∧ (q = r → g.cancelled = false))
    (hnodup : (w.fns.map Prod.snd).Nodup)
    (hleft : ∀ q ∈ w.phase.left, q < s.made ∧ (s.regs q).watch = some i)
    (hbyID : ∀ p j, byID p = some j → s.byID p = some j ∧
      (j = i → w.id = p ∧ w.stopped = false ∧ w.phase.taken = false)) :
    Inv strict { s with
      watches := update s.watches i w, regs := update s.regs r g, byID := byID } := by
  refine h.change (h.same_update hr hg) (fun q hq hqi hold => ?_) (fun q j hqj hji => ?_)
    (fun q hq hnone => ?_) (fun k q hmem => ⟨(hfns k q hmem).1, ?_⟩) hnodup hleft hbyID
  · by_cases hqr : q = r
    · subst hqr
      rw [update_self]
      exact hself hold
    · rw [update_of_ne hqr]
      exact hok q hq hqr hqi hold
  · refine update_of_ne (fun hqr => hji ?_) _ _
    subst hqr
    exact Option.some.inj (hqj.symm.trans hi)
  · rw [update_of_ne (by rintro rfl; rw [hi] at hnone; cases hnone)]
    exact h.gone q hq hnone
  · by_cases hqr : q = r
    · subst hqr
      rw [update_self]
      exact (hfns k q hmem).2 rfl
    · rw [update_of_ne hqr]
      exact ((h.watches i).fns k q (hfns k q hmem).1).2.2.2

/-- A change of a registration whose process was gone. -/
theorem Inv.regGone (h : Inv strict s) {g : Reg} (hr : r < s.made) (hnone : (s.regs r).watch = none)
    (hg : g.watch = (s.regs r).watch ∧ g.key = (s.regs r).key) (hok : g.OkGone strict) :
    Inv strict (s.setReg r g) := by
  -- the registrations on a watch are others, so any watch may stand for the one that changes
  have hsome : ∀ {q i}, (s.regs q).watch = some i → update s.regs r g q = s.regs q :=
    fun hq => update_of_ne (by rintro rfl; rw [hnone] at hq; cases hq) _ _
  have hchange : Inv strict { s with
      watches := update s.watches 0 (s.watches 0), regs := update s.regs r g } := by
    refine h.change (h.same_update hr hg) (fun q _ hq hold => (hsome hq).symm ▸ hold)
      (fun q j hq _ => hsome hq) (fun q hq => ?_) (fun k q hq => ⟨hq, ?_⟩) ((h.watches 0).nodup) ((h.watches 0).left)
      (fun p j hp => ⟨hp, fun hj => hj ▸ (h.byID p j hp).2⟩)
    · exact (forall_update_iff s.regs fun q x => q < s.made → (s.regs q).watch = none →
        x.OkGone strict).mpr ⟨fun _ _ => hok, fun q _ => h.gone q⟩ q hq
    · rw [hsome ((h.watches 0).fns k q hq).2.1]
      exact ((h.watches 0).fns k q hq).2.2.2
  rwa [update_eq_self] at hchange

/-! ### The steps of `run` -/

theorem Phase.left_eq_nil {ph : Phase} (h : ph.taken = false) : ph.left = [] := by
  cases ph <;> first | rfl | cases h

theorem Inv.wait (h : Inv strict s) (err : Bool) (hphase : (s.watches i).phase = .waiting) :
    Inv strict (s.setWatch i { s.watches i with phase := .waited err }) := by
  refine h.watch rfl (fun q hq => ?_) (fun q hq => absurd hq List.not_mem_nil)
    (fun p j hp => ⟨hp, ?_⟩)
  · obtain ⟨hspawned, honce, hwaiting, -, hreturned, hfinal⟩ := hq
    rw [hphase] at honce hwaiting hfinal
    exact ⟨hspawned, honce, hwaiting, nofun, hreturned, hfinal⟩
  · rintro rfl
    have hold := (h.byID p j hp).2
    exact ⟨hold.1, hold.2.1, rfl⟩

/-- The section of `run`: it takes the callbacks of a watch that is not stopped, each of them once and
    none that was cancelled. -/
theorem Inv.copy (h : Inv strict s) {err : Bool} (hphase : (s.watches i).phase = .waited err) :
    Inv strict (s.copy i (s.watches i) err) := by
  unfold State.copy
  split
  case isTrue hstopped =>
    refine h.watch rfl (fun q hq => ?_) (fun q hq => absurd hq List.not_mem_nil)
      (fun p j hp => ⟨hp, ?_⟩)
    · obtain ⟨hspawned, honce, hwaiting, -, hreturned, -⟩ := hq
      rw [hphase] at honce hwaiting
      obtain ⟨-, hlive⟩ := hwaiting rfl
      refine ⟨hspawned, honce, nofun, fun _ hcancelled => ?_, hreturned,
        fun _ _ => List.not_mem_nil⟩
      rw [hstopped] at hlive
      exact absurd (hlive hcancelled).1 (by decide)
    · rintro rfl
      rw [(h.byID p j hp).2.2.1] at hstopped
      cases hstopped
  case isFalse hstopped =>
    refine h.watch rfl (fun q hq => ?_) (fun q hq => ?_) (fun p j hp => ?_)
    · obtain ⟨hspawned, honce, hwaiting, -, hreturned, -⟩ := hq
      rw [hphase] at hwaiting
      obtain ⟨hcalls, hlive⟩ := hwaiting rfl
      have hcount : ((s.watches i).fns.map Prod.snd).count q ≤ 1 :=
        List.nodup_iff_count_le_one.mp ((h.watches i).nodup) q
      refine ⟨hspawned, by rw [hcalls]; exact hcount, nofun, fun _ hcancelled => ?_,
        hreturned, fun _ hret hmem => ?_⟩
      · have hmem : q ∈ (s.watches i).fns.map Prod.snd :=
          List.mem_map.mpr ⟨_, (hlive hcancelled).2, rfl⟩
        have hpos := List.count_pos_iff.mpr hmem
        rw [hcalls]
        show ((s.watches i).fns.map Prod.snd).count q + 0 = 1
        omega
      · obtain ⟨⟨k, q'⟩, hentry, rfl⟩ := List.mem_map.mp hmem
        have hcancelled := ((h.watches i).fns k q' hentry).2.2.2
        rw [hreturned hret] at hcancelled
        cases hcancelled
    · obtain ⟨⟨k, q'⟩, hentry, rfl⟩ := List.mem_map.mp hq
      have hold := (h.watches i).fns k q' hentry
      exact ⟨hold.1, hold.2.1⟩
    · obtain ⟨hne, hp⟩ := update_none_eq_some hp
      exact ⟨hp, fun hji => absurd (hji ▸ (h.byID p j hp).2.1).symm hne⟩

/-- From the check on, `run` keeps its copies. -/
theorem Inv.keepLeft (h : Inv strict s) {ph : Phase} (exited : Nat → Bool)
    (htaken : (s.watches i).phase.taken = true) (htaken' : ph.taken = true)
    (hleft : ph.left = (s.watches i).phase.left) :
    Inv strict ({ s with exited := exited }.setWatch i { s.watches i with phase := ph }) := by
  refine h.watch rfl (fun q hq => ?_) (fun q hq => (h.watches i).left q (hleft ▸ hq)) (fun p j hp => ⟨hp, ?_⟩)
  · obtain ⟨hspawned, honce, -, htook, hreturned, hfinal⟩ := hq
    rw [← hleft] at honce htook hfinal
    exact ⟨hspawned, honce, fun hc => (by rw [htaken'] at hc; cases hc), fun _ => htook htaken,
      hreturned, hfinal⟩
  · rintro rfl
    rw [(h.byID p j hp).2.2.2] at htaken
    cases htaken

/-- A call takes the callback from the copies. -/
theorem Inv.call (h : Inv strict s) {left : List Nat} {err : Bool}
    (hphase : (s.watches i).phase = .calling left err) (hr : r ∈ left) :
    Inv strict ((s.call r err).setWatch i { s.watches i with phase := .calling (left.erase r) err }) := by
  have hleft : (s.watches i).phase.left = left := hphase ▸ rfl
  obtain ⟨hlt, hi⟩ := (h.watches i).left r (hleft ▸ hr)
  have hsub : ∀ {q}, q ∉ left → q ∉ left.erase r := fun hq hmem => hq (List.mem_of_mem_erase hmem)
  have htaken : (s.watches i).phase.taken = true := hphase ▸ rfl
  refine h.both hlt hi ⟨rfl, rfl⟩ (fun hold => ?_) (fun q _ hqr _ hold => ?_)
    (fun k q hmem => ⟨hmem, fun hqr => hqr ▸ ((h.watches i).fns k q hmem).2.2.2⟩) ((h.watches i).nodup)
    (fun q hq => (h.watches i).left q (hleft ▸ List.mem_of_mem_erase hq)) (fun p j hp => ⟨hp, ?_⟩)
  · obtain ⟨-, honce, -, htook, hreturned, hfinal⟩ := hold
    rw [hleft] at honce htook hfinal
    have hpos := List.count_pos_iff.mpr hr
    have hcount : (left.erase r).count r = left.count r - 1 := List.count_erase_self
    refine ⟨rfl, ?_, nofun, fun _ hcancelled => ?_, hreturned,
      fun hs hret => hsub (hfinal hs hret)⟩
    · show (left.erase r).count r + ((s.regs r).calls.length + 1) ≤ 1
      omega
    · have := htook htaken hcancelled
      show (left.erase r).count r + ((s.regs r).calls.length + 1) = 1
      omega
  · obtain ⟨hspawned, honce, -, htook, hreturned, hfinal⟩ := hold
    rw [hleft] at honce htook hfinal
    have hcount : (left.erase r).count q = left.count q := List.count_erase_of_ne hqr
    refine ⟨hspawned, ?_, nofun, fun _ hcancelled => ?_, hreturned,
      fun hs hret => hsub (hfinal hs hret)⟩
    · show (left.erase r).count q + (s.regs q).calls.length ≤ 1
      rwa [hcount]
    · show (left.erase r).count q + (s.regs q).calls.length = 1
      rw [hcount]
      exact htook htaken hcancelled
  · rintro rfl
    rw [(h.byID p j hp).2.2.2] at htaken
    cases htaken

/-- Only a process that was gone gets a goroutine for its callback. -/
theorem Inv.gone_of_spawned (h : Inv strict s) (hspawned : (s.regs r).spawned = true) :
    r < s.made ∧ (s.regs r).watch = none := by
  have hr : r < s.made := by
    by_contra hle
    rw [h.later r (Nat.not_lt.mp hle)] at hspawned
    cases hspawned
  refine ⟨hr, ?_⟩
  cases hi : (s.regs r).watch with
  | none => rfl
  | some i =>
    rw [(h.regs r hr i hi).2.spawned] at hspawned
    cases hspawned

/-- The goroutine made for a callback calls it. -/
theorem Inv.run (h : Inv strict s) (hspawned : (s.regs r).spawned = true) : Inv strict (s.call r false) := by
  obtain ⟨hr, hnone⟩ := h.gone_of_spawned hspawned
  have honce := (h.gone r hr hnone).once
  rw [hspawned, if_pos rfl] at honce
  refine h.regGone hr hnone ⟨rfl, rfl⟩ ⟨?_, fun _ _ => rfl⟩
  show 0 + ((s.regs r).calls.length + 1) = 1
  omega

/-! ### Cancelling -/

/-- A cancel function takes its own callback off the watch and no other, and stops the watch only with
    its last one. -/
theorem Inv.cancel (h : Inv strict s) (hr : r < s.made) : Inv strict (s.cancel r) := by
  unfold State.cancel
  simp only
  split
  case h_1 hnone =>
    obtain ⟨honce, hfinal⟩ := h.gone r hr hnone
    exact h.regGone hr hnone ⟨rfl, rfl⟩ ⟨honce, hfinal⟩
  case h_2 i hi =>
    obtain ⟨fns, hfns⟩ : ∃ fns, fns = (s.watches i).fns.filter (fun e => e.1 ≠ (s.regs r).key) := ⟨_, rfl⟩
    have hmem : ∀ {k q}, (k, q) ∈ fns ↔ (k, q) ∈ (s.watches i).fns ∧ k ≠ (s.regs r).key := by
      simp [hfns]
    have hsub : ∀ k q, (k, q) ∈ fns →
        (k, q) ∈ (s.watches i).fns ∧ (q = r → { s.regs r with cancelled := true : Reg }.cancelled = false) := by
      intro k q hkq
      obtain ⟨hold, hne⟩ := hmem.mp hkq
      refine ⟨hold, ?_⟩
      rintro rfl
      exact absurd ((h.watches i).fns k q hold).2.2.1.symm hne
    have hnodup : (fns.map Prod.snd).Nodup := by
      rw [hfns]
      exact (h.watches i).nodup.sublist (List.filter_sublist.map _)
    have hkeep : ∀ q < s.made, q ≠ r → (s.regs q).watch = some i →
        ((s.regs q).key, q) ∈ (s.watches i).fns → ((s.regs q).key, q) ∈ fns :=
      fun q hq hqr hqi hold => hmem.mpr ⟨hold, fun hkey => hqr (h.keys q hq r hr i hqi hi hkey)⟩
    rw [← hfns]
    split
    -- the last callback stops the watch and frees its process for another one
    case isTrue hlast =>
      refine h.both hr hi ⟨rfl, rfl⟩ (fun hold => ?_) (fun q hq hqr hqi hold => ?_) hsub hnodup ((h.watches i).left)
        (fun p j hp => ?_)
      · exact ⟨hold.spawned, hold.once, fun hw => ⟨(hold.waiting hw).1, nofun⟩,
          nofun, fun _ => rfl, hold.final⟩
      · refine ⟨hold.spawned, hold.once, fun hw => ⟨(hold.waiting hw).1, fun hc => ?_⟩, hold.taken,
          hold.returned, hold.final⟩
        have hin := hkeep q hq hqr hqi ((hold.waiting hw).2 hc).2
        rw [hlast.1] at hin
        exact absurd hin List.not_mem_nil
      · obtain ⟨hne, hp⟩ := update_none_eq_some hp
        exact ⟨hp, fun hji => absurd (hji ▸ (h.byID p j hp).2.1).symm hne⟩
    case isFalse =>
      refine h.both hr hi ⟨rfl, rfl⟩ (fun hold => ?_) (fun q hq hqr hqi hold => ?_) hsub hnodup ((h.watches i).left)
        (fun p j hp => ⟨hp, ?_⟩)
      · exact ⟨hold.spawned, hold.once, fun hw => ⟨(hold.waiting hw).1, nofun⟩,
          nofun, fun _ => rfl, hold.final⟩
      · refine ⟨hold.spawned, hold.once, fun hw => ⟨(hold.waiting hw).1, fun hc => ?_⟩, hold.taken,
          hold.returned, hold.final⟩
        obtain ⟨hlive, hold⟩ := (hold.waiting hw).2 hc
        exact ⟨hlive, hkeep q hq hqr hqi hold⟩
      · rintro rfl
        exact (h.byID p j hp).2

/-- A cancel function returns. -/
theorem Inv.cancelReturn (h : Inv strict s) (hr : r < s.made) (hcancelled : (s.regs r).cancelled = true)
    (hpunctual : strict → s.pending r = false) :
    Inv strict (s.setReg r { s.regs r with returned := true }) := by
  unfold State.pending at hpunctual
  cases hi : (s.regs r).watch with
  | none =>
    rw [hi] at hpunctual
    exact h.regGone hr hi ⟨rfl, rfl⟩ ⟨(h.gone r hr hi).once, fun hs _ => hpunctual hs⟩
  | some i =>
    simp only [hi, decide_eq_false_iff_not] at hpunctual
    have hboth : Inv strict { s with
        watches := update s.watches i (s.watches i)
        regs := update s.regs r { s.regs r with returned := true } } := h.both hr hi ⟨rfl, rfl⟩
      (fun hold => ⟨hold.spawned, hold.once, hold.waiting, hold.taken, fun _ => hcancelled,
        fun hs _ => hpunctual hs⟩)
      (fun _ _ _ _ hold => hold)
      (fun k q hmem => ⟨hmem, fun hqr => hqr ▸ ((h.watches i).fns k q hmem).2.2.2⟩) ((h.watches i).nodup) ((h.watches i).left)
      (fun p j hp => ⟨hp, fun hji => hji ▸ (h.byID p j hp).2⟩)
    rwa [update_eq_self] at hboth

/-! ### Registering -/

/-- The watch that a registration opens is new. -/
theorem Inv.openWatch (h : Inv strict s) (p : Nat) : Inv strict (s.openWatch p) where
  regs r hr i hi := by
    obtain ⟨hlt, hok⟩ := h.regs r hr i hi
    refine ⟨Nat.lt_succ_of_lt hlt, ?_⟩
    simp only [State.openWatch, update_of_ne (Nat.ne_of_lt hlt)]
    exact hok
  gone := h.gone
  watches := (forall_update_iff s.watches (Watch.Ok s.made s.regs)).mpr
    ⟨.empty _ _ _ p, fun i _ => h.watches i⟩
  byID q i hq := by
    by_cases hqp : q = p
    · simp only [State.openWatch, hqp, update_self, Option.some.injEq] at hq
      subst hq
      have hnew : (s.openWatch p).watches s.opened = ⟨p, [], false, .waiting⟩ := update_self _ _ _
      rw [hnew, hqp]
      exact ⟨Nat.lt_succ_self _, rfl, rfl, rfl⟩
    · simp only [State.openWatch, update_of_ne hqp] at hq
      obtain ⟨hlt, hold⟩ := h.byID q i hq
      simp only [State.openWatch, update_of_ne (Nat.ne_of_lt hlt)]
      exact ⟨Nat.lt_succ_of_lt hlt, hold⟩
  keys := h.keys
  later := h.later

/-- A new registration `g`, which may be put on the watch `i`. -/
theorem Inv.add (h : Inv strict s) {next : Nat} {fns : List (Nat × Nat)} {g : Reg}
    (hgone : g.watch = none → g.OkGone strict)
    (hg : ∀ j, g.watch = some j → j = i ∧ i < s.opened ∧
      g.Ok strict s.made { s.watches i with fns := fns } ∧
      ∀ q < s.made, (s.regs q).watch = some i → (s.regs q).key ≠ g.key)
    (hok : ∀ q < s.made, (s.regs q).watch = some i → ((s.regs q).key, q) ∈ (s.watches i).fns →
      ((s.regs q).key, q) ∈ fns)
    (hfns : ∀ k q, (k, q) ∈ fns → (k, q) ∈ (s.watches i).fns ∨
      q = s.made ∧ g.watch = some i ∧ g.key = k ∧ g.cancelled = false) (hnodup : (fns.map Prod.snd).Nodup) :
    Inv strict { s with
      next := next
      watches := update s.watches i { s.watches i with fns := fns }
      regs := update s.regs s.made g
      made := s.made + 1 } := by
  -- `s.made` is the new registration, below it all is as it was
  have hold : ∀ {r}, r < s.made → update s.regs s.made g r = s.regs r :=
    fun hr => update_of_ne (Nat.ne_of_lt hr) _ _
  have hnew : update s.regs s.made g s.made = g := update_self _ _ _
  have hkept : ∀ j, (s.watches j).Ok (s.made + 1) (update s.regs s.made g) j := fun j => by
    obtain ⟨hfns, hnodup, hleft⟩ := h.watches j
    refine ⟨fun k r hin => ?_, hnodup, fun r hr => ?_⟩
    · rw [hold (hfns k r hin).1]
      exact ⟨Nat.lt_succ_of_lt (hfns k r hin).1, (hfns k r hin).2⟩
    · rw [hold (hleft r hr).1]
      exact ⟨Nat.lt_succ_of_lt (hleft r hr).1, (hleft r hr).2⟩
  refine {
    regs := fun r hr j hj => ?regs
    gone := fun r hr hnone => ?gone
    watches := (forall_update_iff s.watches (Watch.Ok _ _)).mpr
      ⟨⟨fun k r hmem => ?fns, hnodup, (hkept i).left⟩, fun j _ => hkept j⟩
    byID := fun p => (forall_update_iff s.watches fun j x => s.byID p = some j → j < s.opened ∧
        x.id = p ∧ x.stopped = false ∧ x.phase.taken = false).mpr ⟨h.byID p i, fun j _ => h.byID p j⟩
    keys := fun q hq r hr j hqj hrj hkey => ?keys
    later := fun r hr => ?later }
  case regs =>
    rcases Nat.lt_succ_iff_lt_or_eq.mp hr with hlt | rfl
    · simp only [hold hlt] at hj ⊢
      obtain ⟨hopen, hr'⟩ := h.regs r hlt j hj
      refine ⟨hopen, ?_⟩
      by_cases hji : j = i
      · subst hji
        rw [update_self]
        exact ⟨hr'.spawned, hr'.once, fun hw => ⟨(hr'.waiting hw).1, fun hc =>
          ⟨((hr'.waiting hw).2 hc).1, hok r hlt hj ((hr'.waiting hw).2 hc).2⟩⟩, hr'.taken, hr'.returned,
          hr'.final⟩
      · rwa [update_of_ne hji]
    · simp only [hnew] at hj ⊢
      obtain ⟨rfl, hopen, hgok, -⟩ := hg j hj
      rw [update_self]
      exact ⟨hopen, hgok⟩
  case gone =>
    rcases Nat.lt_succ_iff_lt_or_eq.mp hr with hlt | rfl
    · simp only [hold hlt] at hnone ⊢
      exact h.gone r hlt hnone
    · simp only [hnew] at hnone ⊢
      exact hgone hnone
  case fns =>
    rcases hfns k r hmem with hin | ⟨rfl, hnewest⟩
    · exact (hkept i).fns k r hin
    · simp only [hnew]
      exact ⟨Nat.lt_succ_self _, hnewest⟩
  case keys =>
    rcases Nat.lt_succ_iff_lt_or_eq.mp hq with hqlt | rfl <;>
      rcases Nat.lt_succ_iff_lt_or_eq.mp hr with hrlt | rfl
    · simp only [hold hqlt, hold hrlt] at hqj hrj hkey
      exact h.keys q hqlt r hrlt j hqj hrj hkey
    · simp only [hold hqlt, hnew] at hqj hrj hkey
      obtain ⟨rfl, -, -, hfresh⟩ := hg j hrj
      exact absurd hkey (hfresh q hqlt hqj)
    · simp only [hold hrlt, hnew] at hqj hrj hkey
      obtain ⟨rfl, -, -, hfresh⟩ := hg j hqj
      exact absurd hkey.symm (hfresh r hrlt hrj)
    · rfl
  case later =>
    have hr' : s.made + 1 ≤ r := hr
    show (update s.regs s.made g r).spawned = false
    rw [update_of_ne (by omega)]
    exact h.later r (by omega)

/-- The callback that is put on a watch of the table. -/
theorem Inv.register (h : Inv strict s) {p : Nat} (hp : s.byID p = some i)
    (hfresh : ∀ r < s.made, (s.regs r).watch = some i → (s.regs r).key ≠ s.nextKey) :
    Inv strict (s.register i) := by
  obtain ⟨hlt, hid, hstopped, htaken⟩ := h.byID p i hp
  refine h.add nofun (fun j hj => ?_) (fun q hq hqi hin => ?_) (fun k q hin => ?_) ?_
  · refine ⟨(Option.some.inj hj).symm, hlt, ⟨rfl, ?_, fun _ => ⟨rfl, fun _ => ⟨hstopped, List.mem_cons_self⟩⟩,
      fun hc => ?_, nofun, nofun⟩, hfresh⟩
    · show (s.watches i).phase.left.count s.made + 0 ≤ 1
      rw [Phase.left_eq_nil htaken]
      exact Nat.zero_le 1
    · rw [htaken] at hc
      cases hc
  · exact List.mem_cons_of_mem _ (List.mem_filter.mpr ⟨hin, by simpa using hfresh q hq hqi⟩)
  · rcases List.mem_cons.mp hin with hhead | htail
    · cases hhead
      exact .inr ⟨rfl, rfl, rfl, rfl⟩
    · exact .inl (List.mem_filter.mp htail).1
  · refine List.nodup_cons.mpr ⟨fun hmem => ?_, (h.watches i).nodup.sublist (List.filter_sublist.map _)⟩
    obtain ⟨⟨k, r⟩, hin, hr⟩ := List.mem_map.mp hmem
    exact absurd hr (Nat.ne_of_lt ((h.watches i).fns k r (List.mem_filter.mp hin).1).1)

/-- The callback of a process that is gone. -/
theorem Inv.spawn (h : Inv strict s) : Inv strict s.spawn := by
  have hadd : Inv strict { s.spawn with watches := update s.watches 0 (s.watches 0) } :=
    h.add (fun _ => ⟨rfl, nofun⟩) nofun (fun _ _ _ hin => hin)
      (fun _ _ hin => .inl hin) (h.watches 0).nodup
  rwa [update_eq_self] at hadd

theorem Inv.onExit (h : Inv strict s) {p : Nat} {fails : Bool} (hfresh : freshKey s (.onExit p fails) = true) :
    Inv strict (s.onExit p fails) := by
  unfold State.onExit
  split
  case h_1 i hi =>
    refine h.register hi (fun r hr hwatch => ?_)
    simp only [freshKey, hi, decide_eq_true_eq] at hfresh
    exact (hfresh.resolve_left (by simp)) r hr hwatch
  case h_2 =>
    split
    case isTrue => exact h
    case isFalse =>
      split
      case isTrue =>
        refine (h.openWatch p).register (p := p) (update_self _ _ _) (fun r hr hwatch => ?_)
        have hlt := (h.regs r hr _ hwatch).1
        omega
      case isFalse => exact h.spawn

/-! ### Every run -/

/-- **A step** keeps the invariant. -/
theorem Inv.step (h : Inv strict s) {a : Act} (hfresh : freshKey s a = true)
    (hpunctual : strict → punctual s a = true) (hstep : s.step a = some t) : Inv strict t := by
  cases a with
  | release p =>
    obtain ⟨-, ht⟩ := Option.ite_none_right_eq_some.mp hstep
    cases ht
    exact ⟨h.regs, h.gone, h.watches, h.byID, h.keys, h.later⟩
  | exit p =>
    cases hstep
    exact ⟨h.regs, h.gone, h.watches, h.byID, h.keys, h.later⟩
  | onExit p fails =>
    cases hstep
    exact h.onExit hfresh
  | cancel r =>
    obtain ⟨hr, ht⟩ := Option.ite_none_right_eq_some.mp hstep
    cases ht
    exact h.cancel hr
  | cancelReturn r =>
    obtain ⟨hr, ht⟩ := Option.ite_none_right_eq_some.mp hstep
    cases ht
    exact h.cancelReturn hr.1 hr.2 (fun hs => by simpa [punctual] using hpunctual hs)
  | wait i err =>
    obtain ⟨hi, ht⟩ := Option.ite_none_right_eq_some.mp hstep
    cases ht
    exact h.wait err hi.2.1
  | run r =>
    obtain ⟨hspawned, ht⟩ := Option.ite_none_right_eq_some.mp hstep
    cases ht
    exact h.run hspawned
  -- the other steps of `run` go by its phase
  | copy i =>
    cases hphase : (s.watches i).phase <;> simp only [State.step, hphase] at hstep <;> cases hstep
    exact h.copy hphase
  | judge i fails =>
    cases hphase : (s.watches i).phase <;> simp only [State.step, hphase] at hstep <;> cases hstep
    exact h.keepLeft _ (hphase ▸ rfl) rfl (hphase ▸ rfl)
  | finish i =>
    simp only [State.step] at hstep
    split at hstep <;> cases hstep
    next hphase => exact h.keepLeft s.exited (hphase ▸ rfl) rfl (hphase ▸ rfl)
  | call i r =>
    cases hphase : (s.watches i).phase <;> simp only [State.step, hphase] at hstep <;> try cases hstep
    obtain ⟨hr, ht⟩ := Option.ite_none_right_eq_some.mp hstep
    cases ht
    exact h.call hphase hr

theorem Inv.once (h : Inv strict s) (hr : r < s.made) : (s.regs r).calls.length ≤ 1 := by
  cases hi : (s.regs r).watch with
  | none =>
    have := (h.gone r hr hi).once
    omega
  | some i =>
    have := (h.regs r hr i hi).2.once
    omega

theorem Inv.called (h : Inv strict s) (hr : r < s.made) (hi : (s.regs r).watch = some i)
    (hphase : (s.watches i).phase = .finished) (hcancelled : (s.regs r).cancelled = false) :
    (s.regs r).calls.length = 1 := by
  have := (h.regs r hr i hi).2.taken (hphase ▸ rfl) hcancelled
  rw [hphase] at this
  simpa [Phase.left] using this

/-- A callback that starts has no returned cancel. -/
theorem Inv.start_final (h : Inv True s)
    (hstart : (∃ i t, s.step (.call i r) = some t) ∨ ∃ t, s.step (.run r) = some t) :
    (s.regs r).returned = false := by
  rw [← Bool.not_eq_true]
  intro hreturned
  rcases hstart with ⟨i, t, ht⟩ | ⟨t, ht⟩
  · simp only [State.step] at ht
    split at ht
    case h_1 left err hphase =>
      obtain ⟨hr, -⟩ := Option.ite_none_right_eq_some.mp ht
      have hleft : r ∈ (s.watches i).phase.left := by rwa [hphase]
      obtain ⟨hlt, hi⟩ := (h.watches i).left r hleft
      exact (h.regs r hlt i hi).2.final trivial hreturned hleft
    case h_2 => cases ht
  · simp only [State.step] at ht
    obtain ⟨hspawned, -⟩ := Option.ite_none_right_eq_some.mp ht
    obtain ⟨hr, hnone⟩ := h.gone_of_spawned hspawned
    rw [(h.gone r hr hnone).final trivial hreturned] at hspawned
    cases hspawned

/-- **Exit watches.**  In every run with fresh keys in which no cancel function returns for a callback that
    is already copied or handed to a goroutine: a callback starts at most once, one that was not cancelled
    has been called when the `run` of its watch has finished, and none starts after its cancel function
    has returned. -/
theorem exit_watches (h : machine.Reach (fun s a => (freshKey s a && punctual s a) = true) s) :
    (∀ r < s.made, (s.regs r).calls.length ≤ 1) ∧
      (∀ r < s.made, ∀ i, (s.regs r).watch = some i → (s.watches i).phase = .finished →
        (s.regs r).cancelled = false → (s.regs r).calls.length = 1) ∧
      ∀ r, ((∃ i t, s.step (.call i r) = some t) ∨ ∃ t, s.step (.run r) = some t) →
        (s.regs r).returned = false := by
  have hinv : Inv True s := by
    refine h.invariant (Inv.init True) (fun _ _ _ hs hok ht => ?_)
    rw [Bool.and_eq_true] at hok
    exact hs.step hok.1 (fun _ => hok.2) ht
  exact ⟨fun r hr => hinv.once hr, fun r hr i hi => hinv.called hr hi, fun r => hinv.start_final⟩

/-- Two callbacks on one process, one of them cancelled in time. -/
theorem exit_watches_two :
    ∃ s : State, ((s.made, (s.watches 0).phase, (s.regs 0).returned) = (2, Phase.calling [1] false, true)) ∧
      (∀ r < s.made, (s.regs r).calls.length ≤ 1) ∧
      (∀ r < s.made, ∀ i, (s.regs r).watch = some i → (s.watches i).phase = .finished →
        (s.regs r).cancelled = false → (s.regs r).calls.length = 1) ∧
      ∀ r, ((∃ i t, s.step (.call i r) = some t) ∨ ∃ t, s.step (.run r) = some t) →
        (s.regs r).returned = false := by
  have hrun : (machine.runOk (fun s a => freshKey s a && punctual s a) machine.init
      [.onExit 0 false, .onExit 0 false, .cancel 0, .cancelReturn 0, .exit 0, .wait 0 false, .copy 0,
        .judge 0 false]).map (fun s => (s.made, (s.watches 0).phase, (s.regs 0).returned)) =
      some (2, Phase.calling [1] false, true) := by decide
  obtain ⟨s, hs, hv⟩ := Machine.Reach.exists_of_runOk (fun _ _ h => h) hrun
  exact ⟨s, hv, exit_watches hs⟩

/-- A cancel function that returns between the section of `run` and the call, and one for a process that
    was already gone: the callback starts afterwards. -/
theorem late_start :
    ((machine.run machine.init [.onExit 0 false, .exit 0, .wait 0 false, .copy 0, .judge 0 false, .cancel 0,
        .cancelReturn 0]).map (fun s => ((s.regs 0).returned, (s.regs 0).calls)) = some (true, []) ∧
      (machine.run machine.init [.onExit 0 false, .exit 0, .wait 0 false, .copy 0, .judge 0 false, .cancel 0,
        .cancelReturn 0, .call 0 0]).map (fun s => ((s.regs 0).returned, (s.regs 0).calls)) =
          some (true, [false])) ∧
      (machine.run machine.init [.exit 0, .onExit 0 false, .cancel 0, .cancelReturn 0]).map
        (fun s => ((s.regs 0).returned, (s.regs 0).calls)) = some (true, []) ∧
      (machine.run machine.init [.exit 0, .onExit 0 false, .cancel 0, .cancelReturn 0, .run 0]).map
        (fun s => ((s.regs 0).returned, (s.regs 0).calls)) = some (true, [false]) := by
  decide

end GoIpc.Process
