import GoIpc.Channel.Pipe
import GoIpc.Lib.Machine
import Mathlib.Logic.Function.Basic

namespace GoIpc.Channel.Unlink

open GoIpc.Lib
open GoIpc.Ring (Capacity maxMessageSize)
open Function (update update_self update_of_ne)

/-!
# A channel whose names are removed

Two processes hold the two ends of a channel; neither exits and neither closes its end.  `Unlink` removes the
names and nothing else.  A blocking send that finds the ring full looks for the name all the same, and takes
a missing one for a receiver that left: it returns `ErrPeerGone` and latches it in the peer state of its
queue, which the receives of the same end ask before they read.

* `Watch.check` — `checkPeer` and `watchPeer`, with a watch that the kernel may refuse or end;
* `Dir` — one direction: its ring, its waiters and events, and its name;
* `machine` — any number of goroutines at the two ends, with every operation of a channel;
* `peerGone_never` — while every look for a name finds it, nobody reports the peer gone;
  `peerGone_after_unlink` — otherwise a send does, and then a receive.

The mutex of the receives is left out: an attempt is one step after its peer check.
-/

/-! ### The peer -/

inductive Err
  | peerGone
  | cannotWatch
  | tooLarge
  | noSlot
  | full
  | empty
  | ended
  /-- an error of the ring or of the recovery -/
  | failed
deriving DecidableEq

/-- What the process of the other end is to this one. -/
inductive Peer
  | self
  | unwatchable
  | watchable
deriving DecidableEq

/-- `peerWatch`: `id` says that the receiver is watched. -/
structure Watch where
  id : Bool
  gone : Bool
  failed : Bool
deriving DecidableEq

namespace Watch

/-- `state` -/
def state (w : Watch) : Option Err :=
  if w.gone then (if w.failed then some .cannotWatch else some .peerGone) else none

/-- `checkPeer` and `watchPeer` for a process that lives; `refused` is what `onExit` makes of the first check. -/
def check (w : Watch) (peer : Peer) (refused : Bool) : Watch × Option Err :=
  match peer with
  | .self | .unwatchable => (w, none)
  | .watchable =>
      if w.id then (w, w.state)
      else if refused then (⟨false, false, false⟩, some .cannotWatch)
      else (⟨true, false, false⟩, none)

end Watch

/-! ### One direction -/

inductive Claimed
  | claimed
  | committed
  | aborted
deriving DecidableEq

/-- A record of the ring. -/
structure Rec where
  len : Nat
  state : Claimed
deriving DecidableEq

/-- One direction, from its sender to its receiver. -/
structure Dir where
  pipe : Pipe
  recs : List Rec
  sendWaiters : Nat
  recvWaiters : Nat
  notFull : Nat
  notEmpty : Nat
  named : Bool
deriving DecidableEq

/-- `Read`: the messages it passes, and what it leaves. -/
def drain (C : Capacity) (limit : Nat) (p : Pipe) : List Rec → Nat × Pipe × List Rec
  | [] => (0, p, [])
  | r :: rest =>
      if limit = 0 ∨ r.state = .claimed then (0, p, r :: rest)
      else if r.state = .aborted then drain C limit (p.pop C r.len) rest
      else
        let (n, p, rest) := drain C (limit - 1) (p.pop C r.len) rest
        (n + 1, p, rest)

/-! ### The goroutines -/

inductive Op
  | send (len : Nat)
  | trySend (len : Nat)
  | claim (len : Nat)
  | recv
  | tryRecv
  | readBatch (limit : Int)
deriving DecidableEq

namespace Op

/-- The bytes of an operation that sends. -/
def sends : Op → Option Nat
  | .send len | .trySend len | .claim len => some len
  | _ => none

/-- An operation that goes through `park`. -/
def parks : Op → Bool
  | .trySend _ | .tryRecv => false
  | _ => true

/-- The messages a receive takes at most. -/
def limit : Op → Nat
  | .readBatch limit => limit.toNat
  | _ => 1

end Op

/-- Which attempt runs. -/
inductive Try
  | first
  | again
deriving DecidableEq

/-- Where a goroutine stands; `idle` keeps what its last operation returned. -/
inductive Pc
  | idle (result : Option Err)
  /-- before `checkPeer` -/
  | check (op : Op) (t : Try)
  /-- before the claim on the ring -/
  | write (op : Op) (t : Try)
  /-- in `receiverUnlinked`, on a full ring -/
  | stat (op : Op) (t : Try)
  /-- before `Read`, with what the peer check returned -/
  | read (op : Op) (t : Try) (gone : Option Err)
  | register (op : Op)
  | wait (op : Op)
  /-- before `waiters.Add(-1)`; `none` goes round again -/
  | retire (op : Op) (next : Option (Option Err))
  /-- `park` or the attempt has returned -/
  | leaving (op : Op) (result : Option Err)
  /-- in `wakeReceiver` -/
  | waking
deriving DecidableEq

/-- The capacities of the directions, the ends of the goroutines, and what the other process is to each end. -/
structure Config (n : Nat) where
  cap : Bool → Capacity
  side : Fin n → Bool
  peer : Bool → Peer

/-- `dirs b` goes from end `b`, and `watch b` is the peer state of the queue that end `b` sends to. -/
structure State (n : Nat) where
  pcs : Fin n → Pc
  dirs : Bool → Dir
  watch : Bool → Watch

inductive Act (n : Nat)
  | call (g : Fin n) (op : Op)
  | step (g : Fin n)
  /-- the kernel refuses the watch that a check starts -/
  | refuse (g : Fin n)
  /-- no claim slot, or a read that fails -/
  | fail (g : Fin n)
  | token (g : Fin n)
  | ended (g : Fin n)
  /-- `Commit` or `Abort` of a record of the direction from the goroutine's end -/
  | settle (g : Fin n) (i : Nat) (commit : Bool)
  /-- the watch of end `b` fails -/
  | watchFails (b : Bool)
  /-- a name is removed, or taken again by a new queue -/
  | unlink (b : Bool)
  | create (b : Bool)
deriving DecidableEq

variable {n : Nat}

/-- An attempt is over with a result that is not "blocked". -/
def finish (op : Op) (t : Try) (result : Option Err) : Pc :=
  if op.parks ∧ t = .again then .retire op (some result) else .leaving op result

/-- An attempt is blocked: a full ring whose name is there, or nothing to read. -/
def blocked (op : Op) (t : Try) : Pc :=
  match t with
  | .first => .register op
  | .again => .wait op

/-- Where an attempt goes on after `checkPeer`: a receive keeps its error until it has read. -/
def checkedPeer (op : Op) (t : Try) (err : Option Err) : Pc :=
  match op.sends, err with
  | none, err => .read op t err
  | some _, none => .write op t
  | some _, some e => finish op t (some e)

namespace State

def start (n : Nat) : State n :=
  ⟨fun _ => .idle none, fun _ => ⟨.start, [], 0, 0, 0, 0, true⟩, fun _ => ⟨false, false, false⟩⟩

def goto (s : State n) (g : Fin n) (pc : Pc) : State n := { s with pcs := update s.pcs g pc }

def setDir (s : State n) (b : Bool) (d : Dir) : State n := { s with dirs := update s.dirs b d }

def setWatch (s : State n) (b : Bool) (w : Watch) : State n := { s with watch := update s.watch b w }

/-- `checkPeer` at the start of an attempt. -/
def checkPeer (K : Config n) (s : State n) (g : Fin n) (op : Op) (t : Try) (refused : Bool) : State n :=
  let b := K.side g
  let checked := (s.watch b).check (K.peer b) refused
  (s.setWatch b checked.1).goto g (checkedPeer op t checked.2)

/-- `tryWrite` or `tryClaim`. -/
def write (K : Config n) (s : State n) (g : Fin n) (op : Op) (t : Try) (len : Nat) : State n :=
  let b := K.side g
  let d := s.dirs b
  if len > maxMessageSize (K.cap b) then s.goto g (finish op t (some .tooLarge))
  else if d.pipe.fits (K.cap b) len then
    let r : Rec := ⟨len, match op with | .claim _ => .claimed | _ => .committed⟩
    (s.setDir b { d with pipe := d.pipe.push (K.cap b) len, recs := d.recs ++ [r] }).goto g (finish op t none)
  -- only the attempts of `Send` and `Claim` look for the name
  else s.goto g (if op.parks then .stat op t else finish op t (some .full))

/-- `Read`, the wakeup of the senders, and the end of `receive`. -/
def read (K : Config n) (s : State n) (g : Fin n) (op : Op) (t : Try) (gone : Option Err) : State n :=
  let b := !K.side g
  let d := s.dirs b
  let (count, pipe, recs) := drain (K.cap b) op.limit d.pipe d.recs
  let woken := if pipe = d.pipe then d.notFull else d.notFull + d.sendWaiters
  (s.setDir b { d with pipe := pipe, recs := recs, notFull := woken }).goto g <|
    if 0 < count then finish op t none
    else if gone.isSome then finish op t gone
    else if op.parks then blocked op t
    else finish op t (some .empty)

/-- `waiters.Add(k)` on the side of the operation. -/
def addWaiter (K : Config n) (s : State n) (g : Fin n) (op : Op) (add : Nat → Nat) : State n :=
  if op.sends.isSome then
    let d := s.dirs (K.side g)
    s.setDir (K.side g) { d with sendWaiters := add d.sendWaiters }
  else
    let d := s.dirs (!K.side g)
    s.setDir (!K.side g) { d with recvWaiters := add d.recvWaiters }

/-- The end of an operation: `sawPeerGone` of `SendTyped` and `Claim`, the wakeup of a send. -/
def leave (K : Config n) (s : State n) (g : Fin n) (op : Op) (result : Option Err) : State n :=
  let b := K.side g
  match result with
  | none =>
      match op with
      | .send _ | .trySend _ => s.goto g .waking
      | _ => s.goto g (.idle none)
  | some e =>
      let saw := op.sends.isSome ∧ op.parks ∧ e = .peerGone
      (if saw then s.setWatch b { s.watch b with gone := true } else s).goto g (.idle (some e))

/-- `wakeReceiver` -/
def wake (K : Config n) (s : State n) (g : Fin n) : State n :=
  let d := s.dirs (K.side g)
  let tokens := if d.recvWaiters > 0 then d.notEmpty + 1 else d.notEmpty
  (s.setDir (K.side g) { d with notEmpty := tokens }).goto g (.idle none)

/-- `peerExited` with the error of a wait in the kernel. -/
def peerExited (s : State n) (b : Bool) : State n :=
  let tx := s.dirs b
  let rx := s.dirs (!b)
  ((s.setWatch b { s.watch b with gone := true, failed := true }).setDir b
    { tx with notFull := tx.notFull + tx.sendWaiters }).setDir (!b) { rx with notEmpty := rx.notEmpty + 1 }

/-- A token for a parked operation. -/
def token (K : Config n) (s : State n) (g : Fin n) (op : Op) : Option (State n) :=
  if op.sends.isSome then
    let d := s.dirs (K.side g)
    if d.notFull = 0 then none
    else some ((s.setDir (K.side g) { d with notFull := d.notFull - 1 }).goto g (.retire op none))
  else
    let d := s.dirs (!K.side g)
    if d.notEmpty = 0 then none
    else some ((s.setDir (!K.side g) { d with notEmpty := d.notEmpty - 1 }).goto g (.retire op none))

/-- The next step of a goroutine. -/
def stepPc (K : Config n) (s : State n) (g : Fin n) : Pc → Option (State n)
  | .check op t => some (s.checkPeer K g op t false)
  | .write op t => op.sends.map fun len => s.write K g op t len
  | .stat op t =>
      some (s.goto g (if (s.dirs (K.side g)).named then blocked op t else finish op t (some .peerGone)))
  | .read op t gone => some (s.read K g op t gone)
  | .register op => some ((s.addWaiter K g op (· + 1)).goto g (.check op .again))
  | .retire op next => some ((s.addWaiter K g op (· - 1)).goto g (match next with
      | none => .check op .first
      | some result => .leaving op result))
  | .leaving op result => some (s.leave K g op result)
  | .waking => some (s.wake K g)
  | .idle _ | .wait _ => none

/-- One step. -/
def step (K : Config n) (s : State n) : Act n → Option (State n)
  | .call g op =>
      match s.pcs g with
      | .idle _ => some (s.goto g (.check op .first))
      | _ => none
  | .step g => s.stepPc K g (s.pcs g)
  | .refuse g =>
      match s.pcs g with
      | .check op t => some (s.checkPeer K g op t true)
      | _ => none
  | .fail g =>
      match s.pcs g with
      | .write op t => some (s.goto g (finish op t (some .noSlot)))
      | .read op t _ => some (s.goto g (finish op t (some .failed)))
      | _ => none
  | .token g =>
      match s.pcs g with
      | .wait op => s.token K g op
      | _ => none
  | .ended g =>
      match s.pcs g with
      | .wait op => some (s.goto g (.retire op (some (some .ended))))
      | _ => none
  | .settle g i commit =>
      match s.pcs g, (s.dirs (K.side g)).recs[i]? with
      | .idle _, some r =>
          let d := s.dirs (K.side g)
          let settled : Rec := { r with state := if commit then .committed else .aborted }
          if r.state = .claimed then
            some ((s.setDir (K.side g) { d with recs := d.recs.set i settled }).goto g .waking)
          else none
      | _, _ => none
  | .watchFails b =>
      if (s.watch b).id then some (s.peerExited b) else none
  | .unlink b => some (s.setDir b { s.dirs b with named := false })
  | .create b => some (s.setDir b { s.dirs b with named := true })

end State

/-- A channel between two ends that stay. -/
def machine (K : Config n) : Machine (State n) (Act n) := ⟨.start n, State.step K⟩

/-- A send that finds the ring full finds the name of the ring there. -/
def nameFound (K : Config n) (s : State n) : Act n → Bool
  | .step g =>
      match s.pcs g with
      | .stat _ _ => (s.dirs (K.side g)).named
      | _ => true
  | _ => true

/-! ### Who reports the peer gone -/

/-- The error a goroutine carries. -/
def Pc.carries : Pc → Option Err
  | .idle r | .read _ _ r | .retire _ (some r) | .leaving _ r => r
  | _ => none

/-- Nobody carries `ErrPeerGone`, and no peer state reports it. -/
structure Quiet (s : State n) : Prop where
  pcs : ∀ g, (s.pcs g).carries ≠ some .peerGone
  watch : ∀ b, (s.watch b).state ≠ some .peerGone

variable {K : Config n} {s s' : State n} {g : Fin n}

@[simp] theorem finish_carries (op : Op) (t : Try) (result : Option Err) :
    (finish op t result).carries = result := by
  unfold finish
  split_ifs <;> rfl

@[simp] theorem blocked_carries (op : Op) (t : Try) : (blocked op t).carries = none := by
  cases t <;> rfl

theorem finish_quiet (op : Op) (t : Try) {result : Option Err} (h : result ≠ some .peerGone) :
    (finish op t result).carries ≠ some .peerGone := by
  rwa [finish_carries]

theorem Quiet.start (n : Nat) : Quiet (State.start n) :=
  ⟨nofun, nofun⟩

/-- A goroutine goes on without `ErrPeerGone`; the directions do not matter. -/
theorem Quiet.goto {t : State n} {pc : Pc} (hs : Quiet s) (hpcs : t.pcs = s.pcs) (hwatch : t.watch = s.watch)
    (hpc : pc.carries ≠ some .peerGone) : Quiet (t.goto g pc) := by
  refine ⟨fun k => ?_, fun b => ?_⟩
  · show (update t.pcs g pc k).carries ≠ _
    by_cases hk : k = g
    · rwa [hk, update_self]
    · rw [update_of_ne hk, hpcs]
      exact hs.pcs k
  · show (t.watch b).state ≠ _
    rw [hwatch]
    exact hs.watch b

theorem Quiet.setWatch {w : Watch} (hs : Quiet s) (b : Bool) (hw : w.state ≠ some .peerGone) :
    Quiet (s.setWatch b w) := by
  refine ⟨hs.pcs, fun k => ?_⟩
  show (update s.watch b w k).state ≠ _
  by_cases hk : k = b
  · rwa [hk, update_self]
  · rw [update_of_ne hk]
    exact hs.watch k

/-- `checkPeer` finds `ErrPeerGone` only where it stands already. -/
theorem Watch.check_quiet {w : Watch} (h : w.state ≠ some .peerGone) (peer : Peer) (refused : Bool) :
    (w.check peer refused).1.state ≠ some .peerGone ∧ (w.check peer refused).2 ≠ some .peerGone := by
  cases peer with
  | self => exact ⟨h, nofun⟩
  | unwatchable => exact ⟨h, nofun⟩
  | watchable =>
    simp only [Watch.check]
    split_ifs
    · exact ⟨h, h⟩
    · exact ⟨nofun, nofun⟩
    · exact ⟨nofun, nofun⟩

theorem checkedPeer_quiet {err : Option Err} (op : Op) (t : Try) (h : err ≠ some .peerGone) :
    (checkedPeer op t err).carries ≠ some .peerGone := by
  unfold checkedPeer
  split
  · exact h
  · exact nofun
  · exact finish_quiet op t h

theorem Quiet.checkPeer (hs : Quiet s) (op : Op) (t : Try) (refused : Bool) :
    Quiet (s.checkPeer K g op t refused) := by
  obtain ⟨hstate, herr⟩ := Watch.check_quiet (hs.watch (K.side g)) (K.peer (K.side g)) refused
  exact (hs.setWatch (K.side g) hstate).goto rfl rfl (checkedPeer_quiet op t herr)

theorem Quiet.write (hs : Quiet s) (op : Op) (t : Try) (len : Nat) : Quiet (s.write K g op t len) := by
  simp only [State.write]
  split_ifs
  · exact hs.goto rfl rfl (finish_quiet op t nofun)
  · exact hs.goto rfl rfl (finish_quiet op t nofun)
  · exact hs.goto rfl rfl nofun
  · exact hs.goto rfl rfl (finish_quiet op t nofun)

theorem Quiet.read {gone : Option Err} (hs : Quiet s) (op : Op) (t : Try) (hgone : gone ≠ some .peerGone) :
    Quiet (s.read K g op t gone) := by
  refine hs.goto rfl rfl ?_
  split_ifs
  · exact finish_quiet op t nofun
  · exact finish_quiet op t hgone
  · rw [blocked_carries]
    exact nofun
  · exact finish_quiet op t nofun

theorem State.addWaiter_pcs (op : Op) (add : Nat → Nat) : (s.addWaiter K g op add).pcs = s.pcs := by
  unfold State.addWaiter
  split <;> rfl

theorem State.addWaiter_watch (op : Op) (add : Nat → Nat) : (s.addWaiter K g op add).watch = s.watch := by
  unfold State.addWaiter
  split <;> rfl

theorem Quiet.leave {result : Option Err} (hs : Quiet s) (op : Op) (hresult : result ≠ some .peerGone) :
    Quiet (s.leave K g op result) := by
  cases result with
  | none =>
    simp only [State.leave]
    split <;> exact hs.goto rfl rfl nofun
  | some e =>
    have hne : ¬ (op.sends.isSome ∧ op.parks ∧ e = .peerGone) := by
      rintro ⟨-, -, rfl⟩
      exact hresult rfl
    simp only [State.leave, if_neg hne]
    exact hs.goto rfl rfl hresult

/-- A step of a goroutine; a look for the name finds it. -/
theorem Quiet.stepPc {pc : Pc} (hs : Quiet s) (hpc : pc.carries ≠ some .peerGone)
    (hname : ∀ op t, pc = .stat op t → (s.dirs (K.side g)).named = true)
    (h : s.stepPc K g pc = some s') : Quiet s' := by
  cases pc with
  | idle r => cases h
  | wait op => cases h
  | check op t =>
    cases h
    exact hs.checkPeer op t false
  | write op t =>
    obtain ⟨len, -, rfl⟩ := Option.map_eq_some_iff.mp h
    exact hs.write op t len
  | stat op t =>
    cases h
    refine hs.goto rfl rfl ?_
    rw [if_pos (hname op t rfl), blocked_carries]
    exact nofun
  | read op t gone =>
    cases h
    exact hs.read op t hpc
  | register op =>
    cases h
    exact hs.goto (State.addWaiter_pcs ..) (State.addWaiter_watch ..) nofun
  | retire op next =>
    cases h
    refine hs.goto (State.addWaiter_pcs ..) (State.addWaiter_watch ..) ?_
    cases next with
    | none => exact nofun
    | some r => exact hpc
  | leaving op r =>
    cases h
    exact hs.leave op hpc
  | waking =>
    cases h
    exact hs.goto rfl rfl nofun

/-- **A step keeps quiet** when a look for the name finds it. -/
theorem Quiet.step {a : Act n} (hs : Quiet s) (hok : nameFound K s a = true) (h : s.step K a = some s') :
    Quiet s' := by
  cases a with
  | call g op =>
    simp only [State.step] at h
    split at h <;> cases h
    exact hs.goto rfl rfl nofun
  | step g =>
    refine hs.stepPc (hs.pcs g) (fun op t hpc => ?_) h
    simpa only [nameFound, hpc] using hok
  | refuse g =>
    simp only [State.step] at h
    split at h <;> cases h
    exact hs.checkPeer _ _ _
  | fail g =>
    simp only [State.step] at h
    split at h <;> cases h
    · exact hs.goto rfl rfl (finish_quiet _ _ nofun)
    · exact hs.goto rfl rfl (finish_quiet _ _ nofun)
  | token g =>
    simp only [State.step] at h
    split at h
    · simp only [State.token] at h
      split_ifs at h
      · cases h
        exact hs.goto rfl rfl nofun
      · cases h
        exact hs.goto rfl rfl nofun
    · cases h
  | ended g =>
    simp only [State.step] at h
    split at h <;> cases h
    exact hs.goto rfl rfl nofun
  | settle g i commit =>
    simp only [State.step] at h
    split at h
    · split at h <;> cases h
      exact hs.goto rfl rfl nofun
    · cases h
  | watchFails b =>
    simp only [State.step] at h
    split_ifs at h
    cases h
    have hw := hs.setWatch (w := { s.watch b with gone := true, failed := true }) b nofun
    exact ⟨hw.pcs, hw.watch⟩
  | unlink b =>
    cases h
    exact ⟨hs.pcs, hs.watch⟩
  | create b =>
    cases h
    exact ⟨hs.pcs, hs.watch⟩

/-- **`ErrPeerGone` is truthful** while every look for a name finds it: in a channel whose two ends stay, no operation of
    either end returns it. -/
theorem peerGone_never (h : (machine K).Reach (fun s a => nameFound K s a = true) s) (g : Fin n) :
    s.pcs g ≠ .idle (some .peerGone) := by
  have hs : Quiet s := h.invariant (Quiet.start n) fun _ _ _ hs hok hstep => hs.step hok hstep
  intro hidle
  exact hs.pcs g (hidle ▸ rfl)

/-- Two goroutines at one end of a channel with the smallest rings, and another process at the other end. -/
def twoHands : Config 2 := ⟨fun _ => .smallest, fun _ => false, fun _ => .watchable⟩

/-- A goroutine fills the ring with two messages of the maximum size. -/
def fill (g : Fin 2) : List (Act 2) :=
  [.call g (.send 2040), .step g, .step g, .step g, .step g,
    .call g (.send 2040), .step g, .step g, .step g, .step g]

/-- A third send finds the ring full and its name there, and a receive finds nothing. -/
theorem peerGone_never_full :
    ∃ s, (machine twoHands).Reach (fun s a => nameFound twoHands s a = true) s ∧
      (s.pcs 0, s.pcs 1) = (.register (.send 2040), .idle (some .empty)) ∧ s.pcs 1 ≠ .idle (some .peerGone) := by
  have hrun : ((machine twoHands).runOk (nameFound twoHands) (.start 2) (fill 0 ++ [.call 0 (.send 2040), .step 0,
      .step 0, .step 0, .unlink false, .call 1 .tryRecv, .step 1, .step 1, .step 1])).map
      (fun s => (s.pcs 0, s.pcs 1)) = some (.register (.send 2040), .idle (some .empty)) := by decide
  obtain ⟨s, hs, hv⟩ := Machine.Reach.exists_of_runOk (fun _ _ h => h) hrun
  exact ⟨s, hs, hv, peerGone_never hs 1⟩

/-- After an `Unlink` a send on the full ring reports the peer gone, and so does a receive after it, though both ends are
    there and nothing is closed. -/
theorem peerGone_after_unlink :
    ∃ s, (machine twoHands).Reach (fun _ _ => True) s ∧
      (s.pcs 0, s.pcs 1) = (.idle (some .peerGone), .idle (some .peerGone)) := by
  have hrun : ((machine twoHands).run (.start 2) (fill 0 ++ [.unlink false, .call 0 (.send 2040), .step 0, .step 0,
      .step 0, .step 0, .call 1 .tryRecv, .step 1, .step 1, .step 1])).map
      (fun s => (s.pcs 0, s.pcs 1)) = some (.idle (some .peerGone), .idle (some .peerGone)) := by decide
  exact Machine.Reach.exists_of_run hrun

end GoIpc.Channel.Unlink
