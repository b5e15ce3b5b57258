import GoIpc.Ring.Machine

namespace GoIpc.Queue

open GoIpc.Lib
open GoIpc.Ring (Word Err Producer ProdAct ReadAct claimSlots noIntent)
open Function (update)

/-!
# The queue as a machine

Any number of processes send through `Queue` handles, each with any number of goroutines; one
goroutine receives.  Every access to shared memory, every liveness check and every event
operation is one step.  A party is a program counter with its live local variables; a step of a
party yields the next program counter and the one `Access` it makes to the world.

What a step may depend on without shared memory is left open: whether `checkPeer` and
`receiverUnlinked` find the receiver gone, and when a wait is cancelled.  A process dies at an
arbitrary moment and then takes no further step.

* `Sender` — `TrySend`, `Send`, `Claim`, `Commit`, `Abort`, with `takeSlot`, `acquireSlot`,
  `putSlot`, `wakeReceiver` and the loop of `park`;
* `Closer` — the slots a handle returns in `Close`;
* `Recv` — `Recv`, `ReadBatch`, `TryRecv`: `receive` with `Read`, `wakeSenders`, `stalled`,
  `unstall` and `reclaim`, under `park`.
-/

/-! ### Processes -/

/-- The procID of nobody. -/
def noProc : Nat := 0

/-- A procID with a life socket behind it has its top bit set. -/
def watchable (id : Nat) : Bool := Nat.testBit id 63

/-- The ring, which handle each goroutine uses, which process each handle belongs to, and the
    process that receives. -/
structure Config where
  cap : Ring.Capacity
  home : Nat → Nat
  self : Nat → Nat
  me : Nat
  self_ne : ∀ h, self h ≠ noProc

/-- The process of a goroutine. -/
def Config.proc (K : Config) (t : Nat) : Nat := K.self (K.home t)

/-! ### The world -/

/-- The slots a handle owns, and those of them no claim uses (the last one put back first). -/
structure Pool where
  idle : List Nat
  owned : List Nat
deriving DecidableEq

/-- The waiter counts and the tokens of the two events. -/
structure Wake where
  recvWaiters : Nat
  sendWaiters : Nat
  notEmpty : Nat
  notFull : Nat
deriving DecidableEq

/-- What all parties share, together with the state of the ring operations they run. -/
structure World where
  ring : Ring.Sys
  pools : Nat → Pool
  wake : Wake
  dead : List Nat
  watches : List Nat

namespace World

def start : World := ⟨Ring.Sys.start, fun _ => ⟨[], []⟩, ⟨0, 0, 0, 0⟩, [], []⟩

/-- The mapped ring. -/
def sh (w : World) : Ring.Shared := w.ring.sh

/-- `isDead`: a process that cannot be checked counts as alive. -/
def isDead (w : World) (id : Nat) : Bool := watchable id && decide (id ∈ w.dead)

end World

/-- The one access a step makes. -/
inductive Access
  /-- no access, or a load -/
  | load
  /-- an access of the ring operation goroutine `t` runs -/
  | prod (t : Nat) (a : ProdAct)
  /-- an access of `Read` -/
  | reader (a : ReadAct)
  /-- a compare-and-swap on the owner of slot `i` that succeeds -/
  | setOwner (i owner : Nat)
  /-- `slots[i].at.Store(noIntent)` -/
  | clearAt (i : Nat)
  /-- the compare-and-swap of `reclaim` on the length at `cursor`, when it succeeds -/
  | casLength (cursor size : Nat)
  /-- the type `reclaim` stores at `cursor` -/
  | padType (cursor : Nat)
  /-- a change of the slot lists of handle `h` -/
  | pool (h : Nat) (p : Pool)
  /-- a waiter count or an event -/
  | wake (v : Wake)
  /-- `watchProducer` -/
  | watch (id : Nat)

namespace World

variable (K : Config) (w : World)

/-- Change the mapped ring only. -/
def withSh (sh : Ring.Shared) : World := { w with ring := { w.ring with sh := sh } }

/-- `watchProducer`: a process that is already gone reports at once. -/
def watchProducer (id : Nat) : World :=
  if id ∈ w.watches then w
  else if id ∈ w.dead then { w with wake := { w.wake with notEmpty := w.wake.notEmpty + 1 } }
  else { w with watches := id :: w.watches }

/-- Process `id` takes no further step; a watch on it wakes the receiver. -/
def die (id : Nat) : World :=
  { w with
    dead := id :: w.dead
    watches := w.watches.erase id
    wake := if id ∈ w.watches then { w.wake with notEmpty := w.wake.notEmpty + 1 } else w.wake }

/-- The effect of one access. -/
def apply : Access → Option World
  | .load => some w
  | .prod t a => (w.ring.step K.cap (.prod t a)).map (fun r => { w with ring := r })
  | .reader a => (w.ring.step K.cap (.reader a)).map (fun r => { w with ring := r })
  | .setOwner i owner => some (w.withSh { w.sh with
      slots := update w.sh.slots i { w.sh.slots i with owner := owner } })
  | .clearAt i => some (w.withSh (w.sh.storeAt i noIntent))
  | .casLength cursor size => some (w.withSh (w.sh.reclaim K.cap cursor size))
  | .padType cursor => some (w.withSh (w.sh.storeType (cursor % K.cap.size) Ring.typePadding))
  | .pool h p => some { w with pools := update w.pools h p }
  | .wake v => some { w with wake := v }
  | .watch id => some (w.watchProducer id)

end World

/-! ### Senders -/

/-- The errors of the queue operations. -/
inductive QErr
  | ring (e : Err)
  | tooManyClaims
  | peerGone
  | empty
  | ctx
deriving DecidableEq

/-- Which attempt of an operation runs: the only one of a call that does not wait, or the first,
    the registered or the last one of `park`. -/
inductive Try
  | once
  | first
  | again
  | last
deriving DecidableEq

/-- A message to send, or a claim to open. -/
inductive Call
  | write (typ : Word) (payload : List UInt8)
  | claim (typ : Word) (length : Int)
deriving DecidableEq

/-- The call of the ring a `Call` makes under slot `i`. -/
def Call.act (i : Nat) : Call → ProdAct
  | .write typ payload => .tryWrite (some i) typ payload
  | .claim typ length => .tryClaim (some i) typ length

/-- What an attempt to send returned, other than "full". -/
inductive Result
  | sent
  | opened (slot : Nat)
  | fail (e : QErr)
deriving DecidableEq

/-- What follows the withdrawal of a registered sender. -/
inductive Next
  | done (r : Result)
  | retry
  | last
deriving DecidableEq

/-- Where a sending goroutine stands. -/
inductive Sender
  | idle (last : Option QErr)
  | checkPeer (c : Call) (k : Try)
  | takeSlot (c : Call) (k : Try)
  | casFree (c : Call) (k : Try) (i : Nat)
  | loadHead (c : Call) (k : Try)
  | loadOwner (c : Call) (k : Try) (known : List (Nat × Bool)) (head i : Nat)
  | loadAt (c : Call) (k : Try) (known : List (Nat × Bool)) (head i owner : Nat)
  | loadSize (c : Call) (k : Try) (known : List (Nat × Bool)) (head i owner cursor : Nat)
  | judge (c : Call) (k : Try) (known : List (Nat × Bool)) (head i owner : Nat)
  | casOwner (c : Call) (k : Try) (known : List (Nat × Bool)) (head i owner : Nat)
  | clearAt (c : Call) (k : Try) (i : Nat)
  | addOwned (c : Call) (k : Try) (i : Nat)
  | begin (c : Call) (k : Try) (i : Nat)
  | ring (c : Call) (k : Try) (i : Nat)
  | putSlot (c : Call) (k : Try) (i : Nat) (err : Option Err)
  | unlinked (c : Call) (k : Try)
  | addWaiter (c : Call)
  | wait (c : Call)
  | subWaiter (c : Call) (n : Next)
  | held (i : Nat)
  | finishing (i : Nat)
  | wakeLoad
  | wakeSignal
deriving DecidableEq

/-- What a sending goroutine may do: start a call, make its next access, learn that the receiver
    is gone, use the claim it holds, or leave a wait. -/
inductive SendAct
  | trySend (typ : Word) (payload : List UInt8)
  | send (typ : Word) (payload : List UInt8)
  | claim (typ : Word) (length : Int)
  | step
  | peerGone
  | put (off : Nat) (b : UInt8)
  | commit
  | abort
  | token
  | cancel
  | waitGone

namespace Sender

/-- Where a call goes on once its attempts are over. -/
def after : Result → Sender
  | .sent => .wakeLoad
  | .opened i => .held i
  | .fail e => .idle (some e)

/-- An attempt returned something other than "full". -/
def finish (c : Call) (k : Try) (r : Result) : Sender :=
  match k with
  | .again => .subWaiter c (.done r)
  | _ => after r

/-- An attempt found the ring full. -/
def blocked (c : Call) : Try → Sender
  | .once => .idle (some (.ring .full))
  | .first => .addWaiter c
  | .again => .wait c
  | .last => .idle (some .peerGone)

/-- The next slot in the search for a free one. -/
def nextFree (c : Call) (k : Try) (i : Nat) : Sender :=
  if i + 1 < claimSlots then .casFree c k (i + 1) else .loadHead c k

/-- The next slot in the search for one of a dead owner. -/
def nextOwner (c : Call) (k : Try) (known : List (Nat × Bool)) (head i : Nat) : Sender :=
  if i + 1 < claimSlots then .loadOwner c k known head (i + 1)
  else finish c k (.fail .tooManyClaims)

/-- After the slot is back in the pool. -/
def afterPut (c : Call) (k : Try) : Option Err → Sender
  | none => finish c k .sent
  | some .full => if k = .once then blocked c k else .unlinked c k
  | some e => finish c k (.fail (.ring e))

/-- One step of sending goroutine `t`. -/
def step (K : Config) (t : Nat) (w : World) : Sender → SendAct → Option (Sender × Access)
  | .idle _, .trySend typ payload => some (.checkPeer (.write typ payload) .once, .load)
  | .idle _, .send typ payload => some (.checkPeer (.write typ payload) .first, .load)
  | .idle _, .claim typ length => some (.checkPeer (.claim typ length) .first, .load)
  | .checkPeer c k, .step => some (.takeSlot c k, .load)
  | .checkPeer c k, .peerGone => some (finish c k (.fail .peerGone), .load)
  | .takeSlot c k, .step =>
      let pool := w.pools (K.home t)
      match pool.idle with
      | i :: rest => some (.begin c k i, .pool (K.home t) { pool with idle := rest })
      | [] => some (.casFree c k 0, .load)
  | .casFree c k i, .step =>
      if (w.sh.slots i).owner = noProc then some (.clearAt c k i, .setOwner i (K.proc t))
      else some (nextFree c k i, .load)
  | .loadHead c k, .step => some (.loadOwner c k [] w.sh.head 0, .load)
  | .loadOwner c k known head i, .step =>
      let owner := (w.sh.slots i).owner
      if owner = noProc ∨ owner = K.proc t then some (nextOwner c k known head i, .load)
      else some (.loadAt c k known head i owner, .load)
  | .loadAt c k known head i owner, .step =>
      let cursor := (w.sh.slots i).cursor
      if cursor = noIntent then some (.judge c k known head i owner, .load)
      else some (.loadSize c k known head i owner cursor, .load)
  | .loadSize c k known head i owner cursor, .step =>
      if cursor + (w.sh.slots i).size > head then some (nextOwner c k known head i, .load)
      else some (.judge c k known head i owner, .load)
  | .judge c k known head i owner, .step =>
      -- the answer for a process is asked once and remembered for the rest of the search
      let dead := (known.lookup owner).getD (w.isDead owner)
      let known := (owner, dead) :: known
      if dead then some (.casOwner c k known head i owner, .load)
      else some (nextOwner c k known head i, .load)
  | .casOwner c k known head i owner, .step =>
      if (w.sh.slots i).owner = owner then some (.clearAt c k i, .setOwner i (K.proc t))
      else some (nextOwner c k known head i, .load)
  | .clearAt c k i, .step => some (.addOwned c k i, .clearAt i)
  | .addOwned c k i, .step =>
      let pool := w.pools (K.home t)
      some (.begin c k i, .pool (K.home t) { pool with owned := i :: pool.owned })
  | .begin c k i, .step => some (.ring c k i, .prod t (c.act i))
  | .ring c k i, .step =>
      match w.ring.prods t with
      | .idle err => some (.putSlot c k i err, .load)
      | .held _ => some (finish c k (.opened i), .load)
      | _ => some (.ring c k i, .prod t .step)
  | .putSlot c k i err, .step =>
      let pool := w.pools (K.home t)
      some (afterPut c k err, .pool (K.home t) { pool with idle := i :: pool.idle })
  | .unlinked c k, .step => some (blocked c k, .load)
  | .unlinked c k, .peerGone => some (finish c k (.fail .peerGone), .load)
  | .addWaiter c, .step =>
      some (.checkPeer c .again, .wake { w.wake with sendWaiters := w.wake.sendWaiters + 1 })
  | .wait c, .token =>
      if w.wake.notFull = 0 then none
      else some (.subWaiter c .retry, .wake { w.wake with notFull := w.wake.notFull - 1 })
  | .wait c, .cancel => some (.subWaiter c (.done (.fail .ctx)), .load)
  | .wait c, .waitGone => some (.subWaiter c .last, .load)
  | .subWaiter c n, .step =>
      some (match n with | .done r => after r | .retry => .checkPeer c .first | .last => .checkPeer c .last,
        .wake { w.wake with sendWaiters := w.wake.sendWaiters - 1 })
  | .held i, .put off b => some (.held i, .prod t (.put off b))
  | .held i, .commit => some (.finishing i, .prod t .commit)
  | .held i, .abort => some (.finishing i, .prod t .abort)
  | .finishing i, .step =>
      match w.ring.prods t with
      | .idle _ =>
          let pool := w.pools (K.home t)
          some (.wakeLoad, .pool (K.home t) { pool with idle := i :: pool.idle })
      | _ => some (.finishing i, .prod t .step)
  | .wakeLoad, .step =>
      if w.wake.recvWaiters > 0 then some (.wakeSignal, .load) else some (.idle none, .load)
  | .wakeSignal, .step =>
      some (.idle none, .wake { w.wake with notEmpty := w.wake.notEmpty + 1 })
  | _, _ => none

end Sender

/-! ### Closing a handle -/

/-- Where the `Close` of a handle stands: the slots it still has to return. -/
inductive Closer
  | idle
  | wipe (i : Nat) (rest : List Nat)
  | disown (i : Nat) (rest : List Nat)
deriving DecidableEq

namespace Closer

/-- `dropSlot` for the next slot. -/
def next : List Nat → Closer
  | [] => .idle
  | i :: rest => .wipe i rest

/-- One step of the `Close` of handle `h`. -/
def step (K : Config) (h : Nat) (w : World) : Closer → Option (Closer × Access)
  | .wipe i rest => some (.disown i rest, .clearAt i)
  | .disown i rest =>
      if (w.sh.slots i).owner = K.self h then some (next rest, .setOwner i noProc)
      else some (next rest, .load)
  | .idle => none

end Closer

/-! ### The receiver -/

/-- The claim that stops the reader (`stall` in the source), with the slots found so far. -/
structure Stall where
  cursor : Nat
  length : Int
  slots : List Nat
deriving DecidableEq

/-- The slots `unstall` judged dead, and where their claims stop. -/
structure Judged where
  dead : List Nat
  stop : Nat
deriving DecidableEq

/-- Where the receiver stands.  `l` is the limit of the call and `k` the attempt of `park`. -/
inductive Recv
  | idle (last : Option (Nat × Option QErr))
  | before (l : Int) (k : Try)
  | reading (l : Int) (k : Try) (head : Nat)
  | after (l : Int) (k : Try) (head n : Nat) (err : Option Err)
  | wakeLoad (l : Int) (k : Try) (n : Nat) (err : Option Err)
  | wakeSignal (l : Int) (k : Try) (n : Nat) (err : Option Err) (waiters : Nat)
  | stallHead (l : Int) (k : Try)
  | stallTail (l : Int) (k : Try) (head : Nat)
  | stallLen (l : Int) (k : Try) (head : Nat)
  | slotAt (l : Int) (k : Try) (st : Stall) (i : Nat)
  | slotSize (l : Int) (k : Try) (st : Stall) (i cursor : Nat)
  | loadOwner (l : Int) (k : Try) (st : Stall) (j : Judged) (i : Nat) (rest : List Nat)
  | loadAt (l : Int) (k : Try) (st : Stall) (j : Judged) (i : Nat) (rest : List Nat) (owner : Nat)
  | loadSize (l : Int) (k : Try) (st : Stall) (j : Judged) (i : Nat) (rest : List Nat)
      (owner cursor : Nat)
  | judge (l : Int) (k : Try) (st : Stall) (j : Judged) (i : Nat) (rest : List Nat)
      (owner cursor size : Nat)
  | watch (l : Int) (k : Try) (owner : Nat)
  | casLength (l : Int) (k : Try) (st : Stall) (j : Judged)
  | padType (l : Int) (k : Try) (st : Stall) (j : Judged) (size : Nat)
  | clearAt (l : Int) (k : Try) (st : Stall) (j : Judged) (i : Nat) (rest : List Nat)
  | addWaiter (l : Int)
  | wait (l : Int)
  | subWaiter (l : Int) (n : Option (Nat × Option QErr)) (k : Try)
deriving DecidableEq

/-- What the receiver may do: start a call, make its next access, or leave a wait.  `Recv` is
    `readBatch 1` for what happens in shared memory. -/
inductive RecvAct
  | readBatch (limit : Int)
  | tryRecv
  | step
  | token
  | cancel
  | waitGone

namespace Recv

/-- An attempt returned something other than "empty". -/
def finish (l : Int) (k : Try) (n : Nat) (err : Option QErr) : Recv :=
  match k with
  | .again => .subWaiter l (some (n, err)) .first
  | _ => .idle (some (n, err))

/-- An attempt found nothing to read. -/
def empty (l : Int) : Try → Recv
  | .once => .idle (some (0, some .empty))
  | .first => .addWaiter l
  | .again => .wait l
  | .last => .idle (some (0, some .peerGone))

/-- After `Read` and the announcement of freed space. -/
def afterRead (l : Int) (k : Try) (n : Nat) (err : Option Err) : Recv :=
  if err ≠ none ∨ n > 0 then finish l k n (err.map .ring) else .stallHead l k

/-- The next slot `unstall` looks at; after the last one, what the verdicts allow. -/
def nextJudge (l : Int) (k : Try) (st : Stall) (j : Judged) : List Nat → Recv
  | i :: rest => .loadOwner l k st j i rest
  | [] => if j.dead = [] then empty l k else .casLength l k st j

/-- The next slot `stalled` looks at. -/
def nextSlot (l : Int) (k : Try) (st : Stall) (i : Nat) : Recv :=
  if i + 1 < claimSlots then .slotAt l k st (i + 1) else nextJudge l k st ⟨[], 0⟩ st.slots

/-- The next dead slot `reclaim` clears; after the last one `receive` reads again. -/
def nextClear (l : Int) (k : Try) (st : Stall) (j : Judged) : List Nat → Recv
  | i :: rest => .clearAt l k st j i rest
  | [] => .before l k

/-- One step of the receiver. -/
def step (K : Config) (w : World) : Recv → RecvAct → Option (Recv × Access)
  | .idle _, .readBatch limit => some (.before limit .first, .load)
  | .idle _, .tryRecv => some (.before 1 .once, .load)
  | .before l k, .step => some (.reading l k w.sh.head, .reader (.read l))
  | .reading l k head, .step =>
      match w.ring.reader with
      | .idle (some (n, err)) => some (.after l k head n err, .load)
      | _ => some (.reading l k head, .reader .step)
  | .after l k head n err, .step =>
      if w.sh.head ≠ head then some (.wakeLoad l k n err, .load)
      else some (afterRead l k n err, .load)
  | .wakeLoad l k n err, .step =>
      if w.wake.sendWaiters > 0 then some (.wakeSignal l k n err w.wake.sendWaiters, .load)
      else some (afterRead l k n err, .load)
  | .wakeSignal l k n err waiters, .step =>
      some (afterRead l k n err, .wake { w.wake with notFull := w.wake.notFull + waiters })
  | .stallHead l k, .step => some (.stallTail l k w.sh.head, .load)
  | .stallTail l k head, .step =>
      if head = w.sh.tail then some (empty l k, .load) else some (.stallLen l k head, .load)
  | .stallLen l k head, .step =>
      let length := w.sh.loadLength (head % K.cap.size)
      if length > 0 then some (empty l k, .load)
      else some (.slotAt l k ⟨head, length, []⟩ 0, .load)
  | .slotAt l k st i, .step =>
      let cursor := (w.sh.slots i).cursor
      if cursor ≠ noIntent ∧ cursor ≤ st.cursor then some (.slotSize l k st i cursor, .load)
      else some (nextSlot l k st i, .load)
  | .slotSize l k st i cursor, .step =>
      if st.cursor < cursor + (w.sh.slots i).size then
        some (nextSlot l k { st with slots := st.slots ++ [i] } i, .load)
      else some (nextSlot l k st i, .load)
  | .loadOwner l k st j i rest, .step =>
      some (.loadAt l k st j i rest (w.sh.slots i).owner, .load)
  | .loadAt l k st j i rest owner, .step =>
      some (.loadSize l k st j i rest owner (w.sh.slots i).cursor, .load)
  | .loadSize l k st j i rest owner cursor, .step =>
      let size := (w.sh.slots i).size
      -- the slot may have changed since `stalled` read it
      if owner = noProc ∨ cursor = noIntent ∨ cursor > st.cursor ∨ st.cursor ≥ cursor + size then
        some (nextJudge l k st j rest, .load)
      else if owner = K.me ∨ ¬ watchable owner then some (empty l k, .load)
      else some (.judge l k st j i rest owner cursor size, .load)
  | .judge l k st j i rest owner cursor size, .step =>
      if ¬ w.isDead owner then some (.watch l k owner, .load)
      else if j.dead ≠ [] ∧ cursor + size ≠ j.stop then
        some (finish l k 0 (some (.ring .corrupt)), .load)
      else some (nextJudge l k st ⟨j.dead ++ [i], cursor + size⟩ rest, .load)
  | .watch l k owner, .step => some (empty l k, .watch owner)
  | .casLength l k st j, .step =>
      if w.sh.loadLength (st.cursor % K.cap.size) = st.length then
        let size := Ring.lapSegment K.cap st.cursor j.stop
        some (.padType l k st j size, .casLength st.cursor size)
      else some (empty l k, .load)
  | .padType l k st j size, .step =>
      some (if st.cursor + size = j.stop then nextClear l k st j j.dead else .before l k,
        .padType st.cursor)
  | .clearAt l k st j i rest, .step => some (nextClear l k st j rest, .clearAt i)
  | .addWaiter l, .step =>
      some (.before l .again, .wake { w.wake with recvWaiters := w.wake.recvWaiters + 1 })
  | .wait l, .token =>
      if w.wake.notEmpty = 0 then none
      else some (.subWaiter l none .first, .wake { w.wake with notEmpty := w.wake.notEmpty - 1 })
  | .wait l, .cancel => some (.subWaiter l (some (0, some .ctx)) .first, .load)
  | .wait l, .waitGone => some (.subWaiter l none .last, .load)
  | .subWaiter l n k, .step =>
      some (match n with | some r => .idle (some r) | none => .before l k,
        .wake { w.wake with recvWaiters := w.wake.recvWaiters - 1 })
  | _, _ => none

end Recv

/-! ### The system -/

/-- The world and every party. -/
structure Sys where
  world : World
  senders : Nat → Sender
  closers : Nat → Closer
  recv : Recv

/-- A step of a sending goroutine, the `Close` of a handle and its steps, a step of the
    receiver, or the death of a process. -/
inductive Act
  | send (t : Nat) (a : SendAct)
  | close (h : Nat)
  | drop (h : Nat)
  | recv (a : RecvAct)
  | die (id : Nat)

namespace Sys

def start : Sys := ⟨World.start, fun _ => .idle none, fun _ => .idle, .idle none⟩

/-- One step.  A dead process makes none.  A handle closes only while every slot it owns is idle: no
    call of it is at work with a slot, and no claim of it is open.  `Close` itself does not look; it
    closes the two events of the handle, waits for the calls that are counted and returns every slot.
    A `Close` that overtakes a slot in use, and what a closed event does to a running call, are left
    out. -/
def step (K : Config) (s : Sys) : Act → Option Sys
  | .send t a =>
      if K.proc t ∈ s.world.dead then none
      else ((s.senders t).step K t s.world a).bind (fun r => (s.world.apply K r.2).map (fun w =>
        { s with world := w, senders := update s.senders t r.1 }))
  | .close h =>
      let pool := s.world.pools h
      if K.self h ∉ s.world.dead ∧ s.closers h = .idle ∧ ∀ i ∈ pool.owned, i ∈ pool.idle then
        some { s with
          world := { s.world with pools := update s.world.pools h ⟨[], []⟩ }
          closers := update s.closers h (Closer.next pool.owned) }
      else none
  | .drop h =>
      if K.self h ∈ s.world.dead then none
      else ((s.closers h).step K h s.world).bind (fun r => (s.world.apply K r.2).map (fun w =>
        { s with world := w, closers := update s.closers h r.1 }))
  | .recv a =>
      if K.me ∈ s.world.dead then none
      else (s.recv.step K s.world a).bind (fun r => (s.world.apply K r.2).map (fun w =>
        { s with world := w, recv := r.1 }))
  | .die id => if id ∈ s.world.dead then none else some { s with world := s.world.die id }

end Sys

/-- Every interleaving of senders, receiver, closing handles and deaths, from a new queue. -/
def machine (K : Config) : Machine Sys Act := ⟨Sys.start, Sys.step K⟩

end GoIpc.Queue
