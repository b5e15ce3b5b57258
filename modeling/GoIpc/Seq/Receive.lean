import GoIpc.Queue.Machine
import GoIpc.Seq.Go

namespace GoIpc.Seq

open GoIpc.Lib
open GoIpc.Ring (Slot claimSlots noIntent typePadding)
open GoIpc.Queue (watchable noProc Stall Judged)

/-!
# Receiving past a dead claim, call by call

`receive` of `queue.go` with `stalled`, `reclaim` and `unstall`, run by the receiver while nothing
else runs.  A read that delivers nothing looks at the claim in its way; the claim of a dead
producer becomes padding, and the read runs again.
-/

/-- What the receiver can find out about processes: its own procID, and which have exited. -/
structure Peers where
  me : Nat
  exited : Nat → Bool
  alive : exited me = false

/-- `isDead`: a process without a life socket cannot be checked, and counts as alive. -/
def Peers.isDead (P : Peers) (id : Nat) : Bool := watchable id && P.exited id

/-- The receiving handle: the ring, the tokens of the not-full event and the watches on
    producers. -/
structure Handle where
  ring : Buf
  notFull : Nat
  watches : List Nat

/-- The slot records an intent whose range covers the cursor `c`. -/
def Covers (s : Slot) (c : Nat) : Prop :=
  s.cursor ≠ noIntent ∧ s.cursor ≤ c ∧ c < add64 s.cursor s.size

instance (s : Slot) (c : Nat) : Decidable (Covers s c) :=
  inferInstanceAs (Decidable (_ ∧ _ ∧ _))

/-- The slots whose intent covers `c`, in the order of the table. -/
def Buf.covering (b : Buf) (c : Nat) : List Nat :=
  (List.range claimSlots).filter (fun i => Covers (b.slots i) c)

variable (cap : Nat) (P : Peers)

/-- `stalled` reports the claim that stops the reader, if there is one. -/
def stalled (b : Buf) : Option Stall :=
  if b.head = b.tail then none
  else
    let length := b.loadLength (b.head % cap)
    if length > 0 then none else some ⟨b.head, length, b.covering b.head⟩

/-- Clear the intents of the slots `dead`. -/
def Buf.clearIntents (b : Buf) (dead : List Nat) : Buf :=
  dead.foldl (fun b i => b.storeAt i noIntent) b

/-- `reclaim` turns a stalled claim into padding, one lap segment at a time. -/
def reclaim (b : Buf) (st : Stall) (stop : Nat) (dead : List Nat) : Buf × Bool :=
  let index := st.cursor % cap
  let size := sub64 stop st.cursor
  let toEnd := cap - index
  let size := if size > toEnd then toEnd else size
  if b.loadLength index ≠ st.length then (b, false)
  else
    let b := (b.storeLength index size).storeType index typePadding
    (if add64 st.cursor size = stop then b.clearIntents dead else b, true)

/-- What the loop of `unstall` over the covering slots comes to. -/
inductive Verdict
  | dead (j : Judged)
  | leave
  | watch (id : Nat)
  | corrupt

/-- The loop of `unstall`. -/
def judge (b : Buf) (cursor : Nat) : List Nat → Judged → Verdict
  | [], j => .dead j
  | i :: rest, j =>
    let s := b.slots i
    let stop := add64 s.cursor s.size
    if s.owner = noProc ∨ s.cursor = noIntent ∨ s.cursor > cursor ∨ cursor ≥ stop then judge b cursor rest j
    -- a claim of this process, or of a process with no life socket, is left alone
    else if s.owner = P.me ∨ ¬ watchable s.owner then .leave
    else if ¬ P.isDead s.owner then .watch s.owner
    else if j.dead ≠ [] ∧ stop ≠ j.stop then .corrupt
    else judge b cursor rest ⟨j.dead ++ [i], stop⟩

/-- `unstall` looks at the claim that stops the receiver, if one does. -/
def unstall (q : Handle) : Handle × Except Fault Bool :=
  match stalled cap q.ring with
  | none => (q, .ok false)
  | some st =>
    match judge P q.ring st.cursor st.slots ⟨[], 0⟩ with
    | .leave => (q, .ok false)
    | .watch id =>
        ({ q with watches := if id ∈ q.watches then q.watches else id :: q.watches }, .ok false)
    | .corrupt => (q, .error .corrupt)
    | .dead j =>
      if j.dead = [] then (q, .ok false)
      else
        let r := reclaim cap q.ring st j.stop j.dead
        ({ q with ring := r.1 }, .ok r.2)

/-- `wakeSenders` releases every parked sender. -/
def Handle.wakeSenders (q : Handle) : Handle :=
  if q.ring.sendWaiters > 0 then { q with notFull := q.notFull + q.ring.sendWaiters.toNat } else q

/-- What a call of `receive` returned. -/
abbrev Received := Option (Handle × List Message × Option Fault)

/-- The rest of a round of `receive` after its read: `again` is the next round. -/
def resume (gone : Bool) (again : Handle → Received) (q : Handle) (out : List Message)
    (err : Option Fault) : Received :=
  if err ≠ none ∨ out ≠ [] then some (q, out, err)
  else
    match unstall cap P q with
    | (q, .error f) => some (q, [], some f)
    | (q, .ok true) => again q
    | (q, .ok false) => some (q, [], some (if gone then .peerGone else .empty))

/-- `receive`.  `gone` is what the check of the peer found before the read; `reads` is the fuel of
    one `Read`. -/
def receive (gone : Bool) (reads : Nat) (limit : Int) : Nat → Handle → Received
  | 0, _ => none
  | fuel + 1, q =>
    (GoRing.read cap reads limit q.ring).bind fun r =>
      let next := { q with ring := r.1 }
      resume cap P gone (receive gone reads limit fuel)
        (if r.1.head ≠ q.ring.head then next.wakeSenders else next) r.2.1 r.2.2

end GoIpc.Seq
