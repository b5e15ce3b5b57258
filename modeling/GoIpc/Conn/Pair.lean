import GoIpc.Conn.Deadlines
import GoIpc.Channel.Pipe

namespace GoIpc.Conn

open GoIpc.Lib
open GoIpc.Ring (Capacity maxMessageSize)
open GoIpc.Channel (Pipe)

/-!
# Two connections over one channel

Side `i` and side `!i` each run a connection; what side `i` sends goes through a ring into the
messages side `!i` has still to receive.  A send waits until its message fits, `TrySend` fails when
it does not, and a receive reports `ErrPeerGone` only when the other side has closed its channel and
nothing is left in the ring.  No process dies.

`taken`, `reads`, `calls` and `writes` are history: the messages a side took out of its ring, what
its reads returned, the slices its writes were called with, and what those calls returned.
`readLen` is the length of the buffer a `Read` was called with.
-/

/-- Both sides, the two rings and the history. -/
structure Pair where
  side : Bool → State
  pipe : Bool → Pipe
  taken : Bool → List Msg
  reads : Bool → List (Nat × ReadDone)
  calls : Bool → List (List UInt8)
  writes : Bool → List WriteDone

/-- The slice a call of `Write` is given. -/
def Act.slice : Act → Option (List UInt8)
  | .write p => some p
  | _ => none

namespace State

/-- The message a step of this side puts into the ring. -/
def sends (limit : Nat) (s : State) : Act → Option Msg
  | .sendOk =>
      match s.writer with
      | .send j _ _ => some (j.msg limit)
      | _ => none
  | .closeStep true => if s.closer = .trySend then some (Job.msg limit .eof) else none
  | _ => none

/-- The message a step of this side takes out of the ring. -/
def takes (s : State) : Act → Option Msg
  | .recvOk => s.inbound.head?
  | _ => none

/-- The ring brings a message from the other side. -/
def deliver (s : State) : Option Msg → State
  | some m => { s with inbound := s.inbound ++ [m], peerSent := s.peerSent ++ m.bytes }
  | none => s

/-- The length of the buffer of the running `Read`. -/
def readLen (s : State) : Nat :=
  match s.reader with
  | .idle _ => 0
  | .loop len _ | .begin len _ | .recv len _ _ | .translate len _ _ _ _ | .done len _ _ _ _ => len

/-- What a step from `s` to `s'` makes `Read` return. -/
def returnsRead (s : State) (a : Act) (s' : State) : List (Nat × ReadDone) :=
  match a with
  | .readStep =>
      match s'.reader with
      | .idle (some r) => [(s.readLen, r)]
      | _ => []
  | _ => []

/-- What a step to `s'` makes `Write` or `CloseWrite` return. -/
def returnsWrite (a : Act) (s' : State) : List WriteDone :=
  match a with
  | .write _ | .closeWrite | .writeStep =>
      match s'.writer with
      | .idle (some r) => [r]
      | _ => []
  | _ => []

end State

namespace Pair

variable (C : Capacity)

def start : Pair :=
  ⟨fun _ => .start, fun _ => .start, fun _ => [], fun _ => [], fun _ => [],
    fun _ => []⟩

/-- `checkPeer` of side `i`: the other side has closed its channel. -/
def peerGone (p : Pair) (i : Bool) : Bool := (p.side (!i)).closer = .done

/-- Side `i` has closed its own channel. -/
def closed (p : Pair) (i : Bool) : Bool := (p.side i).closer = .done

/-- A message of side `i` finds room. -/
def fits (p : Pair) (i : Bool) (m : Msg) : Bool := (p.pipe i).fits C m.payload.length

/-- What the channel allows. -/
def allows (p : Pair) (i : Bool) (a : Act) : Bool :=
  match a with
  | .sendOk => (((p.side i).sends (maxMessageSize C) a).map (p.fits C i)).getD true
  | .sendErr .canceled | .recvErr .canceled => true
  | .sendErr .closed | .recvErr .closed => p.closed i
  | .sendErr .peerGone => p.peerGone i
  | .recvErr .peerGone => p.peerGone i && (p.side i).inbound.isEmpty
  | .sendErr _ | .recvErr _ => false
  | .closeStep sent =>
      (p.side i).closer ≠ .trySend ∨
        sent = (p.fits C i (Job.msg (maxMessageSize C) .eof) && !p.peerGone i)
  | .peer _ => false
  | _ => true

/-- The pair after side `i` made step `a` to `s'`. -/
def after (p : Pair) (i : Bool) (a : Act) (s' : State) : Pair :=
  let sent := (p.side i).sends (maxMessageSize C) a
  let got := (p.side i).takes a
  { side := fun k => if k = i then s' else (p.side k).deliver sent
    pipe := fun k =>
      if k = i then (sent.map fun m => (p.pipe k).push C m.payload.length).getD (p.pipe k)
      else (got.map fun m => (p.pipe k).pop C m.payload.length).getD (p.pipe k)
    taken := fun k => if k = i then p.taken k ++ got.toList else p.taken k
    reads := fun k => if k = i then p.reads k ++ (p.side k).returnsRead a s' else p.reads k
    calls := fun k => if k = i then p.calls k ++ a.slice.toList else p.calls k
    writes := fun k => if k = i then p.writes k ++ State.returnsWrite a s' else p.writes k }

/-- One step of side `i`. -/
def step (p : Pair) (x : Bool × Act) : Option Pair :=
  if p.allows C x.1 x.2 then
    ((p.side x.1).step (maxMessageSize C) x.2).map (p.after C x.1 x.2)
  else none

end Pair

/-- Two connections over a channel of capacity `C`. -/
def pair (C : Capacity) : Machine Pair (Bool × Act) := ⟨Pair.start, Pair.step C⟩

/-- A step that sets no deadline. -/
def Act.untimed : Act → Bool
  | .setRead _ | .setWrite _ | .fireRead _ | .fireWrite _ => false
  | _ => true

/-- A step of `Read` or `Write`. -/
def Act.streaming : Act → Bool
  | .read _ | .readStep | .recvOk | .write _ | .writeStep | .sendOk => true
  | _ => false

end GoIpc.Conn
