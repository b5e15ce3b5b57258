import GoIpc.Channel.Lane
import GoIpc.Lib.Bytes
import GoIpc.Lib.Machine

namespace GoIpc.Service

open GoIpc.Lib
open GoIpc.Ring (Capacity Word maxMessageSize recordHeaderSize)
open GoIpc.Channel (Lane Pipe Fault SendPc RecvPc Move)

/-!
# A client and its session

A client calls, one call at a time; the session of the service answers, one request at a time.
Requests and replies carry the call's sequence number in front of the payload and travel through the
two directions of the client's channel.  A context may end at any wait of a call, so requests and
replies of abandoned calls stay behind in both directions.

* `answer`, `frame` — what the session makes of a request and the handler's result;
* `Client` — `Client.Call`: send the request, receive until the reply of this call arrives;
* `Session` — `Service.serve`: receive, answer, reply; a client that went is closed, unlinked and
  reported to the handler;
* `machine` — both, in any interleaving, with a client that leaves at any moment.

The handler is arbitrary: its result is chosen with the step that runs it.  `call` in a packet is
history, as are `requests`, `handled`, `results` and `log`.
-/

/-! ### The wire -/

def serviceReservedMin : Word := 0xFFFFFFF0
def typeServiceError : Word := 0xFFFFFFF2

/-- Size of the sequence number that starts every request and reply. -/
def serviceSeqSize : Nat := 8

/-- A message of the channel.  `call` is the number of the call it belongs to. -/
structure Packet where
  typ : Word
  bytes : List UInt8
  call : Nat
deriving DecidableEq

/-- The payload size of a packet. -/
def Packet.size (m : Packet) : Nat := m.bytes.length

/-- `frame` prefixes payload with its sequence number. -/
def frame (seq : Nat) (payload : List UInt8) : List UInt8 := leBytes serviceSeqSize seq ++ payload

/-- `binary.LittleEndian.Uint64` of the first eight bytes. -/
def seqOf (msg : List UInt8) : Nat := leNat (msg.take serviceSeqSize)

/-- What a handler returns: the text of an error, or a reply. -/
abbrev Handled := Except (List UInt8) (Word × List UInt8)

/-- The bytes of a text. -/
def text (s : String) : List UInt8 := s.toUTF8.data.toList

/-- A message that `answer` passes to the handler. -/
def asksHandler (typ : Word) (msg : List UInt8) : Bool :=
  serviceSeqSize ≤ msg.length ∧ typ < serviceReservedMin

/-- `answer`: the type and the bytes of the reply to a message, given what the handler makes of it. -/
def answer (typ : Word) (msg : List UInt8) (out : Handled) : Word × List UInt8 :=
  if msg.length < serviceSeqSize then
    (typeServiceError, frame 0 (text "ipc: request is shorter than its sequence number"))
  else
    let seq := seqOf msg
    if typ ≥ serviceReservedMin then
      (typeServiceError, frame seq (text ("ipc: request type " ++ toString typ.toNat ++ " is reserved")))
    else
      match out with
      | .error err => (typeServiceError, frame seq err)
      | .ok (replyTyp, reply) =>
          if replyTyp ≥ serviceReservedMin then
            (typeServiceError,
              frame seq (text ("ipc: reply type " ++ toString replyTyp.toNat ++ " is reserved")))
          else (replyTyp, frame seq reply)

/-! ### The client -/

/-- What a call returned. -/
inductive CallResult
  | reply (typ : Word) (payload : List UInt8)
  | callError (message : List UInt8)
  | corrupt
  | reservedType
  | fail (e : Fault)
deriving DecidableEq

/-- Where the call that holds the mutex stands. -/
inductive Client
  | idle
  | send (m : Packet) (pc : SendPc)
  | recv (call seq : Nat) (pc : RecvPc Packet)
  | got (call seq : Nat) (m : Packet)

/-- What a call makes of a message it received; `none` is a reply to an earlier call. -/
def judge (seq : Nat) (typ : Word) (msg : List UInt8) : Option CallResult :=
  if msg.length < serviceSeqSize then some .corrupt
  else if seqOf msg < seq then none
  else if seqOf msg > seq then some .corrupt
  else if typ = typeServiceError then some (.callError (msg.drop serviceSeqSize))
  else if typ ≥ serviceReservedMin then some .corrupt
  else some (.reply typ (msg.drop serviceSeqSize))

/-! ### The session -/

/-- Why the serve loop ended. -/
inductive Cause
  | clientWent
  | other
deriving DecidableEq

/-- What the end of a session did. -/
inductive Event
  | closed
  | unlinked
  | gone
deriving DecidableEq

/-- Where the serve loop of the session stands. -/
inductive Session
  | recv (pc : RecvPc Packet)
  | handling (m : Packet)
  | reply (m : Packet) (pc : SendPc)
  | close
  | unlink
  | gone
  | forget (c : Cause)
  | ended (c : Cause)

/-- The error that made a loop end. -/
def Cause.of : Fault → Cause
  | .peerGone => .clientWent
  | _ => .other

/-! ### The system -/

structure Sys where
  client : Client
  session : Session
  seq : Nat
  request : Lane Packet
  reply : Lane Packet
  /-- the client has closed its connection or exited -/
  left : Bool
  /-- the service has closed its end of the channel -/
  shut : Bool
  requests : List (Word × List UInt8)
  handled : List (Nat × Word × List UInt8 × Handled)
  results : List (Nat × CallResult)
  log : List Event

inductive Act
  | call (typ : Word) (payload : List UInt8)
  | client (mv : Move)
  | leave
  | session (mv : Move)
  | handle (out : Handled)

namespace Sys

variable (C : Capacity) (s : Sys)

def lane : Lane Packet := ⟨.start, [], 0, 0, 0, 0⟩

/-- Size of the record of the hello, whose payload is the session's ordinal. -/
def helloSize : Nat := recordHeaderSize + serviceSeqSize

/-- After `Connect`: the hello has gone through the reply lane, no call has been made. -/
def start : Sys :=
  ⟨.idle, .recv (.read .first), 0, lane, { lane with pipe := ⟨helloSize, helloSize⟩ }, false, false,
    [], [], [], []⟩

/-- The running call returns. -/
def finish (r : CallResult) : Sys :=
  { s with client := .idle, results := s.results ++ [(s.requests.length, r)] }

/-- `Call`.  Arguments the service does not accept are refused before the mutex and a sequence
    number are taken. -/
def call (typ : Word) (payload : List UInt8) : Option Sys :=
  if typ ≥ serviceReservedMin then some { s with results := s.results ++ [(0, .reservedType)] }
  else if payload.length > maxMessageSize C - serviceSeqSize then
    some { s with results := s.results ++ [(0, .fail .messageTooLarge)] }
  else
    match s.client with
    | .idle =>
        let seq := (s.seq + 1) % 2 ^ 64
        some { s with
          seq := seq
          requests := s.requests ++ [(typ, payload)]
          client := .send ⟨typ, frame seq payload, s.requests.length + 1⟩ (.check .first) }
    | _ => none

/-- The next step of the running call. -/
def clientStep (mv : Move) : Option Sys :=
  match s.client with
  | .idle => none
  | .send m pc =>
      (pc.step C Packet.size s.shut (s.log.contains .unlinked) m s.request mv).map fun r =>
        let s := { s with request := r.1 }
        match r.2 with
        | .inl pc => { s with client := .send m pc }
        | .inr none => { s with client := .recv m.call s.seq (.read .first) }
        | .inr (some e) => s.finish (.fail e)
  | .recv call seq pc =>
      (pc.step C Packet.size s.shut s.reply mv).map fun r =>
        let s := { s with reply := r.1 }
        match r.2 with
        | .inl pc => { s with client := .recv call seq pc }
        | .inr (.ok m) => { s with client := .got call seq m }
        | .inr (.error e) => s.finish (.fail e)
  | .got call seq m =>
      if mv = .step then
        some (match judge seq m.typ m.bytes with
          | some r => s.finish r
          | none => { s with client := .recv call seq (.read .first) })
      else none

/-- The client leaves.  A session parked on either direction is woken. -/
def leave : Sys :=
  { s with
    left := true
    reply := { s.reply with notFull := s.reply.notFull + s.reply.sendWaiters }
    request := { s.request with notEmpty := s.request.notEmpty + 1 } }

/-- The next step of the session.  The handler runs in a step of its own. -/
def sessionStep (mv : Move) : Option Sys :=
  match s.session with
  | .recv pc =>
      -- the context of the service does not end
      if mv = .cancel then none
      else (pc.step C Packet.size s.left s.request mv).map fun r =>
        let s := { s with request := r.1 }
        match r.2 with
        | .inl pc => { s with session := .recv pc }
        | .inr (.ok m) => { s with session := .handling m }
        | .inr (.error .peerGone) => { s with session := .close }
        | .inr (.error e) => { s with session := .forget (.of e) }
  | .handling _ => none
  | .reply m pc =>
      if mv = .cancel then none
      else (pc.step C Packet.size s.left s.left m s.reply mv).map fun r =>
        let s := { s with reply := r.1 }
        match r.2 with
        | .inl pc => { s with session := .reply m pc }
        | .inr none => { s with session := .recv (.read .first) }
        | .inr (some e) => { s with session := .forget (.of e) }
  | .close =>
      if mv = .step then some { s with session := .unlink, shut := true, log := s.log ++ [.closed] }
      else none
  | .unlink =>
      if mv = .step then some { s with session := .gone, log := s.log ++ [.unlinked] } else none
  | .gone =>
      if mv = .step then some { s with session := .forget .clientWent, log := s.log ++ [.gone] }
      else none
  | .forget c =>
      if mv = .step then
        some { s with
          session := .ended c
          shut := true
          request := { s.request with notFull := s.request.notFull + s.request.sendWaiters }
          reply := { s.reply with notEmpty := s.reply.notEmpty + 1 } }
      else none
  | .ended _ => none

/-- The handler, where it is asked, returns `out`, and the session goes on to send the reply. -/
def handle (out : Handled) : Option Sys :=
  match s.session with
  | .handling m =>
      let r := answer m.typ m.bytes out
      some { s with
        session := .reply ⟨r.1, r.2, m.call⟩ (.check .first)
        handled :=
          if asksHandler m.typ m.bytes then
            s.handled ++ [(m.call, m.typ, m.bytes.drop serviceSeqSize, out)]
          else s.handled }
  | _ => none

/-- One step. -/
def step : Act → Option Sys
  | .call typ payload => s.call C typ payload
  | .client mv => s.clientStep C mv
  | .leave => if s.left then none else some s.leave
  | .session mv => s.sessionStep C mv
  | .handle out => s.handle out

end Sys

/-- A client and its session over a channel of capacity `C`. -/
def machine (C : Capacity) : Machine Sys Act := ⟨Sys.start, Sys.step C⟩

end GoIpc.Service
