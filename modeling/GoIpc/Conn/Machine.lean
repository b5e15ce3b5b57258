import GoIpc.Lib.Machine
import Mathlib.Logic.Function.Basic
import Mathlib.Data.List.Basic

namespace GoIpc.Conn

open GoIpc.Lib

/-!
# A stream connection under deadlines

`Conn` runs `Read`, `Write` and `CloseWrite` over a channel.  Each channel operation runs under a
context of its own that `deadline.begin` registers and `done` withdraws; a timer, or a call that
sets a deadline in the past, expires the deadline and cancels every context registered then.

Every access is one step: the mutex of a deadline makes `set`, `fire`, `begin` and `done` atomic,
and a channel operation takes effect at one moment, between which and the translation of its
result anything may happen.  A channel operation either takes effect and returns no error, or
returns an error and has no effect.  `readMu` and `writeMu` allow one `Read` and one `Write` or
`CloseWrite` at a time.

Some fields are history: what the peer has sent, what reads have returned, and what the running
call has taken out of the channel or put into it.
-/

/-! ### Messages and errors -/

abbrev Word := BitVec 32

def typeStreamData : Word := 0
def typeStreamEOF : Word := 1

structure Msg where
  typ : Word
  payload : List UInt8
deriving DecidableEq

/-- The bytes a message adds to the stream. -/
def Msg.bytes (m : Msg) : List UInt8 := if m.typ = typeStreamEOF then [] else m.payload

/-- The bytes a list of messages adds to the stream. -/
def bytesOf (ms : List Msg) : List UInt8 := ms.flatMap Msg.bytes

/-- The errors of a channel operation. -/
inductive ChanErr
  | canceled
  | closed
  | peerGone
  | corrupt
  | tooManyClaims
deriving DecidableEq

/-- The errors a caller of the connection sees. -/
inductive NetErr
  | deadlineExceeded
  | closed
  | eof
  | chan (e : ChanErr)
deriving DecidableEq

/-- Why a context ended: `context.Cause`. -/
inductive Cause
  | deadline
  | canceled
deriving DecidableEq

/-- `Conn.translate`: it looks at the context before it looks at the error. -/
def translate (cause : Option Cause) (err : Option ChanErr) : Option NetErr :=
  if cause = some .deadline then some .deadlineExceeded
  else match err with
    | none => none
    | some .canceled | some .closed => some .closed
    | some e => some (.chan e)

/-! ### Deadlines -/

/-- A time given to `set`. -/
inductive When
  | never
  | past
  | future
deriving DecidableEq

/-- One direction's deadline, with the contexts it has handed out.  `callbacks` are the timer
    callbacks that may still run, by the generation they were started for: stopping a timer does
    not stop a callback that has begun. -/
structure Deadline where
  gen : Nat
  expired : Bool
  next : Nat
  waiting : List Nat
  callbacks : List Nat
  ctx : Nat → Option Cause

namespace Deadline

def start : Deadline := ⟨0, false, 0, [], [], fun _ => none⟩

/-- Cancel the contexts `p` selects.  The first cause stays. -/
def cancel (d : Deadline) (p : Nat → Bool) (c : Cause) : Deadline :=
  { d with ctx := fun k => if p k ∧ d.ctx k = none then some c else d.ctx k }

def expireLocked (d : Deadline) : Deadline :=
  { d.cancel (fun k => decide (k ∈ d.waiting)) .deadline with expired := true }

def set (d : Deadline) (at' : When) : Deadline :=
  let d := { d with gen := d.gen + 1, expired := false }
  match at' with
  | .never => d
  | .past => d.expireLocked
  | .future => { d with callbacks := d.gen :: d.callbacks }

def fire (d : Deadline) (gen : Nat) : Deadline :=
  let d := { d with callbacks := d.callbacks.erase gen }
  if gen = d.gen then d.expireLocked else d

/-- `begin`: the key of a new context, or `none` when the deadline has passed. -/
def begin (d : Deadline) (base : Bool) : Option (Nat × Deadline) :=
  if d.expired then none
  else
    let key := d.next + 1
    some (key, { d with
      next := key
      waiting := key :: d.waiting
      ctx := Function.update d.ctx key (if base then some .canceled else none) })

/-- The function `begin` returns for the end of the operation. -/
def done (d : Deadline) (key : Nat) : Deadline :=
  { d with waiting := d.waiting.erase key }.cancel (fun k => decide (k = key)) .canceled

/-- The end of `base` ends every context. -/
def cancelBase (d : Deadline) : Deadline := d.cancel (fun _ => true) .canceled

end Deadline

/-! ### The connection -/

/-- What a `Read` returned, and how many messages it took out of the channel. -/
structure ReadDone where
  data : List UInt8
  err : Option NetErr
  taken : Nat
deriving DecidableEq

/-- Where the running `Read` stands.  `len` is the length of its buffer, `taken` counts the
    messages it took. -/
inductive Reader
  | idle (last : Option ReadDone)
  | loop (len taken : Nat)
  | begin (len taken : Nat)
  | recv (len taken key : Nat)
  | translate (len taken key : Nat) (m : Msg) (err : Option ChanErr)
  | done (len taken key : Nat) (m : Msg) (err : Option NetErr)
deriving DecidableEq

/-- A `Write` with the bytes written so far, or a `CloseWrite`. -/
inductive Job
  | data (p : List UInt8) (written : Nat)
  | eof
deriving DecidableEq

/-- What a `Write` or `CloseWrite` returned, and the messages it put into the channel. -/
structure WriteDone where
  job : Job
  err : Option NetErr
  sent : List Msg
deriving DecidableEq

/-- Where the running `Write` or `CloseWrite` stands. -/
inductive Writer
  | idle (last : Option WriteDone)
  | loop (j : Job) (sent : List Msg)
  | begin (j : Job) (sent : List Msg)
  | send (j : Job) (sent : List Msg) (key : Nat)
  | translate (j : Job) (sent : List Msg) (key : Nat) (err : Option ChanErr)
  | done (j : Job) (sent : List Msg) (key : Nat) (err : Option NetErr)
deriving DecidableEq

/-- Where `Close` stands. -/
inductive Closer
  | idle
  | trySend
  | cancel
  | shut
  | done
deriving DecidableEq

structure State where
  pending : List UInt8
  eof : Bool
  eofSent : Bool
  base : Bool
  inbound : List Msg
  outbound : List Msg
  readDeadline : Deadline
  writeDeadline : Deadline
  reader : Reader
  writer : Writer
  closer : Closer
  peerSent : List UInt8
  returned : List UInt8

/-- The end of the chunk that begins at `written`. -/
def chunkEnd (limit : Nat) (p : List UInt8) (written : Nat) : Nat :=
  if written + limit > p.length then p.length else written + limit

/-- The message a job sends next. -/
def Job.msg (limit : Nat) : Job → Msg
  | .data p written =>
      ⟨typeStreamData, (p.drop written).take (chunkEnd limit p written - written)⟩
  | .eof => ⟨typeStreamEOF, []⟩

/-- The job after its message is sent. -/
def Job.advance (limit : Nat) : Job → Job
  | .data p written => .data p (chunkEnd limit p written)
  | .eof => .eof

inductive Act
  | read (len : Nat)
  | readStep
  | recvOk
  | recvErr (e : ChanErr)
  | write (p : List UInt8)
  | closeWrite
  | writeStep
  | sendOk
  | sendErr (e : ChanErr)
  | setRead (at' : When)
  | setWrite (at' : When)
  | fireRead (gen : Nat)
  | fireWrite (gen : Nat)
  | close
  | closeStep (sent : Bool)
  | peer (m : Msg)

namespace State

def start : State :=
  ⟨[], false, false, false, [], [], .start, .start, .idle none, .idle none, .idle, [], []⟩

/-- The next step of the running `Read`. -/
def readStep (s : State) : Option State :=
  match s.reader with
  | .loop len taken =>
      if s.pending ≠ [] then
        let data := s.pending.take len
        some { s with
          pending := s.pending.drop len
          reader := .idle (some ⟨data, none, taken⟩)
          returned := s.returned ++ data }
      else if s.eof then some { s with reader := .idle (some ⟨[], some .eof, taken⟩) }
      else some { s with reader := .begin len taken }
  | .begin len taken =>
      match s.readDeadline.begin s.base with
      | none => some { s with reader := .idle (some ⟨[], some .deadlineExceeded, taken⟩) }
      | some (key, d) => some { s with readDeadline := d, reader := .recv len taken key }
  | .translate len taken key m err =>
      some { s with reader := .done len taken key m (translate (s.readDeadline.ctx key) err) }
  | .done len taken key m err =>
      let s := { s with readDeadline := s.readDeadline.done key }
      match err with
      | some e => some { s with reader := .idle (some ⟨[], some e, taken⟩) }
      | none =>
          if m.typ = typeStreamEOF then
            some { s with eof := true, reader := .idle (some ⟨[], some .eof, taken⟩) }
          else some { s with pending := m.payload, reader := .loop len taken }
  | _ => none

/-- The next step of the running `Write` or `CloseWrite`. -/
def writeStep (limit : Nat) (s : State) : Option State :=
  match s.writer with
  | .loop j sent =>
      match j with
      | .data p written =>
          if written < p.length then some { s with writer := .begin j sent }
          else some { s with writer := .idle (some ⟨j, none, sent⟩) }
      | .eof => some { s with eofSent := true, writer := .idle (some ⟨j, none, sent⟩) }
  | .begin j sent =>
      match s.writeDeadline.begin s.base with
      | none => some { s with writer := .idle (some ⟨j, some .deadlineExceeded, sent⟩) }
      | some (key, d) => some { s with writeDeadline := d, writer := .send j sent key }
  | .translate j sent key err =>
      some { s with writer := .done j sent key (translate (s.writeDeadline.ctx key) err) }
  | .done j sent key err =>
      let s := { s with writeDeadline := s.writeDeadline.done key }
      match err with
      | some e => some { s with writer := .idle (some ⟨j, some e, sent⟩) }
      | none => some { s with writer := .loop (j.advance limit) sent }
  | _ => none

/-- Every context of the connection ends with `base`. -/
def cancelBase (s : State) : State :=
  { s with
    base := true
    readDeadline := s.readDeadline.cancelBase
    writeDeadline := s.writeDeadline.cancelBase }

/-- A channel operation returns the context's error only when the context has ended. -/
def mayFail (cause : Option Cause) (e : ChanErr) : Bool := e ≠ .canceled ∨ cause ≠ none

/-- One step.  The peer is a connection: it sends data in messages that are not empty, and its
    end-of-stream message carries none. -/
def step (limit : Nat) (s : State) : Act → Option State
  | .read len =>
      match s.reader with
      | .idle _ => some { s with reader := .loop len 0 }
      | _ => none
  | .readStep => s.readStep
  | .recvOk =>
      match s.reader, s.inbound with
      | .recv len taken key, m :: rest =>
          some { s with inbound := rest, reader := .translate len (taken + 1) key m none }
      | _, _ => none
  | .recvErr e =>
      match s.reader with
      | .recv len taken key =>
          if mayFail (s.readDeadline.ctx key) e then
            some { s with reader := .translate len taken key ⟨0, []⟩ (some e) }
          else none
      | _ => none
  | .write p =>
      match s.writer with
      | .idle _ =>
          if s.eofSent then some { s with writer := .idle (some ⟨.data p 0, some .closed, []⟩) }
          else some { s with writer := .loop (.data p 0) [] }
      | _ => none
  | .closeWrite =>
      match s.writer with
      | .idle _ =>
          if s.eofSent then some { s with writer := .idle (some ⟨.eof, some .closed, []⟩) }
          else some { s with writer := .begin .eof [] }
      | _ => none
  | .writeStep => s.writeStep limit
  | .sendOk =>
      match s.writer with
      | .send j sent key =>
          some { s with
            outbound := s.outbound ++ [j.msg limit]
            writer := .translate j (sent ++ [j.msg limit]) key none }
      | _ => none
  | .sendErr e =>
      match s.writer with
      | .send j sent key =>
          if mayFail (s.writeDeadline.ctx key) e then
            some { s with writer := .translate j sent key (some e) }
          else none
      | _ => none
  | .setRead at' => some { s with readDeadline := s.readDeadline.set at' }
  | .setWrite at' => some { s with writeDeadline := s.writeDeadline.set at' }
  | .fireRead gen =>
      if gen ∈ s.readDeadline.callbacks then some { s with readDeadline := s.readDeadline.fire gen }
      else none
  | .fireWrite gen =>
      if gen ∈ s.writeDeadline.callbacks then some { s with writeDeadline := s.writeDeadline.fire gen }
      else none
  | .close =>
      if s.closer = .idle then
        some (if s.eofSent then { s with closer := .cancel }
          else { s with eofSent := true, closer := .trySend })
      else none
  | .closeStep sent =>
      match s.closer with
      | .trySend => some { s with
          outbound := if sent then s.outbound ++ [Job.msg limit .eof] else s.outbound
          closer := .cancel }
      | .cancel => some { s.cancelBase with closer := .shut }
      | .shut => some { s with closer := .done }
      | _ => none
  | .peer m =>
      if (m.typ = typeStreamData ∧ m.payload ≠ []) ∨ m = ⟨typeStreamEOF, []⟩ then
        some { s with inbound := s.inbound ++ [m], peerSent := s.peerSent ++ m.bytes }
      else none

end State

/-- The steps of a connection, one rule for each branch that `State.step` can take. -/
inductive Step (limit : Nat) (s : State) : Act → State → Prop
  | read {last} (len : Nat) (hpc : s.reader = .idle last) :
      Step limit s (.read len) { s with reader := .loop len 0 }
  | readPending {len taken} (hpc : s.reader = .loop len taken) (hp : s.pending ≠ []) :
      Step limit s .readStep { s with
        pending := s.pending.drop len
        reader := .idle (some ⟨s.pending.take len, none, taken⟩)
        returned := s.returned ++ s.pending.take len }
  | readAtEnd {len taken} (hpc : s.reader = .loop len taken) (hp : s.pending = [])
      (heof : s.eof = true) :
      Step limit s .readStep { s with reader := .idle (some ⟨[], some .eof, taken⟩) }
  | readOn {len taken} (hpc : s.reader = .loop len taken) (hp : s.pending = [])
      (heof : s.eof = false) : Step limit s .readStep { s with reader := .begin len taken }
  | readExpired {len taken} (hpc : s.reader = .begin len taken)
      (hb : s.readDeadline.begin s.base = none) :
      Step limit s .readStep { s with reader := .idle (some ⟨[], some .deadlineExceeded, taken⟩) }
  | readBegin {len taken key d} (hpc : s.reader = .begin len taken)
      (hb : s.readDeadline.begin s.base = some (key, d)) :
      Step limit s .readStep { s with readDeadline := d, reader := .recv len taken key }
  | readTranslate {len taken key m err} (hpc : s.reader = .translate len taken key m err) :
      Step limit s .readStep
        { s with reader := .done len taken key m (translate (s.readDeadline.ctx key) err) }
  | readFailed {len taken key m e} (hpc : s.reader = .done len taken key m (some e)) :
      Step limit s .readStep { s with
        readDeadline := s.readDeadline.done key
        reader := .idle (some ⟨[], some e, taken⟩) }
  | readEnd {len taken key m} (hpc : s.reader = .done len taken key m none)
      (htyp : m.typ = typeStreamEOF) :
      Step limit s .readStep { s with
        readDeadline := s.readDeadline.done key
        eof := true
        reader := .idle (some ⟨[], some .eof, taken⟩) }
  | readData {len taken key m} (hpc : s.reader = .done len taken key m none)
      (htyp : m.typ ≠ typeStreamEOF) :
      Step limit s .readStep { s with
        readDeadline := s.readDeadline.done key
        pending := m.payload
        reader := .loop len taken }
  | recvOk {len taken key m rest} (hpc : s.reader = .recv len taken key)
      (hin : s.inbound = m :: rest) :
      Step limit s .recvOk
        { s with inbound := rest, reader := .translate len (taken + 1) key m none }
  | recvErr {len taken key e} (hpc : s.reader = .recv len taken key)
      (hfail : State.mayFail (s.readDeadline.ctx key) e = true) :
      Step limit s (.recvErr e) { s with reader := .translate len taken key ⟨0, []⟩ (some e) }
  | writeRefused {last} (p : List UInt8) (hpc : s.writer = .idle last) (hsent : s.eofSent = true) :
      Step limit s (.write p) { s with writer := .idle (some ⟨.data p 0, some .closed, []⟩) }
  | write {last} (p : List UInt8) (hpc : s.writer = .idle last) (hsent : s.eofSent = false) :
      Step limit s (.write p) { s with writer := .loop (.data p 0) [] }
  | closeWriteRefused {last} (hpc : s.writer = .idle last) (hsent : s.eofSent = true) :
      Step limit s .closeWrite { s with writer := .idle (some ⟨.eof, some .closed, []⟩) }
  | closeWrite {last} (hpc : s.writer = .idle last) (hsent : s.eofSent = false) :
      Step limit s .closeWrite { s with writer := .begin .eof [] }
  | writeOn {p written sent} (hpc : s.writer = .loop (.data p written) sent)
      (hlt : written < p.length) :
      Step limit s .writeStep { s with writer := .begin (.data p written) sent }
  | writeAll {p written sent} (hpc : s.writer = .loop (.data p written) sent)
      (hge : p.length ≤ written) :
      Step limit s .writeStep { s with writer := .idle (some ⟨.data p written, none, sent⟩) }
  | writeEnd {sent} (hpc : s.writer = .loop .eof sent) :
      Step limit s .writeStep
        { s with eofSent := true, writer := .idle (some ⟨.eof, none, sent⟩) }
  | writeExpired {j sent} (hpc : s.writer = .begin j sent)
      (hb : s.writeDeadline.begin s.base = none) :
      Step limit s .writeStep { s with writer := .idle (some ⟨j, some .deadlineExceeded, sent⟩) }
  | writeBegin {j sent key d} (hpc : s.writer = .begin j sent)
      (hb : s.writeDeadline.begin s.base = some (key, d)) :
      Step limit s .writeStep { s with writeDeadline := d, writer := .send j sent key }
  | writeTranslate {j sent key err} (hpc : s.writer = .translate j sent key err) :
      Step limit s .writeStep
        { s with writer := .done j sent key (translate (s.writeDeadline.ctx key) err) }
  | writeFailed {j sent key e} (hpc : s.writer = .done j sent key (some e)) :
      Step limit s .writeStep { s with
        writeDeadline := s.writeDeadline.done key
        writer := .idle (some ⟨j, some e, sent⟩) }
  | writeNext {j sent key} (hpc : s.writer = .done j sent key none) :
      Step limit s .writeStep { s with
        writeDeadline := s.writeDeadline.done key
        writer := .loop (j.advance limit) sent }
  | sendOk {j sent key} (hpc : s.writer = .send j sent key) :
      Step limit s .sendOk { s with
        outbound := s.outbound ++ [j.msg limit]
        writer := .translate j (sent ++ [j.msg limit]) key none }
  | sendErr {j sent key e} (hpc : s.writer = .send j sent key)
      (hfail : State.mayFail (s.writeDeadline.ctx key) e = true) :
      Step limit s (.sendErr e) { s with writer := .translate j sent key (some e) }
  | setRead (w : When) : Step limit s (.setRead w) { s with readDeadline := s.readDeadline.set w }
  | setWrite (w : When) :
      Step limit s (.setWrite w) { s with writeDeadline := s.writeDeadline.set w }
  | fireRead {g} (hg : g ∈ s.readDeadline.callbacks) :
      Step limit s (.fireRead g) { s with readDeadline := s.readDeadline.fire g }
  | fireWrite {g} (hg : g ∈ s.writeDeadline.callbacks) :
      Step limit s (.fireWrite g) { s with writeDeadline := s.writeDeadline.fire g }
  | closeEnded (hpc : s.closer = .idle) (hsent : s.eofSent = true) :
      Step limit s .close { s with closer := .cancel }
  | close (hpc : s.closer = .idle) (hsent : s.eofSent = false) :
      Step limit s .close { s with eofSent := true, closer := .trySend }
  | closeSend (sent : Bool) (hpc : s.closer = .trySend) :
      Step limit s (.closeStep sent) { s with
        outbound := if sent then s.outbound ++ [Job.msg limit .eof] else s.outbound
        closer := .cancel }
  | closeCancel (sent : Bool) (hpc : s.closer = .cancel) :
      Step limit s (.closeStep sent) { s.cancelBase with closer := .shut }
  | closeChannel (sent : Bool) (hpc : s.closer = .shut) :
      Step limit s (.closeStep sent) { s with closer := .done }
  | peer {m : Msg} (hm : (m.typ = typeStreamData ∧ m.payload ≠ []) ∨ m = ⟨typeStreamEOF, []⟩) :
      Step limit s (.peer m)
        { s with inbound := s.inbound ++ [m], peerSent := s.peerSent ++ m.bytes }

theorem State.readStep_step {limit : Nat} {s s' : State} (hs : s.readStep = some s') :
    Step limit s .readStep s' := by
  unfold State.readStep at hs
  cases hpc : s.reader with
  | idle last | recv len taken key =>
    rw [hpc] at hs
    cases hs
  | loop len taken =>
    simp only [hpc] at hs
    split at hs
    · next hp =>
      cases hs
      exact .readPending hpc hp
    · next hp =>
      split at hs <;> cases hs
      · next heof =>
        exact .readAtEnd hpc (not_not.mp hp) heof
      · next heof =>
        exact .readOn hpc (not_not.mp hp) (Bool.eq_false_iff.mpr heof)
  | begin len taken =>
    simp only [hpc] at hs
    split at hs <;> cases hs
    · next hb =>
      exact .readExpired hpc hb
    · next hb =>
      exact .readBegin hpc hb
  | translate len taken key m err =>
    simp only [hpc] at hs
    cases hs
    exact .readTranslate hpc
  | done len taken key m err =>
    simp only [hpc] at hs
    cases err with
    | some e =>
      cases hs
      exact .readFailed hpc
    | none =>
      dsimp only at hs
      split at hs <;> cases hs
      · next htyp =>
        exact .readEnd hpc htyp
      · next htyp =>
        exact .readData hpc htyp

theorem State.writeStep_step {limit : Nat} {s s' : State} (hs : s.writeStep limit = some s') :
    Step limit s .writeStep s' := by
  unfold State.writeStep at hs
  cases hpc : s.writer with
  | idle last | send j sent key =>
    rw [hpc] at hs
    cases hs
  | loop j sent =>
    simp only [hpc] at hs
    cases j with
    | data p written =>
      dsimp only at hs
      split at hs <;> cases hs
      · next hlt =>
        exact .writeOn hpc hlt
      · next hge =>
        exact .writeAll hpc (Nat.le_of_not_lt hge)
    | eof =>
      cases hs
      exact .writeEnd hpc
  | begin j sent =>
    simp only [hpc] at hs
    split at hs <;> cases hs
    · next hb =>
      exact .writeExpired hpc hb
    · next hb =>
      exact .writeBegin hpc hb
  | translate j sent key err =>
    simp only [hpc] at hs
    cases hs
    exact .writeTranslate hpc
  | done j sent key err =>
    simp only [hpc] at hs
    cases err with
    | some e =>
      cases hs
      exact .writeFailed hpc
    | none =>
      cases hs
      exact .writeNext hpc

/-- **Every step follows one of the rules.**  The invariants below are proved rule by rule. -/
theorem State.step_rule {limit : Nat} {s s' : State} {a : Act} (hs : s.step limit a = some s') :
    Step limit s a s' := by
  cases a with
  | readStep => exact State.readStep_step hs
  | writeStep => exact State.writeStep_step hs
  | setRead w =>
    cases hs
    exact .setRead w
  | setWrite w =>
    cases hs
    exact .setWrite w
  | read len =>
    simp only [State.step] at hs
    split at hs <;> cases hs
    next hpc =>
      exact .read len hpc
  | recvOk =>
    simp only [State.step] at hs
    split at hs <;> cases hs
    next hpc hin =>
      exact .recvOk hpc hin
  | recvErr e =>
    simp only [State.step] at hs
    split at hs
    · next hpc =>
      split_ifs at hs with hfail
      cases hs
      exact .recvErr hpc hfail
    · cases hs
  | write p =>
    simp only [State.step] at hs
    split at hs
    · next hpc =>
      split at hs <;> cases hs
      · next hsent =>
        exact .writeRefused p hpc hsent
      · next hsent =>
        exact .write p hpc (Bool.eq_false_iff.mpr hsent)
    · cases hs
  | closeWrite =>
    simp only [State.step] at hs
    split at hs
    · next hpc =>
      split at hs <;> cases hs
      · next hsent =>
        exact .closeWriteRefused hpc hsent
      · next hsent =>
        exact .closeWrite hpc (Bool.eq_false_iff.mpr hsent)
    · cases hs
  | sendOk =>
    simp only [State.step] at hs
    split at hs <;> cases hs
    next hpc =>
      exact .sendOk hpc
  | sendErr e =>
    simp only [State.step] at hs
    split at hs
    · next hpc =>
      split_ifs at hs with hfail
      cases hs
      exact .sendErr hpc hfail
    · cases hs
  | fireRead g =>
    simp only [State.step] at hs
    split_ifs at hs with hg
    cases hs
    exact .fireRead hg
  | fireWrite g =>
    simp only [State.step] at hs
    split_ifs at hs with hg
    cases hs
    exact .fireWrite hg
  | close =>
    simp only [State.step] at hs
    split at hs <;> cases hs
    next hpc =>
      split
      · next hsent => exact .closeEnded hpc hsent
      · next hsent => exact .close hpc (Bool.eq_false_iff.mpr hsent)
  | closeStep sent =>
    unfold State.step at hs
    cases hpc : s.closer with
    | idle | done =>
      rw [hpc] at hs
      cases hs
    | trySend =>
      simp only [hpc] at hs
      cases hs
      exact .closeSend sent hpc
    | cancel =>
      simp only [hpc] at hs
      cases hs
      exact .closeCancel sent hpc
    | shut =>
      simp only [hpc] at hs
      cases hs
      exact .closeChannel sent hpc
  | peer m =>
    simp only [State.step] at hs
    split_ifs at hs with hm
    cases hs
    exact .peer hm

/-- A connection over a channel whose messages hold up to `limit` bytes. -/
def machine (limit : Nat) : Machine State Act := ⟨State.start, State.step limit⟩

end GoIpc.Conn
