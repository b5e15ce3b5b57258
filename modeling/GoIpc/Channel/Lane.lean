import GoIpc.Channel.Pipe

namespace GoIpc.Channel

open GoIpc.Ring (Capacity maxMessageSize)

/-!
# Sending and receiving through `park`

A lane is one direction of a channel with the waiter counts and events of its two ends.  `SendTyped`
and `Recv` make an attempt, register and try again, and wait for a token; both are step functions
here, so that any number of parties can run them interleaved.

An attempt is one or two steps.  A send checks that the receiver is still there and then claims,
copies and commits at once: the lane has one sender, so nobody else's claim lies in between.  A
receive checks the peer and reads at once: the peer, once gone, stays gone, and only this reader
takes messages out.  The announcements after an attempt are steps of their own.

* `SendPc.step`, `RecvPc.step` — the two loops;
* `SendPc.Effect`, `RecvPc.Effect` — all they can do to the messages of the lane;
* `Lane.Ok` — the cursors account for the messages.
-/

/-- One direction: cursors, messages, waiter counts and the tokens of the two events. -/
structure Lane (α : Type) where
  pipe : Pipe
  queue : List α
  sendWaiters : Nat
  recvWaiters : Nat
  notFull : Nat
  notEmpty : Nat
deriving DecidableEq

/-- The errors of a channel operation. -/
inductive Fault
  | peerGone
  | messageTooLarge
  | ctx
deriving DecidableEq

/-- Which attempt of `park` runs. -/
inductive Try
  | first
  | again
  | last
deriving DecidableEq

/-- What follows the withdrawal of a registered waiter. -/
inductive Next (ρ : Type)
  | done (r : ρ)
  | retry
  | last
deriving DecidableEq

/-- How a party moves on: its next access, a token, the end of its context, a wait that reports the
    peer gone, or an attempt on a full ring that finds the ring's name removed. -/
inductive Move
  | step
  | token
  | cancel
  | waitGone
  | unlinked
deriving DecidableEq

variable {α : Type}

/-! ### Sending -/

/-- Where `SendTyped` stands. -/
inductive SendPc
  | check (t : Try)
  | write (t : Try)
  | register
  | wait
  | retire (n : Next (Option Fault))
  | wakeLoad
  | wakeSignal
deriving DecidableEq

namespace SendPc

/-- An attempt is over: without an error, with one, or with a full ring. -/
def finish (t : Try) (err : Option Fault) : SendPc ⊕ Option Fault :=
  match t, err with
  | .again, err => .inl (.retire (.done err))
  | _, none => .inl .wakeLoad
  | _, some e => .inr (some e)

def blocked : Try → SendPc ⊕ Option Fault
  | .first => .inl .register
  | .again => .inl .wait
  | .last => .inr (some .peerGone)

/-- The message has been put into the ring. -/
def sent : SendPc → Bool
  | .retire (.done none) | .wakeLoad | .wakeSignal => true
  | _ => false

/-- One step of `SendTyped` with message `m`; it goes on, or it returns.  `gone` is what `checkPeer`
    finds, and `unlinked` says whether `receiverUnlinked` may find the name removed. -/
def step (C : Capacity) (size : α → Nat) (gone unlinked : Bool) (m : α) (l : Lane α) :
    SendPc → Move → Option (Lane α × (SendPc ⊕ Option Fault))
  | .check t, .step => some (l, if gone then finish t (some .peerGone) else .inl (.write t))
  | .write t, .step =>
      if size m > maxMessageSize C then some (l, finish t (some .messageTooLarge))
      else if l.pipe.fits C (size m) then
        some ({ l with pipe := l.pipe.push C (size m), queue := l.queue ++ [m] }, finish t none)
      else some (l, blocked t)
  | .write t, .unlinked =>
      if unlinked ∧ size m ≤ maxMessageSize C ∧ l.pipe.fits C (size m) = false then
        some (l, finish t (some .peerGone))
      else none
  | .register, .step => some ({ l with sendWaiters := l.sendWaiters + 1 }, .inl (.check .again))
  | .wait, .token =>
      if l.notFull = 0 then none
      else some ({ l with notFull := l.notFull - 1 }, .inl (.retire .retry))
  | .wait, .cancel => some (l, .inl (.retire (.done (some .ctx))))
  | .wait, .waitGone => if gone then some (l, .inl (.retire .last)) else none
  | .retire n, .step =>
      some ({ l with sendWaiters := l.sendWaiters - 1 }, match n with
        | .retry => .inl (.check .first)
        | .last => .inl (.check .last)
        | .done none => .inl .wakeLoad
        | .done (some e) => .inr (some e))
  | .wakeLoad, .step => some (l, if l.recvWaiters > 0 then .inl .wakeSignal else .inr none)
  | .wakeSignal, .step => some ({ l with notEmpty := l.notEmpty + 1 }, .inr none)
  | _, _ => none

end SendPc

/-! ### Receiving -/

/-- Where `Recv` stands. -/
inductive RecvPc (α : Type)
  | read (t : Try)
  | wakeLoad (t : Try) (m : α)
  | wakeSignal (t : Try) (m : α) (waiters : Nat)
  | register
  | wait
  | retire (n : Next (Except Fault α))

namespace RecvPc

/-- An attempt returned something other than "empty". -/
def finish (t : Try) (r : Except Fault α) : RecvPc α ⊕ Except Fault α :=
  match t with
  | .again => .inl (.retire (.done r))
  | _ => .inr r

/-- An attempt found nothing to read. -/
def blocked : Try → RecvPc α ⊕ Except Fault α
  | .first => .inl .register
  | .again => .inl .wait
  | .last => .inr (.error .peerGone)

/-- The message taken out of the ring and not yet returned. -/
def holds : RecvPc α → Option α
  | .wakeLoad _ m | .wakeSignal _ m _ | .retire (.done (.ok m)) => some m
  | _ => none

/-- One step of `Recv`; it goes on, or it returns.  `gone` is what the peer check finds. -/
def step (C : Capacity) (size : α → Nat) (gone : Bool) (l : Lane α) :
    RecvPc α → Move → Option (Lane α × (RecvPc α ⊕ Except Fault α))
  | .read t, .step =>
      match l.queue with
      | m :: rest =>
          some ({ l with pipe := l.pipe.pop C (size m), queue := rest }, .inl (.wakeLoad t m))
      | [] => some (l, if gone then finish t (.error .peerGone) else blocked t)
  | .wakeLoad t m, .step =>
      some (l, if l.sendWaiters > 0 then .inl (.wakeSignal t m l.sendWaiters) else finish t (.ok m))
  | .wakeSignal t m waiters, .step =>
      some ({ l with notFull := l.notFull + waiters }, finish t (.ok m))
  | .register, .step => some ({ l with recvWaiters := l.recvWaiters + 1 }, .inl (.read .again))
  | .wait, .token =>
      if l.notEmpty = 0 then none
      else some ({ l with notEmpty := l.notEmpty - 1 }, .inl (.retire .retry))
  | .wait, .cancel => some (l, .inl (.retire (.done (.error .ctx))))
  | .wait, .waitGone => if gone then some (l, .inl (.retire .last)) else none
  | .retire n, .step =>
      some ({ l with recvWaiters := l.recvWaiters - 1 }, match n with
        | .retry => .inl (.read .first)
        | .last => .inl (.read .last)
        | .done r => .inr r)
  | _, _ => none

end RecvPc

/-! ### What a step does to the messages -/

variable {C : Capacity} {size : α → Nat} {gone unlinked : Bool} {m : α} {l l' : Lane α} {mv : Move}

/-- A step of a send puts its message in, once, or leaves the messages alone. -/
inductive SendPc.Effect (C : Capacity) (size : α → Nat) (m : α) (l l' : Lane α) (pc : SendPc) :
    SendPc ⊕ Option Fault → Prop
  | put (pc' : SendPc) (h0 : pc.sent = false) (h1 : pc'.sent = true)
      (hsize : size m ≤ maxMessageSize C) (hfits : l.pipe.fits C (size m) = true)
      (hqueue : l'.queue = l.queue ++ [m]) (hpipe : l'.pipe = l.pipe.push C (size m)) :
      Effect C size m l l' pc (.inl pc')
  | keep (pc' : SendPc) (hsent : pc'.sent = pc.sent) (hqueue : l'.queue = l.queue)
      (hpipe : l'.pipe = l.pipe) : Effect C size m l l' pc (.inl pc')
  | ok (h1 : pc.sent = true) (hqueue : l'.queue = l.queue) (hpipe : l'.pipe = l.pipe) :
      Effect C size m l l' pc (.inr none)
  | fail (e : Fault) (h0 : pc.sent = false) (hqueue : l'.queue = l.queue)
      (hpipe : l'.pipe = l.pipe) : Effect C size m l l' pc (.inr (some e))

/-- **What a step of a send does to the messages.** -/
theorem SendPc.effect {pc : SendPc} {r : SendPc ⊕ Option Fault}
    (hs : pc.step C size gone unlinked m l mv = some (l', r)) : SendPc.Effect C size m l l' pc r := by
  cases pc with
  | check t =>
    cases mv <;> cases hs
    split
    · cases t <;> first | exact .keep _ rfl rfl rfl | exact .fail _ rfl rfl rfl
    · exact .keep _ rfl rfl rfl
  | write t =>
    cases mv with
    | step =>
      simp only [SendPc.step] at hs
      split_ifs at hs with hsize hfits <;> cases hs
      -- too large, put into the ring, or the ring is full
      · cases t <;> first | exact .keep _ rfl rfl rfl | exact .fail _ rfl rfl rfl
      · cases t <;> exact .put _ rfl rfl (by omega) hfits rfl rfl
      · cases t <;> first | exact .keep _ rfl rfl rfl | exact .fail _ rfl rfl rfl
    | unlinked =>
      obtain ⟨-, hs⟩ := Option.ite_none_right_eq_some.mp hs
      cases hs
      cases t <;> first | exact .keep _ rfl rfl rfl | exact .fail _ rfl rfl rfl
    | _ => cases hs
  | wait =>
    cases mv with
    | token =>
      obtain ⟨-, hs⟩ := Option.ite_none_left_eq_some.mp hs
      cases hs
      exact .keep _ rfl rfl rfl
    | waitGone =>
      obtain ⟨-, hs⟩ := Option.ite_none_right_eq_some.mp hs
      cases hs
      exact .keep _ rfl rfl rfl
    | cancel =>
      cases hs
      exact .keep _ rfl rfl rfl
    | _ => cases hs
  | retire n =>
    cases mv <;> cases hs
    cases n with
    | retry | last => exact .keep _ rfl rfl rfl
    | done r =>
      cases r with
      | none => exact .keep _ rfl rfl rfl
      | some e => exact .fail _ rfl rfl rfl
  | register =>
    cases mv <;> cases hs
    exact .keep _ rfl rfl rfl
  | wakeLoad =>
    cases mv <;> cases hs
    split
    · exact .keep _ rfl rfl rfl
    · exact .ok rfl rfl rfl
  | wakeSignal =>
    cases mv <;> cases hs
    exact .ok rfl rfl rfl

/-- A step of a receive takes the first message out, or leaves the messages alone. -/
inductive RecvPc.Effect (C : Capacity) (size : α → Nat) (l l' : Lane α) (pc : RecvPc α) :
    RecvPc α ⊕ Except Fault α → Prop
  | take (m : α) (pc' : RecvPc α) (h0 : pc.holds = none) (h1 : pc'.holds = some m)
      (hqueue : l.queue = m :: l'.queue) (hpipe : l'.pipe = l.pipe.pop C (size m)) :
      Effect C size l l' pc (.inl pc')
  | keep (pc' : RecvPc α) (hholds : pc'.holds = pc.holds) (hqueue : l'.queue = l.queue)
      (hpipe : l'.pipe = l.pipe) : Effect C size l l' pc (.inl pc')
  | ok (m : α) (h1 : pc.holds = some m) (hqueue : l'.queue = l.queue) (hpipe : l'.pipe = l.pipe) :
      Effect C size l l' pc (.inr (.ok m))
  | fail (e : Fault) (h0 : pc.holds = none) (hqueue : l'.queue = l.queue)
      (hpipe : l'.pipe = l.pipe) : Effect C size l l' pc (.inr (.error e))

/-- **What a step of a receive does to the messages.** -/
theorem RecvPc.effect {pc : RecvPc α} {r : RecvPc α ⊕ Except Fault α}
    (hs : pc.step C size gone l mv = some (l', r)) : RecvPc.Effect C size l l' pc r := by
  cases pc with
  | read t =>
    cases mv <;> simp only [RecvPc.step, reduceCtorEq] at hs
    split at hs <;> cases hs
    · next m rest hq =>
      exact .take m _ rfl rfl hq rfl
    · split <;> cases t <;> first | exact .keep _ rfl rfl rfl | exact .fail _ rfl rfl rfl
  | wakeLoad t m =>
    cases mv <;> cases hs
    split
    · exact .keep _ rfl rfl rfl
    · cases t <;> first | exact .keep _ rfl rfl rfl | exact .ok m rfl rfl rfl
  | wakeSignal t m waiters =>
    cases mv <;> cases hs
    cases t <;> first | exact .keep _ rfl rfl rfl | exact .ok m rfl rfl rfl
  | register =>
    cases mv <;> cases hs
    exact .keep _ rfl rfl rfl
  | wait =>
    cases mv with
    | token =>
      obtain ⟨-, hs⟩ := Option.ite_none_left_eq_some.mp hs
      cases hs
      exact .keep _ rfl rfl rfl
    | waitGone =>
      obtain ⟨-, hs⟩ := Option.ite_none_right_eq_some.mp hs
      cases hs
      exact .keep _ rfl rfl rfl
    | cancel =>
      cases hs
      exact .keep _ rfl rfl rfl
    | _ => cases hs
  | retire n =>
    cases mv <;> cases hs
    cases n with
    | retry | last => exact .keep _ rfl rfl rfl
    | done r =>
      cases r with
      | ok m => exact .ok m rfl rfl rfl
      | error e => exact .fail e rfl rfl rfl

/-! ### Cursors and messages -/

/-- Where the messages of `queue` end when the first one begins at `cursor`. -/
def stopOf (C : Capacity) (size : α → Nat) : Nat → List α → Nat
  | cursor, [] => cursor
  | cursor, m :: rest => stopOf C size (cursor + Pipe.span C cursor (size m)) rest

theorem stopOf_append (cursor : Nat) (q : List α) (m : α) :
    stopOf C size cursor (q ++ [m]) =
      stopOf C size cursor q + Pipe.span C (stopOf C size cursor q) (size m) := by
  induction q generalizing cursor with
  | nil => rfl
  | cons x q ih => exact ih _

/-- The tail stands behind the last message. -/
def Lane.Ok (C : Capacity) (size : α → Nat) (l : Lane α) : Prop :=
  l.pipe.tail = stopOf C size l.pipe.head l.queue

theorem Lane.Ok.of_eq (h : l.Ok C size) (hqueue : l'.queue = l.queue) (hpipe : l'.pipe = l.pipe) :
    l'.Ok C size := by
  unfold Lane.Ok at *
  rwa [hqueue, hpipe]

theorem Lane.Ok.send (h : l.Ok C size) {pc : SendPc} {r : SendPc ⊕ Option Fault}
    (he : SendPc.Effect C size m l l' pc r) : l'.Ok C size := by
  cases he with
  | put pc' h0 h1 hsize hfits hqueue hpipe =>
    unfold Lane.Ok at *
    rw [hqueue, hpipe]
    show l.pipe.tail + Pipe.span C l.pipe.tail (size m) = stopOf C size l.pipe.head (l.queue ++ [m])
    rw [stopOf_append, ← h]
  | keep pc' hsent hqueue hpipe => exact h.of_eq hqueue hpipe
  | ok h1 hqueue hpipe => exact h.of_eq hqueue hpipe
  | fail e h0 hqueue hpipe => exact h.of_eq hqueue hpipe

theorem Lane.Ok.recv (h : l.Ok C size) {pc : RecvPc α} {r : RecvPc α ⊕ Except Fault α}
    (he : RecvPc.Effect C size l l' pc r) : l'.Ok C size := by
  cases he with
  | take m pc' h0 h1 hqueue hpipe =>
    unfold Lane.Ok at *
    rw [hqueue] at h
    rwa [hpipe]
  | keep pc' hholds hqueue hpipe => exact h.of_eq hqueue hpipe
  | ok m h1 hqueue hpipe => exact h.of_eq hqueue hpipe
  | fail e h0 hqueue hpipe => exact h.of_eq hqueue hpipe

/-- A lane without messages has room for every message. -/
theorem Lane.Ok.fits_of_empty (h : l.Ok C size) (hq : l.queue = []) {n : Nat}
    (hn : n ≤ maxMessageSize C) : l.pipe.fits C n = true := by
  refine fits_of_drained ?_ hn
  unfold Lane.Ok at h
  rw [hq] at h
  exact h.symm

end GoIpc.Channel
