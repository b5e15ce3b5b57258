import GoIpc.Queue.Attempts

namespace GoIpc.Link

open GoIpc.Lib
open GoIpc.Ring (Word committedOf)
open GoIpc.Queue (Config World Recv QInv GivesUp Positive lastTry limit_of_attempt lastTry_of_attempt
  lastTry_step lastTry_finish positive_finish saysGone_of_step givesUp_of_step)

/-!
# A queue as one direction of a channel

The receiver of a channel's direction also looks at its peer: `receive` asks whether the peer is gone
before it reads, and reports `ErrPeerGone` when it then finds nothing.  The answer comes from the
consumer field of the other direction, which the peer clears in `Channel.Close`, and from the watch on
the peer's process, which may report an exit at any time after it.

* `Sys` — the queue, the answer of the running attempt, and where the peer's `Channel.Close` stands;
* `Sys.after` — an attempt that finds nothing after the answer "gone" returns `ErrPeerGone`;
* `machine` — every interleaving of senders, receiver, peer checks, the exit of the peer's process `D`
  and its `Channel.Close`;
* `saysGone_step` — `ErrPeerGone` comes from an attempt that began after the peer was gone (`late`).

`sent` is history: the messages that were committed when `Channel.Close` was called.
-/

/-! ### The model -/

/-- Where the sender's `Channel.Close` stands: it clears the consumer field of the direction it reads,
    signals the receiver of the other one, and closes its handle there. -/
inductive Closing
  | running
  | cleared
  | signalled
  | shut
deriving DecidableEq

structure Sys where
  q : Queue.Sys
  /-- the answer of the peer check, once the running attempt has it -/
  gone : Option Bool
  closing : Closing
  sent : List (Word × List UInt8)

inductive Act
  | queue (a : Queue.Act)
  /-- the peer check that starts an attempt -/
  | check (gone : Bool)
  /-- `rx.Close` clears the consumer field -/
  | clear
  | signal
  | shut
  /-- the watch on the peer's process reports its exit; the source reports it once -/
  | exited

namespace Sys

variable (K : Config) (D : Nat) (s : Sys)

def start : Sys := ⟨Queue.Sys.start, none, .running, []⟩

/-- What the rest of the channel allows of a step of the queue. -/
def allows : Queue.Act → Bool
  -- the peer check comes before the read
  | .recv .step =>
      match s.q.recv with
      | .before .. => s.gone.isSome
      | _ => true
  -- the creator of the event has exited or closed it
  | .recv .waitGone => D ∈ s.q.world.dead ∨ s.closing = .shut
  -- a handle that is closed lets no operation in
  | .send _ (.trySend ..) | .send _ (.send ..) | .send _ (.claim ..) => s.closing ≠ .shut
  | .close _ => s.closing = .shut
  | _ => true

/-- An attempt that finds nothing after the answer "gone" returns `ErrPeerGone`.  The answer belongs
    to one attempt. -/
def after (q : Queue.Sys) : Sys :=
  let q :=
    match s.q.recv.attempt with
    | some (l, k) =>
        if s.gone = some true ∧ q.recv = Recv.empty l k then
          { q with recv := Recv.finish l k 0 (some .peerGone) }
        else q
    | none => q
  { s with q := q, gone := if q.recv.attempt.isSome then s.gone else none }

/-- The peer is gone for the peer check: its consumer field is cleared, or its process has exited and
    the watch has told. -/
def answers (gone : Bool) : Bool :=
  if s.closing = .running then !gone || D ∈ s.q.world.dead else gone

/-- A token for the receiver. -/
def notify : Sys :=
  { s with q := { s.q with world := { s.q.world with
      wake := { s.q.world.wake with notEmpty := s.q.world.wake.notEmpty + 1 } } } }

/-- One step. -/
def step : Act → Option Sys
  | .queue a => if s.allows D a then (s.q.step K a).map s.after else none
  | .check gone =>
      match s.q.recv, s.gone with
      | .before _ _, none => if s.answers D gone then some { s with gone := some gone } else none
      | _, _ => none
  | .clear =>
      if s.closing = .running ∧ D ∉ s.q.world.dead then
        some { s with closing := .cleared, sent := committedOf s.q.world.sh.log }
      else none
  | .signal =>
      if s.closing = .cleared ∧ D ∉ s.q.world.dead then
        some { s.notify with closing := .signalled }
      else none
  | .shut =>
      if s.closing = .signalled ∧ D ∉ s.q.world.dead then some { s with closing := .shut } else none
  | .exited => if D ∈ s.q.world.dead then some s.notify else none

end Sys

/-- One direction of a channel, with the senders in process `D`. -/
def machine (K : Config) (D : Nat) : Machine Sys Act := ⟨Sys.start, Sys.step K D⟩

variable {K : Config} {D : Nat} {s s' : Sys}

/-! ### Steps -/

variable {a : Queue.Act}

theorem Sys.step_queue_eq (hs : s.step K D (.queue a) = some s') :
    s.allows D a = true ∧ ∃ q, s.q.step K a = some q ∧ s' = s.after q := by
  simp only [Sys.step] at hs
  split_ifs at hs with hallows
  obtain ⟨q, hq, rfl⟩ := Option.map_eq_some_iff.mp hs
  exact ⟨hallows, q, hq, rfl⟩

/-- `after` changes at most the place of the receiver, and only to return `ErrPeerGone`. -/
theorem Sys.after_eq (s : Sys) (q : Queue.Sys) :
    (s.after q).q = q ∨ (∃ l k, s.q.recv.attempt = some (l, k) ∧ s.gone = some true ∧
      q.recv = Recv.empty l k ∧
      (s.after q).q = { q with recv := Recv.finish l k 0 (some .peerGone) }) := by
  unfold Sys.after
  split
  · next l k hattempt =>
    split
    · next hgone => exact .inr ⟨l, k, hattempt, hgone.1, hgone.2, rfl⟩
    · exact .inl rfl
  · exact .inl rfl

theorem Sys.after_world (s : Sys) (q : Queue.Sys) : (s.after q).q.world = q.world := by
  rcases s.after_eq q with h | ⟨l, k, -, -, -, h⟩ <;> rw [h]

/-- The invariant of the queue holds for a direction of a channel. -/
theorem inv_step {a : Act} (hq : QInv K s.q)
    (hok : ∀ b, a = .queue b → Queue.passed s.q b = true ∧ Queue.clearOk s.q b = true)
    (hs : s.step K D a = some s') : QInv K s'.q := by
  cases a with
  | queue b =>
    obtain ⟨-, q, hstep, rfl⟩ := Sys.step_queue_eq hs
    have hq' := hq.step (hok b rfl) hstep
    rcases s.after_eq q with h | ⟨l, k, -, -, hempty, h⟩
    · rw [h]
      exact hq'
    · rw [h]
      exact hq'.replace (by rw [hempty]; exact Recv.plain_empty l k) (Recv.plain_finish ..)
  | check gone =>
    simp only [Sys.step] at hs
    split at hs
    · split at hs <;> cases hs
      exact hq
    · cases hs
  | clear =>
    simp only [Sys.step] at hs
    split at hs <;> cases hs
    exact hq
  | signal | exited =>
    simp only [Sys.step] at hs
    split at hs <;> cases hs
    exact hq.idle rfl (fun _ h => h) rfl (hq.slots.same (fun _ => rfl) (fun _ h => h) rfl
      (fun _ => rfl) (fun _ => rfl) (fun _ h => h)) rfl
  | shut =>
    simp only [Sys.step] at hs
    split at hs <;> cases hs
    exact hq

/-! ### Where `ErrPeerGone` comes from -/

/-- The running attempt began after the peer was gone: the peer check said so, or a wait did. -/
def Sys.late (s : Sys) : Bool := s.gone = some true ∨ lastTry s.q.recv = true

/-- **Where `ErrPeerGone` comes from**: an attempt that began after the peer was gone, and found
    nothing. -/
theorem saysGone_step (hs : s.step K D (.queue a) = some s') (hgone : s'.q.recv.saysGone = true) :
    s.q.recv.saysGone = true ∨
      (s.late = true ∧ ∃ l k, s.q.recv.attempt = some (l, k) ∧ GivesUp K s.q.world l k s.q.recv) := by
  obtain ⟨-, q, hstep, rfl⟩ := Sys.step_queue_eq hs
  rcases s.after_eq q with h | ⟨l, k, hattempt, hgone', hempty, h⟩
  · rw [h] at hgone
    rcases Queue.Sys.step_recv_or hstep with ⟨b, x, -, hr, -⟩ | ⟨-, heq⟩
    · rcases saysGone_of_step hr hgone with hold | ⟨l, hattempt, hempty⟩
      · exact .inl hold
      · refine .inr ⟨?_, l, .last, hattempt, givesUp_of_step hattempt hr hempty⟩
        simp [Sys.late, lastTry_of_attempt hattempt]
    · exact .inl (heq ▸ hgone)
  · rcases Queue.Sys.step_recv_or hstep with ⟨b, x, -, hr, -⟩ | ⟨-, heq⟩
    · exact .inr ⟨by simp [Sys.late, hgone'], l, k, hattempt, givesUp_of_step hattempt hr hempty⟩
    · -- a receiver in an attempt has not found nothing
      rw [← heq, hempty] at hattempt
      cases k <;> cases hattempt

/-- `after` leaves a receiver alone that has not moved. -/
theorem Sys.after_same {q : Queue.Sys} (h : q.recv = s.q.recv) : (s.after q).q = q := by
  rcases s.after_eq q with hq | ⟨l, k, hattempt, -, hempty, -⟩
  · exact hq
  · rw [← h, hempty] at hattempt
    cases k <;> cases hattempt

theorem Sys.after_gone {q : Queue.Sys} (h : (s.after q).gone = some true) : s.gone = some true := by
  have hgone : (s.after q).gone = if (s.after q).q.recv.attempt.isSome then s.gone else none := by
    unfold Sys.after
    rfl
  rw [hgone] at h
  split_ifs at h
  exact h

/-- An attempt that began after the peer was gone stays one; a wait starts the last one. -/
theorem late_step (hs : s.step K D (.queue a) = some s') (hlate : s'.late = true) :
    s.late = true ∨ (a = .recv .waitGone ∧ s.allows D a = true) := by
  obtain ⟨hallows, q, hstep, rfl⟩ := Sys.step_queue_eq hs
  simp only [Sys.late, decide_eq_true_eq] at hlate ⊢
  rcases hlate with hgone | hlast
  · exact .inl (.inl (Sys.after_gone hgone))
  · rcases s.after_eq q with h | ⟨l, k, -, -, -, h⟩
    · rw [h] at hlast
      rcases Queue.Sys.step_recv_or hstep with ⟨b, x, rfl, hr, -⟩ | ⟨-, heq⟩
      · rcases lastTry_step hr hlast with hold | rfl
        · exact .inl (.inr hold)
        · exact .inr ⟨rfl, hallows⟩
      · exact .inl (.inr (heq ▸ hlast))
    · rw [h, lastTry_finish] at hlast
      cases hlast

/-- While calls start with positive limits, every call has one. -/
theorem positive_step (h : Positive s.q.recv) (ha : ∀ l, a = .recv (.readBatch l) → 0 < l)
    (hs : s.step K D (.queue a) = some s') : Positive s'.q.recv := by
  obtain ⟨-, q, hstep, rfl⟩ := Sys.step_queue_eq hs
  rcases s.after_eq q with hq | ⟨l, k, hattempt, -, -, hq⟩
  · rw [hq]
    rcases Queue.Sys.step_recv_or hstep with ⟨b, x, rfl, hr, -⟩ | ⟨-, heq⟩
    · exact h.step (fun l hl => ha l (by rw [hl])) hr
    · rwa [heq]
  · rw [hq]
    exact positive_finish (h l (limit_of_attempt hattempt)) k 0 _

end GoIpc.Link
