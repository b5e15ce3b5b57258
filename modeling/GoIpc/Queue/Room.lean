import GoIpc.Channel.Pipe
import GoIpc.Lib.Census
import GoIpc.Queue.Frames
import GoIpc.Queue.Recovery

namespace GoIpc.Queue

open GoIpc.Lib
open GoIpc.Ring (Producer ProdAct Shared Reader)
open GoIpc.Channel (Pipe)

/-!
# Senders that wait for room

A sender that finds the ring full counts itself as a waiter, tries once more, and waits for a token
of `notFull`.  The receiver, after it has moved `head`, adds as many tokens as it counts waiters.  The
tokens are anonymous: any waiter may take any of them, also one whose message does not fit.

* `Sender.full` — the senders that have found the ring full and wait, or are on the way there;
* `Recv.behind`, `Recv.owed` — the receiver has moved `head` and has not counted the waiters, or has
  not added their tokens;
* `Inv` — there is a token for every such sender whose message fits by now;
* `no_sender_stranded` — while a sender takes a token only when its own message fits, unless that of
  no other waiter does, none is left behind;
* `token_stolen` — a sender of a long message takes both tokens, that of a short one waits for ever.
-/

variable {K : Config} {s s' : Sys} {w w' : World} {t : Nat}

/-! ### Room -/

/-- The payload size of a message, or of a claim. -/
def Call.length : Call → Nat
  | .write _ payload => payload.length
  | .claim _ length => length.toNat

/-- The cursors of the ring. -/
def World.pipe (w : World) : Pipe := ⟨w.sh.head, w.sh.tail⟩

/-- The `tryClaim` of a call finds room. -/
def World.fits (K : Config) (w : World) (c : Call) : Bool := w.pipe.fits K.cap c.length

/-- A tail that moves takes room away. -/
theorem World.fits_of_tail_le (hhead : w'.sh.head = w.sh.head) (htail : w.sh.tail ≤ w'.sh.tail)
    {c : Call} (h : w'.fits K c = true) : w.fits K c = true := by
  have hmono := Ring.stop_mono K.cap (Ring.align (Ring.recordHeaderSize + c.length)) htail
  rw [World.fits, Pipe.fits, decide_eq_true_eq] at h ⊢
  simp only [World.pipe, Pipe.span] at h ⊢
  omega

/-! ### Waiters -/

/-- The sender is counted as a waiter. -/
def Sender.registered : Sender → Bool
  | .wait _ | .subWaiter .. => true
  | .checkPeer _ k | .takeSlot _ k | .casFree _ k _ | .loadHead _ k | .loadOwner _ k _ _ _
  | .loadAt _ k _ _ _ _ | .loadSize _ k _ _ _ _ _ | .judge _ k _ _ _ _ | .casOwner _ k _ _ _ _
  | .clearAt _ k _ | .addOwned _ k _ | .begin _ k _ | .ring _ k _ | .putSlot _ k _ _
  | .unlinked _ k => k = .again
  | _ => false

/-- The ring operation ends, or has ended, with a full ring. -/
def isFull : Producer → Bool
  | .giveUp _ | .idle (some .full) => true
  | _ => false

/-- The call of a sender that is counted and has found the ring full: it waits for a token, or will
    without another look at `head`. -/
def Sender.full (q : Producer) : Sender → Option Call
  | .ring c .again _ => if isFull q then some c else none
  | .putSlot c .again _ (some .full) | .unlinked c .again | .wait c => some c
  | _ => none

variable {q : Producer} {sh sh' : Shared} {C : Ring.Capacity} {r : Recv}

theorem Sender.registered_of_full {p : Sender} {c : Call} (h : p.full q = some c) : p.registered = true := by
  unfold Sender.full at h
  split at h <;> first | rfl | cases h

/-- What a step of a sender does about waiting. -/
inductive Sender.Parks (w : World) (p p' : Sender) : Access → Prop
  | register (reg : p.registered = false) (reg' : p'.registered = true) :
      Parks w p p' (.wake { w.wake with sendWaiters := w.wake.sendWaiters + 1 })
  | token (c : Call) (pc : p = .wait c) (pc' : p' = .subWaiter c .retry)
      (pending : w.wake.notFull ≠ 0) :
      Parks w p p' (.wake { w.wake with notFull := w.wake.notFull - 1 })
  | retire (reg : p.registered = true) (reg' : p'.registered = false) :
      Parks w p p' (.wake { w.wake with sendWaiters := w.wake.sendWaiters - 1 })
  | signal (reg : p.registered = false) (reg' : p'.registered = false) :
      Parks w p p' (.wake { w.wake with notEmpty := w.wake.notEmpty + 1 })
  | move {x : Access} (acc : ∀ v, x ≠ .wake v) (reg : p'.registered = p.registered) :
      Parks w p p' x

theorem Sender.registered_after (r : Result) : (Sender.after r).registered = false := by
  cases r <;> rfl

theorem Sender.registered_finish (c : Call) (k : Try) (r : Result) :
    (Sender.finish c k r).registered = decide (k = .again) := by
  cases k with
  | again => rfl
  | _ => exact registered_after r

theorem Sender.registered_blocked (c : Call) (k : Try) :
    (Sender.blocked c k).registered = decide (k = .again) := by
  cases k <;> rfl

theorem Sender.registered_nextFree (c : Call) (k : Try) (i : Nat) :
    (Sender.nextFree c k i).registered = decide (k = .again) := by
  unfold Sender.nextFree
  split <;> rfl

theorem Sender.registered_nextOwner (c : Call) (k : Try) (known : List (Nat × Bool))
    (head i : Nat) : (Sender.nextOwner c k known head i).registered = decide (k = .again) := by
  unfold Sender.nextOwner
  split
  · rfl
  · exact registered_finish ..

theorem Sender.registered_afterPut (c : Call) (k : Try) (err : Option Ring.Err) :
    (Sender.afterPut c k err).registered = decide (k = .again) := by
  unfold Sender.afterPut
  split
  · exact registered_finish ..
  · split
    · exact registered_blocked ..
    · rfl
  · exact registered_finish ..

/-- **What a step of a sender does about waiting.** -/
theorem Sender.step_parks {p p' : Sender} {a : SendAct} {x : Access}
    (h : p.step K t w a = some (p', x)) : Sender.Parks w p p' x := by
  cases Sender.step_rule h with
  | addWaiter => exact .register rfl rfl
  | token pending => exact .token _ rfl rfl pending
  | signal => exact .signal rfl rfl
  | result => exact .retire rfl (registered_after _)
  | retry | last => exact .retire rfl rfl
  | peerGone | unlinked | opened => exact .move nofun (registered_finish ..)
  | linked => exact .move nofun (registered_blocked ..)
  | notFree => exact .move nofun (registered_nextFree ..)
  | skipOwner | notPassed | alive | lost => exact .move nofun (registered_nextOwner ..)
  | putSlot => exact .move nofun (registered_afterPut ..)
  | _ => exact .move nofun rfl

/-! ### What a sender has found out -/

/-- The ring operation is for `len` bytes, and the tail it has loaded is not ahead. -/
def Asks (sh : Shared) (len : Nat) : Producer → Prop
  | .loadTail q | .giveUp q => q.length = len
  | .loadCache q tail | .loadHead q tail | .storeCache q tail _ | .storeSize q tail
  | .storeAt q tail | .casTail q tail => q.length = len ∧ tail ≤ sh.tail
  | _ => True

/-- The ring operation of a sender is for its call. -/
def Sender.Asks (sh : Shared) (q : Producer) : Sender → Prop
  | .ring c _ _ => Queue.Asks sh c.length q
  | _ => True

theorem Asks.mono {len : Nat} (h : Asks sh len q) (htail : sh.tail ≤ sh'.tail) : Asks sh' len q := by
  cases q <;> first | exact h | exact ⟨h.1, Nat.le_trans h.2 htail⟩

theorem asks_intent {len : Nat} {q : Ring.Req} {tail : Nat} (hlen : q.length = len) (htail : tail ≤ sh.tail) :
    Asks sh len (Producer.intent q tail) := by
  unfold Producer.intent
  split <;> exact ⟨hlen, htail⟩

theorem asks_start (slot : Option Nat) (typ : Ring.Word) (length : Int) (payload : Option (List UInt8)) :
    Asks sh length.toNat (Producer.start C slot typ length payload) := by
  unfold Producer.start
  split
  · trivial
  · split <;> trivial

/-- A ring operation goes on with what it has asked for. -/
theorem Asks.step {len : Nat} {q' : Producer} (h : Asks sh len q)
    (hs : q.step C t sh .step = some (sh', q')) : Asks sh' len q' := by
  suffices hsame : Asks sh len q' from hsame.mono (Producer.step_tail hs)
  cases Producer.step_rule hs with
  | loadTail => exact ⟨h, le_rfl⟩
  | cached | storeCache => exact asks_intent h.1 h.2
  | overtaken | full | lost => exact h.1
  | loadCache | room | storeSize | noSize | storeAt | noAt => exact h
  | _ => trivial

theorem isFull_start (slot : Option Nat) (typ : Ring.Word) (length : Int) (payload : Option (List UInt8)) :
    isFull (Producer.start C slot typ length payload) = false := by
  unfold Producer.start
  split
  · rfl
  · split <;> rfl

theorem isFull_intent (q : Ring.Req) (tail : Nat) : isFull (Producer.intent q tail) = false := by
  unfold Producer.intent
  split <;> rfl

/-- **An operation that ends with a full ring has seen one**: what it asks for does not fit behind
    the tail it has loaded, and fits no better behind a later one. -/
theorem isFull_step {len : Nat} {q' : Producer} (h : Asks sh len q)
    (hs : q.step C t sh .step = some (sh', q')) (hf : isFull q' = true) :
    isFull q = true ∨ (⟨sh'.head, sh'.tail⟩ : Pipe).fits C len = false := by
  cases Producer.step_rule hs with
  | giveUp => exact .inl rfl
  | @full q tail head full =>
    rw [Ring.hasRoom_iff] at full
    have hmono : tail + q.need C tail ≤ sh.tail + q.need C sh.tail := Ring.stop_mono C q.aligned h.2
    refine .inr (decide_eq_false ?_)
    rw [← h.1]
    show ¬ sh.tail + q.need C sh.tail ≤ sh.head + C.size
    omega
  | cached | storeCache =>
    rw [isFull_intent] at hf
    cases hf
  | _ => cases hf

/-! ### A step of a sender -/

/-- The place tells nothing about the ring: no operation runs, and the ring was not found full. -/
def Sender.apart : Sender → Bool
  | .ring .. | .putSlot .. | .unlinked .. | .wait _ => false
  | _ => true

theorem Sender.apart_after (r : Result) : (Sender.after r).apart = true := by
  cases r <;> rfl

theorem Sender.apart_finish (c : Call) (k : Try) (r : Result) :
    (Sender.finish c k r).apart = true := by
  cases k with
  | again => rfl
  | _ => exact apart_after r

theorem Sender.apart_nextFree (c : Call) (k : Try) (i : Nat) :
    (Sender.nextFree c k i).apart = true := by
  unfold Sender.nextFree
  split <;> rfl

theorem Sender.apart_nextOwner (c : Call) (k : Try) (known : List (Nat × Bool)) (head i : Nat) :
    (Sender.nextOwner c k known head i).apart = true := by
  unfold Sender.nextOwner
  split
  · rfl
  · exact apart_finish ..

/-- What a step of goroutine `t` finds out about room. -/
structure Sender.Learns (K : Config) (t : Nat) (w w' : World) (p p' : Sender) : Prop where
  asks : p'.Asks w'.sh (w'.ring.prods t)
  full : ∀ c, p'.full (w'.ring.prods t) = some c →
    p.full (w.ring.prods t) = some c ∨ w'.fits K c = false

theorem Sender.Learns.of_apart {p p' : Sender} (h : p'.apart = true) :
    Sender.Learns K t w w' p p' := by
  cases p' <;> first | (cases h; done) | exact ⟨trivial, nofun⟩

theorem Sender.step_learns {p p' : Sender} {a : SendAct} {x : Access}
    (hasks : p.Asks w.sh (w.ring.prods t)) (h : p.step K t w a = some (p', x))
    (hx : w.apply K x = some w') : Sender.Learns K t w w' p p' := by
  cases Sender.step_rule h with
  | @begin c k i =>
    -- the ring operation starts
    obtain ⟨q, sh, hst, hq, hsh⟩ := World.apply_prod hx
    have hstart : Queue.Asks sh c.length q ∧ isFull q = false := by
      generalize w.ring.prods t = p at hst
      cases c <;> cases Producer.step_rule hst <;> exact ⟨asks_start .., isFull_start ..⟩
    refine ⟨by rw [hq, hsh]; exact hstart.1, fun c' hc => ?_⟩
    rw [hq] at hc
    cases k <;> simp [Sender.full, hstart.2] at hc
  | @returned c k i err prod =>
    -- the operation has ended
    cases hx
    refine ⟨trivial, fun c' hc => .inl ?_⟩
    rw [prod]
    cases k with
    | again =>
      cases err with
      | none => cases hc
      | some e => cases e <;> exact hc
    | _ => cases hc
  | @ring c k i =>
    obtain ⟨q, sh, hst, hq, hsh⟩ := World.apply_prod hx
    refine ⟨by rw [hq, hsh]; exact Asks.step hasks hst, fun c' hc => ?_⟩
    cases k with
    | again =>
      simp only [Sender.full, Option.ite_none_right_eq_some, Option.some.injEq] at hc ⊢
      obtain ⟨hfull, rfl⟩ := hc
      rw [hq] at hfull
      rcases isFull_step hasks hst hfull with hold | hfits
      · exact .inl ⟨hold, rfl⟩
      · exact .inr (by rw [World.fits, World.pipe, hsh]; exact hfits)
    | _ => cases hc
  | @putSlot c k i err =>
    cases hx
    unfold Sender.afterPut
    split
    · exact .of_apart (apart_finish ..)
    · -- the ring was full
      split
      · next hk =>
        subst hk
        exact .of_apart rfl
      · exact ⟨trivial, fun c' hc => .inl (by cases k <;> exact hc)⟩
    · exact .of_apart (apart_finish ..)
  | @linked c k =>
    cases hx
    cases k with
    | again => exact ⟨trivial, fun c' hc => .inl hc⟩
    | _ => exact .of_apart rfl
  | peerGone | unlinked | opened => exact .of_apart (apart_finish ..)
  | notFree => exact .of_apart (apart_nextFree ..)
  | skipOwner | notPassed | alive | lost => exact .of_apart (apart_nextOwner ..)
  | result => exact .of_apart (apart_after _)
  | _ => exact .of_apart rfl

/-! ### The receiver -/

/-- The receiver has moved `head` and has not counted the waiters since. -/
def Recv.behind (w : World) : Recv → Bool
  | .reading _ _ head | .after _ _ head _ _ => w.sh.head ≠ head
  | .wakeLoad .. => true
  | _ => false

/-- The tokens the receiver is about to add. -/
def Recv.owed : Recv → Nat
  | .wakeSignal _ _ _ _ waiters => waiters
  | _ => 0

/-- `Read` runs with the `head` it has loaded. -/
def FromHead (head : Nat) : Reader → Prop
  | .loadTail _ h => h = head
  | .loadLen r | .loadType r _ | .pass r _ _ | .clear r _ | .storeLen r _ => r.head = head
  | .storeHead r => r.head = head ∧ 0 < r.consumed
  | _ => True

theorem fromHead_finish {r : Ring.Loop} {head : Nat} (h : r.head = head) :
    FromHead head r.finish := by
  unfold Ring.Loop.finish
  split
  · next hpos => exact ⟨h, hpos⟩
  · trivial

theorem fromHead_next {r : Ring.Loop} {head : Nat} (h : r.head = head) : FromHead head r.next := by
  unfold Ring.Loop.next
  split
  · exact h
  · exact fromHead_finish h

/-- A step of `Read` leaves `tail`, and `head` until it ends by moving `head` forward. -/
theorem FromHead.step {q q' : Reader} {a : Ring.ReadAct} (h : FromHead sh.head q)
    (hs : q.step C sh a = some (sh', q')) :
    sh'.tail = sh.tail ∧ ((sh'.head = sh.head ∧ FromHead sh'.head q') ∨
      (sh.head < sh'.head ∧ ∃ last, q' = .idle last)) := by
  cases Reader.step_rule hs with
  | readNone | read | corrupt => exact ⟨rfl, .inl ⟨rfl, trivial⟩⟩
  | loadHead => exact ⟨rfl, .inl ⟨rfl, rfl⟩⟩
  | loadTail | storeLen => exact ⟨rfl, .inl ⟨rfl, fromHead_next h⟩⟩
  | unfinished => exact ⟨rfl, .inl ⟨rfl, fromHead_finish h⟩⟩
  | @storeHead r =>
    refine ⟨rfl, .inr ⟨?_, _, rfl⟩⟩
    show sh.head < r.head + r.consumed
    have := h.1
    have := h.2
    omega
  | _ => exact ⟨rfl, .inl ⟨rfl, h⟩⟩

/-- The receiver outside `receive`. -/
def Recv.outside : Recv → Bool
  | .idle _ | .addWaiter _ | .wait _ | .subWaiter .. => true
  | _ => false

/-- A place between the announcement of freed space and the next `Read`. -/
def Recv.settled : Recv → Bool
  | .reading .. | .after .. | .wakeLoad .. | .wakeSignal .. => false
  | _ => true

theorem Recv.settled_finish (l : Int) (k : Try) (n : Nat) (err : Option QErr) :
    (Recv.finish l k n err).settled = true := by
  cases k <;> rfl

theorem Recv.settled_empty (l : Int) (k : Try) : (Recv.empty l k).settled = true := by
  cases k <;> rfl

theorem Recv.settled_afterRead (l : Int) (k : Try) (n : Nat) (err : Option Ring.Err) :
    (Recv.afterRead l k n err).settled = true := by
  unfold Recv.afterRead
  split
  · exact settled_finish ..
  · rfl

theorem Recv.settled_nextJudge (l : Int) (k : Try) (st : Stall) (j : Judged) (rest : List Nat) :
    (Recv.nextJudge l k st j rest).settled = true := by
  cases rest with
  | cons i rest => rfl
  | nil =>
    simp only [Recv.nextJudge]
    split
    · exact settled_empty ..
    · rfl

theorem Recv.settled_nextSlot (l : Int) (k : Try) (st : Stall) (i : Nat) :
    (Recv.nextSlot l k st i).settled = true := by
  unfold Recv.nextSlot
  split
  · rfl
  · exact settled_nextJudge ..

theorem Recv.settled_nextClear (l : Int) (k : Try) (st : Stall) (j : Judged) (rest : List Nat) :
    (Recv.nextClear l k st j rest).settled = true := by
  cases rest <;> rfl

theorem Recv.owed_of_settled (h : r.settled = true) : r.owed = 0 := by
  cases r <;> first | rfl | cases h

theorem Recv.behind_of_settled (h : r.settled = true) : r.behind w = false := by
  cases r <;> first | rfl | cases h

theorem Recv.settled_of_outside (h : r.outside = true) : r.settled = true := by
  cases r <;> first | rfl | cases h

/-- What a step of the receiver does about the waiters. -/
inductive Recv.Counts (w : World) (r r' : Recv) : Access → Prop
  /-- from one place to another, with the same announcements made -/
  | rest {x : Access} (acc : ∀ a, x ≠ .reader a) (wake : ∀ v, x = .wake v →
        v.sendWaiters = w.wake.sendWaiters ∧ v.notFull = w.wake.notFull)
      (settled : r.settled = true) (settled' : r'.settled = true) : Counts w r r' x
  | begin (l : Int) (k : Try) (pc : r = .before l k) (pc' : r' = .reading l k w.sh.head) :
      Counts w r r' (.reader (.read l))
  | read (l : Int) (k : Try) (head : Nat) (pc : r = .reading l k head)
      (busy : ∀ last, w.ring.reader ≠ .idle (some last)) (pc' : r' = .reading l k head) :
      Counts w r r' (.reader .step)
  | done (l : Int) (k : Try) (head n : Nat) (err : Option Ring.Err) (pc : r = .reading l k head)
      (pc' : r' = .after l k head n err) : Counts w r r' .load
  /-- nothing was consumed -/
  | still (l : Int) (k : Try) (head n : Nat) (err : Option Ring.Err) (pc : r = .after l k head n err)
      (same : w.sh.head = head) (settled' : r'.settled = true) : Counts w r r' .load
  | moved (l : Int) (k : Try) (n : Nat) (err : Option Ring.Err)
      (pc' : r' = .wakeLoad l k n err) : Counts w r r' .load
  | count (l : Int) (k : Try) (n : Nat) (err : Option Ring.Err)
      (pc' : r' = .wakeSignal l k n err w.wake.sendWaiters ∨
        (r'.settled = true ∧ w.wake.sendWaiters = 0)) : Counts w r r' .load
  | signal (l : Int) (k : Try) (n : Nat) (err : Option Ring.Err) (waiters : Nat)
      (pc : r = .wakeSignal l k n err waiters) (settled' : r'.settled = true) :
      Counts w r r' (.wake { w.wake with notFull := w.wake.notFull + waiters })

/-- **What a step of the receiver does about the waiters.** -/
theorem Recv.step_counts {r' : Recv} {a : RecvAct} {x : Access} (h : r.step K w a = some (r', x)) :
    Recv.Counts w r r' x := by
  cases Recv.step_rule h with
  | read => exact .begin _ _ rfl rfl
  | readDone => exact .done _ _ _ _ _ rfl rfl
  | reading busy => exact .read _ _ _ rfl (fun last => busy last.1 last.2) rfl
  | freed => exact .moved _ _ _ _ rfl
  | still same => exact .still _ _ _ _ _ rfl same (settled_afterRead ..)
  | @waiters l k n err => exact .count l k n err (.inl rfl)
  | @noWaiters l k n err quiet => exact .count l k n err (.inr ⟨settled_afterRead .., quiet⟩)
  | signal => exact .signal _ _ _ _ _ rfl (settled_afterRead ..)
  | drained | readable | spared | watch | raced => exact .rest nofun nofun rfl (settled_empty ..)
  | disagree => exact .rest nofun nofun rfl (settled_finish ..)
  | skipSlot | covers | short => exact .rest nofun nofun rfl (settled_nextSlot ..)
  | changed | dead => exact .rest nofun nofun rfl (settled_nextJudge ..)
  | clearAt => exact .rest nofun nofun rfl (settled_nextClear ..)
  | padType =>
    refine .rest nofun nofun rfl ?_
    split
    · exact settled_nextClear ..
    · rfl
  | _ => exact .rest nofun (fun v hv => by cases hv <;> exact ⟨rfl, rfl⟩) rfl rfl

/-! ### The invariant -/

/-- Goroutine `u` has found the ring full, and its message fits by now. -/
def Sys.Due (K : Config) (s : Sys) (u : Nat) : Prop :=
  ∃ c, (s.senders u).full (s.world.ring.prods u) = some c ∧ s.world.fits K c = true

/-- At most `n` senders are due. -/
def Sys.DueAtMost (K : Config) (s : Sys) (n : Nat) : Prop :=
  ∃ S : Finset Nat, (∀ u, s.Due K u → u ∈ S) ∧ S.card ≤ n

structure Waiting (K : Config) (s : Sys) : Prop where
  census : Census (fun u => (s.senders u).registered = true) s.world.wake.sendWaiters
  asks : ∀ u, (s.senders u).Asks s.world.sh (s.world.ring.prods u)
  reader : FromHead s.world.sh.head s.world.ring.reader
  reading : ∀ l k head, s.recv = .reading l k head →
    (∃ last, s.world.ring.reader = .idle last) ∨ s.world.sh.head = head
  tokens : s.recv.behind s.world = false →
    s.DueAtMost K (s.world.wake.notFull + s.recv.owed)

/-- A sender takes a token only when its own message fits, unless no message of a waiter does. -/
def Sys.rightful (K : Config) (s : Sys) : Act → Prop
  | .send t .token => ∀ c, s.senders t = .wait c → s.world.fits K c = true ∨ ∀ u, ¬ s.Due K u
  | _ => True

/-- Fewer senders are due. -/
theorem Sys.DueAtMost.mono {n : Nat} (h : s.DueAtMost K n) (hsub : ∀ u, s'.Due K u → s.Due K u) :
    s'.DueAtMost K n := by
  obtain ⟨S, hS, hcard⟩ := h
  exact ⟨S, fun u hu => hS u (hsub u hu), hcard⟩

theorem Sys.DueAtMost.le {m n : Nat} (h : s.DueAtMost K m) (hle : m ≤ n) : s.DueAtMost K n := by
  obtain ⟨S, hS, hcard⟩ := h
  exact ⟨S, hS, hcard.trans hle⟩

/-- One sender is due no more. -/
theorem Sys.DueAtMost.erase {n : Nat} (h : s.DueAtMost K n) (ht : s.Due K t)
    (hsub : ∀ u, s'.Due K u → s.Due K u ∧ u ≠ t) : s'.DueAtMost K (n - 1) := by
  obtain ⟨S, hS, hcard⟩ := h
  refine ⟨S.erase t, fun u hu => ?_, ?_⟩
  · obtain ⟨hdue, hne⟩ := hsub u hu
    exact Finset.mem_erase.mpr ⟨hne, hS u hdue⟩
  · rw [Finset.card_erase_of_mem (hS t ht)]
    omega

namespace Waiting

theorem start : Waiting K Sys.start where
  census := .empty nofun
  asks _ := trivial
  reader := trivial
  reading _ _ _ h := by cases h
  tokens _ := ⟨∅, fun _ ⟨_, hc, _⟩ => (by cases hc), Nat.zero_le _⟩

/-- Every sender that is due is counted. -/
theorem due_le (h : Waiting K s) : s.DueAtMost K s.world.wake.sendWaiters := by
  obtain ⟨S, hS, hcard⟩ := h.census
  refine ⟨S, fun u ⟨c, hc, _⟩ => (hS u).mp (Sender.registered_of_full hc), ?_⟩
  omega

/-- A step that moves neither sender nor receiver and leaves the ring operations, the cursors and
    the announcements alone. -/
theorem same (h : Waiting K s) (hsenders : s'.senders = s.senders) (hrecv : s'.recv = s.recv)
    (hprods : s'.world.ring.prods = s.world.ring.prods)
    (hreader : s'.world.ring.reader = s.world.ring.reader)
    (hhead : s'.world.sh.head = s.world.sh.head) (htail : s'.world.sh.tail = s.world.sh.tail)
    (hwaiters : s'.world.wake.sendWaiters = s.world.wake.sendWaiters)
    (htokens : s'.world.wake.notFull = s.world.wake.notFull) : Waiting K s' where
  census := by rw [hsenders, hwaiters]; exact h.census
  asks u := by
    rw [hsenders, hprods]
    cases hp : s.senders u with
    | ring c k i => exact Asks.mono (by have := h.asks u; rwa [hp] at this) htail.ge
    | _ => trivial
  reader := by rw [hreader, hhead]; exact h.reader
  reading := by rw [hrecv, hreader, hhead]; exact h.reading
  tokens hb := by
    rw [hrecv, htokens]
    refine (h.tokens ?_).mono ?_
    · rw [← hb, hrecv]
      cases s.recv <;> first | rfl | (unfold Recv.behind; rw [hhead])
    · rintro u ⟨c, hc, hfits⟩
      rw [hsenders, hprods] at hc
      exact ⟨c, hc, World.fits_of_tail_le hhead htail.ge hfits⟩

/-- The waiters after a step of goroutine `t`. -/
theorem census_update (h : Waiting K s) {x : Access} {w : World}
    (hother : ∀ v, v ≠ t → s'.senders v = s.senders v)
    (hp : Sender.Parks s.world (s.senders t) (s'.senders t) x) (hx : s.world.apply K x = some w) :
    Census (fun v => (s'.senders v).registered = true) w.wake.sendWaiters := by
  have hothers : ∀ v, v ≠ t → ((s'.senders v).registered = true ↔
      (s.senders v).registered = true) := fun v hv => by rw [hother v hv]
  -- nobody comes and nobody goes
  have hsame : (s'.senders t).registered = (s.senders t).registered →
      Census (fun v => (s'.senders v).registered = true) s.world.wake.sendWaiters := by
    intro hreg
    refine h.census.congr fun v => ?_
    by_cases hv : v = t
    · rw [hv, hreg]
    · exact hothers v hv
  cases hp with
  | register reg reg' =>
    cases hx
    push_cast
    exact h.census.come (i := t) (by simp [reg]) reg' hothers
  | token c pc pc' pending =>
    cases hx
    exact hsame (by rw [pc, pc']; rfl)
  | retire reg reg' =>
    have hgone := h.census.go (q := fun v => (s'.senders v).registered = true) (i := t) reg
      (by rw [reg']; simp) hothers
    have hpos : (0 : Int) < s.world.wake.sendWaiters := by
      by_contra hle
      exact h.census.none_of_le (by omega) t reg
    cases hx
    simpa [Nat.cast_sub (show 1 ≤ s.world.wake.sendWaiters by omega)] using hgone
  | signal reg reg' =>
    cases hx
    exact hsame (by rw [reg, reg'])
  | move acc reg =>
    rw [(World.apply_wake acc hx).1]
    exact hsame reg

/-- What the senders ask for survives a tail that moves. -/
theorem asks_other (h : Waiting K s) {v : Nat} (hsender : s'.senders v = s.senders v)
    (hprod : s'.world.ring.prods v = s.world.ring.prods v)
    (htail : s.world.sh.tail ≤ s'.world.sh.tail) :
    (s'.senders v).Asks s'.world.sh (s'.world.ring.prods v) := by
  have hasks := h.asks v
  rw [hsender, hprod]
  cases hp : s.senders v with
  | ring c k i =>
    rw [hp] at hasks
    exact Asks.mono hasks htail
  | _ => trivial

theorem behind_of_head (hhead : w'.sh.head = w.sh.head) : r.behind w' = r.behind w := by
  cases r <;> first | rfl | (unfold Recv.behind; rw [hhead])

/-- **A step of a sender**, rightful if it takes a token. -/
theorem step_send (h : Waiting K s) {a : SendAct} (hok : s.rightful K (.send t a))
    (hs : s.step K (.send t a) = some s') : Waiting K s' := by
  obtain ⟨-, u, x, w, hu, hx, hs'⟩ := Sys.step_send_eq hs
  have hworld : w = s'.world := by rw [hs']
  have hrecv : s'.recv = s.recv := by rw [hs']
  have hself : u = s'.senders t := by rw [hs']; exact (Function.update_self t u s.senders).symm
  have hother : ∀ v, v ≠ t → s'.senders v = s.senders v := fun v hv => by
    rw [hs']
    exact Function.update_of_ne hv ..
  clear hs'
  subst hworld hself
  obtain ⟨hnr, hnp, -⟩ := Sender.step_access hu
  obtain ⟨hhead, htail⟩ := World.apply_cursors hnr hx
  have hparks := Sender.step_parks hu
  have hlearns := Sender.step_learns (h.asks t) hu hx
  have hprods : ∀ v, v ≠ t → s'.world.ring.prods v = s.world.ring.prods v :=
    fun v hv => World.apply_prods (fun b => hnp v b hv) hx
  -- a sender due after the step was due before it
  have hdue : ∀ v, s'.Due K v → s.Due K v := by
    rintro v ⟨c, hc, hfits⟩
    refine ⟨c, ?_, World.fits_of_tail_le hhead htail hfits⟩
    by_cases hv : v = t
    · subst hv
      rcases hlearns.full c hc with hold | hnot
      · exact hold
      · rw [hnot] at hfits
        cases hfits
    · rwa [hother v hv, hprods v hv] at hc
  refine ⟨h.census_update hother hparks hx, fun v => ?_, ?_, ?_, fun hb => ?_⟩
  · by_cases hv : v = t
    · rw [hv]
      exact hlearns.asks
    · exact h.asks_other (hother v hv) (hprods v hv) htail
  · rw [World.apply_reader hnr hx, hhead]
    exact h.reader
  · rw [hrecv, World.apply_reader hnr hx, hhead]
    exact h.reading
  · rw [hrecv] at hb ⊢
    have hmost := h.tokens ((behind_of_head hhead).symm.trans hb)
    cases hparks with
    | token c pc pc' pending =>
      obtain rfl : a = .token := by
        rw [pc, pc'] at hu
        cases a <;> first | rfl | cases hu
      have htokens : s'.world.wake.notFull = s.world.wake.notFull - 1 := by
        rw [← Option.some.inj hx]
      rw [htokens]
      rcases hok c pc with hfits | hnone
      · -- the taker was due
        have hless := hmost.erase (t := t) ⟨c, pc ▸ rfl, hfits⟩ fun v hv =>
          ⟨hdue v hv, fun hvt => by
            obtain ⟨c', hc', -⟩ := hv
            rw [hvt, pc'] at hc'
            cases hc'⟩
        rwa [Nat.sub_add_comm (by omega)] at hless
      · exact ⟨∅, fun v hv => absurd (hdue v hv) (hnone v), Nat.zero_le _⟩
    | register _ _ | retire _ _ | signal _ _ =>
      rw [← Option.some.inj hx]
      exact hmost.mono hdue
    | move acc _ =>
      rw [(World.apply_wake acc hx).2]
      exact hmost.mono hdue

/-- **A step of the receiver.** -/
theorem step_recv (h : Waiting K s) {a : RecvAct} (hs : s.step K (.recv a) = some s') :
    Waiting K s' := by
  obtain ⟨r, x, w, hr, hx, hs'⟩ := Sys.step_recv_eq hs
  have hworld : w = s'.world := by rw [hs']
  have hrecv : r = s'.recv := by rw [hs']
  have hsenders : s'.senders = s.senders := by rw [hs']
  clear hs'
  subst hworld hrecv
  have hprods : s'.world.ring.prods = s.world.ring.prods :=
    funext fun v => World.apply_prods (Recv.step_access hr v) hx
  -- while `head` stands still, nobody becomes due
  have hdue : s'.world.sh.head = s.world.sh.head → s.world.sh.tail ≤ s'.world.sh.tail →
      ∀ v, s'.Due K v → s.Due K v := by
    rintro hhead htail v ⟨c, hc, hfits⟩
    rw [hsenders, hprods] at hc
    exact ⟨c, hc, World.fits_of_tail_le hhead htail hfits⟩
  -- what a step outside `Read` keeps
  have houtside : (∀ b, x ≠ .reader b) →
      s'.world.wake.sendWaiters = s.world.wake.sendWaiters →
      (∀ l k head, s'.recv = .reading l k head → s.recv = .reading l k head) →
      (s'.recv.behind s'.world = false → s'.DueAtMost K (s'.world.wake.notFull + s'.recv.owed)) →
      Waiting K s' := by
    intro hnr hwaiters hreading htokens
    obtain ⟨hhead, htail⟩ := World.apply_cursors hnr hx
    refine ⟨?_, fun v => ?_, ?_, fun l k head hpc => ?_, htokens⟩
    · rw [hsenders, hwaiters]
      exact h.census
    · exact h.asks_other (congrFun hsenders v) (congrFun hprods v) htail
    · rw [World.apply_reader hnr hx, hhead]
      exact h.reader
    · rw [World.apply_reader hnr hx, hhead]
      exact h.reading l k head (hreading l k head hpc)
  -- a step of `Read` moves `head` at its end, and then the waiters are still to be counted
  have hinside : ∀ b l k, x = .reader b → s'.recv = .reading l k s.world.sh.head →
      s.recv.behind s.world = false → s.recv.owed = 0 → Waiting K s' := by
    rintro b l k rfl hpc hbehind howed
    obtain ⟨q, sh, hst, hq, hsh, hwake⟩ := World.apply_read hx
    obtain ⟨htail, hhead⟩ := h.reader.step hst
    rw [← hsh] at htail hhead
    rw [← hq] at hhead
    refine ⟨?_, fun v => h.asks_other (congrFun hsenders v) (congrFun hprods v) htail.ge, ?_,
      fun l' k' head hpc' => ?_, fun hb => ?_⟩
    · rw [hsenders, hwake]
      exact h.census
    · rcases hhead with ⟨-, hfrom⟩ | ⟨-, last, hidle⟩
      · exact hfrom
      · rw [hidle]
        trivial
    · rw [hpc] at hpc'
      cases hpc'
      rcases hhead with ⟨heq, -⟩ | ⟨-, hidle⟩
      · exact .inr heq
      · exact .inl hidle
    · rw [hpc] at hb ⊢
      rcases hhead with ⟨heq, -⟩ | ⟨hlt, -⟩
      · have hmost := h.tokens hbehind
        rw [howed] at hmost
        rw [hwake]
        exact hmost.mono (hdue heq htail.ge)
      · simp only [Recv.behind, ne_eq, decide_not, Bool.not_eq_false', decide_eq_true_eq] at hb
        omega
  cases Recv.step_counts hr with
  | rest acc wake settled settled' =>
    have hwake : s'.world.wake.sendWaiters = s.world.wake.sendWaiters ∧
        s'.world.wake.notFull = s.world.wake.notFull := by
      by_cases hv : ∃ v, x = .wake v
      · obtain ⟨v, rfl⟩ := hv
        rw [← Option.some.inj hx]
        exact wake v rfl
      · exact World.apply_wake (fun v hxv => hv ⟨v, hxv⟩) hx
    obtain ⟨hhead, htail⟩ := World.apply_cursors acc hx
    refine houtside acc hwake.1 (fun l k head hpc => by rw [hpc] at settled'; cases settled') ?_
    intro _
    have hmost := h.tokens (Recv.behind_of_settled settled)
    rw [Recv.owed_of_settled settled] at hmost
    rw [Recv.owed_of_settled settled', hwake.2]
    exact hmost.mono (hdue hhead htail)
  | begin l k pc pc' => exact hinside _ l k rfl pc' (pc ▸ rfl) (pc ▸ rfl)
  | read l k head pc busy pc' =>
    obtain ⟨q, sh, hst, -, -, -⟩ := World.apply_read hx
    have hhead : s.world.sh.head = head := by
      rcases h.reading l k head pc with ⟨last, hidle⟩ | heq
      · rw [hidle] at hst
        cases hst
      · exact heq
    subst hhead
    exact hinside _ l k rfl pc' (by rw [pc]; simp [Recv.behind]) (pc ▸ rfl)
  | done l k head n err pc pc' =>
    have hw : s'.world = s.world := (Option.some.inj hx).symm
    refine houtside nofun (by rw [hw]) (fun l' k' head' hpc => by rw [pc'] at hpc; cases hpc)
      fun hb => ?_
    have hmost := h.tokens (by rw [pc]; rw [pc', hw] at hb; exact hb)
    rw [pc] at hmost
    rw [pc', hw]
    exact hmost.mono (hdue (by rw [hw]) (by rw [hw]))
  | still l k head n err pc same settled' =>
    have hw : s'.world = s.world := (Option.some.inj hx).symm
    refine houtside nofun (by rw [hw])
      (fun l' k' head' hpc => by rw [hpc] at settled'; cases settled') fun _ => ?_
    have hmost := h.tokens (by rw [pc]; simp [Recv.behind, same])
    rw [pc] at hmost
    rw [Recv.owed_of_settled settled', hw]
    exact hmost.mono (hdue (by rw [hw]) (by rw [hw]))
  | moved l k n err pc' =>
    have hw : s'.world = s.world := (Option.some.inj hx).symm
    refine houtside nofun (by rw [hw]) (fun l' k' head' hpc => by rw [pc'] at hpc; cases hpc)
      fun hb => ?_
    rw [pc'] at hb
    cases hb
  | count l k n err pc' =>
    have hw : s'.world = s.world := (Option.some.inj hx).symm
    have hmost := h.due_le.mono (hdue (by rw [hw]) (by rw [hw]))
    rcases pc' with pc' | ⟨settled', hnone⟩
    · refine houtside nofun (by rw [hw]) (fun l' k' head' hpc => by rw [pc'] at hpc; cases hpc)
        fun _ => ?_
      rw [pc', hw]
      exact hmost.le (Nat.le_add_left _ _)
    · refine houtside nofun (by rw [hw])
        (fun l' k' head' hpc => by rw [hpc] at settled'; cases settled') fun _ => ?_
      exact hmost.le (by rw [hnone]; exact Nat.zero_le _)
  | signal l k n err waiters pc settled' =>
    have hw : _ = s'.world := Option.some.inj hx
    have hmost := h.tokens (pc ▸ rfl)
    rw [pc] at hmost
    refine houtside nofun (by rw [← hw]) (fun l' k' head' hpc => by rw [hpc] at settled'; cases settled')
      fun _ => ?_
    rw [Recv.owed_of_settled settled', ← hw]
    exact hmost.mono (hdue (by rw [← hw]; rfl) (by rw [← hw]; rfl))

theorem step (h : Waiting K s) {a : Act} (hok : s.rightful K a) (hs : s.step K a = some s') :
    Waiting K s' := by
  cases a with
  | send t a => exact h.step_send hok hs
  | recv a => exact h.step_recv hs
  | close i =>
    simp only [Sys.step] at hs
    split at hs <;> cases hs
    exact h.same rfl rfl rfl rfl rfl rfl rfl rfl
  | drop i =>
    obtain ⟨-, c, x, w, hc, hx, rfl⟩ := Sys.step_drop_eq hs
    have hquiet : (x = .load) ∨ (∃ j, x = .clearAt j) ∨ ∃ j o, x = .setOwner j o := by
      unfold Closer.step at hc
      split at hc
      · cases hc
        exact .inr (.inl ⟨_, rfl⟩)
      · split at hc <;> cases hc
        · exact .inr (.inr ⟨_, _, rfl⟩)
        · exact .inl rfl
      · cases hc
    rcases hquiet with rfl | ⟨j, rfl⟩ | ⟨j, o, rfl⟩ <;> cases hx <;>
      exact h.same rfl rfl rfl rfl rfl rfl rfl rfl
  | die id =>
    simp only [Sys.step] at hs
    split at hs <;> cases hs
    refine h.same rfl rfl rfl rfl rfl rfl ?_ ?_ <;>
    · simp only [World.die]
      split <;> rfl

end Waiting

/-! ### The result -/

/-- Goroutine `t` waits for room that is there, no token is on its way, and everybody else is idle or
    waits too. -/
structure Sys.Stranded (K : Config) (s : Sys) (t : Nat) : Prop where
  waits : ∃ c, s.senders t = .wait c ∧ s.world.fits K c = true
  tokens : s.world.wake.notFull = 0
  outside : s.recv.outside = true
  others : ∀ u, u ≠ t → (∃ last, s.senders u = .idle last) ∨ ∃ c, s.senders u = .wait c

/-- **No sender is left behind** while every token goes to a sender whose message fits, if there is
    one. -/
theorem no_sender_stranded (h : (machine K).Reach (fun s a => s.rightful K a) s) (t : Nat) :
    ¬ s.Stranded K t := by
  rintro ⟨⟨c, hwait, hfits⟩, htokens, houtside, -⟩
  have hinv : Waiting K s := h.invariant .start fun _ _ _ hi hok hs => hi.step hok hs
  have hsettled := Recv.settled_of_outside houtside
  obtain ⟨S, hS, hcard⟩ := hinv.tokens (Recv.behind_of_settled hsettled)
  rw [htokens, Recv.owed_of_settled hsettled] at hcard
  have hmem : t ∈ S := hS t ⟨c, hwait ▸ rfl, hfits⟩
  rw [Finset.card_eq_zero.mp (Nat.le_zero.mp hcard)] at hmem
  cases hmem

/-! ### Runs to show -/

/-- Goroutine `t` opens a claim in `n` steps and commits it in three. -/
def filled (t : Nat) (length : Int) (n : Nat) : List Act :=
  [Act.send t (.claim 0 length)] ++ steps t n ++ [Act.send t .commit] ++ steps t 3

/-- Three messages fill the ring.  Goroutine 2 waits to claim 2040 bytes and goroutine 3 to claim 8;
    then the receiver takes the first message, of 8 bytes. -/
def parked : List Act :=
  filled 0 8 14 ++ filled 0 2040 11 ++ filled 0 2024 11 ++
  [Act.send 2 (.claim 0 2040)] ++ steps 2 25 ++ [Act.send 3 (.claim 0 8)] ++ steps 3 26 ++
  [Act.recv (.readBatch 1)] ++ recvs 13

/-- A token taken by a sender whose message fits. -/
def fitting (K : Config) (s : Sys) : Act → Bool
  | .send t .token =>
      match s.senders t with
      | .wait c => s.world.fits K c
      | _ => true
  | _ => true

/-- The sender of the short message takes a token and gets its claim; the other goes on waiting. -/
theorem no_sender_stranded_parked : ∃ s, (machine pair).Reach (fun s a => s.rightful pair a) s ∧
    s.senders 2 = .wait (.claim 0 2040) ∧ s.senders 3 = .held 2 ∧ ¬ s.Stranded pair 2 := by
  have hrun : ((machine pair).runOk (fitting pair) (machine pair).init
      (parked ++ [.send 3 .token] ++ steps 3 14)).map (fun s => (s.senders 2, s.senders 3)) =
      some (.wait (.claim 0 2040), .held 2) := by
    decide +kernel
  have hright : ∀ s a, fitting pair s a = true → s.rightful pair a := by
    intro s a h
    unfold Sys.rightful
    split
    · intro c hc
      simp only [fitting, hc] at h
      exact .inl h
    · trivial
  obtain ⟨s, hs, hobs⟩ := Machine.Reach.exists_of_runOk hright hrun
  simp only [Prod.mk.injEq] at hobs
  exact ⟨s, hs, hobs.1, hobs.2, no_sender_stranded hs 2⟩

/-- Nobody dies, closes a handle, cancels a wait or finds the receiver gone. -/
def Act.undisturbed : Act → Bool
  | .send _ .peerGone | .send _ .cancel | .send _ .waitGone | .recv .cancel | .recv .waitGone
  | .close _ | .drop _ | .die _ => false
  | _ => true

/-- A goroutine stands still in the steps of the others. -/
theorem Sys.senders_of_step {u : Nat} {a : Act} (hs : s.step K a = some s')
    (hu : ∀ b, a ≠ .send u b) : s'.senders u = s.senders u := by
  cases a with
  | send t b =>
    obtain ⟨-, p, x, w, -, -, rfl⟩ := Sys.step_send_eq hs
    exact Function.update_of_ne (fun hut => hu b (by rw [hut])) ..
  | recv b =>
    obtain ⟨r, x, w, -, -, rfl⟩ := Sys.step_recv_eq hs
    rfl
  | drop i =>
    obtain ⟨-, c, x, w, -, -, rfl⟩ := Sys.step_drop_eq hs
    rfl
  | close i =>
    simp only [Sys.step] at hs
    split at hs <;> cases hs
    rfl
  | die id =>
    simp only [Sys.step] at hs
    split at hs <;> cases hs
    rfl

/-- Only these goroutines send. -/
def Act.among (ts : List Nat) : Act → Bool
  | .send t _ => ts.contains t
  | _ => true

/-- The goroutine of the long message takes both tokens, and the one of the short message waits. -/
def stolen : List Act :=
  parked ++ [Act.send 2 .token] ++ steps 2 22 ++ [Act.send 2 .token] ++ steps 2 22

/-- What the run leaves. -/
def stolenShows (s : Sys) : Bool :=
  s.senders 3 = .wait (.claim 0 8) ∧ s.world.fits pair (.claim 0 8) = true ∧
    s.world.wake.notFull = 0 ∧ s.recv.outside = true ∧ s.senders 0 = .idle none ∧
    s.senders 2 = .wait (.claim 0 2040)

/-- **Tokens are anonymous.**  A sender that still does not fit takes the token of one that does. -/
theorem token_stolen : ∃ s, (machine pair).Reach (fun _ a => a.undisturbed = true) s ∧
    s.Stranded pair 3 := by
  have hrun : ((machine pair).runOk (fun _ a => a.undisturbed && a.among [0, 2, 3])
      (machine pair).init stolen).map stolenShows = some true := by
    decide +kernel
  have hreach : ∃ s, (machine pair).Reach
      (fun _ a => a.undisturbed = true ∧ a.among [0, 2, 3] = true) s ∧ stolenShows s = true :=
    Machine.Reach.exists_of_runOk (fun _ _ h => by simpa using h) hrun
  obtain ⟨s, hs, hobs⟩ := hreach
  obtain ⟨hwait, hfits, htokens, houtside, hzero, htwo⟩ := of_decide_eq_true hobs
  -- the other goroutines have made no step
  have hidle : ∀ u, u ∉ [0, 2, 3] → s.senders u = .idle none := by
    intro u hu
    refine hs.invariant (I := fun s => s.senders u = .idle none) rfl ?_
    intro s s' a hi hok hstep
    refine (Sys.senders_of_step hstep ?_).trans hi
    rintro b rfl
    exact hu (by simpa [Act.among] using hok.2)
  refine ⟨s, hs.mono fun _ _ h => h.1, ⟨_, hwait, hfits⟩, htokens, houtside, fun u hu => ?_⟩
  by_cases hmem : u ∈ [0, 2, 3]
  · simp only [List.mem_cons, List.not_mem_nil, or_false] at hmem
    rcases hmem with rfl | rfl | rfl
    · exact .inl ⟨_, hzero⟩
    · exact .inr ⟨_, htwo⟩
    · exact absurd rfl hu
  · exact .inl ⟨_, hidle u hmem⟩

end GoIpc.Queue
