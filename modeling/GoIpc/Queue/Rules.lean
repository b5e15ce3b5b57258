import GoIpc.Queue.Machine

namespace GoIpc.Queue

open GoIpc.Ring (claimSlots noIntent)

/-!
# The steps of the queue as rules

`Sender.step` and `Recv.step` compute the next place of a goroutine and its access.  Here the same steps
stand as relations with one rule for each branch, which carries the condition under which the code takes
it.  A proof about every step of a party goes by cases on the rule.
-/

variable (K : Config) (t : Nat) (w : World)

/-! ### Senders -/

/-- The steps of sending goroutine `t`. -/
inductive Sender.Step : Sender → SendAct → Sender → Access → Prop
  | trySend {last typ payload} : Step (.idle last) (.trySend typ payload)
      (.checkPeer (.write typ payload) .once) .load
  | send {last typ payload} : Step (.idle last) (.send typ payload)
      (.checkPeer (.write typ payload) .first) .load
  | claim {last typ length} : Step (.idle last) (.claim typ length)
      (.checkPeer (.claim typ length) .first) .load
  | checked {c k} : Step (.checkPeer c k) .step (.takeSlot c k) .load
  | peerGone {c k} : Step (.checkPeer c k) .peerGone (finish c k (.fail .peerGone)) .load
  /-- `takeSlot` finds an idle slot of the handle -/
  | pop {c k i rest} (idle : (w.pools (K.home t)).idle = i :: rest) :
      Step (.takeSlot c k) .step (.begin c k i)
        (.pool (K.home t) { w.pools (K.home t) with idle := rest })
  | noIdle {c k} : Step (.takeSlot c k) .step (.casFree c k 0) .load
  /-- `acquireSlot` takes a slot of nobody -/
  | free {c k i} (owner : (w.sh.slots i).owner = noProc) :
      Step (.casFree c k i) .step (.clearAt c k i) (.setOwner i (K.proc t))
  | notFree {c k i} : Step (.casFree c k i) .step (nextFree c k i) .load
  | loadHead {c k} : Step (.loadHead c k) .step (.loadOwner c k [] w.sh.head 0) .load
  | skipOwner {c k known head i} :
      Step (.loadOwner c k known head i) .step (nextOwner c k known head i) .load
  | loadOwner {c k known head i} (some : (w.sh.slots i).owner ≠ noProc)
      (other : (w.sh.slots i).owner ≠ K.proc t) : Step (.loadOwner c k known head i) .step
        (.loadAt c k known head i (w.sh.slots i).owner) .load
  | noClaim {c k known head i owner} :
      Step (.loadAt c k known head i owner) .step (.judge c k known head i owner) .load
  | loadAt {c k known head i owner} : Step (.loadAt c k known head i owner) .step
      (.loadSize c k known head i owner (w.sh.slots i).cursor) .load
  | notPassed {c k known head i owner cursor} :
      Step (.loadSize c k known head i owner cursor) .step (nextOwner c k known head i) .load
  | loadSize {c k known head i owner cursor} : Step (.loadSize c k known head i owner cursor)
      .step (.judge c k known head i owner) .load
  | dead {c k known head i owner}
      (dead : (known.lookup owner).getD (w.isDead owner) = true) :
      Step (.judge c k known head i owner) .step
        (.casOwner c k ((owner, (known.lookup owner).getD (w.isDead owner)) :: known) head i owner)
        .load
  | alive {c k known head i owner} : Step (.judge c k known head i owner) .step
      (nextOwner c k ((owner, (known.lookup owner).getD (w.isDead owner)) :: known) head i) .load
  /-- `acquireSlot` takes over a slot of a dead process -/
  | takeOver {c k known head i owner} (same : (w.sh.slots i).owner = owner) :
      Step (.casOwner c k known head i owner) .step (.clearAt c k i)
        (.setOwner i (K.proc t))
  | lost {c k known head i owner} :
      Step (.casOwner c k known head i owner) .step (nextOwner c k known head i) .load
  | clearAt {c k i} : Step (.clearAt c k i) .step (.addOwned c k i) (.clearAt i)
  | addOwned {c k i} : Step (.addOwned c k i) .step (.begin c k i)
      (.pool (K.home t) { w.pools (K.home t) with owned := i :: (w.pools (K.home t)).owned })
  | begin {c k i} : Step (.begin c k i) .step (.ring c k i) (.prod t (c.act i))
  /-- the ring operation has returned -/
  | returned {c k i err} (prod : w.ring.prods t = .idle err) :
      Step (.ring c k i) .step (.putSlot c k i err) .load
  /-- the ring operation has opened a claim -/
  | opened {c k i claim} (prod : w.ring.prods t = .held claim) :
      Step (.ring c k i) .step (finish c k (.opened i)) .load
  | ring {c k i} (busy : ∀ err, w.ring.prods t ≠ .idle err)
      (closed : ∀ claim, w.ring.prods t ≠ .held claim) :
      Step (.ring c k i) .step (.ring c k i) (.prod t .step)
  | putSlot {c k i err} : Step (.putSlot c k i err) .step (afterPut c k err)
      (.pool (K.home t) { w.pools (K.home t) with idle := i :: (w.pools (K.home t)).idle })
  | linked {c k} : Step (.unlinked c k) .step (blocked c k) .load
  | unlinked {c k} : Step (.unlinked c k) .peerGone (finish c k (.fail .peerGone)) .load
  | addWaiter {c} : Step (.addWaiter c) .step (.checkPeer c .again)
      (.wake { w.wake with sendWaiters := w.wake.sendWaiters + 1 })
  | token {c} (pending : w.wake.notFull ≠ 0) : Step (.wait c) .token (.subWaiter c .retry)
      (.wake { w.wake with notFull := w.wake.notFull - 1 })
  | cancel {c} : Step (.wait c) .cancel (.subWaiter c (.done (.fail .ctx))) .load
  | waitGone {c} : Step (.wait c) .waitGone (.subWaiter c .last) .load
  | result {c r} : Step (.subWaiter c (.done r)) .step (after r)
      (.wake { w.wake with sendWaiters := w.wake.sendWaiters - 1 })
  | retry {c} : Step (.subWaiter c .retry) .step (.checkPeer c .first)
      (.wake { w.wake with sendWaiters := w.wake.sendWaiters - 1 })
  | last {c} : Step (.subWaiter c .last) .step (.checkPeer c .last)
      (.wake { w.wake with sendWaiters := w.wake.sendWaiters - 1 })
  | put {i off b} : Step (.held i) (.put off b) (.held i) (.prod t (.put off b))
  | commit {i} : Step (.held i) .commit (.finishing i) (.prod t .commit)
  | abort {i} : Step (.held i) .abort (.finishing i) (.prod t .abort)
  | finished {i err} (prod : w.ring.prods t = .idle err) : Step (.finishing i) .step .wakeLoad
      (.pool (K.home t) { w.pools (K.home t) with idle := i :: (w.pools (K.home t)).idle })
  | finishing {i} (busy : ∀ err, w.ring.prods t ≠ .idle err) :
      Step (.finishing i) .step (.finishing i) (.prod t .step)
  | waiters (waits : w.wake.recvWaiters > 0) : Step .wakeLoad .step .wakeSignal .load
  | noWaiters (quiet : ¬ w.wake.recvWaiters > 0) : Step .wakeLoad .step (.idle none) .load
  | signal : Step .wakeSignal .step (.idle none)
      (.wake { w.wake with notEmpty := w.wake.notEmpty + 1 })

variable {K t w}

/-- Every step of a sender is by one of the rules. -/
theorem Sender.step_rule {p p' : Sender} {a : SendAct} {x : Access}
    (h : p.step K t w a = some (p', x)) : Sender.Step K t w p a p' x := by
  cases p <;> cases a <;> simp only [Sender.step] at h <;>
    first | (cases h; done) | (cases h; constructor) | skip
  case takeSlot.step c k =>
    split at h <;> cases h
    · exact .pop ‹_›
    · exact .noIdle
  case casFree.step | casOwner.step =>
    split at h <;> cases h <;> constructor
    assumption
  case loadOwner.step =>
    split at h <;> cases h
    · exact .skipOwner
    · next hne => exact .loadOwner (fun h => hne (.inl h)) fun h => hne (.inr h)
  case loadAt.step | loadSize.step => split at h <;> cases h <;> constructor
  case judge.step =>
    split at h <;> cases h
    · exact .dead ‹_›
    · exact .alive
  case ring.step =>
    split at h <;> cases h
    · exact .returned ‹_›
    · exact .opened ‹_›
    · exact .ring ‹_› ‹_›
  case wait.token =>
    split at h <;> cases h
    exact .token ‹_›
  case subWaiter.step c n => cases n <;> cases h <;> constructor
  case finishing.step =>
    split at h <;> cases h
    · exact .finished ‹_›
    · exact .finishing ‹_›
  case wakeLoad.step =>
    split at h <;> cases h
    · exact .waiters ‹_›
    · exact .noWaiters ‹_›

/-! ### The receiver -/

variable (K w)

/-- The steps of the receiver. -/
inductive Recv.Step : Recv → RecvAct → Recv → Access → Prop
  | readBatch {last l} : Step (.idle last) (.readBatch l) (.before l .first) .load
  | tryRecv {last} : Step (.idle last) .tryRecv (.before 1 .once) .load
  | read {l k} : Step (.before l k) .step (.reading l k w.sh.head) (.reader (.read l))
  | readDone {l k head n err} (done : w.ring.reader = .idle (some (n, err))) :
      Step (.reading l k head) .step (.after l k head n err) .load
  | reading {l k head} (busy : ∀ n err, w.ring.reader ≠ .idle (some (n, err))) :
      Step (.reading l k head) .step (.reading l k head) (.reader .step)
  /-- `Read` has freed space -/
  | freed {l k head n err} : Step (.after l k head n err) .step (.wakeLoad l k n err) .load
  | still {l k head n err} (same : w.sh.head = head) :
      Step (.after l k head n err) .step (afterRead l k n err) .load
  | waiters {l k n err} : Step (.wakeLoad l k n err) .step
      (.wakeSignal l k n err w.wake.sendWaiters) .load
  | noWaiters {l k n err} (quiet : w.wake.sendWaiters = 0) :
      Step (.wakeLoad l k n err) .step (afterRead l k n err) .load
  | signal {l k n err waiters} : Step (.wakeSignal l k n err waiters) .step
      (afterRead l k n err) (.wake { w.wake with notFull := w.wake.notFull + waiters })
  | stallHead {l k} : Step (.stallHead l k) .step (.stallTail l k w.sh.head) .load
  /-- `stalled`: the ring is empty -/
  | drained {l k head} (tail : head = w.sh.tail) :
      Step (.stallTail l k head) .step (empty l k) .load
  | stallTail {l k head} (some : head ≠ w.sh.tail) :
      Step (.stallTail l k head) .step (.stallLen l k head) .load
  /-- `stalled`: the record at `head` is complete -/
  | readable {l k head} (length : 0 < w.sh.loadLength (head % K.cap.size)) :
      Step (.stallLen l k head) .step (empty l k) .load
  | stallLen {l k head} (length : ¬ 0 < w.sh.loadLength (head % K.cap.size)) :
      Step (.stallLen l k head) .step
        (.slotAt l k ⟨head, w.sh.loadLength (head % K.cap.size), []⟩ 0) .load
  | slotAt {l k st i} : Step (.slotAt l k st i) .step
      (.slotSize l k st i (w.sh.slots i).cursor) .load
  | skipSlot {l k st i} (skip : ¬ ((w.sh.slots i).cursor ≠ noIntent ∧
      (w.sh.slots i).cursor ≤ st.cursor)) : Step (.slotAt l k st i) .step (nextSlot l k st i) .load
  | covers {l k st i cursor} (cover : st.cursor < cursor + (w.sh.slots i).size) :
      Step (.slotSize l k st i cursor) .step
        (nextSlot l k { st with slots := st.slots ++ [i] } i) .load
  | short {l k st i cursor} (skip : ¬ st.cursor < cursor + (w.sh.slots i).size) :
      Step (.slotSize l k st i cursor) .step (nextSlot l k st i) .load
  | loadOwner {l k st j i rest} : Step (.loadOwner l k st j i rest) .step
      (.loadAt l k st j i rest (w.sh.slots i).owner) .load
  | loadAt {l k st j i rest owner} : Step (.loadAt l k st j i rest owner) .step
      (.loadSize l k st j i rest owner (w.sh.slots i).cursor) .load
  /-- `unstall`: the slot does not cover `head` any more -/
  | changed {l k st j i rest owner cursor} (skip : owner = noProc ∨ cursor = noIntent ∨
      cursor > st.cursor ∨ st.cursor ≥ cursor + (w.sh.slots i).size) :
      Step (.loadSize l k st j i rest owner cursor) .step (nextJudge l k st j rest) .load
  /-- `unstall`: the slot belongs to this process, or to one that cannot be watched -/
  | spared {l k st j i rest owner cursor} (owned : owner ≠ noProc)
      (own : owner = K.me ∨ ¬ watchable owner) :
      Step (.loadSize l k st j i rest owner cursor) .step (empty l k) .load
  | loadSize {l k st j i rest owner cursor} (cover : ¬ (owner = noProc ∨ cursor = noIntent ∨
      cursor > st.cursor ∨ st.cursor ≥ cursor + (w.sh.slots i).size)) :
      Step (.loadSize l k st j i rest owner cursor) .step
        (.judge l k st j i rest owner cursor (w.sh.slots i).size) .load
  | alive {l k st j i rest owner cursor size} (lives : ¬ w.isDead owner) :
      Step (.judge l k st j i rest owner cursor size) .step (.watch l k owner) .load
  /-- `unstall`: the dead slots name different ends -/
  | disagree {l k st j i rest owner cursor size} (dead : w.isDead owner = true)
      (other : j.dead ≠ [] ∧ cursor + size ≠ j.stop) :
      Step (.judge l k st j i rest owner cursor size) .step
        (finish l k 0 (some (.ring .corrupt))) .load
  | dead {l k st j i rest owner cursor size} (dead : w.isDead owner = true)
      (agree : ¬ (j.dead ≠ [] ∧ cursor + size ≠ j.stop)) :
      Step (.judge l k st j i rest owner cursor size) .step
        (nextJudge l k st ⟨j.dead ++ [i], cursor + size⟩ rest) .load
  | watch {l k owner} : Step (.watch l k owner) .step (empty l k) (.watch owner)
  /-- the compare-and-swap of `reclaim` succeeds -/
  | reclaim {l k st j} (length : w.sh.loadLength (st.cursor % K.cap.size) = st.length) :
      Step (.casLength l k st j) .step
        (.padType l k st j (Ring.lapSegment K.cap st.cursor j.stop))
        (.casLength st.cursor (Ring.lapSegment K.cap st.cursor j.stop))
  | raced {l k st j} (length : w.sh.loadLength (st.cursor % K.cap.size) ≠ st.length) :
      Step (.casLength l k st j) .step (empty l k) .load
  | padType {l k st j size} : Step (.padType l k st j size) .step
      (if st.cursor + size = j.stop then nextClear l k st j j.dead else .before l k)
      (.padType st.cursor)
  | clearAt {l k st j i rest} : Step (.clearAt l k st j i rest) .step
      (nextClear l k st j rest) (.clearAt i)
  | addWaiter {l} : Step (.addWaiter l) .step (.before l .again)
      (.wake { w.wake with recvWaiters := w.wake.recvWaiters + 1 })
  | token {l} : Step (.wait l) .token (.subWaiter l none .first)
      (.wake { w.wake with notEmpty := w.wake.notEmpty - 1 })
  | cancel {l} : Step (.wait l) .cancel (.subWaiter l (some (0, some .ctx)) .first) .load
  | waitGone {l} : Step (.wait l) .waitGone (.subWaiter l none .last) .load
  | result {l r k} : Step (.subWaiter l (some r) k) .step (.idle (some r))
      (.wake { w.wake with recvWaiters := w.wake.recvWaiters - 1 })
  | retry {l k} : Step (.subWaiter l none k) .step (.before l k)
      (.wake { w.wake with recvWaiters := w.wake.recvWaiters - 1 })

variable {K w}

/-- Every step of the receiver is by one of the rules. -/
theorem Recv.step_rule {r r' : Recv} {a : RecvAct} {x : Access}
    (h : r.step K w a = some (r', x)) : Recv.Step K w r a r' x := by
  cases r <;> cases a <;> simp only [Recv.step] at h <;>
    first | (cases h; done) | (cases h; constructor) | skip
  case reading.step =>
    split at h <;> cases h
    · exact .readDone ‹_›
    · exact .reading ‹_›
  case after.step =>
    split at h <;> cases h
    · exact .freed
    · exact .still (not_not.mp ‹_›)
  case wakeLoad.step =>
    split at h <;> cases h
    · exact .waiters
    · exact .noWaiters (by omega)
  case stallTail.step =>
    split at h <;> cases h
    · exact .drained ‹_›
    · exact .stallTail ‹_›
  case stallLen.step =>
    split at h <;> cases h
    · exact .readable ‹_›
    · exact .stallLen ‹_›
  case slotAt.step =>
    split at h <;> cases h
    · exact .slotAt
    · exact .skipSlot ‹_›
  case slotSize.step =>
    split at h <;> cases h
    · exact .covers ‹_›
    · exact .short ‹_›
  case loadSize.step =>
    split at h
    · cases h
      exact .changed ‹_›
    · next hcover =>
      split at h <;> cases h
      · exact .spared (fun h0 => hcover (.inl h0)) ‹_›
      · exact .loadSize hcover
  case judge.step =>
    split at h
    · cases h
      exact .alive ‹_›
    · next hdead =>
      split at h <;> cases h
      · exact .disagree (not_not.mp hdead) ‹_›
      · exact .dead (not_not.mp hdead) ‹_›
  case casLength.step =>
    split at h <;> cases h
    · exact .reclaim ‹_›
    · exact .raced ‹_›
  case wait.token =>
    split at h <;> cases h
    exact .token
  case subWaiter.step l n k => cases n <;> cases h <;> constructor

end GoIpc.Queue
