import GoIpc.Channel.Link
import GoIpc.Queue.Recovery

namespace GoIpc.Link

open GoIpc.Lib
open GoIpc.Ring (Entry Shared Reader committedOf)
open GoIpc.Queue (Config World Recv Try QErr QInv Stall Judged Blocked GivesUp Positive Seen Ends step_leads seen_finish
  saysGone_sh)

/-!
# The exit of a channel's peer

All senders of the direction run in process `D`, which exits at any moment.  An attempt that knows of
the exit runs alone: nothing moves under it, so what it finds stays true.

* `Owned` — every slot is free or belongs to `D`, so no slot is ever taken over;
* `Firm` — the header the attempt stopped at stays as it was read, and every slot it judges belongs to
  a dead process;
* `drained_of_givesUp` — such an attempt gives up in one way only: the ring is empty.

`exited_peer_drained` is the result.  It needs two conditions.  `clearOk`: a `reclaim` whose loads are
older than the exit may clear the slot of a later claim, which then blocks the reader for good
(`exitAfterLoad`).  And a `ReadBatch` whose limit is not positive reads nothing at all.
-/

variable {K : Config} {D : Nat} {s s' : Sys}

/-! ### Slots of one process -/

/-- Every slot is free or belongs to `D`. -/
def Owned (D : Nat) (w : World) : Prop :=
  ∀ i, (w.sh.slots i).owner = Queue.noProc ∨ (w.sh.slots i).owner = D

variable {w w' : World} {x : Queue.Access} {a : Queue.Act} {q : Queue.Sys} {r : Recv} {err : Option QErr}

/-- An access gives a slot to `D` or frees it. -/
theorem Owned.apply (h : Owned D w) (howner : ∀ i p, x = .setOwner i p → p = Queue.noProc ∨ p = D)
    (hx : w.apply K x = some w') : Owned D w' := by
  intro i
  rcases World.apply_owner hx i with heq | ⟨p, hset, heq⟩
  · rw [heq]
    exact h i
  · rw [heq]
    exact howner i p hset

/-- Where every handle is of `D`, no step gives a slot to another process. -/
theorem Owned.step {q' : Queue.Sys} (h : Owned D q.world) (hpeer : ∀ h, K.self h = D)
    (hs : q.step K a = some q') : Owned D q'.world := by
  cases a with
  | send t b =>
    obtain ⟨-, u, x, w, hu, hx, rfl⟩ := Queue.Sys.step_send_eq hs
    refine h.apply (fun i p hset => .inr ?_) hx
    subst hset
    exact (Queue.Sender.step_setOwner hu).trans (hpeer _)
  | drop hd =>
    obtain ⟨-, c, x, w, hc, hx, rfl⟩ := Queue.Sys.step_drop_eq hs
    refine h.apply (fun i p hset => .inl ?_) hx
    subst hset
    unfold Queue.Closer.step at hc
    split at hc
    · cases hc
    · split at hc <;> cases hc
      rfl
    · cases hc
  | recv b =>
    obtain ⟨r, x, w, hr, hx, rfl⟩ := Queue.Sys.step_recv_eq hs
    exact h.apply (fun i p hset => absurd hset (Queue.Recv.step_setOwner hr i p)) hx
  | close hd | die id =>
    simp only [Queue.Sys.step] at hs
    split at hs <;> cases hs
    exact h

/-- The slots of one process are never taken over. -/
theorem Owned.passed (h : Owned D q.world) (hpeer : ∀ h, K.self h = D) (hq : QInv K q) (a : Queue.Act) :
    Queue.passed q a = true := by
  unfold Queue.passed
  split
  · next t =>
    split
    · next c k known head i owner hpc =>
      have hok := hq.search t
      rw [hpc] at hok
      obtain ⟨-, -, hfree, hown, -⟩ := hok
      have hother : (q.world.sh.slots i).owner ≠ owner := by
        rintro rfl
        rcases h i with h0 | h0
        · exact hfree h0
        · exact hown (h0.trans (hpeer _).symm)
      simp [hother]
    · rfl
  · rfl

/-! ### An attempt after the exit -/

/-- The header the attempt stopped at is as it was read, and the slots it looks at belong to `D`. -/
def Firm (K : Config) (D : Nat) (w : World) : Recv → Prop
  | .slotAt _ _ st _ | .slotSize _ _ st _ _ | .loadOwner _ _ st _ _ _ | .casLength _ _ st _ =>
      w.sh.loadLength (st.cursor % K.cap.size) = st.length
  | .loadAt _ _ st _ _ _ owner | .loadSize _ _ st _ _ _ owner _ =>
      w.sh.loadLength (st.cursor % K.cap.size) = st.length ∧ (owner = Queue.noProc ∨ owner = D)
  | .judge _ _ st _ _ _ owner _ _ =>
      w.sh.loadLength (st.cursor % K.cap.size) = st.length ∧ owner = D
  | .watch .. => False
  | _ => True

theorem Firm.congr (h : Firm K D w r) (hsh : w'.sh = w.sh) : Firm K D w' r := by
  unfold Firm at h ⊢
  rwa [hsh]

theorem firm_finish (l : Int) (k : Try) (n : Nat) (err : Option QErr) :
    Firm K D w (Recv.finish l k n err) := by
  cases k <;> trivial

theorem firm_empty (l : Int) (k : Try) : Firm K D w (Recv.empty l k) := by
  cases k <;> trivial

theorem firm_afterRead (l : Int) (k : Try) (n : Nat) (err : Option Ring.Err) :
    Firm K D w (Recv.afterRead l k n err) := by
  unfold Recv.afterRead
  split
  · exact firm_finish ..
  · trivial

theorem firm_nextJudge (l : Int) (k : Try) {st : Stall} (j : Judged) (rest : List Nat)
    (h : w.sh.loadLength (st.cursor % K.cap.size) = st.length) :
    Firm K D w (Recv.nextJudge l k st j rest) := by
  cases rest with
  | cons i rest => exact h
  | nil =>
    simp only [Recv.nextJudge]
    split
    · exact firm_empty ..
    · exact h

theorem firm_nextSlot (l : Int) (k : Try) {st : Stall} (i : Nat)
    (h : w.sh.loadLength (st.cursor % K.cap.size) = st.length) : Firm K D w (Recv.nextSlot l k st i) := by
  unfold Recv.nextSlot
  split
  · exact h
  · exact firm_nextJudge _ _ _ _ h

/-- **A step of an attempt after the exit.** -/
theorem Firm.step {r' : Recv} {a : Queue.RecvAct} (h : Firm K D w r) (howned : Owned D w)
    (hdead : D ∈ w.dead) (hwatch : Queue.watchable D = true) (hr : r.step K w a = some (r', x))
    (hx : w.apply K x = some w') : Firm K D w' r' := by
  cases Queue.Recv.step_rule hr with
  | still | noWaiters | signal => exact firm_afterRead ..
  | drained | readable | spared | raced => exact firm_empty ..
  | stallLen =>
    cases hx
    rfl
  | slotAt | loadAt =>
    cases hx
    exact h
  | skipSlot | covers | short =>
    cases hx
    exact firm_nextSlot _ _ _ h
  | loadOwner =>
    cases hx
    exact ⟨h, howned _⟩
  | changed =>
    cases hx
    exact firm_nextJudge _ _ _ _ h.1
  | loadSize cover =>
    cases hx
    exact ⟨h.1, h.2.resolve_left fun h0 => cover (.inl h0)⟩
  -- the process that left is judged dead
  | alive lives =>
    obtain ⟨-, rfl⟩ := h
    simp [World.isDead, hwatch, hdead] at lives
  | disagree => exact firm_finish ..
  | dead =>
    cases hx
    exact firm_nextJudge _ _ _ _ h.1
  | watch => exact h.elim
  | @padType l k st j size =>
    split
    · cases j.dead <;> trivial
    · trivial
  | @clearAt l k st j i rest => cases rest <;> trivial
  | _ => trivial

/-- The reader stands at the tail. -/
def AtTail (sh : Shared) (c : Nat) : Prop := c = sh.tail

/-- The reader stands at the tail, or at a header it cannot pass. -/
def Stuck (K : Config) (sh : Shared) (c : Nat) : Prop :=
  c = sh.tail ∨ sh.loadLength (c % K.cap.size) ≤ 0

/-- A receiver that stands at the tail has delivered all there is. -/
theorem delivered_of_tail (hq : QInv K q) (hread : q.recv.isReading = false)
    (htail : q.world.sh.head = q.world.sh.tail) : q.world.sh.delivered = committedOf q.world.sh.log := by
  obtain ⟨last, -, hpos⟩ := hq.at_head hread
  have hok := hq.ring.ok
  have hall : below Entry.stop q.world.sh.tail q.world.sh.log = q.world.sh.log :=
    List.filter_eq_self.mpr fun e he => decide_eq_true (hok.tiled.bounds he).2.2
  have hdel := hok.delivered
  rw [hpos] at hdel
  have hdel : q.world.sh.delivered = committedOf (below Entry.stop q.world.sh.head q.world.sh.log) :=
    hdel
  rw [hdel, htail, hall]

/-- **After the exit an attempt gives up only when everything is delivered.** -/
theorem drained_of_givesUp {l : Int} {k : Try} (hg : GivesUp K q.world l k q.recv) (hq : QInv K q)
    (hwatch : Queue.watchable D = true) (hme : K.me ≠ D) (hfirm : Firm K D q.world q.recv)
    (hseen : Seen (AtTail q.world.sh) (Stuck K q.world.sh) q.world q.recv) :
    q.world.sh.delivered = committedOf q.world.sh.log := by
  have hstuck := hg.seen hseen
  have hloc := hq.recv
  -- the claim that blocks the reader has a slot
  have hstalled : ∀ {st : Stall}, q.recv.isReading = false → q.recv.mend = none → st.At q.world →
      q.world.sh.loadLength (st.cursor % K.cap.size) = st.length →
      ∃ e n, Blocked q.world st.cursor e ∧ e.slot = some n :=
    fun hread hmend hat hlen => hq.stalled_by hread hmend hat (hlen ▸ hat.length)
  generalize hpc : q.recv = r at hg hfirm hloc
  cases hg with
  | drained head empty =>
    have hhead : head = q.world.sh.head := hloc
    exact delivered_of_tail hq (hpc ▸ rfl) (hhead ▸ empty)
  | readable head length =>
    obtain ⟨hhead, hlt⟩ := hloc
    rw [← hhead] at hstuck
    rcases hstuck with h0 | h0
    · exact absurd h0 (Nat.ne_of_lt hlt)
    · exact absurd length (not_lt.mpr h0)
  | skipped st i none last skip =>
    obtain ⟨e, n, hb, hn⟩ := hstalled (hpc ▸ rfl) (hpc ▸ rfl) hloc.1 hfirm
    have hmem := hq.slotAt_skip hpc skip hb hn
      (lt_of_lt_of_le (hq.blocked hloc.1 hb hn).1 last)
    rw [none] at hmem
    cases hmem
  | uncovered st i cursor last none =>
    obtain ⟨e, n, hb, hn⟩ := hstalled (hpc ▸ rfl) (hpc ▸ rfl) hloc.1 hfirm
    have hmem := hq.slotSize_found hpc hb hn
      (lt_of_lt_of_le (hq.blocked hloc.1 hb hn).1 last)
    rw [none] at hmem
    cases hmem
  | changed st j i owner cursor none skip =>
    obtain ⟨e, n, hb, hn⟩ := hstalled (hpc ▸ rfl) (hpc ▸ rfl) hloc.1 hfirm.1
    rcases hq.loadSize_skip hpc skip hb hn with hfound | hmem
    · have hmem := hfound.mem
      rw [none] at hmem
      cases hmem
    · cases hmem
  | spared st j i rest owner cursor owned own =>
    obtain rfl := hfirm.2.resolve_left owned
    rcases own with h0 | h0
    · exact absurd h0.symm hme
    · exact absurd hwatch h0
  | watched owner => exact hfirm.elim
  | raced st j length => exact absurd hfirm length

/-! ### What a receive returns -/

/-- An error of the ring that a receive returns is `ErrCorrupt`. -/
def Sound (w : World) : Recv → Prop
  | .idle (some (_, some (.ring e))) | .subWaiter _ (some (_, some (.ring e))) _ => e = .corrupt
  | .after _ _ _ _ (some e) | .wakeLoad _ _ _ (some e) | .wakeSignal _ _ _ (some e) _ =>
      e = .corrupt
  | .reading .. => ∀ n e, w.ring.reader = .idle (some (n, some e)) → e = .corrupt
  | _ => True

theorem sound_finish (l : Int) (k : Try) (n : Nat) (h : ∀ e, err = some (.ring e) → e = .corrupt) :
    Sound w (Recv.finish l k n err) := by
  cases err with
  | none => cases k <;> trivial
  | some e =>
    cases e with
    | ring e => cases k <;> exact h e rfl
    | _ => cases k <;> trivial

theorem sound_empty (l : Int) (k : Try) : Sound w (Recv.empty l k) := by
  cases k <;> trivial

theorem sound_afterRead (l : Int) (k : Try) (n : Nat) {err : Option Ring.Err}
    (h : ∀ e, err = some e → e = .corrupt) : Sound w (Recv.afterRead l k n err) := by
  unfold Recv.afterRead
  split
  · refine sound_finish _ _ _ fun e he => ?_
    obtain ⟨e', he', heq⟩ := Option.map_eq_some_iff.mp he
    cases heq
    exact h e he'
  · trivial

theorem sound_nextJudge (l : Int) (k : Try) (st : Stall) (j : Judged) (rest : List Nat) :
    Sound w (Recv.nextJudge l k st j rest) := by
  cases rest with
  | cons i rest => trivial
  | nil =>
    simp only [Recv.nextJudge]
    split
    · exact sound_empty ..
    · trivial

theorem sound_nextSlot (l : Int) (k : Try) (st : Stall) (i : Nat) : Sound w (Recv.nextSlot l k st i) := by
  unfold Recv.nextSlot
  split
  · trivial
  · exact sound_nextJudge ..

theorem next_ne_fail (r : Ring.Loop) (n : Nat) (e : Ring.Err) :
    r.next ≠ .idle (some (n, some e)) := by
  unfold Ring.Loop.next Ring.Loop.finish
  split
  · nofun
  · split <;> simp

/-- `Read` fails with `ErrCorrupt` only. -/
theorem read_corrupt {C : Ring.Capacity} {sh sh' : Shared} {q q' : Reader} {a : Ring.ReadAct}
    (h : q.step C sh a = some (sh', q')) {n : Nat} {e : Ring.Err}
    (hidle : q' = .idle (some (n, some e))) : e = .corrupt := by
  cases Ring.Reader.step_rule h with
  | loadTail | storeLen => exact absurd hidle (next_ne_fail _ _ _)
  | unfinished =>
    unfold Ring.Loop.finish at hidle
    split at hidle <;> cases hidle
  | corrupt =>
    cases hidle
    rfl
  | _ => cases hidle

/-- **A step of the receiver.** -/
theorem Sound.step {r' : Recv} {a : Queue.RecvAct} (h : Sound w r) (hr : r.step K w a = some (r', x))
    (hx : w.apply K x = some w') : Sound w' r' := by
  cases Queue.Recv.step_rule hr with
  | read | reading =>
    obtain ⟨q, sh, hst, hrd, -⟩ := World.apply_read hx
    intro n e hidle
    exact read_corrupt hst (hrd ▸ hidle)
  | @readDone l k head n err done =>
    cases err with
    | none => trivial
    | some e => exact h n e done
  | @freed l k head n err => cases err <;> exact h
  | @waiters l k n err => cases err <;> exact h
  | @still l k head n err =>
    refine sound_afterRead _ _ _ ?_
    rintro e rfl
    exact h
  | @noWaiters l k n err | @signal l k n err =>
    refine sound_afterRead _ _ _ ?_
    rintro e rfl
    exact h
  | drained | readable | spared | watch | raced => exact sound_empty ..
  | skipSlot | covers | short => exact sound_nextSlot ..
  | changed | dead => exact sound_nextJudge ..
  | disagree => exact sound_finish _ _ _ (fun e he => by cases he; rfl)
  | @padType l k st j size =>
    split
    · cases j.dead <;> trivial
    · trivial
  | @clearAt l k st j i rest => cases rest <;> trivial
  | @result l r k =>
    obtain ⟨n, err⟩ := r
    cases err with
    | none => trivial
    | some e => cases e <;> exact h
  | _ => trivial

theorem Sound.keep (h : Sound w r) (hreader : w'.ring.reader = w.ring.reader) : Sound w' r := by
  unfold Sound at h ⊢
  rwa [hreader]

/-- A result that waits to be returned. -/
def Stored (r : Recv) : Prop :=
  ∀ l n err k, r = .subWaiter l (some (n, err)) k →
    Ends n err ∨ (n = 0 ∧ (err = some .ctx ∨ err = some .peerGone))

theorem stored_finish {l : Int} {k : Try} {n : Nat}
    (h : Ends n err ∨ (n = 0 ∧ (err = some .ctx ∨ err = some .peerGone))) :
    Stored (Recv.finish l k n err) := by
  intro l' n' err' k' heq
  cases k <;> cases heq
  exact h

theorem Stored.step {r' : Recv} {a : Queue.RecvAct} (hr : r.step K w a = some (r', x)) : Stored r' := by
  cases step_leads hr with
  | within l k src dest =>
    cases dest with
    | goes_on dest =>
      rintro l n err k rfl
      cases dest
    | empty =>
      intro l' n err k' heq
      cases k <;> cases heq
    | returns n err ends => exact stored_finish (.inl ends)
  | cancel l =>
    rintro _ _ _ _ heq
    cases heq
    exact .inr ⟨rfl, .inl rfl⟩
  | call | add | token | gone | result | again =>
    nofun

/-- Every committed message is delivered. -/
def Sys.Drained (s : Sys) : Prop := s.q.world.sh.delivered = committedOf s.q.world.sh.log

/-- What a receive that returns on the way from `s` to `s'` may return. -/
inductive Outcome (s s' : Sys) : Nat → Option QErr → Prop
  | messages (n : Nat) (some : 0 < n) : Outcome s s' n none
  /-- the only attempt of a `TryRecv` -/
  | empty (once : s.q.recv.attempt.map Prod.snd = some .once) : Outcome s s' 0 (some .empty)
  | corrupt (n : Nat) : Outcome s s' n (some (.ring .corrupt))
  | cancelled : Outcome s s' 0 (some .ctx)
  | gone (drained : s'.Drained) : Outcome s s' 0 (some .peerGone)

theorem outcome_of_ends {n : Nat} (h : Ends n err) (hcorrupt : ∀ e, err = some (.ring e) → e = .corrupt) :
    Outcome s s' n err := by
  rcases h with ⟨rfl, hpos⟩ | ⟨e, rfl⟩
  · exact .messages n hpos
  · rw [hcorrupt e rfl]
    exact .corrupt n

/-- **A receive returns.** -/
theorem outcome_of_step {n : Nat} (hs : s.step K D (.queue a) = some s') (hstored : Stored s.q.recv)
    (hsound : Sound s'.q.world s'.q.recv) (hsaid : s'.q.recv.saysGone = true → s'.Drained)
    (hbusy : ∀ last, s.q.recv ≠ .idle last) (hret : s'.q.recv = .idle (some (n, err))) :
    Outcome s s' n err := by
  have hcorrupt : ∀ e, err = some (.ring e) → e = .corrupt := by
    rintro e rfl
    rwa [hret] at hsound
  have hgone : err = some .peerGone → s'.Drained := by
    rintro rfl
    exact hsaid (hret ▸ rfl)
  obtain ⟨-, q, hstep, rfl⟩ := Sys.step_queue_eq hs
  rcases Queue.Sys.step_recv_or hstep with ⟨b, x, -, hr, -⟩ | ⟨-, heq⟩
  · rcases s.after_eq q with hq | ⟨l, k, -, -, -, hq⟩
    · rw [hq] at hret
      generalize hpc : s.q.recv = r at hr
      rw [hret] at hr
      generalize hidle : Recv.idle (some (n, err)) = r' at hr
      -- the step that leads back to the caller, by the place it comes from
      cases step_leads hr with
      | within l k src dest =>
        cases dest with
        | goes_on dest =>
          rw [← hidle] at dest
          cases dest
        | empty =>
          cases k <;> cases hidle
          · exact .empty (by rw [hpc, src]; rfl)
          · exact .gone (hgone rfl)
        | returns n' err' ends =>
          cases k <;> cases hidle <;> exact outcome_of_ends ends hcorrupt
      | result l k res =>
        cases hidle
        rcases hstored l n err k hpc with ends | ⟨rfl, rfl | rfl⟩
        · exact outcome_of_ends ends hcorrupt
        · exact .cancelled
        · exact .gone (hgone rfl)
      | call | add | token | cancel | gone | again => cases hidle
    · rw [hq] at hret
      cases k <;> cases hret <;> exact .gone (hgone rfl)
  · rw [Sys.after_same heq, heq] at hret
    exact absurd hret (hbusy _)

/-! ### The exit -/

/-- What holds while the peer's process runs and after it has exited. -/
structure Exit (K : Config) (D : Nat) (s : Sys) : Prop where
  inv : QInv K s.q
  owned : Owned D s.q.world
  running : s.closing = .running
  positive : Positive s.q.recv
  dead : s.late = true → D ∈ s.q.world.dead
  firm : s.late = true → Firm K D s.q.world s.q.recv
  seen : s.late = true →
    Seen (AtTail s.q.world.sh) (Stuck K s.q.world.sh) s.q.world s.q.recv
  said : s.q.recv.saysGone = true → D ∈ s.q.world.dead ∧ s.Drained
  sound : Sound s.q.world s.q.recv
  stored : Stored s.q.recv

theorem Exit.start : Exit K D Sys.start where
  inv := QInv.start
  owned _ := .inl rfl
  running := rfl
  positive _ h := by cases h
  dead h := by cases h
  firm h := by cases h
  seen h := by cases h
  said h := by cases h
  sound := trivial
  stored _ _ _ _ h := by cases h

/-- After the exit of the only sending process, only the receiver touches the ring. -/
theorem still_of_dead {q' : Queue.Sys} (hpeer : ∀ h, K.self h = D) (hdead : D ∈ q.world.dead)
    (ha : ∀ b, a ≠ .recv b) (hs : q.step K a = some q') : q'.world.ring = q.world.ring := by
  cases a with
  | recv b => exact absurd rfl (ha b)
  | send t b =>
    obtain ⟨hl, -⟩ := Queue.Sys.step_send_eq hs
    have hproc : K.proc t = D := hpeer _
    exact absurd (hproc ▸ hdead) hl
  | drop h =>
    obtain ⟨hl, -⟩ := Queue.Sys.step_drop_eq hs
    exact absurd (hpeer h ▸ hdead) hl
  | close h =>
    simp only [Queue.Sys.step] at hs
    split at hs <;> cases hs
    rfl
  | die id =>
    simp only [Queue.Sys.step] at hs
    split at hs <;> cases hs
    rfl

/-- A wait that reports the peer gone leads to the last attempt. -/
theorem waitGone_eq {r' : Recv} (h : r.step K w .waitGone = some (r', x)) :
    ∃ l, r' = .subWaiter l none .last := by
  cases r <;> dsimp only [Recv.step] at h <;> cases h
  exact ⟨_, rfl⟩

/-- Nobody calls `Channel.Close`. -/
def Act.open : Act → Bool
  | .clear => false
  | _ => true

/-- The conditions on a step: limits are positive, and `reclaim` clears no later intent. -/
def meets (s : Sys) : Act → Bool
  | .queue a => Queue.clearOk s.q a &&
      match a with
      | .recv (.readBatch l) => 0 < l
      | _ => true
  | _ => true

theorem meets_queue (h : meets s (.queue a) = true) :
    Queue.clearOk s.q a = true ∧ ∀ l, a = .recv (.readBatch l) → 0 < l := by
  simp only [meets, Bool.and_eq_true] at h
  refine ⟨h.1, ?_⟩
  rintro l rfl
  exact of_decide_eq_true h.2

namespace Exit

variable (hpeer : ∀ h, K.self h = D) (hwatch : Queue.watchable D = true) (hme : K.me ≠ D)

include hpeer hwatch

/-- A step of the queue, for an attempt that began after the exit. -/
theorem late_queue (h : Exit K D s) (hok : meets s (.queue a) = true) (hs : s.step K D (.queue a) = some s')
    (hlate : s'.late = true) :
    D ∈ s'.q.world.dead ∧ Firm K D s'.q.world s'.q.recv ∧
      Seen (AtTail s'.q.world.sh) (Stuck K s'.q.world.sh) s'.q.world s'.q.recv := by
  have hold := late_step hs hlate
  obtain ⟨hallows, q, hstep, rfl⟩ := Sys.step_queue_eq hs
  rw [Sys.after_world]
  rcases hold with hold | ⟨rfl, -⟩
  · have hdead := h.dead hold
    refine ⟨Queue.Sys.step_dead hstep hdead, ?_⟩
    rcases Queue.Sys.step_recv_or hstep with ⟨b, x, -, hr, hx⟩ | ⟨ha, heq⟩
    · rcases s.after_eq q with hq | ⟨l, k, -, -, -, hq⟩
      · rw [hq]
        refine ⟨(h.firm hold).step h.owned hdead hwatch hr hx, ?_⟩
        refine Seen.step h.inv (h.seen hold)
          (fun l k hpc => h.positive l (hpc ▸ rfl)) ?_ ?_ ?_ rfl ?_ hr hx
        · exact fun sh sh' c htail hc => hc.trans htail.symm
        · rintro sh sh' c htail hdata (hc | hc)
          · exact .inl (hc.trans htail.symm)
          · refine .inr ?_
            unfold Shared.loadLength at hc ⊢
            rwa [hdata]
        · exact fun sh c hc => .inl hc
        · exact fun r _ hlen => .inr hlen
      · rw [hq]
        exact ⟨firm_finish .., seen_finish ..⟩
    · have hring := still_of_dead hpeer hdead ha hstep
      have hsh : q.world.sh = s.q.world.sh := congrArg Ring.Sys.sh hring
      rw [Sys.after_same heq, heq]
      refine ⟨(h.firm hold).congr hsh, (h.seen hold).keep (by rw [hring]) (by rw [hsh]) ?_ ?_⟩
      · rw [hsh]
        exact fun _ hc => hc
      · rw [hsh]
        exact fun _ hc => hc
  · -- the wait reports the exit
    have hdead : D ∈ s.q.world.dead := by
      simpa [Sys.allows, h.running] using hallows
    refine ⟨Queue.Sys.step_dead hstep hdead, ?_⟩
    obtain ⟨r, x, w, hr, -, rfl⟩ := Queue.Sys.step_recv_eq hstep
    obtain ⟨l, rfl⟩ := waitGone_eq hr
    rcases s.after_eq _ with hq | ⟨l', k, -, -, -, hq⟩
    · rw [hq]
      exact ⟨trivial, trivial⟩
    · rw [hq]
      exact ⟨firm_finish .., seen_finish ..⟩

include hme

/-- `ErrPeerGone` comes after everything is delivered. -/
theorem said_queue (h : Exit K D s) (hs : s.step K D (.queue a) = some s')
    (hgone : s'.q.recv.saysGone = true) : D ∈ s'.q.world.dead ∧ s'.Drained := by
  have hfrom := saysGone_step hs hgone
  obtain ⟨-, q, hstep, rfl⟩ := Sys.step_queue_eq hs
  unfold Sys.Drained
  rw [Sys.after_world]
  rcases Queue.Sys.step_recv_or hstep with ⟨b, x, -, hr, hx⟩ | ⟨ha, heq⟩
  · rcases hfrom with hold | ⟨hlate, l, k, -, hgive⟩
    · obtain ⟨hdead, hdrained⟩ := h.said hold
      rw [saysGone_sh hold hr hx]
      exact ⟨Queue.Sys.step_dead hstep hdead, hdrained⟩
    · rw [hgive.sh hr hx]
      exact ⟨Queue.Sys.step_dead hstep (h.dead hlate),
        drained_of_givesUp hgive h.inv hwatch hme (h.firm hlate) (h.seen hlate)⟩
  · rw [Sys.after_same heq, heq] at hgone
    obtain ⟨hdead, hdrained⟩ := h.said hgone
    have hsh : q.world.sh = s.q.world.sh :=
      congrArg Ring.Sys.sh (still_of_dead hpeer hdead ha hstep)
    rw [hsh]
    exact ⟨Queue.Sys.step_dead hstep hdead, hdrained⟩

/-- **Every step keeps it.** -/
theorem step (h : Exit K D s) {a : Act} (hopen : a.open = true) (hok : meets s a = true)
    (hs : s.step K D a = some s') : Exit K D s' := by
  have hinv : QInv K s'.q := by
    refine inv_step h.inv (fun b hb => ?_) hs
    subst hb
    exact ⟨h.owned.passed hpeer h.inv b, (meets_queue hok).1⟩
  cases a with
  | queue a =>
    have hlate := fun hl => h.late_queue hpeer hwatch hok hs hl
    have hsaid := fun hg => h.said_queue hpeer hwatch hme hs hg
    have hpos := positive_step h.positive (meets_queue hok).2 hs
    obtain ⟨-, q, hstep, rfl⟩ := Sys.step_queue_eq hs
    refine ⟨hinv, ?_, h.running, hpos, fun hl => (hlate hl).1, fun hl => (hlate hl).2.1,
      fun hl => (hlate hl).2.2, hsaid, ?_, ?_⟩
    · rw [Sys.after_world]
      exact h.owned.step hpeer hstep
    · rw [Sys.after_world]
      rcases Queue.Sys.step_recv_or hstep with ⟨b, x, -, hr, hx⟩ | ⟨ha, heq⟩
      · rcases s.after_eq q with hq | ⟨l, k, -, -, -, hq⟩
        · rw [hq]
          exact h.sound.step hr hx
        · rw [hq]
          exact sound_finish _ _ _ nofun
      · rw [Sys.after_same heq, heq]
        exact h.sound.keep (Queue.Sys.step_reader ha hstep)
    · rcases Queue.Sys.step_recv_or hstep with ⟨b, x, -, hr, -⟩ | ⟨-, heq⟩
      · rcases s.after_eq q with hq | ⟨l, k, -, -, -, hq⟩
        · rw [hq]
          exact Stored.step hr
        · rw [hq]
          exact stored_finish (.inr ⟨rfl, .inr rfl⟩)
      · rw [Sys.after_same heq, heq]
        exact h.stored
  | check gone =>
    simp only [Sys.step] at hs
    split at hs
    · next l k hpc hnone =>
      split at hs <;> cases hs
      next hans =>
      -- the check says "gone" only of a process that has died
      have hdead : ({ s with gone := some gone } : Sys).late = true → D ∈ s.q.world.dead := by
        intro hlate
        simp only [Sys.late, decide_eq_true_eq] at hlate
        rcases hlate with hg | hlast
        · cases hg
          simpa [Sys.answers, h.running] using hans
        · exact h.dead (by simp [Sys.late, hlast])
      refine ⟨hinv, h.owned, h.running, h.positive, hdead, fun _ => ?_, fun _ => ?_, h.said, h.sound,
        h.stored⟩
      · rw [hpc]
        trivial
      · rw [hpc]
        trivial
    · cases hs
  | clear => cases hopen
  | signal | shut =>
    simp only [Sys.step] at hs
    rw [h.running] at hs
    simp at hs
  | exited =>
    simp only [Sys.step] at hs
    split at hs <;> cases hs
    exact ⟨hinv, h.owned, h.running, h.positive, h.dead, h.firm, h.seen, h.said, h.sound, h.stored⟩

end Exit

/-- **A dead peer's messages all come first.**  In every run that meets the conditions, for a channel
    whose senders all run in one process that can be watched: a receive returns `ErrPeerGone` only when
    every committed message is delivered.  Otherwise it returns messages, `ErrEmpty` from a `TryRecv`,
    `ErrCorrupt`, or the error of its context. -/
theorem exited_peer_drained (hpeer : ∀ h, K.self h = D) (hwatch : Queue.watchable D = true)
    (hme : K.me ≠ D)
    (hreach : (machine K D).Reach (fun s a => a.open = true ∧ meets s a = true) s) {a : Act}
    (hok : a.open = true ∧ meets s a = true) (hs : s.step K D a = some s') {n : Nat}
    {err : Option QErr} (hbusy : ∀ last, s.q.recv ≠ .idle last)
    (hret : s'.q.recv = .idle (some (n, err))) : Outcome s s' n err := by
  have hexit : Exit K D s := hreach.invariant Exit.start
    (fun _ _ _ h hok hs => h.step hpeer hwatch hme hok.1 hok.2 hs)
  have hexit' := hexit.step hpeer hwatch hme hok.1 hok.2 hs
  cases a with
  | queue a =>
    exact outcome_of_step hs hexit.stored hexit'.sound (fun hg => (hexit'.said hg).2) hbusy hret
  | clear => cases hok.1
  | check gone =>
    simp only [Sys.step] at hs
    split at hs
    · split at hs <;> cases hs
      exact absurd hret (hbusy _)
    · cases hs
  | signal | shut | exited =>
    simp only [Sys.step] at hs
    split at hs <;> cases hs
    exact absurd hret (hbusy _)

/-! ### Runs to show -/

/-- One sending process with one handle. -/
def solo : Config where
  cap := Ring.Capacity.smallest
  home := fun _ => 0
  self := fun _ => Queue.life 0
  me := Queue.life 9
  self_ne := fun h => by unfold Queue.life Queue.noProc; omega

/-- Steps of the queue alone. -/
def onQueue (as : List Queue.Act) : List Act := as.map .queue

/-- The peer sends a message and exits with an open claim behind it.  The first receive after the exit
    returns the message; the second one reclaims the claim. -/
def exitWithClaim : List Act :=
  onQueue ([Queue.Act.send 0 (.trySend 2 [5])] ++ Queue.steps 0 19 ++
    [Queue.Act.send 1 (.claim 1 8)] ++ Queue.steps 1 8 ++
    [Queue.Act.die (Queue.life 0), .recv (.readBatch 1)]) ++
  [Act.check true] ++ onQueue (Queue.recvs 12 ++ [Queue.Act.recv (.readBatch 1)]) ++
  [Act.check true] ++ onQueue (Queue.recvs 286)

/-- The second receive of `exitWithClaim` returns `ErrPeerGone`, and the message is delivered. -/
theorem exited_peer_drained_claim :
    ∃ s s' : Sys,
      (machine solo (Queue.life 0)).Reach (fun s a => a.open = true ∧ meets s a = true) s ∧
      s.step solo (Queue.life 0) (.queue (.recv .step)) = some s' ∧
      s'.q.recv = .idle (some (0, some .peerGone)) ∧ s'.q.world.sh.delivered = [(2, [5])] ∧
      Outcome s s' 0 (some .peerGone) := by
  have hrun : ((machine solo (Queue.life 0)).runOk (fun s a => a.open && meets s a) Sys.start
      exitWithClaim).map (fun s => decide (s.q.recv = .stallTail 1 .first 32 ∧
        (s.step solo (Queue.life 0) (.queue (.recv .step))).map (fun s' => decide (s'.q.recv =
          .idle (some (0, some .peerGone)) ∧ s'.q.world.sh.delivered = [(2, [5])])) = some true)) =
      some true := by decide +kernel
  have hreach : ∃ s, (machine solo (Queue.life 0)).Reach
      (fun s a => a.open = true ∧ meets s a = true) s ∧ _ :=
    Machine.Reach.exists_of_runOk (fun s a h => Bool.and_eq_true_iff.mp h) hrun
  obtain ⟨s, hreach, hs⟩ := hreach
  obtain ⟨hpc, hs⟩ := of_decide_eq_true hs
  obtain ⟨s', hstep, hs'⟩ := Option.map_eq_some_iff.mp hs
  obtain ⟨hret, hdel⟩ := of_decide_eq_true hs'
  refine ⟨s, s', hreach, hstep, hret, hdel, ?_⟩
  refine exited_peer_drained (fun _ => rfl) (by decide +kernel) (by decide) hreach ⟨rfl, ?_⟩ hstep
    ?_ hret
  · simp [meets, Queue.clearOk, hpc]
  · intro last h
    rw [hpc] at h
    cases h

/-- Goroutine 1 has the claim at `head`, and goroutine 0 lost the compare-and-swap against it.  The
    receiver has loaded the slot of goroutine 0 when goroutine 0 claims again, goroutine 2 sends a
    message, and the process exits.  `reclaim` then clears both slots, and the second claim of
    goroutine 0 has none.  The next `TryRecv` knows of the exit. -/
def exitAfterLoad : List Act :=
  onQueue ([Queue.Act.send 0 (.claim 1 8)] ++ Queue.steps 0 10 ++
    [Queue.Act.send 1 (.claim 1 8)] ++ Queue.steps 1 12 ++ Queue.steps 0 1 ++
    [Queue.Act.recv .tryRecv]) ++
  [Act.check false] ++ onQueue (Queue.recvs 270 ++ Queue.steps 0 5 ++
    [Queue.Act.send 2 (.trySend 2 [7])] ++ Queue.steps 2 21 ++ [Queue.Act.die (Queue.life 0)] ++
    Queue.recvs 281 ++ [Queue.Act.recv .tryRecv]) ++
  [Act.check true] ++ onQueue (Queue.recvs 265)

/-- A `ReadBatch` after the exit whose limit is zero. -/
def exitThenNoRoom : List Act :=
  onQueue ([Queue.Act.send 0 (.trySend 2 [5])] ++ Queue.steps 0 19 ++
    [Queue.Act.die (Queue.life 0), .recv (.readBatch 0)]) ++
  [Act.check true] ++ onQueue (Queue.recvs 6)

/-- **Without either condition a dead peer's message is lost to the caller.**  `TryRecv` after a stale
    clear, and `ReadBatch` with limit zero, return `ErrPeerGone` while a committed message is not
    delivered. -/
theorem exited_peer_undrained :
    (∃ s, (machine solo (Queue.life 0)).Reach (fun _ a => a.open = true) s ∧
      s.q.recv = .idle (some (0, some .peerGone)) ∧ s.q.world.sh.delivered = [] ∧
      committedOf s.q.world.sh.log = [(2, [7])]) ∧
    (∃ s, (machine solo (Queue.life 0)).Reach (fun _ a => a.open = true) s ∧
      s.q.recv = .idle (some (0, some .peerGone)) ∧ s.q.world.sh.delivered = [] ∧
      committedOf s.q.world.sh.log = [(2, [5])]) := by
  constructor
  · have hrun : ((machine solo (Queue.life 0)).runOk (fun _ a => a.open) Sys.start
        exitAfterLoad).map (fun s => (s.q.recv, s.q.world.sh.delivered,
          committedOf s.q.world.sh.log)) =
        some (.idle (some (0, some .peerGone)), [], [(2, [7])]) := by decide +kernel
    obtain ⟨s, hreach, hs⟩ := Machine.Reach.exists_of_runOk (fun _ _ h => h) hrun
    simp only [Prod.mk.injEq] at hs
    exact ⟨s, hreach, hs⟩
  · have hrun : ((machine solo (Queue.life 0)).runOk (fun _ a => a.open) Sys.start
        exitThenNoRoom).map (fun s => (s.q.recv, s.q.world.sh.delivered,
          committedOf s.q.world.sh.log)) =
        some (.idle (some (0, some .peerGone)), [], [(2, [5])]) := by decide +kernel
    obtain ⟨s, hreach, hs⟩ := Machine.Reach.exists_of_runOk (fun _ _ h => h) hrun
    simp only [Prod.mk.injEq] at hs
    exact ⟨s, hreach, hs⟩

end GoIpc.Link
