import GoIpc.Queue.Frames
import GoIpc.Queue.Receiver

namespace GoIpc.Queue.Recv

/-- The limit and the number of the attempt that runs. -/
def attempt : Recv → Option (Int × Try)
  | .idle _ | .addWaiter _ | .wait _ | .subWaiter .. => none
  | .before l k | .reading l k _ | .after l k _ _ _ | .wakeLoad l k _ _ | .wakeSignal l k _ _ _
  | .stallHead l k | .stallTail l k _ | .stallLen l k _ | .slotAt l k _ _ | .slotSize l k _ _ _
  | .loadOwner l k _ _ _ _ | .loadAt l k _ _ _ _ _ | .loadSize l k _ _ _ _ _ _
  | .judge l k _ _ _ _ _ _ _ | .watch l k _ | .casLength l k _ _ | .padType l k _ _ _
  | .clearAt l k _ _ _ _ => some (l, k)

/-- The receive returns `ErrPeerGone`, or has. -/
def saysGone : Recv → Bool
  | .idle (some (_, some .peerGone)) | .subWaiter _ (some (_, some .peerGone)) _ => true
  | _ => false

end GoIpc.Queue.Recv

namespace GoIpc.Queue

open GoIpc.Ring (Shared Reader)

/-!
# The attempts of a receive

`receive` is one attempt, and `park` runs up to three of them around a wait.  Two inversions of
`Recv.step` say what a step does, seen from there:

* `Leads` — how attempts follow each other in a call, and what an attempt returns;
* `GivesUp` — the ways in which an attempt finds nothing.

`Seen` carries what the `Read` of an attempt has found: where it stops without a message, a property `P`
of that cursor holds, and stays true until the attempt gives up there.
-/

variable {K : Config}

/-! ### An attempt that finds nothing -/

/-- The ways in which the receiver's next step ends an attempt without a message. -/
inductive GivesUp (K : Config) (w : World) (l : Int) (k : Try) : Recv → Prop
  /-- the ring is empty -/
  | drained (head : Nat) (empty : head = w.sh.tail) : GivesUp K w l k (.stallTail l k head)
  /-- the record at `head` is complete by now -/
  | readable (head : Nat) (length : 0 < w.sh.loadLength (head % K.cap.size)) :
      GivesUp K w l k (.stallLen l k head)
  /-- the last slot is skipped and no slot covers `head` -/
  | skipped (st : Stall) (i : Nat) (none : st.slots = []) (last : Ring.claimSlots ≤ i + 1)
      (skip : ¬ ((w.sh.slots i).cursor ≠ Ring.noIntent ∧ (w.sh.slots i).cursor ≤ st.cursor)) :
      GivesUp K w l k (.slotAt l k st i)
  | uncovered (st : Stall) (i cursor : Nat) (last : Ring.claimSlots ≤ i + 1)
      (none : st.slotsWith i cursor (w.sh.slots i).size = []) :
      GivesUp K w l k (.slotSize l k st i cursor)
  /-- the last covering slot does not cover `head` any more -/
  | changed (st : Stall) (j : Judged) (i owner cursor : Nat) (none : j.dead = [])
      (skip : owner = noProc ∨ cursor = Ring.noIntent ∨ cursor > st.cursor ∨
        st.cursor ≥ cursor + (w.sh.slots i).size) :
      GivesUp K w l k (.loadSize l k st j i [] owner cursor)
  /-- the slot belongs to this process, or to one that cannot be watched -/
  | spared (st : Stall) (j : Judged) (i : Nat) (rest : List Nat) (owner cursor : Nat)
      (owned : owner ≠ noProc) (own : owner = K.me ∨ ¬ watchable owner) :
      GivesUp K w l k (.loadSize l k st j i rest owner cursor)
  /-- the producer lives -/
  | watched (owner : Nat) : GivesUp K w l k (.watch l k owner)
  /-- the compare-and-swap of `reclaim` fails -/
  | raced (st : Stall) (j : Judged)
      (length : w.sh.loadLength (st.cursor % K.cap.size) ≠ st.length) :
      GivesUp K w l k (.casLength l k st j)

variable {k : Try} {l : Int} {r r' : Recv} {a : RecvAct} {w : World} {x : Access}

/-- A receive that returns something else has not found nothing. -/
theorem finish_ne_empty {n : Nat} {err : Option QErr} (hempty : err ≠ some .empty)
    (hgone : err ≠ some .peerGone) : Recv.finish l k n err ≠ Recv.empty l k := by
  intro h
  cases k <;> simp [Recv.finish, Recv.empty] at h
  · exact hempty h.2
  · exact hgone h.2

theorem afterRead_ne_empty (l : Int) (k : Try) (n : Nat) (err : Option Ring.Err) :
    Recv.afterRead l k n err ≠ Recv.empty l k := by
  unfold Recv.afterRead
  split
  · exact finish_ne_empty (by cases err <;> simp) (by cases err <;> simp)
  · cases k <;> (intro hne; cases hne)

theorem nextJudge_empty {st : Stall} {j : Judged} {rest : List Nat}
    (h : Recv.nextJudge l k st j rest = Recv.empty l k) : rest = [] ∧ j.dead = [] := by
  cases rest with
  | cons i rest => cases k <;> cases h
  | nil =>
    simp only [Recv.nextJudge] at h
    split at h
    · next hdead => exact ⟨rfl, hdead⟩
    · cases k <;> cases h

theorem nextSlot_empty {st : Stall} {i : Nat} (h : Recv.nextSlot l k st i = Recv.empty l k) :
    Ring.claimSlots ≤ i + 1 ∧ st.slots = [] := by
  unfold Recv.nextSlot at h
  split at h
  · cases k <;> cases h
  · next hlast => exact ⟨by omega, (nextJudge_empty h).1⟩

/-- A place of an attempt is not where an empty one ends. -/
theorem ne_empty {l' : Int} {k' : Try} (h : r.attempt = some (l, k)) : r ≠ Recv.empty l' k' := by
  rintro rfl
  cases k' <;> cases h

/-- **How an attempt finds nothing.** -/
theorem givesUp_of_step (hattempt : r.attempt = some (l, k)) (h : r.step K w a = some (r', x))
    (hempty : r' = Recv.empty l k) : GivesUp K w l k r := by
  cases Recv.step_rule h <;> cases hattempt
  -- the places that are left for an empty result
  case drained tail => exact .drained _ tail
  case readable length => exact .readable _ length
  case skipSlot skip =>
    obtain ⟨hlast, hnone⟩ := nextSlot_empty hempty
    exact .skipped _ _ hnone hlast skip
  case covers cover =>
    obtain ⟨hlast, hnone⟩ := nextSlot_empty hempty
    exact .uncovered _ _ _ hlast (by rw [Stall.slotsWith, if_pos cover]; exact hnone)
  case short skip =>
    obtain ⟨hlast, hnone⟩ := nextSlot_empty hempty
    exact .uncovered _ _ _ hlast (by rw [Stall.slotsWith, if_neg skip]; exact hnone)
  case changed skip =>
    obtain ⟨rfl, hdead⟩ := nextJudge_empty hempty
    exact .changed _ _ _ _ _ hdead skip
  case spared owned own => exact .spared _ _ _ _ _ _ owned own
  case watch => exact .watched _
  case raced length => exact .raced _ _ length
  -- those that are not
  case still | noWaiters | signal => exact absurd hempty (afterRead_ne_empty _ _ _ _)
  case disagree => exact absurd hempty (finish_ne_empty (by simp) (by simp))
  case dead => exact absurd (nextJudge_empty hempty).2 (by simp)
  case padType st j size =>
    refine absurd hempty ?_
    split
    · cases j.dead <;> exact ne_empty rfl
    · exact ne_empty rfl
  case clearAt st j i rest => cases rest <;> exact absurd hempty (ne_empty rfl)
  all_goals exact absurd hempty (ne_empty rfl)

/-! ### Attempts of a call -/

/-- The limit of the call the receiver is in. -/
def limit : Recv → Option Int
  | .addWaiter l | .wait l | .subWaiter l _ _ => some l
  | r => r.attempt.map Prod.fst

/-- The receiver is in the last attempt of `park`, or on the way to it. -/
def lastTry : Recv → Bool
  | .subWaiter _ none .last => true
  | r => r.attempt.map Prod.snd = some .last

/-- What an attempt returns that does not find nothing: messages, or an error of the ring. -/
def Ends (n : Nat) (err : Option QErr) : Prop := (err = none ∧ 0 < n) ∨ ∃ e, err = some (.ring e)

/-- Where a step of an attempt leads: it goes on, finds nothing, or returns. -/
inductive Within (l : Int) (k : Try) : Recv → Prop
  | goes_on {r : Recv} (attempt : r.attempt = some (l, k)) : Within l k r
  | empty : Within l k (Recv.empty l k)
  | returns (n : Nat) (err : Option QErr) (ends : Ends n err) : Within l k (Recv.finish l k n err)

theorem within_afterRead (l : Int) (k : Try) (n : Nat) (err : Option Ring.Err) :
    Within l k (Recv.afterRead l k n err) := by
  unfold Recv.afterRead
  split
  · next h =>
    refine .returns _ _ ?_
    cases err with
    | none => exact .inl ⟨rfl, h.resolve_left (fun hne => hne rfl)⟩
    | some e => exact .inr ⟨e, rfl⟩
  · exact .goes_on rfl

theorem within_nextJudge (l : Int) (k : Try) (st : Stall) (j : Judged) (rest : List Nat) :
    Within l k (Recv.nextJudge l k st j rest) := by
  cases rest with
  | cons i rest => exact .goes_on rfl
  | nil =>
    simp only [Recv.nextJudge]
    split
    · exact .empty
    · exact .goes_on rfl

theorem within_nextSlot (l : Int) (k : Try) (st : Stall) (i : Nat) :
    Within l k (Recv.nextSlot l k st i) := by
  unfold Recv.nextSlot
  split
  · exact .goes_on rfl
  · exact within_nextJudge ..

theorem within_nextClear (l : Int) (k : Try) (st : Stall) (j : Judged) (rest : List Nat) :
    Within l k (Recv.nextClear l k st j rest) := by
  cases rest <;> exact .goes_on rfl

/-- A step of the receiver, seen from the calls: `park` around the attempts. -/
inductive Leads (a : RecvAct) : Recv → Recv → Prop
  | within {r r' : Recv} (l : Int) (k : Try) (src : r.attempt = some (l, k)) (dest : Within l k r') :
      Leads a r r'
  | call {last : Option (Nat × Option QErr)} (l : Int) (k : Try)
      (act : (a = .readBatch l ∧ k = .first) ∨ (a = .tryRecv ∧ l = 1 ∧ k = .once)) :
      Leads a (.idle last) (.before l k)
  | add (l : Int) : Leads a (.addWaiter l) (.before l .again)
  | token (l : Int) : Leads a (.wait l) (.subWaiter l none .first)
  | cancel (l : Int) : Leads a (.wait l) (.subWaiter l (some (0, some .ctx)) .first)
  | gone (l : Int) (act : a = .waitGone) : Leads a (.wait l) (.subWaiter l none .last)
  | result (l : Int) (k : Try) (res : Nat × Option QErr) :
      Leads a (.subWaiter l (some res) k) (.idle (some res))
  | again (l : Int) (k : Try) : Leads a (.subWaiter l none k) (.before l k)

/-- **How attempts follow each other.** -/
theorem step_leads (h : r.step K w a = some (r', x)) : Leads a r r' := by
  cases Recv.step_rule h with
  | readBatch => exact .call _ _ (.inl ⟨rfl, rfl⟩)
  | tryRecv => exact .call _ _ (.inr ⟨rfl, rfl, rfl⟩)
  | addWaiter => exact .add _
  | token => exact .token _
  | cancel => exact .cancel _
  | waitGone => exact .gone _ rfl
  | result => exact .result ..
  | retry => exact .again ..
  -- the steps of an attempt
  | still | noWaiters | signal => exact .within _ _ rfl (within_afterRead ..)
  | drained | readable | spared | watch | raced => exact .within _ _ rfl .empty
  | skipSlot | covers | short => exact .within _ _ rfl (within_nextSlot ..)
  | changed | dead => exact .within _ _ rfl (within_nextJudge ..)
  | disagree => exact .within _ _ rfl (.returns _ _ (.inr ⟨_, rfl⟩))
  | clearAt => exact .within _ _ rfl (within_nextClear ..)
  | padType =>
    refine .within _ _ rfl ?_
    split
    · exact within_nextClear ..
    · exact .goes_on rfl
  | _ => exact .within _ _ rfl (.goes_on rfl)

theorem limit_of_attempt (h : r.attempt = some (l, k)) : limit r = some l := by
  cases r <;> cases h <;> rfl

theorem lastTry_of_attempt (h : r.attempt = some (l, k)) : lastTry r = decide (k = .last) := by
  cases r <;> cases h <;> cases k <;> rfl

theorem lastTry_finish (l : Int) (k : Try) (n : Nat) (err : Option QErr) :
    lastTry (Recv.finish l k n err) = false := by
  cases k <;> rfl

/-- A step gets to the last attempt of `park` by staying there, or when a wait reports the peer
    gone. -/
theorem lastTry_step (hs : r.step K w a = some (r', x)) (hlast : lastTry r' = true) :
    lastTry r = true ∨ a = .waitGone := by
  cases step_leads hs with
  | within l k src dest =>
    cases dest with
    | goes_on dest =>
      rw [lastTry_of_attempt src, ← lastTry_of_attempt dest]
      exact .inl hlast
    | empty => cases k <;> cases hlast
    | returns n err _ =>
      rw [lastTry_finish] at hlast
      cases hlast
  | call l k act => rcases act with ⟨-, rfl⟩ | ⟨-, -, rfl⟩ <;> cases hlast
  | gone l act => exact .inr act
  | again l k => cases k <;> first | exact .inl rfl | cases hlast
  | add | token | cancel | result => cases hlast

/-- A call with a positive limit. -/
def Positive (r : Recv) : Prop := ∀ l, limit r = some l → 0 < l

theorem positive_finish (h : 0 < l) (k : Try) (n : Nat) (err : Option QErr) :
    Positive (Recv.finish l k n err) := by
  cases k with
  | again => exact fun _ hl => Option.some.inj hl ▸ h
  | _ => exact nofun

theorem positive_empty (h : 0 < l) (k : Try) : Positive (Recv.empty l k) := by
  cases k with
  | first | again => exact fun _ hl => Option.some.inj hl ▸ h
  | _ => exact nofun

/-- While calls start with positive limits, every call has one. -/
theorem Positive.step (h : Positive r) (ha : ∀ l, a = .readBatch l → 0 < l)
    (hs : r.step K w a = some (r', x)) : Positive r' := by
  cases step_leads hs with
  | within l k src dest =>
    have hpos : 0 < l := h l (limit_of_attempt src)
    cases dest with
    | goes_on dest =>
      intro l' hl'
      rw [limit_of_attempt dest] at hl'
      exact Option.some.inj hl' ▸ hpos
    | empty => exact positive_empty hpos k
    | returns n err _ => exact positive_finish hpos k n err
  | call l k act =>
    have hpos : 0 < l := by
      rcases act with ⟨hact, -⟩ | ⟨-, rfl, -⟩
      · exact ha l hact
      · exact Int.one_pos
    exact fun _ hl => Option.some.inj hl ▸ hpos
  | result => exact nofun
  | add l | token l | cancel l | gone l | again l =>
    exact fun l' hl => h l' hl

/-! ### Where `ErrPeerGone` comes from -/

theorem saysGone_of_attempt {v : Int × Try} (h : r.attempt = some v) : r.saysGone = false := by
  cases r <;> first | rfl | cases h

theorem saysGone_finish {n : Nat} {err : Option QErr} (hgone : err ≠ some .peerGone) :
    (Recv.finish l k n err).saysGone = false := by
  cases k <;> (unfold Recv.finish Recv.saysGone; split <;> simp_all)

/-- An attempt that returns `ErrPeerGone` by itself is the last one of `park`, and found nothing. -/
theorem saysGone_of_step (h : r.step K w a = some (r', x)) (hgone : r'.saysGone = true) :
    r.saysGone = true ∨ ∃ l, r.attempt = some (l, .last) ∧ r' = Recv.empty l .last := by
  cases step_leads h with
  | within l k src dest =>
    cases dest with
    | goes_on dest =>
      rw [saysGone_of_attempt dest] at hgone
      cases hgone
    | empty => cases k <;> first | exact .inr ⟨l, src, rfl⟩ | cases hgone
    | returns n err ends =>
      have hne : err ≠ some .peerGone := by
        rintro rfl
        rcases ends with ⟨h0, -⟩ | ⟨e, h0⟩ <;> cases h0
      rw [saysGone_finish hne] at hgone
      cases hgone
  | result l k res =>
    obtain ⟨n, err⟩ := res
    cases err with
    | none => cases hgone
    | some e => exact .inl (by cases e <;> exact hgone)
  | call | add | token | cancel | gone | again => cases hgone

/-- A receive that has returned `ErrPeerGone`, or is about to, leaves the ring alone. -/
theorem saysGone_sh {w' : World} (h : r.saysGone = true) (hr : r.step K w a = some (r', x))
    (hx : w.apply K x = some w') : w'.sh = w.sh := by
  cases Recv.step_rule hr with
  | readBatch | tryRecv | result | retry =>
    cases hx
    rfl
  | _ => cases h

/-- So does an attempt that finds nothing. -/
theorem GivesUp.sh {w' : World} (h : GivesUp K w l k r) (hr : r.step K w a = some (r', x))
    (hx : w.apply K x = some w') : w'.sh = w.sh := by
  cases h with
  | watched owner =>
    cases Recv.step_rule hr
    cases hx
    unfold World.watchProducer
    split
    · rfl
    · split <;> rfl
  | raced st j length =>
    cases Recv.step_rule hr with
    | reclaim same => exact absurd same length
    | raced => cases hx; rfl
  | _ => cases Recv.step_rule hr <;> cases hx <;> rfl

/-! ### Where `Read` stops -/

/-- What a `Read` with a positive limit stops at: `P` holds where it stops without a message, when `Q`
    holds of the tail it has loaded. -/
def Stops (Q P : Nat → Prop) (head : Nat) : Reader → Prop
  | .idle (some (0, none)) => P head
  | .idle _ => True
  | .loadHead limit | .loadTail limit _ => 0 < limit
  | .loadLen r | .loadType r _ | .pass r _ _ | .clear r _ | .storeLen r _ =>
      0 < r.limit ∧ Q (r.head + r.available)
  | .storeHead r => r.count = 0 → P r.cursor

theorem stops_finish {Q P : Nat → Prop} {r : Ring.Loop} {head : Nat} (hhead : r.head = head)
    (h : r.count = 0 → P r.cursor) : Stops Q P head r.finish := by
  unfold Ring.Loop.finish
  split
  · exact h
  · next hzero =>
    cases hc : r.count with
    | zero =>
      have hcursor : r.cursor = head := by
        unfold Ring.Loop.cursor
        omega
      show P head
      rw [← hcursor]
      exact h hc
    | succ n => trivial

/-- The loop goes on, or has come to the tail, or has passed as many messages as it may. -/
theorem stops_next {Q P : Nat → Prop} {r : Ring.Loop} {head : Nat} (hhead : r.head = head)
    (hlimit : 0 < r.limit) (hle : r.consumed ≤ r.available) (hQ : Q (r.head + r.available))
    (hQP : ∀ c, Q c → P c) : Stops Q P head r.next := by
  unfold Ring.Loop.next
  split
  · exact ⟨hlimit, hQ⟩
  · next hstop =>
    refine stops_finish hhead fun hcount => ?_
    have hend : r.cursor = r.head + r.available := by
      unfold Ring.Loop.cursor
      by_contra hne
      exact hstop ⟨by rw [hcount]; exact hlimit, by omega⟩
    rw [hend]
    exact hQP _ hQ

/-- **A step of `Read`.**  `Q` and `P` become `Q'` and `P'`. -/
theorem Stops.step {C : Ring.Capacity} {Q P Q' P' : Nat → Prop} {sh sh' : Shared} {q q' : Reader}
    {a : Ring.ReadAct} (h : Stops Q P sh.head q) (hloc : q.Local C sh)
    (hhead : sh.head ≤ sh.tail) (ha : ∀ limit, a = .read limit → 0 < limit)
    (hQ : ∀ c, Q c → Q' c) (htail : Q sh.tail) (hQP : ∀ c, Q' c → P' c)
    (hP : sh'.data = sh.data → ∀ c, P c → P' c)
    (hlen : ∀ r, q = .loadLen r → sh.loadLength (r.cursor % C.size) ≤ 0 → P r.cursor)
    (hs : q.step C sh a = some (sh', q')) : Stops Q' P' sh'.head q' := by
  cases Reader.step_rule hs with
  | @readNone last limit none => exact absurd (ha limit rfl) (not_lt.mpr none)
  | read some => exact some
  | loadHead => exact h
  | @loadTail limit head =>
    obtain rfl : head = sh.head := hloc
    refine stops_next rfl h (Nat.zero_le _) ?_ hQP
    show Q' (sh.head + (sh.tail - sh.head))
    rw [Nat.add_sub_cancel' hhead]
    exact hQ _ htail
  | @unfinished r length => exact stops_finish hloc.1.head fun _ => hP rfl _ (hlen r rfl length)
  | @corrupt r =>
    show Stops Q' P' sh.head (.idle (some (r.count, some .corrupt)))
    cases r.count <;> trivial
  | storeLen => exact stops_next hloc.1.head h.1 hloc.2.1 (hQ _ h.2) hQP
  | @storeHead r =>
    cases hc : r.count with
    | zero => exact hP rfl _ (h hc)
    | succ n => trivial
  | _ => exact ⟨h.1, hQ _ h.2⟩

/-! ### What an attempt has seen -/

/-- After a `Read` that passed no message, `P` holds of `head`. -/
def Seen (Q P : Nat → Prop) (w : World) : Recv → Prop
  | .reading .. => Stops Q P w.sh.head w.ring.reader
  | .after _ _ _ n err | .wakeLoad _ _ n err | .wakeSignal _ _ n err _ =>
      n = 0 → err = none → P w.sh.head
  | .stallHead .. | .stallTail .. | .stallLen .. | .slotAt .. | .slotSize .. | .loadOwner ..
  | .loadAt .. | .loadSize .. | .judge .. | .watch .. | .casLength .. => P w.sh.head
  | _ => True

/-- Nothing is found only after a `Read` that passed no message. -/
theorem GivesUp.seen {Q P : Nat → Prop} (h : GivesUp K w l k r) (hseen : Seen Q P w r) : P w.sh.head := by
  cases h <;> exact hseen

theorem seen_finish {Q P : Nat → Prop} (l : Int) (k : Try) (n : Nat) (err : Option QErr) :
    Seen Q P w (Recv.finish l k n err) := by
  cases k <;> trivial

theorem seen_empty {Q P : Nat → Prop} (l : Int) (k : Try) : Seen Q P w (Recv.empty l k) := by
  cases k <;> trivial

theorem seen_afterRead {Q P : Nat → Prop} (l : Int) (k : Try) {n : Nat} {err : Option Ring.Err}
    (h : n = 0 → err = none → P w.sh.head) : Seen Q P w (Recv.afterRead l k n err) := by
  unfold Recv.afterRead
  split
  · exact seen_finish ..
  · next hnone =>
    simp only [ne_eq, not_or, not_not, not_lt, Nat.le_zero] at hnone
    exact h hnone.2 hnone.1

theorem seen_nextJudge {Q P : Nat → Prop} (l : Int) (k : Try) (st : Stall) (j : Judged) (rest : List Nat)
    (h : P w.sh.head) : Seen Q P w (Recv.nextJudge l k st j rest) := by
  cases rest with
  | cons i rest => exact h
  | nil =>
    simp only [Recv.nextJudge]
    split
    · exact seen_empty ..
    · exact h

theorem seen_nextSlot {Q P : Nat → Prop} (l : Int) (k : Try) (st : Stall) (i : Nat) (h : P w.sh.head) :
    Seen Q P w (Recv.nextSlot l k st i) := by
  unfold Recv.nextSlot
  split
  · exact h
  · exact seen_nextJudge _ _ _ _ _ h

/-- What an attempt has seen survives a step that leaves `Read` and `head` alone and keeps `Q` and
    `P`. -/
theorem Seen.keep {Q P Q' P' : Nat → Prop} {w' : World} (h : Seen Q P w r)
    (hreader : w'.ring.reader = w.ring.reader) (hhead : w'.sh.head = w.sh.head) (hQ : ∀ c, Q c → Q' c)
    (hP : ∀ c, P c → P' c) : Seen Q' P' w' r := by
  cases r with
  | reading l k head =>
    show Stops Q' P' w'.sh.head w'.ring.reader
    have hold : Stops Q P w.sh.head w.ring.reader := h
    rw [hreader, hhead]
    generalize w.ring.reader = q at hold
    cases q with
    | idle last =>
      cases last with
      | none => trivial
      | some res =>
        obtain ⟨n, err⟩ := res
        cases n <;> cases err <;> first | exact hP _ hold | trivial
    | loadHead limit | loadTail limit _ => exact hold
    | storeHead r => exact fun hc => hP _ (hold hc)
    | _ => exact ⟨hold.1, hQ _ hold.2⟩
  | after _ _ _ n err | wakeLoad _ _ n err | wakeSignal _ _ n err _ =>
    intro hn he
    rw [hhead]
    exact hP _ (h hn he)
  | before | padType | clearAt | idle | addWaiter | wait | subWaiter => trivial
  | _ =>
    show P' w'.sh.head
    rw [hhead]
    exact hP _ h

/-- **A step of the receiver.**  `Q` and `P` may depend on the ring: `Q` on its tail, `P` on its tail
    and its data. -/
theorem Seen.step {Q P : Shared → Nat → Prop} {q : Sys} (hq : QInv K q)
    (h : Seen (Q q.world.sh) (P q.world.sh) q.world q.recv) (hlimit : ∀ l k, q.recv = .before l k → 0 < l)
    (hQ : ∀ sh sh' c, sh'.tail = sh.tail → Q sh c → Q sh' c)
    (hP : ∀ sh sh' c, sh'.tail = sh.tail → sh'.data = sh.data → P sh c → P sh' c)
    (hQP : ∀ sh c, Q sh c → P sh c) (htail : Q q.world.sh q.world.sh.tail)
    (hlen : ∀ r, q.world.ring.reader = .loadLen r →
      q.world.sh.loadLength (r.cursor % K.cap.size) ≤ 0 → P q.world.sh r.cursor)
    (hr : q.recv.step K q.world a = some (r, x)) (hx : q.world.apply K x = some w) :
    Seen (Q w.sh) (P w.sh) w r := by
  generalize hpc : q.recv = r₀ at hr h
  cases Recv.step_rule hr with
  | @read l k =>
    obtain ⟨rd, sh, hst, hrd, -⟩ := World.apply_read hx
    obtain ⟨last, hidle, -⟩ := hq.at_head (hpc ▸ rfl)
    rw [hidle] at hst
    have hpos := hlimit l k hpc
    show Stops _ _ _ w.ring.reader
    rw [hrd]
    cases Ring.Reader.step_rule hst with
    | readNone none => exact absurd hpos (not_lt.mpr none)
    | read => exact hpos
  | readDone done =>
    cases hx
    rintro rfl rfl
    have hstops : Stops _ _ _ q.world.ring.reader := h
    rwa [done] at hstops
  | reading =>
    obtain ⟨rd, sh, hst, hrd, hsh, -⟩ := World.apply_read hx
    have hring := hq.ring
    rw [hpc] at hring
    obtain ⟨hadv, -⟩ := Ring.Reader.step_inv hring.ok hring.reader hst
    show Stops _ _ w.sh.head w.ring.reader
    rw [hrd, hsh]
    have hstops : Stops _ _ _ q.world.ring.reader := h
    exact hstops.step hring.reader (hring.ok.head_le.trans hring.ok.pos_le) (fun _ h => by cases h)
      (fun c => hQ _ _ c hadv.tail) htail (hQP sh) (fun hdata c => hP _ _ c hadv.tail hdata) hlen hst
  -- the announcement of freed space, and the scan
  | still | noWaiters =>
    cases hx
    exact seen_afterRead _ _ h
  | signal =>
    cases hx
    exact seen_afterRead (w := { q.world with wake := _ }) _ _ h
  | drained | readable | spared | watch | raced => exact seen_empty ..
  | skipSlot | covers | short =>
    cases hx
    exact seen_nextSlot _ _ _ _ h
  | changed | dead =>
    cases hx
    exact seen_nextJudge _ _ _ _ _ h
  | disagree => exact seen_finish ..
  | freed | waiters | stallHead | stallTail | stallLen | slotAt | loadOwner | loadAt | loadSize
  | alive =>
    cases hx
    exact h
  -- the places where nothing is remembered
  | @padType l k st j size =>
    split
    · cases j.dead <;> trivial
    · trivial
  | @clearAt l k st j i rest => cases rest <;> trivial
  | _ => trivial

end GoIpc.Queue
