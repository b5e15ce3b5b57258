import GoIpc.Queue.Rules
import GoIpc.Ring.History

namespace GoIpc.Queue

open GoIpc.Lib
open GoIpc.Ring (Word Err Producer ProdAct claimSlots)

/-!
# The steps of a sender

What one step of a sending goroutine does, seen from three sides:

* `Sender.step_move` — which slot the goroutine works with before and after, and what it does to
  slots and pools (`Sender.Move`);
* `Sender.step_ok` — what the search for a slot has checked about the slot it looks at;
* `Sender.step_runs` — how the ring operation it runs moves along with the queue operation.
-/

variable {K : Config} {t : Nat} {w w' : World}

/-! ### Places -/

/-- The slot a sending goroutine works with. -/
def Sender.slot : Sender → Option Nat
  | .clearAt _ _ i | .addOwned _ _ i | .begin _ _ i | .ring _ _ i | .putSlot _ _ i _ | .held i
  | .finishing i => some i
  | .subWaiter _ (.done (.opened i)) => some i
  | _ => none

/-- The two places between taking a slot and listing it. -/
def Sender.acquiring : Sender → Bool
  | .clearAt .. | .addOwned .. => true
  | _ => false

/-! ### What a sender has checked -/

/-- The remembered answers of `isDead` that say "dead" are right. -/
def KnownOk (w : World) (known : List (Nat × Bool)) : Prop :=
  ∀ p, (p, true) ∈ known → p ∈ w.dead

/-- What the search for a slot knows where it stands. -/
def Sender.Ok (K : Config) (t : Nat) (w : World) : Sender → Prop
  | .casFree _ _ i => i < claimSlots
  | .loadOwner _ _ known _ i => KnownOk w known ∧ i < claimSlots
  | .loadAt _ _ known _ i owner | .loadSize _ _ known _ i owner _ | .judge _ _ known _ i owner =>
      KnownOk w known ∧ i < claimSlots ∧ owner ≠ noProc ∧ owner ≠ K.proc t
  | .casOwner _ _ known _ i owner =>
      KnownOk w known ∧ i < claimSlots ∧ owner ≠ noProc ∧ owner ≠ K.proc t ∧ owner ∈ w.dead
  | _ => True

/-- How the ring operation of a goroutine fits its place in the queue operation. -/
def Sender.Runs (p : Producer) : Sender → Prop
  | .ring _ _ i => (∃ last, p = .idle last) ∨ p.slot = some i
  | .held i | .subWaiter _ (.done (.opened i)) => ∃ c, p = .held c ∧ c.slot = some i
  | .finishing i => (∃ last, p = .idle last) ∨
      ∃ c, (p = .abortLen c ∨ p = .release c) ∧ c.slot = some i
  | _ => ∃ last, p = .idle last

/-- An access that touches neither a slot nor a pool. -/
def Access.Plain (t : Nat) : Access → Prop
  | .load | .wake _ => True
  | .prod t' _ => t' = t
  | _ => False

/-- What one step of goroutine `t` does about slots. -/
inductive Sender.Move (K : Config) (t : Nat) (w : World) (p p' : Sender) : Access → Prop
  | plain {x : Access} (slot : p'.slot = p.slot) (acc : x.Plain t)
      (settled : p'.acquiring = false) : Move K t w p p' x
  /-- The owner of slot `i` was nobody, or a process judged dead. -/
  | acquire (i : Nat) (c : Call) (k : Try) (pc' : p' = .clearAt c k i) (slot : p.slot = none)
      (bound : i < claimSlots) (owner : (w.sh.slots i).owner = noProc ∨
        ((w.sh.slots i).owner ≠ K.proc t ∧ (w.sh.slots i).owner ∈ w.dead ∧
          ∃ known head, p = .casOwner c k known head i (w.sh.slots i).owner)) :
      Move K t w p p' (.setOwner i (K.proc t))
  | wipe (i : Nat) (c : Call) (k : Try) (pc : p = .clearAt c k i) (pc' : p' = .addOwned c k i) :
      Move K t w p p' (.clearAt i)
  | adopt (i : Nat) (c : Call) (k : Try) (pc : p = .addOwned c k i) (pc' : p' = .begin c k i) :
      Move K t w p p' (.pool (K.home t)
        { w.pools (K.home t) with owned := i :: (w.pools (K.home t)).owned })
  | pop (i : Nat) (rest : List Nat) (c : Call) (k : Try) (slot : p.slot = none)
      (pc' : p' = .begin c k i) (idle : (w.pools (K.home t)).idle = i :: rest) :
      Move K t w p p' (.pool (K.home t) { w.pools (K.home t) with idle := rest })
  | push (i : Nat) (slot : p.slot = some i) (slot' : p'.slot = none)
      (settled : p'.acquiring = false) :
      Move K t w p p' (.pool (K.home t)
        { w.pools (K.home t) with idle := i :: (w.pools (K.home t)).idle })

/-! ### Where a step leads -/

/-- The slot of a claim that an attempt opened. -/
def Result.slot : Result → Option Nat
  | .opened i => some i
  | _ => none

section Places

variable (c : Call) (k : Try)

/-- An attempt leaves with the slot of its claim. -/
@[simp] theorem Sender.slot_finish (r : Result) :
    (Sender.finish c k r).slot = r.slot := by
  cases k <;> cases r <;> rfl

@[simp] theorem Sender.slot_blocked : (Sender.blocked c k).slot = none := by
  cases k <;> rfl

@[simp] theorem Sender.slot_nextFree (i : Nat) :
    (Sender.nextFree c k i).slot = none := by
  unfold Sender.nextFree
  split <;> rfl

@[simp] theorem Sender.slot_nextOwner (known : List (Nat × Bool))
    (head i : Nat) : (Sender.nextOwner c k known head i).slot = none := by
  unfold Sender.nextOwner
  split
  · rfl
  · rw [slot_finish]
    rfl

@[simp] theorem Sender.slot_afterPut (err : Option Err) :
    (Sender.afterPut c k err).slot = none := by
  unfold Sender.afterPut
  split
  · rw [slot_finish]; rfl
  · split
    · exact slot_blocked c k
    · rfl
  · rw [slot_finish]; rfl

@[simp] theorem Sender.acquiring_after (r : Result) : (Sender.after r).acquiring = false := by
  cases r <;> rfl

@[simp] theorem Sender.acquiring_finish (r : Result) :
    (Sender.finish c k r).acquiring = false := by
  cases k <;> cases r <;> rfl

@[simp] theorem Sender.acquiring_blocked :
    (Sender.blocked c k).acquiring = false := by
  cases k <;> rfl

@[simp] theorem Sender.acquiring_nextFree (i : Nat) :
    (Sender.nextFree c k i).acquiring = false := by
  unfold Sender.nextFree
  split <;> rfl

@[simp] theorem Sender.acquiring_nextOwner (known : List (Nat × Bool))
    (head i : Nat) : (Sender.nextOwner c k known head i).acquiring = false := by
  unfold Sender.nextOwner
  split
  · rfl
  · exact acquiring_finish _ _ _

@[simp] theorem Sender.acquiring_afterPut (err : Option Err) :
    (Sender.afterPut c k err).acquiring = false := by
  unfold Sender.afterPut
  split
  · exact acquiring_finish _ _ _
  · split
    · exact acquiring_blocked c k
    · rfl
  · exact acquiring_finish _ _ _

end Places

variable {p : Sender} {known : List (Nat × Bool)} {i : Nat} {q q' : Producer} {C : Ring.Capacity}
  {sh sh' : Ring.Shared}

/-- **What a step of a sender does about slots.** -/
theorem Sender.step_move {p' : Sender} {a : SendAct} {x : Access} (hok : p.Ok K t w)
    (h : p.step K t w a = some (p', x)) : Sender.Move K t w p p' x := by
  cases Sender.step_rule h with
  | pop idle => exact .pop _ _ _ _ rfl rfl idle
  | free owner => exact .acquire _ _ _ rfl rfl hok (.inl owner)
  | @takeOver c k known head i owner same =>
    obtain ⟨-, hb, -, hne, hdead⟩ := hok
    subst same
    exact .acquire i c k rfl rfl hb (.inr ⟨hne, hdead, known, head, rfl⟩)
  | clearAt => exact .wipe _ _ _ rfl rfl
  | addOwned => exact .adopt _ _ _ rfl rfl
  | putSlot => exact .push _ rfl (slot_afterPut ..) (acquiring_afterPut ..)
  | finished => exact .push _ rfl rfl rfl
  -- the steps whose next place is computed
  | peerGone | unlinked | opened => exact .plain (slot_finish ..) trivial (acquiring_finish ..)
  | linked => exact .plain (slot_blocked ..) trivial (acquiring_blocked ..)
  | notFree => exact .plain (slot_nextFree ..) trivial (acquiring_nextFree ..)
  | skipOwner | notPassed | alive | lost =>
    exact .plain (slot_nextOwner ..) trivial (acquiring_nextOwner ..)
  | @result c r => exact .plain (by cases r <;> rfl) trivial (acquiring_after r)
  | begin | ring | put | commit | abort | finishing => exact .plain rfl rfl rfl
  | _ => exact .plain rfl trivial rfl

/-- The answers stay right while processes die. -/
theorem KnownOk.mono (h : KnownOk w known) (hd : ∀ p ∈ w.dead, p ∈ w'.dead) :
    KnownOk w' known := fun p hp => hd p (h p hp)

/-- What a search has found stays right while processes die. -/
theorem Sender.Ok.mono (h : p.Ok K t w) (hd : ∀ p ∈ w.dead, p ∈ w'.dead) : p.Ok K t w' := by
  cases p with
  | loadOwner c k known head i => exact ⟨h.1.mono hd, h.2⟩
  | loadAt c k known head i owner | loadSize c k known head i owner cursor
  | judge c k known head i owner => exact ⟨h.1.mono hd, h.2⟩
  | casOwner c k known head i owner =>
    obtain ⟨h1, h2, h3, h4, h5⟩ := h
    exact ⟨h1.mono hd, h2, h3, h4, hd _ h5⟩
  | casFree c k i => exact h
  | _ => trivial

theorem Sender.ok_after (r : Result) : (Sender.after r).Ok K t w := by
  cases r <;> trivial

theorem Sender.ok_finish (c : Call) (k : Try) (r : Result) : (Sender.finish c k r).Ok K t w := by
  cases k <;> cases r <;> trivial

theorem Sender.ok_blocked (c : Call) (k : Try) : (Sender.blocked c k).Ok K t w := by
  cases k <;> trivial

/-- The search goes on with the answers it has. -/
theorem Sender.ok_nextOwner {head : Nat} (c : Call) (k : Try) (h : KnownOk w known) :
    (Sender.nextOwner c k known head i).Ok K t w := by
  unfold Sender.nextOwner
  split
  · next hlt => exact ⟨h, hlt⟩
  · exact ok_finish c k _

/-- The answer of `isDead` that is asked, or remembered, is right if it says "dead". -/
theorem KnownOk.lookup (h : KnownOk w known) {owner : Nat}
    (hdead : (known.lookup owner).getD (w.isDead owner) = true) : owner ∈ w.dead := by
  cases hl : known.lookup owner with
  | none =>
    rw [hl] at hdead
    simp only [Option.getD_none, World.isDead, Bool.and_eq_true, decide_eq_true_eq] at hdead
    exact hdead.2
  | some b =>
    rw [hl] at hdead
    obtain rfl : b = true := hdead
    obtain ⟨l1, l2, rfl, -⟩ := List.lookup_eq_some_iff.mp hl
    exact h owner (by simp)

/-- The search remembers the answer. -/
theorem KnownOk.cons (h : KnownOk w known) (owner : Nat) :
    KnownOk w ((owner, (known.lookup owner).getD (w.isDead owner)) :: known) := by
  intro p hp
  rcases List.mem_cons.mp hp with heq | hp
  · obtain ⟨rfl, hd⟩ := Prod.mk.inj heq
    exact h.lookup hd.symm
  · exact h p hp

/-- A step of the search keeps what it knows. -/
theorem Sender.step_ok {p' : Sender} {a : SendAct} {x : Access} (hok : p.Ok K t w)
    (h : p.step K t w a = some (p', x)) : p'.Ok K t w := by
  cases Sender.step_rule h with
  | noIdle => exact (by decide : 0 < claimSlots)
  | notFree =>
    unfold nextFree
    split
    · assumption
    · trivial
  | loadHead => exact ⟨fun p hp => absurd hp (by simp), by decide⟩
  | loadOwner some other => exact ⟨hok.1, hok.2, some, other⟩
  | noClaim | loadAt | loadSize => exact hok
  | skipOwner | notPassed | lost => exact ok_nextOwner _ _ hok.1
  | dead hdead => exact ⟨hok.1.cons _, hok.2.1, hok.2.2.1, hok.2.2.2, hok.1.lookup hdead⟩
  | alive => exact ok_nextOwner _ _ (hok.1.cons _)
  | @putSlot c k i err =>
    unfold afterPut
    split
    · exact ok_finish ..
    · split
      · exact ok_blocked ..
      · trivial
    · exact ok_finish ..
  | peerGone | unlinked | opened => exact ok_finish ..
  | linked => exact ok_blocked ..
  | result => exact ok_after _
  | _ => trivial

/-! ### The ring operation of a goroutine -/

/-- A claim is refused at once, or runs under its slot. -/
theorem Producer.start_slot (C : Ring.Capacity) (slot : Option Nat) (typ : Word) (length : Int)
    (payload : Option (List UInt8)) :
    (∃ last, Producer.start C slot typ length payload = .idle last) ∨
      (Producer.start C slot typ length payload).slot = slot := by
  unfold Producer.start
  split
  · exact .inl ⟨_, rfl⟩
  · split
    · exact .inl ⟨_, rfl⟩
    · exact .inr rfl

/-- An attempt that opened no claim has left its producer idle. -/
theorem Sender.runs_finish {p : Producer} (c : Call) (k : Try) {r : Result}
    (h : ∃ last, p = .idle last) (hr : r.slot = none) : (Sender.finish c k r).Runs p := by
  cases r with
  | opened i => cases hr
  | sent | fail e => cases k <;> exact h

/-- One that opened a claim holds it. -/
theorem Sender.runs_opened {p : Producer} {c : Ring.Claim} (c' : Call) (k : Try) (h : p = .held c)
    (hs : c.slot = some i) : (Sender.finish c' k (.opened i)).Runs p := by
  cases k <;> exact ⟨c, h, hs⟩

/-- A goroutine that waits runs no ring operation. -/
theorem Sender.runs_blocked {p : Producer} (c : Call) (k : Try) (h : ∃ last, p = .idle last) :
    (Sender.blocked c k).Runs p := by
  cases k <;> exact h

/-- Nor does one that looks for a slot. -/
theorem Sender.runs_nextOwner {p : Producer} (c : Call) (k : Try) (known : List (Nat × Bool))
    (head i : Nat) (h : ∃ last, p = .idle last) : (Sender.nextOwner c k known head i).Runs p := by
  unfold Sender.nextOwner
  split
  · exact h
  · exact runs_finish c k h rfl

/-- A ring operation under a slot is run by a goroutine that keeps the slot. -/
theorem Sender.Runs.keeps (h : p.Runs q) (hq : q.slot = some i) : p.slot = some i := by
  have hidle : ¬ ∃ last, q = .idle last := by
    rintro ⟨last, rfl⟩
    cases hq
  cases p with
  | ring c k j =>
    have hj := h.resolve_left hidle
    exact hj.symm.trans hq
  | held j =>
    obtain ⟨c, rfl, hc⟩ := h
    exact hc.symm.trans hq
  | finishing j =>
    obtain ⟨c, rfl | rfl, hc⟩ := h.resolve_left hidle <;> exact hc.symm.trans hq
  | subWaiter c n =>
    cases n with
    | done r =>
      cases r with
      | opened j =>
        obtain ⟨c, rfl, hc⟩ := h
        exact hc.symm.trans hq
      | _ => exact absurd h hidle
    | _ => exact absurd h hidle
  | _ => exact absurd h hidle

/-- A goroutine in front of the compare-and-swap on `tail` has a slot. -/
theorem Sender.Runs.casTail {q : Ring.Req} {tail : Nat} (h : p.Runs (.casTail q tail)) :
    ∃ i, q.slot = some i := by
  cases p with
  | ring c k i =>
    rcases h with ⟨last, h⟩ | h
    · cases h
    · exact ⟨i, h⟩
  | held i =>
    obtain ⟨c, h, -⟩ := h
    cases h
  | finishing i =>
    rcases h with ⟨last, h⟩ | ⟨c, h | h, -⟩ <;> cases h
  | subWaiter c n =>
    rcases n with (_ | i | _) | _ | _
    case done.opened =>
      obtain ⟨c, h, -⟩ := h
      cases h
    all_goals
      obtain ⟨_, h⟩ := h
      cases h
  | _ =>
    obtain ⟨_, h⟩ := h
    cases h

/-- The first access of a call starts the ring operation under its slot. -/
theorem Sender.runs_begin {c : Call} {k : Try} (hq : ∃ last, q = .idle last)
    (hs : q.step C t sh (c.act i) = some (sh', q')) : (Sender.ring c k i).Runs q' := by
  obtain ⟨last, rfl⟩ := hq
  cases c <;>
  · obtain ⟨-, rfl⟩ := by simpa [Call.act, Producer.step] using hs
    exact Producer.start_slot ..

/-- A ring operation that goes on keeps its slot, or ends. -/
theorem Sender.runs_ring {c : Call} {k : Try} {b : ProdAct} (hr : (Sender.ring c k i).Runs q)
    (hbusy : ∀ err, q ≠ .idle err) (hs : q.step C t sh b = some (sh', q')) : (Sender.ring c k i).Runs q' := by
  have hslot : q.slot = some i := by
    rcases hr with ⟨last, hl⟩ | hl
    · exact absurd hl (hbusy last)
    · exact hl
  rcases Producer.step_slot hs with ⟨last, hi⟩ | hi | hi
  · exact absurd hi (hbusy last)
  · exact .inl hi
  · exact .inr (hi.trans hslot)

/-- A byte written into an open claim leaves it open. -/
theorem Sender.runs_put {off : Nat} {b : UInt8} (hr : (Sender.held i).Runs q)
    (hs : q.step C t sh (.put off b) = some (sh', q')) : (Sender.held i).Runs q' := by
  obtain ⟨c, rfl, hc⟩ := hr
  simp only [Producer.step] at hs
  split at hs <;> cases hs
  exact ⟨c, rfl, hc⟩

/-- The end of a claim: the header of an abort, then the slot. -/
theorem Sender.runs_finishing (hr : (Sender.finishing i).Runs q) (hbusy : ∀ err, q ≠ .idle err)
    (hs : q.step C t sh .step = some (sh', q')) : (Sender.finishing i).Runs q' := by
  rcases hr with ⟨last, hl⟩ | ⟨c, rfl | rfl, hc⟩
  · exact absurd hl (hbusy last)
  · cases hs
    exact .inr ⟨c, .inr rfl, hc⟩
  · cases hs
    exact .inl ⟨_, rfl⟩

/-- A step of the queue operation and a step of the ring operation fit together: the ring
    operation moves only with an access of its own. -/
theorem Sender.step_runs {p' : Sender} {a : SendAct} {x : Access} (hq : w.ring.prods t = q) (hr : p.Runs q)
    (h : p.step K t w a = some (p', x)) :
    ((∀ b, x ≠ .prod t b) → p'.Runs q) ∧
      ∀ b sh q', x = .prod t b → q.step K.cap t w.sh b = some (sh, q') → p'.Runs q' := by
  have quiet : ∀ {u : Sender} {y : Access}, (∀ b, y ≠ .prod t b) → u.Runs q →
      ((∀ b, y ≠ .prod t b) → u.Runs q) ∧
        ∀ b sh q', y = .prod t b → q.step K.cap t w.sh b = some (sh, q') → u.Runs q' :=
    fun hne hu => ⟨fun _ => hu, fun b _ _ hx => absurd hx (hne b)⟩
  have moves : ∀ {u : Sender} {b : ProdAct},
      (∀ sh q', q.step K.cap t w.sh b = some (sh, q') → u.Runs q') →
      ((∀ b', Access.prod t b ≠ .prod t b') → u.Runs q) ∧
        ∀ b' sh q', Access.prod t b = .prod t b' → q.step K.cap t w.sh b' = some (sh, q') →
          u.Runs q' := by
    intro u b hu
    refine ⟨fun hne => absurd rfl (hne b), ?_⟩
    intro b' sh q' hx hs
    cases hx
    exact hu sh q' hs
  cases Sender.step_rule h with
  -- the steps of the ring operation
  | begin => exact moves fun _ _ => runs_begin hr
  | ring busy => exact moves fun _ _ => runs_ring hr (hq ▸ busy)
  | put => exact moves fun _ _ => runs_put hr
  | finishing busy => exact moves fun _ _ => runs_finishing hr (hq ▸ busy)
  | commit =>
    refine moves fun sh q' hs => ?_
    obtain ⟨c, rfl, hc⟩ := hr
    cases hs
    exact .inr ⟨c, .inr rfl, hc⟩
  | abort =>
    refine moves fun sh q' hs => ?_
    obtain ⟨c, rfl, hc⟩ := hr
    cases hs
    exact .inr ⟨c, .inl rfl, hc⟩
  -- the ring operation stands
  | returned prod => exact quiet nofun ⟨_, hq.symm.trans prod⟩
  | finished prod => exact quiet nofun ⟨_, hq.symm.trans prod⟩
  | @opened c k i claim prod =>
    obtain rfl := hq.symm.trans prod
    refine quiet nofun (runs_opened c k rfl ?_)
    rcases hr with ⟨last, hl⟩ | hl
    · cases hl
    · exact hl
  | notFree =>
    refine quiet nofun ?_
    unfold nextFree
    split <;> exact hr
  | skipOwner | notPassed | alive | lost => exact quiet nofun (runs_nextOwner _ _ _ _ _ hr)
  | @putSlot c k i err =>
    refine quiet nofun ?_
    unfold afterPut
    split
    · exact runs_finish c k hr rfl
    · split
      · exact runs_blocked c k hr
      · exact hr
    · exact runs_finish c k hr rfl
  | peerGone | unlinked => exact quiet nofun (runs_finish _ _ hr rfl)
  | linked => exact quiet nofun (runs_blocked _ _ hr)
  | @result c r => cases r <;> exact quiet nofun hr
  | _ => exact quiet nofun hr

end GoIpc.Queue
