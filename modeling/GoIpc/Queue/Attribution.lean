import GoIpc.Queue.Slots
import GoIpc.Ring.Delivery
import GoIpc.Ring.Reclaim

namespace GoIpc.Queue

open GoIpc.Lib
open GoIpc.Ring (Entry Producer ProdAct Shared Held LogStep SlotStep claimSlots noIntent)
open Function (update update_self update_of_ne)

/-!
# The invariant of the queue

`QInv` ties the parts together: the ring invariant, the discipline of the slots, the attribution
of every unfinished claim to a slot of its process, and what the receiver has found out where it
stands.  The receiver may reclaim because of two facts it carries from step to step:

* `Attributed` — an unfinished claim that the reader has not passed stands in a slot, with its
  exact range and its process as the owner;
* `Recv.Local` — if the claim at `head` is still unfinished, that slot is among those found, and
  once it is judged, its process is dead and its end is the agreed one.

Two races can break the attribution: a takeover that finds the slot in use again (`passed`
excludes it), and a `reclaim` that clears a slot whose intent is a later one (`clearOk`).
-/

variable {K : Config} {s s' : Sys} {w w' : World} {t i : Nat}

/-! ### Intents and attribution -/

/-- What a producer in front of its compare-and-swap has recorded in its slot.  Once `tail` has
    moved on the compare-and-swap will fail, and the record does not matter. -/
def Intent (C : Ring.Capacity) (sh : Shared) : Producer → Prop
  | .storeAt q tail => ∀ i, q.slot = some i → (sh.slots i).size = q.need C tail
  | .casTail q tail => ∀ i, q.slot = some i →
      ((sh.slots i).cursor = tail ∧ (sh.slots i).size = q.need C tail) ∨ tail < sh.tail
  | _ => True

/-- The claim stands in the slot of its producer. -/
def Attributed (K : Config) (w : World) (e : Entry) : Prop :=
  ∃ i, e.slot = some i ∧ i < claimSlots ∧ w.sh.slots i = ⟨K.proc e.owner, e.cursor, e.size⟩

theorem Attributed.was {e e' : Entry} (h : Attributed K w e) (hw : e.Same e')
    (hs : ∀ i, e.slot = some i → w'.sh.slots i = w.sh.slots i) : Attributed K w' e' := by
  obtain ⟨i, hi, hb, hslot⟩ := h
  refine ⟨i, hw.slot ▸ hi, hb, ?_⟩
  rw [hs i hi, hslot, hw.owner, hw.cursor, hw.size]

/-! ### What the receiver knows -/

/-- The unfinished claim that covers `c`. -/
def Blocked (w : World) (c : Nat) (e : Entry) : Prop :=
  e ∈ w.sh.log ∧ e.cursor ≤ c ∧ c < e.stop ∧ e.Unfinished

/-- The stall is where the reader stands. -/
structure Stall.At (w : World) (st : Stall) : Prop where
  head : st.cursor = w.sh.head
  tail : st.cursor < w.sh.tail
  length : st.length ≤ 0

/-- The claim has been judged: its slot is among the dead ones, and its end is the agreed one. -/
structure Found (K : Config) (w : World) (j : Judged) (e : Entry) (n : Nat) : Prop where
  mem : n ∈ j.dead
  stop : j.stop = e.stop
  dead : K.proc e.owner ∈ w.dead

/-- What the receiver knows where it stands. -/
def Recv.Local (K : Config) (w : World) : Recv → Prop
  | .stallTail _ _ head => head = w.sh.head
  | .stallLen _ _ head => head = w.sh.head ∧ head < w.sh.tail
  | .slotAt _ _ st i => st.At w ∧ ∀ e, Blocked w st.cursor e → ∀ n, e.slot = some n →
      n < i → n ∈ st.slots
  | .slotSize _ _ st i cursor => st.At w ∧ ∀ e, Blocked w st.cursor e → ∀ n, e.slot = some n →
      (n < i → n ∈ st.slots) ∧ (n = i → cursor = e.cursor)
  | .loadOwner _ _ st j i rest => st.At w ∧ ∀ e, Blocked w st.cursor e → ∀ n, e.slot = some n →
      Found K w j e n ∨ n ∈ rest ∨ n = i
  | .loadAt _ _ st j i rest owner => st.At w ∧ ∀ e, Blocked w st.cursor e → ∀ n, e.slot = some n →
      Found K w j e n ∨ n ∈ rest ∨ (n = i ∧ owner = K.proc e.owner)
  | .loadSize _ _ st j i rest owner cursor => st.At w ∧ ∀ e, Blocked w st.cursor e →
      ∀ n, e.slot = some n →
      Found K w j e n ∨ n ∈ rest ∨ (n = i ∧ owner = K.proc e.owner ∧ cursor = e.cursor)
  | .judge _ _ st j i rest owner cursor size => st.At w ∧ ∀ e, Blocked w st.cursor e →
      ∀ n, e.slot = some n →
      Found K w j e n ∨ n ∈ rest ∨ (n = i ∧ owner = K.proc e.owner ∧ cursor + size = e.stop)
  | .casLength _ _ st j => st.At w ∧ ∀ e, Blocked w st.cursor e → ∀ n, e.slot = some n →
      Found K w j e n
  | .padType _ _ st j size => st.At w ∧ ∀ e ∈ w.sh.log, e.cursor ≤ st.cursor → st.cursor < e.stop →
      e.Taken ∧ (st.cursor + size = j.stop → ¬ e.Unfinished)
  | .clearAt _ _ st _ _ _ => st.At w ∧ ∀ e ∈ w.sh.log, e.cursor ≤ st.cursor → st.cursor < e.stop →
      ¬ e.Unfinished
  | _ => True

/-- The header whose padding type is still missing. -/
def Recv.mend : Recv → Option Nat
  | .padType _ _ st _ _ => some st.cursor
  | _ => none

/-- `Read` is running. -/
def Recv.isReading : Recv → Bool
  | .reading .. => true
  | _ => false

/-- The invariant of the queue. -/
structure QInv (K : Config) (s : Sys) : Prop where
  ring : Ring.Inv K.cap s.recv.mend s.world.ring
  held : Held s.world.ring
  reader : s.recv.isReading = true ∨ ∃ last, s.world.ring.reader = .idle last
  runs : ∀ t, (s.senders t).Runs (s.world.ring.prods t)
  search : ∀ t, (s.senders t).Ok K t s.world
  slots : SlotInv K s
  intents : ∀ t, K.proc t ∉ s.world.dead → Intent K.cap s.world.sh (s.world.ring.prods t)
  attributed : ∀ e ∈ s.world.sh.log, e.Unfinished → s.world.sh.head < e.stop →
    Attributed K s.world e
  taken : ∀ e ∈ s.world.sh.log, e.Taken → K.proc e.owner ∈ s.world.dead
  recv : s.recv.Local K s.world

theorem QInv.start : QInv K Sys.start where
  ring := Ring.Inv.start K.cap
  held := Held.start
  reader := .inr ⟨_, rfl⟩
  runs _ := ⟨_, rfl⟩
  search _ := trivial
  slots := SlotInv.start
  intents _ _ := trivial
  attributed e he := by cases he
  taken e he := by cases he
  recv := trivial

/-! ### The conditions -/

/-- A takeover finds the slot's intent cleared or passed, as it did when it looked. -/
def passed (s : Sys) : Act → Bool
  | .send t .step =>
      match s.senders t with
      | .casOwner _ _ _ _ i owner =>
          let slot := s.world.sh.slots i
          slot.owner ≠ owner ∨ slot.cursor = noIntent ∨ slot.cursor + slot.size ≤ s.world.sh.head
      | _ => true
  | _ => true

/-- `reclaim` finds in a slot it clears no intent, or one that does not begin behind the claim it
    reclaimed. -/
def clearOk (s : Sys) : Act → Bool
  | .recv .step =>
      match s.recv with
      | .clearAt _ _ st _ i _ =>
          let cursor := (s.world.sh.slots i).cursor
          cursor = noIntent ∨ cursor ≤ st.cursor
      | _ => true
  | _ => true

/-! ### Steps of the ring operations -/

/-- A producer keeps its slot in step with its claim. -/
theorem Intent.step {C : Ring.Capacity} {sh sh' : Shared} {p p' : Producer} {a : ProdAct}
    (hI : Intent C sh p) (h : p.step C t sh a = some (sh', p')) : Intent C sh' p' := by
  have hintent : ∀ q tail, Intent C sh' (Producer.intent q tail) := by
    intro q tail
    unfold Producer.intent
    split
    · trivial
    · next hs =>
      intro i hi
      rw [hs] at hi
      cases hi
  cases Producer.step_rule h with
  | tryClaim | tryWrite =>
    unfold Producer.start
    split
    · trivial
    · split <;> trivial
  | cached | storeCache => exact hintent ..
  | @storeSize q tail n slot =>
    intro i hi
    obtain rfl := Option.some.inj (slot.symm.trans hi)
    show (update sh.slots n _ n).size = _
    rw [update_self]
  | @storeAt q tail n slot =>
    intro i hi
    obtain rfl := Option.some.inj (slot.symm.trans hi)
    refine .inl ?_
    show (update sh.slots n _ n).cursor = _ ∧ (update sh.slots n _ n).size = _
    rw [update_self]
    exact ⟨rfl, hI n hi⟩
  | noSize slot | noAt slot => exact fun i hi => by rw [slot] at hi; cases hi
  | _ => trivial

/-- A producer's record survives what leaves its slot alone and moves `tail` forward. -/
theorem Intent.stable {C : Ring.Capacity} {sh sh' : Shared} {p : Producer} (hI : Intent C sh p)
    (hslots : ∀ i, p.slot = some i → (sh'.slots i).cursor = (sh.slots i).cursor ∧
      (sh'.slots i).size = (sh.slots i).size) (htail : sh.tail ≤ sh'.tail) : Intent C sh' p := by
  cases p with
  | storeAt q tail =>
    intro i hi
    rw [(hslots i hi).2]
    exact hI i hi
  | casTail q tail =>
    intro i hi
    obtain ⟨hc, hs⟩ := hslots i hi
    rw [hc, hs]
    exact (hI i hi).imp_right (fun h => by omega)
  | _ => trivial

/-! ### Stability -/

theorem Blocked.was {c : Nat} {e' : Entry} (h : Blocked w' c e') {e : Entry} (he : e ∈ w.sh.log)
    (hw : e.Same e') : Blocked w c e :=
  ⟨he, hw.cursor ▸ h.2.1, hw.stop ▸ h.2.2.1, hw.unfinished h.2.2.2⟩

theorem Found.was {j : Judged} {n : Nat} {e e' : Entry} (h : Found K w j e n) (hw : e.Was e')
    (hd : ∀ p ∈ w.dead, p ∈ w'.dead) : Found K w' j e' n :=
  ⟨h.mem, h.stop.trans hw.stop, hd _ (hw.owner ▸ h.dead)⟩

/-- What the receiver knows survives every step of the others: they do not move `head`, they add
    claims only at `tail`, and they bring no claim back. -/
theorem Recv.Local.stable {r : Recv} (h : r.Local K w) (hhead : w'.sh.head = w.sh.head)
    (htail : w.sh.tail ≤ w'.sh.tail) (hd : ∀ p ∈ w.dead, p ∈ w'.dead)
    (hwas : ∀ e' ∈ w'.sh.log, e'.cursor < w.sh.tail →
      ∃ e ∈ w.sh.log, e.Was e' ∧ (e.Taken → e'.Taken)) : r.Local K w' := by
  have hat : ∀ st : Stall, st.At w → st.At w' := fun st h =>
    ⟨h.head.trans hhead.symm, lt_of_lt_of_le h.tail htail, h.length⟩
  have hback : ∀ {st : Stall} {e' : Entry}, st.At w → Blocked w' st.cursor e' →
      ∃ e, Blocked w st.cursor e ∧ e.Was e' := by
    intro st e' hst hb
    obtain ⟨e, he, hw, -⟩ := hwas e' hb.1 (lt_of_le_of_lt hb.2.1 hst.tail)
    exact ⟨e, hb.was he hw.toSame, hw⟩
  -- each place speaks of the record at the head, which is the one it was
  cases r with
  | stallTail l k head => exact h.trans hhead.symm
  | stallLen l k head => exact ⟨h.1.trans hhead.symm, lt_of_lt_of_le h.2 htail⟩
  | slotAt l k st i =>
    refine ⟨hat st h.1, fun e' hb n hn => ?_⟩
    obtain ⟨e, he, hw⟩ := hback h.1 hb
    exact h.2 e he n (hw.slot.trans hn)
  | slotSize l k st i cursor =>
    refine ⟨hat st h.1, fun e' hb n hn => ?_⟩
    obtain ⟨e, he, hw⟩ := hback h.1 hb
    rw [← hw.cursor]
    exact h.2 e he n (hw.slot.trans hn)
  | loadOwner l k st j i rest =>
    refine ⟨hat st h.1, fun e' hb n hn => ?_⟩
    obtain ⟨e, he, hw⟩ := hback h.1 hb
    exact (h.2 e he n (hw.slot.trans hn)).imp_left (fun hf => hf.was hw hd)
  | loadAt l k st j i rest owner =>
    refine ⟨hat st h.1, fun e' hb n hn => ?_⟩
    obtain ⟨e, he, hw⟩ := hback h.1 hb
    rw [← hw.owner]
    exact (h.2 e he n (hw.slot.trans hn)).imp_left (fun hf => hf.was hw hd)
  | loadSize l k st j i rest owner cursor =>
    refine ⟨hat st h.1, fun e' hb n hn => ?_⟩
    obtain ⟨e, he, hw⟩ := hback h.1 hb
    rw [← hw.owner, ← hw.cursor]
    exact (h.2 e he n (hw.slot.trans hn)).imp_left (fun hf => hf.was hw hd)
  | judge l k st j i rest owner cursor size =>
    refine ⟨hat st h.1, fun e' hb n hn => ?_⟩
    obtain ⟨e, he, hw⟩ := hback h.1 hb
    rw [← hw.owner, ← hw.stop]
    exact (h.2 e he n (hw.slot.trans hn)).imp_left (fun hf => hf.was hw hd)
  | casLength l k st j =>
    refine ⟨hat st h.1, fun e' hb n hn => ?_⟩
    obtain ⟨e, he, hw⟩ := hback h.1 hb
    exact (h.2 e he n (hw.slot.trans hn)).was hw hd
  | padType l k st j size =>
    refine ⟨hat st h.1, fun e' he' h1 h2 => ?_⟩
    obtain ⟨e, he, hw, ht⟩ := hwas e' he' (lt_of_le_of_lt h1 h.1.tail)
    obtain ⟨htk, hfin⟩ := h.2 e he (hw.cursor ▸ h1) (hw.stop ▸ h2)
    exact ⟨ht htk, fun hst hu => hfin hst (hw.unfinished hu)⟩
  | clearAt l k st j i rest =>
    refine ⟨hat st h.1, fun e' he' h1 h2 hu => ?_⟩
    obtain ⟨e, he, hw, -⟩ := hwas e' he' (lt_of_le_of_lt h1 h.1.tail)
    exact h.2 e he (hw.cursor ▸ h1) (hw.stop ▸ h2) (hw.unfinished hu)
  | _ => trivial

namespace QInv

/-- No live party but the producer itself keeps the slot of an unfinished claim. -/
theorem alone (h : QInv K s) {k : Keeper} (hk : s.Keeps k i) (hl : K.procOf k ∉ s.world.dead)
    {e : Entry} (he : e ∈ s.world.sh.log) (hu : e.Unfinished) (hslot : e.slot = some i)
    (howner : (s.world.sh.slots i).owner = K.proc e.owner) :
    k = .sender e.owner ∧ (s.world.ring.prods e.owner).cursor = some e.cursor := by
  have hproc : K.procOf k = K.proc e.owner := (h.slots.live k i hk hl).symm.trans howner
  have hst : e.state = .claimed := by
    rcases hu with hst | hst
    · exact hst
    · exact absurd (hproc ▸ h.taken e he ⟨_, hst⟩) hl
  obtain ⟨hc, hs⟩ := h.held e he hst
  have hke : s.Keeps (.sender e.owner) i := (h.runs e.owner).keeps (hs.trans hslot)
  exact ⟨h.slots.unique _ _ i hk hke hproc, hc⟩

/-- A live goroutine has not lost its claim to the receiver. -/
theorem not_lost (h : QInv K s) (hl : K.proc t ∉ s.world.dead) :
    ¬ Ring.Lost s.world.sh t (s.world.ring.prods t) := by
  rintro ⟨e, he, -, rfl, ht⟩
  exact hl (h.taken e he ht)

/-! ### Steps of the senders -/

/-- A step that leaves the ring alone. -/
theorem same (h : QInv K s) (hring : s'.world.ring = s.world.ring)
    (hd : ∀ p ∈ s.world.dead, p ∈ s'.world.dead)
    (hruns : ∀ t, (s'.senders t).Runs (s.world.ring.prods t))
    (hsearch : ∀ t, (s'.senders t).Ok K t s'.world) (hslots : SlotInv K s')
    (hmend : s'.recv.mend = s.recv.mend)
    (hreader : s'.recv.isReading = true ∨ ∃ last, s.world.ring.reader = .idle last)
    (hrecv : s'.recv.Local K s'.world) : QInv K s' := by
  have hsh : s'.world.sh = s.world.sh := congrArg Ring.Sys.sh hring
  refine ⟨?_, ?_, ?_, ?_, hsearch, hslots, ?_, ?_, ?_, hrecv⟩
  · rw [hring, hmend]; exact h.ring
  · rw [hring]; exact h.held
  · rw [hring]; exact hreader
  · rw [hring]; exact hruns
  · intro t hl
    rw [hsh, hring]
    exact h.intents t (fun hm => hl (hd _ hm))
  · intro e he hu hlt
    rw [hsh] at he hlt
    exact (h.attributed e he hu hlt).was (.refl e) (fun i _ => by rw [hsh])
  · intro e he ht
    rw [hsh] at he
    exact hd _ (h.taken e he ht)

/-- What the receiver knows survives a step of the others that leaves the history alone. -/
theorem recv_stable (h : QInv K s) (hlog : s'.world.sh.log = s.world.sh.log)
    (hhead : s'.world.sh.head = s.world.sh.head) (htail : s'.world.sh.tail = s.world.sh.tail)
    (hd : ∀ p ∈ s.world.dead, p ∈ s'.world.dead) (hrecv : s'.recv = s.recv) :
    s'.recv.Local K s'.world := by
  rw [hrecv]
  refine h.recv.stable hhead (le_of_eq htail.symm) hd ?_
  intro e he _
  rw [hlog] at he
  exact ⟨e, he, .refl e, id⟩

/-- A step that changes slot `i` only. -/
theorem slot (h : QInv K s) {v : Ring.Slot}
    (hring : s'.world.ring = { s.world.ring with
      sh := { s.world.sh with slots := update s.world.sh.slots i v } })
    (hd : s'.world.dead = s.world.dead)
    (hruns : ∀ t, (s'.senders t).Runs (s.world.ring.prods t))
    (hsearch : ∀ t, (s'.senders t).Ok K t s'.world) (hslots : SlotInv K s')
    (hmend : s'.recv.mend = s.recv.mend)
    (hreader : s'.recv.isReading = true ∨ ∃ last, s.world.ring.reader = .idle last)
    (hrecv : s'.recv.Local K s'.world)
    (hintent : ∀ t, K.proc t ∉ s.world.dead → (s.world.ring.prods t).slot = some i →
      Intent K.cap s'.world.sh (s.world.ring.prods t))
    (hattr : ∀ e ∈ s.world.sh.log, e.Unfinished → s.world.sh.head < e.stop → e.slot = some i →
      s.world.sh.slots i ≠ ⟨K.proc e.owner, e.cursor, e.size⟩) : QInv K s' := by
  have hsh : s'.world.sh = { s.world.sh with slots := update s.world.sh.slots i v } :=
    congrArg Ring.Sys.sh hring
  have hslot : ∀ j, j ≠ i → s'.world.sh.slots j = s.world.sh.slots j := by
    intro j hj
    rw [hsh]
    exact update_of_ne hj _ _
  refine ⟨?_, ?_, ?_, ?_, hsearch, hslots, ?_, ?_, ?_, hrecv⟩
  · rw [hring, hmend]
    exact h.ring.slots _
  · rw [hring]
    exact h.held
  · rwa [hring]
  · rwa [hring]
  · intro t hl
    rw [hd] at hl
    rw [show s'.world.ring.prods = s.world.ring.prods by rw [hring]]
    -- only an intent in slot `i` can have changed
    by_cases hti : (s.world.ring.prods t).slot = some i
    · exact hintent t hl hti
    · refine (h.intents t hl).stable ?_ (by rw [hsh])
      intro j hj
      rw [hslot j (by rintro rfl; exact hti hj)]
      exact ⟨rfl, rfl⟩
  · intro e he hu hlt
    rw [hsh] at he hlt
    have ha := h.attributed e he hu hlt
    refine ha.was (.refl e) (fun j hj => ?_)
    -- a record that counts on slot `i` is finished or passed, by `hattr`
    by_cases hji : j = i
    · subst hji
      obtain ⟨n, hn, -, hsl⟩ := ha
      rw [hj] at hn
      cases hn
      exact absurd hsl (hattr e he hu hlt hj)
    · exact hslot j hji
  · intro e he ht
    rw [hsh] at he
    rw [hd]
    exact h.taken e he ht

/-- No live goroutine runs a ring operation under a slot that another live party keeps. -/
theorem prod_other (h : QInv K s) {k : Keeper} (hk : s.Keeps k i) (hl : K.procOf k ∉ s.world.dead)
    (hne : k ≠ .sender t) (ht : K.proc t ∉ s.world.dead) :
    (s.world.ring.prods t).slot ≠ some i := by
  intro hslot
  have hkt : s.Keeps (.sender t) i := (h.runs t).keeps hslot
  exact ht (h.slots.other hne hk hkt hl)

/-- **An access of a ring operation.** -/
theorem prod (h : QInv K s) (hl : K.proc t ∉ s.world.dead) {a : ProdAct} {sh : Shared}
    {p : Producer} (hp : (s.world.ring.prods t).step K.cap t s.world.sh a = some (sh, p))
    (hring : s'.world.ring = { s.world.ring with
      sh := sh, prods := update s.world.ring.prods t p })
    (hd : s'.world.dead = s.world.dead) (hruns : ∀ t, (s'.senders t).Runs (s'.world.ring.prods t))
    (hsearch : ∀ t, (s'.senders t).Ok K t s'.world) (hslots : SlotInv K s')
    (hrecv : s'.recv = s.recv) : QInv K s' := by
  have hsh : s'.world.sh = sh := congrArg Ring.Sys.sh hring
  have hlog := Producer.step_log hp
  have hslot := Producer.step_slots hp
  have hloc := (h.ring.prods t).resolve_left (h.not_lost hl)
  obtain ⟨hg, -⟩ := Producer.step_inv h.ring.ok hloc hp
  have hstep : s.world.ring.step K.cap (.prod t a) = some s'.world.ring := by
    rw [hring]
    exact Option.map_eq_some_iff.mpr ⟨_, hp, rfl⟩
  have hinv := h.ring.step_prod (h.not_lost hl) hstep
  -- the slot of an unfinished claim is not the one this step changes
  have hkeep : ∀ e ∈ s.world.sh.log, e.Unfinished → s.world.sh.head < e.stop →
      ∀ j, e.slot = some j → sh.slots j = s.world.sh.slots j := by
    intro e he hu hlt j hj
    apply hslot.elsewhere
    intro hpj
    obtain ⟨n, hn, -, hsl⟩ := h.attributed e he hu hlt
    obtain rfl : j = n := Option.some.inj (hj.symm.trans hn)
    have hk : s.Keeps (.sender t) j := (h.runs t).keeps hpj
    obtain ⟨hke, hc⟩ := h.alone hk hl he hu hj (by rw [hsl])
    cases hke
    rw [hc]
    simp
  refine ⟨?_, ?_, ?_, hruns, hsearch, hslots, ?_, ?_, ?_, ?_⟩
  · rwa [hrecv]
  · rw [hring]
    exact h.held.step hp
  · rw [hring, hrecv]
    exact h.reader
  · intro t' hl'
    rw [hd] at hl'
    rw [hsh, hring]
    show Intent K.cap sh (update s.world.ring.prods t p t')
    by_cases ht : t' = t
    · subst ht
      rw [update_self]
      exact (h.intents t' hl').step hp
    · rw [update_of_ne ht]
      refine (h.intents t' hl').stable ?_ hg.grows.tail
      intro j hj
      rw [hslot.elsewhere]
      · exact ⟨rfl, rfl⟩
      · intro hpj
        have hk : s.Keeps (.sender t) j := (h.runs t).keeps hpj
        exact absurd hj (h.prod_other hk hl (fun he => ht (Keeper.sender.inj he).symm) hl')
  · intro e' he' hu hlt
    rw [hsh] at he' hlt
    rw [hg.head] at hlt
    rcases hlog.was he' with ⟨e, he, hw⟩ | ⟨q, hpc, rfl, -, -⟩
    · have hu := hw.unfinished hu
      rw [← hw.stop] at hlt
      refine (h.attributed e he hu hlt).was hw.toSame (fun j hj => ?_)
      rw [hsh]
      exact hkeep e he hu hlt j hj
    · -- the new claim: its slot was written before the compare-and-swap
      have hrun := h.runs t
      rw [hpc] at hrun
      obtain ⟨i, hi⟩ := hrun.casTail
      have hk : s.Keeps (.sender t) i := (h.runs t).keeps (hpc ▸ hi)
      have hint := h.intents t hl
      rw [hpc] at hint
      obtain ⟨hcur, hsize⟩ := (hint i hi).resolve_right (lt_irrefl _)
      have howner : (s.world.sh.slots i).owner = K.proc t := h.slots.live _ i hk hl
      refine ⟨i, hi, h.slots.bound _ i hk, ?_⟩
      have hsame : s'.world.sh.slots i = s.world.sh.slots i := by
        rw [hsh]
        cases hslot with
        | same hsl => rw [hsl]
        | size _ _ _ pc => rw [hpc] at pc; cases pc
        | intent _ _ _ pc => rw [hpc] at pc; cases pc
        | release _ pc => rw [hpc] at pc; rcases pc with ⟨_, pc⟩ | ⟨_, pc⟩ <;> cases pc
      have hneed : (q.entry K.cap s.world.sh.tail t).size = q.need K.cap s.world.sh.tail :=
        (Ring.need_eq K.cap _ _).symm
      rw [hsame, hneed, ← hsize]
      show s.world.sh.slots i = ⟨K.proc t, s.world.sh.tail, _⟩
      rw [← hcur, ← howner]
  · intro e' he' ht
    rw [hsh] at he'
    rw [hd]
    rcases hlog.was he' with ⟨e, he, hw⟩ | ⟨q, _, rfl, -, -⟩
    · rw [← hw.owner]
      exact h.taken e he (hw.taken ht)
    · obtain ⟨full, hst⟩ := ht
      cases hst
  · rw [hrecv]
    refine h.recv.stable (hsh ▸ hg.head) (hsh ▸ hg.grows.tail)
      (fun p hp => hd ▸ hp) ?_
    intro e' he' hlt
    rw [hsh] at he'
    rcases hlog.was he' with ⟨e, he, hw⟩ | ⟨q, _, rfl, -, -⟩
    · refine ⟨e, he, hw, fun ht => ?_⟩
      obtain ⟨x, hx, hxc, -, hxt⟩ := hg.grows.taken e he ht
      obtain rfl := hg.ok.tiled.eq_of_lo_eq hx he' (hxc.trans hw.cursor)
      exact hxt
    · exact absurd hlt (lt_irrefl _)

end QInv

end GoIpc.Queue
