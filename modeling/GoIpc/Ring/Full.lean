import GoIpc.Ring.Rules

namespace GoIpc.Ring

open GoIpc.Lib
open Function (update update_self update_of_ne)

/-!
# What `ErrFull` says under concurrency

`tryClaim` loads `tail`, `headCache` and `head` at three different moments.  The machine of the ring is run
here with two additions: `headCache` may at any moment take an older value of `head`, and for every producer
the tail and the head at its last load of `head` are recorded.  A claim that has no room at an old tail has
none at the present one (`stop_mono`).

* `Fit` — the invariant: cursors in order, the window of the reader, and what every producer has found;
* `full_truthful` — whenever a claim fails with `full`, the record did not fit at the tail and the head of
  its last load of `head`; whenever a claim takes the tail, it has room behind the head of that moment.
-/

/-! ### The observed machine -/

/-- The call of a producer, and the tail and the head when it last loaded the head. -/
structure Look where
  q : Req
  tail : Nat
  head : Nat

structure Observed where
  sys : Sys
  looks : Nat → Option Look

inductive ObsAct
  /-- a step of the ring -/
  | act (a : Act)
  /-- `headCache` takes an older value of `head` -/
  | cache (v : Nat)

/-- What is recorded when a producer at `p` makes its next step. -/
def observe (sh : Shared) (look : Option Look) : Producer → Option Look
  | .loadHead q _ => some ⟨q, sh.tail, sh.head⟩
  | _ => look

namespace Observed

def looked (w : Observed) : Act → Nat → Option Look
  | .prod t _ => update w.looks t (observe w.sys.sh (w.looks t) (w.sys.prods t))
  | .reader _ => w.looks

def step (C : Capacity) (w : Observed) : ObsAct → Option Observed
  | .act a => (w.sys.step C a).map fun s => ⟨s, w.looked a⟩
  | .cache v =>
      if v ≤ w.sys.sh.head then
        some { w with sys := { w.sys with sh := { w.sys.sh with headCache := v } } }
      else none

end Observed

/-- The ring with its loads of the head observed. -/
def observed (C : Capacity) : Machine Observed ObsAct := ⟨⟨Sys.start, fun _ => none⟩, Observed.step C⟩

/-! ### The invariant -/

/-- At the observed moment there was no room for the record, whatever claim made it. -/
def Refused (C : Capacity) (q : Req) (look : Option Look) : Prop :=
  ∃ tail head, look = some ⟨q, tail, head⟩ ∧ head + C.size < tail + q.need C tail

/-- What a producer has found, with the present tail and head. -/
def ProdFit (C : Capacity) (tail head : Nat) (look : Option Look) : Producer → Prop
  | .loadCache _ t | .loadHead _ t => t ≤ tail
  | .storeCache q t h => h ≤ head ∧ t + q.need C t ≤ h + C.size
  | .storeSize q t | .storeAt q t | .casTail q t => t + q.need C t ≤ head + C.size
  | .giveUp q => Refused C q look
  | _ => True

/-- The window of a reader starts at the head and ends at most at the tail. -/
def LoopFit (tail head : Nat) (r : Loop) : Prop :=
  r.head = head ∧ r.head + r.available ≤ tail ∧ r.consumed ≤ r.available

def ReadFit (tail head : Nat) : Reader → Prop
  | .idle _ | .loadHead _ => True
  | .loadTail _ h => h = head
  | .loadLen r | .storeHead r => LoopFit tail head r
  | .loadType r len | .pass r len _ | .clear r len | .storeLen r len =>
      LoopFit tail head r ∧ r.consumed + align len ≤ r.available

structure Fit (C : Capacity) (w : Observed) : Prop where
  cache_le : w.sys.sh.headCache ≤ w.sys.sh.head
  head_le : w.sys.sh.head ≤ w.sys.sh.tail
  reader : ReadFit w.sys.sh.tail w.sys.sh.head w.sys.reader
  prods : ∀ t, ProdFit C w.sys.sh.tail w.sys.sh.head (w.looks t) (w.sys.prods t)

section

variable {C : Capacity} {tail head tail' head' : Nat}

/-- What a producer has found stays true while the cursors move on. -/
theorem ProdFit.mono {look : Option Look} {p : Producer} (h : ProdFit C tail head look p)
    (htail : tail ≤ tail') (hhead : head ≤ head') : ProdFit C tail' head' look p := by
  cases p with
  | loadCache | loadHead => exact Nat.le_trans h htail
  | storeCache => exact ⟨h.1.trans hhead, h.2⟩
  | storeSize | storeAt | casTail => exact Nat.le_trans h (by omega)
  | _ => exact h

theorem ReadFit.mono {r : Reader} (h : ReadFit tail head r) (htail : tail ≤ tail') :
    ReadFit tail' head r := by
  cases r with
  | loadLen | storeHead => exact ⟨h.1, h.2.1.trans htail, h.2.2⟩
  | loadType | pass | clear | storeLen => exact ⟨⟨h.1.1, h.1.2.1.trans htail, h.1.2.2⟩, h.2⟩
  | _ => exact h

theorem ProdFit.start (slot : Option Nat) (typ : Word) (length : Int) (payload : Option (List UInt8))
    (look : Option Look) : ProdFit C tail head look (Producer.start C slot typ length payload) := by
  unfold Producer.start
  split_ifs <;> trivial

theorem ProdFit.intent {q : Req} {t : Nat} {look : Option Look} (h : t + q.need C t ≤ head + C.size) :
    ProdFit C tail head look (Producer.intent q t) := by
  unfold Producer.intent
  split <;> exact h

/-- What a step of a producer leaves: the head, a tail that has not gone back, and an older head in the
    cache. -/
structure Moved (sh sh' : Shared) : Prop where
  head : sh'.head = sh.head
  tail : sh.tail ≤ sh'.tail
  cache : sh'.headCache ≤ sh.head

/-- **One step of a producer.** -/
theorem Producer.step_fit {t : Nat} {sh sh' : Shared} {p p' : Producer} {a : ProdAct} {look : Option Look}
    (h : p.step C t sh a = some (sh', p')) (hp : ProdFit C sh.tail sh.head look p)
    (hcache : sh.headCache ≤ sh.head) :
    Moved sh sh' ∧ ProdFit C sh'.tail sh'.head (observe sh look p) p' := by
  have hquiet : Moved sh sh := ⟨rfl, le_rfl, hcache⟩
  cases Producer.step_rule h with
  | tryClaim | tryWrite => exact ⟨hquiet, ProdFit.start ..⟩
  | loadTail => exact ⟨hquiet, le_rfl⟩
  | cached hroom => exact ⟨hquiet, ProdFit.intent (le_trans (hasRoom_iff.mp hroom).2 (by omega))⟩
  | loadCache => exact ⟨hquiet, hp⟩
  | overtaken | lost => exact ⟨hquiet, trivial⟩
  | room _ hroom => exact ⟨hquiet, le_rfl, (hasRoom_iff.mp hroom).2⟩
  | @full q tail hstale hroom =>
    -- what the old tail had no room for has none at the present tail either
    have hfull : sh.head + C.size < tail + q.need C tail := by
      by_contra hle
      exact hroom (hasRoom_iff.mpr ⟨by omega, by omega⟩)
    exact ⟨hquiet, _, _, rfl, hfull.trans_le (stop_mono C q.aligned hp)⟩
  | storeCache =>
    exact ⟨⟨rfl, le_rfl, hp.1⟩, ProdFit.intent (le_trans hp.2 (Nat.add_le_add_right hp.1 _))⟩
  | @giveUp q =>
    refine ⟨?_, trivial⟩
    cases q.slot <;> exact ⟨rfl, le_rfl, hcache⟩
  | @release c =>
    refine ⟨?_, trivial⟩
    cases c.slot <;> exact ⟨rfl, le_rfl, hcache⟩
  | storeSize | noSize | storeAt | noAt => exact ⟨⟨rfl, le_rfl, hcache⟩, hp⟩
  | claimPad | claim => exact ⟨⟨rfl, Nat.le_add_right .., hcache⟩, trivial⟩
  -- from the claim on a producer writes its own record, and moves no cursor
  | _ => exact ⟨⟨rfl, le_rfl, hcache⟩, trivial⟩

/-- The loop of the reader goes on, or publishes the head. -/
theorem LoopFit.next {r : Loop} (h : LoopFit tail head r) : ReadFit tail head r.next := by
  unfold Loop.next Loop.finish
  split_ifs
  · exact h
  · exact h
  · trivial

theorem LoopFit.finish {r : Loop} (h : LoopFit tail head r) : ReadFit tail head r.finish := by
  unfold Loop.finish
  split_ifs
  · exact h
  · trivial

/-- **One step of the reader**: only the head moves, forward and at most to the tail. -/
theorem Reader.step_fit {sh sh' : Shared} {r r' : Reader} {a : ReadAct}
    (h : r.step C sh a = some (sh', r')) (hr : ReadFit sh.tail sh.head r) (hle : sh.head ≤ sh.tail) :
    sh'.tail = sh.tail ∧ sh.head ≤ sh'.head ∧ sh'.head ≤ sh.tail ∧ sh'.headCache = sh.headCache ∧
      ReadFit sh'.tail sh'.head r' := by
  cases Reader.step_rule h with
  | readNone | read | corrupt => exact ⟨rfl, le_rfl, hle, rfl, trivial⟩
  | loadHead => exact ⟨rfl, le_rfl, hle, rfl, rfl⟩
  | @loadTail limit head =>
    have hr : head = sh.head := hr
    refine ⟨rfl, le_rfl, hle, rfl, LoopFit.next ⟨hr, ?_, Nat.zero_le _⟩⟩
    show head + (sh.tail - head) ≤ sh.tail
    omega
  | unfinished => exact ⟨rfl, le_rfl, hle, rfl, LoopFit.finish hr⟩
  | loadLen hlen =>
    -- the record passed the check against `available`
    simp only [Reader.step, if_neg hlen] at h
    split at h <;> cases h
    have hr : LoopFit sh.tail sh.head _ := hr
    have := hr.2.2
    exact ⟨rfl, le_rfl, hle, rfl, hr, by omega⟩
  | loadType | padding | deliver | clear => exact ⟨rfl, le_rfl, hle, rfl, hr⟩
  | storeLen => exact ⟨rfl, le_rfl, hle, rfl, LoopFit.next ⟨hr.1.1, hr.1.2.1, hr.2⟩⟩
  | @storeHead r =>
    obtain ⟨hhead, hav, hcon⟩ := (hr : LoopFit sh.tail sh.head r)
    refine ⟨rfl, ?_, ?_, rfl, trivial⟩
    · show sh.head ≤ r.head + r.consumed
      omega
    · show r.head + r.consumed ≤ sh.tail
      omega

/-- **Every step** of the observed ring keeps the invariant. -/
theorem Fit.step {w w' : Observed} (h : Fit C w) {a : ObsAct} (hstep : w.step C a = some w') :
    Fit C w' := by
  cases a with
  | cache v =>
    simp only [Observed.step] at hstep
    split_ifs at hstep with hv
    cases hstep
    exact ⟨hv, h.head_le, h.reader, h.prods⟩
  | act a =>
    obtain ⟨s, hs, rfl⟩ := Option.map_eq_some_iff.mp hstep
    cases a with
    | prod t a =>
      obtain ⟨⟨sh', p'⟩, hp, rfl⟩ := Option.map_eq_some_iff.mp hs
      obtain ⟨hmoved, hp'⟩ := Producer.step_fit hp (h.prods t) h.cache_le
      have hhead := hmoved.head
      have htail := hmoved.tail
      refine ⟨hmoved.cache.trans hhead.ge, ?_, ?_, fun u => ?_⟩
      · show sh'.head ≤ sh'.tail
        have := h.head_le
        omega
      · show ReadFit sh'.tail sh'.head w.sys.reader
        rw [hhead]
        exact h.reader.mono htail
      · show ProdFit C sh'.tail sh'.head (update w.looks t _ u) (update w.sys.prods t p' u)
        by_cases hu : u = t
        · subst hu
          rw [update_self, update_self]
          exact hp'
        · rw [update_of_ne hu, update_of_ne hu]
          exact (h.prods u).mono htail hhead.ge
    | reader a =>
      obtain ⟨⟨sh', r'⟩, hr, rfl⟩ := Option.map_eq_some_iff.mp hs
      obtain ⟨htail, hge, hle, hcache, hr'⟩ := Reader.step_fit hr h.reader h.head_le
      refine ⟨?_, ?_, hr', fun u => ?_⟩
      · show sh'.headCache ≤ sh'.head
        rw [hcache]
        exact h.cache_le.trans hge
      · show sh'.head ≤ sh'.tail
        rwa [htail]
      · exact (h.prods u).mono htail.ge hge

theorem observed_fit {w : Observed} (h : (observed C).Reach (fun _ _ => True) w) : Fit C w := by
  refine h.invariant ⟨le_rfl, le_rfl, trivial, fun _ => trivial⟩ ?_
  exact fun s t a hs _ hstep => hs.step hstep

/-- `tryClaim` returns `ErrFull` from one place. -/
theorem Producer.giveUp_of_full {t : Nat} {sh sh' : Shared} {p : Producer} {a : ProdAct}
    (h : p.step C t sh a = some (sh', .idle (some .full))) : ∃ q, p = .giveUp q := by
  generalize hp' : Producer.idle (some .full) = p' at h
  cases Producer.step_rule h with
  | giveUp => exact ⟨_, rfl⟩
  | tryClaim | tryWrite =>
    unfold Producer.start at hp'
    split_ifs at hp' <;> cases hp'
  | cached | storeCache =>
    unfold Producer.intent at hp'
    split at hp' <;> cases hp'
  | _ => cases hp'

/-- **`ErrFull` is truthful**: a producer that is about to return `full` from the call `q` has found at its
    last load of `head` that the record of `q`, with the padding it needs at the tail of that moment, goes
    past the capacity; `full` is returned nowhere else; and a claim that takes the tail fits within the
    capacity behind the head of that moment. -/
theorem full_truthful (C : Capacity) {w : Observed} (h : (observed C).Reach (fun _ _ => True) w) (t : Nat) :
    (∀ q, w.sys.prods t = .giveUp q →
      ∃ tail head, w.looks t = some ⟨q, tail, head⟩ ∧ head + C.size < tail + q.need C tail) ∧
    (∀ a w', w.step C (.act (.prod t a)) = some w' → w'.sys.prods t = .idle (some .full) →
      ∃ q, w.sys.prods t = .giveUp q) ∧
    (∀ q tail w', w.sys.prods t = .casTail q tail → w.step C (.act (.prod t .step)) = some w' →
      w'.sys.sh.tail ≠ w.sys.sh.tail →
      w'.sys.sh.tail = w.sys.sh.tail + q.need C w.sys.sh.tail ∧ w.sys.sh.head ≤ w.sys.sh.tail ∧
      w'.sys.sh.tail ≤ w.sys.sh.head + C.size) := by
  have hfit := observed_fit h
  have hp := hfit.prods t
  refine ⟨fun q hgive => ?_, fun a w' hstep hfull => ?_, fun q tail w' hcas hstep hmoved => ?_⟩
  · rwa [hgive] at hp
  · obtain ⟨s, hs, rfl⟩ := Option.map_eq_some_iff.mp hstep
    obtain ⟨⟨sh', p'⟩, hprod, rfl⟩ := Option.map_eq_some_iff.mp hs
    obtain rfl : p' = .idle (some .full) := (update_self t p' w.sys.prods).symm.trans hfull
    exact Producer.giveUp_of_full hprod
  · rw [hcas] at hp
    obtain ⟨s, hs, rfl⟩ := Option.map_eq_some_iff.mp hstep
    obtain ⟨⟨sh', p'⟩, hprod, rfl⟩ := Option.map_eq_some_iff.mp hs
    rw [hcas] at hprod
    cases Producer.step_rule hprod with
    | claimPad | claim => exact ⟨rfl, hfit.head_le, hp⟩
    | lost => exact absurd rfl hmoved

/-- A producer claims half of the smallest ring. -/
def claimHalf (t : Nat) : List ObsAct :=
  .act (.prod t (.tryClaim none 0 2040)) :: List.replicate 5 (.act (.prod t .step))

/-- Two claims fill the smallest ring, and the third call finds it full. -/
theorem full_truthful_third : ∃ w, (observed .smallest).Reach (fun _ _ => True) w ∧
    w.sys.prods 2 = .giveUp ⟨none, 0, 0, none⟩ ∧ ∃ tail head,
      w.looks 2 = some ⟨⟨none, 0, 0, none⟩, tail, head⟩ ∧
      head + 4096 < tail + Req.need .smallest ⟨none, 0, 0, none⟩ tail := by
  have hrun : ((observed .smallest).run (observed .smallest).init
      (claimHalf 0 ++ claimHalf 1 ++ .act (.prod 2 (.tryClaim none 0 0)) ::
        List.replicate 3 (.act (.prod 2 .step)))).map (fun w => w.sys.prods 2) =
      some (.giveUp ⟨none, 0, 0, none⟩) := by decide +kernel
  obtain ⟨w, hw, hgive⟩ := Machine.Reach.exists_of_run hrun
  exact ⟨w, hw, hgive, (full_truthful .smallest hw 2).1 _ hgive⟩

end

end GoIpc.Ring
