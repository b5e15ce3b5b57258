import GoIpc.Queue.Senders

namespace GoIpc.Queue

open GoIpc.Lib
open GoIpc.Ring (claimSlots Producer ProdAct)
open Function (update update_self update_of_ne update_apply forall_update_iff)

/-!
# Who keeps a slot

Between the compare-and-swap that takes a slot and the one that returns it, exactly one party of
a process works with the slot: a goroutine, the idle list of a handle, or a handle that closes.
`Keeper` names these parties and `SlotInv` is the discipline: a keeper of a live process owns its
slot, and no two keepers of one process share one.  A slot changes hands only when its owner is
gone.

The rest of the queue's correctness uses this file through `SlotInv.live` and `SlotInv.other`:
what one party does to its slot, no other live party sees.
-/

variable {K : Config} {s s' : Sys} {t h i : Nat}

/-! ### Keepers -/

/-- The slots a closing handle has still to return. -/
def Closer.slots : Closer → List Nat
  | .idle => []
  | .wipe i rest | .disown i rest => i :: rest

/-- A party that may keep a slot. -/
inductive Keeper
  | sender (t : Nat)
  | idle (h : Nat)
  | closer (h : Nat)
deriving DecidableEq

/-- The process of a keeper. -/
def Config.procOf (K : Config) : Keeper → Nat
  | .sender t => K.proc t
  | .idle h | .closer h => K.self h

/-- The keeper keeps slot `i`. -/
def Sys.Keeps (s : Sys) : Keeper → Nat → Prop
  | .sender t, i => (s.senders t).slot = some i
  | .idle h, i => i ∈ (s.world.pools h).idle
  | .closer h, i => i ∈ (s.closers h).slots

/-- Slot `i` is in use in handle `h`: idle there, or with a goroutine of `h` that did not take it
    just now. -/
def Sys.Listed (K : Config) (s : Sys) (h i : Nat) : Prop :=
  s.Keeps (.idle h) i ∨
    ∃ t, K.home t = h ∧ s.Keeps (.sender t) i ∧ (s.senders t).acquiring = false

/-- The discipline of the slots. -/
structure SlotInv (K : Config) (s : Sys) : Prop where
  bound : ∀ k i, s.Keeps k i → i < claimSlots
  live : ∀ k i, s.Keeps k i → K.procOf k ∉ s.world.dead → (s.world.sh.slots i).owner = K.procOf k
  unique : ∀ k k' i, s.Keeps k i → s.Keeps k' i → K.procOf k = K.procOf k' → k = k'
  idle_nodup : ∀ h, (s.world.pools h).idle.Nodup
  owned_nodup : ∀ h, (s.world.pools h).owned.Nodup
  closer_nodup : ∀ h, (s.closers h).slots.Nodup
  owned : ∀ h i, i ∈ (s.world.pools h).owned → K.self h ∉ s.world.dead → s.Listed K h i

@[grind =] theorem Sys.keeps_sender : s.Keeps (.sender t) i ↔ (s.senders t).slot = some i := Iff.rfl

@[grind =] theorem Sys.keeps_idle : s.Keeps (.idle h) i ↔ i ∈ (s.world.pools h).idle := Iff.rfl

@[grind =] theorem Sys.keeps_closer : s.Keeps (.closer h) i ↔ i ∈ (s.closers h).slots := Iff.rfl

/-- A closing handle returns its slots one by one. -/
@[grind =] theorem Closer.next_slots (l : List Nat) : (Closer.next l).slots = l := by cases l <;> rfl

/-- A listed slot stays listed where its keeper stays. -/
theorem Sys.Listed.keep (hl : s.Listed K h i) (hp : (s'.world.pools h).idle = (s.world.pools h).idle)
    (hs : ∀ t, (s.senders t).slot = some i → (s.senders t).acquiring = false →
      (s'.senders t).slot = some i ∧ (s'.senders t).acquiring = false) : s'.Listed K h i := by
  rcases hl with hk | ⟨t, hh, hk, ha⟩
  · exact .inl (Sys.keeps_idle.mpr (hp ▸ hk))
  · exact .inr ⟨t, hh, hs t hk ha⟩

/-! ### What an access leaves alone -/

/-- Storing into a slot's `at` leaves its owner. -/
theorem storeAt_owner (sh : Ring.Shared) (i v j : Nat) :
    ((sh.storeAt i v).slots j).owner = (sh.slots j).owner := by
  show (update sh.slots i _ j).owner = _
  grind [update_apply]

/-- The slots of the ring after a producer's step keep their owners. -/
theorem prod_owner {C : Ring.Capacity} {sh sh' : Ring.Shared} {p p' : Producer} {a : ProdAct}
    (h : p.step C t sh a = some (sh', p')) (j : Nat) :
    (sh'.slots j).owner = (sh.slots j).owner := by
  cases Producer.step_slots h with
  | same slots => rw [slots]
  | size q tail i _ _ slots =>
    rw [slots]
    show (update sh.slots i _ j).owner = _
    grind [update_apply]
  | intent q tail i _ _ slots =>
    rw [slots]
    exact storeAt_owner _ _ _ _
  | release i _ _ slots _ =>
    rw [slots]
    exact storeAt_owner _ _ _ _

/-- A plain access leaves pools, owners and deaths alone. -/
theorem World.apply_plain {w w' : World} {x : Access} (hp : x.Plain t)
    (h : w.apply K x = some w') :
    w'.pools = w.pools ∧ (∀ i, (w'.sh.slots i).owner = (w.sh.slots i).owner) ∧
      w'.dead = w.dead := by
  cases x with
  | load =>
    cases h
    exact ⟨rfl, fun _ => rfl, rfl⟩
  | wake v =>
    cases h
    exact ⟨rfl, fun _ => rfl, rfl⟩
  | prod t' a =>
    obtain ⟨r, hr, rfl⟩ := Option.map_eq_some_iff.mp h
    obtain ⟨⟨sh, p⟩, hst, rfl⟩ := Option.map_eq_some_iff.mp hr
    exact ⟨rfl, prod_owner hst, rfl⟩
  | _ => exact absurd hp (by simp [Access.Plain])

/-! ### Every move keeps the discipline -/

namespace SlotInv

theorem start : SlotInv K Sys.start where
  bound k i hk := by cases k <;> simp [Sys.Keeps, Sys.start, World.start, Sender.slot, Closer.slots] at hk
  live k i hk := by cases k <;> simp [Sys.Keeps, Sys.start, World.start, Sender.slot, Closer.slots] at hk
  unique k k' i hk := by
    cases k <;> simp [Sys.Keeps, Sys.start, World.start, Sender.slot, Closer.slots] at hk
  idle_nodup _ := List.nodup_nil
  owned_nodup _ := List.nodup_nil
  closer_nodup _ := List.nodup_nil
  owned h i hi := by simp [Sys.start, World.start] at hi

/-- Two keepers of live processes keep different slots. -/
theorem other (hinv : SlotInv K s) {k k' : Keeper} (hne : k ≠ k') (hk : s.Keeps k i)
    (hk' : s.Keeps k' i) (hl : K.procOf k ∉ s.world.dead) : K.procOf k' ∈ s.world.dead := by
  by_contra hl'
  have h1 := hinv.live k i hk hl
  have h2 := hinv.live k' i hk' hl'
  exact hne (hinv.unique k k' i hk hk' (h1.symm.trans h2))

/-- The keeper behind a listed slot. -/
theorem listed_keeper (hl : s.Listed K h i) :
    ∃ k, s.Keeps k i ∧ K.procOf k = K.self h ∧ (∀ h', k ≠ .closer h') ∧
      ∀ t, k = .sender t → (s.senders t).acquiring = false := by
  rcases hl with hk | ⟨t, rfl, hk, ha⟩
  · exact ⟨_, hk, rfl, by simp, by simp⟩
  · refine ⟨_, hk, rfl, by simp, ?_⟩
    intro t' ht
    cases ht
    exact ha

/-- A slot a goroutine has just taken is not listed yet. -/
theorem fresh (hinv : SlotInv K s) (ha : (s.senders t).acquiring = true)
    (hslot : (s.senders t).slot = some i) (hh : K.self h = K.proc t)
    (hl : K.proc t ∉ s.world.dead) : i ∉ (s.world.pools h).owned := by
  intro hmem
  obtain ⟨k, hk, hp, -, hacq⟩ := listed_keeper (hinv.owned h i hmem (hh ▸ hl))
  have hks : s.Keeps (.sender t) i := hslot
  obtain rfl := hinv.unique _ _ i hk hks (hp.trans hh)
  rw [hacq t rfl] at ha
  cases ha

/-- A step that leaves every keeper and every owner alone.  Processes may die. -/
theorem same (hinv : SlotInv K s) (hs : ∀ t, (s'.senders t).slot = (s.senders t).slot)
    (ha : ∀ t, (s'.senders t).acquiring = true → (s.senders t).acquiring = true)
    (hp : s'.world.pools = s.world.pools) (hc : ∀ h, (s'.closers h).slots = (s.closers h).slots)
    (ho : ∀ i, (s'.world.sh.slots i).owner = (s.world.sh.slots i).owner)
    (hd : ∀ p ∈ s.world.dead, p ∈ s'.world.dead) : SlotInv K s' := by
  have hk : ∀ k i, s'.Keeps k i → s.Keeps k i := by
    intro k i hk
    cases k <;> grind
  refine ⟨?_, ?_, ?_, ?_, ?_, ?_, ?_⟩
  · exact fun k i h => hinv.bound k i (hk k i h)
  · intro k i h hl
    rw [ho]
    exact hinv.live k i (hk k i h) (fun hm => hl (hd _ hm))
  · exact fun k k' i h h' => hinv.unique k k' i (hk k i h) (hk k' i h')
  · rw [hp]; exact hinv.idle_nodup
  · rw [hp]; exact hinv.owned_nodup
  · exact fun h => by rw [hc]; exact hinv.closer_nodup h
  · intro h i hi hl
    rw [hp] at hi
    exact (hinv.owned h i hi (fun hm => hl (hd _ hm))).keep (by rw [hp]) (by grind)

variable {u : Sender}

/-- The keepers of `s'`, when only goroutine `t` moved. -/
theorem keeps_update (hs : s'.senders = update s.senders t u) (hp : s'.world.pools = s.world.pools)
    (hc : s'.closers = s.closers) {k : Keeper} {j : Nat} (hk : s'.Keeps k j) :
    (k = .sender t ∧ u.slot = some j) ∨ (k ≠ .sender t ∧ s.Keeps k j) := by
  cases k with
  | sender t' =>
    rw [Sys.keeps_sender, hs, update_apply] at hk
    grind
  | idle h | closer h => grind

/-- **Taking a slot** that belongs to nobody, or to a process that is gone. -/
theorem acquire (hinv : SlotInv K s) (hl : K.proc t ∉ s.world.dead) (hslot : (s.senders t).slot = none)
    (hb : i < claimSlots)
    (howner : (s.world.sh.slots i).owner = noProc ∨
      ((s.world.sh.slots i).owner ≠ K.proc t ∧ (s.world.sh.slots i).owner ∈ s.world.dead))
    (hu : u.slot = some i) (hs : s'.senders = update s.senders t u)
    (hp : s'.world.pools = s.world.pools) (hc : s'.closers = s.closers)
    (hi : (s'.world.sh.slots i).owner = K.proc t)
    (ho : ∀ j, j ≠ i → (s'.world.sh.slots j).owner = (s.world.sh.slots j).owner)
    (hd : s'.world.dead = s.world.dead) : SlotInv K s' := by
  have hself : ∀ p, (s.world.sh.slots i).owner = p → p ≠ noProc → p ∈ s.world.dead := by
    rintro p rfl hne
    rcases howner with h | h
    · exact absurd h hne
    · exact h.2
  have hprocOf : ∀ k, K.procOf k ≠ noProc := by
    intro k
    cases k <;> exact K.self_ne _
  have hnone : ∀ k, s.Keeps k i → K.procOf k ∈ s.world.dead := by
    intro k hk
    by_contra hlive
    exact hlive (hself _ (hinv.live k i hk hlive) (hprocOf k))
  refine ⟨?_, ?_, ?_, ?_, ?_, ?_, ?_⟩
  · intro k j hk
    rcases keeps_update hs hp hc hk with ⟨-, hj⟩ | ⟨-, hk⟩
    · rw [hu] at hj
      cases hj
      exact hb
    · exact hinv.bound k j hk
  · intro k j hk hlive
    rw [hd] at hlive
    rcases keeps_update hs hp hc hk with ⟨rfl, hj⟩ | ⟨-, hk⟩
    · rw [hu] at hj
      cases hj
      exact hi
    · have hne : j ≠ i := by
        rintro rfl
        exact hlive (hnone k hk)
      rw [ho j hne]
      exact hinv.live k j hk hlive
  · intro k k' j hk hk' hpp
    rcases keeps_update hs hp hc hk with ⟨rfl, hj⟩ | ⟨-, hk⟩ <;>
      rcases keeps_update hs hp hc hk' with ⟨rfl, hj'⟩ | ⟨-, hk'⟩
    · rfl
    · -- an old keeper of the same, live process would have to own the slot already
      rw [hu] at hj
      cases hj
      have hpp : K.proc t = K.procOf k' := hpp
      exact absurd (hpp ▸ hnone k' hk') hl
    · rw [hu] at hj'
      cases hj'
      have hpp : K.procOf k = K.proc t := hpp
      exact absurd (hpp ▸ hnone k hk) hl
    · exact hinv.unique k k' j hk hk' hpp
  · rw [hp]; exact hinv.idle_nodup
  · rw [hp]; exact hinv.owned_nodup
  · rw [hc]; exact hinv.closer_nodup
  · intro h j hj hlive
    rw [hp] at hj
    rw [hd] at hlive
    refine (hinv.owned h j hj hlive).keep (by rw [hp]) ?_
    intro t' hk ha
    rw [hs, update_of_ne (by grind)]
    exact ⟨hk, ha⟩

/-- Keepers may hand their slots on within their process: `f` says who kept slot `j` before. -/
theorem handOn (hinv : SlotInv K s) (f : Keeper → Nat → Keeper)
    (hf : ∀ k j, s'.Keeps k j → s.Keeps (f k j) j ∧ K.procOf (f k j) = K.procOf k)
    (hinj : ∀ k k' j, s'.Keeps k j → s'.Keeps k' j → f k j = f k' j → k = k')
    (ho : ∀ j, (s'.world.sh.slots j).owner = (s.world.sh.slots j).owner)
    (hd : s'.world.dead = s.world.dead)
    (hidle : ∀ h, (s'.world.pools h).idle.Nodup) (hown : ∀ h, (s'.world.pools h).owned.Nodup)
    (hclose : ∀ h, (s'.closers h).slots.Nodup)
    (howned : ∀ h i, i ∈ (s'.world.pools h).owned → K.self h ∉ s.world.dead →
      s'.Listed K h i) : SlotInv K s' := by
  refine ⟨?_, ?_, ?_, hidle, hown, hclose, ?_⟩
  · exact fun k j hk => hinv.bound _ j (hf k j hk).1
  · intro k j hk hlive
    obtain ⟨hk, hp⟩ := hf k j hk
    rw [hd] at hlive
    rw [ho, ← hp]
    exact hinv.live _ j hk (hp ▸ hlive)
  · intro k k' j hk hk' hpp
    obtain ⟨hk0, hp0⟩ := hf k j hk
    obtain ⟨hk1, hp1⟩ := hf k' j hk'
    exact hinj k k' j hk hk' (hinv.unique _ _ j hk0 hk1 (by rw [hp0, hp1, hpp]))
  · intro h i hi hlive
    rw [hd] at hlive
    exact howned h i hi hlive

/-- The keepers of `s'`, when goroutine `t` moved and changed the pool of its handle. -/
theorem keeps_pool {p : Pool} (hs : s'.senders = update s.senders t u)
    (hp : s'.world.pools = update s.world.pools (K.home t) p) (hc : s'.closers = s.closers)
    {k : Keeper} {j : Nat} (hk : s'.Keeps k j) :
    (k = .sender t ∧ u.slot = some j) ∨ (k = .idle (K.home t) ∧ j ∈ p.idle) ∨
      (k ≠ .sender t ∧ k ≠ .idle (K.home t) ∧ s.Keeps k j) := by
  cases k with
  | sender t' =>
    rw [Sys.keeps_sender, hs, update_apply] at hk
    grind
  | idle h =>
    rw [Sys.keeps_idle, hp, update_apply] at hk
    grind
  | closer h => grind

/-- A change of one pool keeps the lists of all pools free of repetitions. -/
theorem nodup_update {h : Nat} {p : Pool} (hp : s'.world.pools = update s.world.pools h p)
    (proj : Pool → List Nat) (hold : ∀ h', (proj (s.world.pools h')).Nodup)
    (hnew : (proj p).Nodup) (h' : Nat) : (proj (s'.world.pools h')).Nodup := by
  rw [hp]
  exact (forall_update_iff s.world.pools fun _ p => (proj p).Nodup).mpr ⟨hnew, fun h' _ => hold h'⟩ h'

/-- A change of the idle list alone. -/
theorem owned_update {h : Nat} {l : List Nat}
    (hp : s'.world.pools = update s.world.pools h { s.world.pools h with idle := l })
    (h' : Nat) : (s'.world.pools h').owned = (s.world.pools h').owned := by
  rw [hp]
  grind [update_apply]

/-- A listed slot of another goroutine stays listed. -/
theorem listed_sender (hs : s'.senders = update s.senders t u) {t' j : Nat} (ht : t' ≠ t)
    (hk : s.Keeps (.sender t') j) (ha : (s.senders t').acquiring = false) : s'.Listed K (K.home t') j := by
  refine .inr ⟨t', rfl, ?_, ?_⟩
  · show (s'.senders t').slot = some j
    rwa [hs, update_of_ne ht]
  · rwa [hs, update_of_ne ht]

/-- **Taking an idle slot** of the handle. -/
theorem pop (hinv : SlotInv K s) {rest : List Nat} (hidle : (s.world.pools (K.home t)).idle = i :: rest)
    (hslot : (s.senders t).slot = none) (hu : u.slot = some i) (hua : u.acquiring = false)
    (hs : s'.senders = update s.senders t u)
    (hp : s'.world.pools
      = update s.world.pools (K.home t) { s.world.pools (K.home t) with idle := rest })
    (hc : s'.closers = s.closers) (ho : ∀ j, (s'.world.sh.slots j).owner = (s.world.sh.slots j).owner)
    (hd : s'.world.dead = s.world.dead) : SlotInv K s' := by
  have hnd := hinv.idle_nodup (K.home t)
  rw [hidle, List.nodup_cons] at hnd
  have hkeep : ∀ j ∈ i :: rest, s.Keeps (.idle (K.home t)) j := by
    intro j hj
    show j ∈ (s.world.pools (K.home t)).idle
    rwa [hidle]
  -- what the sender keeps now was in the pool
  refine hinv.handOn (fun k _ => if k = .sender t then .idle (K.home t) else k) ?_ ?_ ho hd
    (nodup_update hp Pool.idle hinv.idle_nodup hnd.2)
    (nodup_update hp Pool.owned hinv.owned_nodup (hinv.owned_nodup _))
    (hc ▸ hinv.closer_nodup) ?_
  · intro k j hk
    rcases keeps_pool hs hp hc hk with ⟨rfl, hj⟩ | ⟨rfl, hj⟩ | ⟨h1, -, hk⟩
    · rw [hu] at hj
      cases hj
      rw [if_pos rfl]
      exact ⟨hkeep i List.mem_cons_self, rfl⟩
    · rw [if_neg (by simp)]
      exact ⟨hkeep j (List.mem_cons_of_mem _ hj), rfl⟩
    · rw [if_neg h1]
      exact ⟨hk, rfl⟩
  · intro k k' j hk hk' heq
    rcases keeps_pool hs hp hc hk with ⟨rfl, hj⟩ | ⟨rfl, hj⟩ | ⟨h1, h2, -⟩ <;>
      rcases keeps_pool hs hp hc hk' with ⟨rfl, hj'⟩ | ⟨rfl, hj'⟩ | ⟨h1', h2', -⟩
    all_goals grind
  · intro h j hj hl
    rw [owned_update hp] at hj
    rcases hinv.owned h j hj hl with hk | ⟨t', rfl, hk, ha⟩
    · by_cases hh : h = K.home t
      · subst hh
        have hk : j ∈ (s.world.pools (K.home t)).idle := hk
        rw [hidle] at hk
        rcases List.mem_cons.mp hk with rfl | hk
        · refine .inr ⟨t, rfl, ?_, ?_⟩
          · show (s'.senders t).slot = some j
            rwa [hs, update_self]
          · rwa [hs, update_self]
        · refine .inl ?_
          show j ∈ (s'.world.pools (K.home t)).idle
          rwa [hp, update_self]
      · refine .inl ?_
        show j ∈ (s'.world.pools h).idle
        rwa [hp, update_of_ne hh]
    · refine listed_sender hs ?_ hk ha
      rintro rfl
      exact absurd (hslot.symm.trans hk) (by simp)

/-- **Putting a slot back** into the idle list. -/
theorem push (hinv : SlotInv K s) (hslot : (s.senders t).slot = some i) (hu : u.slot = none)
    (hs : s'.senders = update s.senders t u)
    (hp : s'.world.pools = update s.world.pools (K.home t)
      { s.world.pools (K.home t) with idle := i :: (s.world.pools (K.home t)).idle })
    (hc : s'.closers = s.closers) (ho : ∀ j, (s'.world.sh.slots j).owner = (s.world.sh.slots j).owner)
    (hd : s'.world.dead = s.world.dead) : SlotInv K s' := by
  have hkeep : s.Keeps (.sender t) i := hslot
  have hnot : i ∉ (s.world.pools (K.home t)).idle := by
    intro hmem
    have hk : s.Keeps (.idle (K.home t)) i := hmem
    exact absurd (hinv.unique _ _ i hkeep hk rfl) (by simp)
  -- slot `i` comes from the sender, every other one from where it is
  refine hinv.handOn (fun k j => if k = .idle (K.home t) ∧ j = i then .sender t else k)
    ?_ ?_ ho hd
    (nodup_update hp Pool.idle hinv.idle_nodup
      (List.nodup_cons.mpr ⟨hnot, hinv.idle_nodup (K.home t)⟩))
    (nodup_update hp Pool.owned hinv.owned_nodup (hinv.owned_nodup _))
    (hc ▸ hinv.closer_nodup) ?_
  · intro k j hk
    rcases keeps_pool hs hp hc hk with ⟨rfl, hj⟩ | ⟨rfl, hj⟩ | ⟨-, h2, hk⟩
    · rw [hu] at hj
      cases hj
    · by_cases hji : j = i
      · subst hji
        rw [if_pos ⟨rfl, rfl⟩]
        exact ⟨hkeep, rfl⟩
      · rw [if_neg (fun h => hji h.2)]
        exact ⟨(List.mem_cons.mp hj).resolve_left hji, rfl⟩
    · rw [if_neg (fun h => h2 h.1)]
      exact ⟨hk, rfl⟩
  · intro k k' j hk hk' heq
    rcases keeps_pool hs hp hc hk with ⟨rfl, hj⟩ | ⟨rfl, hj⟩ | ⟨h1, h2, -⟩ <;>
      rcases keeps_pool hs hp hc hk' with ⟨rfl, hj'⟩ | ⟨rfl, hj'⟩ | ⟨h1', h2', -⟩
    all_goals grind
  · intro h j hj hl
    rw [owned_update hp] at hj
    have hback : ∀ j', j' = i ∨ j' ∈ (s.world.pools (K.home t)).idle →
        s'.Keeps (.idle (K.home t)) j' := by
      intro j' hj'
      show j' ∈ (s'.world.pools (K.home t)).idle
      rw [hp, update_self]
      exact List.mem_cons.mpr hj'
    rcases hinv.owned h j hj hl with hk | ⟨t', rfl, hk, ha⟩
    · by_cases hh : h = K.home t
      · subst hh
        exact .inl (hback j (.inr hk))
      · refine .inl ?_
        show j ∈ (s'.world.pools h).idle
        rwa [hp, update_of_ne hh]
    · by_cases ht : t' = t
      · subst ht
        have hji : some j = some i := hk.symm.trans hslot
        cases hji
        exact .inl (hback i (.inl rfl))
      · exact listed_sender hs ht hk ha

/-- **Listing a slot** the handle has just taken. -/
theorem adopt (hinv : SlotInv K s) (hl : K.proc t ∉ s.world.dead) (hslot : (s.senders t).slot = some i)
    (ha : (s.senders t).acquiring = true) (hu : u.slot = some i) (hua : u.acquiring = false)
    (hs : s'.senders = update s.senders t u)
    (hp : s'.world.pools = update s.world.pools (K.home t)
      { s.world.pools (K.home t) with owned := i :: (s.world.pools (K.home t)).owned })
    (hc : s'.closers = s.closers) (ho : ∀ j, (s'.world.sh.slots j).owner = (s.world.sh.slots j).owner)
    (hd : s'.world.dead = s.world.dead) : SlotInv K s' := by
  have hkeep : s.Keeps (.sender t) i := hslot
  have hidle : ∀ h, (s'.world.pools h).idle = (s.world.pools h).idle := by
    intro h
    rw [hp]
    grind [update_apply]
  have hmem : ∀ h j, j ∈ (s'.world.pools h).owned →
      (h = K.home t ∧ j = i) ∨ j ∈ (s.world.pools h).owned := by
    intro h j hj
    rw [hp] at hj
    grind [update_apply]
  -- no slot changes hands; the sender lists the one it has acquired
  refine hinv.handOn (fun k _ => k) ?_ (fun _ _ _ _ _ h => h) ho hd
    (fun h => by rw [hidle]; exact hinv.idle_nodup h)
    (nodup_update hp Pool.owned hinv.owned_nodup
      (List.nodup_cons.mpr ⟨hinv.fresh ha hslot rfl hl, hinv.owned_nodup (K.home t)⟩))
    (hc ▸ hinv.closer_nodup) ?_
  · intro k j hk
    refine ⟨?_, rfl⟩
    rcases keeps_pool hs hp hc hk with ⟨rfl, hj⟩ | ⟨rfl, hj⟩ | ⟨-, -, hk⟩
    · rw [hu] at hj
      cases hj
      exact hkeep
    · exact hj
    · exact hk
  · intro h j hj hlive
    rcases hmem h j hj with ⟨rfl, rfl⟩ | hj
    · refine .inr ⟨t, rfl, ?_, ?_⟩
      · show (s'.senders t).slot = some j
        rwa [hs, update_self]
      · rwa [hs, update_self]
    · refine (hinv.owned h j hj hlive).keep (hidle h) ?_
      intro t' hk hacq
      rw [hs, update_of_ne (by grind)]
      exact ⟨hk, hacq⟩

/-- **Closing a handle** whose slots are all idle. -/
theorem close (hinv : SlotInv K s)
    (hsub : ∀ i ∈ (s.world.pools h).owned, i ∈ (s.world.pools h).idle)
    (hs : s'.senders = s.senders)
    (hp : s'.world.pools = update s.world.pools h ⟨[], []⟩)
    (hc : s'.closers = update s.closers h (Closer.next (s.world.pools h).owned))
    (ho : ∀ j, (s'.world.sh.slots j).owner = (s.world.sh.slots j).owner)
    (hd : s'.world.dead = s.world.dead) : SlotInv K s' := by
  have hkeeps : ∀ k j, s'.Keeps k j →
      (k = .closer h ∧ j ∈ (s.world.pools h).idle) ∨
        (k ≠ .closer h ∧ k ≠ .idle h ∧ s.Keeps k j) := by
    intro k j hk
    cases k with
    | sender t => grind
    | idle h' =>
      rw [Sys.keeps_idle, hp, update_apply] at hk
      grind
    | closer h' =>
      rw [Sys.keeps_closer, hc, update_apply] at hk
      grind
  -- what the closer keeps was idle, as every owned slot is by `hsub`
  refine hinv.handOn (fun k _ => if k = .closer h then .idle h else k) ?_ ?_ ho hd
    (nodup_update hp Pool.idle hinv.idle_nodup List.nodup_nil)
    (nodup_update hp Pool.owned hinv.owned_nodup List.nodup_nil) ?_ ?_
  · intro k j hk
    rcases hkeeps k j hk with ⟨rfl, hj⟩ | ⟨h1, -, hk⟩
    · rw [if_pos rfl]
      exact ⟨hj, rfl⟩
    · rw [if_neg h1]
      exact ⟨hk, rfl⟩
  · intro k k' j hk hk' heq
    rcases hkeeps k j hk with ⟨rfl, -⟩ | ⟨h1, h2, -⟩ <;>
      rcases hkeeps k' j hk' with ⟨rfl, -⟩ | ⟨h1', h2', -⟩
    all_goals grind
  · intro h'
    rw [hc]
    exact (forall_update_iff s.closers fun _ c => c.slots.Nodup).mpr
      ⟨Closer.next_slots _ ▸ hinv.owned_nodup h, fun h' _ => hinv.closer_nodup h'⟩ h'
  · intro h' j hj hl
    rw [hp] at hj
    by_cases hh : h' = h
    · subst hh
      rw [update_self] at hj
      cases hj
    · rw [update_of_ne hh] at hj
      refine (hinv.owned h' j hj hl).keep ?_ ?_
      · rw [hp, update_of_ne hh]
      · rw [hs]
        exact fun t hk ha => ⟨hk, ha⟩

/-- **Returning a slot** to the shared pool. -/
theorem disown (hinv : SlotInv K s) {rest : List Nat} (hpc : s.closers h = .disown i rest)
    (hl : K.self h ∉ s.world.dead)
    (hs : s'.senders = s.senders) (hp : s'.world.pools = s.world.pools)
    (hc : s'.closers = update s.closers h (Closer.next rest))
    (ho : ∀ j, j ≠ i → (s'.world.sh.slots j).owner = (s.world.sh.slots j).owner)
    (hd : s'.world.dead = s.world.dead) : SlotInv K s' := by
  have hslots : (s.closers h).slots = i :: rest := hpc ▸ rfl
  have hnd := hinv.closer_nodup h
  rw [hslots, List.nodup_cons] at hnd
  have hself : s.Keeps (.closer h) i := by
    show i ∈ (s.closers h).slots
    rw [hslots]
    exact List.mem_cons_self
  have hkeeps : ∀ k j, s'.Keeps k j → s.Keeps k j ∧ (k = .closer h → j ≠ i) := by
    intro k j hk
    cases k with
    | sender t | idle h' => grind
    | closer h' =>
      rw [Sys.keeps_closer, hc, update_apply] at hk
      grind
  -- no keeper of a live process is left at slot `i`
  have hne : ∀ k j, s'.Keeps k j → K.procOf k ∉ s.world.dead → j ≠ i := by
    rintro k j hk hlive rfl
    obtain ⟨hk, hcl⟩ := hkeeps k j hk
    by_cases hkc : k = .closer h
    · exact hcl hkc rfl
    · exact hlive (hinv.other (Ne.symm hkc) hself hk hl)
  refine ⟨?_, ?_, ?_, ?_, ?_, ?_, ?_⟩
  · exact fun k j hk => hinv.bound k j (hkeeps k j hk).1
  · intro k j hk hlive
    rw [hd] at hlive
    rw [ho j (hne k j hk hlive)]
    exact hinv.live k j (hkeeps k j hk).1 hlive
  · exact fun k k' j hk hk' => hinv.unique k k' j (hkeeps k j hk).1 (hkeeps k' j hk').1
  · rw [hp]; exact hinv.idle_nodup
  · rw [hp]; exact hinv.owned_nodup
  · intro h'
    rw [hc]
    exact (forall_update_iff s.closers fun _ c => c.slots.Nodup).mpr
      ⟨Closer.next_slots _ ▸ hnd.2, fun h' _ => hinv.closer_nodup h'⟩ h'
  · intro h' j hj hlive
    rw [hp] at hj
    rw [hd] at hlive
    refine (hinv.owned h' j hj hlive).keep (by rw [hp]) ?_
    rw [hs]
    exact fun t hk ha => ⟨hk, ha⟩

/-- **A step of a sender keeps the discipline.** -/
theorem step_send (hinv : SlotInv K s) (hl : K.proc t ∉ s.world.dead) {x : Access} {w : World}
    (hm : Sender.Move K t s.world (s.senders t) u x) (hx : s.world.apply K x = some w) :
    SlotInv K { s with world := w, senders := update s.senders t u } := by
  cases hm with
  | plain slot acc settled =>
    obtain ⟨hp, ho, hd⟩ := World.apply_plain acc hx
    refine hinv.same ?_ ?_ hp (fun _ => rfl) (fun i => by rw [ho]) (fun p hm => hd ▸ hm)
    · intro t'
      grind [update_apply]
    · intro t' ha
      grind [update_apply]
  | acquire i c k pc' slot bound owner =>
    cases hx
    refine hinv.acquire hl slot bound (owner.imp_right fun h => ⟨h.1, h.2.1⟩) (pc' ▸ rfl) rfl rfl rfl ?_ ?_ rfl
    · show (update s.world.sh.slots i _ i).owner = K.proc t
      rw [update_self]
    · intro j hj
      show (update s.world.sh.slots i _ j).owner = _
      rw [update_of_ne hj]
  | wipe i c k pc pc' =>
    cases hx
    refine hinv.same ?_ ?_ rfl (fun _ => rfl) ?_ (fun p hm => hm)
    · intro t'
      grind [update_apply, Sender.slot]
    · intro t' ha
      grind [update_apply, Sender.acquiring]
    · intro j
      exact storeAt_owner _ _ _ _
  | adopt i c k pc pc' =>
    cases hx
    exact hinv.adopt hl (pc ▸ rfl) (pc ▸ rfl) (pc' ▸ rfl) (pc' ▸ rfl)
      rfl rfl rfl (fun _ => rfl) rfl
  | pop i rest c k slot pc' idle =>
    cases hx
    exact hinv.pop idle slot (pc' ▸ rfl) (pc' ▸ rfl) rfl rfl rfl (fun _ => rfl) rfl
  | push i slot slot' settled =>
    cases hx
    exact hinv.push slot slot' rfl rfl rfl (fun _ => rfl) rfl

end SlotInv

end GoIpc.Queue
