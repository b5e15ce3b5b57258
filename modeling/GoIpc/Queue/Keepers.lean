import GoIpc.Queue.Frames
import GoIpc.Queue.Recovery

namespace GoIpc.Queue

open GoIpc.Lib
open Function (update update_self update_of_ne update_eq_self update_apply)

/-!
# Slots are neither shared nor lost

All processes that send share the claim slots of a ring.  `SlotInv` says that no two parties work with
one slot.  This file adds the other half: a slot that bears the id of a process has a party of that
process behind it.

* `Accounted` — the discipline, with a keeper behind every owner and every slot in use on the list its
  handle returns in `Close`;
* `idleClose` — a handle closes only while its slots are idle: `Close` takes every slot on the list, and
  a goroutine still at work with one would lose it;
* `slots_conserved` — the discipline holds in every such run, whoever dies; in particular a process
  whose handles are all closed owns no slot.
-/

variable {K : Config} {s s' : Sys} {w w' : World} {t h i : Nat}

/-! ### What an access leaves alone -/

/-- The receiver leaves the slot lists alone. -/
theorem Recv.step_pools {r r' : Recv} {a : RecvAct} {x : Access} (h : r.step K w a = some (r', x))
    (hx : w.apply K x = some w') : w'.pools = w.pools := by
  cases Recv.step_rule h with
  | read | reading =>
    obtain ⟨r, -, rfl⟩ := Option.map_eq_some_iff.mp hx
    rfl
  | @watch l k owner =>
    cases hx
    obtain ⟨n, watches, -, heq⟩ := w.watchProducer_eq owner
    rw [heq]
  | _ => cases hx; rfl

/-- A goroutine that has just taken a slot goes on with it, and touches nothing else before the slot is
    listed. -/
theorem Sender.step_acquiring {p p' : Sender} {a : SendAct} {x : Access}
    (h : p.step K t w a = some (p', x)) (hacq : p.acquiring = true) :
    p'.slot = p.slot ∧ ¬ x.Plain t := by
  cases Sender.step_rule h with
  | clearAt | addOwned => exact ⟨rfl, id⟩
  | _ => cases hacq

@[simp] theorem Closer.slots_next (l : List Nat) : (Closer.next l).slots = l := by
  cases l <;> rfl

/-! ### A keeper behind every owner -/

/-- Every slot with an owner that lives has a keeper of that process, and the slots in use in a handle
    are on its list. -/
structure Accounted (K : Config) (s : Sys) : Prop where
  search : ∀ t, (s.senders t).Ok K t s.world
  slots : SlotInv K s
  kept : ∀ i, (s.world.sh.slots i).owner ≠ noProc → (s.world.sh.slots i).owner ∉ s.world.dead →
    ∃ k, s.Keeps k i ∧ K.procOf k = (s.world.sh.slots i).owner
  listed : ∀ h i, s.Listed K h i → i ∈ (s.world.pools h).owned

namespace Accounted

theorem start : Accounted K Sys.start where
  search _ := trivial
  slots := SlotInv.start
  kept _ hne := absurd rfl hne
  listed h i hl := by
    rcases hl with hk | ⟨t, -, hk, -⟩
    · cases hk
    · cases hk

/-- A step that moves no slot.  Processes may die. -/
theorem same (hacc : Accounted K s) (hs : s'.senders = s.senders)
    (hp : s'.world.pools = s.world.pools) (hc : ∀ h, (s'.closers h).slots = (s.closers h).slots)
    (ho : ∀ i, (s'.world.sh.slots i).owner = (s.world.sh.slots i).owner)
    (hd : ∀ p ∈ s.world.dead, p ∈ s'.world.dead) : Accounted K s' := by
  have hkeeps : ∀ k j, s'.Keeps k j ↔ s.Keeps k j := by
    intro k j
    cases k <;> simp only [Sys.Keeps, hs, hp, hc]
  refine ⟨fun t => ?_, hacc.slots.same (fun t => by rw [hs]) (fun t ht => by rwa [hs] at ht) hp hc ho hd,
    fun j hne hlive => ?_, fun h j hl => ?_⟩
  · rw [hs]
    exact (hacc.search t).mono hd
  · rw [ho] at hne hlive ⊢
    obtain ⟨k, hk, hproc⟩ := hacc.kept j hne (fun hm => hlive (hd _ hm))
    exact ⟨k, (hkeeps k j).mpr hk, hproc⟩
  · rw [Sys.Listed, hs, hkeeps] at hl
    simp only [hkeeps] at hl
    rw [hp]
    exact hacc.listed h j hl

/-! ### Senders -/

/-- **Goroutine `t` moves on**, and the pool of its handle changes with it: what both kept, one of them
    keeps, a slot that changes its owner is with `t`, and what is in use is on the list. -/
theorem moved (hacc : Accounted K s) {u : Sender} {p : Pool} (hok : u.Ok K t s.world)
    (hslots : SlotInv K { s with world := w, senders := update s.senders t u })
    (hp : w.pools = update s.world.pools (K.home t) p) (hd : w.dead = s.world.dead)
    (ho : ∀ j, (w.sh.slots j).owner = (s.world.sh.slots j).owner ∨
      (w.sh.slots j).owner = K.proc t ∧ u.slot = some j)
    (hkeep : ∀ j, (s.senders t).slot = some j ∨ j ∈ (s.world.pools (K.home t)).idle →
      u.slot = some j ∨ j ∈ p.idle)
    (hlist : ∀ j, j ∈ (s.world.pools (K.home t)).owned ∨ j ∈ p.idle ∨
      u.slot = some j ∧ u.acquiring = false → j ∈ p.owned) :
    Accounted K { s with world := w, senders := update s.senders t u } := by
  refine ⟨fun t' => ?_, hslots, fun j hne hlive => ?_, fun h j hl => ?_⟩
  · dsimp only
    by_cases ht : t' = t
    · subst ht
      rw [update_self]
      exact hok.mono fun p hp => hd ▸ hp
    · rw [update_of_ne ht]
      exact (hacc.search t').mono fun p hp => hd ▸ hp
  · have hnew : u.slot = some j ∨ j ∈ p.idle → ∃ k,
        Sys.Keeps { s with world := w, senders := update s.senders t u } k j ∧
          K.procOf k = K.proc t := by
      rintro (hj | hj)
      · exact ⟨.sender t, by simpa [Sys.Keeps] using hj, rfl⟩
      · exact ⟨.idle (K.home t), by simpa [Sys.Keeps, hp] using hj, rfl⟩
    dsimp only at hne hlive ⊢
    -- the slot has the owner it had, or the sender has just become it
    rcases ho j with hj | ⟨hj, hu⟩
    · rw [hj] at hne hlive ⊢
      obtain ⟨k, hk, hproc⟩ := hacc.kept j hne (hd ▸ hlive)
      rw [← hproc]
      cases k with
      | sender t' =>
        by_cases ht : t' = t
        · subst ht
          exact hnew (hkeep j (.inl hk))
        · exact ⟨.sender t', by simpa [Sys.Keeps, ht] using hk, rfl⟩
      | idle h =>
        by_cases hh : h = K.home t
        · subst hh
          exact hnew (hkeep j (.inr hk))
        · exact ⟨.idle h, by simpa [Sys.Keeps, hp, hh] using hk, rfl⟩
      | closer h => exact ⟨.closer h, hk, rfl⟩
    · rw [hj]
      exact hnew (.inl hu)
  · have hold := hacc.listed h j
    simp only [Sys.Listed, Sys.Keeps, hp, update_apply] at hold hl ⊢
    by_cases hh : h = K.home t
    · subst hh
      rw [if_pos rfl] at hl ⊢
      refine hlist j ?_
      grind
    · rw [if_neg hh] at hl ⊢
      grind

/-- **A step of a sender.** -/
theorem step_send (hacc : Accounted K s) {a : SendAct} (hs : s.step K (.send t a) = some s') :
    Accounted K s' := by
  obtain ⟨hl, u, x, w, hu, hx, rfl⟩ := Sys.step_send_eq hs
  have hm := Sender.step_move (hacc.search t) hu
  have hslots := hacc.slots.step_send hl hm hx
  have hok := Sender.step_ok (hacc.search t) hu
  have hidle : ∀ j ∈ (s.world.pools (K.home t)).idle, j ∈ (s.world.pools (K.home t)).owned :=
    fun j hj => hacc.listed _ j (.inl hj)
  -- a goroutine whose step does more than go on with a slot it has just taken has listed its slot
  have hown : ∀ j, (s.senders t).slot = some j → u.slot ≠ (s.senders t).slot ∨ x.Plain t →
      j ∈ (s.world.pools (K.home t)).owned := by
    intro j hj hstep
    refine hacc.listed _ j (.inr ⟨t, rfl, hj, Bool.eq_false_iff.mpr fun hacq => ?_⟩)
    obtain ⟨hsame, hplain⟩ := Sender.step_acquiring hu hacq
    exact hstep.elim (fun h => h hsame) hplain
  cases hm with
  | plain slot acc settled =>
    obtain ⟨hp, ho, hd⟩ := World.apply_plain acc hx
    have hlisted := fun j hj => hown j hj (.inr acc)
    exact hacc.moved hok hslots (by rw [hp, update_eq_self]) hd (fun j => .inl (ho j))
      (by grind) (by grind)
  | acquire i c k pc' slot bound owner =>
    cases hx
    have hslot : u.slot = some i ∧ u.acquiring = true := by rw [pc']; exact ⟨rfl, rfl⟩
    refine hacc.moved hok hslots (by rw [update_eq_self]; rfl) rfl (fun j => ?_)
      (by grind) (by grind)
    show (update s.world.sh.slots i _ j).owner = _ ∨
      (update s.world.sh.slots i _ j).owner = _ ∧ _
    by_cases hj : j = i
    · subst hj
      rw [update_self]
      exact .inr ⟨rfl, hslot.1⟩
    · rw [update_of_ne hj]
      exact .inl rfl
  | wipe i c k pc pc' =>
    cases hx
    have hslot : u.slot = (s.senders t).slot ∧ u.acquiring = true := by rw [pc, pc']; exact ⟨rfl, rfl⟩
    exact hacc.moved hok hslots (by rw [update_eq_self]; rfl) rfl
      (fun j => .inl (storeAt_owner _ _ _ _)) (by grind) (by grind)
  | adopt i c k pc pc' =>
    cases hx
    have hslot : (s.senders t).slot = some i ∧ u.slot = some i := by rw [pc, pc']; exact ⟨rfl, rfl⟩
    exact hacc.moved hok hslots rfl rfl (fun j => .inl rfl) (by grind) (by grind)
  | pop i rest c k slot pc' idle =>
    cases hx
    have hslot : u.slot = some i := pc' ▸ rfl
    exact hacc.moved hok hslots rfl rfl (fun j => .inl rfl) (by grind) (by grind)
  | push i slot slot' settled =>
    cases hx
    have hi := hown i slot (.inl (by rw [slot', slot]; simp))
    exact hacc.moved hok hslots rfl rfl (fun j => .inl rfl) (by grind) (by grind)

/-! ### Closing, receiving and dying -/

/-- **Closing a handle** hands every slot of it to the closer: what is idle is on the list. -/
theorem step_close (hacc : Accounted K s) (hs : s.step K (.close h) = some s') : Accounted K s' := by
  simp only [Sys.step] at hs
  split_ifs at hs with hcond
  cases hs
  obtain ⟨hl, hidle, hsub⟩ := hcond
  refine ⟨hacc.search, hacc.slots.close hsub rfl rfl rfl (fun _ => rfl) rfl, fun j hne hlive => ?_,
    fun h' j hlisted => ?_⟩
  · obtain ⟨k, hk, hproc⟩ := hacc.kept j hne hlive
    cases k with
    | sender t => exact ⟨.sender t, hk, hproc⟩
    | idle h' =>
      by_cases hh : h' = h
      · subst hh
        have hj := hacc.listed h' j (.inl hk)
        exact ⟨.closer h', by simpa [Sys.Keeps] using hj, hproc⟩
      · exact ⟨.idle h', by simpa [Sys.Keeps, hh] using hk, hproc⟩
    | closer h' =>
      have hh : h' ≠ h := by
        rintro rfl
        rw [Sys.Keeps, hidle] at hk
        cases hk
      exact ⟨.closer h', by simpa [Sys.Keeps, hh] using hk, hproc⟩
  · by_cases hh : h' = h
    · subst hh
      exfalso
      rcases hlisted with hk | ⟨t, hhome, hk, hacq⟩
      · simp [Sys.Keeps] at hk
      · -- a goroutine at work with a slot of the handle: but all its slots are idle
        have hk : s.Keeps (.sender t) j := hk
        have hki : s.Keeps (.idle h') j := hsub j (hacc.listed h' j (.inr ⟨t, hhome, hk, hacq⟩))
        cases hacc.slots.unique _ _ j hk hki (congrArg K.self hhome)
    · dsimp only
      rw [update_of_ne hh]
      exact hacc.listed h' j (hlisted.imp_left fun hk => by simpa [Sys.Keeps, hh] using hk)

/-- **A step of `Close`**: the owner of a slot goes when its keeper does. -/
theorem step_drop (hacc : Accounted K s) (hs : s.step K (.drop h) = some s') : Accounted K s' := by
  obtain ⟨hl, c, x, w, hc, hx, rfl⟩ := Sys.step_drop_eq hs
  cases hpc : s.closers h with
  | idle =>
    rw [hpc] at hc
    cases hc
  | wipe i rest =>
    rw [hpc] at hc
    cases hc
    cases hx
    have hclosers : ∀ h', (update s.closers h (Closer.disown i rest) h').slots
        = (s.closers h').slots := by
      intro h'
      by_cases hh : h' = h <;> simp [hh, hpc, Closer.slots]
    exact hacc.same rfl rfl hclosers (fun j => storeAt_owner _ _ _ _) (fun _ h => h)
  | disown i rest =>
    have hk : s.Keeps (.closer h) i := by rw [Sys.Keeps, hpc]; exact List.mem_cons_self
    have howner : (s.world.sh.slots i).owner = K.self h := hacc.slots.live _ i hk hl
    rw [hpc] at hc
    simp only [Closer.step] at hc
    rw [if_pos howner] at hc
    cases hc
    cases hx
    have hother : ∀ j, j ≠ i → (update s.world.sh.slots i
        { s.world.sh.slots i with owner := noProc } j).owner = (s.world.sh.slots j).owner :=
      fun j hj => by rw [update_of_ne hj]
    refine ⟨hacc.search, hacc.slots.disown hpc hl rfl rfl rfl hother rfl, ?_, hacc.listed⟩
    intro j hne hlive
    -- a slot without an owner needs no keeper
    by_cases hj : j = i
    · subst hj
      refine absurd ?_ hne
      show (update s.world.sh.slots j _ j).owner = noProc
      rw [update_self]
    · have ho := hother j hj
      obtain ⟨k, hkeep, hproc⟩ := hacc.kept j (ho ▸ hne) (ho ▸ hlive)
      refine ⟨k, ?_, hproc.trans ho.symm⟩
      cases k with
      | sender t | idle h' => exact hkeep
      | closer h' =>
        by_cases hh : h' = h
        · subst hh
          rw [Sys.Keeps, hpc] at hkeep
          simpa [Sys.Keeps] using (List.mem_cons.mp hkeep).resolve_left hj
        · simpa [Sys.Keeps, hh] using hkeep

/-- **A step of the receiver** moves no slot. -/
theorem step_recv (hacc : Accounted K s) {a : RecvAct} (hs : s.step K (.recv a) = some s') :
    Accounted K s' := by
  obtain ⟨r, x, w, hr, hx, rfl⟩ := Sys.step_recv_eq hs
  refine hacc.same rfl (Recv.step_pools hr hx) (fun _ => rfl) (fun i => ?_)
    (fun p hp => by dsimp only; rw [World.apply_dead hx]; exact hp)
  rcases World.apply_owner hx i with ho | ⟨p, hset, -⟩
  · exact ho
  · exact absurd hset (Recv.step_setOwner hr i p)

theorem step_die {id : Nat} (hacc : Accounted K s) (hs : s.step K (.die id) = some s') :
    Accounted K s' := by
  simp only [Sys.step] at hs
  split at hs <;> cases hs
  exact hacc.same rfl rfl (fun _ => rfl) (fun _ => rfl) (fun _ => List.mem_cons_of_mem _)

/-- **Every run is accounted for.** -/
theorem of_reach {ok : Sys → Act → Prop} (h : (machine K).Reach ok s) : Accounted K s := by
  refine h.invariant start fun _ _ a hacc _ hs => ?_
  cases a with
  | send t a => exact hacc.step_send hs
  | close h => exact hacc.step_close hs
  | drop h => exact hacc.step_drop hs
  | recv a => exact hacc.step_recv hs
  | die id => exact hacc.step_die hs

end Accounted

/-! ### The result -/

/-- A handle closes only while every slot on its list is idle: no call of it is at work with a slot,
    and it has no open claim. -/
def idleClose (s : Sys) : Act → Bool
  | .close h => (s.world.pools h).owned.all fun i => decide (i ∈ (s.world.pools h).idle)
  | _ => true

/-- **Slots are neither shared nor lost.**  In every state of every run in which handles close only
    while their slots are idle, whoever died: a slot that bears the id of a live process is with exactly one party of that
    process; a party of a live process finds its id in the slot it works with; and no slot bears the id
    of a live process of which no goroutine is at work with a slot and every handle is closed. -/
theorem slots_conserved (h : (machine K).Reach (fun s a => idleClose s a = true) s) (i : Nat) :
    ((s.world.sh.slots i).owner ≠ noProc → (s.world.sh.slots i).owner ∉ s.world.dead →
      ∃! k, s.Keeps k i ∧ K.procOf k = (s.world.sh.slots i).owner) ∧
    (∀ k, s.Keeps k i → K.procOf k ∉ s.world.dead → (s.world.sh.slots i).owner = K.procOf k) ∧
    (∀ p, p ≠ noProc → p ∉ s.world.dead →
      (∀ t, K.proc t = p → (s.senders t).slot = none) →
      (∀ h, K.self h = p → (s.world.pools h).idle = [] ∧ s.closers h = .idle) →
      (s.world.sh.slots i).owner ≠ p) := by
  have hacc := Accounted.of_reach h
  refine ⟨fun hne hlive => ?_, fun k => hacc.slots.live k i, ?_⟩
  · obtain ⟨k, hk, hproc⟩ := hacc.kept i hne hlive
    refine ⟨k, ⟨hk, hproc⟩, ?_⟩
    rintro k' ⟨hk', hproc'⟩
    exact hacc.slots.unique k' k i hk' hk (hproc'.trans hproc.symm)
  · rintro p hne hlive hsenders hhandles rfl
    obtain ⟨k, hk, hproc⟩ := hacc.kept i hne hlive
    cases k with
    | sender t => exact absurd ((hsenders t hproc).symm.trans hk) (by simp)
    | idle h' =>
      rw [Sys.Keeps, (hhandles h' hproc).1] at hk
      cases hk
    | closer h' =>
      rw [Sys.Keeps, (hhandles h' hproc).2] at hk
      cases hk

/-- Goroutine 0 holds a claim; goroutine 2 of another process sends, and its handle closes. -/
def closeBeside : List Act :=
  [Act.send 0 (.claim 1 8)] ++ steps 0 11 ++ [Act.send 2 (.trySend 2 [5])] ++ steps 2 20 ++
  [Act.close 2, .drop 2, .drop 2]

/-- After `closeBeside` one party works with slot 0, and slot 1 is back. -/
theorem closeBeside_conserved : ∃ s, (machine pair).Reach (fun s a => idleClose s a = true) s ∧
    (∃! k, s.Keeps k 0 ∧ pair.procOf k = (s.world.sh.slots 0).owner) ∧
    (s.world.sh.slots 1).owner ≠ life 2 := by
  have hrun : ((machine pair).runOk idleClose Sys.start closeBeside).map
      (fun s => decide ((s.world.sh.slots 0).owner = life 0 ∧ s.world.dead = [] ∧
        (s.senders 2).slot = none ∧ (s.world.pools 2).idle = [] ∧ s.closers 2 = .idle))
      = some true := by decide +kernel
  obtain ⟨s, hreach, hs⟩ := Machine.Reach.exists_of_runOk (fun _ _ h => h) hrun
  obtain ⟨howner, hdead, hsender, hidle, hcloser⟩ := of_decide_eq_true hs
  have honly : ∀ h, pair.self h = life 2 → h = 2 := by
    intro h hh
    have hh : 2 ^ 63 + (if h = 1 then 0 else h) = 2 ^ 63 + 2 := hh
    split at hh <;> omega
  refine ⟨s, hreach, (slots_conserved hreach 0).1 (by rw [howner]; decide) (by simp [hdead]),
    (slots_conserved hreach 1).2.2 (life 2) (by decide) (by simp [hdead]) ?_ ?_⟩
  · intro t ht
    obtain rfl := honly t ht
    exact hsender
  · intro h hh
    obtain rfl := honly h hh
    exact ⟨hidle, hcloser⟩

end GoIpc.Queue
