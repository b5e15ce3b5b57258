import GoIpc.Queue.Attribution

namespace GoIpc.Queue

open GoIpc.Lib
open GoIpc.Ring (Entry Producer ProdAct Shared Held claimSlots noIntent)
open Function (update update_self update_of_ne)

/-!
# Every step keeps the invariant

One lemma for each kind of step: senders (`QInv.step_send`), a handle that closes
(`QInv.step_close`, `QInv.step_drop`), a death (`QInv.step_die`), the receiver
(`QInv.step_recv`).  The senders need `passed` at a takeover, the receiver needs `clearOk` where
`reclaim` clears a slot; nothing else is asked of a run.
-/

variable {K : Config} {s s' : Sys} {w w' : World} {t h i : Nat}

/-! ### Inversion -/

theorem Sys.step_send_eq {a : SendAct} (hs : s.step K (.send t a) = some s') :
    K.proc t ∉ s.world.dead ∧ ∃ u x w, (s.senders t).step K t s.world a = some (u, x) ∧
      s.world.apply K x = some w ∧
      s' = { s with world := w, senders := update s.senders t u } := by
  simp only [Sys.step] at hs
  split_ifs at hs with hl
  obtain ⟨⟨u, x⟩, hu, hw⟩ := Option.bind_eq_some_iff.mp hs
  obtain ⟨w, hx, rfl⟩ := Option.map_eq_some_iff.mp hw
  exact ⟨hl, u, x, w, hu, hx, rfl⟩

theorem Sys.step_drop_eq (hs : s.step K (.drop h) = some s') :
    K.self h ∉ s.world.dead ∧ ∃ c x w, (s.closers h).step K h s.world = some (c, x) ∧
      s.world.apply K x = some w ∧
      s' = { s with world := w, closers := update s.closers h c } := by
  simp only [Sys.step] at hs
  split_ifs at hs with hl
  obtain ⟨⟨c, x⟩, hc, hw⟩ := Option.bind_eq_some_iff.mp hs
  obtain ⟨w, hx, rfl⟩ := Option.map_eq_some_iff.mp hw
  exact ⟨hl, c, x, w, hc, hx, rfl⟩

theorem Sys.step_recv_eq {a : RecvAct} (hs : s.step K (.recv a) = some s') :
    ∃ r x w, s.recv.step K s.world a = some (r, x) ∧ s.world.apply K x = some w ∧
      s' = { s with world := w, recv := r } := by
  simp only [Sys.step] at hs
  split_ifs at hs
  obtain ⟨⟨r, x⟩, hr, hw⟩ := Option.bind_eq_some_iff.mp hs
  obtain ⟨w, hx, rfl⟩ := Option.map_eq_some_iff.mp hw
  exact ⟨r, x, w, hr, hx, rfl⟩

namespace QInv

/-! ### Senders -/

/-- Goroutine `t` moves on while the ring operations stand still. -/
theorem runs_update (hq : QInv K s) {u : Sender} (hu : u.Runs (s.world.ring.prods t)) (t' : Nat) :
    (update s.senders t u t').Runs (s.world.ring.prods t') := by
  by_cases ht : t' = t
  · subst ht
    rwa [update_self]
  · rw [update_of_ne ht]
    exact hq.runs t'

theorem search_update (hq : QInv K s) {u : Sender} (hu : u.Ok K t s.world)
    (hd : w.dead = s.world.dead) (t' : Nat) : (update s.senders t u t').Ok K t' w := by
  have hmono : ∀ p ∈ s.world.dead, p ∈ w.dead := fun p hp => hd ▸ hp
  by_cases ht : t' = t
  · subst ht
    rw [update_self]
    exact hu.mono hmono
  · rw [update_of_ne ht]
    exact (hq.search t').mono hmono

/-- The cursor of a claim is never the value that means "no intent". -/
theorem cursor_ne (hq : QInv K s) {e : Entry} (he : e ∈ s.world.sh.log) : e.cursor ≠ noIntent := by
  have := (hq.ring.ok.wf e he).cursor_mod
  unfold noIntent
  omega

/-- Slot `i` gets a new owner.  Its old one was nobody, or a dead process that is past its last
    claim there. -/
theorem acquire (hq : QInv K s) {owner : Nat}
    (hring : s'.world.ring = { s.world.ring with
      sh := { s.world.sh with
        slots := update s.world.sh.slots i { s.world.sh.slots i with owner := owner } } })
    (hd : s'.world.dead = s.world.dead)
    (hruns : ∀ t, (s'.senders t).Runs (s.world.ring.prods t))
    (hsearch : ∀ t, (s'.senders t).Ok K t s'.world) (hslots : SlotInv K s')
    (hrecv : s'.recv = s.recv)
    (hold : (s.world.sh.slots i).owner = noProc ∨ ((s.world.sh.slots i).owner ∈ s.world.dead ∧
      ((s.world.sh.slots i).cursor = noIntent ∨
        (s.world.sh.slots i).cursor + (s.world.sh.slots i).size ≤ s.world.sh.head))) :
    QInv K s' := by
  have hsh : s'.world.sh = _ := congrArg Ring.Sys.sh hring
  refine hq.slot hring hd hruns hsearch hslots (by rw [hrecv]) (hrecv ▸ hq.reader)
    (hq.recv_stable (by rw [hsh]) (by rw [hsh]) (by rw [hsh]) (fun p hp => hd ▸ hp) hrecv) ?_ ?_
  · -- a live goroutine under the slot would own it
    intro t hl hslot
    have hk : s.Keeps (.sender t) i := (hq.runs t).keeps hslot
    have howner : (s.world.sh.slots i).owner = K.proc t := hq.slots.live _ i hk hl
    rcases hold with h0 | ⟨hdead, -⟩
    · exact absurd (howner.symm.trans h0) (K.self_ne _)
    · exact absurd (howner ▸ hdead) hl
  · intro e he hu hlt _ hslot
    rw [hslot] at hold
    rcases hold with h0 | ⟨-, hc | hc⟩
    · exact K.self_ne _ h0
    · exact hq.cursor_ne he hc
    · have : e.stop = e.cursor + e.size := rfl
      dsimp only at hc
      omega

/-- A party that runs no ring operation changes the slot it keeps. -/
theorem own (hq : QInv K s) {k : Keeper} {v : Ring.Slot} (hk : s.Keeps k i)
    (hl : K.procOf k ∉ s.world.dead)
    (hidle : ∀ t, k = .sender t → ∃ last, s.world.ring.prods t = .idle last)
    (hring : s'.world.ring = { s.world.ring with
      sh := { s.world.sh with slots := update s.world.sh.slots i v } })
    (hd : s'.world.dead = s.world.dead)
    (hruns : ∀ t, (s'.senders t).Runs (s.world.ring.prods t))
    (hsearch : ∀ t, (s'.senders t).Ok K t s'.world) (hslots : SlotInv K s')
    (hrecv : s'.recv = s.recv) : QInv K s' := by
  have hsh : s'.world.sh = _ := congrArg Ring.Sys.sh hring
  refine hq.slot hring hd hruns hsearch hslots (by rw [hrecv]) (hrecv ▸ hq.reader)
    (hq.recv_stable (by rw [hsh]) (by rw [hsh]) (by rw [hsh]) (fun p hp => hd ▸ hp) hrecv) ?_ ?_
  · intro t ht hslot
    by_cases hkt : k = .sender t
    · obtain ⟨last, hp⟩ := hidle t hkt
      rw [hp] at hslot
      cases hslot
    · exact absurd hslot (hq.prod_other hk hl hkt ht)
  · intro e he hu _ hes hslot
    obtain ⟨hke, hc⟩ := hq.alone hk hl he hu hes (by rw [hslot])
    obtain ⟨last, hp⟩ := hidle _ hke
    rw [hp] at hc
    cases hc

/-- **A step of a sender keeps the invariant.** -/
theorem step_send (hq : QInv K s) {a : SendAct} (hp : passed s (.send t a) = true)
    (hs : s.step K (.send t a) = some s') : QInv K s' := by
  obtain ⟨hl, u, x, w, hu, hx, rfl⟩ := Sys.step_send_eq hs
  have hm := Sender.step_move (hq.search t) hu
  have hslots := hq.slots.step_send hl hm hx
  have hok := Sender.step_ok (hq.search t) hu
  obtain ⟨hquiet, hmoves⟩ := Sender.step_runs rfl (hq.runs t) hu
  cases hm with
  | plain _ acc _ =>
    cases x with
    | load | wake v =>
      cases hx
      exact hq.same rfl (fun _ h => h) (hq.runs_update (hquiet (by simp)))
        (hq.search_update hok rfl) hslots rfl hq.reader
        (hq.recv_stable rfl rfl rfl (fun _ h => h) rfl)
    | prod t' b =>
      obtain rfl : t' = t := acc
      obtain ⟨r, hr, rfl⟩ := Option.map_eq_some_iff.mp hx
      obtain ⟨sh, p, hstep, rfl⟩ := Ring.Sys.step_prod_eq hr
      refine hq.prod hl hstep rfl rfl ?_ (hq.search_update hok rfl) hslots rfl
      intro t
      show (update s.senders t' u t).Runs (update s.world.ring.prods t' p t)
      by_cases ht : t = t'
      · subst ht
        rw [update_self, update_self]
        exact hmoves b sh p rfl hstep
      · rw [update_of_ne ht, update_of_ne ht]
        exact hq.runs t
    | _ => exact acc.elim
  | acquire i c k pc' _ _ owner =>
    cases hx
    refine hq.acquire rfl rfl (hq.runs_update (hquiet (by simp))) (hq.search_update hok rfl)
      hslots rfl (owner.imp_right ?_)
    -- a takeover: `passed` says that the intent of the dead owner is past
    rintro ⟨-, hdead, known, head, hpc⟩
    refine ⟨hdead, ?_⟩
    rw [hpc] at hu
    cases a with
    | step => simpa [passed, hpc] using hp
    | _ => simp [Sender.step] at hu
  | wipe i c k pc pc' =>
    cases hx
    have hidle : ∃ last, s.world.ring.prods t = .idle last := by
      have := hq.runs t
      rwa [pc] at this
    refine hq.own (k := .sender t) (by rw [Sys.Keeps, pc]; rfl) hl ?_ rfl rfl
      (hq.runs_update (hquiet (by simp))) (hq.search_update hok rfl) hslots rfl
    rintro _ ⟨⟩
    exact hidle
  | adopt | pop | push =>
    cases hx
    exact hq.same rfl (fun _ h => h) (hq.runs_update (hquiet (by simp)))
      (hq.search_update hok rfl) hslots rfl hq.reader
      (hq.recv_stable rfl rfl rfl (fun _ h => h) rfl)

/-! ### Closing and dying -/

/-- A step that moves no goroutine and leaves the ring alone. -/
theorem idle (hq : QInv K s) (hring : s'.world.ring = s.world.ring)
    (hd : ∀ p ∈ s.world.dead, p ∈ s'.world.dead) (hsend : s'.senders = s.senders)
    (hslots : SlotInv K s') (hrecv : s'.recv = s.recv) : QInv K s' := by
  have hsh : s'.world.sh = s.world.sh := congrArg Ring.Sys.sh hring
  refine hq.same hring hd (hsend ▸ hq.runs) ?_ hslots (by rw [hrecv])
    (hrecv ▸ hq.reader)
    (hq.recv_stable (by rw [hsh]) (by rw [hsh]) (by rw [hsh]) hd hrecv)
  rw [hsend]
  exact fun t => (hq.search t).mono hd

theorem step_close (hq : QInv K s) (hs : s.step K (.close h) = some s') : QInv K s' := by
  simp only [Sys.step] at hs
  split_ifs at hs with hc
  cases hs
  exact hq.idle rfl (fun _ h => h) rfl (hq.slots.close hc.2.2 rfl rfl rfl (fun _ => rfl) rfl) rfl

theorem step_drop (hq : QInv K s) (hs : s.step K (.drop h) = some s') : QInv K s' := by
  obtain ⟨hl, c, x, w, hc, hx, rfl⟩ := Sys.step_drop_eq hs
  cases hpc : s.closers h with
  | idle =>
    rw [hpc] at hc
    cases hc
  | wipe i rest =>
    rw [hpc] at hc
    cases hc
    cases hx
    have hk : s.Keeps (.closer h) i := by rw [Sys.Keeps, hpc]; exact List.mem_cons_self
    refine hq.own hk hl (by simp) rfl rfl hq.runs hq.search ?_ rfl
    refine hq.slots.same (fun _ => rfl) (fun _ h => h) rfl ?_ (fun j => storeAt_owner _ _ _ _)
      (fun _ h => h)
    intro h'
    dsimp only
    by_cases hh : h' = h
    · subst hh
      rw [update_self, hpc]
      rfl
    · rw [update_of_ne hh]
  | disown i rest =>
    rw [hpc] at hc
    have hk : s.Keeps (.closer h) i := by rw [Sys.Keeps, hpc]; exact List.mem_cons_self
    simp only [Closer.step] at hc
    split at hc <;> cases hc
    · cases hx
      refine hq.own hk hl (by simp) rfl rfl hq.runs hq.search ?_ rfl
      refine hq.slots.disown hpc hl rfl rfl rfl (fun j hj => ?_) rfl
      show (update s.world.sh.slots i _ j).owner = _
      rw [update_of_ne hj]
    · cases hx
      exact hq.idle rfl (fun _ h => h) rfl
        (hq.slots.disown hpc hl rfl rfl rfl (fun _ _ => rfl) rfl) rfl

theorem step_die {id : Nat} (hq : QInv K s) (hs : s.step K (.die id) = some s') : QInv K s' := by
  simp only [Sys.step] at hs
  split at hs <;> cases hs
  have hd : ∀ p ∈ s.world.dead, p ∈ (s.world.die id).dead := fun _ => List.mem_cons_of_mem _
  exact hq.idle rfl hd rfl
    (hq.slots.same (fun _ => rfl) (fun _ h => h) rfl (fun _ => rfl) (fun _ => rfl) hd) rfl

end QInv

end GoIpc.Queue
