import GoIpc.Queue.Alive
import GoIpc.Queue.Attempts
import GoIpc.Queue.Recovery

namespace GoIpc.Queue

open GoIpc.Lib
open GoIpc.Ring (Entry Producer ProdAct LogStep)

/-!
# No lost wakeup of the receiver

A sender that commits or aborts a claim then asks whether the receiver is registered, and signals it if
so.  The receiver registers, reads once more, and waits.  Either the second read sees the finished claim,
or the sender's question comes after the registration.

* `Sys.Waking` — the owner of a claim is between its commit or abort and the end of `wakeReceiver`;
* `Told` — a claim that is finished at a cursor was announced, or is about to be;
* `Vigil` — what a receiver knows from its registration on, whatever it is that it knows;
* `no_lost_wakeup` — no receiver waits for a finished claim nobody will announce.

A `ReadBatch` whose limit is not positive passes over nothing and waits at a finished claim
(`emptyBatch`).
-/

variable {K : Config} {s s' : Sys} {w w' : World} {t : Nat}

/-! ### The window of a sender -/

/-- The sender has finished a claim and has not come to the end of `wakeReceiver`. -/
def Sender.waking (p : Producer) : Sender → Bool
  | .ring .. =>
      match p with
      | .release _ | .idle none => true
      | _ => false
  | .finishing _ =>
      match p with
      | .release _ | .idle _ => true
      | _ => false
  | .putSlot _ _ _ none | .subWaiter _ (.done .sent) | .wakeLoad | .wakeSignal => true
  | _ => false

/-- The owner of claim `e` is between the commit or abort of `e` and the end of its `wakeReceiver`. -/
def Sys.Waking (s : Sys) (e : Entry) : Prop :=
  (s.senders e.owner).waking (s.world.ring.prods e.owner) = true ∧
    ∀ e' ∈ s.world.sh.log, e'.owner = e.owner → e'.cursor ≤ e.cursor

instance (s : Sys) (e : Entry) : Decidable (s.Waking e) := inferInstanceAs (Decidable (_ ∧ _))

theorem Sender.waking_ring {p : Producer} {c : Call} {k : Try} {i : Nat}
    (h : (Sender.ring c k i).waking p = true) : (∃ cl, p = .release cl) ∨ p = .idle none := by
  cases p with
  | release cl => exact .inl ⟨cl, rfl⟩
  | idle err =>
    cases err with
    | none => exact .inr rfl
    | some e => cases h
  | _ => cases h

theorem Sender.waking_finishing {p : Producer} {i : Nat}
    (h : (Sender.finishing i).waking p = true) : (∃ cl, p = .release cl) ∨ ∃ err, p = .idle err := by
  cases p with
  | release cl => exact .inl ⟨cl, rfl⟩
  | idle err => exact .inr ⟨err, rfl⟩
  | _ => cases h

variable {a : SendAct} {p' : Sender} {x : Access} {r : Recv}

/-- A sender in the window stays there until it has signalled a registered receiver. -/
theorem Sender.waking_step {p : Sender} (h : p.waking (w.ring.prods t) = true)
    (hwaits : 0 < w.wake.recvWaiters) (hs : p.step K t w a = some (p', x)) (hx : w.apply K x = some w') :
    p'.waking (w'.ring.prods t) = true ∨ 0 < w'.wake.notEmpty := by
  -- the last access of a ring operation
  have hrelease : ∀ {cl : Ring.Claim}, w.ring.prods t = .release cl →
      w.apply K (.prod t .step) = some w' → w'.ring.prods t = .idle none := by
    intro cl hpc hx
    obtain ⟨q, sh, hst, hq, -⟩ := World.apply_prod hx
    rw [hpc] at hst
    cases hst
    exact hq
  cases Sender.step_rule hs with
  | returned prod =>
    rcases waking_ring h with ⟨cl, hpc⟩ | hpc
    · rw [hpc] at prod
      cases prod
    · cases hpc.symm.trans prod
      exact .inl rfl
  | opened prod => rcases waking_ring h with ⟨cl, hpc⟩ | hpc <;> rw [hpc] at prod <;> cases prod
  | ring busy =>
    rcases waking_ring h with ⟨cl, hpc⟩ | hpc
    · left
      rw [hrelease hpc hx]
      rfl
    · exact absurd hpc (busy none)
  | finishing busy =>
    rcases waking_finishing h with ⟨cl, hpc⟩ | ⟨err, hpc⟩
    · left
      rw [hrelease hpc hx]
      rfl
    · exact absurd hpc (busy err)
  | @putSlot c k i err =>
    cases err with
    | none => cases k <;> exact .inl rfl
    | some e => cases h
  | @result c r => cases r <;> first | exact .inl rfl | cases h
  | finished | waiters => exact .inl rfl
  | noWaiters quiet => exact absurd hwaits quiet
  | signal =>
    cases hx
    exact .inr (Nat.succ_pos _)
  | _ => cases h

/-- The commit or abort of a claim opens the window. -/
theorem Sender.waking_of_release {p : Sender} {b : ProdAct} {cl : Ring.Claim} {sh : Ring.Shared}
    (hs : p.step K t w a = some (p', .prod t b))
    (hst : (w.ring.prods t).step K.cap t w.sh b = some (sh, .release cl)) :
    p'.waking (.release cl) = true := by
  cases Sender.step_rule hs with
  | put =>
    -- a byte written into an open claim does not close it
    generalize w.ring.prods t = q at hst
    cases Ring.Producer.step_rule hst
  | _ => rfl

/-- In the window a ring operation has only its slot to release. -/
theorem Sender.release_of_waking {p : Sender} {b : ProdAct} (h : p.waking (w.ring.prods t) = true)
    (hs : p.step K t w a = some (p', .prod t b)) : ∃ cl, w.ring.prods t = .release cl := by
  cases Sender.step_rule hs with
  | ring busy => exact (waking_ring h).resolve_right (busy none)
  | finishing busy => exact (waking_finishing h).resolve_right fun ⟨err, hpc⟩ => busy err hpc
  | _ => cases h

/-- Senders take no token of the receiver, and leave its count of waiters alone. -/
theorem Sender.step_tokens {p : Sender} (hs : p.step K t w a = some (p', x)) (hx : w.apply K x = some w') :
    w.wake.notEmpty ≤ w'.wake.notEmpty ∧ w'.wake.recvWaiters = w.wake.recvWaiters := by
  by_cases hv : ∃ v, x = .wake v
  · obtain ⟨v, rfl⟩ := hv
    cases hx
    show w.wake.notEmpty ≤ v.notEmpty ∧ v.recvWaiters = w.wake.recvWaiters
    cases Sender.step_rule hs with
    | signal => exact ⟨Nat.le_succ _, rfl⟩
    | _ => exact ⟨le_rfl, rfl⟩
  · exact World.apply_notEmpty (fun v hv' => hv ⟨v, hv'⟩) hx

/-! ### Claims that are announced -/

/-- A goroutine's open claim is its last one. -/
def Latest (s : Sys) : Prop :=
  ∀ e ∈ s.world.sh.log, e.state = .claimed → ∀ e' ∈ s.world.sh.log, e'.owner = e.owner →
    e'.cursor ≤ e.cursor

theorem Latest.step (h : Latest s) (halive : Alive K s) {a : Act} (ha : ∀ id, a ≠ .die id)
    (hs : s.step K a = some s') : Latest s' := by
  rcases halive.step_log ha hs with ⟨hlog, -⟩ | ⟨t, b, q, -, hst⟩
  · unfold Latest
    rwa [hlog]
  · have hstep := Producer.step_log hst
    have hbelow : ∀ e ∈ s.world.sh.log, e.cursor ≤ s.world.sh.tail := fun e he =>
      (halive.inv.ring.ok.tiled.bounds he).2.1.le.trans (halive.inv.ring.ok.tiled.bounds he).2.2
    intro e₁' h₁' hclaimed e₂' h₂' howner
    rcases hstep.was h₁' with ⟨e₁, h₁, hw₁⟩ | ⟨r, hpc, rfl, -, -⟩
    · rcases hstep.was h₂' with ⟨e₂, h₂, hw₂⟩ | ⟨r, hpc, rfl, -, -⟩
      · rw [← hw₁.cursor, ← hw₂.cursor]
        exact h e₁ h₁ (hw₁.claimed hclaimed) e₂ h₂ (by rw [hw₁.owner, hw₂.owner, howner])
      · -- whoever claims has no open claim
        have hheld := (halive.inv.held e₁ h₁ (hw₁.claimed hclaimed)).1
        have ht : e₁.owner = t := hw₁.owner.trans howner.symm
        rw [ht, hpc] at hheld
        cases hheld
    · rcases hstep.was h₂' with ⟨e₂, h₂, hw₂⟩ | ⟨r', -, rfl, -, -⟩
      · rw [← hw₂.cursor]
        exact hbelow e₂ h₂
      · exact le_rfl

/-- A token is pending, or the owner of a finished claim at `c` is about to wake the receiver. -/
def Told (s : Sys) (c : Nat) : Prop :=
  0 < s.world.wake.notEmpty ∨ ∀ e ∈ s.world.sh.log, e.cursor ≤ c → c < e.stop → ¬ e.Unfinished →
    s.Waking e

/-- **A step of a sender**, while the receiver is registered. -/
theorem Told.step_send {c : Nat} (h : Told s c) (halive : Alive K s) (hlatest : Latest s)
    (hwaits : 0 < s.world.wake.recvWaiters) (hs : s.step K (.send t a) = some s') : Told s' c := by
  obtain ⟨-, u, x, w, hu, hx, rfl⟩ := Sys.step_send_eq hs
  have htokens := (Sender.step_tokens hu hx).1
  rcases h with htoken | htold
  · exact .inl (lt_of_lt_of_le htoken htokens)
  by_cases htoken : 0 < w.wake.notEmpty
  · exact .inl htoken
  -- a goroutine in the window stays there
  have hwindow : (s.senders t).waking (s.world.ring.prods t) = true →
      u.waking (w.ring.prods t) = true := fun h =>
    (Sender.waking_step h hwaits hu hx).resolve_right htoken
  have hother : ∀ t', t' ≠ t → w.ring.prods t' = s.world.ring.prods t' := fun t' ht =>
    World.apply_prods (fun b => (Sender.step_access hu).2.1 t' b ht) hx
  -- the owner of an announced claim, after the step
  have hkeep : ∀ e e' : Entry, s.Waking e → e'.owner = e.owner → e'.cursor = e.cursor →
      (∀ e₂' ∈ w.sh.log, e₂'.owner = e.owner →
        ∃ e₂ ∈ s.world.sh.log, e₂.owner = e₂'.owner ∧ e₂.cursor = e₂'.cursor) →
      Sys.Waking { s with world := w, senders := Function.update s.senders t u } e' := by
    intro e e' he howner hcursor hback
    refine ⟨?_, fun e₂' h₂' ho₂ => ?_⟩
    · dsimp only
      rw [howner]
      by_cases ht : e.owner = t
      · rw [ht, Function.update_self]
        exact hwindow (ht ▸ he.1)
      · rw [Function.update_of_ne ht, hother _ ht]
        exact he.1
    · obtain ⟨e₂, h₂, ho, hc⟩ := hback e₂' h₂' (ho₂.trans howner)
      rw [← hc, hcursor]
      exact he.2 e₂ h₂ (by rw [ho, ho₂, howner])
  refine .inr fun e' he' h1 h2 hfin => ?_
  have he' : e' ∈ w.sh.log := he'
  by_cases hprod : ∃ b, x = .prod t b
  · obtain ⟨b, rfl⟩ := hprod
    obtain ⟨q, sh, hst, hq, rfl⟩ := World.apply_prod hx
    have hstep := Ring.Producer.step_log hst
    obtain ⟨e, he, hsame, hdone | ⟨hpc, cl, rfl⟩⟩ := hstep.finished he' hfin
    · have hwaking := htold e he (hsame.cursor ▸ h1) (hsame.stop ▸ h2) hdone
      refine hkeep e e' hwaking hsame.owner.symm hsame.cursor.symm fun e₂' h₂' ho₂ => ?_
      rcases hstep.was h₂' with ⟨e₂, h₂, hw⟩ | ⟨r, hcas, rfl, -⟩
      · exact ⟨e₂, h₂, hw.owner, hw.cursor⟩
      · -- a goroutine in the window makes no claim
        have howner : t = e.owner := ho₂
        obtain ⟨cl, hrel⟩ := Sender.release_of_waking (howner ▸ hwaking.1) hu
        cases hcas.symm.trans hrel
    · -- the claim that is finished now
      obtain ⟨e₀, he₀, hc₀, ho₀, hclaimed⟩ := (halive.local_prod t).claimed hpc
      obtain rfl := halive.inv.ring.ok.tiled.eq_of_lo_eq he₀ he hc₀
      refine ⟨?_, fun e₂' h₂' ho₂ => ?_⟩
      · show ((Function.update s.senders t u) e'.owner).waking (w.ring.prods e'.owner) = true
        rw [← hsame.owner, ho₀, Function.update_self, hq]
        exact Sender.waking_of_release hu hst
      · rcases hstep.was h₂' with ⟨e₂, h₂, hw⟩ | ⟨r, -, -, hcur, -⟩
        · rw [← hw.cursor, ← hsame.cursor]
          exact hlatest e₀ he₀ hclaimed e₂ h₂ (by rw [hw.owner, ho₂, hsame.owner])
        · cases hcur
  · have hlog : w.sh.log = s.world.sh.log := by
      rcases World.apply_log (Sender.step_access hu).2.2 hx with ⟨hlog, -⟩ | ⟨t', b, q, rfl, -⟩
      · exact hlog
      · by_cases ht : t' = t
        · exact absurd ⟨b, by rw [ht]⟩ hprod
        · exact absurd rfl ((Sender.step_access hu).2.1 t' b ht)
    rw [hlog] at he'
    exact hkeep e' e' (htold e' he' h1 h2 hfin) rfl rfl (fun e₂ h₂ _ => ⟨e₂, hlog ▸ h₂, rfl, rfl⟩)

/-! ### The receiver -/

/-- The receiver is counted as a waiter. -/
def Recv.registered : Recv → Bool
  | .wait _ | .subWaiter .. => true
  | r => r.attempt.map Prod.snd = some .again

/-- An attempt takes no token and leaves the count of waiters alone. -/
theorem Recv.step_tokens {r' : Recv} {a : RecvAct} {v : Int × Try} (hattempt : r.attempt = some v)
    (hr : r.step K w a = some (r', x)) (hx : w.apply K x = some w') :
    w.wake.notEmpty ≤ w'.wake.notEmpty ∧ w'.wake.recvWaiters = w.wake.recvWaiters := by
  by_cases hv : ∃ v, x = .wake v
  · obtain ⟨v, rfl⟩ := hv
    cases hx
    show w.wake.notEmpty ≤ v.notEmpty ∧ v.recvWaiters = w.wake.recvWaiters
    cases Recv.step_rule hr with
    | signal => exact ⟨le_rfl, rfl⟩
    | _ => cases hattempt
  · exact World.apply_notEmpty (fun v hv' => hv ⟨v, hv'⟩) hx

/-- Nothing is claimed at the tail. -/
theorem told_tail (hq : QInv K s) : Told s s.world.sh.tail := by
  refine .inr fun e he _ hlt => ?_
  exact absurd (hq.ring.ok.tiled.bounds he).2.2 (not_le.mpr hlt)

/-- A claim `Read` cannot pass is not finished. -/
theorem told_unfinished (hq : QInv K s) {r : Ring.Loop} (hread : s.world.ring.reader = .loadLen r)
    (hlen : s.world.sh.loadLength (r.cursor % K.cap.size) ≤ 0) : Told s r.cursor :=
  .inr fun _ he h1 h2 hfin => absurd (hq.unfinished_of_length hread hlen he h1 h2) hfin

/-- **A step of an attempt.** -/
theorem Told.step_recv {c : Nat} (h : Told s c) (halive : Alive K s) {a : RecvAct} {v : Int × Try}
    (hattempt : s.recv.attempt = some v) (hr : s.recv.step K s.world a = some (r, x))
    (hx : s.world.apply K x = some w) : Told { s with world := w, recv := r } c := by
  have hlog : w.sh.log = s.world.sh.log := by
    rcases World.apply_log (halive.spares.step halive.lives hr).2 hx with ⟨hlog, -⟩ | ⟨t, b, q, rfl, -⟩
    · exact hlog
    · exact absurd rfl (Recv.step_access hr t b)
  have hprods : ∀ t, w.ring.prods t = s.world.ring.prods t := fun t =>
    World.apply_prods (Recv.step_access hr t) hx
  refine h.imp (fun htoken => lt_of_lt_of_le htoken (Recv.step_tokens hattempt hr hx).1) ?_
  intro htold e he h1 h2 hfin
  rw [hlog] at he
  obtain ⟨hwaking, hlast⟩ := htold e he h1 h2 hfin
  refine ⟨?_, ?_⟩
  · rwa [hprods]
  · rwa [hlog]

theorem Recv.registered_of_attempt {l : Int} {k : Try} (h : r.attempt = some (l, k)) :
    r.registered = decide (k = .again) := by
  cases r <;> cases h <;> cases k <;> rfl

/-- After its compare-and-swap `reclaim` goes on to the type. -/
theorem Recv.step_casLength {r' : Recv} {a : RecvAct} {c n : Nat} {Q P : Nat → Prop}
    (hr : r.step K w a = some (r', .casLength c n)) : Seen Q P w' r' := by
  cases Recv.step_rule hr
  trivial

/-- A receiver that registers before its second attempt: where `Read` stopped without a message in
    this attempt `T` holds, and while it waits `W`. -/
structure Vigil (T : Nat → Prop) (W : Prop) (s : Sys) : Prop where
  positive : Positive s.recv
  withdraws : ∀ l n, s.recv ≠ .subWaiter l n .again
  counted : s.recv.registered = true → 0 < s.world.wake.recvWaiters
  seen : ∀ l, s.recv.attempt = some (l, .again) → Seen T T s.world s.recv
  waits : ∀ l, s.recv = .wait l → W

namespace Vigil

variable {T T' : Nat → Prop} {W W' : Prop}

theorem start : Vigil T W Sys.start where
  positive _ h := by cases h
  withdraws _ _ h := by cases h
  counted h := by cases h
  seen _ h := by cases h
  waits _ h := by cases h

/-- A step of another party. -/
theorem step_other (h : Vigil T W s) {a : Act} (ha : ∀ b, a ≠ .recv b) (hs : s.step K a = some s')
    (hrecv : s'.recv = s.recv) (hwaits : s'.world.wake.recvWaiters = s.world.wake.recvWaiters)
    (hT : 0 < s.world.wake.recvWaiters → ∀ c, T c → T' c)
    (hW : 0 < s.world.wake.recvWaiters → W → W') : Vigil T' W' s' := by
  refine ⟨?_, ?_, ?_, fun l hl => ?_, fun l hl => ?_⟩
  · rw [hrecv]
    exact h.positive
  · rw [hrecv]
    exact h.withdraws
  · rw [hrecv, hwaits]
    exact h.counted
  · rw [hrecv] at hl ⊢
    have hcount := h.counted (by rw [Recv.registered_of_attempt hl]; rfl)
    exact (h.seen l hl).keep (Sys.step_reader ha hs) (Sys.step_head ha hs) (hT hcount) (hT hcount)
  · rw [hrecv] at hl
    exact hW (h.counted (hl ▸ rfl)) (h.waits l hl)

/-- **A step of the receiver.** -/
theorem step_recv (h : Vigil T W s) (hq : QInv K s) {a : RecvAct} (ha : ∀ l, a = .readBatch l → 0 < l)
    (hr : s.recv.step K s.world a = some (r, x)) (hx : s.world.apply K x = some w)
    (htail : T s.world.sh.tail)
    (hlen : ∀ r, s.world.ring.reader = .loadLen r →
      s.world.sh.loadLength (r.cursor % K.cap.size) ≤ 0 → T r.cursor)
    (hkeep : ∀ v, s.recv.attempt = some v → (∀ c n, x ≠ .casLength c n) → ∀ c, T c → T' c)
    (hpark : ∀ l, s.recv.attempt = some (l, .again) → r = .wait l → T s.world.sh.head → W') :
    Vigil T' W' { s with world := w, recv := r } := by
  have hpos := h.positive.step ha hr
  -- the places outside of an attempt
  have outside : ∀ {r' : Recv}, r = r' → (∀ l n, r' ≠ .subWaiter l n .again) →
      (r'.registered = true → 0 < w.wake.recvWaiters) →
      (∀ l, r'.attempt = some (l, .again) → ∃ k, r' = .before l k) → (∀ l, r' ≠ .wait l) →
      Vigil T' W' { s with world := w, recv := r } := by
    rintro r' rfl hsub hreg hbefore hwait
    refine ⟨hpos, hsub, hreg, fun l hl => ?_, fun l hl => absurd hl (hwait l)⟩
    obtain ⟨k, hk⟩ := hbefore l hl
    dsimp only
    rw [hk]
    trivial
  have hleads := step_leads hr
  generalize hpc : s.recv = r₀ at hleads
  cases hleads with
  | within l k src dest =>
    rw [← hpc] at src
    have hcount : k = .again → 0 < w.wake.recvWaiters := by
      rintro rfl
      rw [(Recv.step_tokens src hr hx).2]
      exact h.counted (by rw [Recv.registered_of_attempt src]; rfl)
    cases dest with
    | goes_on dest =>
      refine ⟨hpos, ?_, fun hreg => ?_, fun l' hl' => ?_, ?_⟩
      · rintro l n rfl
        cases dest
      · rw [Recv.registered_of_attempt dest] at hreg
        exact hcount (of_decide_eq_true hreg)
      · obtain ⟨rfl, rfl⟩ := Prod.mk.inj (Option.some.inj (dest.symm.trans hl'))
        by_cases hcas : ∃ c n, x = .casLength c n
        · obtain ⟨c, n, rfl⟩ := hcas
          exact Recv.step_casLength hr
        · have hseen := Seen.step (Q := fun _ => T) (P := fun _ => T) hq (h.seen l src)
            (fun l k hb => h.positive l (hb ▸ rfl)) (fun _ _ _ _ h => h)
            (fun _ _ _ _ _ h => h) (fun _ _ h => h) htail hlen hr hx
          have hT := hkeep _ src fun c n hx => hcas ⟨c, n, hx⟩
          exact hseen.keep rfl rfl hT hT
      · rintro l rfl
        cases dest
    | empty =>
      refine ⟨hpos, ?_, fun hreg => ?_, fun l' hl' => ?_, fun l' hl' => ?_⟩
      · intro l' n heq
        cases k <;> cases heq
      · cases k <;> first | exact hcount rfl | cases hreg
      · cases k <;> cases hl'
      · cases k <;> cases hl'
        -- the receiver goes to wait
        exact hpark l src rfl ((givesUp_of_step src hr rfl).seen (h.seen l src))
    | returns n err _ =>
      refine ⟨hpos, ?_, fun hreg => ?_, fun l' hl' => ?_, fun l' hl' => ?_⟩
      · intro l' n' heq
        cases k <;> cases heq
      · cases k <;> first | exact hcount rfl | cases hreg
      · cases k <;> cases hl'
      · cases k <;> cases hl'
  | call l k act =>
    refine outside rfl nofun (fun hreg => ?_) (fun l' hl' => ⟨k, by cases hl'; rfl⟩) nofun
    rcases act with ⟨-, rfl⟩ | ⟨-, -, rfl⟩ <;> cases hreg
  | add l =>
    refine outside rfl nofun (fun _ => ?_) (fun l' hl' => ⟨.again, by cases hl'; rfl⟩) nofun
    rw [hpc] at hr
    cases Recv.step_rule hr
    cases hx
    exact Nat.succ_pos _
  | token l | cancel l | gone l _ =>
    refine outside rfl nofun (fun _ => ?_) nofun nofun
    have hwaits := h.counted (hpc ▸ rfl)
    rw [hpc] at hr
    cases Recv.step_rule hr
    cases hx
    exact hwaits
  | result l k res => exact outside rfl nofun nofun nofun nofun
  | again l k =>
    refine outside rfl nofun (fun hreg => ?_) (fun l' hl' => ⟨k, by cases hl'; rfl⟩) nofun
    rw [Recv.registered_of_attempt rfl] at hreg
    exact absurd (of_decide_eq_true hreg) (fun hk => h.withdraws l none (hk ▸ hpc))

end Vigil

/-- What holds along a run in which nobody dies and no handle closes. -/
structure Watchful (K : Config) (s : Sys) : Prop where
  alive : Alive K s
  positive : Positive s.recv
  latest : Latest s
  withdraws : ∀ l n, s.recv ≠ .subWaiter l n .again
  counted : s.recv.registered = true → 0 < s.world.wake.recvWaiters
  seen : ∀ l, s.recv.attempt = some (l, .again) → Seen (Told s) (Told s) s.world s.recv
  waits : ∀ l, s.recv = .wait l → Told s s.world.sh.head

namespace Watchful

theorem vigil (h : Watchful K s) : Vigil (Told s) (Told s s.world.sh.head) s :=
  ⟨h.positive, h.withdraws, h.counted, h.seen, h.waits⟩

theorem of_vigil (halive : Alive K s) (hlatest : Latest s)
    (h : Vigil (Told s) (Told s s.world.sh.head) s) : Watchful K s :=
  ⟨halive, h.positive, hlatest, h.withdraws, h.counted, h.seen, h.waits⟩

theorem start : Watchful K Sys.start :=
  of_vigil Alive.start nofun Vigil.start

/-- A step of a sender. -/
theorem step_send (h : Watchful K s) (hs : s.step K (.send t a) = some s') : Watchful K s' := by
  have hsend : ∀ b, Act.send t a ≠ .recv b := nofun
  have htold : 0 < s.world.wake.recvWaiters → ∀ c, Told s c → Told s' c := fun hw c hc =>
    hc.step_send h.alive h.latest hw hs
  refine of_vigil (h.alive.step (fun _ ha => by cases ha) hs)
    (h.latest.step h.alive (fun _ ha => by cases ha) hs) ?_
  rw [Sys.step_head hsend hs]
  obtain ⟨-, u, x, w, hu, hx, hs'⟩ := Sys.step_send_eq hs
  exact h.vigil.step_other hsend hs (by rw [hs']) (by rw [hs']; exact (Sender.step_tokens hu hx).2)
    htold fun hw => htold hw _

/-- A step of the receiver. -/
theorem step_recv (h : Watchful K s) {a : RecvAct} (ha : ∀ l, a = .readBatch l → 0 < l)
    (hs : s.step K (.recv a) = some s') : Watchful K s' := by
  have halive := h.alive.step (fun _ ha => by cases ha) hs
  have hlatest := h.latest.step h.alive (fun _ ha => by cases ha) hs
  obtain ⟨r, x, w, hr, hx, rfl⟩ := Sys.step_recv_eq hs
  have htold : ∀ v, s.recv.attempt = some v → ∀ c, Told s c →
      Told { s with world := w, recv := r } c := fun v hv c hc => hc.step_recv h.alive hv hr hx
  refine of_vigil halive hlatest (h.vigil.step_recv h.alive.inv ha hr hx (told_tail h.alive.inv)
    (fun r hrd hlen => told_unfinished h.alive.inv hrd hlen) (fun v hv _ => htold v hv) ?_)
  rintro l src rfl hhead
  show Told _ w.sh.head
  rw [(givesUp_of_step src hr rfl).sh hr hx]
  exact htold _ src _ hhead

end Watchful

/-! ### No lost wakeup -/

/-- Nobody dies and no handle closes. -/
def Act.peaceful : Act → Bool
  | .die _ | .close _ | .drop _ => false
  | _ => true

/-- A receive asks for at least one message. -/
def Act.asks : Act → Bool
  | .recv (.readBatch l) => 0 < l
  | _ => true

/-- The receiver waits without a token for a claim that is committed or aborted, and the owner of the
    claim is done with `wakeReceiver`. -/
def Sys.LostWakeup (s : Sys) : Prop :=
  (∃ l, s.recv = .wait l) ∧ s.world.wake.notEmpty = 0 ∧
    ∃ e ∈ s.world.sh.log, e.cursor ≤ s.world.sh.head ∧ s.world.sh.head < e.stop ∧
      (e.state = .committed ∨ e.state = .aborted) ∧ ¬ s.Waking e

/-- **No lost wakeup.**  In every run in which nobody dies, no handle closes and every receive asks for
    at least one message, no state has a receiver that waits without a token for a claim that is
    committed or aborted while the owner of the claim has nothing more to do about it. -/
theorem no_lost_wakeup
    (h : (machine K).Reach (fun _ a => a.peaceful = true ∧ a.asks = true) s) : ¬ s.LostWakeup := by
  have hw : Watchful K s := by
    refine h.invariant Watchful.start fun s s' a hw hok hs => ?_
    cases a with
    | send t a => exact hw.step_send hs
    | recv a =>
      refine hw.step_recv ?_ hs
      rintro l rfl
      exact of_decide_eq_true hok.2
    | close | drop | die => cases hok.1
  rintro ⟨⟨l, hwait⟩, htoken, e, he, h1, h2, hstate, hdone⟩
  have hfin : ¬ e.Unfinished := by
    rintro (hu | hu) <;> rw [hu] at hstate <;> rcases hstate with h0 | h0 <;> cases h0
  rcases hw.waits l hwait with h0 | h0
  · exact absurd htoken (Nat.pos_iff_ne_zero.mp h0)
  · exact hdone (h0 e he h1 h2 hfin)

/-! ### Runs to show -/

/-- The receiver waits, and goroutine 0 has committed a message and stands before its question. -/
def waitThenCommit : List Act :=
  [Act.recv (.readBatch 1)] ++ recvs 15 ++ [Act.send 0 (.trySend 2 [5])] ++ steps 0 18

/-- In `waitThenCommit` the wakeup is still to come. -/
theorem no_lost_wakeup_commit :
    ∃ s, (machine pair).Reach (fun _ a => a.peaceful = true ∧ a.asks = true) s ∧
      s.recv = .wait 1 ∧ s.world.wake.notEmpty = 0 ∧
      (∃ e ∈ s.world.sh.log, e.cursor = s.world.sh.head ∧ e.state = .committed) ∧
      ¬ s.LostWakeup := by
  have hrun : ((machine pair).runOk (fun _ a => a.peaceful && a.asks) Sys.start waitThenCommit).map
      (fun s => decide (s.recv = .wait 1 ∧ s.world.wake.notEmpty = 0 ∧
        ∃ e ∈ s.world.sh.log, e.cursor = s.world.sh.head ∧ e.state = .committed)) = some true := by
    decide +kernel
  have hreach : ∃ s, (machine pair).Reach
      (fun _ a => a.peaceful = true ∧ a.asks = true) s ∧ _ :=
    Machine.Reach.exists_of_runOk (fun s a h => Bool.and_eq_true_iff.mp h) hrun
  obtain ⟨s, hreach, hs⟩ := hreach
  obtain ⟨hwait, htoken, he⟩ := of_decide_eq_true hs
  exact ⟨s, hreach, hwait, htoken, he, no_lost_wakeup hreach⟩

/-- Goroutine 0 has sent a message when a `ReadBatch` with limit zero begins. -/
def emptyBatch : List Act :=
  [Act.send 0 (.trySend 2 [5])] ++ steps 0 19 ++ [Act.recv (.readBatch 0)] ++ recvs 13

/-- **A batch of nothing waits at a committed message.** -/
theorem emptyBatch_waits :
    ∃ s, (machine pair).Reach (fun _ a => a.peaceful = true) s ∧ s.LostWakeup := by
  have hrun : ((machine pair).runOk (fun _ a => a.peaceful) Sys.start emptyBatch).map
      (fun s => decide (s.recv = .wait 0 ∧ s.world.wake.notEmpty = 0 ∧
        ∃ e ∈ s.world.sh.log, e.cursor ≤ s.world.sh.head ∧ s.world.sh.head < e.stop ∧
          (e.state = .committed ∨ e.state = .aborted) ∧ ¬ s.Waking e)) = some true := by
    decide +kernel
  obtain ⟨s, hreach, hs⟩ := Machine.Reach.exists_of_runOk (fun _ _ h => h) hrun
  obtain ⟨hwait, htoken, he⟩ := of_decide_eq_true hs
  exact ⟨s, hreach, ⟨0, hwait⟩, htoken, he⟩

end GoIpc.Queue
