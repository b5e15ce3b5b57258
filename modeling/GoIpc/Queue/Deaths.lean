import GoIpc.Queue.Wakeup

namespace GoIpc.Queue

open GoIpc.Lib
open GoIpc.Ring (Entry Producer ProdAct LogStep)
open Function (update update_self update_of_ne)

/-!
# Wakeups while processes die

`Wakeup.lean` has no deaths.  Here processes die, handles close and the receiver recovers claims.  What
can go wrong is a process that dies between the commit of a message and the wakeup that announces it,
which `calm` excludes, and a handle that closes its events under a call of its own, whose wakeup is
then dropped, which `closesAtRest` excludes.

* `Sys.Rousing` — a live sender is between a commit or abort and the end of `wakeReceiver`;
* `Quiet` — unless the receiver has a token or will get one, nothing in a range is finished;
* `wakeup_survives_deaths` — in every run that meets the conditions of recovery and these two, no
  wakeup is lost.
-/

variable {K : Config} {s s' : Sys} {w w' : World} {t : Nat} {R : Nat → Nat → Prop}

/-! ### The history under a step of a sender -/

/-- A claim stays in the history. -/
theorem log_persists {C : Ring.Capacity} {p p' : Producer} {sh sh' : Ring.Shared}
    (h : LogStep C t p p' sh sh') {e : Entry} (he : e ∈ sh.log) :
    ∃ e' ∈ sh'.log, e'.owner = e.owner := by
  cases h with
  | same log _ _ => exact ⟨e, log ▸ he, rfl⟩
  | claim q pc log _ _ _ => exact ⟨e, by rw [log]; exact List.mem_append_left _ he, rfl⟩
  | payload _ _ _ _ log _ _ | finish _ _ _ log _ _ _ =>
    exact ⟨_, by rw [log]; exact Ring.mem_note.mpr ⟨e, he, rfl⟩, by split <;> rfl⟩

/-- A claim that is finished after a step was finished before, or is finished by the step. -/
theorem log_finished {C : Ring.Capacity} {p p' : Producer} {sh sh' : Ring.Shared}
    (h : LogStep C t p p' sh sh') {e' : Entry} (he : e' ∈ sh'.log) (hfin : ¬ e'.Unfinished) :
    (∃ e ∈ sh.log, e.cursor = e'.cursor ∧ e.stop = e'.stop ∧ ¬ e.Unfinished) ∨
      ∃ c, p' = .release c ∧ p.cursor = some c.cursor := by
  cases h with
  | same log _ _ => exact .inl ⟨e', log ▸ he, rfl, rfl, hfin⟩
  | claim q pc log _ _ _ =>
    rw [log] at he
    rcases List.mem_append.mp he with he | he
    · exact .inl ⟨e', he, rfl, rfl, hfin⟩
    · cases List.mem_singleton.mp he
      exact absurd (.inl rfl) hfin
  | payload c k b _ log _ _ =>
    rw [log] at he
    obtain ⟨e, hmem, rfl⟩ := Ring.mem_note.mp he
    refine .inl ⟨e, hmem, by split <;> rfl, by split <;> rfl, ?_⟩
    split at hfin <;> exact hfin
  | finish c st pc log _ final pc' => exact .inr ⟨c, pc', pc⟩

/-! ### Wakeups to come -/

/-- A sender of a live process is between a commit or abort and the end of `wakeReceiver`. -/
def Sys.Rousing (K : Config) (s : Sys) : Prop :=
  ∃ e ∈ s.world.sh.log, K.proc e.owner ∉ s.world.dead ∧
    (s.senders e.owner).waking (s.world.ring.prods e.owner) = true

/-- The receiver has a token or will get one, or no claim whose range is in `R` is finished. -/
def Quiet (K : Config) (s : Sys) (R : Nat → Nat → Prop) : Prop :=
  0 < s.world.wake.notEmpty ∨ s.Rousing K ∨
    ∀ e ∈ s.world.sh.log, R e.cursor e.stop → e.Unfinished

/-- What a step of a sender does to the history: nothing, or a step of its ring operation. -/
theorem send_log {p u : Sender} {a : SendAct} {x : Access} (hu : p.step K t w a = some (u, x))
    (hx : w.apply K x = some w') : w'.sh.log = w.sh.log ∨
      ∃ b q, x = .prod t b ∧ (w.ring.prods t).step K.cap t w.sh b = some (w'.sh, q) ∧
        w'.ring.prods t = q := by
  rcases World.apply_log (Sender.step_access hu).2.2 hx with ⟨hlog, -⟩ | ⟨t', b, q, rfl, -⟩
  · exact .inl hlog
  · obtain rfl : t' = t := by
      by_contra hne
      exact (Sender.step_access hu).2.1 t' b hne rfl
    obtain ⟨q, sh, hst, hq, rfl⟩ := World.apply_prod hx
    exact .inr ⟨b, q, rfl, hst, hq⟩

section Send

variable {a : SendAct} {u : Sender} {x : Access} (hq : QInv K s) (hl : K.proc t ∉ s.world.dead)
  (hu : (s.senders t).step K t s.world a = some (u, x)) (hx : s.world.apply K x = some w)
include hu hx

theorem send_persists {e : Entry} (he : e ∈ s.world.sh.log) :
    ∃ e' ∈ w.sh.log, e'.owner = e.owner := by
  rcases send_log hu hx with hlog | ⟨b, q, -, hst, -⟩
  · exact ⟨e, hlog ▸ he, rfl⟩
  · exact log_persists (Ring.Producer.step_log hst) he

include hq hl

/-- Whoever commits or aborts a claim is about to wake the receiver. -/
theorem rousing_of_release {b : ProdAct} {q : Producer} {c : Ring.Claim} (hxb : x = .prod t b)
    (hst : (s.world.ring.prods t).step K.cap t s.world.sh b = some (w.sh, q))
    (hprod : w.ring.prods t = q) (hrel : q = .release c)
    (hpc : (s.world.ring.prods t).cursor = some c.cursor) :
    Sys.Rousing K { s with world := w, senders := update s.senders t u } := by
  have hloc := (hq.ring.prods t).resolve_left (hq.not_lost hl)
  obtain ⟨e, he, -, howner, -⟩ := hloc.claimed hpc
  obtain ⟨e', he', hsame⟩ := send_persists hu hx he
  refine ⟨e', he', ?_, ?_⟩
  · show K.proc e'.owner ∉ w.dead
    rwa [World.apply_dead hx, hsame, howner]
  · show ((update s.senders t u) e'.owner).waking (w.ring.prods e'.owner) = true
    rw [hsame, howner, update_self, hprod, hrel]
    exact Sender.waking_of_release (hxb ▸ hu) (hrel ▸ hst)

/-- **A step of a sender**, while the receiver is registered. -/
theorem Quiet.step_send (h : Quiet K s R) (hwaits : 0 < s.world.wake.recvWaiters) :
    Quiet K { s with world := w, senders := update s.senders t u } R := by
  rcases h with htoken | ⟨e, he, hlive, hwaking⟩ | hnone
  · exact .inl (lt_of_lt_of_le htoken (Sender.step_tokens hu hx).1)
  · obtain ⟨e', he', hsame⟩ := send_persists hu hx he
    have hlive' : K.proc e'.owner ∉ w.dead := by
      rwa [World.apply_dead hx, hsame]
    by_cases ht : e.owner = t
    · rw [ht] at hwaking
      rcases Sender.waking_step hwaking hwaits hu hx with hstill | htoken
      · refine .inr (.inl ⟨e', he', hlive', ?_⟩)
        show Sender.waking _ (update s.senders t u _) = true
        rwa [hsame, ht, update_self]
      · exact .inl htoken
    · refine .inr (.inl ⟨e', he', hlive', ?_⟩)
      show Sender.waking _ (update s.senders t u _) = true
      rw [hsame, update_of_ne ht,
        World.apply_prods (fun b => (Sender.step_access hu).2.1 e.owner b ht) hx]
      exact hwaking
  · rcases send_log hu hx with hlog | ⟨b, q, hxb, hst, hprod⟩
    · exact .inr (.inr fun e he => hnone e (hlog ▸ he))
    · by_cases hrel : ∃ c, q = .release c ∧ (s.world.ring.prods t).cursor = some c.cursor
      · obtain ⟨c, hrel, hpc⟩ := hrel
        exact .inr (.inl (rousing_of_release hq hl hu hx hxb hst hprod hrel hpc))
      · refine .inr (.inr fun e' he' hR => ?_)
        by_contra hfin
        rcases log_finished (Ring.Producer.step_log hst) he' hfin with
          ⟨e, he, hc, hstop, hfin⟩ | hrel'
        · exact hfin (hnone e he (by rw [hc, hstop]; exact hR))
        · exact hrel hrel'

end Send

/-! ### Steps that leave senders and history alone -/

/-- What a wait rests on. -/
structure Still (s s' : Sys) : Prop where
  log : s'.world.sh.log = s.world.sh.log
  senders : s'.senders = s.senders
  prods : ∀ t, s'.world.ring.prods t = s.world.ring.prods t
  tokens : s.world.wake.notEmpty ≤ s'.world.wake.notEmpty

theorem Quiet.still (h : Quiet K s R) (hs : Still s s')
    (hdead : ∀ e ∈ s.world.sh.log, (s.senders e.owner).waking (s.world.ring.prods e.owner) = true →
      K.proc e.owner ∉ s.world.dead → K.proc e.owner ∉ s'.world.dead) : Quiet K s' R := by
  rcases h with htoken | ⟨e, he, hlive, hwaking⟩ | hnone
  · exact .inl (lt_of_lt_of_le htoken hs.tokens)
  · refine .inr (.inl ⟨e, by rw [hs.log]; exact he, hdead e he hwaking hlive, ?_⟩)
    rwa [hs.senders, hs.prods]
  · refine .inr (.inr ?_)
    rwa [hs.log]

/-- A handle that closes. -/
theorem still_drop {h : Nat} (hs : s.step K (.drop h) = some s') :
    Still s s' ∧ s'.world.wake.recvWaiters = s.world.wake.recvWaiters := by
  obtain ⟨-, c, x, w, hc, hx, rfl⟩ := Sys.step_drop_eq hs
  unfold Closer.step at hc
  split at hc
  · cases hc
    cases hx
    exact ⟨⟨rfl, rfl, fun _ => rfl, le_rfl⟩, rfl⟩
  · split at hc <;> cases hc <;> cases hx <;> exact ⟨⟨rfl, rfl, fun _ => rfl, le_rfl⟩, rfl⟩
  · cases hc

theorem still_close {h : Nat} (hs : s.step K (.close h) = some s') :
    Still s s' ∧ s'.world.wake.recvWaiters = s.world.wake.recvWaiters := by
  simp only [Sys.step] at hs
  split at hs <;> cases hs
  exact ⟨⟨rfl, rfl, fun _ => rfl, le_rfl⟩, rfl⟩

theorem still_die {id : Nat} (hs : s.step K (.die id) = some s') :
    Still s s' ∧ s'.world.wake.recvWaiters = s.world.wake.recvWaiters ∧
      s'.world.dead = id :: s.world.dead := by
  simp only [Sys.step] at hs
  split at hs <;> cases hs
  unfold World.die
  dsimp only
  split
  · exact ⟨⟨rfl, rfl, fun _ => rfl, Nat.le_succ _⟩, rfl, rfl⟩
  · exact ⟨⟨rfl, rfl, fun _ => rfl, le_rfl⟩, rfl, rfl⟩

/-! ### The receiver goes to wait -/

/-- Nothing is claimed at the tail. -/
theorem quiet_tail (hq : QInv K s) :
    Quiet K s (fun lo hi => lo ≤ s.world.sh.tail ∧ s.world.sh.tail < hi) :=
  .inr (.inr fun _ he h => absurd (hq.ring.ok.tiled.bounds he).2.2 (not_le.mpr h.2))

/-- A claim `Read` cannot pass is not finished. -/
theorem quiet_unfinished (hq : QInv K s) {r : Ring.Loop} (hread : s.world.ring.reader = .loadLen r)
    (hlen : s.world.sh.loadLength (r.cursor % K.cap.size) ≤ 0) :
    Quiet K s (fun lo hi => lo ≤ r.cursor ∧ r.cursor < hi) :=
  .inr (.inr fun _ he h => hq.unfinished_of_length hread hlen he h.1 h.2)

/-- No process dies while one of its goroutines is between a commit or abort and the end of
    `wakeReceiver`. -/
def calm (K : Config) (s : Sys) : Act → Bool
  | .die id => ∀ e ∈ s.world.sh.log, K.proc e.owner = id →
      (s.senders e.owner).waking (s.world.ring.prods e.owner) = false
  | _ => true

/-- A handle closes only while none of its goroutines is in a call or holds a claim.  `Close` closes
    the events before it waits for the calls, and a call that wakes the receiver through a closed event
    wakes nobody. -/
def closesAtRest (K : Config) (s : Sys) (a : Act) : Prop :=
  ∀ h, a = .close h → ∀ t, K.home t = h → ∃ last, s.senders t = .idle last

/-- What holds along a run in which processes die. -/
structure Attentive (K : Config) (s : Sys) : Prop where
  inv : QInv K s
  vigil : Vigil (fun c => Quiet K s (fun lo hi => lo ≤ c ∧ c < hi))
    (Quiet K s (fun lo hi => lo ≤ s.world.sh.head ∧ s.world.sh.head < hi)) s

namespace Attentive

theorem start : Attentive K Sys.start := ⟨QInv.start, Vigil.start⟩

theorem step_send (h : Attentive K s) (hq : QInv K s') {a : SendAct}
    (hs : s.step K (.send t a) = some s') : Attentive K s' := by
  have hsend : ∀ b, Act.send t a ≠ .recv b := nofun
  refine ⟨hq, ?_⟩
  rw [Sys.step_head hsend hs]
  obtain ⟨hl, u, x, w, hu, hx, rfl⟩ := Sys.step_send_eq hs
  exact h.vigil.step_other hsend hs rfl (Sender.step_tokens hu hx).2
    (fun hwaits _ hc => Quiet.step_send h.inv hl hu hx hc hwaits)
    (fun hwaits hc => Quiet.step_send h.inv hl hu hx hc hwaits)

/-- A step that leaves senders and history alone. -/
theorem step_still (h : Attentive K s) (hq : QInv K s') {a : Act} (ha : ∀ b, a ≠ .recv b)
    (hs : s.step K a = some s') (hstill : Still s s')
    (hwaits : s'.world.wake.recvWaiters = s.world.wake.recvWaiters)
    (hdead : ∀ e ∈ s.world.sh.log, (s.senders e.owner).waking (s.world.ring.prods e.owner) = true →
      K.proc e.owner ∉ s.world.dead → K.proc e.owner ∉ s'.world.dead) : Attentive K s' := by
  obtain ⟨b, -, hb, -⟩ | ⟨-, hrecv⟩ := Sys.step_recv_or hs
  · exact absurd hb (ha b)
  refine ⟨hq, ?_⟩
  rw [Sys.step_head ha hs]
  exact h.vigil.step_other ha hs hrecv hwaits (fun _ _ hc => hc.still hstill hdead)
    (fun _ hc => hc.still hstill hdead)

theorem step_recv (h : Attentive K s) (hq : QInv K s') {a : RecvAct}
    (ha : ∀ l, a = .readBatch l → 0 < l) (hs : s.step K (.recv a) = some s') : Attentive K s' := by
  refine ⟨hq, ?_⟩
  obtain ⟨r, x, w, hr, hx, rfl⟩ := Sys.step_recv_eq hs
  have hkeep : ∀ v, s.recv.attempt = some v → w.sh.log = s.world.sh.log → ∀ R, Quiet K s R →
      Quiet K { s with world := w, recv := r } R := by
    intro v hv hlog R hc
    refine hc.still ⟨hlog, rfl, fun u => World.apply_prods (Recv.step_access hr u) hx,
      (Recv.step_tokens hv hr hx).1⟩ fun e _ _ hlive => ?_
    show K.proc e.owner ∉ w.dead
    rwa [World.apply_dead hx]
  refine h.vigil.step_recv h.inv ha hr hx (quiet_tail h.inv)
    (fun r hread hlen => quiet_unfinished h.inv hread hlen) (fun v hv hcas c => ?_) ?_
  · refine hkeep v hv ?_ _
    rcases World.apply_log hcas hx with ⟨hlog, -⟩ | ⟨u, b, -, hxb, -⟩
    · exact hlog
    · exact absurd hxb (Recv.step_access hr u b)
  · rintro l src rfl hhead
    have hsh := (givesUp_of_step src hr rfl).sh hr hx
    dsimp only
    rw [hsh]
    exact hkeep _ src (by rw [hsh]) _ hhead

/-- A death outside of the window between commit and wakeup. -/
theorem step_die (h : Attentive K s) (hq : QInv K s') {id : Nat} (hcalm : calm K s (.die id) = true)
    (hs : s.step K (.die id) = some s') : Attentive K s' := by
  obtain ⟨hstill, hwaits, hdead⟩ := still_die hs
  refine h.step_still hq (fun _ ha => by cases ha) hs hstill hwaits fun e he hwaking hlive => ?_
  rw [hdead]
  rintro (_ | ⟨_, hmem⟩)
  · have hnot := of_decide_eq_true hcalm e he rfl
    rw [hwaking] at hnot
    cases hnot
  · exact hlive hmem

theorem step (h : Attentive K s) {a : Act} (hok : passed s a = true ∧ clearOk s a = true)
    (hasks : a.asks = true) (hcalm : calm K s a = true) (hs : s.step K a = some s') :
    Attentive K s' := by
  have hq := h.inv.step hok hs
  cases a with
  | send t a => exact h.step_send hq hs
  | recv a =>
    refine h.step_recv hq ?_ hs
    rintro l rfl
    exact of_decide_eq_true hasks
  | close c =>
    obtain ⟨hstill, hwaits⟩ := still_close hs
    exact h.step_still hq (fun _ ha => by cases ha) hs hstill hwaits
      fun e _ _ hlive => by rwa [Sys.step_dead_eq (fun _ ha => by cases ha) hs]
  | drop c =>
    obtain ⟨hstill, hwaits⟩ := still_drop hs
    exact h.step_still hq (fun _ ha => by cases ha) hs hstill hwaits
      fun e _ _ hlive => by rwa [Sys.step_dead_eq (fun _ ha => by cases ha) hs]
  | die id => exact h.step_die hq hcalm hs

end Attentive

/-! ### No wakeup is lost to a death -/

/-- The receiver waits without a token at a claim it could pass or skip, and no live sender is about
    to wake it. -/
def Sys.Overslept (K : Config) (s : Sys) : Prop :=
  (∃ l, s.recv = .wait l) ∧ s.world.wake.notEmpty = 0 ∧ ¬ s.Rousing K ∧
    ∃ e ∈ s.world.sh.log, e.cursor ≤ s.world.sh.head ∧ s.world.sh.head < e.stop ∧ ¬ e.Unfinished

/-- **No wakeup is lost to a death.**  Processes die, handles close, the receiver recovers claims and
    leaves waits as it likes.  In every run that meets the two conditions of recovery, whose receives ask
    for at least one message, in which no process dies between a commit or abort and the end of its
    `wakeReceiver`, and in which a handle closes only while none of its calls runs and none of its
    claims is open, no state has a receiver that waits without a token at a finished claim with no
    live sender about to wake it. -/
theorem wakeup_survives_deaths
    (h : (machine K).Reach (fun s a => (passed s a = true ∧ clearOk s a = true) ∧
      a.asks = true ∧ calm K s a = true ∧ closesAtRest K s a) s) : ¬ s.Overslept K := by
  have hatt : Attentive K s := h.invariant Attentive.start fun _ _ _ hatt hok hs =>
    hatt.step hok.1 hok.2.1 hok.2.2.1 hs
  rintro ⟨⟨l, hwait⟩, htoken, hrousing, e, he, h1, h2, hfin⟩
  rcases hatt.vigil.waits l hwait with h0 | h0 | h0
  · exact absurd htoken (Nat.pos_iff_ne_zero.mp h0)
  · exact hrousing h0
  · exact hfin (h0 e he ⟨h1, h2⟩)

/-- The step is the `Close` of a handle. -/
def Act.closes : Act → Bool
  | .close _ => true
  | _ => false

/-- The receiver waits; goroutine 2 sends and stands before its wakeup; goroutine 0 claims behind it
    and dies with its process. -/
def deathBehind : List Act :=
  [Act.recv (.readBatch 1)] ++ recvs 15 ++ [Act.send 2 (.trySend 2 [5])] ++ steps 2 18 ++
  [Act.send 0 (.claim 1 8)] ++ steps 0 11 ++ [Act.die (life 0)]

theorem deathBehind_wakes :
    ∃ s, (machine pair).Reach (fun s a => (passed s a = true ∧ clearOk s a = true) ∧
        a.asks = true ∧ calm pair s a = true ∧ closesAtRest pair s a) s ∧
      s.recv = .wait 1 ∧ s.world.wake.notEmpty = 0 ∧ s.world.dead = [life 0] ∧
      (∃ e ∈ s.world.sh.log, e.cursor = s.world.sh.head ∧ e.state = .committed) ∧
      ¬ s.Overslept pair := by
  have hrun : ((machine pair).runOk (fun s a => (passed s a && clearOk s a) &&
      (a.asks && (calm pair s a && !a.closes))) Sys.start deathBehind).map
      (fun s => decide (s.recv = .wait 1 ∧ s.world.wake.notEmpty = 0 ∧ s.world.dead = [life 0] ∧
        ∃ e ∈ s.world.sh.log, e.cursor = s.world.sh.head ∧ e.state = .committed)) = some true := by
    decide +kernel
  have hok : ∀ (s : Sys) (a : Act), ((passed s a && clearOk s a) &&
      (a.asks && (calm pair s a && !a.closes))) = true →
      (passed s a = true ∧ clearOk s a = true) ∧ a.asks = true ∧ calm pair s a = true ∧
        closesAtRest pair s a := by
    intro s a h
    simp only [Bool.and_eq_true, Bool.not_eq_true'] at h
    refine ⟨h.1, h.2.1, h.2.2.1, ?_⟩
    rintro c rfl
    cases h.2.2.2
  obtain ⟨s, hreach, hs⟩ := Machine.Reach.exists_of_runOk hok hrun
  obtain ⟨hwait, htoken, hdead, he⟩ := of_decide_eq_true hs
  exact ⟨s, hreach, hwait, htoken, hdead, he, wakeup_survives_deaths hreach⟩

end GoIpc.Queue
