import GoIpc.Channel.Exit
import GoIpc.Queue.Alive

namespace GoIpc.Link

open GoIpc.Lib
open GoIpc.Ring (Word Entry Shared Producer Reader committedOf)
open GoIpc.Queue (Config World Recv Try QErr QInv Alive Positive Seen seen_finish saysGone_sh)

/-!
# An orderly close of a channel

`Channel.Close` first clears the consumer field of the direction it reads, while goroutines of the same
process may still send in the other one.  From then on a receive that finds nothing returns
`ErrPeerGone`.  `Read` stops at the first claim that is still open, so a message behind such a claim is
not found.

* `Settled` — a cursor up to which every claim is finished, with the messages sent before the close
  below it;
* `closed_peer_drained` — when no claim is open in front of a committed message as the field is
  cleared, `ErrPeerGone` comes after every message that was committed by then;
* `closeOverClaim` — otherwise it may come before.
-/

variable {K : Config} {D : Nat} {s s' : Sys}

/-! ### The messages of a close -/

/-- Up to `mark` every claim is finished, and `sent` are the messages there. -/
structure Settled (mark : Nat) (sent : List (Word × List UInt8)) (sh : Shared) : Prop where
  tail : mark ≤ sh.tail
  done : ∀ e ∈ sh.log, e.cursor < mark → ¬ e.Unfinished
  sent : sent = committedOf (below Entry.stop mark sh.log)

variable {mark : Nat} {sent : List (Word × List UInt8)}

/-- Messages that all end below `mark` are the messages below `mark`. -/
theorem committedOf_below {log : List Entry} (h : ∀ e ∈ log, e.state = .committed → e.stop ≤ mark) :
    committedOf log = committedOf (below Entry.stop mark log) := by
  unfold committedOf below
  rw [List.filter_filter]
  congr 1
  refine List.filter_congr fun e he => ?_
  by_cases hc : e.state = .committed
  · simp [Ring.Entry.isCommitted, hc, h e he hc]
  · simp [Ring.Entry.isCommitted, hc]

/-- When no claim is open in front of a committed message, the first open claim is such a mark; without
    one the tail is. -/
theorem settled_of_quiet {C : Ring.Capacity} {mend : Option Nat} {pos : Nat} {sh : Shared}
    (hok : sh.Ok C mend pos) (hquiet : ∀ e ∈ sh.log, ∀ e' ∈ sh.log, e.Unfinished →
      e'.state = .committed → e'.cursor < e.cursor) :
    ∃ mark, Settled mark (committedOf sh.log) sh := by
  by_cases hopen : ∃ c, ∃ e ∈ sh.log, e.Unfinished ∧ e.cursor = c
  · classical
    obtain ⟨e, he, hu, hcur⟩ := Nat.find_spec hopen
    have hb := hok.tiled.bounds he
    refine ⟨Nat.find hopen, by omega, fun x hx hlt hux => ?_, committedOf_below fun x hx hc => ?_⟩
    · exact Nat.find_min hopen hlt ⟨x, hx, hux, rfl⟩
    · -- a committed claim begins in front of the first open one, so it also ends there
      have hlt := hquiet e he x hx hu hc
      rcases hok.tiled.eq_or_disjoint hx he with rfl | hdis | hdis
      · exact absurd hlt (lt_irrefl _)
      · omega
      · have := hok.tiled.bounds hx
        omega
  · refine ⟨sh.tail, le_rfl, fun e he _ hu => hopen ⟨_, e, he, hu, rfl⟩,
      committedOf_below fun e he _ => (hok.tiled.bounds he).2.2⟩

/-- A change of a claim at or behind the mark. -/
theorem Settled.note {c : Nat} {sh : Shared} {f : Entry → Entry} (h : Settled mark sent sh) (hc : mark ≤ c)
    (hlt : ∀ e ∈ sh.log, e.cursor < e.stop) (hf : ∀ e, (f e).cursor = e.cursor ∧ (f e).stop = e.stop) :
    Settled mark sent (sh.note c f) := by
  refine ⟨h.tail, fun e' he' hbelow => ?_, ?_⟩
  · obtain ⟨e, he, rfl⟩ := Ring.mem_note.mp he'
    by_cases heq : e.cursor = c
    · rw [if_pos heq, (hf e).1] at hbelow
      omega
    · rw [if_neg heq] at hbelow ⊢
      exact h.done e he hbelow
  · have hstop : ∀ e, (if e.cursor = c then f e else e).stop = e.stop := by
      intro e
      split
      · exact (hf e).2
      · rfl
    have hsame : (below Entry.stop mark sh.log).map (fun e => if e.cursor = c then f e else e) =
        below Entry.stop mark sh.log := by
      refine (List.map_congr_left fun e he => ?_).trans (List.map_id _)
      obtain ⟨he, hle⟩ := mem_below.mp he
      have := hlt e he
      exact if_neg (by omega)
    show sent = committedOf (below Entry.stop mark (sh.log.map _))
    rw [below_map hstop, hsame]
    exact h.sent

/-- **A step of the queue while everyone lives.** -/
theorem Settled.step {q q' : Queue.Sys} {a : Queue.Act} (h : Settled mark sent q.world.sh)
    (halive : Alive K q) (ha : ∀ id, a ≠ .die id) (hs : q.step K a = some q') :
    Settled mark sent q'.world.sh := by
  have hlt : ∀ e ∈ q.world.sh.log, e.cursor < e.stop := fun e he =>
    (halive.inv.ring.ok.tiled.bounds he).2.1
  have hlt' : ∀ e ∈ q'.world.sh.log, e.cursor < e.stop := fun e he =>
    ((halive.step ha hs).inv.ring.ok.tiled.bounds he).2.1
  rcases halive.step_log ha hs with ⟨hlog, htail⟩ | ⟨t, b, p, hloc, hst⟩
  · refine ⟨by rw [htail]; exact h.tail, ?_, by rw [hlog]; exact h.sent⟩
    rw [hlog]
    exact h.done
  · -- the claim of a ring operation is open, so it does not lie below the mark
    have hopen : ∀ c, (q.world.ring.prods t).cursor = some c → mark ≤ c := by
      intro c hc
      obtain ⟨e, he, rfl, -, hclaimed⟩ := hloc.claimed hc
      exact not_lt.mp fun hbelow => h.done e he hbelow (.inl hclaimed)
    have hnote : ∀ {c : Nat} {f : Entry → Entry}, q'.world.sh.log = (q.world.sh.note c f).log →
        (∀ e, (f e).cursor = e.cursor ∧ (f e).stop = e.stop) →
        (q.world.ring.prods t).cursor = some c → q'.world.sh.tail = q.world.sh.tail →
        Settled mark sent q'.world.sh := by
      intro c f hlog hf hc htail
      have hn := h.note (hopen c hc) hlt hf
      refine ⟨by rw [htail]; exact h.tail, ?_, by rw [hlog]; exact hn.sent⟩
      rw [hlog]
      exact hn.done
    cases Ring.Producer.step_log hst with
    | same hlog htail _ =>
      refine ⟨by rw [htail]; exact h.tail, ?_, by rw [hlog]; exact h.sent⟩
      rw [hlog]
      exact h.done
    | claim r _ hlog htail _ _ =>
      have hle := h.tail
      have hnew : mark < (r.entry K.cap q.world.sh.tail t).stop :=
        lt_of_le_of_lt hle (hlt' (r.entry K.cap q.world.sh.tail t) (by rw [hlog]; simp))
      refine ⟨by omega, fun e he hbelow => ?_, ?_⟩
      · rw [hlog] at he
        rcases List.mem_append.mp he with he | he
        · exact h.done e he hbelow
        · cases List.mem_singleton.mp he
          exact absurd hbelow (not_lt.mpr hle)
      · rw [hlog, below_concat hnew]
        exact h.sent
    | payload c k v pc hlog htail _ => exact hnote hlog (fun _ => ⟨rfl, rfl⟩) pc htail
    | finish c st pc hlog htail _ _ => exact hnote hlog (fun _ => ⟨rfl, rfl⟩) pc htail

/-! ### The close -/

/-- Below the mark `Read` stops nowhere. -/
theorem Settled.passes {q : Queue.Sys} (h : Settled mark sent q.world.sh) (hq : QInv K q) {r : Ring.Loop}
    (hread : q.world.ring.reader = .loadLen r) (hlen : q.world.sh.loadLength (r.cursor % K.cap.size) ≤ 0) :
    mark ≤ r.cursor := by
  by_contra hlt
  have htail : r.cursor < q.world.sh.tail := lt_of_lt_of_le (not_le.mp hlt) h.tail
  obtain ⟨e, he, h1, h2⟩ := hq.ring.ok.tiled.cover (Nat.zero_le _) htail
  exact h.done e he (lt_of_le_of_lt h1 (not_le.mp hlt)) (hq.unfinished_of_length hread hlen he h1 h2)

/-- What holds from the moment `Channel.Close` has cleared the consumer field. -/
structure Marked (s : Sys) (mark : Nat) : Prop where
  settled : Settled mark s.sent s.q.world.sh
  seen : s.late = true → Seen (mark ≤ ·) (mark ≤ ·) s.q.world s.q.recv
  said : s.q.recv.saysGone = true → mark ≤ s.q.world.sh.head

/-- What holds before and after. -/
structure Closes (K : Config) (s : Sys) : Prop where
  alive : Alive K s.q
  positive : Positive s.q.recv
  early : s.closing = .running → s.late = false ∧ s.q.recv.saysGone = false
  marked : s.closing ≠ .running → ∃ mark, Marked s mark

theorem Closes.start : Closes K Sys.start where
  alive := Alive.start
  positive _ h := by cases h
  early _ := ⟨rfl, rfl⟩
  marked h := absurd rfl h

/-- Nobody dies, and no receive asks for nothing. -/
def Act.lives : Act → Bool
  | .queue (.die _) => false
  | .queue (.recv (.readBatch l)) => 0 < l
  | _ => true

/-- When the consumer field is cleared, no claim is open in front of a committed message. -/
def quiet (s : Sys) : Act → Bool
  | .clear => ∀ e ∈ s.q.world.sh.log, ∀ e' ∈ s.q.world.sh.log, e.state = .claimed →
      e'.state = .committed → e'.cursor < e.cursor
  | _ => true

namespace Closes

/-- A step of the queue after the field is cleared. -/
theorem marked_queue (h : Closes K s) {a : Queue.Act} (hm : Marked s mark) (ha : ∀ id, a ≠ .die id)
    (hs : s.step K D (.queue a) = some s') : Marked s' mark := by
  have hlate := late_step hs
  have hgone := saysGone_step hs
  obtain ⟨-, q, hstep, rfl⟩ := Sys.step_queue_eq hs
  have hsettled := hm.settled.step h.alive ha hstep
  refine ⟨by rw [Sys.after_world]; exact hsettled, fun hl => ?_, fun hg => ?_⟩
  · rw [Sys.after_world]
    rcases Queue.Sys.step_recv_or hstep with ⟨b, x, rfl, hr, hx⟩ | ⟨hb, heq⟩
    · rcases s.after_eq q with hq | ⟨l, k, -, -, -, hq⟩
      · rw [hq]
        rcases hlate hl with hold | ⟨hact, -⟩
        -- an attempt that is late already goes on
        · exact Seen.step (Q := fun _ => (mark ≤ ·)) (P := fun _ => (mark ≤ ·)) h.alive.inv
            (hm.seen hold) (fun l k hpc => h.positive l (hpc ▸ rfl)) (fun _ _ _ _ h => h)
            (fun _ _ _ _ _ h => h) (fun _ _ h => h) hm.settled.tail
            (fun r hrd hlen => hm.settled.passes h.alive.inv hrd hlen) hr hx
        · cases hact
          obtain ⟨l, hsub⟩ := waitGone_eq hr
          rw [hsub]
          trivial
      · rw [hq]
        exact seen_finish ..
    · rw [Sys.after_same heq, heq]
      rcases hlate hl with hold | ⟨rfl, -⟩
      · exact (hm.seen hold).keep (Queue.Sys.step_reader hb hstep) (Queue.Sys.step_head hb hstep)
          (fun _ h => h) (fun _ h => h)
      · exact absurd rfl (hb _)
  · rw [Sys.after_world]
    rcases Queue.Sys.step_recv_or hstep with ⟨b, x, -, hr, hx⟩ | ⟨hb, heq⟩
    · rcases hgone hg with hold | ⟨hl, l, k, -, hgive⟩
      · rw [saysGone_sh hold hr hx]
        exact hm.said hold
      · rw [hgive.sh hr hx]
        exact hgive.seen (hm.seen hl)
    · rw [Sys.after_same heq, heq] at hg
      rw [Queue.Sys.step_head hb hstep]
      exact hm.said hg

/-- **Every step keeps it.** -/
theorem step (h : Closes K s) {a : Act} (hlives : a.lives = true) (hquiet : quiet s a = true)
    (hs : s.step K D a = some s') : Closes K s' := by
  cases a with
  | queue a =>
    have ha : ∀ id, a ≠ .die id := by
      rintro id rfl
      cases hlives
    have hpos := positive_step h.positive (a := a) (by rintro l rfl; exact of_decide_eq_true hlives) hs
    have hmark := fun mark (hm : Marked s mark) => h.marked_queue hm ha hs
    have hlate := late_step hs
    have hgone := saysGone_step hs
    obtain ⟨hallows, q, hstep, rfl⟩ := Sys.step_queue_eq hs
    have halive : Alive K (s.after q).q := by
      have hq' := h.alive.step ha hstep
      -- an attempt that found nothing may have been told that the peer is gone
      rcases s.after_eq q with hq | ⟨l, k, -, -, hempty, hq⟩
      · rw [hq]
        exact hq'
      · rw [hq]
        exact ⟨hq'.inv.replace (by rw [hempty]; exact Recv.plain_empty l k) (Recv.plain_finish ..),
          hq'.lives, Recv.spares_finish ..⟩
    refine ⟨halive, hpos, fun hrun => ?_, fun hrun => ?_⟩
    · obtain ⟨hl0, hg0⟩ := h.early hrun
      -- while the channel runs, nobody is told that the peer is gone
      have hl : (s.after q).late = false := by
        rw [Bool.eq_false_iff]
        intro hl
        rcases hlate hl with hold | ⟨rfl, -⟩
        · rw [hl0] at hold
          cases hold
        · have hrunning : s.closing = .running := hrun
          simp [Sys.allows, hrunning, h.alive.lives] at hallows
      refine ⟨hl, ?_⟩
      rw [Bool.eq_false_iff]
      intro hg
      rcases hgone hg with hold | ⟨hold, -⟩
      · rw [hg0] at hold
        cases hold
      · rw [hl0] at hold
        cases hold
    · obtain ⟨mark, hm⟩ := h.marked hrun
      exact ⟨mark, hmark mark hm⟩
  | check gone =>
    simp only [Sys.step] at hs
    split at hs
    · next l k hpc hnone =>
      split at hs <;> cases hs
      next hans =>
      refine ⟨h.alive, h.positive, fun hrun => ⟨?_, (h.early hrun).2⟩, fun hrun => ?_⟩
      · have hrunning : s.closing = .running := hrun
        have hold := (h.early hrun).1
        simp only [Sys.answers, hrunning, h.alive.lives] at hans
        have hgone : gone = false := by simpa using hans
        simp only [Sys.late, hgone, hpc, decide_eq_false_iff_not] at hold ⊢
        intro hl
        exact hold (hl.elim (by simp) .inr)
      · obtain ⟨mark, hm⟩ := h.marked hrun
        refine ⟨mark, hm.settled, fun _ => ?_, hm.said⟩
        rw [hpc]
        trivial
    · cases hs
  | clear =>
    simp only [Sys.step] at hs
    split at hs <;> cases hs
    next hrun =>
    obtain ⟨hl, hg⟩ := h.early hrun.1
    have hquiet := of_decide_eq_true hquiet
    -- the consumer field is cleared: from here the mark stands behind all that was sent
    obtain ⟨mark, hm⟩ := settled_of_quiet h.alive.inv.ring.ok (fun e he e' he' hu hc => by
      refine hquiet e he e' he' (hu.resolve_right fun ht => ?_) hc
      have hdead := h.alive.inv.taken e he ⟨_, ht⟩
      rw [h.alive.lives] at hdead
      cases hdead)
    refine ⟨h.alive, h.positive, by simp, fun _ => ⟨mark, hm, fun h0 => ?_, fun h0 => ?_⟩⟩
    · exact absurd (hl.symm.trans h0) Bool.false_ne_true
    · exact absurd (hg.symm.trans h0) Bool.false_ne_true
  | signal =>
    have hinv := inv_step h.alive.inv (by simp) hs
    simp only [Sys.step] at hs
    split at hs <;> cases hs
    next hrun =>
    obtain ⟨mark, hm⟩ := h.marked (by rw [hrun.1]; intro hc; cases hc)
    exact ⟨⟨hinv, h.alive.lives, h.alive.spares⟩, h.positive, by simp,
      fun _ => ⟨mark, hm.settled, hm.seen, hm.said⟩⟩
  | shut =>
    simp only [Sys.step] at hs
    split at hs <;> cases hs
    next hrun =>
    obtain ⟨mark, hm⟩ := h.marked (by rw [hrun.1]; intro hc; cases hc)
    exact ⟨h.alive, h.positive, by simp, fun _ => ⟨mark, hm.settled, hm.seen, hm.said⟩⟩
  | exited =>
    simp only [Sys.step] at hs
    rw [h.alive.lives] at hs
    simp at hs

end Closes

/-- **An orderly close loses no message.**  In every run in which nobody dies and every receive asks for
    at least one message: when no claim is open in front of a committed message as `Channel.Close`
    clears the consumer field, a receive returns `ErrPeerGone` only after the close, and after every
    message that was committed by then. -/
theorem closed_peer_drained
    (hreach : (machine K D).Reach (fun s a => a.lives = true ∧ quiet s a = true) s) {n : Nat}
    (hret : s.q.recv = .idle (some (n, some .peerGone))) :
    s.closing ≠ .running ∧ s.sent <+: s.q.world.sh.delivered := by
  have hcloses : Closes K s := hreach.invariant Closes.start
    (fun _ _ _ h hok hs => h.step hok.1 hok.2 hs)
  have hgone : s.q.recv.saysGone = true := by
    rw [hret]
    rfl
  have hclosing : s.closing ≠ .running := fun hrun =>
    Bool.false_ne_true ((hcloses.early hrun).2.symm.trans hgone)
  refine ⟨hclosing, ?_⟩
  obtain ⟨mark, hm⟩ := hcloses.marked hclosing
  obtain ⟨last, -, hpos⟩ := hcloses.alive.inv.at_head (hret ▸ rfl)
  have hok := hcloses.alive.inv.ring.ok
  have hdel : s.q.world.sh.delivered =
      committedOf (below Entry.stop s.q.world.sh.head s.q.world.sh.log) := hpos ▸ hok.delivered
  rw [hm.settled.sent, hdel]
  exact ((below_mono hok.tiled (hm.said hgone)).filter _).map _

/-! ### Runs to show -/

/-- A message is sent and a claim is open behind it when the channel closes; the peer receives twice. -/
def closeBeforeClaim : List Act :=
  onQueue ([Queue.Act.send 0 (.trySend 2 [5])] ++ Queue.steps 0 19 ++
    [Queue.Act.send 1 (.claim 1 8)] ++ Queue.steps 1 8) ++
  [Act.clear] ++ onQueue [Queue.Act.recv (.readBatch 1)] ++ [Act.check true] ++
  onQueue (Queue.recvs 12 ++ [Queue.Act.recv (.readBatch 1)]) ++ [Act.check true] ++
  onQueue (Queue.recvs 271)

/-- The second receive of `closeBeforeClaim` returns `ErrPeerGone`, after the message. -/
theorem closed_peer_drained_claim :
    ∃ s, (machine solo (Queue.life 0)).Reach (fun s a => a.lives = true ∧ quiet s a = true) s ∧
      s.q.recv = .idle (some (0, some .peerGone)) ∧ s.sent = [(2, [5])] ∧
      s.closing ≠ .running ∧ s.sent <+: s.q.world.sh.delivered := by
  have hrun : ((machine solo (Queue.life 0)).runOk (fun s a => a.lives && quiet s a) Sys.start
      closeBeforeClaim).map (fun s => (s.q.recv, s.sent)) =
      some (.idle (some (0, some .peerGone)), [(2, [5])]) := by decide +kernel
  have hreach : ∃ s, (machine solo (Queue.life 0)).Reach
      (fun s a => a.lives = true ∧ quiet s a = true) s ∧ _ :=
    Machine.Reach.exists_of_runOk (fun s a h => Bool.and_eq_true_iff.mp h) hrun
  obtain ⟨s, hreach, hs⟩ := hreach
  obtain ⟨hret, hsent⟩ := Prod.mk.inj hs
  exact ⟨s, hreach, hret, hsent, closed_peer_drained hreach hret⟩

/-- A claim is open and a message is sent behind it when the channel closes; the peer receives. -/
def closeOverClaim : List Act :=
  onQueue ([Queue.Act.send 0 (.claim 1 8)] ++ Queue.steps 0 11 ++
    [Queue.Act.send 1 (.trySend 2 [7])] ++ Queue.steps 1 20) ++
  [Act.clear] ++ onQueue [Queue.Act.recv (.readBatch 1)] ++ [Act.check true] ++
  onQueue (Queue.recvs 271)

/-- **A close over an open claim.**  The receive returns `ErrPeerGone` and has not delivered the message
    that was sent before the close. -/
theorem closed_peer_undrained :
    ∃ s, (machine solo (Queue.life 0)).Reach (fun _ a => a.lives = true) s ∧
      s.q.recv = .idle (some (0, some .peerGone)) ∧ s.sent = [(2, [7])] ∧
      s.q.world.sh.delivered = [] := by
  have hrun : ((machine solo (Queue.life 0)).runOk (fun _ a => a.lives) Sys.start
      closeOverClaim).map (fun s => (s.q.recv, s.sent, s.q.world.sh.delivered)) =
      some (.idle (some (0, some .peerGone)), [(2, [7])], []) := by decide +kernel
  obtain ⟨s, hreach, hs⟩ := Machine.Reach.exists_of_runOk (fun _ _ h => h) hrun
  simp only [Prod.mk.injEq] at hs
  exact ⟨s, hreach, hs⟩

end GoIpc.Link
