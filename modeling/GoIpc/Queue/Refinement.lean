import GoIpc.Queue.Frames
import GoIpc.Queue.Recovery
import GoIpc.Ring.Refinement

namespace GoIpc.Queue

open GoIpc.Lib
open GoIpc.Ring (Entry Word ProdAct)

/-!
# The queue is a line of tickets

With processes that die and a receiver that recovers, the queue still refines the line of
`Lib/Tickets.lean`, as long as the run meets `passed` and `clearOk`.  The owner of a ticket is now the
process of the goroutine that claimed.  A death is an owner that leaves; the compare-and-swap of
`reclaim` that pads the rest of a claim forfeits its ticket, which the line allows only for an owner
that has left.

Slots, pools, waiter counts, events, watches and the closing of handles are invisible.
-/

variable {K : Config} {s s' : Sys} {w w' : World}

/-! ### The receiver takes over a claim -/

/-- What the compare-and-swap of `reclaim` does to the line: nothing when it pads a lap segment of
    the claim only. -/
def forfeits (sh : Ring.Shared) (cursor size : Nat) : List (Deed Nat (Word × List UInt8)) :=
  match sh.log.find? (fun e => e.cursor ≤ cursor ∧ cursor < e.stop) with
  | some e => if e.Unfinished ∧ e.stop ≤ cursor + size then [.forfeit (sh.number e.cursor)] else []
  | none => []

/-- A claim that does not cover the cursor is not reclaimed. -/
theorem reclaim_other {cursor size : Nat} {e : Entry}
    (h : ¬ (e.cursor ≤ cursor ∧ cursor < e.stop ∧ e.Unfinished)) : e.reclaim cursor size = e :=
  if_neg h

/-- **The receiver takes over.** -/
theorem reclaim_line {mend : Option Nat} {pos cursor size : Nat} {gone : List Nat}
    {sh : Ring.Shared} (hok : sh.Ok K.cap mend pos)
    (hgone : ∀ e ∈ sh.log, e.cursor ≤ cursor → cursor < e.stop → e.Unfinished →
      K.proc e.owner ∈ gone) :
    (sh.line K.proc gone pos).after (forfeits sh cursor size) =
      some ((sh.reclaim K.cap cursor size).line K.proc gone pos) := by
  have hstop : ∀ x : Entry, (x.reclaim cursor size).stop = x.stop :=
    fun x => (Entry.same_reclaim cursor size x).stop.symm
  -- nothing to see while every claim keeps its mark
  have same : (∀ x ∈ sh.log, (x.reclaim cursor size).ticket K.proc = x.ticket K.proc) →
      sh.line K.proc gone pos = (sh.reclaim K.cap cursor size).line K.proc gone pos := by
    intro hx
    unfold Ring.Shared.line Ring.Shared.reclaim
    dsimp only
    rw [Ring.Shared.served_map _ hstop, List.map_map]
    congr 1
    exact (List.map_congr_left hx).symm
  unfold forfeits
  split
  case h_1 e hfind =>
    have he := List.mem_of_find?_eq_some hfind
    obtain ⟨h1, h2⟩ : e.cursor ≤ cursor ∧ cursor < e.stop := by simpa using List.find?_some hfind
    have hother : ∀ x ∈ sh.log, x ≠ e → x.reclaim cursor size = x := fun x hx hne =>
      reclaim_other fun hc => hne (hok.tiled.eq_of_overlap hx he hc.1 hc.2.1 h1 h2)
    by_cases hu : e.Unfinished
    · have hstate : e.reclaim cursor size =
          { e with state := .reclaimed (decide (e.stop ≤ cursor + size)) } := if_pos ⟨h1, h2, hu⟩
      by_cases hend : e.stop ≤ cursor + size
      · rw [if_pos ⟨hu, hend⟩]
        refine Line.run_one ?_
        have hmark : (e.reclaim cursor size).mark = .void := by
          rw [hstate, decide_eq_true hend]
          rfl
        have hfin : (sh.line K.proc gone pos).finish (sh.number e.cursor) (e.reclaim cursor size).mark
            (fun o => o ∈ gone) = some ((sh.reclaim K.cap cursor size).line K.proc gone pos) := by
          apply hok.line_finish he hu (Entry.reclaim cursor size) hstop
          · exact fun x hx hne => by rw [hother x hx hne]
          · exact (Entry.same_reclaim cursor size e).owner.symm
          · rfl
          · rfl
          · exact decide_eq_true (hgone e he h1 h2 hu)
        rwa [hmark] at hfin
      · rw [if_neg fun hc => hend hc.2]
        refine congrArg some (same fun x hx => ?_)
        by_cases hxe : x = e
        · subst hxe
          unfold Entry.ticket
          rw [Entry.mark_of_unfinished hu, hstate, decide_eq_false hend]
          rfl
        · rw [hother x hx hxe]
    · rw [if_neg fun hc => hu hc.1]
      refine congrArg some (same fun x hx => ?_)
      by_cases hxe : x = e
      · rw [hxe, reclaim_other fun hc => hu hc.2.2]
      · rw [hother x hx hxe]
  case h_2 hfind =>
    refine congrArg some (same fun x hx => ?_)
    have hcover : ¬ (x.cursor ≤ cursor ∧ cursor < x.stop) := by
      simpa using List.find?_eq_none.mp hfind x hx
    rw [reclaim_other fun hc => hcover ⟨hc.1, hc.2.1⟩]

/-! ### The deeds of a step -/

/-- The queue as a line. -/
def World.line (K : Config) (w : World) : Line Nat (Word × List UInt8) :=
  w.sh.line K.proc w.dead w.ring.pos

/-- What an access does to the line. -/
def World.deeds (K : Config) (w : World) : Access → List (Deed Nat (Word × List UInt8))
  | .prod t a => (w.ring.prods t).deeds K.proc t w.sh a
  | .reader a => w.ring.reader.deeds w.sh a
  | .casLength cursor size => forfeits w.sh cursor size
  | _ => []

/-- What a step of the queue does to the line. -/
def Sys.deeds (K : Config) (s : Sys) : Act → List (Deed Nat (Word × List UInt8))
  | .send t a => ((s.senders t).step K t s.world a).elim [] (fun r => s.world.deeds K r.2)
  | .recv a => (s.recv.step K s.world a).elim [] (fun r => s.world.deeds K r.2)
  | .die id => [.leave id]
  | .close _ | .drop _ => []

/-- An access that is neither a producer's nor `Read`'s nor `reclaim`'s. -/
theorem World.apply_line_same {x : Access} (hp : ∀ t a, x ≠ .prod t a) (hr : ∀ a, x ≠ .reader a)
    (hc : ∀ c n, x ≠ .casLength c n) (hx : w.apply K x = some w') :
    w'.line K = w.line K ∧ w.deeds K x = [] := by
  cases x with
  | prod t a => exact absurd rfl (hp t a)
  | reader a => exact absurd rfl (hr a)
  | casLength c n => exact absurd rfl (hc c n)
  | watch id =>
    cases hx
    refine ⟨?_, rfl⟩
    unfold World.watchProducer
    split
    · rfl
    · split <;> rfl
  | _ =>
    cases hx
    exact ⟨rfl, rfl⟩

theorem step_send_line {t : Nat} {a : SendAct} (hq : QInv K s)
    (hs : s.step K (.send t a) = some s') :
    (s.world.line K).after (s.deeds K (.send t a)) = some (s'.world.line K) := by
  obtain ⟨hlive, u, x, w, hu, hx, rfl⟩ := Sys.step_send_eq hs
  obtain ⟨hreader, hprod, hcas⟩ := Sender.step_access hu
  show Line.after _ (((s.senders t).step K t s.world a).elim [] fun r => s.world.deeds K r.2) = _
  rw [hu]
  show (s.world.line K).after (s.world.deeds K x) = some (w.line K)
  by_cases hxt : ∃ b, x = .prod t b
  · obtain ⟨b, rfl⟩ := hxt
    have hl := (hq.ring.prods t).resolve_left (hq.not_lost hlive)
    obtain ⟨r, hr, rfl⟩ := Option.map_eq_some_iff.mp hx
    obtain ⟨sh, p, hst, rfl⟩ := Ring.Sys.step_prod_eq hr
    have hhead := (Ring.Producer.step_inv hq.ring.ok hl hst).1.head
    have hpos : Ring.Sys.pos { s.world.ring with
        sh := sh, prods := Function.update s.world.ring.prods t p } = s.world.ring.pos := by
      show s.world.ring.reader.pos sh.head = s.world.ring.reader.pos s.world.ring.sh.head
      rw [hhead]
    unfold World.line
    dsimp only
    rw [hpos]
    exact Ring.Producer.step_line hq.ring.ok hl hlive hst
  · obtain ⟨hline, hdeeds⟩ := World.apply_line_same (fun v b hv => by
      by_cases hvt : v = t
      · exact hxt ⟨b, hvt ▸ hv⟩
      · exact hprod v b hvt hv) hreader hcas hx
    rw [hdeeds, hline]
    rfl

/-- `Read` runs only while no padding type is missing. -/
theorem Recv.step_read_mend {r r' : Recv} {a : RecvAct} {b : Ring.ReadAct}
    (h : r.step K w a = some (r', .reader b)) : r.mend = none := by
  cases r with
  | padType l k st j size =>
    cases a with
    | step => cases h
    | _ => cases h
  | _ => rfl

theorem step_recv_line {a : RecvAct} (hq : QInv K s) (hq' : QInv K s')
    (hs : s.step K (.recv a) = some s') :
    (s.world.line K).after (s.deeds K (.recv a)) = some (s'.world.line K) := by
  obtain ⟨r, x, w, hr, hx, rfl⟩ := Sys.step_recv_eq hs
  show Line.after _ ((s.recv.step K s.world a).elim [] fun r => s.world.deeds K r.2) = _
  rw [hr]
  show (s.world.line K).after (s.world.deeds K x) = some (w.line K)
  cases x with
  | prod t b => exact absurd rfl (Recv.step_access hr t b)
  | reader b =>
    have hring := hq.ring
    rw [Recv.step_read_mend hr] at hring
    obtain ⟨ring, hst, rfl⟩ := Option.map_eq_some_iff.mp hx
    obtain ⟨sh, rd, hrd, rfl⟩ := Ring.Sys.step_reader_eq hst
    exact Ring.Reader.step_line hring.ok hring.reader hrd
  | casLength cursor size =>
    cases hx
    refine reclaim_line hq.ring.ok fun e he h1 h2 hu => ?_
    -- after the step the claim is taken over, and its process is dead
    have htaken := hq'.taken (e.reclaim cursor size) (List.mem_map_of_mem he)
    rw [← (Entry.same_reclaim cursor size e).owner] at htaken
    exact htaken ⟨_, by rw [Entry.reclaim, if_pos ⟨h1, h2, hu⟩]⟩
  | load | setOwner i owner | clearAt i | padType cursor | pool h p | wake v | watch id =>
    obtain ⟨hline, hdeeds⟩ := World.apply_line_same (fun _ _ h => by cases h)
      (fun _ h => by cases h) (fun _ _ h => by cases h) hx
    rw [hdeeds, hline]
    rfl

/-- **A step of the queue.** -/
theorem Sys.step_line (hq : QInv K s) {a : Act} (hok : passed s a = true ∧ clearOk s a = true)
    (hs : s.step K a = some s') : (s.world.line K).after (s.deeds K a) = some (s'.world.line K) := by
  cases a with
  | send t a => exact step_send_line hq hs
  | recv a => exact step_recv_line hq (hq.step hok hs) hs
  | close h =>
    simp only [Sys.step] at hs
    split at hs <;> cases hs
    rfl
  | drop h =>
    obtain ⟨-, c, x, w, hc, hx, rfl⟩ := Sys.step_drop_eq hs
    unfold Closer.step at hc
    split at hc
    · cases hc
      cases hx
      rfl
    · split at hc <;> cases hc <;> cases hx <;> rfl
    · cases hc
  | die id =>
    simp only [Sys.step] at hs
    split at hs <;> cases hs
    rfl

/-- **The queue refines the line.** Along every run that meets the two conditions, the claims, the
    commits and aborts, the headers at which `Read` ends a claim, the deaths and the takeovers of the
    receiver are, in the order they happen, a history of a line of tickets owned by processes.  So a
    claim is padded only after its process has died and only while nothing has become of it, and the
    receiver gets exactly what was committed, in claim order, up to the first claim that is neither
    finished nor forfeited. -/
theorem queue_refines {as : List Act} {s : Sys}
    (h : (machine K).runOk (fun s a => passed s a && clearOk s a) Sys.start as = some s) :
    (Line.machine Nat (Word × List UInt8)).run Line.start
      ((machine K).observe (Sys.deeds K) Sys.start as) = some (s.world.line K) := by
  have hok : ∀ (s : Sys) (a : Act), (passed s a && clearOk s a) = true →
      passed s a = true ∧ clearOk s a = true := fun _ _ => Bool.and_eq_true_iff.mp
  exact Machine.run_observe (fun s : Sys => s.world.line K) hok
    (fun _ _ _ hs hok => Sys.step_line (inv_of_reach hs) hok) .init h

/-- The dead claim of `deadClaim` is forfeited, and the message behind it is served. -/
theorem deadClaim_line :
    ∃ s : Sys, (machine pair).runOk (fun s a => passed s a && clearOk s a) Sys.start
        (deadClaim ++ recvs 290) = some s ∧
      (Line.machine Nat (Word × List UInt8)).run Line.start
        [.draw (life 0), .leave (life 0), .draw (life 2), .fill 1 (2, [5]), .forfeit 0, .serve,
          .serve] = some (s.world.line pair) ∧
      (s.world.line pair).out = [(2, [5])] := by
  have hrun : ((machine pair).runOk (fun s a => passed s a && clearOk s a) Sys.start
      (deadClaim ++ recvs 290)).map (fun s => s.world.sh.delivered) = some [(2, [5])] := by
    decide +kernel
  have hdeeds : (machine pair).observe (Sys.deeds pair) Sys.start (deadClaim ++ recvs 290) =
      [.draw (life 0), .leave (life 0), .draw (life 2), .fill 1 (2, [5]), .forfeit 0, .serve,
        .serve] := by decide +kernel
  obtain ⟨s, hs, hout⟩ := Option.map_eq_some_iff.mp hrun
  refine ⟨s, hs, ?_, hout⟩
  rw [← hdeeds]
  exact queue_refines hs

end GoIpc.Queue
