import GoIpc.Lib.Simulation
import GoIpc.Lib.Tickets
import GoIpc.Ring.Delivery
import Mathlib.Data.List.Nodup

namespace GoIpc.Ring

open GoIpc.Lib

/-!
# The ring is a line of tickets

The ring refines the line of `Lib/Tickets.lean`: a claim is a ticket, numbered by its place in the
history.  A step of the ring is one deed of the line or none:

* the compare-and-swap on `tail` that succeeds draws a ticket;
* the store of the final length in `Commit` or `Abort` fills or voids it;
* `Read` serves a ticket when it passes the last header of the claim.

Everything else the ring does (loads, failed compare-and-swaps, headers, payload bytes, wrap padding,
clearing, publishing `head`) is invisible.
-/

variable {ι : Type} {C : Capacity} {mend : Option Nat} {pos t : Nat}
  {s s' : Shared} {f : Nat → ι} {gone : List ι}

/-! ### The line of a ring -/

/-- What has become of a claim. -/
def Entry.mark (e : Entry) : Mark (Word × List UInt8) :=
  match e.state with
  | .claimed | .reclaimed false => .waiting
  | .committed => .filled e.message
  | .aborted | .reclaimed true => .void

/-- The ticket of a claim, when producer `t` acts for `f t`. -/
def Entry.ticket (f : Nat → ι) (e : Entry) : ι × Mark (Word × List UInt8) := (f e.owner, e.mark)

/-- The number of the claim at a cursor. -/
def Shared.number (s : Shared) (cursor : Nat) : Nat := s.log.findIdx (fun e => e.cursor = cursor)

/-- The ring as a line, for a reader that stands at `pos`. -/
def Shared.line (f : Nat → ι) (gone : List ι) (pos : Nat) (s : Shared) :
    Line ι (Word × List UInt8) where
  tickets := s.log.map (Entry.ticket f)
  served := (below Entry.stop pos s.log).length
  out := s.delivered
  gone := gone

variable {e : Entry}

theorem Entry.mark_of_unfinished (h : e.Unfinished) : e.mark = .waiting := by
  unfold Entry.mark
  rcases h with h | h <;> rw [h]

/-- Claims do not overlap, so none stands twice in the history. -/
theorem nodup_of_tiled {a b : Nat} {l : List Entry} (h : Tiled Entry.cursor Entry.stop a l b) :
    l.Nodup := by
  induction l generalizing a with
  | nil => exact List.nodup_nil
  | cons x xs ih =>
    obtain ⟨-, hlt, hrest⟩ := h
    refine List.nodup_cons.mpr ⟨fun hx => ?_, ih hrest⟩
    have := (hrest.bounds hx).1
    omega

/-- The claim at a cursor, by its number. -/
theorem Shared.Ok.number (h : s.Ok C mend pos) (he : e ∈ s.log) : s.log[s.number e.cursor]? = some e := by
  have hlt : s.number e.cursor < s.log.length :=
    List.findIdx_lt_length_of_exists ⟨e, he, by simp⟩
  have hc : s.log[s.number e.cursor].cursor = e.cursor :=
    of_decide_eq_true (List.findIdx_getElem (w := hlt))
  rw [List.getElem?_eq_getElem hlt]
  exact congrArg some (h.tiled.eq_of_lo_eq (List.getElem_mem hlt) he hc)

/-- A change of one claim changes its ticket and no other. -/
theorem Shared.Ok.map_ticket (h : s.Ok C mend pos) (he : e ∈ s.log) (g : Entry → Entry)
    (hg : ∀ x ∈ s.log, x ≠ e → (g x).ticket f = x.ticket f) :
    (s.log.map g).map (Entry.ticket f) =
      (s.log.map (Entry.ticket f)).set (s.number e.cursor) ((g e).ticket f) := by
  apply List.ext_getElem?
  intro i
  have hnum := h.number he
  rw [List.map_map, List.getElem?_map, List.getElem?_set, List.length_map, List.getElem?_map]
  split
  case isTrue hi =>
    subst hi
    rw [if_pos (List.getElem?_eq_some_iff.mp hnum).1, hnum]
    rfl
  case isFalse hi =>
    cases hx : s.log[i]? with
    | none => rfl
    | some x =>
      refine congrArg some (hg x (List.mem_of_getElem? hx) ?_)
      rintro rfl
      obtain ⟨h1, hx1⟩ := List.getElem?_eq_some_iff.mp hx
      obtain ⟨h2, hx2⟩ := List.getElem?_eq_some_iff.mp hnum
      exact hi ((List.Nodup.getElem_inj_iff (nodup_of_tiled h.tiled)).mp (hx2.trans hx1.symm))

/-- Nor does it change how many tickets are served, when the claim keeps its range. -/
theorem Shared.served_map (g : Entry → Entry) (hg : ∀ x, (g x).stop = x.stop) :
    (below Entry.stop pos (s.log.map g)).length = (below Entry.stop pos s.log).length := by
  rw [below_map hg, List.length_map]

/-- **A claim is finished.** -/
theorem Shared.Ok.line_finish (h : s.Ok C mend pos) (he : e ∈ s.log) (hu : e.Unfinished) (g : Entry → Entry)
    (hstop : ∀ x, (g x).stop = x.stop) (hg : ∀ x ∈ s.log, x ≠ e → (g x).ticket f = x.ticket f)
    (howner : (g e).owner = e.owner) (hlog : s'.log = s.log.map g) (hout : s'.delivered = s.delivered)
    {allowed : ι → Bool} (ho : allowed (f e.owner) = true) :
    (s.line f gone pos).finish (s.number e.cursor) (g e).mark allowed =
      some (s'.line f gone pos) := by
  have hk : (s.line f gone pos).tickets[s.number e.cursor]? = some (f e.owner, .waiting) := by
    show (s.log.map (Entry.ticket f))[s.number e.cursor]? = _
    rw [List.getElem?_map, h.number he, ← Entry.mark_of_unfinished hu]
    rfl
  rw [Line.finish_eq hk ho]
  unfold Shared.line
  rw [hlog, hout, Shared.served_map g hstop, h.map_ticket he g hg]
  unfold Entry.ticket
  rw [howner]

/-- The reader passes no end of a claim. -/
theorem Shared.line_pos {pos' : Nat} (hpos : below Entry.stop pos' s.log = below Entry.stop pos s.log)
    (hlog : s'.log = s.log) (hout : s'.delivered = s.delivered) :
    s'.line f gone pos' = s.line f gone pos := by
  unfold Shared.line
  rw [hlog, hout, hpos]

/-- A payload byte of an open claim is not visible. -/
theorem Shared.Ok.line_payload (h : s.Ok C mend pos) {c : Claim} (hh : Holds C s t c e) {k : Nat}
    {b : UInt8} (hlog : s'.log = (s.note c.cursor (fun e => { e with payload := e.payload.set k b })).log)
    (hout : s'.delivered = s.delivered) : s'.line f gone pos = s.line f gone pos := by
  have hticket : ∀ x ∈ s.log, (if x.cursor = c.cursor then
      ({ x with payload := x.payload.set k b } : Entry) else x).ticket f = x.ticket f := by
    intro x hx
    split
    case isTrue hc =>
      obtain rfl := h.tiled.eq_of_lo_eq hx hh.mem (hc.trans hh.cursor.symm)
      simp [Entry.ticket, Entry.mark, hh.claimed]
    case isFalse => rfl
  unfold Shared.line
  rw [hlog, hout]
  unfold Shared.note
  dsimp only
  rw [Shared.served_map _ fun x => by split <;> rfl, List.map_map]
  congr 1
  exact List.map_congr_left hticket

variable [DecidableEq ι]

/-- **The reader passes the end of a claim.** -/
theorem Shared.Ok.line_serve {mend' : Option Nat} (h : s.Ok C mend pos) (he : e ∈ s.log)
    (h1 : e.cursor ≤ pos) (h2 : pos < e.stop) (h' : s'.Ok C mend' e.stop) (hlog : s'.log = s.log) :
    (s.line f gone pos).step .serve = some (s'.line f gone e.stop) := by
  have hbelow := below_hi h.tiled he h1 h2
  have hfin := h'.passed e (hlog ▸ he) le_rfl
  have hout := h'.delivered
  rw [hlog, hbelow] at hout
  have hserved : s.log[(below Entry.stop pos s.log).length]? = some e := by
    obtain ⟨rest, hrest⟩ := below_isPrefix h.tiled e.stop
    rw [hbelow] at hrest
    have hget : (below Entry.stop pos s.log ++ [e] ++ rest)[(below Entry.stop pos s.log).length]? =
        some e := by simp
    rwa [hrest] at hget
  have hticket : (s.line f gone pos).tickets[(s.line f gone pos).served]? =
      some (f e.owner, e.mark) := by
    show (s.log.map (Entry.ticket f))[(below Entry.stop pos s.log).length]? = _
    rw [List.getElem?_map, hserved]
    rfl
  have hline : s'.line f gone e.stop = { s.line f gone pos with
      served := (s.line f gone pos).served + 1
      out := s.delivered ++ committedOf [e] } := by
    unfold Shared.line
    rw [hlog, hbelow, hout, h.delivered, List.length_append]
    simp [committedOf]
  unfold Line.step
  rw [hticket, hline]
  unfold Entry.mark
  cases hst : e.state with
  | claimed => exact absurd (.inl hst) hfin
  | committed => simp [committedOf, Entry.isCommitted, hst, Shared.line]
  | aborted => simp [committedOf, Entry.isCommitted, hst, Shared.line]
  | reclaimed full =>
    cases full with
    | false => exact absurd (.inr hst) hfin
    | true => simp [committedOf, Entry.isCommitted, hst, Shared.line]

/-! ### The deeds of a step -/

/-- What a producer's step does to the line. -/
def Producer.deeds (f : Nat → ι) (t : Nat) (s : Shared) :
    Producer → ProdAct → List (Deed ι (Word × List UInt8))
  | .casTail _ tail, .step => if s.tail = tail then [.draw (f t)] else []
  | .copy c _ [], .step | .held c, .commit =>
      -- the message is what the producer has written by now
      match s.log.find? (fun e => e.cursor = c.cursor) with
      | some e => [.fill (s.number c.cursor) e.message]
      | none => []
  | .abortLen c, .step => [.void (s.number c.cursor)]
  | _, _ => []

/-- What the reader's step does to the line: it serves a ticket when it passes the end of a claim. -/
def Reader.deeds (s : Shared) : Reader → ReadAct → List (Deed ι (Word × List UInt8))
  | .pass r len _, .step =>
      if ∃ e ∈ s.log, e.stop = r.cursor + align len then [.serve] else []
  | _, _ => []

/-- A new claim is a new ticket, behind the reader's position. -/
theorem Shared.Ok.line_draw (h : s.Ok C mend pos) {q : Req} {tail : Nat} (ht : s.tail = tail)
    (hlive : f t ∉ gone) :
    (s.line f gone pos).step (.draw (f t)) = some (Shared.line f gone pos
      { s with tail := tail + q.need C tail, log := s.log ++ [q.entry C tail t] }) := by
  have hstop : pos < (q.entry C tail t).stop := by
    have hle := h.pos_le
    have halign := le_align q.recordLen
    have hrec : q.recordLen = 8 + q.length := rfl
    have hst : (q.entry C tail t).stop = tail + (padOf C tail q.aligned + align q.recordLen) := rfl
    omega
  unfold Line.step Shared.line
  dsimp only
  rw [if_neg hlive, below_concat hstop, List.map_append]
  rfl

/-- The claim a producer commits or aborts. -/
theorem Shared.Ok.line_mark (h : s.Ok C mend pos) {c : Claim} (hh : Holds C s t c e) (st : ClaimState)
    (hlog : s'.log = (s.mark c.cursor st).log) (hout : s'.delivered = s.delivered) (hlive : f t ∉ gone) :
    (s.line f gone pos).finish (s.number c.cursor) ({ e with state := st } : Entry).mark
      (fun o => o ∉ gone) = some (s'.line f gone pos) := by
  rw [← hh.cursor] at hlog ⊢
  have hfin : (s.line f gone pos).finish (s.number e.cursor)
      (if e.cursor = e.cursor then ({ e with state := st } : Entry) else e).mark (fun o => o ∉ gone) =
        some (s'.line f gone pos) :=
    h.line_finish hh.mem (.inl hh.claimed)
      (fun x => if x.cursor = e.cursor then { x with state := st } else x) (fun x => by split <;> rfl)
      (fun x hx hne => by rw [if_neg fun hc => hne (h.tiled.eq_of_lo_eq hx hh.mem hc)])
      (by rw [if_pos rfl]) hlog hout (by simpa [hh.owner] using hlive)
  rwa [if_pos rfl] at hfin

/-- **A producer's step** is what `deeds` says. -/
theorem Producer.step_line (hok : s.Ok C mend pos) {p p' : Producer} {a : ProdAct}
    (hl : p.Local C s pos t) (hlive : f t ∉ gone) (h : p.step C t s a = some (s', p')) :
    (s.line f gone pos).after (p.deeds f t s a) = some (s'.line f gone pos) := by
  -- the final length of a record
  have commit : ∀ {c : Claim} {e : Entry}, Holds C s t c e →
      (s.line f gone pos).after (match s.log.find? (fun e => e.cursor = c.cursor) with
          | some e => [.fill (s.number c.cursor) e.message]
          | none => []) =
        some (Shared.line f gone pos ((s.storeLength c.index c.total).mark c.cursor .committed)) := by
    intro c e hh
    have hfind : s.log.find? (fun e => e.cursor = c.cursor) = some e := by
      cases hf : s.log.find? (fun e => e.cursor = c.cursor) with
      | none => exact absurd hh.cursor (by simpa using List.find?_eq_none.mp hf e hh.mem)
      | some x =>
        have hx : x.cursor = c.cursor := by simpa using List.find?_some hf
        exact congrArg some
          (hok.tiled.eq_of_lo_eq (List.mem_of_find?_eq_some hf) hh.mem (hx.trans hh.cursor.symm))
    rw [hfind]
    exact Line.run_one (hok.line_mark hh .committed rfl rfl hlive)
  cases Producer.step_rule h with
  | @giveUp q => cases hq : q.slot <;> exact congrArg some (Shared.line_pos rfl rfl rfl).symm
  | @release c => cases hc : c.slot <;> exact congrArg some (Shared.line_pos rfl rfl rfl).symm
  | claimPad | claim =>
    simp only [Producer.deeds, if_pos]
    exact Line.run_one (hok.line_draw rfl hlive)
  | lost moved =>
    simp only [Producer.deeds, if_neg moved]
    rfl
  | copy | put =>
    obtain ⟨e, hh, -⟩ := hl
    exact congrArg some (hok.line_payload hh.toHolds rfl rfl).symm
  | written | commit =>
    obtain ⟨e, hh, -⟩ := hl
    exact commit hh.toHolds
  | abortLen =>
    obtain ⟨e, hh, -⟩ := hl
    exact Line.run_one (hok.line_mark hh.toHolds .aborted rfl rfl hlive)
  | _ => rfl

/-- **A reader's step** is what `deeds` says. -/
theorem Reader.step_line {rd rd' : Reader} {a : ReadAct} (hok : s.Ok C none (rd.pos s.head))
    (hl : rd.Local C s) (h : rd.step C s a = some (s', rd')) :
    (s.line f gone (rd.pos s.head)).after (rd.deeds s a) =
      some (s'.line f gone (rd'.pos s'.head)) := by
  obtain ⟨hadv, hl'⟩ := Reader.step_inv hok hl h
  -- a step that hands nothing on and passes nothing
  have still : rd.deeds (ι := ι) s a = [] → s'.delivered = s.delivered →
      rd'.pos s'.head = rd.pos s.head →
      (s.line f gone (rd.pos s.head)).after (rd.deeds s a) =
        some (s'.line f gone (rd'.pos s'.head)) := by
    intro hd hout hpos
    rw [hd, hpos]
    exact congrArg some (Shared.line_pos rfl hadv.log hout).symm
  cases a with
  | read limit =>
    cases rd with
    | idle last =>
      cases h
      refine still rfl rfl ?_
      split <;> rfl
    | _ => cases h
  | step =>
    cases rd with
    | idle last => cases h
    | loadHead limit | loadType r len | clear r len | storeHead r =>
      cases h
      exact still rfl rfl rfl
    | loadTail limit head =>
      obtain rfl : head = s.head := hl
      cases h
      exact still rfl rfl Loop.next_pos
    | loadLen r =>
      have hhead := hl.1.head
      simp only [Reader.step] at h
      split at h
      · cases h
        exact still rfl rfl (by rw [← hhead]; exact Loop.finish_pos)
      · split at h <;> cases h
        · exact absurd rfl (hl' r.count)
        · exact still rfl rfl rfl
    | storeLen r len =>
      have hhead := hl.1.head
      cases h
      refine still rfl rfl ?_
      show (Loop.next { r with consumed := r.consumed + align len }).pos s.head = _
      rw [← hhead]
      exact Loop.next_pos.trans (Nat.add_assoc _ _ _).symm
    | pass r len typ =>
      obtain ⟨hr, hlt, hpos, hlen, -⟩ := hl
      obtain ⟨e, he, hmin, -, -, hseg⟩ := hr.segment hok hlt hlen hpos
      have hw := hok.wf e he
      obtain ⟨h1, h2, -, hend⟩ := hseg.bounds hw
      have halign := le_align len
      have hpos' : rd'.pos s'.head = r.cursor + align len := by
        simp only [Reader.step] at h
        split at h <;> cases h <;> rfl
      have hok' := hadv.ok
      simp only [Reader.deeds]
      rw [hpos'] at hok' ⊢
      rcases hend with hrec | hstop
      · -- the wrap padding of the claim: the record is still to come
        have harith := hw.arith
        rw [if_neg, hrec]
        · rw [hrec] at hok'
          have hbelow : below Entry.stop e.record s.log = below Entry.stop r.cursor s.log :=
            below_within hok.tiled he h1 (by omega) (by omega)
          refine congrArg some (Shared.line_pos hbelow hadv.log ?_).symm
          rw [hok'.delivered, hadv.log, hbelow]
          exact hok.delivered.symm
        · rintro ⟨x, hx, hxs⟩
          have hb := hok.tiled.bounds hx
          obtain rfl : x = e := hok.tiled.eq_of_overlap hx he (c := x.stop - 1) (by omega)
            (by omega) (by omega) (by omega)
          omega
      · rw [if_pos ⟨e, he, hstop.symm⟩, hstop]
        rw [hstop] at hok'
        exact Line.run_one (hok.line_serve he h1 h2 hok' hadv.log)

/-! ### The whole ring -/

/-- What a step of the ring does to the line. -/
def Sys.deeds (s : Sys) : Act → List (Deed Nat (Word × List UInt8))
  | .prod t a => (s.prods t).deeds id t s.sh a
  | .reader a => s.reader.deeds s.sh a

/-- The ring as a line: the owner of a ticket is the producer, and nobody leaves. -/
def Sys.line (s : Sys) : Line Nat (Word × List UInt8) := s.sh.line id [] s.pos

theorem Sys.step_line {s s' : Sys} (hreach : (machine C).Reach (fun _ _ => True) s) {a : Act}
    (hs : s.step C a = some s') : s.line.after (s.deeds a) = some s'.line := by
  obtain ⟨hinv, hnot⟩ := inv_of_reach hreach
  cases a with
  | prod t a =>
    have hlost : ¬ Lost s.sh t (s.prods t) := by
      rintro ⟨e, he, -, -, ht⟩
      exact hnot e he ht
    obtain ⟨sh, p, hp, rfl⟩ := Sys.step_prod_eq hs
    have hl := (hinv.prods t).resolve_left hlost
    have hhead := (Producer.step_inv hinv.ok hl hp).1.head
    have hpos : Sys.pos { s with sh := sh, prods := Function.update s.prods t p } = s.pos := by
      show s.reader.pos sh.head = s.reader.pos s.sh.head
      rw [hhead]
    unfold Sys.line
    rw [hpos]
    exact Producer.step_line hinv.ok hl List.not_mem_nil hp
  | reader a =>
    obtain ⟨sh, rd, hr, rfl⟩ := Sys.step_reader_eq hs
    exact Reader.step_line hinv.ok hinv.reader hr

/-- **The ring refines the line.** Along every interleaving of any number of producers and one
    reader, the successful compare-and-swaps, the final lengths of `Commit` and `Abort`, and the
    headers at which `Read` ends a claim are, in the order they happen, a history of a line of
    tickets; the line then holds every claim with what became of it, and has handed on exactly what
    `Read` passed to its callback. -/
theorem ring_refines {as : List Act} {s : Sys} (h : (machine C).run Sys.start as = some s) :
    (Line.machine Nat (Word × List UInt8)).run Line.start
      ((machine C).observe Sys.deeds Sys.start as) = some s.line := by
  rw [← Machine.runOk_true] at h
  exact Machine.run_observe Sys.line (fun _ _ _ => trivial) (fun _ _ _ hs _ => Sys.step_line hs) .init h

/-- Producer 1 fills its ticket before producer 0, and both are served in the order of drawing. -/
theorem outOfOrder_line :
    ∃ s : Sys, (machine Capacity.smallest).run Sys.start outOfOrder = some s ∧
      s.line.out = [(1, [7, 8]), (2, [9])] ∧
      (Line.machine Nat (Word × List UInt8)).run Line.start
        [.draw 0, .draw 1, .fill 1 (2, [9]), .fill 0 (1, [7, 8]), .serve, .serve] = some s.line := by
  obtain ⟨s, hrun, heq⟩ := Option.map_eq_some_iff.mp outOfOrder_run
  have hdeeds : (machine Capacity.smallest).observe Sys.deeds Sys.start outOfOrder =
      [.draw 0, .draw 1, .fill 1 (2, [9]), .fill 0 (1, [7, 8]), .serve, .serve] := by
    decide +kernel
  refine ⟨s, hrun, (Prod.mk.inj (Prod.mk.inj heq).2).1, ?_⟩
  rw [← hdeeds]
  exact ring_refines hrun

end GoIpc.Ring
