import GoIpc.Queue.Steps

namespace GoIpc.Queue

open GoIpc.Lib
open GoIpc.Ring (Entry Producer Shared Held claimSlots noIntent)
open Function (update update_self update_of_ne)

/-!
# The receiver keeps the invariant

`stalled` scans the slots, `unstall` judges those it found, `reclaim` pads one lap segment and
clears the slots of the dead.  Each place of the scan carries what `Recv.Local` says about the
unfinished claim at `head`, if there is one; the compare-and-swap of `reclaim` succeeds only over
such a claim, so what it pads is a dead process' claim and nothing else.
-/

variable {K : Config} {s s' : Sys} {w : World} {t i : Nat}

/-! ### Places without local facts -/

/-- A place where the receiver has nothing to remember about the ring. -/
def Recv.plain : Recv → Bool
  | .reading .. | .stallTail .. | .stallLen .. | .slotAt .. | .slotSize .. | .loadOwner ..
  | .loadAt .. | .loadSize .. | .judge .. | .casLength .. | .padType .. | .clearAt .. => false
  | _ => true

@[simp] theorem Recv.plain_finish (l : Int) (k : Try) (n : Nat) (err : Option QErr) :
    (Recv.finish l k n err).plain = true := by
  cases k <;> rfl

@[simp] theorem Recv.plain_empty (l : Int) (k : Try) : (Recv.empty l k).plain = true := by
  cases k <;> rfl

@[simp] theorem Recv.plain_afterRead (l : Int) (k : Try) (n : Nat) (err : Option Ring.Err) :
    (Recv.afterRead l k n err).plain = true := by
  unfold Recv.afterRead
  split
  · exact plain_finish ..
  · rfl

variable {r : Recv} {j : Judged} {k : Try} {l : Int} {rest : List Nat} {st : Stall}

theorem Recv.plain_mend (h : r.plain = true) : r.mend = none := by
  cases r <;> first | rfl | cases h

theorem Recv.plain_local (h : r.plain = true) : r.Local K w := by
  cases r <;> trivial

/-! ### Where the scan goes on -/

/-- The slots `stalled` has found once it knows the size of a slot. -/
def Stall.slotsWith (st : Stall) (i cursor size : Nat) : List Nat :=
  if st.cursor < cursor + size then st.slots ++ [i] else st.slots

/-- After a judgement: every slot the claim may stand in is judged or still to come. -/
theorem Recv.local_nextJudge (hat : st.At w) (hf : ∀ e, Blocked w st.cursor e → ∀ n, e.slot = some n →
      Found K w j e n ∨ n ∈ rest) : (Recv.nextJudge l k st j rest).Local K w := by
  cases rest with
  | nil =>
    unfold Recv.nextJudge
    dsimp only
    split
    · exact plain_local (plain_empty l k)
    · exact ⟨hat, fun e he n hn => (hf e he n hn).resolve_right (by simp)⟩
  | cons i rest =>
    refine ⟨hat, fun e he n hn => (hf e he n hn).imp_right (fun hm => ?_)⟩
    exact (List.mem_cons.mp hm).symm

theorem Recv.mend_nextJudge (l : Int) (k : Try) (st : Stall) (j : Judged) (rest : List Nat) :
    (Recv.nextJudge l k st j rest).mend = none := by
  cases rest with
  | nil =>
    unfold Recv.nextJudge
    dsimp only
    split
    · exact plain_mend (plain_empty l k)
    · rfl
  | cons i rest => rfl

/-- After a slot: every slot up to it that the claim may stand in is found. -/
theorem Recv.local_nextSlot (hat : st.At w)
    (hb : ∀ e, Blocked w st.cursor e → ∀ n, e.slot = some n → n < claimSlots)
    (hf : ∀ e, Blocked w st.cursor e → ∀ n, e.slot = some n → n < i + 1 → n ∈ st.slots) :
    (Recv.nextSlot l k st i).Local K w := by
  unfold Recv.nextSlot
  split
  · exact ⟨hat, hf⟩
  · refine local_nextJudge hat (fun e he n hn => .inr (hf e he n hn ?_))
    have := hb e he n hn
    omega

theorem Recv.mend_nextSlot (l : Int) (k : Try) (st : Stall) (i : Nat) :
    (Recv.nextSlot l k st i).mend = none := by
  unfold Recv.nextSlot
  split
  · rfl
  · exact mend_nextJudge ..

theorem Recv.mend_nextClear (l : Int) (k : Try) (st : Stall) (j : Judged) (rest : List Nat) :
    (Recv.nextClear l k st j rest).mend = none := by
  cases rest <;> rfl

theorem Recv.local_nextClear (hat : st.At w) (hf : ∀ e ∈ w.sh.log, e.cursor ≤ st.cursor → st.cursor < e.stop →
      ¬ e.Unfinished) : (Recv.nextClear l k st j rest).Local K w := by
  cases rest with
  | nil => trivial
  | cons i rest => exact ⟨hat, hf⟩

namespace QInv

/-! ### Steps that keep the slots -/

/-- A step of the receiver that changes no slot, adds no claim and takes over only claims of dead
    processes. -/
theorem recv_move (hq : QInv K s) (hring : Ring.Inv K.cap r.mend w.ring)
    (hprods : w.ring.prods = s.world.ring.prods) (hslots : w.sh.slots = s.world.sh.slots)
    (htail : w.sh.tail = s.world.sh.tail) (hhead : s.world.sh.head ≤ w.sh.head)
    (hpools : w.pools = s.world.pools) (hdead : w.dead = s.world.dead)
    (hlog : ∀ e' ∈ w.sh.log, ∃ e ∈ s.world.sh.log, e.Same e' ∧
      (e'.Taken → e.Taken ∨ K.proc e.owner ∈ s.world.dead))
    (hreader : r.isReading = true ∨ ∃ last, w.ring.reader = .idle last) (hloc : r.Local K w) :
    QInv K { s with world := w, recv := r } := by
  refine ⟨hring, ?_, hreader, ?_, ?_, ?_, ?_, ?_, ?_, hloc⟩
  · intro e' he' hst
    obtain ⟨e, he, hw, -⟩ := hlog e' he'
    dsimp only
    rw [hprods, ← hw.owner, ← hw.cursor, ← hw.slot]
    exact hq.held e he (hw.claimed hst)
  · dsimp only
    rw [hprods]
    exact hq.runs
  · exact fun t => (hq.search t).mono (fun p hp => hdead ▸ hp)
  · exact hq.slots.same (fun _ => rfl) (fun _ h => h) hpools (fun _ => rfl)
      (fun i => by dsimp only; rw [hslots]) (fun p hp => hdead ▸ hp)
  · intro t hl
    dsimp only at hl ⊢
    rw [hdead] at hl
    rw [hprods]
    exact (hq.intents t hl).stable (fun i _ => by rw [hslots]; exact ⟨rfl, rfl⟩) (le_of_eq htail.symm)
  · intro e' he' hu hlt
    obtain ⟨e, he, hw, -⟩ := hlog e' he'
    have ha := hq.attributed e he (hw.unfinished hu) (lt_of_le_of_lt hhead (hw.stop ▸ hlt))
    exact ha.was hw (fun i _ => by dsimp only; rw [hslots])
  · intro e' he' ht
    obtain ⟨e, he, hw, htk⟩ := hlog e' he'
    dsimp only
    rw [hdead, ← hw.owner]
    exact (htk ht).elim (hq.taken e he) id

/-- A step of the receiver that leaves the ring alone. -/
theorem recv_load (hq : QInv K s) (hring : w.ring = s.world.ring) (hpools : w.pools = s.world.pools)
    (hdead : w.dead = s.world.dead) (hmend : s.recv.mend = none) (hmend' : r.mend = none)
    (hreader : ∃ last, s.world.ring.reader = .idle last) (hloc : r.Local K w) :
    QInv K { s with world := w, recv := r } := by
  have hsh : w.sh = s.world.sh := congrArg Ring.Sys.sh hring
  refine hq.recv_move ?_ (by rw [hring]) (by rw [hsh]) (by rw [hsh]) (by rw [hsh]) hpools hdead ?_
    (.inr (hring ▸ hreader)) hloc
  · rw [hmend', hring, ← hmend]
    exact hq.ring
  · intro e he
    rw [hsh] at he
    exact ⟨e, he, .refl e, .inl⟩

variable {e : Entry} {cursor : Nat}

/-- The attribution of the claim that blocks the reader. -/
theorem blocked (hq : QInv K s) (hat : st.At s.world) (hb : Blocked s.world st.cursor e) {n : Nat}
    (hn : e.slot = some n) : n < claimSlots ∧ s.world.sh.slots n = ⟨K.proc e.owner, e.cursor, e.size⟩ := by
  obtain ⟨i, hi, hlt, hslot⟩ := hq.attributed e hb.1 hb.2.2.2 (by rw [← hat.head]; exact hb.2.2.1)
  obtain rfl : n = i := Option.some.inj (hn.symm.trans hi)
  exact ⟨hlt, hslot⟩

/-- The reader stands at `head` while the receiver does not read. -/
theorem at_head (hq : QInv K s) (hread : s.recv.isReading = false) :
    ∃ last, s.world.ring.reader = .idle last ∧ s.world.ring.pos = s.world.sh.head := by
  obtain ⟨last, hidle⟩ := hq.reader.resolve_left (by rw [hread]; simp)
  refine ⟨last, hidle, ?_⟩
  unfold Ring.Sys.pos
  rw [hidle]
  rfl

/-- A header that does not let the reader pass belongs to an unfinished claim, which has a slot. -/
theorem stalled_by (hq : QInv K s) (hread : s.recv.isReading = false) (hmend : s.recv.mend = none)
    (hat : st.At s.world) (hlen : s.world.sh.loadLength (st.cursor % K.cap.size) ≤ 0) :
    ∃ e n, Blocked s.world st.cursor e ∧ e.slot = some n := by
  obtain ⟨last, -, hpos⟩ := hq.at_head hread
  have hok := hq.ring.ok
  rw [hmend, hpos, ← hat.head] at hok
  obtain ⟨e, he, h1, h2⟩ := hok.tiled.cover (Nat.zero_le _) hat.tail
  have hu : e.Unfinished := by
    refine hok.unfinished he h1 h2 ?_
    rwa [← hok.loadLength hat.tail]
  obtain ⟨n, hn, -, -⟩ := hq.attributed e he hu (by rw [← hat.head]; exact h2)
  exact ⟨e, n, ⟨he, h1, h2, hu⟩, hn⟩

/-- The claim at which `Read` finds no length is not finished. -/
theorem unfinished_of_length (hq : QInv K s) {r : Ring.Loop} (hread : s.world.ring.reader = .loadLen r)
    (hlen : s.world.sh.loadLength (r.cursor % K.cap.size) ≤ 0) (he : e ∈ s.world.sh.log)
    (h1 : e.cursor ≤ r.cursor) (h2 : r.cursor < e.stop) : e.Unfinished := by
  have hreading : s.recv.isReading = true := by
    rcases hq.reader with h0 | ⟨last, h0⟩
    · exact h0
    · rw [hread] at h0
      cases h0
  have hmend : s.recv.mend = none := by
    generalize s.recv = r' at hreading
    cases r' <;> first | rfl | cases hreading
  have hpos : s.world.ring.pos = r.cursor := by
    unfold Ring.Sys.pos
    rw [hread]
    rfl
  have hok := hq.ring.ok
  rw [hmend, hpos] at hok
  refine hok.unfinished he h1 h2 ?_
  rwa [← hok.loadLength (lt_of_lt_of_le h2 (hok.tiled.bounds he).2.2)]

/-! ### Recovery -/

/-- **The compare-and-swap of `reclaim`.**  It takes over the claim at `head`, which is
    unfinished, judged, and of a dead process. -/
theorem recv_reclaim (hq : QInv K s) (hpc : s.recv = .casLength l k st j)
    (hlen : s.world.sh.loadLength (st.cursor % K.cap.size) = st.length) :
    QInv K { s with
      world := s.world.withSh
        (s.world.sh.reclaim K.cap st.cursor (Ring.lapSegment K.cap st.cursor j.stop))
      recv := .padType l k st j (Ring.lapSegment K.cap st.cursor j.stop) } := by
  obtain ⟨last, hidle, hpos⟩ := hq.at_head (hpc ▸ rfl)
  have hloc := hq.recv
  have hring := hq.ring
  rw [hpc] at hloc hring
  obtain ⟨hat, hf⟩ := hloc
  obtain ⟨e, n, hb, hn⟩ := hq.stalled_by (hpc ▸ rfl) (hpc ▸ rfl) hat
    (hlen ▸ hat.length)
  have hfound := hf e hb n hn
  obtain ⟨he, h1, h2, hu⟩ := hb
  -- the claims do not overlap: the stalled one is the only one here
  have honly : ∀ x ∈ s.world.sh.log, x.cursor ≤ st.cursor → st.cursor < x.stop → x = e :=
    fun x hx h1' h2' => hring.ok.tiled.eq_of_overlap hx he h1' h2' h1 h2
  rw [hfound.stop]
  refine hq.recv_move ?_ rfl rfl rfl (le_refl _) rfl rfl ?_ (.inr ⟨last, hidle⟩) ?_
  · rw [Recv.mend, hat.head]
    rw [hat.head] at h1 h2
    exact hring.reclaim ⟨last, hidle⟩ he h1 h2 hu
  · intro e' he'
    obtain ⟨x, hx, rfl⟩ := List.mem_map.mp he'
    refine ⟨x, hx, Entry.same_reclaim _ _ x, fun ht => ?_⟩
    unfold Entry.reclaim at ht
    split at ht
    · next hx' =>
      rw [honly x hx hx'.1 hx'.2.1]
      exact .inr hfound.dead
    · exact .inl ht
  · refine ⟨⟨hat.head, hat.tail, hat.length⟩, ?_⟩
    intro e' he' h1' h2'
    obtain ⟨x, hx, rfl⟩ := List.mem_map.mp he'
    have hsame := Entry.same_reclaim st.cursor (Ring.lapSegment K.cap st.cursor e.stop) x
    obtain rfl := honly x hx (hsame.cursor ▸ h1') (hsame.stop ▸ h2')
    have hstate : (x.reclaim st.cursor (Ring.lapSegment K.cap st.cursor x.stop)).state
        = .reclaimed (decide (x.stop ≤ st.cursor + Ring.lapSegment K.cap st.cursor x.stop)) := by
      rw [Entry.reclaim, if_pos ⟨h1, h2, hu⟩]
    refine ⟨⟨_, hstate⟩, fun hstop hun => ?_⟩
    rw [hfound.stop] at hstop
    rw [Entry.Unfinished, hstate, hstop] at hun
    simp at hun

/-- **The type `reclaim` stores.** -/
theorem recv_padType (hq : QInv K s) {size : Nat} (hpc : s.recv = .padType l k st j size) :
    QInv K { s with
      world := s.world.withSh
        (s.world.sh.storeType (st.cursor % K.cap.size) Ring.typePadding)
      recv := if st.cursor + size = j.stop then Recv.nextClear l k st j j.dead
        else .before l k } := by
  obtain ⟨last, hidle, hpos⟩ := hq.at_head (hpc ▸ rfl)
  have hloc := hq.recv
  have hring := hq.ring
  rw [hpc] at hloc hring
  obtain ⟨hat, hf⟩ := hloc
  have hok := hring.ok
  rw [hpos, ← hat.head] at hok
  obtain ⟨e, he, h1, h2⟩ := hok.tiled.cover (Nat.zero_le _) hat.tail
  have hmend : (if st.cursor + size = j.stop then Recv.nextClear l k st j j.dead
      else .before l k).mend = none := by
    split
    · exact Recv.mend_nextClear ..
    · rfl
  refine hq.recv_move ?_ rfl rfl rfl (le_refl _) rfl rfl (fun x hx => ⟨x, hx, .refl x, .inl⟩)
    (.inr ⟨last, hidle⟩) ?_
  · rw [hmend]
    rw [Recv.mend, hat.head] at hring
    rw [hat.head] at h1 h2 ⊢
    exact hring.padType he h1 h2 (hf e he (hat.head ▸ h1) (hat.head ▸ h2)).1
  · split
    · next hstop =>
      exact Recv.local_nextClear ⟨hat.head, hat.tail, hat.length⟩
        (fun x hx h1 h2 => (hf x hx h1 h2).2 hstop)
    · trivial

/-- **A slot `reclaim` clears.**  A live goroutine's intent there is at most as far as the claim
    that was reclaimed, so its compare-and-swap on `tail` fails. -/
theorem recv_clear (hq : QInv K s) (hpc : s.recv = .clearAt l k st j i rest)
    (hc : (s.world.sh.slots i).cursor = noIntent ∨ (s.world.sh.slots i).cursor ≤ st.cursor) :
    QInv K { s with
      world := s.world.withSh (s.world.sh.storeAt i noIntent)
      recv := Recv.nextClear l k st j rest } := by
  obtain ⟨last, hidle, -⟩ := hq.at_head (hpc ▸ rfl)
  have hloc := hq.recv
  rw [hpc] at hloc
  obtain ⟨hat, hf⟩ := hloc
  refine hq.slot rfl rfl hq.runs hq.search ?_ ?_ (.inr ⟨last, hidle⟩) ?_ ?_ ?_
  · exact hq.slots.same (fun _ => rfl) (fun _ h => h) rfl (fun _ => rfl)
      (fun n => storeAt_owner _ _ _ _) (fun _ h => h)
  · rw [hpc]
    exact Recv.mend_nextClear ..
  · exact Recv.local_nextClear ⟨hat.head, hat.tail, hat.length⟩ hf
  · intro t hl _
    have hint := hq.intents t hl
    have hlocal := (hq.ring.prods t).resolve_left (hq.not_lost hl)
    revert hint hlocal
    cases s.world.ring.prods t with
    | storeAt q tail =>
      intro hint _ n hn
      show (update s.world.sh.slots i _ n).size = _
      by_cases hni : n = i
      · subst hni
        rw [update_self]
        exact hint n hn
      · rw [update_of_ne hni]
        exact hint n hn
    | casTail q tail =>
      rintro hint ⟨-, hmod, -⟩ n hn
      show ((update s.world.sh.slots i _ n).cursor = _ ∧
        (update s.world.sh.slots i _ n).size = _) ∨ tail < s.world.sh.tail
      by_cases hni : n = i
      · subst hni
        -- the intent that is cleared is behind the tail, so its CAS fails
        rcases hint n hn with ⟨hcur, -⟩ | hlt
        · have := hat.tail
          unfold noIntent at hc
          omega
        · exact .inr hlt
      · rw [update_of_ne hni]
        exact hint n hn
    | _ => exact fun _ _ => trivial
  · intro e he hu hlt _ hslot
    rw [hslot] at hc
    rcases hc with hc | hc
    · exact hq.cursor_ne he hc
    · exact hf e he hc (hat.head ▸ hlt) hu

/-- **A step of `Read`.** -/
theorem recv_read (hq : QInv K s) {a : Ring.ReadAct} {head : Nat} (hmend : s.recv.mend = none)
    (hx : s.world.apply K (.reader a) = some w) :
    QInv K { s with world := w, recv := .reading l k head } := by
  obtain ⟨ring, hr, rfl⟩ := Option.map_eq_some_iff.mp hx
  have hring := hq.ring
  rw [hmend] at hring
  have hring' := hring.step_reader hr
  obtain ⟨sh, rd, hstep, rfl⟩ := Ring.Sys.step_reader_eq hr
  obtain ⟨hadv, -⟩ := Ring.Reader.step_inv hring.ok hring.reader hstep
  refine hq.recv_move hring' rfl hadv.slots hadv.tail hadv.head rfl rfl ?_ (.inl rfl) trivial
  intro e he
  have he : e ∈ sh.log := he
  rw [hadv.log] at he
  exact ⟨e, he, .refl e, .inl⟩

/-! ### The scan -/

/-- A step to a place without local facts. -/
theorem recv_plain (hq : QInv K s) (hring : w.ring = s.world.ring) (hpools : w.pools = s.world.pools)
    (hdead : w.dead = s.world.dead) (hmend : s.recv.mend = none) (hread : s.recv.isReading = false)
    (hr : r.plain = true) : QInv K { s with world := w, recv := r } := by
  obtain ⟨last, hidle, -⟩ := hq.at_head hread
  exact hq.recv_load hring hpools hdead hmend (Recv.plain_mend hr) ⟨last, hidle⟩
    (Recv.plain_local hr)

/-- A load in the scan. -/
theorem recv_scan (hq : QInv K s) (hmend : s.recv.mend = none) (hread : s.recv.isReading = false)
    (hr : r.mend = none) (hloc : r.Local K s.world) : QInv K { s with recv := r } := by
  obtain ⟨last, hidle, -⟩ := hq.at_head hread
  exact hq.recv_load (w := s.world) rfl rfl rfl hmend hr ⟨last, hidle⟩ hloc

/-- `stalled` skips a slot: it is not the one of the claim that blocks the reader. -/
theorem slotAt_skip (hq : QInv K s) (hpc : s.recv = .slotAt l k st i)
    (hskip : ¬ ((s.world.sh.slots i).cursor ≠ noIntent ∧
      (s.world.sh.slots i).cursor ≤ st.cursor)) (he : Blocked s.world st.cursor e) {n : Nat}
    (hn : e.slot = some n) (hlt : n < i + 1) : n ∈ st.slots := by
  have hloc := hq.recv
  rw [hpc] at hloc
  obtain ⟨hat, hf⟩ := hloc
  rcases Nat.lt_succ_iff_lt_or_eq.mp hlt with hlt | rfl
  · exact hf e he n hn hlt
  · rw [(hq.blocked hat he hn).2] at hskip
    exact absurd ⟨hq.cursor_ne he.1, he.2.1⟩ hskip

/-- `stalled` has a slot to look at. -/
theorem recv_slotAt (hq : QInv K s) (hpc : s.recv = .slotAt l k st i) :
    QInv K { s with recv := .slotSize l k st i (s.world.sh.slots i).cursor } := by
  have hloc := hq.recv
  rw [hpc] at hloc
  obtain ⟨hat, hf⟩ := hloc
  refine hq.recv_scan (hpc ▸ rfl) (hpc ▸ rfl) rfl
    ⟨hat, fun e he n hn => ⟨hf e he n hn, ?_⟩⟩
  rintro rfl
  rw [(hq.blocked hat he hn).2]

/-- `stalled` goes on to the next slot. -/
theorem recv_nextSlot (hq : QInv K s) (hat : st.At s.world) (hmend : s.recv.mend = none)
    (hread : s.recv.isReading = false)
    (hf : ∀ e, Blocked s.world st.cursor e → ∀ n, e.slot = some n → n < i + 1 → n ∈ st.slots) :
    QInv K { s with recv := Recv.nextSlot l k st i } :=
  hq.recv_scan hmend hread (Recv.mend_nextSlot ..)
    (Recv.local_nextSlot hat (fun _ he _ hn => (hq.blocked hat he hn).1) hf)

theorem recv_skipSlot (hq : QInv K s) (hpc : s.recv = .slotAt l k st i)
    (hskip : ¬ ((s.world.sh.slots i).cursor ≠ noIntent ∧
      (s.world.sh.slots i).cursor ≤ st.cursor)) : QInv K { s with recv := Recv.nextSlot l k st i } := by
  have hloc := hq.recv
  rw [hpc] at hloc
  exact hq.recv_nextSlot hloc.1 (hpc ▸ rfl) (hpc ▸ rfl)
    fun _ he _ hn => hq.slotAt_skip hpc hskip he hn

/-- The slot of the claim that blocks the reader is among them, when it has been looked at. -/
theorem slotSize_found (hq : QInv K s) (hpc : s.recv = .slotSize l k st i cursor)
    (he : Blocked s.world st.cursor e) {n : Nat} (hn : e.slot = some n) (hlt : n < i + 1) :
    n ∈ st.slotsWith i cursor (s.world.sh.slots i).size := by
  have hloc := hq.recv
  rw [hpc] at hloc
  obtain ⟨hat, hf⟩ := hloc
  unfold Stall.slotsWith
  rcases Nat.lt_succ_iff_lt_or_eq.mp hlt with hlt | rfl
  · have hmem := (hf e he n hn).1 hlt
    split
    · exact List.mem_append_left _ hmem
    · exact hmem
  · have hcover : st.cursor < cursor + (s.world.sh.slots n).size := by
      rw [(hf e he n hn).2 rfl, (hq.blocked hat he hn).2]
      exact he.2.2.1
    rw [if_pos hcover]
    exact List.mem_append_right _ List.mem_cons_self

/-- `stalled` has found a slot that covers `head`. -/
theorem recv_covers (hq : QInv K s) (hpc : s.recv = .slotSize l k st i cursor)
    (hcover : st.cursor < cursor + (s.world.sh.slots i).size) :
    QInv K { s with recv := Recv.nextSlot l k { st with slots := st.slots ++ [i] } i } := by
  have hloc := hq.recv
  rw [hpc] at hloc
  refine hq.recv_nextSlot ⟨hloc.1.head, hloc.1.tail, hloc.1.length⟩ (hpc ▸ rfl)
    (hpc ▸ rfl) fun e he n hn hlt => ?_
  have hmem := hq.slotSize_found hpc he hn hlt
  rwa [Stall.slotsWith, if_pos hcover] at hmem

/-- The slot ends before `head`. -/
theorem recv_short (hq : QInv K s) (hpc : s.recv = .slotSize l k st i cursor)
    (hskip : ¬ st.cursor < cursor + (s.world.sh.slots i).size) :
    QInv K { s with recv := Recv.nextSlot l k st i } := by
  have hloc := hq.recv
  rw [hpc] at hloc
  refine hq.recv_nextSlot hloc.1 (hpc ▸ rfl) (hpc ▸ rfl) fun e he n hn hlt => ?_
  have hmem := hq.slotSize_found hpc he hn hlt
  rwa [Stall.slotsWith, if_neg hskip] at hmem

/-- `unstall` passes over a slot: the claim that blocks the reader is judged, or still to come. -/
theorem loadSize_skip (hq : QInv K s) {owner : Nat} (hpc : s.recv = .loadSize l k st j i rest owner cursor)
    (hskip : owner = noProc ∨ cursor = noIntent ∨ cursor > st.cursor ∨
      st.cursor ≥ cursor + (s.world.sh.slots i).size) (he : Blocked s.world st.cursor e) {n : Nat}
    (hn : e.slot = some n) : Found K s.world j e n ∨ n ∈ rest := by
  have hloc := hq.recv
  rw [hpc] at hloc
  obtain ⟨hat, hf⟩ := hloc
  refine (hf e he n hn).imp_right (fun h => h.resolve_right ?_)
  -- the slot of the claim that blocks the reader still covers `head`
  rintro ⟨rfl, rfl, rfl⟩
  have hstop : e.cursor + e.size = e.stop := rfl
  rw [(hq.blocked hat he hn).2, hstop] at hskip
  rcases hskip with h0 | h0 | h0 | h0
  · exact K.self_ne _ h0
  · exact hq.cursor_ne he.1 h0
  · exact absurd he.2.1 (not_le.mpr h0)
  · exact absurd he.2.2.1 (not_lt.mpr h0)

/-- `unstall` has loaded a slot. -/
theorem recv_loadSize (hq : QInv K s) {owner : Nat} (hpc : s.recv = .loadSize l k st j i rest owner cursor) :
    QInv K { s with recv := .judge l k st j i rest owner cursor (s.world.sh.slots i).size } := by
  have hloc := hq.recv
  rw [hpc] at hloc
  obtain ⟨hat, hf⟩ := hloc
  refine hq.recv_scan (hpc ▸ rfl) (hpc ▸ rfl) rfl ⟨hat, fun e he n hn => ?_⟩
  refine (hf e he n hn).imp_right (fun h => h.imp_right ?_)
  rintro ⟨rfl, rfl, rfl⟩
  rw [(hq.blocked hat he hn).2]
  exact ⟨rfl, rfl, rfl⟩

/-- `unstall` judges a slot of a dead process, and the verdict agrees with the earlier ones. -/
theorem recv_judge (hq : QInv K s) {owner size : Nat}
    (hpc : s.recv = .judge l k st j i rest owner cursor size) (hdead : s.world.isDead owner = true)
    (hagree : ¬ (j.dead ≠ [] ∧ cursor + size ≠ j.stop)) :
    QInv K { s with recv := Recv.nextJudge l k st ⟨j.dead ++ [i], cursor + size⟩ rest } := by
  have hloc := hq.recv
  rw [hpc] at hloc
  obtain ⟨hat, hf⟩ := hloc
  refine hq.recv_scan (hpc ▸ rfl) (hpc ▸ rfl) (Recv.mend_nextJudge ..)
    (Recv.local_nextJudge hat (fun e he n hn => ?_))
  rcases hf e he n hn with hfound | hmem | ⟨rfl, rfl, hstop⟩
  · -- an earlier verdict stands, and the new one agrees with it
    have hne : j.dead ≠ [] := List.ne_nil_of_mem hfound.mem
    have heq : cursor + size = j.stop := by
      by_contra h
      exact hagree ⟨hne, h⟩
    exact .inl ⟨List.mem_append_left _ hfound.mem, heq.trans hfound.stop, hfound.dead⟩
  · exact .inr hmem
  · unfold World.isDead at hdead
    simp only [Bool.and_eq_true, decide_eq_true_eq] at hdead
    exact .inl ⟨List.mem_append_right _ List.mem_cons_self, hstop, hdead.2⟩

/-! ### The whole receiver -/

/-- **A step of the receiver keeps the invariant.** -/
theorem step_recv (hq : QInv K s) {a : RecvAct} (hc : clearOk s (.recv a) = true)
    (hs : s.step K (.recv a) = some s') : QInv K s' := by
  obtain ⟨r, x, w, hr, hx, rfl⟩ := Sys.step_recv_eq hs
  have hloc := hq.recv
  -- a step between two places without local facts that leaves ring and slots alone
  have plain : ∀ {p : Recv} {r' : Recv} {w' : World}, s.recv = p → p.plain = true →
      p.isReading = false → r'.plain = true → w'.ring = s.world.ring →
      w'.pools = s.world.pools → w'.dead = s.world.dead →
      QInv K { s with world := w', recv := r' } := by
    rintro p r' w' rfl hp hread hr' h1 h2 h3
    exact hq.recv_plain h1 h2 h3 (Recv.plain_mend hp) hread hr'
  -- a load after which the attempt is over
  have onward : ∀ {p r' : Recv}, s.recv = p → p.mend = none → p.isReading = false → r'.plain = true →
      QInv K { s with recv := r' } := by
    rintro p r' rfl hmend hread hr'
    exact hq.recv_plain (w := s.world) rfl rfl rfl hmend hread hr'
  generalize hpc : s.recv = p at hr hloc
  cases Recv.step_rule hr with
  | read | reading => exact hq.recv_read (hpc ▸ rfl) hx
  | readDone done =>
    cases hx
    exact hq.recv_load rfl rfl rfl (hpc ▸ rfl) rfl ⟨_, done⟩ trivial
  | still | noWaiters | signal =>
    cases hx
    exact plain hpc rfl rfl (by simp) rfl rfl rfl
  | drained | readable | raced =>
    cases hx
    exact onward hpc rfl rfl (by simp)
  | stallHead =>
    cases hx
    exact hq.recv_scan (hpc ▸ rfl) (hpc ▸ rfl) rfl rfl
  | @stallTail l k head some =>
    cases hx
    obtain ⟨_, _, hpos⟩ := hq.at_head (hpc ▸ rfl)
    have hle := hq.ring.ok.pos_le
    rw [hpos] at hle
    have hhead : head = s.world.sh.head := hloc
    exact hq.recv_scan (hpc ▸ rfl) (hpc ▸ rfl) rfl
      ⟨hhead, lt_of_le_of_ne (hhead ▸ hle) some⟩
  | stallLen length =>
    cases hx
    exact hq.recv_scan (hpc ▸ rfl) (hpc ▸ rfl) rfl
      ⟨⟨hloc.1, hloc.2, not_lt.mp length⟩, fun _ _ _ _ h => absurd h (Nat.not_lt_zero _)⟩
  | slotAt =>
    cases hx
    exact hq.recv_slotAt hpc
  | skipSlot skip =>
    cases hx
    exact hq.recv_skipSlot hpc skip
  | covers cover =>
    cases hx
    exact hq.recv_covers hpc cover
  | short skip =>
    cases hx
    exact hq.recv_short hpc skip
  | loadOwner =>
    cases hx
    obtain ⟨hat, hf⟩ := hloc
    refine hq.recv_scan (hpc ▸ rfl) (hpc ▸ rfl) rfl ⟨hat, fun e he n hn => ?_⟩
    refine (hf e he n hn).imp_right (fun h => h.imp_right ?_)
    rintro rfl
    rw [(hq.blocked hat he hn).2]
    exact ⟨rfl, rfl⟩
  | loadAt =>
    cases hx
    obtain ⟨hat, hf⟩ := hloc
    refine hq.recv_scan (hpc ▸ rfl) (hpc ▸ rfl) rfl ⟨hat, fun e he n hn => ?_⟩
    refine (hf e he n hn).imp_right (fun h => h.imp_right ?_)
    rintro ⟨rfl, rfl⟩
    rw [(hq.blocked hat he hn).2]
    exact ⟨rfl, rfl, rfl⟩
  | changed skip =>
    cases hx
    exact hq.recv_scan (hpc ▸ rfl) (hpc ▸ rfl) (Recv.mend_nextJudge ..)
      (Recv.local_nextJudge hloc.1 fun e he n hn => hq.loadSize_skip hpc skip he hn)
  | spared =>
    cases hx
    exact onward hpc rfl rfl (by simp)
  | loadSize =>
    cases hx
    exact hq.recv_loadSize hpc
  | alive =>
    cases hx
    exact onward hpc rfl rfl rfl
  | disagree =>
    cases hx
    exact onward hpc rfl rfl (by simp)
  | dead dead agree =>
    cases hx
    exact hq.recv_judge hpc dead agree
  | @watch l k owner =>
    cases hx
    have hw : (s.world.watchProducer owner).ring = s.world.ring ∧
        (s.world.watchProducer owner).pools = s.world.pools ∧
        (s.world.watchProducer owner).dead = s.world.dead := by
      unfold World.watchProducer
      split
      · exact ⟨rfl, rfl, rfl⟩
      · split <;> exact ⟨rfl, rfl, rfl⟩
    exact plain hpc rfl rfl (by simp) hw.1 hw.2.1 hw.2.2
  | reclaim length =>
    cases hx
    exact hq.recv_reclaim hpc length
  | padType =>
    cases hx
    exact hq.recv_padType hpc
  | clearAt =>
    cases hx
    exact hq.recv_clear hpc (by simpa [clearOk, hpc] using hc)
  | _ =>
    cases hx
    exact plain hpc rfl rfl rfl rfl rfl rfl

/-- **Every step keeps the invariant**, when a takeover finds a passed slot and a reclaim clears no
    later intent. -/
theorem step (hq : QInv K s) {a : Act} (hok : passed s a = true ∧ clearOk s a = true)
    (hs : s.step K a = some s') : QInv K s' := by
  cases a with
  | send t a => exact hq.step_send hok.1 hs
  | close h => exact hq.step_close hs
  | drop h => exact hq.step_drop hs
  | recv a => exact hq.step_recv hok.2 hs
  | die id => exact hq.step_die hs

/-- A receiver without local facts may be put in another such place. -/
theorem replace (hq : QInv K s) (hplain : s.recv.plain = true) (hr : r.plain = true) :
    QInv K { s with recv := r } := by
  refine hq.recv_plain (w := s.world) rfl rfl rfl (Recv.plain_mend hplain) ?_ hr
  generalize s.recv = r' at hplain
  cases r' <;> first | rfl | cases hplain

end QInv

/-- **The invariant holds along every run** whose takeovers find passed slots and whose reclaims
    clear no later intent. -/
theorem inv_of_reach
    (h : (machine K).Reach (fun s a => passed s a = true ∧ clearOk s a = true) s) : QInv K s :=
  h.invariant QInv.start fun _ _ _ hq hok hs => hq.step hok hs

end GoIpc.Queue
