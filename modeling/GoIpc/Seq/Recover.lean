import GoIpc.Seq.Receive
import GoIpc.Seq.Sound

namespace GoIpc.Seq

open GoIpc.Lib
open GoIpc.Ring (Word Capacity Slot claimSlots noIntent typePadding recordHeaderSize signed
  signed_ofInt padOf lapSegment)
open GoIpc.Queue (watchable noProc Stall Judged)

/-!
# Recovery of a dead claim is exact

* `Stuck` — the claim at the head is not complete, and every slot that covers the head belongs to
  a dead process and names the same end;
* `Stuck.unstall_eq` — `unstall` turns one lap segment of it into padding;
* `Stuck.pass` — the next read passes the segment together with the records behind it;
* `Abandoned`, `Buf.died` — a claim whose producer died at any step after it took the tail;
* `receive_recovers` — **exact recovery**: the loop of `receive` passes the claim, delivers nothing
  of it, leaves its bytes zero, clears the intents of the dead slots, changes nothing else, and
  goes on with the records that follow;
* `unclaimed_at_wrap` — a claim that ends at `2^64` is not recovered.
-/

variable {C : Capacity} {P : Peers} {b : Buf}

/-! ### The covering slots -/

theorem mem_covering {c i : Nat} : i ∈ b.covering c ↔ i < claimSlots ∧ Covers (b.slots i) c := by
  simp [Buf.covering]

/-- Clearing intents changes the slots only. -/
theorem clearIntents_eq (dead : List Nat) :
    b.clearIntents dead = { b with slots := (b.clearIntents dead).slots } := by
  induction dead generalizing b with
  | nil => rfl
  | cons j dead ih => exact ih (b := b.storeAt j noIntent)

/-- Dead producers that agree on the end are all judged dead. -/
theorem judge_dead {c stop : Nat} {l : List Nat} {j : Judged}
    (hl : ∀ i ∈ l, Covers (b.slots i) c ∧ P.isDead (b.slots i).owner = true ∧
      add64 (b.slots i).cursor (b.slots i).size = stop)
    (hj : j.dead = [] ∨ j.stop = stop) :
    judge P b c l j = .dead ⟨j.dead ++ l, if l = [] then j.stop else stop⟩ := by
  induction l generalizing j with
  | nil => simp [judge]
  | cons i l ih =>
    obtain ⟨⟨hc1, hc2, hc3⟩, hdead, hstop⟩ := hl i (by simp)
    obtain ⟨hwatch, hexit⟩ := Bool.and_eq_true_iff.mp hdead
    have hnone : (b.slots i).owner ≠ noProc := by
      intro h0
      rw [h0] at hwatch
      exact absurd hwatch (by decide)
    have hme : (b.slots i).owner ≠ P.me := by
      intro h0
      rw [h0, P.alive] at hexit
      exact absurd hexit (by decide)
    rw [judge]
    simp only [hstop]
    rw [if_neg (by omega), if_neg (by simp [hme, hwatch]), if_neg (by simp [hdead]),
      if_neg (by rcases hj with h | h <;> simp [h]),
      ih (fun k hk => hl k (by simp [hk])) (.inr rfl)]
    simp

/-! ### One lap segment -/

/-- The claim at the head is not complete, its producers are dead, and they agree that it ends at
    `stop`. -/
structure Stuck (C : Capacity) (P : Peers) (b : Buf) (stop : Nat) : Prop where
  head_mod : b.head % 8 = 0
  stop_mod : stop % 8 = 0
  lt : b.head < stop
  le : stop ≤ b.tail
  lap : b.tail ≤ b.head + C.size
  word : b.tail < 2 ^ 64
  length : signed (load32 (b.tape C) b.head) ≤ 0
  named : ∃ i, i < claimSlots ∧ Covers (b.slots i) b.head
  dead : ∀ i, i < claimSlots → Covers (b.slots i) b.head →
    P.isDead (b.slots i).owner = true ∧ add64 (b.slots i).cursor (b.slots i).size = stop

/-- The buffer after one segment of the claim at the head is reclaimed. -/
def Buf.reclaimed (C : Capacity) (b : Buf) (stop : Nat) : Buf :=
  let size := lapSegment C b.head stop
  let padded := (b.storeLength (b.head % C.size) size).storeType (b.head % C.size) typePadding
  if b.head + size = stop then padded.clearIntents (b.covering b.head) else padded

namespace Stuck

variable {stop : Nat} (h : Stuck C P b stop)
include h

/-- A segment is at least a header, within the claim and within the lap. -/
theorem segment : lapSegment C b.head stop % 8 = 0 ∧ 8 ≤ lapSegment C b.head stop ∧
    b.head + lapSegment C b.head stop ≤ stop ∧
    b.head % C.size + lapSegment C b.head stop ≤ C.size := by
  have hlt := h.lt
  have hhm := h.head_mod
  have hsm := h.stop_mod
  have htm := Ring.toEnd_mod_eight C h.head_mod
  have htp := Ring.toEnd_pos C b.head
  unfold Ring.toEnd at htm htp
  unfold lapSegment
  simp only
  split <;> omega

theorem inWindow : InWindow C b b.head (lapSegment C b.head stop) := by
  obtain ⟨_, _, hle, hfits⟩ := h.segment
  have := h.le
  have := h.lap
  exact ⟨le_rfl, by omega, hfits⟩

theorem loadLength : b.loadLength (b.head % C.size) = signed (load32 (b.tape C) b.head) := by
  obtain ⟨_, h8, hle, hfits⟩ := h.segment
  have := h.le
  have := h.lap
  have hmin := C.min
  unfold Buf.loadLength Buf.tape
  rw [load32_unwrap le_rfl (by omega) (by omega)]

/-- The reclaimed segment is a padding record on the tape. -/
theorem tape_reclaimed : (b.reclaimed C stop).tape C =
    store32 (store32 (b.tape C) b.head (BitVec.ofInt 32 (lapSegment C b.head stop)))
      (b.head + 4) typePadding := by
  obtain ⟨_, h8, _, _⟩ := h.segment
  have hw := h.inWindow
  have hw' : InWindow C (b.storeLength (b.head % C.size) (lapSegment C b.head stop)) b.head
      (lapSegment C b.head stop) := ⟨hw.lo, hw.hi, hw.fits⟩
  have htape : (b.reclaimed C stop).tape C =
      ((b.storeLength (b.head % C.size) (lapSegment C b.head stop)).storeType (b.head % C.size)
        typePadding).tape C := by
    unfold Buf.reclaimed
    simp only
    split
    · rw [clearIntents_eq]
      rfl
    · rfl
  rw [htape, hw'.tape_storeType h8, hw.tape_storeLength (by omega)]

/-- **`unstall`** reclaims one lap segment. -/
theorem unstall_eq {q : Handle} (hq : q.ring = b) :
    unstall C.size P q = ({ q with ring := b.reclaimed C stop }, .ok true) := by
  subst hq
  have hne : q.ring.head ≠ q.ring.tail := by
    have := h.lt
    have := h.le
    omega
  have hlen := h.length
  obtain ⟨i, hi, hci⟩ := h.named
  have hmem : i ∈ q.ring.covering q.ring.head := mem_covering.mpr ⟨hi, hci⟩
  have hnil : q.ring.covering q.ring.head ≠ [] := List.ne_nil_of_mem hmem
  have hstall : stalled C.size q.ring = some ⟨q.ring.head,
      q.ring.loadLength (q.ring.head % C.size), q.ring.covering q.ring.head⟩ := by
    rw [stalled, if_neg hne]
    simp only [h.loadLength]
    rw [if_neg (by omega)]
  -- every slot that covers the head has a dead owner and ends at `stop`
  have hall : ∀ k ∈ q.ring.covering q.ring.head, Covers (q.ring.slots k) q.ring.head ∧
      P.isDead (q.ring.slots k).owner = true ∧
      add64 (q.ring.slots k).cursor (q.ring.slots k).size = stop := by
    intro k hk
    obtain ⟨hk, hck⟩ := mem_covering.mp hk
    exact ⟨hck, h.dead k hk hck⟩
  have hjudge : judge P q.ring q.ring.head (q.ring.covering q.ring.head) ⟨[], 0⟩ =
      .dead ⟨q.ring.covering q.ring.head, stop⟩ := by
    rw [judge_dead hall (.inl rfl), if_neg hnil]
    rfl
  have hle := h.le
  have hlt := h.lt
  have hword := h.word
  obtain ⟨_, _, hseg, _⟩ := h.segment
  have hreclaim : reclaim C.size q.ring ⟨q.ring.head, q.ring.loadLength (q.ring.head % C.size),
      q.ring.covering q.ring.head⟩ stop (q.ring.covering q.ring.head) =
        (q.ring.reclaimed C stop, true) := by
    unfold reclaim Buf.reclaimed
    simp only [sub64_of_le hlt.le (show stop < 2 ^ 64 by omega), ne_eq, not_true_eq_false, if_false]
    change (if add64 q.ring.head (lapSegment C q.ring.head stop) = stop then _ else _, true) = _
    rw [add64_of_lt (by omega)]
    rfl
  unfold unstall
  simp only [hstall, hjudge]
  rw [if_neg hnil, hreclaim]

/-- The round of `receive` goes on with the reclaimed buffer. -/
theorem resume_eq {q : Handle} (hq : q.ring = b) (gone : Bool) (again : Handle → Received) :
    resume C.size P gone again q [] none = again { q with ring := b.reclaimed C stop } := by
  rw [resume, if_neg (by simp), h.unstall_eq hq]

end Stuck

/-! ### Rounds of `receive` -/

/-- Which slots lose their intent. -/
theorem clearIntents_slots (dead : List Nat) (i : Nat) : (b.clearIntents dead).slots i =
    if i ∈ dead then { b.slots i with cursor := noIntent } else b.slots i := by
  induction dead generalizing b with
  | nil => rfl
  | cons j dead ih =>
    show ((b.storeAt j noIntent).clearIntents dead).slots i = _
    rw [ih]
    by_cases hij : i = j
    · subst hij
      simp [Buf.storeAt]
    · simp [Buf.storeAt, hij]

/-- The handle after a read that left `r`; a read that freed bytes wakes the senders. -/
def Handle.afterRead (q : Handle) (r : Buf) : Handle :=
  if r.head ≠ q.ring.head then { q with ring := r }.wakeSenders else { q with ring := r }

theorem Handle.wakeSenders_ring (q : Handle) : q.wakeSenders.ring = q.ring := by
  unfold Handle.wakeSenders
  split <;> rfl

@[simp] theorem Handle.afterRead_ring (q : Handle) (r : Buf) : (q.afterRead r).ring = r := by
  unfold Handle.afterRead
  split
  · exact Handle.wakeSenders_ring _
  · rfl

variable {reads : Nat}

/-- **A round of `receive`** on a chain of complete records. -/
theorem receive_round {q : Handle} {segs : List Seg} {stop : Nat} (gone : Bool) (limit : Int) (fuel : Nat)
    (h : Standing C q.ring segs stop) (hreads : segs.length < reads) :
    receive C.size P gone reads limit (fuel + 1) q =
      resume C.size P gone (receive C.size P gone reads limit fuel)
        (q.afterRead (readSpec C limit.toNat segs q.ring).1)
        (messages (readable limit.toNat segs)) none := by
  rw [receive, GoRing.read_eq h hreads]
  rfl

/-- Reclaiming a segment changes the data region, and with the last one the slots. -/
theorem Buf.reclaimed_eq (b : Buf) (stop : Nat) : b.reclaimed C stop =
    { b with
      data := (b.reclaimed C stop).data
      slots := if b.head + lapSegment C b.head stop = stop then
        (b.clearIntents (b.covering b.head)).slots else b.slots } := by
  have hslots : ∀ b' : Buf, b'.slots = b.slots →
      ∀ l, (b'.clearIntents l).slots = (b.clearIntents l).slots := by
    intro b' hb' l
    funext i
    rw [clearIntents_slots, clearIntents_slots, hb']
  unfold Buf.reclaimed
  simp only
  split_ifs with hlast
  · rw [← hslots ((b.storeLength (b.head % C.size) (lapSegment C b.head stop)).storeType
      (b.head % C.size) typePadding) rfl, clearIntents_eq]
    rfl
  · rfl

/-- The records behind cursor `c`, up to `stop`, where a reader stops. -/
structure Follows (C : Capacity) (b : Buf) (c : Nat) (segs : List Seg) (stop : Nat) : Prop where
  chain : Chain C.size (b.tape C) c segs stop
  le : stop ≤ b.tail
  blocked : Blocked (b.tape C) stop b.tail

/-- The buffer after the reader has passed `size` bytes at the head of `b`, made padding by it, and
    the records `passed` behind them. -/
structure Passed (C : Capacity) (b : Buf) (stop size : Nat) (passed : List Seg) (r : Buf) :
    Prop where
  eq : r = { b with
    head := b.head + size + spans passed
    data := r.data
    slots := if b.head + size = stop then (b.clearIntents (b.covering b.head)).slots else b.slots }
  tape : r.tape C = clear (b.tape C) b.head (b.head + size + spans passed)

section Pass

variable {stop stop' : Nat} {segs : List Seg} {q : Handle}

/-- The chain behind the head of the reclaimed buffer: the padding and what follows. -/
theorem Stuck.standing (h : Stuck C P b stop) (hsmall : lapSegment C b.head stop + 8 ≤ 2 ^ 31)
    (hf : Follows C b (b.head + lapSegment C b.head stop) segs stop') :
    ∃ s : Seg, s.messages = [] ∧ s.span = lapSegment C b.head stop ∧
      Standing C (b.reclaimed C stop) (s :: segs) stop' := by
  obtain ⟨hmod, h8, hle, hfits⟩ := h.segment
  have htape := h.tape_reclaimed
  have hlt := h.lt
  have hstop := h.le
  have hchain := hf.chain.le_stop
  have hstop' := hf.le
  set size := lapSegment C b.head stop with hsize
  -- the padding takes the first eight bytes of its segment
  have hkeep : ∀ x, b.head + 8 ≤ x → (b.reclaimed C stop).tape C x = b.tape C x := by
    intro x hx
    rw [htape, store32, patch_of_not_mem _ _ (by omega), store32, patch_of_not_mem _ _ (by omega)]
  have hlen : signed (load32 ((b.reclaimed C stop).tape C) b.head) = size := by
    rw [htape, load32_store32_ne _ _ (by omega), load32_store32, signed_ofInt (by omega) (by omega)]
  have htyp : load32 ((b.reclaimed C stop).tape C) (b.head + 4) = typePadding := by
    rw [htape, load32_store32]
  have hhead : (b.reclaimed C stop).head = b.head := by rw [Buf.reclaimed_eq]
  have htail : (b.reclaimed C stop).tail = b.tail := by rw [Buf.reclaimed_eq]
  refine ⟨padSeg ((b.reclaimed C stop).tape C) b.head size, padSeg_messages,
    padSeg_span h8 hmod, ?_⟩
  constructor
  · rw [hhead, htail]
    omega
  · rw [hhead, htail]
    exact h.lap
  · rw [htail]
    exact h.word
  · rw [hhead]
    exact h.head_mod
  · rw [hhead]
    refine ⟨padSeg_stored hlen htyp h8 hsmall, ?_, ?_⟩
    · rwa [padSeg_span h8 hmod]
    · rw [padSeg_span h8 hmod]
      exact hf.chain.congr fun x hx _ => (hkeep x (by omega)).symm
  · rw [htail]
    exact hstop'
  · rw [htail]
    refine hf.blocked.imp id (And.imp_right fun hl => ?_)
    rwa [load32_congr fun k _ => hkeep (stop' + k) (by omega)]

/-- **A segment of a dead claim is passed**: `unstall` makes it padding, and the next read passes it
    together with the records that follow. -/
theorem Stuck.pass {limit : Int} (h : Stuck C P q.ring stop) (gone : Bool) (fuel : Nat)
    (hsmall : lapSegment C q.ring.head stop + 8 ≤ 2 ^ 31)
    (hf : Follows C q.ring (q.ring.head + lapSegment C q.ring.head stop) segs stop') (hlimit : 0 < limit)
    (hreads : segs.length + 1 < reads) :
    ∃ q' : Handle, resume C.size P gone (receive C.size P gone reads limit (fuel + 1)) q [] none =
        resume C.size P gone (receive C.size P gone reads limit fuel) q'
          (messages (readable limit.toNat segs)) none ∧
      Passed C q.ring stop (lapSegment C q.ring.head stop) (readable limit.toNat segs) q'.ring := by
  obtain ⟨s, hnone, hspan, hs⟩ := h.standing hsmall hf
  obtain ⟨_, h8, _, _⟩ := h.segment
  have hread : readable limit.toNat (s :: segs) = s :: readable limit.toNat segs := by
    rw [readable_cons (by omega), hnone, List.length_nil, Nat.sub_zero]
  have hround := receive_round (P := P) (q := { q with ring := q.ring.reclaimed C stop }) gone limit
    fuel hs (show (s :: segs).length < reads by rw [List.length_cons]; omega)
  have htape := hs.tape_read limit.toNat
  have hhead : (q.ring.reclaimed C stop).head = q.ring.head := by rw [Buf.reclaimed_eq]
  have hspans : spans (readable limit.toNat (s :: segs)) =
      lapSegment C q.ring.head stop + spans (readable limit.toNat segs) := by
    rw [hread, spans_cons, hspan]
  rw [hhead, hspans, ← Nat.add_assoc] at htape
  refine ⟨_, by rw [h.resume_eq rfl, hround, hread, messages_cons, hnone, List.nil_append], ?_, ?_⟩
  · rw [Handle.afterRead_ring, readSpec]
    simp only [hspans, hhead, ← Nat.add_assoc]
    rw [Buf.reclaimed_eq]
  · rw [Handle.afterRead_ring, htape, h.tape_reclaimed]
    funext x
    simp only [clear, store32, patch]
    split_ifs <;> first | rfl | omega

end Pass

/-! ### Claims of one or two segments -/

/-- The claim of `aligned` bytes, with or without padding in front, that starts at the head and ends
    at `stop`: the slots that cover the head belong to dead processes and name this end, and no
    intent starts inside. -/
structure Abandoned (C : Capacity) (P : Peers) (b : Buf) (aligned stop : Nat) : Prop where
  head_mod : b.head % 8 = 0
  aligned_mod : aligned % 8 = 0
  eight_le : 8 ≤ aligned
  aligned_le : aligned ≤ C.size / 2
  stop_eq : stop = b.head + Ring.need C b.head aligned
  le : stop ≤ b.tail
  lap : b.tail ≤ b.head + C.size
  word : b.tail < 2 ^ 64
  named : ∃ i, i < claimSlots ∧ Covers (b.slots i) b.head
  dead : ∀ i, i < claimSlots → Covers (b.slots i) b.head →
    P.isDead (b.slots i).owner = true ∧ add64 (b.slots i).cursor (b.slots i).size = stop
  inside : ∀ i, i < claimSlots → (b.slots i).cursor ≠ noIntent →
    (b.slots i).cursor ≤ b.head ∨ stop ≤ (b.slots i).cursor

namespace Abandoned

variable {aligned stop stop' : Nat} {segs : List Seg} {q : Handle}

/-- The first segment: the padding of a claim that wraps, or the whole claim. -/
theorem segment_eq (h : Abandoned C P b aligned stop) : lapSegment C b.head stop =
    if Ring.toEnd C b.head < aligned then Ring.toEnd C b.head else aligned := by
  have hstop := h.stop_eq
  have hle := h.aligned_le
  unfold Ring.need at hstop
  unfold lapSegment
  change (if stop - b.head > Ring.toEnd C b.head then Ring.toEnd C b.head else stop - b.head) = _
  split_ifs at hstop ⊢ <;> omega

theorem small (h : Abandoned C P b aligned stop) : lapSegment C b.head stop + 8 ≤ 2 ^ 31 := by
  have hle := h.aligned_le
  have hmax := C.max
  have hmin := C.min
  rw [h.segment_eq]
  split_ifs <;> omega

theorem lt_stop (h : Abandoned C P b aligned stop) : b.head + 8 ≤ stop := by
  have hstop := h.stop_eq
  have h8 := h.eight_le
  rw [Ring.need_eq] at hstop
  omega

theorem stuck (h : Abandoned C P b aligned stop) (hlen : signed (load32 (b.tape C) b.head) ≤ 0) :
    Stuck C P b stop where
  head_mod := h.head_mod
  stop_mod := by
    have hstop := h.stop_eq
    have hpad := Ring.padOf_mod_eight C aligned h.head_mod
    have hmod := h.head_mod
    have hal := h.aligned_mod
    rw [Ring.need_eq] at hstop
    omega
  lt := by
    have := h.lt_stop
    omega
  le := h.le
  lap := h.lap
  word := h.word
  length := hlen
  named := h.named
  dead := h.dead

/-- A slot covers the record of a claim that wraps exactly if it covers its padding. -/
theorem covers_iff (h : Abandoned C P b aligned stop) {c i : Nat} (hi : i < claimSlots)
    (hlo : b.head ≤ c) (hhi : c < stop) : Covers (b.slots i) c ↔ Covers (b.slots i) b.head := by
  constructor
  · rintro ⟨hsome, hle, hlt⟩
    have hin := h.inside i hi hsome
    exact ⟨hsome, by omega, by omega⟩
  · intro hc
    have hend := (h.dead i hi hc).2
    obtain ⟨hsome, hle, hlt⟩ := hc
    exact ⟨hsome, by omega, by omega⟩

/-- Behind its padding a claim that wraps is a claim at the start of the data region. -/
theorem record (h : Abandoned C P b aligned stop) (hwrap : Ring.toEnd C b.head < aligned) {b' : Buf}
    (hhead : b'.head = b.head + Ring.toEnd C b.head) (htail : b'.tail = b.tail)
    (hslots : b'.slots = b.slots) : Abandoned C P b' aligned stop := by
  have hstop := h.stop_eq
  have hal := h.aligned_le
  have h8 := h.eight_le
  have hmod := Ring.toEnd_mod_eight C h.head_mod
  have hhm := h.head_mod
  have hlap := h.lap
  have hend : (b.head + Ring.toEnd C b.head) % C.size = 0 := Ring.add_toEnd_mod C b.head
  have hto : Ring.toEnd C b'.head = C.size := by
    rw [Ring.toEnd, hhead, hend, Nat.sub_zero]
  rw [Ring.need, if_pos hwrap] at hstop
  have hcover : ∀ i, i < claimSlots →
      (Covers (b'.slots i) b'.head ↔ Covers (b.slots i) b.head) := by
    intro i hi
    rw [hslots, hhead]
    exact h.covers_iff hi (by omega) (by omega)
  refine ⟨by omega, h.aligned_mod, h8, hal, ?_, htail ▸ h.le, by omega, htail ▸ h.word, ?_, ?_, ?_⟩
  · rw [Ring.need, if_neg (by omega), hhead]
    omega
  · obtain ⟨i, hi, hc⟩ := h.named
    exact ⟨i, hi, (hcover i hi).mpr hc⟩
  · intro i hi hc
    rw [hslots]
    exact h.dead i hi ((hcover i hi).mp hc)
  · intro i hi hsome
    rw [hslots] at hsome ⊢
    have := h.inside i hi hsome
    omega

/-- The record of a claim that wraps, when its padding has been passed. -/
theorem pass_record {limit : Int} {q₁ : Handle} (h : Abandoned C P q.ring aligned stop) (gone : Bool)
    (fuel : Nat) (hwrap : Ring.toEnd C q.ring.head < aligned)
    (hrec : signed (load32 (q.ring.tape C) (q.ring.head + Ring.toEnd C q.ring.head)) ≤ 0)
    (hf : Follows C q.ring stop segs stop') (hlimit : 0 < limit) (hreads : segs.length + 1 < reads)
    (hring : q₁.ring = { q.ring with
      head := q.ring.head + Ring.toEnd C q.ring.head
      data := q₁.ring.data })
    (htape : q₁.ring.tape C =
      clear (q.ring.tape C) q.ring.head (q.ring.head + Ring.toEnd C q.ring.head)) :
    ∃ q' : Handle, resume C.size P gone (receive C.size P gone reads limit (fuel + 1)) q₁ [] none =
        resume C.size P gone (receive C.size P gone reads limit fuel) q'
          (messages (readable limit.toNat segs)) none ∧
      Passed C q.ring stop (stop - q.ring.head) (readable limit.toNat segs) q'.ring := by
  have hhead : q₁.ring.head = q.ring.head + Ring.toEnd C q.ring.head := by rw [hring]
  have htail : q₁.ring.tail = q.ring.tail := by rw [hring]
  have hslots : q₁.ring.slots = q.ring.slots := by rw [hring]
  have h₁ := h.record hwrap hhead htail hslots
  have hstop := h.stop_eq
  have h8 := h.eight_le
  rw [Ring.need, if_pos hwrap] at hstop
  -- behind the padding the ring is as it was
  have hkeep : ∀ x, q₁.ring.head ≤ x → q₁.ring.tape C x = q.ring.tape C x := by
    intro x hx
    rw [htape, clear, patch_of_not_mem _ _ (by omega)]
  have hseg : lapSegment C q₁.ring.head stop = aligned := by
    have hto : Ring.toEnd C q₁.ring.head = C.size := by
      rw [Ring.toEnd, hhead, Ring.add_toEnd_mod, Nat.sub_zero]
    have := h.aligned_le
    rw [h₁.segment_eq, if_neg (by omega)]
  have hlen : signed (load32 (q₁.ring.tape C) q₁.ring.head) ≤ 0 := by
    rwa [load32_congr fun k _ => hkeep (q₁.ring.head + k) (by omega), hhead]
  have hf₁ : Follows C q₁.ring (q₁.ring.head + lapSegment C q₁.ring.head stop) segs stop' := by
    have hle := hf.chain.le_stop
    rw [hseg, show q₁.ring.head + aligned = stop by omega]
    refine ⟨hf.chain.congr fun x hx _ => (hkeep x (by omega)).symm, by rw [htail]; exact hf.le, ?_⟩
    rw [htail]
    refine hf.blocked.imp id (And.imp_right fun hl => ?_)
    rwa [load32_congr fun k _ => hkeep (stop' + k) (by omega)]
  -- the record now stands at the head and stalls the reader by itself
  obtain ⟨q', hresume, hpassed⟩ := (h₁.stuck hlen).pass gone fuel h₁.small hf₁ hlimit hreads
  refine ⟨q', hresume, ?_, ?_⟩
  · have hcleared : (q₁.ring.clearIntents (q₁.ring.covering q₁.ring.head)).slots =
        (q.ring.clearIntents (q.ring.covering q.ring.head)).slots := by
      funext i
      have hmem : i ∈ q₁.ring.covering q₁.ring.head ↔ i ∈ q.ring.covering q.ring.head := by
        rw [mem_covering, mem_covering, hslots, hhead]
        exact and_congr_right fun hi => h.covers_iff hi (by omega) (by omega)
      simp only [clearIntents_slots, hmem, hslots]
    have heq := hpassed.eq
    rw [hseg, if_pos (by omega), hcleared,
      show q₁.ring.head + aligned = q.ring.head + (stop - q.ring.head) by omega] at heq
    rw [if_pos (by omega)]
    refine heq.trans ?_
    generalize (q.ring.clearIntents (q.ring.covering q.ring.head)).slots = slots
    rw [hring]
  · rw [hpassed.tape, htape, hseg, hhead]
    funext x
    simp only [clear, patch]
    split_ifs <;> first | rfl | omega

/-- **A dead claim without a complete header is passed**, in one segment or in two. -/
theorem pass {limit : Int} (h : Abandoned C P q.ring aligned stop) (gone : Bool) (fuel : Nat)
    (hopen : signed (load32 (q.ring.tape C) q.ring.head) ≤ 0)
    (hrec : Ring.toEnd C q.ring.head < aligned →
      signed (load32 (q.ring.tape C) (q.ring.head + Ring.toEnd C q.ring.head)) ≤ 0)
    (hf : Follows C q.ring stop segs stop') (hlimit : 0 < limit) (hreads : segs.length + 1 < reads) :
    ∃ (k : Nat) (q' : Handle), fuel ≤ k ∧
      resume C.size P gone (receive C.size P gone reads limit (fuel + 2)) q [] none =
        resume C.size P gone (receive C.size P gone reads limit k) q'
          (messages (readable limit.toNat segs)) none ∧
      Passed C q.ring stop (stop - q.ring.head) (readable limit.toNat segs) q'.ring := by
  have hstuck := h.stuck hopen
  have hsmall := h.small
  have hseg := h.segment_eq
  have hstop := h.stop_eq
  unfold Ring.need at hstop
  split_ifs at hseg hstop with hwrap
  · -- two segments: the padding, then the record
    have h8 := h.eight_le
    have hle := h.le
    have hmid : Follows C q.ring (q.ring.head + lapSegment C q.ring.head stop) []
        (q.ring.head + Ring.toEnd C q.ring.head) := by
      rw [hseg]
      exact ⟨rfl, by omega, .inr ⟨by omega, hrec hwrap⟩⟩
    obtain ⟨q₁, hresume, hpassed⟩ := hstuck.pass gone (fuel + 1) hsmall hmid hlimit
      (show 0 + 1 < reads by omega)
    rw [readable_nil, hseg] at hpassed
    have heq := hpassed.eq
    rw [spans_nil, Nat.add_zero, if_neg (by omega)] at heq
    have htape := hpassed.tape
    rw [spans_nil, Nat.add_zero] at htape
    obtain ⟨q', hresume', hpassed'⟩ := h.pass_record gone fuel hwrap (hrec hwrap) hf hlimit
      hreads heq htape
    refine ⟨fuel, q', le_rfl, ?_, hpassed'⟩
    rw [hresume, readable_nil, messages_nil]
    exact hresume'
  · have hsize : lapSegment C q.ring.head stop = stop - q.ring.head := by omega
    have hf' : Follows C q.ring (q.ring.head + lapSegment C q.ring.head stop) segs stop' := by
      rwa [hseg, ← hstop]
    obtain ⟨q', hresume, hpassed⟩ := hstuck.pass gone (fuel + 1) hsmall hf' hlimit hreads
    rw [hsize] at hpassed
    exact ⟨fuel + 1, q', Nat.le_succ fuel, hresume, hpassed⟩

/-- **A dead claim whose padding is complete is passed**: the read before takes the padding. -/
theorem pass_padded {limit : Int} (h : Abandoned C P q.ring aligned stop) (gone : Bool) (fuel : Nat)
    (hwrap : Ring.toEnd C q.ring.head < aligned)
    (hlen : signed (load32 (q.ring.tape C) q.ring.head) = Ring.toEnd C q.ring.head)
    (htyp : load32 (q.ring.tape C) (q.ring.head + 4) = typePadding)
    (hrec : signed (load32 (q.ring.tape C) (q.ring.head + Ring.toEnd C q.ring.head)) ≤ 0)
    (hf : Follows C q.ring stop segs stop') (hlimit : 0 < limit) (hreads : segs.length + 1 < reads) :
    ∃ q' : Handle, receive C.size P gone reads limit (fuel + 2) q =
        resume C.size P gone (receive C.size P gone reads limit fuel) q'
          (messages (readable limit.toNat segs)) none ∧
      Passed C q.ring stop (stop - q.ring.head) (readable limit.toNat segs) q'.ring := by
  have hmod := Ring.toEnd_mod_eight C h.head_mod
  have hpos := Ring.toEnd_pos C q.ring.head
  have hstop := h.stop_eq
  have hal := h.aligned_le
  have h8 := h.eight_le
  have hle := h.le
  have hmax := C.max
  rw [Ring.need, if_pos hwrap] at hstop
  have hto : 8 ≤ Ring.toEnd C q.ring.head := by omega
  set pad := padSeg (q.ring.tape C) q.ring.head (Ring.toEnd C q.ring.head) with hpad
  have hspan : pad.span = Ring.toEnd C q.ring.head := padSeg_span hto hmod
  have hstanding : Standing C q.ring [pad] (q.ring.head + Ring.toEnd C q.ring.head) := by
    refine ⟨by omega, h.lap, h.word, h.head_mod, ⟨padSeg_stored hlen htyp hto (by omega), ?_, ?_⟩,
      by omega, .inr ⟨by omega, hrec⟩⟩
    · rw [hspan]
      have := Nat.mod_lt q.ring.head (show 0 < C.size by omega)
      unfold Ring.toEnd
      omega
    · rw [hspan]
      rfl
  have hread : readable limit.toNat [pad] = [pad] := by
    rw [readable_cons (by omega), readable_nil]
  have htape := hstanding.tape_read limit.toNat
  have hround := receive_round (P := P) gone limit (fuel + 1) hstanding
    (show [pad].length < reads by simp; omega)
  rw [hread] at htape hround
  simp only [spans_cons, spans_nil, hspan, Nat.add_zero] at htape
  rw [messages_cons, hpad, padSeg_messages, messages_nil, List.nil_append, ← hpad] at hround
  rw [hround]
  refine h.pass_record gone fuel hwrap hrec hf hlimit hreads ?_ ?_
  · rw [Handle.afterRead_ring, readSpec]
    simp only [hread, spans_cons, spans_nil, hspan, Nat.add_zero]
  · rwa [Handle.afterRead_ring]

end Abandoned

/-! ### Where the producer died -/

/-- The steps of a producer behind its compare-and-swap on the tail: how far it came. -/
inductive DeathPoint
  | nothing
  | paddingType
  | padding
  | recordType
  /-- The header with its negative length, and anything in the place of the payload. -/
  | header (payload : Nat → UInt8)

section Stores

variable (C : Capacity) (b : Buf) (typ : Word) (recordLen : Nat)

/-- `n` bytes from `idx` on are anything. -/
def Buf.scribble (idx n : Nat) (g : Nat → UInt8) : Buf := { b with data := patch b.data idx n g }

/-- The claim at the head has padding in front of its record. -/
def Buf.wraps : Bool := Ring.need C b.head (Ring.align recordLen) ≠ Ring.align recordLen

/-- The padding record of the claim, complete. -/
def Buf.padded : Buf :=
  if b.wraps C recordLen then b.padRecord (b.head % C.size) (C.size - b.head % C.size) else b

/-- The index of the record. -/
def Buf.recordIndex : Nat := if b.wraps C recordLen then 0 else b.head % C.size

/-- The claim of `recordLen` bytes at the head of `b`, as its producer left it. -/
def Buf.died : DeathPoint → Buf
  | .nothing => b
  | .paddingType => if b.wraps C recordLen then b.storeType (b.head % C.size) typePadding else b
  | .padding => b.padded C recordLen
  | .recordType => (b.padded C recordLen).storeType (b.recordIndex C recordLen) typ
  | .header payload =>
      ((b.padded C recordLen).openRecord (b.recordIndex C recordLen) typ recordLen).scribble
        (b.recordIndex C recordLen + recordHeaderSize) (recordLen - recordHeaderSize) payload

end Stores

section Death

variable {recordLen stop : Nat} {typ : Word}

theorem InWindow.tape_scribble {c n k : Nat} (h : InWindow C b c n) (g : Nat → UInt8)
    (hn : recordHeaderSize + k ≤ n) :
    (b.scribble (c % C.size + recordHeaderSize) k g).tape C =
      patch (b.tape C) (c + recordHeaderSize) k g := by
  have := h.hi
  have := h.fits
  show unwrap 0 C.size b.head (patch b.data (c % C.size + recordHeaderSize) k g) = _
  exact unwrap_patch_add _ h.lo (by omega) (by omega)

theorem Buf.padded_fields (C : Capacity) (b : Buf) (recordLen : Nat) :
    (b.padded C recordLen).head = b.head ∧ (b.padded C recordLen).tail = b.tail ∧
    (b.padded C recordLen).slots = b.slots := by
  unfold Buf.padded
  split <;> exact ⟨rfl, rfl, rfl⟩

/-- The cursors and the slots stay. -/
theorem Buf.died_fields (C : Capacity) (b : Buf) (typ : Word) (recordLen : Nat) (d : DeathPoint) :
    (b.died C typ recordLen d).head = b.head ∧ (b.died C typ recordLen d).tail = b.tail ∧
    (b.died C typ recordLen d).slots = b.slots := by
  cases d with
  | nothing => exact ⟨rfl, rfl, rfl⟩
  | paddingType =>
    rw [Buf.died]
    split <;> exact ⟨rfl, rfl, rfl⟩
  | padding => exact b.padded_fields C recordLen
  | recordType => exact b.padded_fields C recordLen
  | header payload =>
    obtain ⟨hhead, htail, hslots⟩ := b.padded_fields C recordLen
    rw [Buf.died, Buf.scribble, Buf.openRecord, Buf.storeLength, Buf.storeType]
    exact ⟨hhead, htail, hslots⟩

/-- What a reader finds of a claim at cursor `a`: no complete header, or the padding of a claim that
    wraps and no complete header behind it. -/
inductive Remains (C : Capacity) (T : Mem) (a aligned : Nat) : Prop
  | bare (head : signed (load32 T a) ≤ 0)
      (record : Ring.toEnd C a < aligned → signed (load32 T (a + Ring.toEnd C a)) ≤ 0)
  | padded (wraps : Ring.toEnd C a < aligned) (length : signed (load32 T a) = Ring.toEnd C a)
      (typ : load32 T (a + 4) = typePadding) (record : signed (load32 T (a + Ring.toEnd C a)) ≤ 0)

theorem Buf.wraps_iff (b : Buf) :
    b.wraps C recordLen = true ↔ Ring.toEnd C b.head < Ring.align recordLen := by
  have hpos := Ring.toEnd_pos C b.head
  unfold Buf.wraps Ring.need
  split_ifs <;> simp <;> omega

namespace Abandoned

variable (h : Abandoned C P b (Ring.align recordLen) stop)
include h

/-- The cursors of a claim: its start, its record and its end. -/
theorem cursors : stop = b.head + padOf C b.head (Ring.align recordLen) + Ring.align recordLen ∧
    (Ring.toEnd C b.head < Ring.align recordLen →
      padOf C b.head (Ring.align recordLen) = Ring.toEnd C b.head ∧ 8 ≤ Ring.toEnd C b.head) ∧
    (¬ Ring.toEnd C b.head < Ring.align recordLen → padOf C b.head (Ring.align recordLen) = 0) := by
  have hstop := h.stop_eq
  have hpos := Ring.toEnd_pos C b.head
  have hmod := Ring.toEnd_mod_eight C h.head_mod
  rw [Ring.need_eq] at hstop
  refine ⟨by omega, fun hwrap => ⟨if_pos hwrap, by omega⟩, fun hwrap => if_neg hwrap⟩

/-- The padding on the tape. -/
theorem tape_padded : (b.padded C recordLen).tape C =
    if Ring.toEnd C b.head < Ring.align recordLen then
      store32 (store32 (b.tape C) (b.head + 4) typePadding) b.head
        (BitVec.ofInt 32 (Ring.toEnd C b.head : Nat))
    else b.tape C := by
  obtain ⟨hstop, hto, -⟩ := h.cursors
  have hle := h.le
  have hlap := h.lap
  have hfits := Ring.pad_fits C b.head (Ring.align recordLen)
  unfold Buf.padded
  by_cases hwrap : Ring.toEnd C b.head < Ring.align recordLen
  · obtain ⟨hpad, h8⟩ := hto hwrap
    have hw : InWindow C b b.head (Ring.toEnd C b.head) := ⟨le_rfl, by omega, by omega⟩
    rw [if_pos (b.wraps_iff.mpr hwrap), if_pos hwrap]
    exact hw.tape_header h8 typePadding (Ring.toEnd C b.head : Nat)
  · rw [if_neg (mt b.wraps_iff.mp hwrap), if_neg hwrap]

/-- The record of the claim, as a window of the buffer behind its padding. -/
theorem inWindow_record {b' : Buf} (hhead : b'.head = b.head) :
    InWindow C b' (b.head + padOf C b.head (Ring.align recordLen)) (Ring.align recordLen) ∧
      b.recordIndex C recordLen = (b.head + padOf C b.head (Ring.align recordLen)) % C.size := by
  obtain ⟨hstop, hto, hnone⟩ := h.cursors
  have hle := h.le
  have hlap := h.lap
  have hal := h.aligned_le
  refine ⟨⟨by omega, by omega, Ring.record_fits C (by omega)⟩, ?_⟩
  unfold Buf.recordIndex
  by_cases hwrap : Ring.toEnd C b.head < Ring.align recordLen
  · rw [if_pos (b.wraps_iff.mpr hwrap), (hto hwrap).1, Ring.add_toEnd_mod]
  · rw [if_neg (mt b.wraps_iff.mp hwrap), hnone hwrap, Nat.add_zero]

/-- A claim that was left behind its padding, on any tape that agrees with the padded one up to the
    record. -/
theorem remains_of_padded {T : Mem}
    (hT : ∀ c, c < b.head + padOf C b.head (Ring.align recordLen) →
      T c = (b.padded C recordLen).tape C c)
    (hrec : signed (load32 T (b.head + padOf C b.head (Ring.align recordLen))) ≤ 0) :
    Remains C T b.head (Ring.align recordLen) := by
  obtain ⟨hstop, hto, hnone⟩ := h.cursors
  by_cases hwrap : Ring.toEnd C b.head < Ring.align recordLen
  · obtain ⟨hpad, h8⟩ := hto hwrap
    have hal := h.aligned_le
    have hmax := C.max
    rw [h.tape_padded, if_pos hwrap] at hT
    rw [hpad] at hT hrec
    refine .padded hwrap ?_ ?_ hrec
    · rw [load32_congr fun k _ => hT (b.head + k) (by omega), load32_store32,
        signed_ofInt (by omega) (by omega)]
    · rw [load32_congr fun k _ => hT (b.head + 4 + k) (by omega), load32_store32_ne _ _ (by omega),
        load32_store32]
  · rw [hnone hwrap, Nat.add_zero] at hrec
    exact .bare hrec fun hw => absurd hw hwrap

/-- **What a dead producer left**: no complete record inside its claim, and nothing outside. -/
theorem remains (typ : Word) (hlen : 8 ≤ recordLen)
    (hfresh : ∀ c, b.head ≤ c → c < stop → b.tape C c = 0) (d : DeathPoint) :
    Remains C ((b.died C typ recordLen d).tape C) b.head (Ring.align recordLen) ∧
      ∀ c, stop ≤ c → (b.died C typ recordLen d).tape C c = b.tape C c := by
  obtain ⟨hstop, hto, hnone⟩ := h.cursors
  have h8 := h.eight_le
  have hal := h.aligned_le
  have hmax := C.max
  have halign : recordLen ≤ Ring.align recordLen := Ring.le_align _
  obtain ⟨hhead, htail, hslots⟩ := b.padded_fields C recordLen
  obtain ⟨hwin, hidx⟩ := h.inWindow_record hhead
  set r := b.head + padOf C b.head (Ring.align recordLen) with hr
  have hpadded := h.tape_padded
  -- the padding does not reach the record
  have hkeep : ∀ c, r ≤ c → (b.padded C recordLen).tape C c = b.tape C c := by
    intro c hc
    rw [hpadded]
    split_ifs with hwrap
    · have := hto hwrap
      rw [store32, patch_of_not_mem _ _ (by omega), store32, patch_of_not_mem _ _ (by omega)]
    · rfl
  have hzero : signed (load32 ((b.padded C recordLen).tape C) r) ≤ 0 := by
    rw [load32_zero _ fun k hk =>
      (hkeep (r + k) (by omega)).trans (hfresh (r + k) (by omega) (by omega))]
    decide
  have hbare : ∀ c, b.head ≤ c → c + 4 ≤ stop → signed (load32 (b.tape C) c) ≤ 0 := by
    intro c h1 h2
    rw [load32_zero _ fun k hk => hfresh (c + k) (by omega) (by omega)]
    decide
  cases d with
  | nothing =>
    refine ⟨.bare (hbare _ (le_refl _) (by omega)) fun hwrap => ?_, fun _ _ => rfl⟩
    have := hto hwrap
    exact hbare _ (by omega) (by omega)
  | paddingType =>
    by_cases hwrap : Ring.toEnd C b.head < Ring.align recordLen
    · obtain ⟨hpad, hto8⟩ := hto hwrap
      have hfits := Ring.pad_fits C b.head (Ring.align recordLen)
      have hle := h.le
      have hlap := h.lap
      have hw : InWindow C b b.head (Ring.toEnd C b.head) := ⟨le_rfl, by omega, by omega⟩
      have htape : (b.died C typ recordLen .paddingType).tape C =
          store32 (b.tape C) (b.head + 4) typePadding := by
        rw [Buf.died, if_pos (b.wraps_iff.mpr hwrap)]
        exact hw.tape_storeType hto8 typePadding
      rw [htape]
      refine ⟨.bare ?_ fun _ => ?_, fun c hc => ?_⟩
      · rw [load32_store32_ne _ _ (by omega)]
        exact hbare _ (le_refl _) (by omega)
      · rw [load32_store32_ne _ _ (by omega)]
        exact hbare _ (by omega) (by omega)
      · rw [store32, patch_of_not_mem _ _ (by omega)]
    · rw [Buf.died, if_neg (mt b.wraps_iff.mp hwrap)]
      exact ⟨.bare (hbare _ (le_refl _) (by omega)) fun hw => absurd hw hwrap, fun _ _ => rfl⟩
  | padding => exact ⟨h.remains_of_padded (fun _ _ => rfl) hzero, fun c hc => hkeep c (by omega)⟩
  | recordType =>
    have htape : (b.died C typ recordLen .recordType).tape C =
        store32 ((b.padded C recordLen).tape C) (r + 4) typ := by
      rw [Buf.died, hidx]
      exact hwin.tape_storeType h8 typ
    rw [htape]
    refine ⟨h.remains_of_padded (fun c hc => ?_) ?_, fun c hc => ?_⟩
    · rw [store32, patch_of_not_mem _ _ (by omega)]
    · rwa [load32_store32_ne _ _ (by omega)]
    · rw [store32, patch_of_not_mem _ _ (by omega)]
      exact hkeep c (by omega)
  | header payload =>
    have htape : (b.died C typ recordLen (.header payload)).tape C =
        patch (store32 (store32 ((b.padded C recordLen).tape C) (r + 4) typ) r
          (BitVec.ofInt 32 (-recordLen))) (r + recordHeaderSize) (recordLen - recordHeaderSize)
          payload := by
      rw [Buf.died, hidx]
      have hopened : InWindow C ((b.padded C recordLen).openRecord (r % C.size) typ recordLen) r
          (Ring.align recordLen) := ⟨hwin.lo, hwin.hi, hwin.fits⟩
      rw [hopened.tape_scribble payload (by unfold recordHeaderSize; omega)]
      exact congrArg (fun T => patch T _ _ payload) (hwin.tape_header h8 typ (-recordLen))
    rw [htape]
    unfold recordHeaderSize
    refine ⟨h.remains_of_padded (fun c hc => ?_) ?_, fun c hc => ?_⟩
    · rw [patch_of_not_mem _ _ (by omega), store32, patch_of_not_mem _ _ (by omega), store32,
        patch_of_not_mem _ _ (by omega)]
    · rw [load32_patch _ _ (by omega), load32_store32, signed_ofInt (by omega) (by omega)]
      omega
    · rw [patch_of_not_mem _ _ (by omega), store32, patch_of_not_mem _ _ (by omega), store32,
        patch_of_not_mem _ _ (by omega)]
      exact hkeep c (by omega)

end Abandoned

end Death

/-! ### Recovery -/

/-- A read that delivers nothing passes every record there is. -/
theorem readable_of_messages_nil {n : Nat} {segs : List Seg} (hn : 0 < n)
    (h : messages (readable n segs) = []) : readable n segs = segs := by
  induction segs with
  | nil => exact readable_nil n
  | cons s segs ih =>
    rw [readable_cons hn] at h ⊢
    rw [messages_cons] at h
    obtain ⟨hs, hrest⟩ := List.append_eq_nil_iff.mp h
    rw [hs, List.length_nil, Nat.sub_zero] at hrest ⊢
    rw [ih hrest]

/-- The end of `receive`: with messages, or at the tail. -/
theorem resume_done {q : Handle} {out : List Message} (gone : Bool) (again : Handle → Received)
    (h : out ≠ [] ∨ q.ring.head = q.ring.tail) : resume C.size P gone again q out none =
      some (q, out, if out = [] then some (if gone then .peerGone else .empty) else none) := by
  unfold resume
  by_cases hout : out = []
  · subst hout
    have htail := h.resolve_left fun h => h rfl
    rw [if_neg (by simp), if_pos rfl]
    simp only [unstall, stalled, if_pos htail]
  · rw [if_pos (.inr hout), if_neg hout]

/-- The claim does not depend on the data region. -/
theorem Abandoned.of_fields {b' : Buf} {aligned stop : Nat} (h : Abandoned C P b aligned stop)
    (hhead : b'.head = b.head) (htail : b'.tail = b.tail) (hslots : b'.slots = b.slots) :
    Abandoned C P b' aligned stop := by
  refine ⟨?_, h.aligned_mod, h.eight_le, h.aligned_le, ?_, ?_, ?_, ?_, ?_, ?_, ?_⟩ <;>
    simp only [hhead, htail, hslots]
  · exact h.head_mod
  · exact h.stop_eq
  · exact h.le
  · exact h.lap
  · exact h.word
  · exact h.named
  · exact h.dead
  · exact h.inside

/-- Whatever is left of a dead claim, `receive` comes to the end of it. -/
theorem Abandoned.receive_passes {aligned stop stop' : Nat} {segs : List Seg} {q : Handle} {limit : Int}
    (h : Abandoned C P q.ring aligned stop) (hrem : Remains C (q.ring.tape C) q.ring.head aligned)
    (hf : Follows C q.ring stop segs stop') (hlimit : 0 < limit) (hreads : segs.length + 1 < reads)
    (gone : Bool) (fuel : Nat) :
    ∃ (k : Nat) (q' : Handle), fuel ≤ k ∧ receive C.size P gone reads limit (fuel + 3) q =
        resume C.size P gone (receive C.size P gone reads limit k) q'
          (messages (readable limit.toNat segs)) none ∧
      Passed C q.ring stop (stop - q.ring.head) (readable limit.toNat segs) q'.ring := by
  cases hrem with
  | bare head record =>
    have hstop := h.lt_stop
    have hle := h.le
    have hstanding : Standing C q.ring [] q.ring.head :=
      ⟨by omega, h.lap, h.word, h.head_mod, rfl, by omega, .inr ⟨by omega, head⟩⟩
    have hsame : q.afterRead (readSpec C limit.toNat [] q.ring).1 = q := by
      rw [readSpec]
      simp only [readable_nil, spans_nil, Nat.add_zero, wipe]
      exact if_neg fun h => h rfl
    have hround := receive_round (P := P) gone limit (fuel + 2) hstanding (show 0 < reads by omega)
    rw [hsame, readable_nil, messages_nil] at hround
    rw [hround]
    exact h.pass gone fuel head record hf hlimit hreads
  | padded wraps length typ record =>
    obtain ⟨q', hreceive, hpassed⟩ :=
      h.pass_padded gone (fuel + 1) wraps length typ record hf hlimit hreads
    exact ⟨fuel + 1, q', Nat.le_succ fuel, hreceive, hpassed⟩

/-- **Recovery of a dead claim is exact.**  Wherever its producer died after it took the tail,
    `receive` passes the claim and the records behind it in at most three reads: it hands on the
    messages of those records and nothing of the claim, leaves the bytes it passed zero and all
    others as they were, and clears the intents of the dead slots and no others.  With a message,
    or at the tail, it returns. -/
theorem receive_recovers {recordLen stop stop' reads : Nat} {typ : Word} {segs : List Seg}
    {q : Handle} {limit : Int} (h : Abandoned C P b (Ring.align recordLen) stop)
    (hlen : recordHeaderSize ≤ recordLen) (hfresh : ∀ c, b.head ≤ c → c < stop → b.tape C c = 0)
    (d : DeathPoint) (hq : q.ring = b.died C typ recordLen d) (hf : Follows C b stop segs stop')
    (hlimit : 0 < limit) (hreads : segs.length + 1 < reads) (gone : Bool) (fuel : Nat) :
    ∃ (k : Nat) (q' : Handle), fuel ≤ k ∧
      receive C.size P gone reads limit (fuel + 3) q =
        resume C.size P gone (receive C.size P gone reads limit k) q'
          (messages (readable limit.toNat segs)) none ∧
      (messages (readable limit.toNat segs) ≠ [] ∨ stop' = b.tail →
        receive C.size P gone reads limit (fuel + 3) q =
          some (q', messages (readable limit.toNat segs),
            if messages (readable limit.toNat segs) = [] then
              some (if gone then .peerGone else .empty) else none)) ∧
      q'.ring.head = stop + spans (readable limit.toNat segs) ∧ q'.ring.tail = b.tail ∧
      (∀ c, b.head ≤ c → c < q'.ring.head → q'.ring.data (c % C.size) = 0) ∧
      (∀ c, q'.ring.head ≤ c → c < b.head + C.size →
        q'.ring.data (c % C.size) = b.data (c % C.size)) ∧
      ∀ i, i < claimSlots → q'.ring.slots i =
        if Covers (b.slots i) b.head then { b.slots i with cursor := noIntent } else b.slots i := by
  obtain ⟨hhead, htail, hslots⟩ := b.died_fields C typ recordLen d
  obtain ⟨hrem, hout⟩ := h.remains typ hlen hfresh d
  rw [← hq] at hhead htail hslots hrem hout
  rw [← hhead] at hrem
  have h' := h.of_fields hhead htail hslots
  have hlt := h'.lt_stop
  have hchain := hf.chain.le_stop
  have hstop' := hf.chain.stop_eq
  have hle := hf.le
  have hlap := h.lap
  have hf' : Follows C q.ring stop segs stop' := by
    refine ⟨hf.chain.congr fun x hx _ => (hout x hx).symm, by rw [htail]; exact hf.le, ?_⟩
    rw [htail]
    refine hf.blocked.imp id (And.imp_right fun hl => ?_)
    rwa [load32_congr fun k _ => hout (stop' + k) (by omega)]
  obtain ⟨k, q', hk, hreceive, hpassed⟩ := h'.receive_passes hrem hf' hlimit hreads gone fuel
  have hspans := spans_readable_le limit.toNat segs
  have hring := hpassed.eq
  have htape := hpassed.tape
  rw [show q.ring.head + (stop - q.ring.head) = stop by omega] at hring htape
  have hhead' : q'.ring.head = stop + spans (readable limit.toNat segs) := by rw [hring]
  have htail' : q'.ring.tail = b.tail := by rw [hring, ← htail]
  have hslots' : q'.ring.slots = (q.ring.clearIntents (q.ring.covering q.ring.head)).slots := by
    rw [hring, if_pos rfl]
  refine ⟨k, q', hk, hreceive, fun hmore => ?_, hhead', htail', fun c h1 h2 => ?_,
    fun c h1 h2 => ?_, fun i hi => ?_⟩
  · rw [hreceive]
    refine resume_done gone _ ?_
    by_cases hnone : messages (readable limit.toNat segs) = []
    · -- nothing to deliver: the reader has passed every record, up to the tail
      have hend := hmore.resolve_left fun h => h hnone
      rw [readable_of_messages_nil (by omega) hnone] at hhead'
      exact .inr (by rw [hhead', htail', ← hend, hstop'])
    · exact .inl hnone
  · -- one lap further on the byte is behind the old window
    have hc : q'.ring.tape C (c + C.size) = q'.ring.data (c % C.size) := by
      rw [Buf.tape, unwrap_of_mem (by omega) (by omega), Nat.add_mod_right]
    rw [← hc, htape, clear, patch_of_not_mem _ _ (by omega), Buf.tape, unwrap_of_not_mem (by omega)]
  · have hc : q'.ring.tape C c = q'.ring.data (c % C.size) := by
      rw [Buf.tape, unwrap_of_mem h1 (by omega)]
    rw [← hc, htape, clear, patch_of_not_mem _ _ (by omega), hout c (by omega), Buf.tape,
      unwrap_of_mem (by omega) h2]
  · rw [hslots', clearIntents_slots, hslots, hhead]
    simp only [mem_covering, hslots, hi, true_and]

/-- The receiver's process and one that has exited. -/
def exitedPeer : Peers := ⟨1, fun id => id = 0x8000000000000000, rfl⟩

/-- A claim of the exited process at `head`, and behind it what `data` holds. -/
def claimLeft (head size tail : Nat) (data : Mem) : Buf where
  magic := ringMagic
  version := ringVersion
  flags := 0
  capacity := minCapacity
  consumer := 1
  tail := tail
  head := head
  headCache := head
  recvWaiters := 0
  sendWaiters := 0
  slots i := if i = 0 then ⟨0x8000000000000000, head, size⟩ else ⟨noProc, noIntent, 0⟩
  data := data

/-- A claim of 28 bytes that wraps, dead in the middle of its payload, and a message behind it. -/
def wrappedLeft : Buf :=
  claimLeft 4080 48 4144 fun i =>
    if i = 32 then 9 else if i = 36 then 3 else if i = 40 then 7 else 0

theorem receive_recovers_wrapped : ∃ q' : Handle,
    receive 4096 exitedPeer false 3 1 3
        ⟨wrappedLeft.died .smallest 5 28 (.header fun _ => 255), 0, []⟩ =
      some (q', [(3, [7])], none) ∧ q'.ring.head = 4144 := by
  have hslot : ∀ i, Covers (wrappedLeft.slots i) 4080 → i = 0 := by
    intro i hi
    by_contra hne
    rw [wrappedLeft, claimLeft] at hi
    simp only [if_neg hne] at hi
    exact hi.1 rfl
  have habandoned : Abandoned .smallest exitedPeer wrappedLeft (Ring.align 28) 4128 := by
    refine ⟨rfl, rfl, by decide, by decide, rfl, by decide, by decide, by decide,
      ⟨0, by decide, by decide⟩, fun i _ hc => ?_, fun i _ hc => ?_⟩
    · rw [hslot i hc]
      exact ⟨by decide, by decide⟩
    · refine .inl ?_
      by_cases h0 : i = 0
      · rw [h0]
        exact le_rfl
      · exact absurd (show (wrappedLeft.slots i).cursor = noIntent by
          simp only [wrappedLeft, claimLeft, if_neg h0]) hc
  have hfresh : ∀ c, wrappedLeft.head ≤ c → c < 4128 → wrappedLeft.tape .smallest c = 0 := by
    intro c h1 h2
    have hhead : wrappedLeft.head = 4080 := rfl
    have hsize : Capacity.smallest.size = 4096 := rfl
    rw [Buf.tape, unwrap_of_mem h1 (by omega), hsize]
    simp only [wrappedLeft, claimLeft]
    rw [if_neg (by omega), if_neg (by omega), if_neg (by omega)]
  have hf : Follows .smallest wrappedLeft 4128 [⟨3, [7]⟩] 4144 :=
    ⟨⟨⟨⟨by decide, by decide, by decide⟩, by decide⟩, by decide, rfl⟩, le_rfl, .inl rfl⟩
  obtain ⟨-, q', -, -, hreturn, hhead, -⟩ := receive_recovers habandoned (by decide) hfresh
    (.header fun _ => 255) (q := ⟨wrappedLeft.died .smallest 5 28 (.header fun _ => 255), 0, []⟩)
    rfl hf Int.one_pos (show 1 + 1 < 3 by decide) false 0
  exact ⟨q', hreturn (.inr rfl), hhead⟩

/-- A claim of 8 bytes whose end is `2^64`: the addition in `stalled` wraps, so that its slot covers
    nothing. -/
def lastLeft : Handle := ⟨claimLeft (2 ^ 64 - 8) 8 0 fun _ => 0, 0, []⟩

/-- **A dead claim that ends at `2^64` is not recovered.**  Its slot belongs to an exited process
    and names its start and its size; `receive` finds no slot for it and reports an empty queue. -/
theorem unclaimed_at_wrap :
    (lastLeft.ring.slots 0).cursor = lastLeft.ring.head ∧
      exitedPeer.isDead (lastLeft.ring.slots 0).owner = true ∧
      add64 lastLeft.ring.head (lastLeft.ring.slots 0).size = lastLeft.ring.tail ∧
      (receive 4096 exitedPeer false 3 1 3 lastLeft).map (fun r => (r.1.ring.head, r.2)) =
        some (2 ^ 64 - 8, [], some .empty) := by
  decide +kernel

end GoIpc.Seq
