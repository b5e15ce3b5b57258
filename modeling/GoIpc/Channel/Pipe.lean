import GoIpc.Seq.Calls

namespace GoIpc.Channel

open GoIpc.Ring (Capacity Word recordHeaderSize maxMessageSize typePadding)

/-!
# One direction of a channel, as its two ends see it

A channel is two rings with one sending and one receiving process each.  Seen between calls, a ring
is a first-in first-out list of messages and the two cursors that decide whether a further message
fits: a record that would straddle the wrap point also takes the rest of the lap, so how much a
message takes depends on where the tail stands.

* `Pipe.fits` — whether a message of a given size finds room;
* `fits_of_drained` — a drained ring has room for every message a channel accepts;
* `tryClaim_room` — `fits` is what `tryClaim` of the Go ring decides, and `push` is how it moves the
  tail;
* `read_pop` — `pop` is how `Read` moves the head when it takes one message.
-/

/-- The cursors of a ring. -/
structure Pipe where
  head : Nat
  tail : Nat
deriving DecidableEq

namespace Pipe

variable (C : Capacity) (p : Pipe)

def start : Pipe := ⟨0, 0⟩

/-- What a message of `len` bytes takes at `cursor`. -/
def span (cursor len : Nat) : Nat := Ring.need C cursor (Ring.align (recordHeaderSize + len))

/-- A message of `len` bytes finds room. -/
def fits (len : Nat) : Bool := p.tail + span C p.tail len ≤ p.head + C.size

/-- A message of `len` bytes goes in at the tail. -/
def push (len : Nat) : Pipe := { p with tail := p.tail + span C p.tail len }

/-- The message at the head, of `len` bytes, goes out. -/
def pop (len : Nat) : Pipe := { p with head := p.head + span C p.head len }

end Pipe

variable {C : Capacity} {p : Pipe} {len : Nat}

/-- A message of at most the maximum takes no more than one lap, padding included. -/
theorem span_le (cursor : Nat) (h : len ≤ maxMessageSize C) : Pipe.span C cursor len ≤ C.size := by
  rw [Ring.maxMessageSize_eq] at h
  have hmin := C.min
  have hdvd := C.dvd
  have haligned : Ring.align (recordHeaderSize + len) ≤ C.size / 2 :=
    Ring.align_le (by unfold recordHeaderSize; omega) (by omega)
  unfold Pipe.span Ring.need
  split <;> omega

/-- **A drained ring has room** for every message a channel accepts. -/
theorem fits_of_drained (hp : p.head = p.tail) (h : len ≤ maxMessageSize C) :
    p.fits C len = true := by
  have := span_le p.tail h
  simp only [Pipe.fits, decide_eq_true_eq]
  omega

/-! ### The ring below -/

/-- The cursors of a buffer. -/
def pipeOf (b : Seq.Buf) : Pipe := ⟨b.head, b.tail⟩

/-- **`tryClaim` and `fits` agree.**  On a ring whose cached head is not ahead of the head, a claim
    of an acceptable size succeeds exactly when the message fits, and then moves the tail past it;
    otherwise it reports a full ring. -/
theorem tryClaim_room {b : Seq.Buf} {fuel : Nat} (hcache : b.headCache ≤ b.head)
    (hhead : b.head ≤ b.tail) (hfuel : 0 < fuel) (slot : Option Nat) {typ : Word}
    (htyp : typ ≠ typePadding) (hlen : len ≤ maxMessageSize C)
    (hword : ((pipeOf b).push C len).tail < 2 ^ 64) :
    ∃ b' r, Seq.GoRing.tryClaim C.size fuel slot typ len b = some (b', r) ∧
      if (pipeOf b).fits C len then (∃ c, r = .ok c) ∧ pipeOf b' = (pipeOf b).push C len
      else r = .error .full ∧ pipeOf b' = pipeOf b := by
  rw [Seq.GoRing.tryClaim_eq hcache hhead hfuel]
  rw [Ring.maxMessageSize_eq] at hlen
  unfold Seq.claimSpec
  rw [if_neg htyp, if_neg (by omega)]
  have htail : Seq.add64 b.tail (Ring.need C b.tail (Ring.align (recordHeaderSize + len))) =
      ((pipeOf b).push C len).tail := Seq.add64_of_lt hword
  have htaken : ∀ cache, pipeOf (Seq.claimed C slot typ (recordHeaderSize + len)
      { b with headCache := cache }).1 = (pipeOf b).push C len := by
    intro cache
    have h := ({ b with headCache := cache } : Seq.Buf).cursors_take C.size slot typ
      (recordHeaderSize + len) (Ring.align (recordHeaderSize + len))
      (Ring.need C b.tail (Ring.align (recordHeaderSize + len)))
    simp only [Seq.Buf.cursors, Prod.mk.injEq] at h
    rw [htail] at h
    rw [Pipe.mk.injEq]
    exact ⟨h.1, h.2.2⟩
  have hfits : (pipeOf b).fits C len = true ↔
      b.tail + Ring.need C b.tail (Ring.align (recordHeaderSize + len)) ≤ b.head + C.size :=
    decide_eq_true_iff
  dsimp only
  split
  · next hroom =>
    -- the cached head shows the room, which the head then has too
    refine ⟨_, _, rfl, ?_⟩
    rw [if_pos (hfits.mpr (by omega))]
    exact ⟨⟨_, rfl⟩, htaken b.headCache⟩
  split
  · next hroom =>
    refine ⟨_, _, rfl, ?_⟩
    rw [if_pos (hfits.mpr (by omega))]
    exact ⟨⟨_, rfl⟩, htaken b.head⟩
  · next hroom =>
    refine ⟨_, _, rfl, ?_⟩
    rw [if_neg (mt hfits.mp (by omega))]
    have h := b.cursors_release slot
    simp only [Seq.Buf.cursors, Prod.mk.injEq] at h
    refine ⟨rfl, ?_⟩
    rw [pipeOf, h.1, h.2.2]
    rfl

/-- **`Read` and `pop` agree.**  Where the first message stands at the head, or behind the padding that
    a message of its size gets there, a read of one message returns it and moves the head past it. -/
theorem read_pop {b : Seq.Buf} {segs rest : List Seq.Seg} {s : Seq.Seg} {stop fuel : Nat}
    (h : Seq.Standing C b segs stop) (hfuel : segs.length < fuel) (hs : s.typ ≠ typePadding)
    (hsegs : segs = s :: rest ∨ ∃ pad, segs = pad :: s :: rest ∧ pad.typ = typePadding ∧
      pad.span = Ring.toEnd C b.head ∧ pad.span < s.span) :
    ∃ b', Seq.GoRing.read C.size fuel 1 b = some (b', [(s.typ, s.payload)], none) ∧
      pipeOf b' = (pipeOf b).pop C s.payload.length := by
  have hmessage : s.messages = [(s.typ, s.payload)] := if_pos hs
  have hnone : ∀ {pad : Seq.Seg}, pad.typ = typePadding → pad.messages = [] := fun hpad =>
    if_neg (not_not.mpr hpad)
  rw [Seq.GoRing.read_eq h hfuel]
  refine ⟨(Seq.readSpec C 1 segs b).1, ?_, ?_⟩
  · rcases hsegs with rfl | ⟨pad, rfl, hpad, -⟩
    · simp [Seq.readSpec, Seq.readable_cons, hmessage]
    · simp [Seq.readSpec, Seq.readable_cons, hmessage, hnone hpad]
  · refine Pipe.mk.injEq .. ▸ ⟨?_, rfl⟩
    show (Seq.readSpec C 1 segs b).1.head = b.head + Ring.need C b.head s.span
    rcases hsegs with rfl | ⟨pad, rfl, hpad, hend, hlt⟩
    · -- the record ends before the wrap point
      have hfit := h.chain.2.1
      rw [Ring.need, if_neg (by unfold Ring.toEnd; omega)]
      simp [Seq.readSpec, Seq.readable_cons, hmessage]
    · rw [Ring.need, if_pos (hend ▸ hlt), ← hend]
      simp [Seq.readSpec, Seq.readable_cons, hmessage, hnone hpad]
      omega

end GoIpc.Channel
