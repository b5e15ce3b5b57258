import GoIpc.Seq.Calls

namespace GoIpc.Seq

open GoIpc.Lib
open GoIpc.Ring (Word Capacity claimSlots noIntent typePadding recordHeaderSize signed signed_ofInt
  padOf padOf_mod_eight padOf_lt pad_fits record_fits need_eq)

/-!
# The invariant of a ring that runs alone

Between two operations the cached head is no further than the head, the tail is aligned, and the
buffer is `Standing`.  A claim is followed on the tape, store by store.

* `InWindow` — the stores of a producer are the same stores on the tape;
* `Opened`, `Filled` — what a claim has left there when its padding is complete, and when its
  payload is copied;
* `Sound.filled` — **claims keep the invariant**, committed, aborted or left open.
-/

variable {C : Capacity} {b : Buf}

/-! ### Stores on the tape -/

/-- The span of `n` bytes at cursor `c` lies in the window of the ring and within one lap. -/
structure InWindow (C : Capacity) (b : Buf) (c n : Nat) : Prop where
  lo : b.head ≤ c
  hi : c + n ≤ b.head + C.size
  fits : c % C.size + n ≤ C.size

namespace InWindow

variable {c n : Nat} (h : InWindow C b c n)
include h

theorem tape_storeLength (hn : 4 ≤ n) (v : Int) :
    (b.storeLength (c % C.size) v).tape C = store32 (b.tape C) c (BitVec.ofInt 32 v) := by
  have := h.hi
  have := h.fits
  show unwrap 0 C.size b.head (store32 b.data (c % C.size) _) = _
  exact unwrap_patch _ h.lo (by omega) (by omega)

theorem tape_storeType (hn : 8 ≤ n) (v : Word) :
    (b.storeType (c % C.size) v).tape C = store32 (b.tape C) (c + 4) v := by
  have := h.hi
  have := h.fits
  show unwrap 0 C.size b.head (store32 b.data (c % C.size + 4) v) = _
  exact unwrap_patch_add _ h.lo (by omega) (by omega)

theorem tape_copy (payload : List UInt8) (hn : recordHeaderSize + payload.length ≤ n) :
    (b.copy (c % C.size + recordHeaderSize) payload).tape C =
      patch (b.tape C) (c + recordHeaderSize) payload.length (fun k => payload.getD k 0) := by
  have := h.hi
  have := h.fits
  show unwrap 0 C.size b.head (patch b.data (c % C.size + recordHeaderSize) payload.length
    (fun k => payload.getD k 0)) = _
  exact unwrap_patch_add _ h.lo (by omega) (by omega)

/-- The two words of a record header, the type first. -/
theorem tape_header (hn : 8 ≤ n) (typ : Word) (v : Int) :
    ((b.storeType (c % C.size) typ).storeLength (c % C.size) v).tape C =
      store32 (store32 (b.tape C) (c + 4) typ) c (BitVec.ofInt 32 v) := by
  have h' : InWindow C (b.storeType (c % C.size) typ) c n := ⟨h.lo, h.hi, h.fits⟩
  rw [h'.tape_storeLength (by omega), h.tape_storeType hn]

end InWindow

theorem Buf.tape_release (slot : Option Nat) : (b.release slot).tape C = b.tape C := by
  cases slot <;> rfl

/-- A payload just copied reads back. -/
theorem slice_patch_getD (m : Mem) (i : Nat) (payload : List UInt8) :
    slice (patch m i payload.length (fun k => payload.getD k 0)) i payload.length = payload := by
  apply List.ext_getElem
  · simp
  · intro k h1 h2
    simp only [slice, List.getElem_map, List.getElem_range]
    rw [patch_of_mem _ _ (by omega) (by omega), Nat.add_sub_cancel_left]
    simp [h2]

/-! ### What a claim leaves on the tape -/

/-- The padding record a claim that crosses the wrap point writes first. -/
def padOn (T : Mem) (tail pad : Nat) : Mem :=
  if pad = 0 then T else store32 (store32 T (tail + 4) typePadding) tail (BitVec.ofInt 32 pad)

/-- A claim with `pad` bytes of padding at `tail` has left everything below it alone, and its
    padding record is complete. -/
structure Opened (T T' : Mem) (tail pad : Nat) : Prop where
  keep : ∀ x, x < tail → T' x = T x
  length : pad ≠ 0 → signed (load32 T' tail) = pad
  typ : pad ≠ 0 → load32 T' (tail + 4) = typePadding

theorem opened_padOn (T : Mem) (tail : Nat) {pad : Nat} (hpad : pad < 2 ^ 31) :
    Opened T (padOn T tail pad) tail pad := by
  unfold padOn
  split
  · next h0 => exact ⟨fun _ _ => rfl, fun h => absurd h0 h, fun h => absurd h0 h⟩
  · refine ⟨fun x hx => ?_, fun _ => ?_, fun _ => ?_⟩
    · rw [store32, patch_of_not_mem _ _ (by omega), store32, patch_of_not_mem _ _ (by omega)]
    · rw [load32_store32, signed_ofInt (by omega) (by omega)]
    · rw [load32_store32_ne _ _ (by omega), load32_store32]

/-- What is stored behind the padding changes neither. -/
theorem Opened.patch {T T' : Mem} {tail pad i n : Nat} {g : Nat → UInt8}
    (h : Opened T T' tail pad) (hpad : pad % 8 = 0) (hi : tail + pad ≤ i) :
    Opened T (Lib.patch T' i n g) tail pad := by
  refine ⟨fun x hx => ?_, fun h0 => ?_, fun h0 => ?_⟩
  · rw [patch_of_not_mem _ _ (by omega)]
    exact h.keep x hx
  · rw [load32_patch _ _ (by omega)]
    exact h.length h0
  · rw [load32_patch _ _ (by omega)]
    exact h.typ h0

/-- The padding of a claim, as the reader meets it. -/
theorem Opened.chain {T T' : Mem} {tail aligned : Nat} (h : Opened T T' tail (padOf C tail aligned))
    (hmod : tail % 8 = 0) (hmax : aligned + 8 ≤ 2 ^ 31) :
    ∃ segs, Chain C.size T' tail segs (tail + padOf C tail aligned) := by
  by_cases h0 : padOf C tail aligned = 0
  · exact ⟨[], h0 ▸ rfl⟩
  · have hpm := padOf_mod_eight C aligned hmod
    have hlt : padOf C tail aligned ≤ aligned := by
      unfold padOf
      split <;> omega
    have hpf := pad_fits C tail aligned
    generalize padOf C tail aligned = pad at *
    have hspan : (padSeg T' tail pad).span = pad := padSeg_span (by omega) hpm
    exact ⟨[padSeg T' tail pad], padSeg_stored (h.length h0) (h.typ h0) (by omega) (by omega),
      by rw [hspan]; exact hpf, by rw [hspan]; rfl⟩

/-! ### The invariant -/

/-- What holds between two operations. -/
structure Sound (C : Capacity) (b : Buf) : Prop where
  cache : b.headCache ≤ b.head
  tail_mod : b.tail % 8 = 0
  standing : ∃ segs stop, Standing C b segs stop

/-- Only the cursors and the data region matter. -/
theorem Sound.congr {b' : Buf} (h : Sound C b) (hcache : b'.headCache ≤ b'.head)
    (hhead : b'.head = b.head) (htail : b'.tail = b.tail) (hdata : b'.data = b.data) :
    Sound C b' := by
  have htape : b'.tape C = b.tape C := by unfold Buf.tape; rw [hhead, hdata]
  obtain ⟨segs, stop, hs⟩ := h.standing
  refine ⟨hcache, htail ▸ h.tail_mod, segs, stop, ?_⟩
  refine ⟨by rw [hhead, htail]; exact hs.head_le, by rw [hhead, htail]; exact hs.lap,
    by rw [htail]; exact hs.word, by rw [hhead]; exact hs.head_mod,
    by rw [htape, hhead]; exact hs.chain, by rw [htail]; exact hs.stop_le,
    by rw [htape, htail]; exact hs.blocked⟩

section Extend

variable {segs : List Seg} {stop aligned : Nat} {b' : Buf} (hmod : b.tail % 8 = 0)
  (hhead : b'.head = b.head) (htail : b'.tail = b.tail + (padOf C b.tail aligned + aligned))
  (hlap : b'.tail ≤ b.head + C.size) (hword : b'.tail < 2 ^ 64) (h8 : 8 ≤ aligned)
  (hmax : aligned + 8 ≤ 2 ^ 31) (ho : Opened (b.tape C) (b'.tape C) b.tail (padOf C b.tail aligned))
include hhead hlap hword ho

/-- The chain in front of a claim still stands, and may go on into it. -/
theorem Standing.append (h : Standing C b segs stop) {more : List Seg} {stop' : Nat}
    (hmore : Chain C.size (b'.tape C) stop more stop') (hle : b.tail ≤ b'.tail)
    (hstop : stop' ≤ b'.tail) (hb : Blocked (b'.tape C) stop' b'.tail) :
    Standing C b' (segs ++ more) stop' := by
  have hhl := h.head_le
  have hsle := h.stop_le
  have hold : Chain C.size (b'.tape C) b.head segs stop :=
    h.chain.congr fun x _ hx => (ho.keep x (by omega)).symm
  exact ⟨by rw [hhead]; omega, by rw [hhead]; omega, hword, by rw [hhead]; exact h.head_mod,
    by rw [hhead]; exact hold.append hmore, hstop, hb⟩

include htail hmod hmax

/-- A complete record behind a chain that reaches the tail extends it to the new tail. -/
theorem Standing.extend_record (h : Standing C b segs b.tail) {s : Seg}
    (hs : s.Stored (b'.tape C) (b.tail + padOf C b.tail aligned)) (hspan : s.span = aligned) :
    ∃ segs, Standing C b' segs b'.tail := by
  have hle := h.head_le
  obtain ⟨pads, hpads⟩ := ho.chain hmod hmax
  have hfits : (b.tail + padOf C b.tail aligned) % C.size + s.span ≤ C.size := by
    rw [hspan]
    exact record_fits C (by omega)
  have hone : Chain C.size (b'.tape C) (b.tail + padOf C b.tail aligned) [s] b'.tail :=
    ⟨hs, hfits, show _ + s.span = b'.tail by omega⟩
  exact ⟨_, h.append hhead hlap hword ho (hpads.append hone) (by omega) le_rfl (.inl rfl)⟩

include h8

/-- A claim extends the chain if nothing blocks the reader before it: by its padding, and by its
    record once that is complete. -/
theorem Standing.extend (h : Standing C b segs stop)
    (hrec : (∃ s : Seg, s.Stored (b'.tape C) (b.tail + padOf C b.tail aligned) ∧ s.span = aligned) ∨
      signed (load32 (b'.tape C) (b.tail + padOf C b.tail aligned)) ≤ 0) :
    ∃ segs stop, Standing C b' segs stop := by
  have hsle := h.stop_le
  rcases h.blocked with hend | ⟨hroom, hneg⟩
  · -- the claim is the next thing the reader meets
    subst hend
    rcases hrec with ⟨s, hs, hspan⟩ | hneg
    · obtain ⟨segs', h'⟩ := h.extend_record hmod hhead htail hlap hword hmax ho hs hspan
      exact ⟨segs', _, h'⟩
    · obtain ⟨pads, hpads⟩ := ho.chain hmod hmax
      exact ⟨_, _, h.append hhead hlap hword ho hpads (by omega) (by omega)
        (.inr ⟨by omega, hneg⟩)⟩
  · -- the reader is stopped before the claim
    refine ⟨segs ++ [], stop, h.append hhead hlap hword ho rfl (by omega) (by omega)
      (.inr ⟨by omega, ?_⟩)⟩
    rwa [load32_congr fun k hk => ho.keep (stop + k) (by omega)]

end Extend

/-! ### One operation -/

/-- The bytes an operation claims when the tail is at `tail`. -/
def Op.need (cap tail : Nat) : Op → Nat
  | .write _ _ payload | .claim _ _ payload _ =>
      let aligned := Ring.align (recordHeaderSize + payload.length)
      let toEnd := cap - tail % cap
      if toEnd < aligned then aligned + toEnd else aligned
  | _ => 0

/-- The limit of a read as the C++ ring takes it. -/
def Op.Sized : Op → Prop
  | .read limit => 0 ≤ limit ∧ limit < 2 ^ 64
  | _ => True

/-- The index of the record a claim writes is that of the cursor behind its padding, and the tape
    gets its padding and the header of a record still being written. -/
theorem take_spec (slot : Option Nat) (typ : Word) (recordLen : Nat) {aligned : Nat}
    (h8 : 8 ≤ aligned) (hmod : b.tail % 8 = 0) (hhead : b.head ≤ b.tail)
    (hlap : b.tail + (padOf C b.tail aligned + aligned) ≤ b.head + C.size) :
    (b.take C.size slot typ recordLen aligned (Ring.need C b.tail aligned)).2 =
        (b.tail + padOf C b.tail aligned) % C.size ∧
      (b.take C.size slot typ recordLen aligned (Ring.need C b.tail aligned)).1.tape C =
        store32 (store32 (padOn (b.tape C) b.tail (padOf C b.tail aligned))
          (b.tail + padOf C b.tail aligned + 4) typ) (b.tail + padOf C b.tail aligned)
          (BitVec.ofInt 32 (-recordLen)) := by
  have hpos := Ring.toEnd_pos C b.tail
  have hend := Ring.add_toEnd_mod C b.tail
  have htm := Ring.toEnd_mod_eight C hmod
  have hpf := pad_fits C b.tail aligned
  have hrf : (b.tail + padOf C b.tail aligned) % C.size + aligned ≤ C.size :=
    record_fits C (by omega)
  unfold Buf.take
  generalize add64 b.tail (Ring.need C b.tail aligned) = tail'
  generalize hm : ({ b.intend slot (Ring.need C b.tail aligned) with tail := tail' } : Buf) = m
  have htape : m.tape C = b.tape C := by subst hm; cases slot <;> rfl
  have hsame : m.head = b.head := by subst hm; cases slot <;> rfl
  by_cases h : Ring.toEnd C b.tail < aligned
  · -- the claim crosses the wrap point: padding up to it, the record at index 0
    have hneed : Ring.need C b.tail aligned = aligned + Ring.toEnd C b.tail := if_pos h
    have hpad : padOf C b.tail aligned = Ring.toEnd C b.tail := if_pos h
    rw [hpad] at hlap hpf hrf ⊢
    rw [if_pos (by omega)]
    refine ⟨hend.symm, ?_⟩
    have hp : InWindow C m b.tail (Ring.toEnd C b.tail) := ⟨by omega, by omega, hpf⟩
    have hr : InWindow C (m.padRecord (b.tail % C.size) (Ring.toEnd C b.tail))
        (b.tail + Ring.toEnd C b.tail) aligned := ⟨by rw [← hsame] at hhead; exact Nat.le_add_right_of_le hhead,
          by show _ ≤ m.head + _; omega, hrf⟩
    have hrec := hr.tape_header h8 typ (-recordLen)
    rw [hend] at hrec
    rwa [padOn, if_neg (by omega), ← htape, ← hp.tape_header (by omega)]
  · -- the record fits before the wrap point
    have hpad : padOf C b.tail aligned = 0 := if_neg h
    have hneed : Ring.need C b.tail aligned = aligned := if_neg h
    rw [hpad] at hlap hrf ⊢
    rw [if_neg (by simp [hneed])]
    have hr : InWindow C m b.tail aligned := ⟨by omega, by omega, hrf⟩
    refine ⟨rfl, ?_⟩
    simp only [padOn, if_true, Nat.add_zero]
    rw [← htape, ← hr.tape_header h8]
    rfl

variable {typ : Word}

/-- A record becomes complete with the store of its length. -/
theorem stored_of_length {T : Mem} {c : Nat} {payload : List UInt8} (htyp : load32 T (c + 4) = typ)
    (hpay : slice T (c + recordHeaderSize) payload.length = payload)
    (hsmall : recordHeaderSize + payload.length + 8 ≤ 2 ^ 31) :
    (⟨typ, payload⟩ : Seg).Stored
      (store32 T c (BitVec.ofInt 32 (recordHeaderSize + payload.length : Nat))) c := by
  refine ⟨⟨?_, ?_, ?_⟩, hsmall⟩
  · rw [load32_store32, signed_ofInt (by omega) (by omega)]
    rfl
  · rwa [load32_store32_ne _ _ (by omega)]
  · refine Eq.trans (slice_congr fun k _ => ?_) hpay
    rw [store32, patch_of_not_mem _ _ (by unfold recordHeaderSize; omega)]

/-- `Standing.extend` for the whole invariant. -/
theorem Sound.extend {aligned : Nat} {b' : Buf} (h : Sound C b)
    (hcur : b'.cursors = (b.head, b.headCache, b.tail + (padOf C b.tail aligned + aligned)))
    (hlap : b.tail + (padOf C b.tail aligned + aligned) ≤ b.head + C.size)
    (hword : b.tail + (padOf C b.tail aligned + aligned) < 2 ^ 64) (h8 : 8 ≤ aligned)
    (ha : aligned % 8 = 0) (hmax : aligned + 8 ≤ 2 ^ 31)
    (ho : Opened (b.tape C) (b'.tape C) b.tail (padOf C b.tail aligned))
    (hrec : (∃ s : Seg, s.Stored (b'.tape C) (b.tail + padOf C b.tail aligned) ∧ s.span = aligned) ∨
      signed (load32 (b'.tape C) (b.tail + padOf C b.tail aligned)) ≤ 0) :
    Sound C b' := by
  simp only [Buf.cursors, Prod.mk.injEq] at hcur
  obtain ⟨hhead, hcache, htail⟩ := hcur
  have hmod := h.tail_mod
  have hpm := padOf_mod_eight C aligned hmod
  obtain ⟨segs, stop, hs⟩ := h.standing
  exact ⟨by rw [hcache, hhead]; exact h.cache, by omega,
    hs.extend hmod hhead htail (by omega) (by omega) h8 hmax ho hrec⟩

section Filled

variable (payload : List UInt8)

/-- The bytes of the record that carries a payload. -/
def recordSpan : Nat := Ring.align (recordHeaderSize + payload.length)

/-- The padding a claim for a payload starts with. -/
def padFor (C : Capacity) (b : Buf) : Nat := padOf C b.tail (recordSpan payload)

/-- The cursor of the record of that claim. -/
def recordAt (C : Capacity) (b : Buf) : Nat := b.tail + padFor payload C b

/-- The buffer `b'` is `b` with one more claim, filled with its payload but not finished. -/
structure Filled (C : Capacity) (b : Buf) (typ : Word) (b' : Buf) : Prop where
  cursors : b'.cursors = (b.head, b.headCache, b.tail + (padFor payload C b + recordSpan payload))
  opened : Opened (b.tape C) (b'.tape C) b.tail (padFor payload C b)
  length : load32 (b'.tape C) (recordAt payload C b) =
    BitVec.ofInt 32 (-(recordHeaderSize + payload.length : Nat))
  typ : load32 (b'.tape C) (recordAt payload C b + 4) = typ
  payload : slice (b'.tape C) (recordAt payload C b + recordHeaderSize) payload.length = payload

/-- A payload that passes the size check, and room for its claim. -/
structure Room (C : Capacity) (b : Buf) : Prop where
  small : payload.length ≤ C.size / 2 - 8
  lap : b.tail + (padFor payload C b + recordSpan payload) ≤ b.head + C.size
  word : b.tail + (padFor payload C b + recordSpan payload) < 2 ^ 64

variable {payload}

theorem recordSpan_facts (hsmall : payload.length ≤ C.size / 2 - 8) :
    recordSpan payload % 8 = 0 ∧ recordHeaderSize + payload.length ≤ recordSpan payload ∧
      8 ≤ recordSpan payload ∧ recordSpan payload + 8 ≤ 2 ^ 31 ∧ recordSpan payload ≤ C.size ∧
      padFor payload C b < recordSpan payload := by
  have hC := C.max
  have hmin := C.min
  have ham := Ring.align_mod (recordHeaderSize + payload.length)
  have hla := Ring.le_align (recordHeaderSize + payload.length)
  have halt := Ring.align_lt (recordHeaderSize + payload.length)
  have hr8 : recordHeaderSize = 8 := rfl
  have hpl : padFor payload C b < recordSpan payload := padOf_lt C (by unfold recordSpan; omega)
  unfold recordSpan at *
  omega

/-- The record of a claim lies in the window of the ring. -/
theorem Room.inWindow {b' : Buf} (hroom : Room payload C b) (hhead : b.head ≤ b.tail)
    (hsame : b'.head = b.head) : InWindow C b' (recordAt payload C b) (recordSpan payload) := by
  have hlap := hroom.lap
  obtain ⟨_, _, _, _, hsize, _⟩ := recordSpan_facts (b := b) hroom.small
  exact ⟨by unfold recordAt; omega, by unfold recordAt; omega, record_fits C hsize⟩

/-- A claim with room, once its payload is copied. -/
theorem filled_take (hmod : b.tail % 8 = 0) (hhead : b.head ≤ b.tail)
    (hroom : Room payload C b) (slot : Option Nat) (typ : Word) :
    (b.take C.size slot typ (recordHeaderSize + payload.length) (recordSpan payload)
        (Ring.need C b.tail (recordSpan payload))).2 = recordAt payload C b % C.size ∧
      Filled payload C b typ ((b.take C.size slot typ (recordHeaderSize + payload.length)
        (recordSpan payload) (Ring.need C b.tail (recordSpan payload))).1.copy
          (recordAt payload C b % C.size + recordHeaderSize) payload) := by
  have hlap := hroom.lap
  have hword := hroom.word
  have hneed : Ring.need C b.tail (recordSpan payload) = padFor payload C b + recordSpan payload :=
    need_eq C b.tail _
  obtain ⟨_, hla, h8, hmax, _, hpl⟩ := recordSpan_facts (C := C) (b := b) hroom.small
  have hpm : padFor payload C b % 8 = 0 := padOf_mod_eight C _ hmod
  have hr8 : recordHeaderSize = 8 := rfl
  obtain ⟨hidx, htape⟩ := take_spec slot typ (recordHeaderSize + payload.length) h8 hmod hhead hlap
  have hcur := b.cursors_take C.size slot typ (recordHeaderSize + payload.length)
    (recordSpan payload) (Ring.need C b.tail (recordSpan payload))
  rw [hneed, add64_of_lt hword, ← hneed] at hcur
  refine ⟨hidx, ?_⟩
  generalize (b.take C.size slot typ (recordHeaderSize + payload.length) (recordSpan payload)
    (Ring.need C b.tail (recordSpan payload))).1 = b1 at hcur htape ⊢
  have hsame : b1.head = b.head := congrArg (·.1) hcur
  have hcopy := (hroom.inWindow hhead hsame).tape_copy payload hla
  refine ⟨by rw [Buf.cursors_copy, hcur, hneed], ?_, ?_, ?_, ?_⟩
  · rw [hcopy, htape]
    have hpad := opened_padOn (b.tape C) b.tail (show padFor payload C b < 2 ^ 31 by omega)
    exact ((hpad.patch hpm (Nat.le_add_right _ 4)).patch hpm le_rfl).patch hpm
      (Nat.le_add_right _ recordHeaderSize)
  · rw [hcopy, load32_patch _ _ (by omega), htape]
    exact load32_store32 _ _ _
  · rw [hcopy, load32_patch _ _ (by omega), htape]
    exact (load32_store32_ne _ _ (by unfold recordAt padFor; omega)).trans (load32_store32 _ _ _)
  · rw [hcopy, slice_patch_getD]

/-- The end of a claim moves no cursor. -/
theorem filled_cursors {b' : Buf} (hf : Filled payload C b typ b') (slot : Option Nat) (t : Then) :
    (match t with
      | .commit => GoRing.commit ⟨recordAt payload C b % C.size,
          recordHeaderSize + payload.length, slot⟩ b'
      | .abort => GoRing.abort ⟨recordAt payload C b % C.size,
          recordHeaderSize + payload.length, slot⟩ b'
      | .none => b').cursors =
        (b.head, b.headCache, b.tail + (padFor payload C b + recordSpan payload)) := by
  rw [← hf.cursors]
  cases t with
  | commit => exact (Buf.cursors_release _ _).trans (Buf.cursors_storeLength _ _ _)
  | abort => exact (Buf.cursors_release _ _).trans rfl
  | none => rfl

/-- A committed claim on the tape. -/
theorem Filled.commit {b' : Buf} (hf : Filled payload C b typ b') (hroom : Room payload C b)
    (hmod : b.tail % 8 = 0) (hhead : b.head ≤ b.tail) (slot : Option Nat) :
    Opened (b.tape C) ((GoRing.commit ⟨recordAt payload C b % C.size,
        recordHeaderSize + payload.length, slot⟩ b').tape C) b.tail (padFor payload C b) ∧
      (⟨typ, payload⟩ : Seg).Stored ((GoRing.commit ⟨recordAt payload C b % C.size,
        recordHeaderSize + payload.length, slot⟩ b').tape C) (recordAt payload C b) := by
  obtain ⟨_, hla, h8, hmax, _, _⟩ := recordSpan_facts (C := C) (b := b) hroom.small
  have hpm : padFor payload C b % 8 = 0 := padOf_mod_eight C _ hmod
  have hsame : b'.head = b.head := congrArg (·.1) hf.cursors
  have hT := (hroom.inWindow hhead hsame).tape_storeLength (by omega)
    (recordHeaderSize + payload.length : Nat)
  unfold GoRing.commit
  rw [Buf.tape_release, hT]
  exact ⟨hf.opened.patch hpm le_rfl, stored_of_length hf.typ hf.payload (by omega)⟩

/-- A claim that is filled and then finished, or left, keeps the invariant. -/
theorem Sound.filled {b' : Buf} (h : Sound C b) (hroom : Room payload C b) (hf : Filled payload C b typ b')
    (slot : Option Nat) (t : Then) :
    Sound C (match t with
      | .commit => GoRing.commit ⟨recordAt payload C b % C.size,
          recordHeaderSize + payload.length, slot⟩ b'
      | .abort => GoRing.abort ⟨recordAt payload C b % C.size,
          recordHeaderSize + payload.length, slot⟩ b'
      | .none => b') := by
  obtain ⟨segs, stop, hs⟩ := h.standing
  obtain ⟨ham, hla, h8, hmax, _, hpl⟩ := recordSpan_facts (C := C) (b := b) hroom.small
  have hpm : padFor payload C b % 8 = 0 := padOf_mod_eight C _ h.tail_mod
  have hr8 : recordHeaderSize = 8 := rfl
  have hsame : b'.head = b.head := congrArg (·.1) hf.cursors
  have hwin := hroom.inWindow hs.head_le hsame
  -- a record to read, padding, or a record whose length stays negative
  cases t with
  | commit =>
    obtain ⟨ho, hstored⟩ := hf.commit hroom h.tail_mod hs.head_le slot
    exact h.extend (filled_cursors hf slot .commit) hroom.lap hroom.word h8 ham hmax ho
      (.inl ⟨_, hstored, rfl⟩)
  | abort =>
    have hT := hwin.tape_header h8 typePadding (recordHeaderSize + payload.length : Nat)
    refine h.extend (filled_cursors hf slot .abort) hroom.lap hroom.word h8 ham
      hmax ?_ (.inl ⟨⟨typePadding, payload⟩, ?_, rfl⟩)
    · unfold GoRing.abort
      rw [Buf.tape_release, hT]
      exact (hf.opened.patch hpm (by unfold recordAt padFor; omega)).patch hpm le_rfl
    · unfold GoRing.abort
      rw [Buf.tape_release, hT]
      refine stored_of_length (load32_store32 _ _ _) ?_ (by omega)
      refine Eq.trans (slice_congr fun k _ => ?_) hf.payload
      rw [store32, patch_of_not_mem _ _ (by omega)]
  | none =>
    refine h.extend hf.cursors hroom.lap hroom.word h8 ham hmax hf.opened (.inr ?_)
    have := hf.length
    unfold recordAt padFor at this
    rw [this, signed_ofInt (by omega) (by omega)]
    omega

end Filled

end GoIpc.Seq
