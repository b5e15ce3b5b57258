import GoIpc.Seq.Scan

namespace GoIpc.Seq

open GoIpc.Lib
open GoIpc.Ring (Word Capacity Req noIntent typePadding recordHeaderSize signed)

/-!
# One specification for the calls of the three rings

While the cursors stand in order and the tail has not come to the end of the 64-bit range, the
tests the three rings make amount to the same comparison of natural numbers.

* `Standing` — the cursors of a buffer and the chain of complete records behind its head;
* `readSpec`, `claimSpec` — what a read and a claim then do, in terms of the records;
* `GoRing.read_eq`, `CRing.ringRead_eq`, `CppRing.read_eq` and `GoRing.tryClaim_eq`, `CRing.ringTryClaim_eq`,
  `CppRing.claimRecord_eq` — each ring does that.
-/

/-- The buffer read as a tape of cursors. -/
def Buf.tape (C : Capacity) (b : Buf) : Mem := unwrap 0 C.size b.head b.data

/-- The cursors stand in order, less than one lap apart and below the end of the 64-bit range;
    from the head there is a chain of complete records up to `stop`, where a reader stops. -/
structure Standing (C : Capacity) (b : Buf) (segs : List Seg) (stop : Nat) : Prop where
  head_le : b.head ≤ b.tail
  lap : b.tail ≤ b.head + C.size
  word : b.tail < 2 ^ 64
  head_mod : b.head % 8 = 0
  chain : Chain C.size (b.tape C) b.head segs stop
  stop_le : stop ≤ b.tail
  blocked : Blocked (b.tape C) stop b.tail

variable {C : Capacity}

/-! ### Reads -/

/-- A read passes the readable records and frees their bytes. -/
def readSpec (C : Capacity) (limit : Nat) (segs : List Seg) (b : Buf) :
    Buf × List Message × Option Fault :=
  let passed := readable limit segs
  ({ b with data := wipe C.size b.data b.head passed, head := b.head + spans passed },
    messages passed, none)

section Loops

variable (C) {head available : Nat} {limit : Int}

theorem GoRing.reads : Reads C.size head available limit.toNat (GoRing.readLoop C.size limit head available) :=
  (GoRing.scans (Capacity.pow_cap C)).reads (fun _ => GoRing.align_eq) fun _ _ => rfl

/-- No payload is as long as `SIZE_MAX`. -/
theorem CRing.reads :
    Reads C.size head available limit.toNat (CRing.readLoop C.size limit (2 ^ 64 - 1) head available) := by
  refine (CRing.scans (Capacity.pow_cap C)).reads (fun _ => CRing.align8_eq) fun s hs => if_neg ?_
  unfold Seg.len at hs
  omega

theorem CppRing.reads {limit : Nat} :
    Reads C.size head available limit (CppRing.readLoop C.size limit (fun _ => true) head available) :=
  (CppRing.scans (Capacity.pow_cap C)).reads (fun _ => CppRing.align8_eq) fun _ _ => if_neg (by simp)

end Loops

section Read

variable {b : Buf} {segs : List Seg} {stop fuel : Nat} (h : Standing C b segs stop)
include h

/-- What the loop of a read returns from the head of the buffer. -/
theorem Standing.looped {limit : Nat} {f : Nat → Nat → List Message → Mem → Looped}
    (hf : Reads C.size b.head (b.tail - b.head) limit f) (hfuel : segs.length < fuel) :
    f fuel 0 [] b.data =
      some (spans (readable limit segs), messages (readable limit segs),
        wipe C.size b.data b.head (readable limit segs), none) := by
  have hle := h.head_le
  have hlap := h.lap
  have htail : b.head + (b.tail - b.head) = b.tail := by omega
  have heq : f fuel 0 [] b.data = _ := hf.eq h.head_mod (by omega) h.chain
    (by rw [htail]; exact h.stop_le) (by rw [htail]; exact h.blocked) hfuel
  simpa using heq

/-- The head a read stores: the cursor behind the records it passed. -/
theorem Standing.stored_head (limit : Nat) :
    (if spans (readable limit segs) > 0 then add64 b.head (spans (readable limit segs)) else b.head)
      = b.head + spans (readable limit segs) := by
  have hspans := spans_readable_le limit segs
  have hstop := h.chain.stop_eq
  have hle := h.stop_le
  have hword := h.word
  split
  · exact add64_of_lt (by omega)
  · omega

theorem GoRing.read_eq (hfuel : segs.length < fuel) (limit : Int) :
    GoRing.read C.size fuel limit b = some (readSpec C limit.toNat segs b) := by
  have hle := h.head_le
  have hword := h.word
  unfold GoRing.read
  split
  · next hl => simp [readSpec, wipe, Int.toNat_of_nonpos hl]
  · rw [sub64_of_le hle hword, h.looped (GoRing.reads C) hfuel]
    simp only [Option.map_some, h.stored_head, readSpec]

theorem CRing.ringRead_eq (hfuel : segs.length < fuel) (limit : Int) :
    CRing.ringRead C.size fuel limit b = some (readSpec C limit.toNat segs b) := by
  have hle := h.head_le
  have hword := h.word
  unfold CRing.ringRead CRing.ringReadInto
  split
  · next hl => simp [readSpec, wipe, Int.toNat_of_nonpos hl]
  · rw [sub64_of_le hle hword, h.looped (CRing.reads C) hfuel]
    simp only [Option.map_some, h.stored_head, readSpec]

theorem CppRing.read_eq (hfuel : segs.length < fuel) {limit : Int} (h0 : 0 ≤ limit)
    (hsize : limit < 2 ^ 64) :
    CppRing.read C.size fuel limit b = some (readSpec C limit.toNat segs b) := by
  have hle := h.head_le
  have hword := h.word
  unfold CppRing.read CppRing.readAccept
  rw [Int.emod_eq_of_lt h0 hsize]
  split
  · next hl => simp [readSpec, wipe, hl]
  · rw [sub64_of_le hle hword, h.looped (CppRing.reads C) hfuel]
    simp only [Option.map_some, h.stored_head, readSpec]

/-- Seen from the old head, a read clears the bytes of the passed records and no others. -/
theorem Standing.unwrap_read (limit : Nat) :
    unwrap 0 C.size b.head (readSpec C limit segs b).1.data =
      clear (b.tape C) b.head (b.head + spans (readable limit segs)) := by
  obtain ⟨rest, hrest⟩ := readable_append limit segs
  have hstop := h.chain.stop_eq
  have hspans := spans_readable_le limit segs
  have hle := h.stop_le
  have hlap := h.lap
  have hchain := h.chain
  rw [hrest] at hchain
  exact unwrap_wipe hchain.init le_rfl (by omega)

/-- After a read the tape is the old one with the bytes of the passed records cleared. -/
theorem Standing.tape_read (limit : Nat) :
    (readSpec C limit segs b).1.tape C =
      clear (b.tape C) b.head (b.head + spans (readable limit segs)) := by
  have hstop := h.chain.stop_eq
  have hspans := spans_readable_le limit segs
  have hle := h.stop_le
  have hlap := h.lap
  rw [← h.unwrap_read]
  show unwrap 0 C.size (b.head + spans (readable limit segs)) _ = _
  refine unwrap_advance (Nat.le_add_right _ _) (by omega) fun c h1 h2 => ?_
  rw [h.unwrap_read, clear, patch_of_mem _ _ h1 (by omega)]

/-- A read leaves the rest of the chain standing. -/
theorem Standing.read (limit : Nat) :
    ∃ rest, segs = readable limit segs ++ rest ∧
      Standing C (readSpec C limit segs b).1 rest stop := by
  obtain ⟨rest, hrest⟩ := readable_append limit segs
  have hstop := h.chain.stop_eq
  have hspans := spans_readable_le limit segs
  have hle := h.stop_le
  have hlap := h.lap
  have hchain := h.chain
  rw [hrest] at hchain
  have hkeep : ∀ x, b.head + spans (readable limit segs) ≤ x →
      b.tape C x = (readSpec C limit segs b).1.tape C x := by
    intro x hx
    rw [h.tape_read, clear, patch_of_not_mem _ _ (by omega)]
  have hmod : (b.head + spans (readable limit segs)) % 8 = 0 :=
    hchain.init.stop_mod h.head_mod
  refine ⟨rest, hrest, show b.head + _ ≤ b.tail by omega, show b.tail ≤ b.head + _ + _ by omega,
    h.word, hmod, hchain.rest.congr fun x h1 _ => hkeep x h1, hle, ?_⟩
  refine h.blocked.imp id (And.imp_right fun hlen => ?_)
  rwa [← load32_congr fun k _ => hkeep (stop + k) (by omega)]

end Read

/-! ### Claims -/

/-- A claim of `recordLen` bytes that has room. -/
def claimed (C : Capacity) (slot : Option Nat) (typ : Word) (recordLen : Nat) (b : Buf) :
    Buf × Except Fault Claim :=
  let r := b.take C.size slot typ recordLen (Ring.align recordLen)
    (Ring.need C b.tail (Ring.align recordLen))
  (r.1, .ok ⟨r.2, recordLen, slot⟩)

/-- A claim takes the bytes behind the tail if they end less than one lap behind the head, and
    looks at the head itself only when the cached one does not show the room. -/
def claimSpec (C : Capacity) (slot : Option Nat) (typ : Word) (length : Nat) (b : Buf) :
    Buf × Except Fault Claim :=
  if typ = typePadding then (b, .error .reservedType)
  else if length > C.size / 2 - 8 then (b, .error .messageTooLarge)
  else
    let recordLen := recordHeaderSize + length
    let stop := b.tail + Ring.need C b.tail (Ring.align recordLen)
    if stop ≤ b.headCache + C.size then claimed C slot typ recordLen b
    else if stop ≤ b.head + C.size then claimed C slot typ recordLen { b with headCache := b.head }
    else (b.release slot, .error .full)

section Claim

variable {b : Buf} {fuel : Nat} (hcache : b.headCache ≤ b.head) (hhead : b.head ≤ b.tail)
  (hfuel : 0 < fuel)
include hcache hhead hfuel

theorem GoRing.tryClaim_eq (slot : Option Nat) (typ : Word) (length : Nat) :
    GoRing.tryClaim C.size fuel slot typ length b = some (claimSpec C slot typ length b) := by
  obtain ⟨fuel, rfl⟩ : ∃ n, fuel = n + 1 := ⟨fuel - 1, by omega⟩
  have hmax : GoRing.maxMessageSize C.size = C.size / 2 - 8 := Ring.maxMessageSize_eq C
  have hC := C.max
  unfold GoRing.tryClaim claimSpec
  rw [hmax]
  split_ifs with htyp hlen
  · rfl
  · rfl
  · have halign := GoRing.align_eq (n := recordHeaderSize + length) (by unfold recordHeaderSize; omega)
    have hlt := Ring.align_lt (recordHeaderSize + length)
    rw [GoRing.claimLoop]
    simp only [halign, Ring.hasRoom_iff, add64_of_lt (show Ring.align (recordHeaderSize + length) +
      (C.size - b.tail % C.size) < 2 ^ 64 by unfold recordHeaderSize at hlt ⊢; omega)]
    change (if _ ≤ _ ∧ b.tail + Ring.need C b.tail _ ≤ _ then some (claimed C slot typ _ b)
      else if _ then _ else if _ ≤ _ ∧ b.tail + Ring.need C b.tail _ ≤ _ then
        some (claimed C slot typ _ { b with headCache := b.head }) else _) = _
    rw [if_neg (show ¬ b.head > b.tail by omega)]
    simp only [hhead, hcache.trans hhead, true_and]
    split_ifs <;> rfl

theorem CppRing.claimRecord_eq (slot : Option Nat) (typ : Word) (length : Nat) :
    CppRing.claimRecord C.size fuel slot typ length b = some (claimSpec C slot typ length b) := by
  obtain ⟨fuel, rfl⟩ : ∃ n, fuel = n + 1 := ⟨fuel - 1, by omega⟩
  have hmax : CppRing.maxMessageSize C.size = C.size / 2 - 8 := by
    have := C.max
    unfold CppRing.maxMessageSize recordHeaderSize
    simp only
    split <;> omega
  have hC := C.max
  unfold CppRing.claimRecord claimSpec
  rw [hmax]
  split_ifs with htyp hlen
  · rfl
  · rfl
  · have halign := CppRing.align8_eq (n := recordHeaderSize + length)
      (by unfold recordHeaderSize; omega)
    have hroom : ∀ tail head need : Nat, CppRing.hasRoom tail head C.size need = true ↔
        head ≤ tail ∧ tail + need ≤ head + C.size := by
      intro tail head need
      unfold CppRing.hasRoom
      split <;> simp <;> omega
    rw [CppRing.claimLoop]
    simp only [halign, hroom]
    change (if _ ≤ _ ∧ b.tail + Ring.need C b.tail _ ≤ _ then some (claimed C slot typ _ b)
      else if _ then _ else if _ ≤ _ ∧ b.tail + Ring.need C b.tail _ ≤ _ then
        some (claimed C slot typ _ { b with headCache := b.head }) else _) = _
    rw [if_neg (show ¬ b.head > b.tail by omega)]
    simp only [hhead, hcache.trans hhead, true_and]
    split_ifs <;> rfl

/-- The difference of cursors the C ring computes is a true difference as long as they stand in
    order, and then its test is the same comparison. -/
theorem CRing.ringTryClaim_eq (hlap : b.tail ≤ b.head + C.size) (hword : b.tail < 2 ^ 64)
    (slot : Option Nat) (typ : Word) (length : Nat) :
    CRing.ringTryClaim C.size fuel slot typ length b = some (claimSpec C slot typ length b) := by
  obtain ⟨fuel, rfl⟩ : ∃ n, fuel = n + 1 := ⟨fuel - 1, by omega⟩
  have hmax : CRing.ringMaxMessageSize C.size = C.size / 2 - 8 := Ring.maxMessageSize_eq C
  have hC := C.max
  unfold CRing.ringTryClaim claimSpec
  rw [hmax]
  split_ifs with htyp hlen
  · rfl
  · rfl
  · have halign := CRing.align8_eq (n := recordHeaderSize + length)
      (by unfold recordHeaderSize; omega)
    have hsign : CRing.isNegative (b.tail - b.head) = false := by
      unfold CRing.isNegative
      exact decide_eq_false (by omega)
    have hneed : 0 < Ring.need C b.tail (Ring.align (recordHeaderSize + length)) := by
      have := Ring.le_align (recordHeaderSize + length)
      rw [Ring.need_eq]
      unfold recordHeaderSize at this ⊢
      omega
    have hroom : ∀ head need : Nat, head ≤ b.tail → 0 < need →
        ((b.tail - head > C.size ∨ C.size - (b.tail - head) < need) ↔
          ¬ b.tail + need ≤ head + C.size) := by
      intro head need _ _
      omega
    rw [CRing.claimLoop]
    simp only [halign, sub64_of_le hhead hword, sub64_of_le (hcache.trans hhead) hword, hsign]
    change (if _ ∨ _ < Ring.need C b.tail _ then if _ then _ else if _ ∨ _ < Ring.need C b.tail _
      then _ else some (claimed C slot typ _ { b with headCache := b.head })
      else some (claimed C slot typ _ b)) = _
    rw [if_neg (show ¬ false = true by decide)]
    simp only [hroom _ _ hhead hneed, hroom _ _ (hcache.trans hhead) hneed, ite_not]
    split_ifs <;> rfl

end Claim

end GoIpc.Seq
