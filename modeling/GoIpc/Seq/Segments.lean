import GoIpc.Seq.Buffer
import GoIpc.Lib.Tape

namespace GoIpc.Seq

open GoIpc.Lib
open GoIpc.Ring (Word Capacity typePadding recordHeaderSize signed align le_align align_mod)

/-!
# Chains of complete records, and the loop of a read

The bytes between `head` and `tail` of a ring are read on the tape of `GoIpc.Lib.Tape`, where
cursor `c` is one cell.  A reader meets a chain of complete records there, and stops at the tail
or at a header that is not complete.

* `Seg`, `Seg.Stored` — a record, padding included, and what it means that a memory holds it;
* `Chain` — records one after the other, none of them across the end of the data region;
* `readable limit segs` — the records one read passes over;
* `Reads.eq` — **the loop of a read**: a loop that stops where it must and passes one record per
  round delivers exactly the messages of the readable records and clears exactly their bytes.
-/

/-! ### Records -/

/-- A complete record, as a reader meets it. -/
structure Seg where
  typ : Word
  payload : List UInt8

namespace Seg

variable (s : Seg)

/-- The length in the header of the record. -/
def len : Nat := recordHeaderSize + s.payload.length

/-- The bytes up to the next record. -/
def span : Nat := align s.len

/-- What a reader passes to its callback for the record. -/
def messages : List Message := if s.typ ≠ typePadding then [(s.typ, s.payload)] else []

theorem len_le_span : s.len ≤ s.span := le_align _

theorem eight_le_span : 8 ≤ s.span := by
  have := s.len_le_span
  unfold len recordHeaderSize at this
  omega

theorem span_mod : s.span % 8 = 0 := align_mod _

/-- The memory holds the record at address `i`. -/
structure At (m : Mem) (i : Nat) : Prop where
  length : signed (load32 m i) = s.len
  typ : load32 m (i + 4) = s.typ
  payload : slice m (i + recordHeaderSize) s.payload.length = s.payload

/-- A record whose length the three rings round up alike. -/
structure Stored (m : Mem) (i : Nat) : Prop extends s.At m i where
  small : s.len + 8 ≤ 2 ^ 31

variable {s}

/-- Only the bytes of the record matter. -/
theorem At.congr {m m' : Mem} {i j : Nat} (hs : s.At m i)
    (h : ∀ k, k < s.span → m (i + k) = m' (j + k)) : s.At m' j := by
  have h8 := s.eight_le_span
  have hlen := s.len_le_span
  unfold len recordHeaderSize at hlen
  refine ⟨?_, ?_, ?_⟩
  · rw [← hs.length, load32_congr (fun k hk => h k (by omega))]
  · rw [← hs.typ]
    refine (load32_congr fun k hk => ?_).symm
    rw [Nat.add_assoc, Nat.add_assoc]
    exact h (4 + k) (by omega)
  · refine Eq.trans (slice_congr fun k hk => ?_).symm hs.payload
    rw [Nat.add_assoc, Nat.add_assoc]
    exact h (recordHeaderSize + k) (by unfold recordHeaderSize; omega)

theorem Stored.congr {m m' : Mem} {i j : Nat} (hs : s.Stored m i)
    (h : ∀ k, k < s.span → m (i + k) = m' (j + k)) : s.Stored m' j :=
  ⟨hs.toAt.congr h, hs.small⟩

/-- In the window of the ring, a record of the tape is a record of the data region. -/
theorem Stored.of_unwrap {cap head c : Nat} {data : Mem} (hs : s.Stored (unwrap 0 cap head data) c)
    (hlo : head ≤ c) (hhi : c + s.span ≤ head + cap) (hend : c % cap + s.span ≤ cap) :
    s.Stored data (c % cap) := by
  refine hs.congr fun k hk => ?_
  rw [unwrap_of_mem (by omega) (by omega), add_mod_of_lt (by omega)]

end Seg

/-- The padding record of `n` bytes at cursor `c`, as the reader meets it. -/
def padSeg (T : Mem) (c n : Nat) : Seg :=
  ⟨typePadding, slice T (c + recordHeaderSize) (n - recordHeaderSize)⟩

section Pad

variable {T : Mem} {c n : Nat}

@[simp] theorem padSeg_messages : (padSeg T c n).messages = [] := if_neg (by simp [padSeg])

theorem padSeg_len (h8 : 8 ≤ n) : (padSeg T c n).len = n := by
  simp only [Seg.len, padSeg, length_slice, recordHeaderSize]
  omega

theorem padSeg_span (h8 : 8 ≤ n) (hmod : n % 8 = 0) : (padSeg T c n).span = n := by
  rw [Seg.span, padSeg_len h8, Ring.align_of_mod hmod]

theorem padSeg_stored (hlen : signed (load32 T c) = n) (htyp : load32 T (c + 4) = typePadding)
    (h8 : 8 ≤ n) (hsmall : n + 8 ≤ 2 ^ 31) : (padSeg T c n).Stored T c := by
  refine ⟨⟨by rw [padSeg_len h8]; exact hlen, htyp, ?_⟩, by rw [padSeg_len h8]; exact hsmall⟩
  simp only [padSeg, length_slice]

end Pad

/-! ### Chains -/

/-- The bytes a list of records takes. -/
def spans (segs : List Seg) : Nat := (segs.map Seg.span).sum

@[simp] theorem spans_nil : spans [] = 0 := rfl

@[simp] theorem spans_cons (s : Seg) (segs : List Seg) : spans (s :: segs) = s.span + spans segs := by
  simp [spans]

@[simp] theorem spans_append (l l' : List Seg) : spans (l ++ l') = spans l + spans l' := by
  simp [spans]

/-- What a reader passes to its callback for a list of records. -/
def messages (segs : List Seg) : List Message := segs.flatMap Seg.messages

@[simp] theorem messages_nil : messages [] = [] := rfl

@[simp] theorem messages_cons (s : Seg) (segs : List Seg) :
    messages (s :: segs) = s.messages ++ messages segs := List.flatMap_cons

/-- The tape holds the records `segs` from cursor `c` to cursor `stop`, each within one lap. -/
def Chain (cap : Nat) (T : Mem) : Nat → List Seg → Nat → Prop
  | c, [], stop => c = stop
  | c, s :: segs, stop => s.Stored T c ∧ c % cap + s.span ≤ cap ∧ Chain cap T (c + s.span) segs stop

namespace Chain

variable {cap c mid stop : Nat} {T T' : Mem} {segs l : List Seg}

theorem stop_eq (h : Chain cap T c segs stop) : stop = c + spans segs := by
  induction segs generalizing c with
  | nil => simpa [Chain] using h.symm
  | cons s segs ih =>
    have := ih h.2.2
    rw [spans_cons]
    omega

theorem le_stop (h : Chain cap T c segs stop) : c ≤ stop := by
  have := h.stop_eq
  omega

theorem stop_mod (h : Chain cap T c segs stop) (hc : c % 8 = 0) : stop % 8 = 0 := by
  induction segs generalizing c with
  | nil => obtain rfl : c = stop := h; exact hc
  | cons s segs ih =>
    have := s.span_mod
    exact ih h.2.2 (by omega)

/-- Every record takes at least its header. -/
theorem length_le (h : Chain cap T c segs stop) : 8 * segs.length ≤ stop - c := by
  induction segs generalizing c with
  | nil => simp
  | cons s segs ih =>
    have := ih h.2.2
    have := s.eight_le_span
    have := Chain.le_stop h.2.2
    rw [List.length_cons]
    omega

/-- Only the bytes of the chain matter. -/
theorem congr (h : Chain cap T c segs stop) (hT : ∀ x, c ≤ x → x < stop → T x = T' x) :
    Chain cap T' c segs stop := by
  induction segs generalizing c with
  | nil => exact h
  | cons s segs ih =>
    have := Chain.le_stop h.2.2
    refine ⟨h.1.congr fun k hk => hT _ (by omega) (by omega), h.2.1,
      ih h.2.2 fun x h1 h2 => hT x (by omega) h2⟩

theorem append (h : Chain cap T c segs mid) (h' : Chain cap T mid l stop) :
    Chain cap T c (segs ++ l) stop := by
  induction segs generalizing c with
  | nil => obtain rfl : c = mid := h; exact h'
  | cons s segs ih => exact ⟨h.1, h.2.1, ih h.2.2⟩

/-- The first part of a chain, and the rest. -/
theorem init (h : Chain cap T c (segs ++ l) stop) : Chain cap T c segs (c + spans segs) := by
  induction segs generalizing c with
  | nil => rfl
  | cons s segs ih =>
    refine ⟨h.1, h.2.1, ?_⟩
    rw [spans_cons, ← Nat.add_assoc]
    exact ih h.2.2

theorem rest (h : Chain cap T c (segs ++ l) stop) : Chain cap T (c + spans segs) l stop := by
  induction segs generalizing c with
  | nil => exact h
  | cons s segs ih =>
    rw [spans_cons, ← Nat.add_assoc]
    exact ih h.2.2

end Chain

/-! ### What one read passes over -/

/-- The records one read passes over: those up to the last message it may deliver. -/
def readable : Nat → List Seg → List Seg
  | 0, _ => []
  | _ + 1, [] => []
  | n + 1, s :: segs => s :: readable (n + 1 - s.messages.length) segs

@[simp] theorem readable_zero (segs : List Seg) : readable 0 segs = [] := by
  cases segs <;> rfl

@[simp] theorem readable_nil (n : Nat) : readable n [] = [] := by
  cases n <;> rfl

theorem readable_cons {n : Nat} (h : 0 < n) (s : Seg) (segs : List Seg) :
    readable n (s :: segs) = s :: readable (n - s.messages.length) segs := by
  obtain ⟨m, rfl⟩ : ∃ m, n = m + 1 := ⟨n - 1, by omega⟩
  rfl

/-- The readable records are the first of the chain; the rest stays. -/
theorem readable_append (n : Nat) (segs : List Seg) :
    ∃ rest, segs = readable n segs ++ rest := by
  induction segs generalizing n with
  | nil => exact ⟨[], by simp⟩
  | cons s segs ih =>
    cases n with
    | zero => exact ⟨s :: segs, by simp⟩
    | succ n =>
      obtain ⟨rest, hrest⟩ := ih (n + 1 - s.messages.length)
      refine ⟨rest, ?_⟩
      rw [readable_cons (by omega), List.cons_append, ← hrest]

/-- A limit no smaller than the number of records passes them all. -/
theorem readable_of_length_le {n : Nat} {segs : List Seg} (h : segs.length ≤ n) :
    readable n segs = segs := by
  induction segs generalizing n with
  | nil => simp
  | cons s segs ih =>
    have hone : s.messages.length ≤ 1 := by unfold Seg.messages; split <;> simp
    rw [List.length_cons] at h
    rw [readable_cons (by omega), ih (by omega)]

theorem spans_readable_le (n : Nat) (segs : List Seg) : spans (readable n segs) ≤ spans segs := by
  obtain ⟨rest, hrest⟩ := readable_append n segs
  have := congrArg spans hrest
  rw [spans_append] at this
  omega

/-- The data region after a read: the bytes of the records it passed are zero. -/
def wipe (cap : Nat) : Mem → Nat → List Seg → Mem
  | data, _, [] => data
  | data, c, s :: segs =>
      wipe cap (clear data (c % cap) (c % cap + s.span)) (c + s.span) segs

/-- On the tape the bytes of the chain, and no others, are cleared. -/
theorem unwrap_wipe {cap head c stop : Nat} {data T : Mem} {segs : List Seg}
    (h : Chain cap T c segs stop) (hlo : head ≤ c) (hhi : stop ≤ head + cap) :
    unwrap 0 cap head (wipe cap data c segs) =
      clear (unwrap 0 cap head data) c stop := by
  induction segs generalizing c data with
  | nil =>
    obtain rfl : c = stop := h
    funext x
    simp only [wipe, clear, patch]
    split_ifs <;> first | rfl | omega
  | cons s segs ih =>
    have hle := Chain.le_stop h.2.2
    rw [wipe, ih h.2.2 (by omega), clear, clear, Nat.add_sub_cancel_left,
      unwrap_patch _ hlo (by omega) h.2.1]
    funext x
    simp only [clear, patch]
    split_ifs <;> first | rfl | omega

/-! ### The loop -/

/-- The result of a read loop: consumed bytes, messages, data region, error. -/
abbrev Looped := Option (Nat × List Message × Mem × Option Fault)

/-- What one round of a read loop has to do: return where the limit, the tail or an incomplete
    header stops it, and otherwise pass one record. -/
structure Reads (cap head available limit : Nat)
    (f : Nat → Nat → List Message → Mem → Looped) : Prop where
  done : ∀ {fuel consumed out data},
    (limit ≤ out.length ∨ available ≤ consumed ∨
      signed (load32 data ((head + consumed) % cap)) ≤ 0) →
    f (fuel + 1) consumed out data = some (consumed, out, data, none)
  pass : ∀ {fuel consumed out data} {s : Seg}, out.length < limit →
    s.Stored data ((head + consumed) % cap) → (head + consumed) % cap + s.span ≤ cap →
    consumed + s.span ≤ available →
    f (fuel + 1) consumed out data = f fuel (consumed + s.span) (out ++ s.messages)
      (clear data ((head + consumed) % cap) ((head + consumed) % cap + s.span))

/-- A reader that has come to cursor `stop` goes no further: it is at the tail, or the header
    there is not complete. -/
def Blocked (T : Mem) (stop tail : Nat) : Prop :=
  stop = tail ∨ stop + 8 ≤ tail ∧ signed (load32 T stop) ≤ 0

/-- **The loop of a read.** From a chain of complete records it delivers the messages of the
    readable ones and clears their bytes, without an error. -/
theorem Reads.eq {C : Capacity} {head available limit fuel consumed stop : Nat}
    {f : Nat → Nat → List Message → Mem → Looped} {out : List Message} {data : Mem}
    {segs : List Seg} (hf : Reads C.size head available limit f)
    (hmod : (head + consumed) % 8 = 0) (hav : available ≤ C.size)
    (hchain : Chain C.size (unwrap 0 C.size head data) (head + consumed) segs stop)
    (hstop : stop ≤ head + available)
    (hend : Blocked (unwrap 0 C.size head data) stop (head + available))
    (hfuel : segs.length < fuel) :
    f fuel consumed out data =
      some (consumed + spans (readable (limit - out.length) segs),
        out ++ messages (readable (limit - out.length) segs),
        wipe C.size data (head + consumed) (readable (limit - out.length) segs), none) := by
  induction segs generalizing fuel consumed out data with
  | nil =>
    obtain ⟨fuel, rfl⟩ : ∃ n, fuel = n + 1 := ⟨fuel - 1, by omega⟩
    obtain rfl : head + consumed = stop := hchain
    rw [hf.done]
    · simp [wipe]
    · rcases hend with htail | ⟨hroom, hlen⟩
      · exact .inr (.inl (by omega))
      · have hidx := Ring.mod_size_mod_eight C hmod
        have h8 := C.mod_eight
        have hlt := Nat.mod_lt (head + consumed) (show 0 < C.size by have := C.min; omega)
        rw [← load32_unwrap (by omega) (by omega) (by omega)] at hlen
        exact .inr (.inr hlen)
  | cons s segs ih =>
    obtain ⟨fuel, rfl⟩ : ∃ n, fuel = n + 1 := ⟨fuel - 1, by simp at hfuel; omega⟩
    obtain ⟨hs, hfits, hrest⟩ := hchain
    have hle := hrest.le_stop
    by_cases hlimit : limit ≤ out.length
    · rw [hf.done (.inl hlimit), Nat.sub_eq_zero_of_le hlimit]
      simp [wipe]
    · have hwiped : unwrap 0 C.size head
            (clear data ((head + consumed) % C.size) ((head + consumed) % C.size + s.span)) =
          clear (unwrap 0 C.size head data) (head + consumed) (head + consumed + s.span) := by
        rw [clear, Nat.add_sub_cancel_left, unwrap_patch _ (by omega) (by omega) hfits, clear,
          Nat.add_sub_cancel_left]
      -- what lies behind the record is not touched when it is cleared
      have hkeep : ∀ x, head + consumed + s.span ≤ x → unwrap 0 C.size head data x =
          clear (unwrap 0 C.size head data) (head + consumed) (head + consumed + s.span) x := by
        intro x hx
        rw [clear, patch_of_not_mem _ _ (by omega)]
      have hmod' := s.span_mod
      rw [hf.pass (by omega) (hs.of_unwrap (by omega) (by omega) hfits) hfits (by omega),
        ih (by omega) (by rw [hwiped, ← Nat.add_assoc]; exact hrest.congr fun x h1 _ => hkeep x h1)
          (by
            rw [hwiped]
            refine hend.imp id (And.imp_right fun hlen => ?_)
            rwa [← load32_congr fun k _ => hkeep (stop + k) (by omega)])
          (by simpa using hfuel),
        readable_cons (by omega)]
      simp only [List.length_append, spans_cons, messages_cons, wipe, List.append_assoc,
        Nat.add_assoc, Nat.sub_sub]

end GoIpc.Seq
