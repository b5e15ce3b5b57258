import GoIpc.Seq.Go
import GoIpc.Seq.Siblings
import GoIpc.Seq.Segments

namespace GoIpc.Seq

open GoIpc.Lib
open GoIpc.Ring (Word Capacity typePadding recordHeaderSize signed)

/-!
# Reads of a ring with arbitrary bytes

`Reads` follows a read over complete records.  Here the data region may hold anything: a read steps over
the records it finds acceptable and stops at a header that is not complete, at one that is corrupt, or at
the limit.

* `Pow` — the capacity is a power of two, so that an index does not notice that cursors wrap;
* `Row` — the records a read steps over, one after the other in the region;
* `Scans` — what one round of a read loop does, for every content of the region;
  `Scans.result` and `Scans.total` — what a whole loop does, and that it returns;
* `GoRing.scans`, `CRing.scans`, `CppRing.scans` — the three loops.
-/

/-! ### Cursors -/

/-- The capacity of a data region: a power of two. -/
def Pow (cap : Nat) : Prop := ∃ k, 12 ≤ k ∧ k ≤ 63 ∧ cap = 2 ^ k

theorem Pow.le {cap : Nat} (h : Pow cap) : 4096 ≤ cap ∧ cap ≤ 2 ^ 63 := by
  obtain ⟨k, hlow, hhigh, rfl⟩ := h
  exact ⟨Nat.pow_le_pow_right (n := 2) (by decide) hlow, Nat.pow_le_pow_right (by decide) hhigh⟩

theorem Pow.dvd {cap : Nat} (h : Pow cap) : cap ∣ 2 ^ 64 := by
  obtain ⟨k, -, hhigh, rfl⟩ := h
  exact Nat.pow_dvd_pow 2 (by omega)

/-- The index of a cursor does not change when the cursor wraps. -/
theorem Pow.add64_mod {cap : Nat} (h : Pow cap) (a b : Nat) : add64 a b % cap = (a + b) % cap :=
  Nat.mod_mod_of_dvd _ h.dvd

theorem Capacity.pow_cap (C : Capacity) : Pow C.size := by
  obtain ⟨k, hk⟩ := C.pow
  have hmin := C.min
  have hmax := C.max
  rw [hk] at hmin hmax
  refine ⟨k, (Nat.pow_le_pow_iff_right (by decide : 1 < 2)).mp (show 2 ^ 12 ≤ 2 ^ k from hmin), ?_, hk⟩
  have := (Nat.pow_le_pow_iff_right (by decide : 1 < 2)).mp (show 2 ^ k ≤ 2 ^ 31 from hmax)
  omega

/-- The cursors of a ring: 64 bits, 8-aligned, at most one lap apart. -/
structure Window (cap : Nat) (b : Buf) : Prop where
  head_lt : b.head < 2 ^ 64
  tail_lt : b.tail < 2 ^ 64
  head_mod : b.head % 8 = 0
  tail_mod : b.tail % 8 = 0
  lap : sub64 b.tail b.head ≤ cap

/-- What is left behind a head that has moved. -/
theorem sub64_add64 {tail head n : Nat} (hhead : head < 2 ^ 64) (htail : tail < 2 ^ 64)
    (h : n ≤ sub64 tail head) : sub64 tail (add64 head n) = sub64 tail head - n := by
  unfold sub64 add64 at *
  omega

/-! ### Records in the region -/

variable {s : Seg} {c : Nat}

/-- The region holds the records from cursor `c` on, each in one piece. -/
def Row (cap : Nat) (data : Mem) : Nat → List Seg → Prop
  | _, [] => True
  | c, s :: segs => s.At data (c % cap) ∧ c % cap + s.span ≤ cap ∧ Row cap data (c + s.span) segs

/-- Only the bytes of the records matter. -/
theorem Row.congr {cap : Nat} {data data' : Mem} {segs : List Seg} (h : Row cap data c segs)
    (heq : ∀ x, c ≤ x → x < c + spans segs → data (x % cap) = data' (x % cap)) : Row cap data' c segs := by
  induction segs generalizing c with
  | nil => trivial
  | cons s segs ih =>
    rw [spans_cons] at heq
    refine ⟨h.1.congr fun k hk => ?_, h.2.1, ih h.2.2 fun x h1 h2 => heq x (by omega) (by omega)⟩
    have hidx := h.2.1
    have hx := heq (c + k) (by omega) (by omega)
    rwa [add_mod_of_lt (by omega)] at hx

/-- Clearing a record leaves the rest of the lap. -/
theorem clear_mod_of_not_mem {cap head n x : Nat} {data : Mem} (hlo : head ≤ c) (hhi : c + n ≤ head + cap)
    (hend : c % cap + n ≤ cap) (hx1 : head ≤ x) (hx2 : x < head + cap) (hx : x < c ∨ c + n ≤ x) : clear data (c % cap) (c % cap + n) (x % cap) = data (x % cap) := by
  have hiff := mod_mem_span hlo hhi hend hx1 hx2
  rw [clear, Nat.add_sub_cancel_left, patch_of_not_mem]
  omega

/-- A read leaves the bytes it has not stepped over. -/
theorem wipe_of_not_mem {cap head x : Nat} {data : Mem} {segs : List Seg} (h : Row cap data c segs)
    (hlo : head ≤ c) (hhi : c + spans segs ≤ head + cap) (hx1 : head ≤ x) (hx2 : x < head + cap)
    (hx : x < c ∨ c + spans segs ≤ x) : wipe cap data c segs (x % cap) = data (x % cap) := by
  induction segs generalizing c data with
  | nil => rfl
  | cons s segs ih =>
    rw [spans_cons] at hhi hx
    have hrest : Row cap (clear data (c % cap) (c % cap + s.span)) (c + s.span) segs :=
      h.2.2.congr fun y h1 h2 => (clear_mod_of_not_mem hlo (by omega) h.2.1 (by omega) (by omega)
        (.inr h1)).symm
    rw [wipe, ih hrest (by omega) (by omega) (by omega)]
    exact clear_mod_of_not_mem hlo (by omega) h.2.1 hx1 hx2 (by omega)

/-- A read clears the bytes it has stepped over. -/
theorem wipe_of_mem {cap head x : Nat} {data : Mem} {segs : List Seg} (h : Row cap data c segs)
    (hlo : head ≤ c) (hhi : c + spans segs ≤ head + cap) (hx1 : c ≤ x) (hx2 : x < c + spans segs) :
    wipe cap data c segs (x % cap) = 0 := by
  induction segs generalizing c data with
  | nil =>
    rw [spans_nil] at hx2
    omega
  | cons s segs ih =>
    rw [spans_cons] at hhi hx2
    have hrest : Row cap (clear data (c % cap) (c % cap + s.span)) (c + s.span) segs :=
      h.2.2.congr fun y h1 h2 => (clear_mod_of_not_mem hlo (by omega) h.2.1 (by omega) (by omega)
        (.inr h1)).symm
    rw [wipe]
    by_cases hx : x < c + s.span
    · rw [wipe_of_not_mem hrest (show head ≤ c + s.span by omega) (by omega) (by omega) (by omega) (.inl hx)]
      have hmem := (mod_mem_span hlo (show c + s.span ≤ head + cap by omega) h.2.1 (x := x) (by omega)
        (by omega)).mpr ⟨hx1, hx⟩
      rw [clear, patch_of_mem _ _ hmem.1 (by omega)]
    · exact ih hrest (by omega) (by omega) (by omega) (by omega)

/-- Nothing outside the region changes. -/
theorem wipe_of_le {cap i : Nat} {data data' : Mem} {segs : List Seg} (h : Row cap data c segs)
    (hi : cap ≤ i) : wipe cap data' c segs i = data' i := by
  induction segs generalizing c data' with
  | nil => rfl
  | cons s segs ih =>
    have hend := h.2.1
    rw [wipe, ih h.2.2, clear, patch_of_not_mem]
    omega

theorem spans_mod (segs : List Seg) : spans segs % 8 = 0 := by
  induction segs with
  | nil => rfl
  | cons s segs ih =>
    have := s.span_mod
    rw [spans_cons]
    omega

/-! ### Headers -/

theorem signed_lt (w : Word) : signed w < 2 ^ 31 := BitVec.toInt_lt

/-- The header at index `i` claims a length that a reader with `room` bytes before the tail rejects;
    `step` is the rounding of the implementation. -/
def Bad (step : Int → Nat) (cap : Nat) (data : Mem) (i room : Nat) : Prop :=
  0 < room ∧ 0 < signed (load32 data i) ∧
    (signed (load32 data i) < recordHeaderSize ∨ step (signed (load32 data i)) > room ∨
      i + step (signed (load32 data i)) > cap)

instance (step : Int → Nat) (cap : Nat) (data : Mem) (i room : Nat) : Decidable (Bad step cap data i room) :=
  inferInstanceAs (Decidable (_ ∧ _))

/-- The record that the header at index `i` describes. -/
def found (data : Mem) (i : Nat) : Seg :=
  ⟨load32 data (i + 4),
    slice data (i + recordHeaderSize) ((signed (load32 data i)).toNat - recordHeaderSize)⟩

section Found

variable {data : Mem} {i : Nat}

theorem found_len (h : ¬ signed (load32 data i) < recordHeaderSize) :
    (found data i).len = (signed (load32 data i)).toNat := by
  simp only [found, Seg.len, length_slice]
  unfold recordHeaderSize at *
  omega

theorem found_at (h : ¬ signed (load32 data i) < recordHeaderSize) : (found data i).At data i := by
  refine ⟨?_, rfl, ?_⟩
  · rw [found_len h]
    unfold recordHeaderSize at h
    omega
  · simp only [found, length_slice]

theorem found_span (h : ¬ signed (load32 data i) < recordHeaderSize) :
    (found data i).span = Ring.align (signed (load32 data i)).toNat := by
  rw [Seg.span, found_len h]

/-- The header determines the record. -/
theorem Seg.At.eq_found (h : s.At data i) : found data i = s := by
  have hsize : (signed (load32 data i)).toNat - recordHeaderSize = s.payload.length := by
    rw [h.length]
    unfold Seg.len
    omega
  unfold found
  rw [hsize, h.typ, h.payload]

end Found

/-- An implementation rounds a length up to 8 bytes, or gives more than any ring has. -/
def Rounds (step : Int → Nat) : Prop :=
  ∀ n : Int, 0 ≤ n → n < 2 ^ 31 → step n ≤ 2 ^ 63 → step n = Ring.align n.toNat

/-- The result of a read loop that collects values of type `α`. -/
abbrev Scanned (α : Type) := Option (Nat × List α × Mem × Option Fault)

/-- What a read that has passed `count` messages makes of the header at index `i`: a record to step over, or
    the reason to return.  `refuse` says which records the caller of the read does not take. -/
def accept (step : Int → Nat) (limit : Int) (refuse : Seg → Option (Option Fault)) (cap count : Nat)
    (data : Mem) (i room : Nat) : Except (Option Fault) Seg :=
  if count < limit ∧ 0 < room ∧ 0 < signed (load32 data i) then
    if Bad step cap data i room then .error (some .corrupt)
    else
      match refuse (found data i) with
      | some err => .error err
      | none => .ok (found data i)
  else .error none

section Accept

variable {step : Int → Nat} {limit : Int} {refuse : Seg → Option (Option Fault)} {cap count i room : Nat}
  {data : Mem}

/-- A record that a read steps over lies in the region and in the window. -/
theorem accept_ok (hstep : Rounds step) (hcap : cap ≤ 2 ^ 63)
    (h : accept step limit refuse cap count data i room = .ok s) :
    (s.At data i ∧ i + s.span ≤ cap ∧ s.span ≤ room) ∧ step s.len = s.span ∧ refuse s = none := by
  unfold accept at h
  split_ifs at h with hmore hbad
  have hgood : ¬ (signed (load32 data i) < recordHeaderSize ∨ step (signed (load32 data i)) > room ∨
      i + step (signed (load32 data i)) > cap) := fun hb => hbad ⟨hmore.2.1, hmore.2.2, hb⟩
  simp only [not_or, not_lt] at hgood
  obtain ⟨hlen, hroom, hend⟩ := hgood
  have hlen : ¬ signed (load32 data i) < recordHeaderSize := not_lt.mpr hlen
  have hspan : step (signed (load32 data i)) = (found data i).span := by
    rw [found_span hlen]
    exact hstep _ (by omega) (signed_lt _) (by omega)
  split at h
  next => cases h
  next hnone =>
    obtain rfl := Except.ok.inj h
    rw [hspan] at hroom hend
    refine ⟨⟨found_at hlen, hend, hroom⟩, ?_, hnone⟩
    rw [← hspan, ← (found_at hlen).length]

/-- A read steps over a record that its caller takes. -/
theorem accept_of_at (hs : s.At data i) (hend : i + s.span ≤ cap) (hroom : s.span ≤ room)
    (hstep : step s.len = s.span) (htake : refuse s = none) (hcount : count < limit) :
    accept step limit refuse cap count data i room = .ok s := by
  have h8 := s.eight_le_span
  have hlen := hs.length
  have hheader : recordHeaderSize ≤ s.len := Nat.le_add_right ..
  have hgood : ¬ Bad step cap data i room := by
    rintro ⟨-, -, hbad⟩
    rw [hlen, hstep] at hbad
    omega
  unfold accept
  unfold recordHeaderSize at hheader
  rw [if_pos ⟨hcount, by omega, by omega⟩, if_neg hgood, hs.eq_found, htake]

theorem accept_bad (hbad : Bad step cap data i room) (hcount : count < limit) :
    accept step limit refuse cap count data i room = .error (some .corrupt) := by
  unfold accept
  rw [if_pos ⟨hcount, hbad.1, hbad.2.1⟩, if_pos hbad]

/-- Why a read returns. -/
theorem accept_error {err : Option Fault}
    (h : accept step limit refuse cap count data i room = .error err) :
    err = none ∨ (err = some .corrupt ∧ count < limit ∧ Bad step cap data i room) ∨
      ∃ s, refuse s = some err := by
  unfold accept at h
  split_ifs at h with hmore hbad
  · exact .inr (.inl ⟨(Except.error.inj h).symm, hmore.1, hbad⟩)
  · split at h
    next hrefuse =>
      obtain rfl := Except.error.inj h
      exact .inr (.inr ⟨_, hrefuse⟩)
    next => cases h
  · exact .inl (Except.error.inj h).symm

/-- The tests of a round, in the order in which the loops make them. -/
theorem accept_round {α : Type} {out : List α} {passes : Seg → Scanned α} {rest : Scanned α}
    {more bad : Prop} [Decidable more] [Decidable bad] {consumed available : Nat}
    (hmore : more ↔ out.length < limit ∧ consumed < available)
    (hbad : 0 < signed (load32 data i) → (bad ↔ signed (load32 data i) < recordHeaderSize ∨
      step (signed (load32 data i)) > available - consumed ∨ i + step (signed (load32 data i)) > cap))
    (hrest : ¬ signed (load32 data i) < recordHeaderSize →
      step (signed (load32 data i)) ≤ available - consumed → i + step (signed (load32 data i)) ≤ cap →
      rest = match refuse (found data i) with
        | some err => some (consumed, out, data, err)
        | none => passes (found data i)) :
    (if more then
      if signed (load32 data i) ≤ 0 then some (consumed, out, data, none)
      else if bad then some (consumed, out, data, some .corrupt) else rest
    else some (consumed, out, data, none)) =
      match accept step limit refuse cap out.length data i (available - consumed) with
      | .error err => some (consumed, out, data, err)
      | .ok s => passes s := by
  unfold accept
  -- the tests of the loop in the order of the code, each against its part of `accept`
  by_cases hm : more
  · by_cases hopen : signed (load32 data i) ≤ 0
    · rw [if_pos hm, if_pos hopen, if_neg (by omega)]
    · obtain ⟨hcount, hroom⟩ := hmore.mp hm
      have hbad := hbad (not_le.mp hopen)
      have hread : out.length < limit ∧ 0 < available - consumed ∧ 0 < signed (load32 data i) :=
        ⟨hcount, by omega, by omega⟩
      rw [if_pos hm, if_neg hopen, if_pos hread]
      by_cases hb : bad
      · have hBad : Bad step cap data i (available - consumed) := ⟨hread.2.1, hread.2.2, hbad.mp hb⟩
        rw [if_pos hb, if_pos hBad]
      · have hBad : ¬ Bad step cap data i (available - consumed) := fun h => hb (hbad.mpr h.2.2)
        rw [if_neg hb, if_neg hBad]
        rw [hbad] at hb
        simp only [not_or, not_lt] at hb
        rw [hrest (not_lt.mpr hb.1) hb.2.1 hb.2.2]
        cases refuse (found data i) <;> rfl
  · rw [if_neg hm, if_neg fun h => hm (hmore.mpr ⟨h.1, by omega⟩)]

end Accept

/-! ### Read loops -/

/-- A read loop: each round returns or steps over one record and clears it, as `accept` says. -/
structure Scans {α : Type} (step : Int → Nat) (limit : Int) (refuse : Seg → Option (Option Fault))
    (cap head available : Nat) (emit : Nat → Seg → List α) (f : Nat → Nat → List α → Mem → Scanned α) :
    Prop where
  rounds : Rounds step
  cap_le : cap ≤ 2 ^ 63
  zero : ∀ {consumed out data}, f 0 consumed out data = none
  round : ∀ (fuel : Nat) (out : List α) (data : Mem) {consumed : Nat},
    f (fuel + 1) consumed out data =
      match accept step limit refuse cap out.length data ((head + consumed) % cap) (available - consumed) with
      | .error err => some (consumed, out, data, err)
      | .ok s => f fuel (consumed + s.span) (out ++ emit (head + consumed) s)
          (clear data ((head + consumed) % cap) ((head + consumed) % cap + s.span))

/-- What the loop collects from the records from cursor `c` on. -/
def emitted {α : Type} (emit : Nat → Seg → List α) : Nat → List Seg → List α
  | _, [] => []
  | c, s :: segs => emit c s ++ emitted emit (c + s.span) segs

section Scans

variable {α : Type} {step : Int → Nat} {limit : Int} {refuse : Seg → Option (Option Fault)}
  {cap head available fuel consumed n : Nat} {emit : Nat → Seg → List α}
  {f : Nat → Nat → List α → Mem → Scanned α} {out out' : List α}
  {data data' : Mem} {err : Option Fault} {segs : List Seg}

/-- The record just cleared is not part of the row behind it. -/
theorem Row.clear_head (hfits : (head + consumed) % cap + s.span ≤ cap)
    (hle : consumed + s.span + spans segs ≤ cap) :
    Row cap (clear data ((head + consumed) % cap) ((head + consumed) % cap + s.span))
        (head + consumed + s.span) segs ↔ Row cap data (head + consumed + s.span) segs := by
  have hsame : ∀ x, head + consumed + s.span ≤ x → x < head + consumed + s.span + spans segs →
      clear data ((head + consumed) % cap) ((head + consumed) % cap + s.span) (x % cap) = data (x % cap) :=
    fun x h1 h2 => clear_mod_of_not_mem (Nat.le_add_right head consumed) (by omega) hfits (by omega)
      (by omega) (.inr h1)
  exact ⟨fun h => h.congr hsame, fun h => h.congr fun x h1 h2 => (hsame x h1 h2).symm⟩

/-- **A whole loop** steps over a row of records that its caller takes, collects what they emit and clears
    their bytes. -/
theorem Scans.result (hf : Scans step limit refuse cap head available emit f) (hav : available ≤ cap)
    (hle : consumed ≤ available) (h : f fuel consumed out data = some (n, out', data', err)) :
    ∃ segs, Row cap data (head + consumed) segs ∧ n = consumed + spans segs ∧ n ≤ available ∧
      (∀ s ∈ segs, step s.len = s.span ∧ refuse s = none) ∧
      out' = out ++ emitted emit (head + consumed) segs ∧
      data' = wipe cap data (head + consumed) segs ∧
      (err = none ∨ (err = some .corrupt ∧ out'.length < limit ∧
        Bad step cap data' ((head + n) % cap) (available - n)) ∨ ∃ s, refuse s = some err) := by
  induction fuel generalizing consumed out data with
  | zero =>
    rw [hf.zero] at h
    cases h
  | succ fuel ih =>
    rw [hf.round fuel out data] at h
    split at h
    next err' hstop =>
      cases h
      exact ⟨[], trivial, rfl, hle, nofun, (List.append_nil _).symm, rfl,
        accept_error hstop⟩
    next s hpass =>
      obtain ⟨⟨hs, hfits, hroom⟩, htake⟩ := accept_ok hf.rounds hf.cap_le hpass
      obtain ⟨segs, hrow, hn, hnle, htakes, hout, hdata, hwhy⟩ := ih (by omega) h
      rw [← Nat.add_assoc] at hrow hout hdata
      refine ⟨s :: segs, ⟨hs, hfits, (Row.clear_head hfits (by omega)).mp hrow⟩, ?_, hnle,
        List.forall_mem_cons.mpr ⟨htake, htakes⟩, ?_, hdata, hwhy⟩
      · rw [spans_cons, hn, Nat.add_assoc]
      · rw [hout, List.append_assoc]
        rfl

/-- **A bad header behind a row of records is reached**. -/
theorem Scans.reaches (hf : Scans step limit refuse cap head available emit f) (hav : available ≤ cap)
    (hrow : Row cap data (head + consumed) segs) (hle : consumed + spans segs ≤ available)
    (htake : ∀ s ∈ segs, step s.len = s.span ∧ refuse s = none)
    (hcount : (out ++ emitted emit (head + consumed) segs).length < limit)
    (hbad : Bad step cap (wipe cap data (head + consumed) segs) ((head + (consumed + spans segs)) % cap)
      (available - (consumed + spans segs)))
    (h : f fuel consumed out data = some (n, out', data', err)) :
    n = consumed + spans segs ∧ err = some .corrupt := by
  induction fuel generalizing segs consumed out data with
  | zero =>
    rw [hf.zero] at h
    cases h
  | succ fuel ih =>
    rw [hf.round fuel out data] at h
    cases segs with
    | nil =>
      rw [emitted, List.append_nil] at hcount
      have hbad : Bad step cap data ((head + consumed) % cap) (available - consumed) := hbad
      rw [accept_bad hbad hcount] at h
      cases h
      exact ⟨rfl, rfl⟩
    | cons s segs =>
      obtain ⟨hs, hfits, hrest⟩ := hrow
      obtain ⟨⟨hstep, htake'⟩, htakes⟩ := List.forall_mem_cons.mp htake
      rw [spans_cons] at hle
      rw [spans_cons, ← Nat.add_assoc consumed] at hbad
      rw [emitted, ← List.append_assoc] at hcount
      have hfewer : out.length < limit := by
        rw [List.length_append, List.length_append] at hcount
        omega
      rw [accept_of_at hs hfits (by omega) hstep htake' hfewer] at h
      rw [wipe] at hbad
      rw [← Row.clear_head hfits (by omega)] at hrest
      rw [Nat.add_assoc head consumed] at hrest hcount hbad
      rw [spans_cons, ← Nat.add_assoc]
      exact ih hrest (by omega) htakes hcount hbad h

/-- **A loop returns**: every record takes 8 bytes of the window. -/
theorem Scans.total (hf : Scans step limit refuse cap head available emit f) (out : List α) (data : Mem)
    (hle : consumed ≤ available) (hfuel : available - consumed < 8 * fuel) :
    ∃ r, f fuel consumed out data = some r := by
  induction fuel generalizing consumed out data with
  | zero => omega
  | succ fuel ih =>
    rw [hf.round fuel out data]
    split
    next => exact ⟨_, rfl⟩
    next s hpass =>
      obtain ⟨⟨-, -, hroom⟩, -⟩ := accept_ok hf.rounds hf.cap_le hpass
      have := s.eight_le_span
      exact ih _ _ (by omega) (by omega)

/-- A bad header at the head. -/
theorem Scans.bad (hf : Scans step limit refuse cap head available emit f) (hfuel : 0 < fuel)
    (hlimit : 0 < limit) (h : Bad step cap data (head % cap) available) :
    f fuel 0 [] data = some (0, [], data, some .corrupt) := by
  obtain ⟨fuel, rfl⟩ : ∃ n, fuel = n + 1 := ⟨fuel - 1, by omega⟩
  rw [hf.round fuel [] data, Nat.add_zero, Nat.sub_zero, accept_bad h (by simpa using hlimit)]

/-- Over complete records a loop that takes them does what `Reads` says. -/
theorem Scans.reads {f : Nat → Nat → List Message → Mem → Scanned Message}
    (hf : Scans step limit refuse cap head available (fun _ s => s.messages) f)
    (hstep : ∀ n : Nat, n + 8 ≤ 2 ^ 31 → step n = Ring.align n)
    (htake : ∀ s : Seg, s.len + 8 ≤ 2 ^ 31 → refuse s = none) :
    Reads cap head available limit.toNat f where
  done {fuel consumed out data} h := by
    rw [hf.round fuel out data, accept, if_neg (by omega)]
  pass {fuel consumed out data s} hlimit hs hfits hroom := by
    rw [hf.round fuel out data, accept_of_at hs.toAt hfits (by omega) (hstep _ hs.small)
      (htake s hs.small) (by omega)]

end Scans

/-- The record appended to the output of a read. -/
theorem Seg.append_messages {out : List Message} (s : Seg) :
    (if s.typ ≠ typePadding then out ++ [(s.typ, s.payload)] else out) = out ++ s.messages := by
  unfold Seg.messages
  split <;> simp

/-- The span of a record in the region is its rounded length. -/
theorem Pow.found_span {cap : Nat} (hcap : Pow cap) {step : Int → Nat} (hstep : Rounds step) {data : Mem}
    {i : Nat} (hlen : ¬ signed (load32 data i) < recordHeaderSize)
    (hend : i + step (signed (load32 data i)) ≤ cap) : step (signed (load32 data i)) = (found data i).span := by
  have hmax := hcap.le.2
  rw [GoIpc.Seq.found_span hlen]
  exact hstep _ (by omega) (signed_lt _) (by omega)

/-! ### Rounding -/

theorem GoRing.align_eq {n : Nat} (h : n + 8 ≤ 2 ^ 31) : GoRing.align n = Ring.align n := by
  unfold GoRing.align Ring.align
  rw [Int.bmod_eq_of_le (by omega) (by omega)]
  omega

theorem CRing.align8_eq {n : Nat} (h : n + 8 ≤ 2 ^ 31) : CRing.align8 n = Ring.align n := by
  unfold CRing.align8 Ring.align
  rw [add64_of_lt (by omega)]
  omega

theorem CppRing.align8_eq {n : Nat} (h : n + 8 ≤ 2 ^ 31) : CppRing.align8 n = Ring.align n := by
  unfold CppRing.align8 Ring.align
  rw [add64_of_lt (by omega)]

/-! ### Go -/

/-- Where the 32-bit sum of `align` wraps, the result is larger than any ring. -/
theorem GoRing.align_of_le {n : Int} (h0 : 0 ≤ n) (hn : n < 2 ^ 31) (h : GoRing.align n ≤ 2 ^ 63) :
    GoRing.align n = Ring.align n.toNat := by
  by_cases hsmall : n + 8 ≤ 2 ^ 31
  · have heq := GoRing.align_eq (n := n.toNat) (by omega)
    rwa [Int.toNat_of_nonneg h0] at heq
  · have hwrap : Int.bmod (n + 7) (2 ^ 32) = n + 7 - 2 ^ 32 := by
      rw [Int.bmod_def]
      split_ifs <;> omega
    unfold GoRing.align at h
    rw [hwrap] at h
    omega

/-- A slice of the data region that `Read` passes to `fn`, with the cursor of its record. -/
structure Slice where
  cursor : Nat
  lo : Nat
  hi : Nat
  typ : Word
  bytes : List UInt8

def Slice.message (p : Slice) : Message := (p.typ, p.bytes)

namespace GoRing

variable (cap : Nat)

/-- The loop of `Read` with the slices in place of their contents. -/
def traceLoop (limit : Int) (head available : Nat) : Nat → Nat → List Slice → Mem → Scanned Slice
  | 0, _, _, _ => none
  | fuel + 1, consumed, out, data =>
    if out.length < limit ∧ consumed < available then
      let index := add64 head consumed % cap
      let length := signed (load32 data index)
      if length ≤ 0 then some (consumed, out, data, none)
      else
        let step := align length
        if length < recordHeaderSize ∨ step > available - consumed ∨ index + step > cap then
          some (consumed, out, data, some .corrupt)
        else
          let typ := load32 data (index + 4)
          let payload : Slice :=
            ⟨head + consumed, index + recordHeaderSize, index + length.toNat, typ,
              slice data (index + recordHeaderSize) (length.toNat - recordHeaderSize)⟩
          let out := if typ ≠ typePadding then out ++ [payload] else out
          let data := store32 (clear data (index + 4) (index + step)) index 0
          traceLoop limit head available fuel (consumed + step) out data
    else some (consumed, out, data, none)

/-- `Read` with the slices it passes. -/
def readTrace (fuel : Nat) (limit : Int) (b : Buf) : Option (Buf × List Slice × Option Fault) :=
  if limit ≤ 0 then some (b, [], none)
  else
    (traceLoop cap limit b.head (sub64 b.tail b.head) fuel 0 [] b.data).map fun
      | (_, out, data, some f) => ({ b with data := data }, out, some f)
      | (consumed, out, data, none) =>
        ({ b with data := data, head := if consumed > 0 then add64 b.head consumed else b.head },
          out, none)

variable {cap}

/-- The trace of a loop has the messages of the loop. -/
theorem readLoop_eq_trace (limit : Int) (head available fuel consumed : Nat) (out : List Slice)
    (data : Mem) :
    readLoop cap limit head available fuel consumed (out.map Slice.message) data =
      (traceLoop cap limit head available fuel consumed out data).map fun r =>
        (r.1, r.2.1.map Slice.message, r.2.2) := by
  induction fuel generalizing consumed out data with
  | zero => rfl
  | succ fuel ih =>
    rw [readLoop, traceLoop, List.length_map]
    dsimp only
    split_ifs
    · rfl
    · rfl
    · rw [← ih, List.map_append]
      rfl
    · exact ih ..
    · rfl

theorem read_eq_trace (fuel : Nat) (limit : Int) (b : Buf) :
    read cap fuel limit b =
      (readTrace cap fuel limit b).map fun r => (r.1, r.2.1.map Slice.message, r.2.2) := by
  unfold read readTrace
  split_ifs
  · rfl
  · rw [← List.map_nil (f := Slice.message), readLoop_eq_trace, Option.map_map, Option.map_map]
    congr 1
    funext r
    obtain ⟨consumed, out, data, _ | f⟩ := r <;> rfl

/-- The slice of a record at cursor `c`. -/
def emit (cap c : Nat) (s : Seg) : List Slice :=
  if s.typ ≠ typePadding then
    [⟨c, c % cap + recordHeaderSize, c % cap + s.len, s.typ, s.payload⟩]
  else []

theorem append_emit {out : List Slice} {data : Mem} {i : Nat} (hi : c % cap = i)
    (hlen : ¬ signed (load32 data i) < recordHeaderSize) :
    out ++ emit cap c (found data i) =
      if load32 data (i + 4) ≠ typePadding then
        out ++ [⟨c, i + recordHeaderSize, i + (signed (load32 data i)).toNat,
          load32 data (i + 4),
          slice data (i + recordHeaderSize) ((signed (load32 data i)).toNat - recordHeaderSize)⟩]
      else out := by
  unfold emit
  rw [found_len hlen, hi]
  show out ++ (if load32 data (i + 4) ≠ typePadding then _ else _) = _
  split_ifs
  · rfl
  · exact List.append_nil _

theorem rounds_align : Rounds align := fun _ h0 hn h => align_of_le h0 hn h

/-- **The loop of `Read`**, for every content of the region.  Its caller takes every record. -/
theorem scans (hcap : Pow cap) {limit : Int} {head available : Nat} :
    Scans align limit (fun _ => none) cap head available (fun _ s => s.messages)
      (readLoop cap limit head available) where
  rounds := rounds_align
  cap_le := hcap.le.2
  zero := rfl
  round := by
    intro fuel out data consumed
    rw [readLoop]
    simp only [hcap.add64_mod]
    generalize (head + consumed) % cap = i
    refine accept_round Iff.rfl (fun _ => Iff.rfl) fun hlen hroom hend => ?_
    have hspan := hcap.found_span rounds_align hlen hend
    have h8 := (found data i).eight_le_span
    rw [hspan] at hend ⊢
    rw [store32_clear _ (by omega), ← Seg.append_messages]
    rfl

/-- The loop with its slices. -/
theorem scans_trace (hcap : Pow cap) (limit : Int) (head available : Nat) :
    Scans align limit (fun _ => none) cap head available (emit cap) (traceLoop cap limit head available) where
  rounds := rounds_align
  cap_le := hcap.le.2
  zero := rfl
  round := by
    intro fuel out data consumed
    rw [traceLoop]
    simp only [hcap.add64_mod]
    generalize hi : (head + consumed) % cap = i
    refine accept_round Iff.rfl (fun _ => Iff.rfl) fun hlen hroom hend => ?_
    have hspan := hcap.found_span rounds_align hlen hend
    have h8 := (found data i).eight_le_span
    rw [hspan] at hend ⊢
    rw [store32_clear _ (by omega), append_emit hi hlen]

end GoRing

/-! ### C and C++ -/

theorem CRing.rounds_align8 : Rounds CRing.align8 := by
  intro n h0 hn _
  unfold CRing.align8 Ring.align
  rw [add64_of_lt (by omega)]
  omega

theorem CppRing.rounds_align8 : Rounds (fun n => CppRing.align8 n.toNat) := by
  intro n h0 hn _
  show CppRing.align8 n.toNat = Ring.align n.toNat
  unfold CppRing.align8 Ring.align
  rw [add64_of_lt (by omega)]

/-- A payload that `goipc__ring_read` does not take: it is longer than `maxlen`. -/
def CRing.refuse (maxlen : Nat) (s : Seg) : Option (Option Fault) :=
  if s.typ ≠ typePadding ∧ s.payload.length > maxlen then some (some .buffer) else none

/-- A message that the callback of `read_accept` declines. -/
def CppRing.refuse (fn : Message → Bool) (s : Seg) : Option (Option Fault) :=
  if s.typ ≠ typePadding ∧ ¬ fn (s.typ, s.payload) then some none else none

section

variable {cap head available : Nat} (hcap : Pow cap)
include hcap

theorem CRing.scans {limit : Int} {maxlen : Nat} :
    Scans CRing.align8 limit (CRing.refuse maxlen) cap head available (fun _ s => s.messages)
      (CRing.readLoop cap limit maxlen head available) where
  rounds := CRing.rounds_align8
  cap_le := hcap.le.2
  zero := rfl
  round := by
    intro fuel out data consumed
    rw [CRing.readLoop]
    simp only [hcap.add64_mod]
    generalize (head + consumed) % cap = i
    refine accept_round Iff.rfl (fun _ => Iff.rfl) fun hlen hroom hend => ?_
    have hspan := hcap.found_span CRing.rounds_align8 hlen hend
    have h8 := (found data i).eight_le_span
    rw [hspan] at hend ⊢
    have hsize : (found data i).payload.length = (signed (load32 data i)).toNat - recordHeaderSize :=
      length_slice ..
    by_cases hlong : (found data i).typ ≠ typePadding ∧ (found data i).payload.length > maxlen
    · rw [show CRing.refuse maxlen (found data i) = some (some .buffer) from if_pos hlong]
      rw [hsize] at hlong
      exact if_pos hlong
    · rw [show CRing.refuse maxlen (found data i) = none from if_neg hlong]
      rw [hsize] at hlong
      refine (if_neg hlong).trans ?_
      rw [show i + 4 + ((found data i).span - 4) = i + (found data i).span by omega,
        store32_clear _ (by omega), ← Seg.append_messages]
      rfl

theorem CppRing.scans {limit : Nat} {fn : Message → Bool} :
    Scans (fun n => CppRing.align8 n.toNat) limit (CppRing.refuse fn) cap head available
      (fun _ s => s.messages) (CppRing.readLoop cap limit fn head available) where
  rounds := CppRing.rounds_align8
  cap_le := hcap.le.2
  zero := rfl
  round := by
    intro fuel out data consumed
    rw [CppRing.readLoop]
    simp only [hcap.add64_mod]
    generalize (head + consumed) % cap = i
    refine accept_round (and_congr_left fun _ => Int.ofNat_lt.symm) (fun hpos => or_congr_left ?_)
      fun hlen hroom hend => ?_
    · omega
    have hspan : CppRing.align8 (signed (load32 data i)).toNat = (found data i).span :=
      hcap.found_span CppRing.rounds_align8 hlen hend
    have h8 := (found data i).eight_le_span
    simp only [hspan] at hend ⊢
    by_cases hdecline : (found data i).typ ≠ typePadding ∧ ¬ fn ((found data i).typ, (found data i).payload)
    · rw [show CppRing.refuse fn (found data i) = some none from if_pos hdecline]
      exact if_pos hdecline
    · rw [show CppRing.refuse fn (found data i) = none from if_neg hdecline]
      refine (if_neg hdecline).trans ?_
      rw [show i + 4 + ((found data i).span - 4) = i + (found data i).span by omega,
        store32_clear _ (by omega), ← Seg.append_messages]
      rfl

end

/-! ### What a read leaves -/

theorem emitted_messages (c : Nat) (segs : List Seg) :
    emitted (fun _ s => s.messages) c segs = messages segs := by
  induction segs generalizing c with
  | nil => rfl
  | cons s segs ih => rw [emitted, messages_cons, ih]

/-- The buffer after a read that has stepped over `segs`. -/
def Buf.passed (cap : Nat) (b : Buf) (segs : List Seg) : Buf :=
  { b with data := wipe cap b.data b.head segs, head := add64 b.head (spans segs) }

/-- The head and the cleared bytes agree: a read has cleared the records it delivered and padding, and the
    head has moved by their bytes. -/
def Consistent (cap : Nat) (b : Buf) (r : Buf × List Message × Option Fault) : Prop :=
  ∃ segs, Row cap b.data b.head segs ∧ spans segs ≤ sub64 b.tail b.head ∧
    r.2.1 = messages segs ∧ r.1 = b.passed cap segs

/-- Behind one or more records that a read takes, fewer messages than its limit, stands a header that it
    rejects. -/
def BadBehind (step : Int → Nat) (limit : Int) (refuse : Seg → Option (Option Fault)) (cap : Nat)
    (b : Buf) : Prop :=
  ∃ segs, segs ≠ [] ∧ Row cap b.data b.head segs ∧ spans segs ≤ sub64 b.tail b.head ∧
    (∀ s ∈ segs, step s.len = s.span ∧ refuse s = none) ∧ (messages segs).length < limit ∧
    Bad step cap b.data ((b.head + spans segs) % cap) (sub64 b.tail b.head - spans segs)

section

variable {cap : Nat} {b : Buf} {segs : List Seg} (hcap : Pow cap) (hb : Window cap b)

include hb

/-- The head a read stores. -/
theorem Window.stored_head (n : Nat) : (if n > 0 then add64 b.head n else b.head) = add64 b.head n := by
  have := hb.head_lt
  split_ifs
  · rfl
  · unfold add64
    omega

theorem Window.passed_nil : b.passed cap [] = b := by
  have hhead : add64 b.head 0 = b.head := by
    have := hb.head_lt
    unfold add64
    omega
  unfold Buf.passed
  rw [spans_nil, hhead]
  rfl

include hcap

/-- The header behind the records that a read has cleared is as it was. -/
theorem Window.bad_wipe {step : Int → Nat} (hrow : Row cap b.data b.head segs) :
    Bad step cap (wipe cap b.data b.head segs) ((b.head + spans segs) % cap)
        (sub64 b.tail b.head - spans segs) ↔
      Bad step cap b.data ((b.head + spans segs) % cap) (sub64 b.tail b.head - spans segs) := by
  by_cases hroom : 0 < sub64 b.tail b.head - spans segs
  · have hsame : load32 (wipe cap b.data b.head segs) ((b.head + spans segs) % cap) =
        load32 b.data ((b.head + spans segs) % cap) := by
      obtain ⟨k, hlow, -, hk⟩ := hcap
      have h8 : cap % 8 = 0 :=
        Nat.mod_eq_zero_of_dvd (hk ▸ Nat.pow_dvd_pow 2 (show 3 ≤ k by omega))
      have hspans := spans_mod segs
      have hhead := hb.head_mod
      have hlap := hb.lap
      -- the header starts at a multiple of 8, so its four bytes lie behind the records and in the lap
      have hindex : (b.head + spans segs) % cap % 8 = 0 := by
        rw [Nat.mod_mod_of_dvd _ (Nat.dvd_of_mod_eq_zero h8)]
        omega
      have hlt := Nat.mod_lt (b.head + spans segs) (show 0 < cap by omega)
      refine load32_congr fun k hk => ?_
      rw [← add_mod_of_lt (by omega)]
      exact wipe_of_not_mem hrow le_rfl (by omega) (by omega) (by omega) (.inr (by omega))
    unfold Bad
    rw [hsame]
  · exact ⟨fun h => absurd h.1 hroom, fun h => absurd h.1 hroom⟩

/-- A header that stopped a read stops the next one. -/
theorem Window.bad_passed {step : Int → Nat} (hle : spans segs ≤ sub64 b.tail b.head)
    (h : Bad step cap (wipe cap b.data b.head segs) ((b.head + spans segs) % cap)
      (sub64 b.tail b.head - spans segs)) :
    Bad step cap (b.passed cap segs).data ((b.passed cap segs).head % cap)
      (sub64 (b.passed cap segs).tail (b.passed cap segs).head) := by
  show Bad step cap (wipe cap b.data b.head segs) (add64 b.head (spans segs) % cap)
    (sub64 b.tail (add64 b.head (spans segs)))
  rwa [hcap.add64_mod, sub64_add64 hb.head_lt hb.tail_lt hle]

omit hcap in
/-- Clearing a record changes its header. -/
theorem Window.wipe_ne (hrow : Row cap b.data b.head (s :: segs))
    (hle : spans (s :: segs) ≤ sub64 b.tail b.head) : wipe cap b.data b.head (s :: segs) ≠ b.data := by
  intro heq
  have hlap := hb.lap
  have hlen := hrow.1.length
  have h8 := s.eight_le_span
  have hend := hrow.2.1
  rw [spans_cons] at hle
  have hzero : load32 b.data (b.head % cap) = 0 := by
    rw [← heq]
    refine load32_zero _ fun k hk => ?_
    rw [← add_mod_of_lt (by omega)]
    exact wipe_of_mem hrow (le_refl b.head) (by rw [spans_cons]; omega) (by omega)
      (by rw [spans_cons]; omega)
  rw [hzero, Ring.signed_zero] at hlen
  unfold Seg.len recordHeaderSize at hlen
  omega

end

end GoIpc.Seq
