import GoIpc.Codec.C

namespace GoIpc.Codec

open GoIpc.Lib

/-!
# The emitted validators

`ipcgen_utf8` of the C header and `ipcgen::utf8` of the C++ header, with their index, their reads and
their 32-bit code points.

* `C.ipcgenUtf8`, `Cpp.utf8` — the two functions; `none` is a read outside the string;
* `C.turn_eq` — a turn of the loop finds the character of `C.character`;
* `Cpp.turn_eq` — the C++ code, which widens a byte before it masks it, takes the same turns;
* `validators_decide` — both decide UTF-8 and stay inside the string.

The string has fewer than `2 ^ 64` bytes, so an index that stays below its length does not wrap.
-/

/-! ### The emitted code -/

/-- The `while` loop over `i`, given what a turn does: the inner `none` is `return 0`, the outer one a
    read outside.  A turn moves on, so the length bounds the number of turns. -/
def scan (turn : Nat → Option (Option Nat)) (n : Nat) : Nat → Nat → Option Bool
  | 0, i => if i < n then none else some true
  | fuel + 1, i =>
      if i < n then do
        match ← turn i with
        | none => return false
        | some i => scan turn n fuel i
      else some true

namespace C

/-- The loop over `s[i + j]`, with `left` bytes to go. -/
def follow (s : List UInt8) (i : Nat) : Nat → Nat → UInt32 → Option (Option UInt32)
  | _, 0, cp => some (some cp)
  | j, left + 1, cp => do
      let d ← s[i + j]?
      if d &&& 0xC0 ≠ 0x80 then return none
      else follow s i (j + 1) left (cp <<< 6 ||| (d &&& 0x3F).toUInt32)

/-- `k`, `cp` and `min` for a first byte -/
def first (c : UInt8) : Option (Nat × UInt32 × UInt32) :=
  if c &&& 0xE0 = 0xC0 then some (1, (c &&& 0x1F).toUInt32, 0x80)
  else if c &&& 0xF0 = 0xE0 then some (2, (c &&& 0x0F).toUInt32, 0x800)
  else if c &&& 0xF8 = 0xF0 then some (3, (c &&& 0x07).toUInt32, 0x10000)
  else none

/-- A turn of the loop in `ipcgen_utf8` -/
def turn (s : List UInt8) (i : Nat) : Option (Option Nat) := do
  let c ← s[i]?
  if c < 0x80 then return some (i + 1)
  else
    match first c with
    | none => return none
    | some (k, cp, least) =>
        if s.length - i - 1 < k then return none
        else
          match ← follow s i 1 k cp with
          | none => return none
          | some cp =>
              if cp < least ∨ cp > 0x10FFFF ∨ (cp ≥ 0xD800 ∧ cp ≤ 0xDFFF) then return none
              else return some (i + (k + 1))

/-- `ipcgen_utf8` -/
def ipcgenUtf8 (s : List UInt8) : Option Bool := scan (turn s) s.length s.length 0

end C

namespace Cpp

/-- `std::to_integer<std::uint32_t>(s[i])` -/
def read (s : List UInt8) (i : Nat) : Option UInt32 := s[i]?.map UInt8.toUInt32

/-- The loop over `s[i + j]`, with `left` bytes to go. -/
def follow (s : List UInt8) (i : Nat) : Nat → Nat → UInt32 → Option (Option UInt32)
  | _, 0, cp => some (some cp)
  | j, left + 1, cp => do
      let d ← read s (i + j)
      if d &&& 0xC0 ≠ 0x80 then return none
      else follow s i (j + 1) left (cp <<< 6 ||| (d &&& 0x3F))

/-- `k`, `cp` and `min` for a first byte -/
def first (c : UInt32) : Option (Nat × UInt32 × UInt32) :=
  if c &&& 0xE0 = 0xC0 then some (1, c &&& 0x1F, 0x80)
  else if c &&& 0xF0 = 0xE0 then some (2, c &&& 0x0F, 0x800)
  else if c &&& 0xF8 = 0xF0 then some (3, c &&& 0x07, 0x10000)
  else none

/-- A turn of the loop in `ipcgen::utf8` -/
def turn (s : List UInt8) (i : Nat) : Option (Option Nat) := do
  let c ← read s i
  if c < 0x80 then return some (i + 1)
  else
    match first c with
    | none => return none
    | some (k, cp, least) =>
        if s.length - i - 1 < k then return none
        else
          match ← follow s i 1 k cp with
          | none => return none
          | some cp =>
              if cp < least ∨ cp > 0x10FFFF ∨ (cp ≥ 0xD800 ∧ cp ≤ 0xDFFF) then return none
              else return some (i + (k + 1))

/-- `ipcgen::utf8` -/
def utf8 (s : List UInt8) : Option Bool := scan (turn s) s.length s.length 0

end Cpp

/-! ### A turn in C -/

namespace C

/-- The first byte sets what `leading` says, and leaves room for the bits that follow. -/
theorem first_eq (c : UInt8) :
    first c = (leading c).map (fun x => (x.1, UInt32.ofNat x.2.1, UInt32.ofNat x.2.2)) ∧
      ∀ x ∈ leading c, (x.2.1 + 1) * 64 ^ x.1 ≤ 2 ^ 32 ∧ x.2.1 < 2 ^ 32 ∧ x.2.2 < 2 ^ 32 :=
  forall_byte (p := fun c =>
    first c = (leading c).map (fun x => (x.1, UInt32.ofNat x.2.1, UInt32.ofNat x.2.2)) ∧
      ∀ x ∈ leading c, (x.2.1 + 1) * 64 ^ x.1 ≤ 2 ^ 32 ∧ x.2.1 < 2 ^ 32 ∧ x.2.2 < 2 ^ 32)
    (by decide +kernel) c

theorem toNat_bits (d : UInt8) : (d &&& 0x3F).toNat < 2 ^ 6 :=
  forall_byte (p := fun d => (d &&& 0x3F).toNat < 2 ^ 6) (by decide +kernel) d

/-- Six more bits, while there is room for them. -/
theorem toNat_shift (cp : UInt32) (d : UInt8) (h : cp.toNat * 64 < 2 ^ 32) :
    (cp <<< 6 ||| (d &&& 0x3F).toUInt32).toNat = cp.toNat * 64 + (d &&& 0x3F).toNat := by
  rw [UInt32.toNat_or, UInt32.toNat_shiftLeft, UInt8.toNat_toUInt32,
    show (6 : UInt32).toNat % 32 = 6 from rfl, Nat.mod_eq_of_lt (by rwa [Nat.shiftLeft_eq]),
    ← Nat.shiftLeft_add_eq_or_of_lt (toNat_bits d), Nat.shiftLeft_eq]

/-- The bytes after the first one are read inside the string, and no bit of `cp` is lost. -/
theorem follow_eq (s : List UInt8) (i j left : Nat) (cp : UInt32)
    (hlen : i + j + left ≤ s.length) (hcp : (cp.toNat + 1) * 64 ^ left ≤ 2 ^ 32) :
    ∃ v, follow s i j left cp = some v ∧
      v.map UInt32.toNat = continuation cp.toNat ((s.drop (i + j)).take left) := by
  induction left generalizing j cp with
  | zero => exact ⟨some cp, rfl, rfl⟩
  | succ left ih =>
    have hlt : i + j < s.length := by omega
    rw [List.drop_eq_getElem_cons hlt, List.take_succ_cons, follow, List.getElem?_eq_getElem hlt,
      Option.bind_eq_bind, Option.bind_some, continuation]
    split_ifs with hd
    · exact ⟨none, rfl, rfl⟩
    · have hbits := toNat_bits s[i + j]
      have hroom : (cp.toNat * 64 + 64) * 64 ^ left ≤ 2 ^ 32 := by
        calc (cp.toNat * 64 + 64) * 64 ^ left = (cp.toNat + 1) * 64 ^ (left + 1) := by ring
          _ ≤ 2 ^ 32 := hcp
      have hsmall : cp.toNat * 64 + 64 ≤ 2 ^ 32 :=
        (Nat.le_mul_of_pos_right _ (by positivity)).trans hroom
      have hshift := toNat_shift cp s[i + j] (by omega)
      obtain ⟨v, hv, hmap⟩ := ih (j + 1) (cp <<< 6 ||| (s[i + j] &&& 0x3F).toUInt32) (by omega)
        (by rw [hshift]; exact (Nat.mul_le_mul_right _ (by omega)).trans hroom)
      refine ⟨v, hv, ?_⟩
      rw [hmap, hshift, ← Nat.shiftLeft_add_eq_or_of_lt hbits, Nat.shiftLeft_eq, Nat.add_assoc]

/-- **A turn in C** finds the next character, and reads inside the string. -/
theorem turn_eq {s : List UInt8} {i : Nat} (h : i < s.length) :
    turn s i = some ((character s[i] (s.drop (i + 1))).map fun x => i + x.2) := by
  rw [turn, character, List.getElem?_eq_getElem h, Option.bind_eq_bind, Option.bind_some,
    (first_eq s[i]).1]
  split_ifs with hc
  · rfl
  · cases hfirst : leading s[i] with
    | none => rfl
    | some x =>
      obtain ⟨k, cp, least⟩ := x
      obtain ⟨hroom, hcp, hleast⟩ := (first_eq s[i]).2 _ hfirst
      simp only at hroom hcp hleast
      simp only [Option.map_some, List.length_drop, Nat.sub_sub]
      split_ifs with hshort
      · rfl
      · have hcp' : (UInt32.ofNat cp).toNat = cp := UInt32.toNat_ofNat_of_lt' hcp
        have hleast' : (UInt32.ofNat least).toNat = least := UInt32.toNat_ofNat_of_lt' hleast
        obtain ⟨v, hv, hmap⟩ := follow_eq s i 1 k (UInt32.ofNat cp) (by omega)
          (by rwa [hcp'])
        rw [hcp'] at hmap
        rw [hv, ← hmap, Option.bind_eq_bind, Option.bind_some]
        cases v with
        | none => rfl
        | some cp =>
          simp only [Option.map_some, UInt32.lt_iff_toNat_lt, UInt32.le_iff_toNat_le, hleast', gt_iff_lt,
            ge_iff_le, UInt32.reduceToNat]
          split_ifs <;> rfl

/-- The character at the front takes a byte at least. -/
theorem width_pos {c : UInt8} {rest : List UInt8} {x : Nat × Nat} (h : character c rest = some x) :
    0 < x.2 := by
  rw [character_eq] at h
  obtain ⟨n, hn, -⟩ := charAt_width h
  omega

end C

/-! ### The loop -/

/-- **The loop** over turns that find the characters decides `C.utf8` of the rest. -/
theorem scan_eq {s : List UInt8} {turn : Nat → Option (Option Nat)}
    (hturn : ∀ i (h : i < s.length),
      turn i = some ((C.character s[i] (s.drop (i + 1))).map fun x => i + x.2))
    {fuel i : Nat} (hfuel : s.length ≤ i + fuel) :
    scan turn s.length fuel i = some (C.utf8 (s.drop i)) := by
  induction fuel generalizing i with
  | zero =>
    rw [scan, if_neg (by omega), List.drop_eq_nil_of_le (by omega), C.utf8]
  | succ fuel ih =>
    by_cases hi : i < s.length
    · rw [scan, if_pos hi, hturn i hi, List.drop_eq_getElem_cons hi, C.utf8]
      cases hchar : C.character s[i] (s.drop (i + 1)) with
      | none => rfl
      | some x =>
        have hpos := C.width_pos hchar
        simp only [Option.map_some, Option.bind_eq_bind, Option.bind_some, List.drop_drop]
        rw [ih (by omega), show i + 1 + (x.2 - 1) = i + x.2 by omega]
    · rw [scan, if_neg hi, List.drop_eq_nil_of_le (by omega), C.utf8]

/-! ### C++ -/

namespace Cpp

/-- Widening a byte commutes with the masks. -/
theorem widen (d : UInt8) :
    (d.toUInt32 &&& 0xC0 ≠ 0x80 ↔ d &&& 0xC0 ≠ 0x80) ∧
      d.toUInt32 &&& 0x3F = (d &&& 0x3F).toUInt32 ∧ (d.toUInt32 < 0x80 ↔ d < 0x80) ∧
      first d.toUInt32 = C.first d :=
  forall_byte (p := fun d =>
    (d.toUInt32 &&& 0xC0 ≠ 0x80 ↔ d &&& 0xC0 ≠ 0x80) ∧
      d.toUInt32 &&& 0x3F = (d &&& 0x3F).toUInt32 ∧ (d.toUInt32 < 0x80 ↔ d < 0x80) ∧
      first d.toUInt32 = C.first d) (by decide +kernel) d

theorem follow_eq (s : List UInt8) (i j left : Nat) (cp : UInt32) :
    follow s i j left cp = C.follow s i j left cp := by
  induction left generalizing j cp with
  | zero => rfl
  | succ left ih =>
    rw [follow, C.follow, read]
    cases s[i + j]? with
    | none => rfl
    | some d =>
      obtain ⟨hmask, hbits, -⟩ := widen d
      simp only [Option.map_some, Option.bind_eq_bind, Option.bind_some, hmask, hbits, ih]

/-- **A turn in C++** is a turn in C. -/
theorem turn_eq (s : List UInt8) (i : Nat) : turn s i = C.turn s i := by
  rw [turn, C.turn, read]
  cases s[i]? with
  | none => rfl
  | some c =>
    obtain ⟨-, -, hascii, hfirst⟩ := widen c
    simp only [Option.map_some, Option.bind_eq_bind, Option.bind_some, hascii, hfirst, follow_eq]

end Cpp

/-- **The emitted validators decide UTF-8.**  For every byte string the C and the C++ validator return,
    without a read outside the string, and they return true exactly for a concatenation of encodings of
    Unicode scalar values. -/
theorem validators_decide (s : List UInt8) :
    (∃ v, C.ipcgenUtf8 s = some v ∧ (v = true ↔ IsUtf8 s)) ∧
      ∃ v, Cpp.utf8 s = some v ∧ (v = true ↔ IsUtf8 s) := by
  have hc : C.ipcgenUtf8 s = some (C.utf8 s) :=
    scan_eq (i := 0) (fun i h => C.turn_eq h) (by omega)
  have hcpp : Cpp.utf8 s = some (C.utf8 s) :=
    scan_eq (i := 0) (fun i h => (Cpp.turn_eq s i).trans (C.turn_eq h)) (by omega)
  have hvalid : C.utf8 s = true ↔ IsUtf8 s := by rw [C.utf8_eq, utf8Valid_iff]
  exact ⟨⟨_, hc, hvalid⟩, _, hcpp, hvalid⟩

/-- The euro sign, a surrogate and a sequence cut short. -/
example : [[0xE2, 0x82, 0xAC], [0xED, 0xA0, 0x80], [0xE2, 0x82]].map C.ipcgenUtf8 =
    [some true, some false, some false] := by decide

end GoIpc.Codec
