import Mathlib.Data.List.Basic

namespace GoIpc.Lib

/-!
# UTF-8

The byte sequences of RFC 3629: one to four bytes for a character, in shortest form, without
surrogates and up to U+10FFFF.

* `charAt` — the first character of a byte string and its width, when it is well formed;
* `decodeRune` — the same with U+FFFD for a byte that starts none;
* `utf8Valid` — a concatenation of characters;
* `IsUtf8` — a concatenation of the encodings of Unicode scalar values, and `utf8Valid_iff`: the two
  are one.
-/

def isTail (b : UInt8) : Bool := 0x80 ≤ b && b ≤ 0xBF

/-- The least second byte after the first byte `a`. -/
def secondLo (a : UInt8) : UInt8 := if a = 0xE0 then 0xA0 else if a = 0xF0 then 0x90 else 0x80

/-- The greatest second byte after the first byte `a`. -/
def secondHi (a : UInt8) : UInt8 := if a = 0xED then 0x9F else if a = 0xF4 then 0x8F else 0xBF

def isSecond (a b : UInt8) : Bool := secondLo a ≤ b && b ≤ secondHi a

/-- The character at the start of a byte string, with its width. -/
def charAt : List UInt8 → Option (Nat × Nat)
  | [] => none
  | a :: bs =>
      if a < 0x80 then some (a.toNat, 1)
      else if 0xC2 ≤ a ∧ a ≤ 0xDF then
        match bs with
        | b :: _ => if isTail b then some ((a.toNat - 0xC0) * 64 + (b.toNat - 0x80), 2) else none
        | _ => none
      else if 0xE0 ≤ a ∧ a ≤ 0xEF then
        match bs with
        | b :: c :: _ =>
            if isSecond a b ∧ isTail c then
              some ((a.toNat - 0xE0) * 4096 + (b.toNat - 0x80) * 64 + (c.toNat - 0x80), 3)
            else none
        | _ => none
      else if 0xF0 ≤ a ∧ a ≤ 0xF4 then
        match bs with
        | b :: c :: d :: _ =>
            if isSecond a b ∧ isTail c ∧ isTail d then
              some ((a.toNat - 0xF0) * 262144 + (b.toNat - 0x80) * 4096 + (c.toNat - 0x80) * 64
                + (d.toNat - 0x80), 4)
            else none
        | _ => none
      else none

/-- U+FFFD, for a byte that starts no character. -/
def runeError : Nat := 0xFFFD

/-- The first character of a non-empty byte string and its width. -/
def decodeRune (bs : List UInt8) : Nat × Nat := (charAt bs).getD (runeError, 1)

variable {b a : UInt8} {bs : List UInt8}

theorem isTail_iff : isTail b = true ↔ 0x80 ≤ b.toNat ∧ b.toNat ≤ 0xBF := by
  simp only [isTail, Bool.and_eq_true, decide_eq_true_eq, UInt8.le_iff_toNat_le, UInt8.reduceToNat]

/-- The bounds of a second byte. -/
theorem isSecond_iff :
    isSecond a b = true ↔
      (if a.toNat = 0xE0 then 0xA0 else if a.toNat = 0xF0 then 0x90 else 0x80) ≤ b.toNat ∧
        b.toNat ≤ if a.toNat = 0xED then 0x9F else if a.toNat = 0xF4 then 0x8F else 0xBF := by
  have heq : ∀ n : UInt8, a = n ↔ a.toNat = n.toNat := fun n => UInt8.toNat_inj.symm
  simp only [isSecond, secondLo, secondHi, heq, Bool.and_eq_true, decide_eq_true_eq,
    UInt8.le_iff_toNat_le, apply_ite UInt8.toNat, UInt8.reduceToNat]

theorem isTail_of_isSecond (h : isSecond a b = true) : isTail b = true := by
  rw [isSecond_iff] at h
  rw [isTail_iff]
  split_ifs at h <;> omega

theorem le_of_isSecond (h : isSecond a b = true) : 0x80 ≤ b := by
  simp only [isSecond, Bool.and_eq_true, decide_eq_true_eq] at h
  refine UInt8.le_trans ?_ h.1
  unfold secondLo
  split_ifs <;> decide

theorem le_of_isTail (h : isTail b = true) : 0x80 ≤ b := by
  simp only [isTail, Bool.and_eq_true, decide_eq_true_eq] at h
  exact h.1

/-- A character has a width inside the string, and its bytes after the first are tails. -/
theorem charAt_width {r w : Nat} (h : charAt (a :: bs) = some (r, w)) :
    ∃ n, w = n + 1 ∧ n ≤ bs.length ∧ (∀ b ∈ bs.take n, 0x80 ≤ b) ∧
      (a < 0x80 → r = a.toNat ∧ n = 0) ∧ (0x80 ≤ a → 0x80 ≤ r) := by
  simp only [charAt] at h
  split_ifs at h with h1 h2 h3 h4
  · cases h
    exact ⟨0, rfl, Nat.zero_le _, by simp, fun _ => ⟨rfl, rfl⟩,
      fun hle => absurd (UInt8.lt_of_lt_of_le h1 hle) (UInt8.lt_irrefl a)⟩
  · split at h
    · next b rest =>
      split_ifs at h with hb
      simp only [Option.some.injEq, Prod.mk.injEq] at h
      obtain ⟨rfl, rfl⟩ := h
      refine ⟨1, rfl, by simp, by simpa using le_of_isTail hb, fun hlt => absurd hlt h1, fun _ => ?_⟩
      have : 0xC2 ≤ a.toNat := h2.1
      omega
    · cases h
  · split at h
    · next b c rest =>
      split_ifs at h with hb
      simp only [Option.some.injEq, Prod.mk.injEq] at h
      obtain ⟨rfl, rfl⟩ := h
      refine ⟨2, rfl, by simp, ?_, fun hlt => absurd hlt h1, fun _ => ?_⟩
      · simpa using ⟨le_of_isSecond hb.1, le_of_isTail hb.2⟩
      · have ha : 0xE0 ≤ a.toNat := h3.1
        by_cases hE : a = 0xE0
        · subst hE
          have hlo : 0xA0 ≤ b.toNat := by
            have := hb.1
            simp only [isSecond, Bool.and_eq_true, decide_eq_true_eq] at this
            exact this.1
          omega
        · have : a.toNat ≠ 0xE0 := fun he => hE (UInt8.toNat_inj.mp he)
          omega
    · cases h
  · split at h
    · next b c d rest =>
      split_ifs at h with hb
      simp only [Option.some.injEq, Prod.mk.injEq] at h
      obtain ⟨rfl, rfl⟩ := h
      refine ⟨3, rfl, by simp, ?_, fun hlt => absurd hlt h1, fun _ => ?_⟩
      · simpa using ⟨le_of_isSecond hb.1, le_of_isTail hb.2.1, le_of_isTail hb.2.2⟩
      · have ha : 0xF0 ≤ a.toNat := h4.1
        by_cases hF : a = 0xF0
        · subst hF
          have hlo : 0x90 ≤ b.toNat := by
            have := hb.1
            simp only [isSecond, Bool.and_eq_true, decide_eq_true_eq] at this
            exact this.1
          omega
        · have : a.toNat ≠ 0xF0 := fun he => hF (UInt8.toNat_inj.mp he)
          omega
    · cases h

/-- What `decodeRune` does with the first byte and where it goes on. -/
theorem decodeRune_cons (a : UInt8) (bs : List UInt8) :
    ∃ n, (decodeRune (a :: bs)).2 = n + 1 ∧ n ≤ bs.length ∧ (∀ b ∈ bs.take n, 0x80 ≤ b) ∧
      (a < 0x80 → (decodeRune (a :: bs)).1 = a.toNat ∧ n = 0) ∧
      (0x80 ≤ a → 0x80 ≤ (decodeRune (a :: bs)).1) := by
  unfold decodeRune
  cases h : charAt (a :: bs) with
  | none =>
    refine ⟨0, rfl, Nat.zero_le _, by simp, fun hlt => ?_, fun _ => by simp [runeError]⟩
    simp [charAt, hlt] at h
  | some p => exact charAt_width h

theorem drop_charAt_lt {r w : Nat} (h : charAt (a :: bs) = some (r, w)) :
    ((a :: bs).drop w).length < (a :: bs).length := by
  obtain ⟨n, rfl, -⟩ := charAt_width h
  simp only [List.drop_succ_cons, List.length_drop, List.length_cons]
  omega

/-- A concatenation of characters. -/
def utf8Valid : List UInt8 → Bool
  | [] => true
  | a :: bs =>
      match h : charAt (a :: bs) with
      | some (_, w) => utf8Valid ((a :: bs).drop w)
      | none => false
termination_by bs => bs.length
decreasing_by exact drop_charAt_lt h

theorem utf8Valid_cons {r w : Nat} (h : charAt (a :: bs) = some (r, w)) :
    utf8Valid (a :: bs) = utf8Valid ((a :: bs).drop w) := by
  rw [utf8Valid]
  split
  · next r' w' h' =>
    rw [h] at h'
    cases h'
    rfl
  · next h' =>
    rw [h] at h'
    cases h'

theorem utf8Valid_none (h : charAt (a :: bs) = none) : utf8Valid (a :: bs) = false := by
  rw [utf8Valid]
  split
  · next r w h' =>
    rw [h] at h'
    cases h'
  · rfl

/-! ### Encodings -/

/-- A concatenation of the encodings of Unicode scalar values, the values of `Char`. -/
def IsUtf8 (s : List UInt8) : Prop := ∃ cs : List Char, s = cs.flatMap String.utf8EncodeChar

theorem toNat_ofNat_lt {n : Nat} (h : n < 256) : (UInt8.ofNat n).toNat = n :=
  UInt8.toNat_ofNat_of_lt h

theorem toNat_char (c : Char) : c.toNat < 0xD800 ∨ 0xDFFF < c.toNat ∧ c.toNat < 0x110000 := c.valid

/-- The encoding of a code point, by its width. -/
theorem encode_eq {c : Char} {v : Nat} (hc : c.toNat = v) : String.utf8EncodeChar c =
    if v ≤ 127 then [UInt8.ofNat v]
    else if v ≤ 2047 then [UInt8.ofNat (v / 64 % 32 + 192), UInt8.ofNat (v % 64 + 128)]
    else if v ≤ 65535 then
      [UInt8.ofNat (v / 4096 % 16 + 224), UInt8.ofNat (v / 64 % 64 + 128), UInt8.ofNat (v % 64 + 128)]
    else
      [UInt8.ofNat (v / 262144 % 8 + 240), UInt8.ofNat (v / 4096 % 64 + 128),
        UInt8.ofNat (v / 64 % 64 + 128), UInt8.ofNat (v % 64 + 128)] := by
  rw [String.utf8EncodeChar.eq_1, show c.val.toNat = v from hc]

/-- **A character is read back** with its width, whatever follows it. -/
theorem charAt_encode (c : Char) (rest : List UInt8) :
    charAt (String.utf8EncodeChar c ++ rest) = some (c.toNat, (String.utf8EncodeChar c).length) := by
  have hvalid := toNat_char c
  obtain ⟨v, hv⟩ : ∃ v, c.toNat = v := ⟨_, rfl⟩
  rw [encode_eq hv, hv]
  rw [hv] at hvalid
  split_ifs with h1 h2 h3
  · have ha : (UInt8.ofNat v).toNat = v := toNat_ofNat_lt (by omega)
    simp only [List.cons_append, charAt, UInt8.lt_iff_toNat_lt, UInt8.reduceToNat, ha]
    rw [if_pos (by omega)]
    rfl
  · have ha : (UInt8.ofNat (v / 64 % 32 + 192)).toNat = v / 64 + 192 := by
      rw [toNat_ofNat_lt (by omega)]; omega
    have hb : (UInt8.ofNat (v % 64 + 128)).toNat = v % 64 + 128 := toNat_ofNat_lt (by omega)
    simp only [List.cons_append, List.nil_append, charAt, UInt8.lt_iff_toNat_lt, UInt8.le_iff_toNat_le,
      UInt8.reduceToNat, isTail_iff, ha, hb]
    rw [if_neg (by omega), if_pos (by omega), if_pos (by omega)]
    simp only [List.length_cons, List.length_nil, Option.some.injEq, Prod.mk.injEq, and_true]
    omega
  · have ha : (UInt8.ofNat (v / 4096 % 16 + 224)).toNat = v / 4096 + 224 := by
      rw [toNat_ofNat_lt (by omega)]; omega
    have hb : (UInt8.ofNat (v / 64 % 64 + 128)).toNat = v / 64 % 64 + 128 := toNat_ofNat_lt (by omega)
    have hc : (UInt8.ofNat (v % 64 + 128)).toNat = v % 64 + 128 := toNat_ofNat_lt (by omega)
    simp only [List.cons_append, List.nil_append, charAt, UInt8.lt_iff_toNat_lt, UInt8.le_iff_toNat_le,
      UInt8.reduceToNat, isTail_iff, isSecond_iff, ha, hb, hc]
    rw [if_neg (by omega), if_neg (by omega), if_pos (by omega), if_pos (by split_ifs <;> omega)]
    simp only [List.length_cons, List.length_nil, Option.some.injEq, Prod.mk.injEq, and_true]
    omega
  · have ha : (UInt8.ofNat (v / 262144 % 8 + 240)).toNat = v / 262144 + 240 := by
      rw [toNat_ofNat_lt (by omega)]; omega
    have hb : (UInt8.ofNat (v / 4096 % 64 + 128)).toNat = v / 4096 % 64 + 128 := toNat_ofNat_lt (by omega)
    have hc : (UInt8.ofNat (v / 64 % 64 + 128)).toNat = v / 64 % 64 + 128 := toNat_ofNat_lt (by omega)
    have hd : (UInt8.ofNat (v % 64 + 128)).toNat = v % 64 + 128 := toNat_ofNat_lt (by omega)
    simp only [List.cons_append, List.nil_append, charAt, UInt8.lt_iff_toNat_lt, UInt8.le_iff_toNat_le,
      UInt8.reduceToNat, isTail_iff, isSecond_iff, ha, hb, hc, hd]
    rw [if_neg (by omega), if_neg (by omega), if_neg (by omega), if_pos (by omega),
      if_pos (by split_ifs <;> omega)]
    simp only [List.length_cons, List.length_nil, Option.some.injEq, Prod.mk.injEq, and_true]
    omega

/-- The character of a code point that is no surrogate. -/
theorem exists_char {v : Nat} (h : v < 0xD800 ∨ 0xDFFF < v ∧ v < 0x110000) : ∃ c : Char, c.toNat = v :=
  ⟨Char.ofNatAux v h, rfl⟩

theorem eq_ofNat {n : Nat} (h : b.toNat = n) : b = UInt8.ofNat n := by
  rw [← h, UInt8.ofNat_toNat]

theorem encode_one (ha : a.toNat < 0x80) : ∃ c : Char, String.utf8EncodeChar c = [a] := by
  obtain ⟨c, hc⟩ := exists_char (v := a.toNat) (by omega)
  exact ⟨c, by rw [encode_eq hc, if_pos (by omega), UInt8.ofNat_toNat]⟩

theorem encode_two (ha : 0xC2 ≤ a.toNat ∧ a.toNat ≤ 0xDF) (hb : isTail b = true) :
    ∃ c : Char, String.utf8EncodeChar c = [a, b] := by
  rw [isTail_iff] at hb
  obtain ⟨c, hc⟩ := exists_char (v := (a.toNat - 0xC0) * 64 + (b.toNat - 0x80)) (by omega)
  refine ⟨c, ?_⟩
  rw [encode_eq hc, if_neg (by omega), if_pos (by omega), ← eq_ofNat (b := a) (by omega),
    ← eq_ofNat (b := b) (by omega)]

theorem encode_three {d : UInt8} (ha : 0xE0 ≤ a.toNat ∧ a.toNat ≤ 0xEF) (hb : isSecond a b = true)
    (hd : isTail d = true) : ∃ c : Char, String.utf8EncodeChar c = [a, b, d] := by
  have htail := isTail_iff.mp (isTail_of_isSecond hb)
  rw [isTail_iff] at hd
  rw [isSecond_iff] at hb
  obtain ⟨v, hv⟩ : ∃ v, v = (a.toNat - 0xE0) * 4096 + (b.toNat - 0x80) * 64 + (d.toNat - 0x80) := ⟨_, rfl⟩
  have hmin : 0x800 ≤ v ∧ (v < 0xD800 ∨ 0xDFFF < v) := by split_ifs at hb <;> omega
  clear hb
  obtain ⟨c, hc⟩ := exists_char (v := v) (by omega)
  refine ⟨c, ?_⟩
  rw [encode_eq hc, if_neg (by omega), if_neg (by omega), if_pos (by omega), ← eq_ofNat (b := a) (by omega),
    ← eq_ofNat (b := b) (by omega), ← eq_ofNat (b := d) (by omega)]

theorem encode_four {d e : UInt8} (ha : 0xF0 ≤ a.toNat ∧ a.toNat ≤ 0xF4) (hb : isSecond a b = true)
    (hd : isTail d = true) (he : isTail e = true) : ∃ c : Char, String.utf8EncodeChar c = [a, b, d, e] := by
  have htail := isTail_iff.mp (isTail_of_isSecond hb)
  rw [isTail_iff] at hd he
  rw [isSecond_iff] at hb
  obtain ⟨v, hv⟩ : ∃ v, v = (a.toNat - 0xF0) * 262144 + (b.toNat - 0x80) * 4096 +
    (d.toNat - 0x80) * 64 + (e.toNat - 0x80) := ⟨_, rfl⟩
  have hmin : 0x10000 ≤ v ∧ v < 0x110000 := by split_ifs at hb <;> omega
  clear hb
  obtain ⟨c, hc⟩ := exists_char (v := v) (by omega)
  refine ⟨c, ?_⟩
  rw [encode_eq hc, if_neg (by omega), if_neg (by omega), if_neg (by omega), ← eq_ofNat (b := a) (by omega),
    ← eq_ofNat (b := b) (by omega), ← eq_ofNat (b := d) (by omega), ← eq_ofNat (b := e) (by omega)]

/-- **What is read is a character's encoding.** -/
theorem exists_encode {s : List UInt8} {r w : Nat} (h : charAt s = some (r, w)) :
    ∃ c : Char, ∃ rest, s = String.utf8EncodeChar c ++ rest := by
  cases s with
  | nil => cases h
  | cons a bs =>
    simp only [charAt, UInt8.lt_iff_toNat_lt, UInt8.le_iff_toNat_le, UInt8.reduceToNat] at h
    split_ifs at h with h1 h2 h3 h4
    · obtain ⟨c, hc⟩ := encode_one h1
      exact ⟨c, bs, hc ▸ rfl⟩
    · obtain _ | ⟨b, rest⟩ := bs
      · cases h
      obtain ⟨hb, -⟩ := Option.ite_none_right_eq_some.mp h
      obtain ⟨c, hc⟩ := encode_two h2 hb
      exact ⟨c, rest, hc ▸ rfl⟩
    · obtain _ | ⟨b, _ | ⟨d, rest⟩⟩ := bs
      · cases h
      · cases h
      obtain ⟨⟨hb, hd⟩, -⟩ := Option.ite_none_right_eq_some.mp h
      obtain ⟨c, hc⟩ := encode_three h3 hb hd
      exact ⟨c, rest, hc ▸ rfl⟩
    · obtain _ | ⟨b, _ | ⟨d, _ | ⟨e, rest⟩⟩⟩ := bs
      · cases h
      · cases h
      · cases h
      obtain ⟨⟨hb, hd, he⟩, -⟩ := Option.ite_none_right_eq_some.mp h
      obtain ⟨c, hc⟩ := encode_four h4 hb hd he
      exact ⟨c, rest, hc ▸ rfl⟩

/-- A character at the front is taken off. -/
theorem utf8Valid_encode (c : Char) (rest : List UInt8) :
    utf8Valid (String.utf8EncodeChar c ++ rest) = utf8Valid rest := by
  have hread := charAt_encode c rest
  cases hs : String.utf8EncodeChar c with
  | nil => exact absurd hs String.utf8EncodeChar_ne_nil
  | cons a bs =>
    rw [hs, List.cons_append] at hread
    rw [List.cons_append, utf8Valid_cons hread, ← List.cons_append, List.drop_left]

/-- **Validity** is being a concatenation of encodings. -/
theorem utf8Valid_iff (s : List UInt8) : utf8Valid s = true ↔ IsUtf8 s := by
  constructor
  · intro h
    induction s using utf8Valid.induct with
    | case1 => exact ⟨[], rfl⟩
    | case2 a bs r w hread ih =>
      obtain ⟨c, rest, hs⟩ := exists_encode hread
      rw [utf8Valid_cons hread] at h
      have hw : (a :: bs).drop w = rest := by
        rw [hs, charAt_encode] at hread
        cases hread
        rw [hs, List.drop_left]
      obtain ⟨cs, hcs⟩ := ih h
      exact ⟨c :: cs, by rw [hs, List.flatMap_cons, ← hcs, hw]⟩
    | case3 a bs hread =>
      rw [utf8Valid_none hread] at h
      cases h
  · rintro ⟨cs, rfl⟩
    induction cs with
    | nil => rw [List.flatMap_nil, utf8Valid]
    | cons c cs ih => rw [List.flatMap_cons, utf8Valid_encode, ih]

end GoIpc.Lib
