import GoIpc.Codec.Agree
import GoIpc.Codec.Validators

namespace GoIpc.Codec

open GoIpc.Lib GoIpc.Schema
open GoIpc.Codec.Go (Slice notes note noteVal)

/-!
# Generated C++ code

What the members that the C++ generator writes for a message do.  `std::span` is a list of bytes;
`std::size_t` has 64 bits; `none` is an access outside of a span.

* `Cpp.putBytes`, `Cpp.getBytes` — the templates `put` and `get`, which loop over the bytes of a type;
* `Cpp.encode`, `Cpp.decode` — the members of a message;
* `cpp_encodes_as_go` — on every value and every buffer, `encode` does what Go's `MarshalTo` does, in
  failure too;
* `cpp_decodes_as_go` — on every input `decode` accepts what `UnmarshalBinary` accepts, with the same
  value, and stays inside.
-/

namespace Cpp

/-! ### The generated code -/

/-- `put` of an unsigned value of `n` bytes -/
def putBytes (n v p : Nat) (b : List UInt8) : Option (List UInt8) :=
  (List.range n).foldlM (fun b i => C.store b (p + i) (UInt8.ofNat (v >>> (8 * i)))) b

/-- `put` of a scalar; a floating-point value is its bits, a signed one is converted. -/
def put (k : Scalar) (v : Fin k.bound) (p : Nat) (b : List UInt8) : Option (List UInt8) :=
  match k with
  | .bool => C.store b p (if v.val = 1 then 1 else 0)
  | k => putBytes k.size v p b

/-- `put_fixed` -/
def writer : Writer := ⟨put, fun _ _ => some ()⟩

/-- `get` of an unsigned value of `n` bytes: every turn converts back to the type. -/
def getBytes (n p : Nat) (b : List UInt8) : Except Fault Nat :=
  (List.range n).foldlM (fun u i => do
    let x ← C.load b (p + i)
    return (u ||| x.toNat <<< (8 * i) % 256 ^ n) % 256 ^ n) 0

/-- What `get` writes to load a scalar; the error is `return false`. -/
def get : (k : Scalar) → Nat → List UInt8 → Except Fault (Fin k.bound)
  | .bool, p, b => do
      let x ← C.load b p
      if x > 1 then .error (.error .bool)
      else return if x = 1 then ⟨1, Nat.one_lt_two⟩ else ⟨0, Nat.zero_lt_two⟩
  | .u8, p, b | .i8, p, b => (getBytes 1 p b).map (C.cast 1)
  | .u16, p, b | .i16, p, b => (getBytes 2 p b).map (C.cast 2)
  | .u32, p, b | .i32, p, b | .f32, p, b => (getBytes 4 p b).map (C.cast 4)
  | .u64, p, b | .i64, p, b | .f64, p, b => (getBytes 8 p b).map (C.cast 8)

/-- `get_fixed` -/
def reader : Reader := ⟨get, fun _ _ => .ok ()⟩

/-- `size`: a sum of `size_t` terms -/
def size (m : Laid) (v : m.Val) : Nat :=
  (m.vars v).foldl (fun n x => ((n + 4) % 2 ^ 64 + x.2.length) % 2 ^ 64) m.fixedSize

def fits (n : Nat) : Bool := n ≤ 0xFFFFFFFF

/-- `put_var` -/
def putVar (b : List UInt8) (off : Nat) (x : List UInt8) : Option (List UInt8 × Nat) := do
  let b ← putBytes 4 (x.length % 2 ^ 32) off b
  let b ← (if x.length > 0 then C.copy b (off + 4) x else some b)
  return (b, (off + 4 + x.length) % 2 ^ 64)

/-- `encode`: the count it returns, and the buffer. -/
def encode (m : Laid) (v : m.Val) (b : List UInt8) : Option (Nat × List UInt8) :=
  if (m.vars v).any (fun x => !fits x.2.length) then some (0, b)
  else
    let n := size m v
    if b.length < n then some (0, b)
    else do
      let b ← C.copy b 0 (List.replicate m.fixedSize 0)
      let b ← m.putWith writer v 0 b
      let (b, _) ← (m.vars v).foldlM (fun s x => putVar s.1 s.2 x.2) (b, m.fixedSize)
      return (n, b)

/-- `get_var` -/
def getVar (b : List UInt8) (off : Nat) : Except Fault (List UInt8 × Nat) :=
  if Go.u64 ((b.length : Int) - off) < 4 then .error (.error .length)
  else do
    let k ← getBytes 4 off b
    let off : Nat := (off + 4) % 2 ^ 64
    if k > Go.u64 ((b.length : Int) - off) then .error (.error .length)
    else if off + k ≤ b.length then return ((b.drop off).take k, (off + k) % 2 ^ 64)
    else .error .outside

/-- The body of `decode`; every error but an access outside is `return std::nullopt`. -/
def decodeBody (m : Laid) (b : List UInt8) : Except Fault m.Val :=
  if m.fixedSize > 0 ∧ b.length < m.fixedSize then .error (.error .short)
  else do
    let v ← m.getWith reader 0 b
    let (v, off) ← m.getVarsWith getVar (fun raw => utf8 raw = some true) v b m.fixedSize
    if off ≠ b.length then .error (.error .trailing) else return v

/-- `decode`: the inner `none` is `std::nullopt`. -/
def decode (m : Laid) (b : List UInt8) : Option (Option m.Val) :=
  match decodeBody m b with
  | .ok v => some (some v)
  | .error (.error _) => some none
  | .error .outside => none

/-! ### Scalars -/

theorem putBytes_eq {n : Nat} (v : Nat) {p : Nat} {b : List UInt8} (h : p + n ≤ b.length) :
    putBytes n v p b = some (writes (storesAt p (leBytes n v)) b) := by
  induction n with
  | zero => rfl
  | succ n ih =>
    unfold putBytes at ih ⊢
    rw [List.range_succ, List.foldlM_append, ih (by omega), Option.bind_eq_bind, Option.bind_some,
      leBytes_add, storesAt_append, writes_append, length_leBytes]
    show (C.store _ _ _).bind _ = _
    rw [C.store_eq (by rw [length_writes]; omega), Nat.shiftRight_eq_div_pow, Nat.pow_mul]
    rfl

theorem writer_lawful : writer.Lawful where
  scalar {k v p b} hlen _ := by
    show put k v p b = _
    cases k with
    | bool =>
      have hv : v.val = 0 ∨ v.val = 1 := by
        have : v.val < 2 := v.isLt
        omega
      rcases hv with hv | hv <;> simp only [put, hv] <;> exact C.store_eq hlen _
    | _ => exact putBytes_eq _ hlen
  enter _ := rfl

theorem getBytes_eq {n p : Nat} {b : List UInt8} (h : p + n ≤ b.length) :
    getBytes n p b = .ok (leNat ((b.drop p).take n)) := by
  -- after `j` turns the value is that of the first `j` bytes
  suffices hj : ∀ j ≤ n, (List.range j).foldlM (fun u i => do
      let x ← C.load b (p + i)
      return (u ||| x.toNat <<< (8 * i) % 256 ^ n) % 256 ^ n) 0 =
      (.ok (leNat ((b.drop p).take j)) : Except Fault Nat) from hj n le_rfl
  intro j hj
  induction j with
  | zero => rfl
  | succ j ih =>
    have hlen : ((b.drop p).take j).length = j := by
      rw [List.length_take, List.length_drop]
      omega
    have hlt := leNat_lt ((b.drop p).take j)
    have hpow : 256 ^ j = 2 ^ (8 * j) := by rw [Nat.pow_mul]
    have hlast : ((b.drop p).drop j).take 1 = [b[p + j]] := by
      rw [List.drop_drop, take_one_drop (by omega)]
    have hval : leNat ((b.drop p).take (j + 1)) =
        leNat ((b.drop p).take j) + 256 ^ j * b[p + j].toNat := by
      rw [List.take_add, leNat_append, hlen, hlast]
      rfl
    have hbound : leNat ((b.drop p).take (j + 1)) < 256 ^ n := by
      refine lt_of_lt_of_le (leNat_lt _) (Nat.pow_le_pow_right (by decide) ?_)
      rw [List.length_take]
      omega
    rw [hlen, hpow] at hlt
    rw [List.range_succ, List.foldlM_append, ih (by omega)]
    show ((C.load b (p + j)).bind fun x => _).bind _ = _
    rw [C.load_eq (by omega)]
    show Except.ok _ = Except.ok _
    rw [Nat.shiftLeft_eq, ← hpow, Nat.mod_eq_of_lt (a := b[p + j].toNat * 256 ^ j) (by
        rw [Nat.mul_comm]
        omega), hpow, ← Nat.shiftLeft_eq, Nat.or_comm, ← Nat.shiftLeft_add_eq_or_of_lt hlt,
      Nat.shiftLeft_eq, ← hpow, Nat.mul_comm, Nat.add_comm, ← hval, Nat.mod_eq_of_lt hbound]

/-- C++ loads a scalar as Go does. -/
theorem get_eq {k : Scalar} {p : Nat} {b : List UInt8} (h : p + k.size ≤ b.length) :
    get k p b = C.get k p b := by
  cases k with
  | bool => rfl
  | u8 | i8 =>
    have hp : p < b.length := h
    rw [get, C.get, getBytes_eq (n := 1) h, C.load_eq hp, take_one_drop hp]
    rfl
  | u16 | i16 => rw [get, C.get, getBytes_eq (n := 2) h, C.getU16_eq h]
  | u32 | i32 | f32 => rw [get, C.get, getBytes_eq (n := 4) h, C.getU32_eq h]
  | u64 | i64 | f64 => rw [get, C.get, getBytes_eq (n := 8) h, C.getU64_eq h]

theorem reader_lawful : reader.Lawful where
  scalar h := (get_eq h).trans (C.reader_lawful.scalar h)
  enter _ := rfl

/-! ### Encoding -/

theorem size_eq {m : Laid} {v : m.Val} (h : m.encodedSize v < 2 ^ 64) :
    size m v = m.encodedSize v := by
  suffices hsum : ∀ (vs : List (VarKind × List UInt8)) (n : Nat),
      n + (vs.map fun x => 4 + x.2.length).sum < 2 ^ 64 →
      vs.foldl (fun n x => ((n + 4) % 2 ^ 64 + x.2.length) % 2 ^ 64) n =
        n + (vs.map fun x => 4 + x.2.length).sum from hsum _ _ h
  intro vs
  induction vs with
  | nil =>
    intro n _
    rfl
  | cons x vs ih =>
    intro n hn
    rw [List.map_cons, List.sum_cons] at hn ⊢
    rw [List.foldl_cons, Nat.mod_eq_of_lt (a := n + 4) (by omega),
      Nat.mod_eq_of_lt (by omega), ih _ (by omega)]
    omega

theorem putVar_eq (pre tail : List UInt8) {x : List UInt8} (hlen : (pre ++ tail).length < 2 ^ 64)
    (hx : x.length < 2 ^ 32) (htail : 4 + x.length ≤ tail.length) :
    putVar (pre ++ tail) pre.length x =
      some (pre ++ (leBytes 4 x.length ++ x) ++ tail.drop (4 + x.length),
        pre.length + (4 + x.length)) := by
  have hroom : pre.length + 4 ≤ (pre ++ tail).length := by
    rw [List.length_append]
    omega
  have hsame : putVar (pre ++ tail) pre.length x = C.putvar (pre ++ tail) pre.length x := by
    unfold putVar C.putvar
    rw [putBytes_eq _ hroom, C.putU32_eq _ hroom]
  rw [hsame]
  exact C.putvar_eq pre tail hlen hx htail

/-- **Encoding in C++**, for every value and every buffer. -/
theorem encode_eq {m : Laid} (hm : Sound m) {v : m.Val} (hsize : m.encodedSize v < 2 ^ 64)
    {b : List UInt8} (hb : b.length < 2 ^ 64) : encode m v b = some (encoded m v b) := by
  have hfits : ∀ x ∈ m.vars v, fits x.2.length = decide (x.2.length < 2 ^ 32) := by
    intro x _
    unfold fits
    rw [decide_eq_decide]
    omega
  unfold encode encoded
  rw [any_unfit hfits, size_eq hsize]
  by_cases hv : Short m v
  · rw [decide_eq_true hv, if_neg (by simp)]
    by_cases hcap : m.encodedSize v ≤ b.length
    · have htotal := m.encodedSize_eq v
      have hzero : C.copy b 0 (List.replicate m.fixedSize 0) =
          some (List.replicate m.fixedSize 0 ++ b.drop m.fixedSize) := by
        rw [C.copy, if_pos (by rw [List.length_replicate]; omega), List.length_replicate, Nat.zero_add]
        rfl
      have hvars := Laid.putVars_encode
        (fun pre tail x (hlen : (pre ++ tail).length = b.length) => putVar_eq pre tail (hlen ▸ hb)) hv hcap
      simp only
      rw [if_neg (by omega), if_pos ⟨hv, hcap⟩, hzero, Option.bind_eq_bind, Option.bind_some,
        Laid.putWith_zeroed writer_lawful hm v, Option.bind_some, hvars]
      rfl
    · simp only
      rw [if_pos (by omega), if_neg fun h => hcap h.2]
  · rw [decide_eq_false hv, if_pos (by simp), if_neg fun h => hv h.1]

/-! ### Decoding -/

theorem getVar_eq {b : List UInt8} (hb : b.length < 2 ^ 64) {off : Nat} (hoff : off ≤ b.length) :
    getVar b off = Schema.getVar b off := by
  rw [← C.getvar_eq hb hoff]
  unfold getVar C.getvar
  have hu : Go.u64 ((b.length : Int) - (off : Int)) = b.length - off := by
    unfold Go.u64
    omega
  rw [hu]
  split_ifs with h4
  · rfl
  · rw [getBytes_eq (by omega), C.getU32_eq (by omega)]

theorem utf8_valid (s : List UInt8) : decide (utf8 s = some true) = utf8Valid s := by
  have hscan : utf8 s = some (C.utf8 s) :=
    scan_eq (i := 0) (fun i h => (turn_eq s i).trans (C.turn_eq h)) (by omega)
  rw [hscan, C.utf8_eq]
  cases utf8Valid s <;> rfl

theorem decodeBody_eq {m : Laid} (hm : Sound m) {b : List UInt8} (hb : b.length < 2 ^ 64) :
    decodeBody m b = m.decode b := by
  unfold decodeBody Laid.decode
  by_cases hshort : b.length < m.fixedSize
  · rw [if_pos ⟨by omega, hshort⟩, if_pos hshort]
  · rw [if_neg (fun h => hshort h.2), if_neg hshort, m.getWith_eq reader_lawful hm 0 b (by omega)]
    cases m.getWith plainReader 0 b with
    | error f => rfl
    | ok v =>
      show (m.getVarsWith getVar (fun raw => decide (utf8 raw = some true)) v b m.fixedSize >>= _) =
        (m.getVarsWith Schema.getVar utf8Valid v b m.fixedSize >>= _)
      rw [m.getVarsWith_eq (fun _ => getVar_eq hb) utf8_valid v (by omega)]

/-- **Decoding in C++**, for every input. -/
theorem decode_eq {m : Laid} (hm : Sound m) {b : List UInt8} (hb : b.length < 2 ^ 64) :
    decode m b = some (m.decode b).toOption := by
  unfold decode
  rw [decodeBody_eq hm hb]
  obtain ⟨r, hr⟩ := decode_cases m b
  rw [hr]
  cases r <;> rfl

end Cpp

/-- **C++ encodes as Go does**: for every message of an accepted schema, every value whose size an
    `int` can hold and every buffer, `encode` of the C++ class and `MarshalTo` return the same count and
    leave the same bytes: the encoding if every field is short enough and the buffer has room, and
    otherwise zero and the buffer as it was.  Neither makes an access outside. -/
theorem cpp_encodes_as_go {s : Schema} {c : Checked} (h : check s = .ok c) {i : Nat} {decl : Message}
    (hdecl : s.messages[i]? = some decl) : ∃ m, c.msg i = some m ∧
      m.name = decl.name ∧ m.fields.declared = decl.fields.map (fun f => (f.name, f.type.bare)) ∧
      ∀ v, m.encodedSize v < 2 ^ 63 → ∀ b : Slice,
        Cpp.encode m v b.bytes = some (encoded m v b.bytes) ∧
        Go.marshalTo m v b = some (((encoded m v b.bytes).1 : Int), (encoded m v b.bytes).2) := by
  obtain ⟨m, hmsg, hname, hdeclared, hm⟩ := check_sound h hdecl
  refine ⟨m, hmsg, hname, hdeclared, fun v hsize b => ⟨?_, Go.marshalTo_eq hm hsize b⟩⟩
  exact Cpp.encode_eq hm (hsize.trans (by decide)) (b.fits.trans (by decide))

/-- A buffer with room for the note, and one that is a byte too short. -/
theorem cpp_encodes_notes : ∃ c, check notes = .ok c ∧ c.msg 1 = some note ∧
    Cpp.encode note noteVal (List.replicate 40 170) =
      some (35, note.encode noteVal ++ List.replicate 5 170) ∧
    Cpp.encode note noteVal (List.replicate 34 170) = some (0, List.replicate 34 170) := by
  obtain ⟨c, hc, hmsg⟩ := Go.check_notes
  obtain ⟨m, hm, -, -, hagree⟩ := cpp_encodes_as_go hc (i := 1) rfl
  obtain rfl : m = note := Option.some_inj.mp (hm.symm.trans hmsg)
  have hsize : note.encodedSize noteVal = 35 := rfl
  have hshort : Short note noteVal := Go.encodable_noteVal.short
  refine ⟨c, hc, hm, ?_, ?_⟩
  · rw [(hagree noteVal (by decide) ⟨List.replicate 40 170, by decide⟩).1, encoded,
      if_pos ⟨hshort, by decide⟩, hsize]
    rfl
  · rw [(hagree noteVal (by decide) ⟨List.replicate 34 170, by decide⟩).1, encoded,
      if_neg fun h => absurd h.2 (by decide)]

/-- **C++ decodes as Go does**: for every message of an accepted schema and every input, `decode` of the
    C++ class has a value exactly if `UnmarshalBinary` has no error, with the same value, and makes no
    access outside.  So each side gets back the value that the other one encoded. -/
theorem cpp_decodes_as_go {s : Schema} {c : Checked} (h : check s = .ok c) {i : Nat} {decl : Message}
    (hdecl : s.messages[i]? = some decl) : ∃ m, c.msg i = some m ∧
      m.name = decl.name ∧ m.fields.declared = decl.fields.map (fun f => (f.name, f.type.bare)) ∧
      (∀ (b : Slice) (recv : m.Val), Cpp.decode m b.bytes = some
        (match Go.unmarshalBinary m recv b with
          | (none, v) => some v
          | (some _, _) => none)) ∧
      ∀ v, m.Encodable v → ∀ b : Slice, b.bytes.length = m.encodedSize v →
        (∃ enc : Slice, Cpp.encode m v b.bytes = some (m.encodedSize v, enc.bytes) ∧
          ∀ recv, Go.unmarshalBinary m recv enc = (none, v)) ∧
        ∃ enc : Slice, Go.marshalTo m v b = some ((m.encodedSize v : Int), enc.bytes) ∧
          Cpp.decode m enc.bytes = some (some v) := by
  obtain ⟨m, hmsg, hname, hdeclared, hm⟩ := check_sound h hdecl
  have hdec : ∀ b : Slice, Cpp.decode m b.bytes = some (m.decode b.bytes).toOption :=
    fun b => Cpp.decode_eq hm (b.fits.trans (by decide))
  refine ⟨m, hmsg, hname, hdeclared, fun b recv => ?_, fun v hv b hb => ?_⟩
  · rw [hdec, Go.unmarshalBinary, Go.decode_eq hm b]
    cases m.decode b.bytes <;> rfl
  · have hsize : m.encodedSize v < 2 ^ 63 := hb ▸ b.fits
    have henc : encoded m v b.bytes = (m.encodedSize v, m.encode v) := by
      rw [encoded, if_pos ⟨hv.short, hb.ge⟩, List.drop_eq_nil_of_le hb.le,
        List.append_nil]
    let enc : Slice := ⟨m.encode v, by rwa [m.length_encode]⟩
    have hback : m.decode enc.bytes = .ok v := Laid.decode_encode hm hv
    refine ⟨⟨enc, ?_, fun recv => ?_⟩, enc, ?_, ?_⟩
    · rw [Cpp.encode_eq hm (hsize.trans (by decide)) (b.fits.trans (by decide)), henc]
    · rw [Go.unmarshalBinary, Go.decode_eq hm enc, hback]
    · rw [Go.marshalTo_eq hm hsize b, henc]
    · rw [hdec, hback]
      rfl

/-- A bool of 2 in the array, and what Go encodes. -/
theorem cpp_decodes_notes : ∃ c, check notes = .ok c ∧ c.msg 1 = some note ∧
    (∀ b : Slice, b.bytes = List.replicate 8 0 ++ 2 :: List.replicate 15 0 →
      Cpp.decode note b.bytes = some none) ∧
    ∃ enc : Slice, Go.marshalTo note noteVal ⟨List.replicate 35 0, by decide⟩ = some (35, enc.bytes) ∧
      Cpp.decode note enc.bytes = some (some noteVal) := by
  obtain ⟨c, hc, hmsg⟩ := Go.check_notes
  obtain ⟨m, hm, -, -, hdecode, hcross⟩ := cpp_decodes_as_go hc (i := 1) rfl
  obtain rfl : m = note := Option.some_inj.mp (hm.symm.trans hmsg)
  refine ⟨c, hc, hm, fun b hb => ?_, (hcross noteVal Go.encodable_noteVal _ (by decide)).2⟩
  have hbool : Go.unmarshalBinary note noteVal b = (some (.error .bool), noteVal) := by
    unfold Go.unmarshalBinary
    rw [hb]
    rfl
  rw [hdecode b noteVal, hbool]

end GoIpc.Codec
