import GoIpc.Codec.Go

namespace GoIpc.Codec.C

open GoIpc.Lib GoIpc.Schema

/-!
# Generated C code

What the functions that the C generator writes for a message do.  A buffer is a list of bytes, its
length the capacity; `size_t` has 64 bits.

* `put`, `get` — the `ipcgen_put_…` and `ipcgen_get_…` helpers, byte by byte;
* `size`, `encode`, `decode` — the functions of a message;
* `utf8` — the validator, and `utf8_eq`: it decides UTF-8;
* `encode_eq`, `decode_eq` — they write the encoding and read any input as `Laid.decode` does.
-/

/-! ### The generated code -/

def sizeMax : Nat := 2 ^ 64 - 1

/-- A store to `p[0]`. -/
def store : List UInt8 → Nat → UInt8 → Option (List UInt8) := setByte none

def putU16 (b : List UInt8) (p v : Nat) : Option (List UInt8) := do
  let b ← store b p (UInt8.ofNat v)
  store b (p + 1) (UInt8.ofNat (v >>> 8))

def putU32 (b : List UInt8) (p v : Nat) : Option (List UInt8) := do
  let b ← putU16 b p (v % 2 ^ 16)
  putU16 b (p + 2) ((v >>> 16) % 2 ^ 16)

def putU64 (b : List UInt8) (p v : Nat) : Option (List UInt8) := do
  let b ← putU32 b p (v % 2 ^ 32)
  putU32 b (p + 4) ((v >>> 32) % 2 ^ 32)

/-- `ipcgen_put_…` of a scalar. -/
def put (k : Scalar) (v : Fin k.bound) (p : Nat) (b : List UInt8) : Option (List UInt8) :=
  match k with
  | .bool => store b p (if v.val = 1 then 1 else 0)
  | .u8 | .i8 => store b p (UInt8.ofNat v)
  | .u16 | .i16 => putU16 b p v
  | .u32 | .i32 | .f32 => putU32 b p v
  | .u64 | .i64 | .f64 => putU64 b p v

/-- The `_put` function of a message. -/
def writer : Writer := ⟨put, fun _ _ => some ()⟩

/-- A load of `p[0]`. -/
def load (b : List UInt8) (p : Nat) : Except Fault UInt8 :=
  match b[p]? with
  | some x => .ok x
  | none => .error .outside

def getU16 (b : List UInt8) (p : Nat) : Except Fault Nat := do
  let x ← load b p
  let y ← load b (p + 1)
  return x.toNat ||| y.toNat <<< 8

def getU32 (b : List UInt8) (p : Nat) : Except Fault Nat := do
  let x ← getU16 b p
  let y ← getU16 b (p + 2)
  return x ||| y <<< 16

def getU64 (b : List UInt8) (p : Nat) : Except Fault Nat := do
  let x ← getU32 b p
  let y ← getU32 b (p + 4)
  return x ||| y <<< 32

/-- The conversion to an unsigned type of `n` bytes. -/
def cast (n v : Nat) : Fin (256 ^ n) := ⟨v % 256 ^ n, Nat.mod_lt _ (Nat.pow_pos (by decide))⟩

/-- What `get` writes to load a scalar. -/
def get : (k : Scalar) → Nat → List UInt8 → Except Fault (Fin k.bound)
  | .bool, p, b => do
      let x ← load b p
      if x > 1 then .error (.error .bool) else return if x = 1 then ⟨1, Nat.one_lt_two⟩ else ⟨0, Nat.zero_lt_two⟩
  | .u8, p, b | .i8, p, b => (load b p).map fun x => cast 1 x.toNat
  | .u16, p, b | .i16, p, b => (getU16 b p).map (cast 2)
  | .u32, p, b | .i32, p, b | .f32, p, b => (getU32 b p).map (cast 4)
  | .u64, p, b | .i64, p, b | .f64, p, b => (getU64 b p).map (cast 8)

/-- The `_get` function of a message. -/
def reader : Reader := ⟨get, fun _ _ => .ok ()⟩

/-- `ipcgen_addvar`: the new total, if it fits. -/
def addvar (total n : Nat) : Option Nat :=
  if n > 2 ^ 32 - 1 ∨ total > sizeMax - 4 ∨ total + 4 > sizeMax - n then none
  else some ((total + (4 + n)) % 2 ^ 64)

/-- The `_size` function. -/
def size (m : Laid) (v : m.Val) : Nat :=
  if m.fields.fixed then m.fixedSize
  else ((m.vars v).foldlM (fun n x => addvar n x.2.length) m.fixedSize).getD sizeMax

/-- `memcpy` of `x` to `buf + p`. -/
def copy (b : List UInt8) (p : Nat) (x : List UInt8) : Option (List UInt8) :=
  if p + x.length ≤ b.length then some (b.take p ++ x ++ b.drop (p + x.length)) else none

/-- `ipcgen_putvar` -/
def putvar (b : List UInt8) (off : Nat) (x : List UInt8) : Option (List UInt8 × Nat) := do
  let b ← putU32 b off (x.length % 2 ^ 32)
  let b ← (if x.length > 0 then copy b (off + 4) x else some b)
  return (b, (off + 4 + x.length) % 2 ^ 64)

/-- The `_encode` function: the count it returns, and the buffer. -/
def encode (m : Laid) (v : m.Val) (b : List UInt8) : Option (Nat × List UInt8) :=
  let n := size m v
  if (!m.fields.fixed && (n = sizeMax || b.length < n)) ||
      (m.fields.fixed && m.fixedSize > 0 && b.length < n) then some (0, b)
  else do
    let b ←
      (if m.fixedSize > 0 then copy b 0 (List.replicate m.fixedSize 0) >>= m.putWith writer v 0
      else some b)
    let (b, _) ← (m.vars v).foldlM (fun s x => putvar s.1 s.2 x.2) (b, m.fixedSize)
    return (n, b)

/-- `ipcgen_getvar`; `len` and `off` are of type `size_t`.  The bytes at `*ptr` are read later. -/
def getvar (b : List UInt8) (off : Nat) : Except Fault (List UInt8 × Nat) :=
  if Go.u64 ((b.length : Int) - off) < 4 then .error (.error .length)
  else do
    let k ← getU32 b off
    let off : Nat := (off + 4) % 2 ^ 64
    if k > Go.u64 ((b.length : Int) - off) then .error (.error .length)
    else if off + k ≤ b.length then return ((b.drop off).take k, (off + k) % 2 ^ 64)
    else .error .outside

/-- The bytes after the first one of a character: each adds six bits to `cp`. -/
def continuation : Nat → List UInt8 → Option Nat
  | cp, [] => some cp
  | cp, x :: xs =>
      if x &&& 0xC0 ≠ 0x80 then none else continuation (cp <<< 6 ||| (x &&& 0x3F).toNat) xs

/-- The first byte of a character: how many bytes follow, its bits, and the least code point. -/
def leading (c : UInt8) : Option (Nat × Nat × Nat) :=
  if c &&& 0xE0 = 0xC0 then some (1, (c &&& 0x1F).toNat, 0x80)
  else if c &&& 0xF0 = 0xE0 then some (2, (c &&& 0x0F).toNat, 0x800)
  else if c &&& 0xF8 = 0xF0 then some (3, (c &&& 0x07).toNat, 0x10000)
  else none

/-- One turn of the loop in `ipcgen_utf8`: the code point and how many bytes it takes. -/
def character (c : UInt8) (rest : List UInt8) : Option (Nat × Nat) :=
  if c < 0x80 then some (c.toNat, 1)
  else
    match leading c with
    | none => none
    | some (k, cp, least) =>
        if rest.length < k then none
        else
          match continuation cp (rest.take k) with
          | none => none
          | some cp =>
              if cp < least ∨ cp > 0x10FFFF ∨ (cp ≥ 0xD800 ∧ cp ≤ 0xDFFF) then none
              else some (cp, k + 1)

/-- `ipcgen_utf8` -/
def utf8 : List UInt8 → Bool
  | [] => true
  | c :: rest =>
      match character c rest with
      | none => false
      | some (_, w) => utf8 (rest.drop (w - 1))
termination_by s => s.length
decreasing_by simp only [List.length_cons, List.length_drop]; omega

/-- The `_decode` function; an empty fixed section is not checked for. -/
def decode (m : Laid) (b : List UInt8) : Except Fault m.Val :=
  if m.fixedSize > 0 ∧ b.length < m.fixedSize then .error (.error .short)
  else do
    let v ← m.getWith reader 0 b
    let (v, off) ← m.getVarsWith getvar utf8 v b m.fixedSize
    if off ≠ b.length then .error (.error .trailing) else return v

/-! ### Scalars -/

variable {b : List UInt8} {p : Nat}

theorem store_eq (h : p < b.length) (x : UInt8) :
    store b p x = some (writes (storesAt p [x]) b) := setByte_eq h x

/-- Two halves of a number, one after the other. -/
theorem put_halves {n : Nat} {half : List UInt8 → Nat → Nat → Option (List UInt8)}
    (hhalf : ∀ b p v, p + n ≤ b.length → half b p v = some (writes (storesAt p (leBytes n v)) b)) {v : Nat}
    (h : p + (n + n) ≤ b.length) :
    (half b p (v % 256 ^ n) >>= fun b => half b (p + n) (v / 256 ^ n % 256 ^ n)) =
      some (writes (storesAt p (leBytes (n + n) v)) b) := by
  rw [hhalf b p _ (by omega), Option.bind_eq_bind, Option.bind_some,
    hhalf _ _ _ (by rw [length_writes]; omega), leBytes_mod, leBytes_mod, ← writes_append, leBytes_add,
    storesAt_append, length_leBytes]

theorem putU16_eq (v : Nat) (h : p + 2 ≤ b.length) :
    putU16 b p v = some (writes (storesAt p (leBytes 2 v)) b) := by
  rw [putU16, store_eq (by omega), Option.bind_eq_bind, Option.bind_some,
    store_eq (by rw [length_writes]; omega), Nat.shiftRight_eq_div_pow]
  rfl

theorem putU32_eq (v : Nat) (h : p + 4 ≤ b.length) :
    putU32 b p v = some (writes (storesAt p (leBytes 4 v)) b) := by
  rw [putU32, Nat.shiftRight_eq_div_pow]
  exact put_halves (n := 2) (fun b p v h => putU16_eq v h) h

theorem putU64_eq (v : Nat) (h : p + 8 ≤ b.length) :
    putU64 b p v = some (writes (storesAt p (leBytes 8 v)) b) := by
  rw [putU64, Nat.shiftRight_eq_div_pow]
  exact put_halves (n := 4) (fun b p v h => putU32_eq v h) h

theorem writer_lawful : writer.Lawful where
  scalar {k v p b} hlen _ := by
    show put k v p b = _
    cases k with
    | bool =>
      have hv : v.val = 0 ∨ v.val = 1 := by
        have : v.val < 2 := v.isLt
        omega
      rcases hv with hv | hv <;> simp only [put, hv] <;> exact store_eq hlen _
    | u8 | i8 => exact store_eq hlen _
    | u16 | i16 => exact putU16_eq _ hlen
    | u32 | i32 | f32 => exact putU32_eq _ hlen
    | u64 | i64 | f64 => exact putU64_eq _ hlen
  enter _ := rfl

theorem load_eq (h : p < b.length) : load b p = .ok b[p] := by
  rw [load, List.getElem?_eq_getElem h]

/-- Two halves of a number, combined. -/
theorem or_halves {n : Nat} (h : p + (n + n) ≤ b.length) :
    leNat ((b.drop p).take n) ||| leNat ((b.drop (p + n)).take n) <<< (8 * n) =
      leNat ((b.drop p).take (n + n)) := by
  have hlen : ((b.drop p).take n).length = n := by
    rw [List.length_take, List.length_drop]
    omega
  have hlt := leNat_lt ((b.drop p).take n)
  have hpow : 256 ^ n = 2 ^ (8 * n) := by rw [Nat.pow_mul]
  rw [hlen, hpow] at hlt
  rw [List.take_add, List.drop_drop, leNat_append, hlen, Nat.or_comm,
    ← Nat.shiftLeft_add_eq_or_of_lt hlt, Nat.shiftLeft_eq, hpow]
  ring

theorem getU16_eq (h : p + 2 ≤ b.length) : getU16 b p = .ok (leNat ((b.drop p).take 2)) := by
  have hx : leNat ((b.drop p).take 1) = b[p].toNat := by
    rw [take_one_drop (by omega)]
    rfl
  have hy : leNat ((b.drop (p + 1)).take 1) = b[p + 1].toNat := by
    rw [take_one_drop (by omega)]
    rfl
  have := or_halves (n := 1) (b := b) (p := p) (by omega)
  rw [hx, hy] at this
  rw [getU16, load_eq (by omega), load_eq (by omega), ← this]
  rfl

theorem getU32_eq (h : p + 4 ≤ b.length) : getU32 b p = .ok (leNat ((b.drop p).take 4)) := by
  rw [getU32, getU16_eq (by omega), getU16_eq (by omega)]
  exact congrArg Except.ok (or_halves (n := 2) h)

theorem getU64_eq (h : p + 8 ≤ b.length) : getU64 b p = .ok (leNat ((b.drop p).take 8)) := by
  rw [getU64, getU32_eq (by omega), getU32_eq (by omega)]
  exact congrArg Except.ok (or_halves (n := 4) h)

/-- C loads a scalar as Go does. -/
theorem get_eq {k : Scalar} (h : p + k.size ≤ b.length) : get k p b = Go.get k p b := by
  have hcast : ∀ {n : Nat} (hlt : leNat ((b.drop p).take n) < 256 ^ n),
      cast n (leNat ((b.drop p).take n)) = ⟨leNat ((b.drop p).take n), hlt⟩ :=
    fun hlt => Fin.ext (Nat.mod_eq_of_lt hlt)
  cases k with
  | bool =>
    have hp : p < b.length := h
    rw [get, Go.get, load_eq hp, List.getElem?_eq_getElem hp]
    rfl
  | u8 | i8 =>
    have hp : p < b.length := h
    rw [get, Go.get, load_eq hp, Go.getByte, List.getElem?_eq_getElem hp]
    exact congrArg Except.ok (Fin.ext (Nat.mod_eq_of_lt (UInt8.toNat_lt _)))
  | u16 | i16 =>
    obtain ⟨hlt, heq⟩ := Go.getUint_eq (n := 2) h
    rw [get, Go.get, heq, getU16_eq h]
    exact congrArg Except.ok (hcast hlt)
  | u32 | i32 | f32 =>
    obtain ⟨hlt, heq⟩ := Go.getUint_eq (n := 4) h
    rw [get, Go.get, heq, getU32_eq h]
    exact congrArg Except.ok (hcast hlt)
  | u64 | i64 | f64 =>
    obtain ⟨hlt, heq⟩ := Go.getUint_eq (n := 8) h
    rw [get, Go.get, heq, getU64_eq h]
    exact congrArg Except.ok (hcast hlt)

theorem reader_lawful : reader.Lawful where
  scalar h := (get_eq h).trans (Go.reader_lawful.scalar h)
  enter _ := rfl

/-! ### Encoding -/

/-- The sum in `size`, while it fits. -/
theorem addvars_eq {vs : List (VarKind × List UInt8)} (hvs : ∀ x ∈ vs, x.2.length < 2 ^ 32)
    (total : Nat) (h : total + (varBytes vs).length ≤ sizeMax) :
    vs.foldlM (fun n x => addvar n x.2.length) total = some (total + (varBytes vs).length) := by
  induction vs generalizing total with
  | nil => rfl
  | cons x vs ih =>
    have hx := hvs x List.mem_cons_self
    have hlen : (varBytes (x :: vs)).length = 4 + x.2.length + (varBytes vs).length := by
      rw [length_varBytes, length_varBytes]
      rfl
    have hadd : addvar total x.2.length = some (total + (4 + x.2.length)) := by
      unfold addvar
      unfold sizeMax at h ⊢
      rw [if_neg (by omega), Nat.mod_eq_of_lt (by omega)]
    rw [List.foldlM_cons, hadd, Option.bind_eq_bind, Option.bind_some,
      ih (fun y hy => hvs y (List.mem_cons_of_mem _ hy)) _ (by omega), hlen]
    simp only [Nat.add_assoc]

theorem size_eq {m : Laid} {v : m.Val} (hv : m.Encodable v) (h : m.encodedSize v ≤ sizeMax) :
    size m v = m.encodedSize v := by
  rw [m.encodedSize_eq v] at h ⊢
  unfold size
  split_ifs with hfixed
  · rw [m.vars_of_fixed hfixed v]
    rfl
  · rw [addvars_eq (fun x hx => (hv x hx).1) _ h]
    rfl

theorem putvar_eq (pre tail : List UInt8) {x : List UInt8} (hlen : (pre ++ tail).length < 2 ^ 64)
    (hx : x.length < 2 ^ 32) (htail : 4 + x.length ≤ tail.length) :
    putvar (pre ++ tail) pre.length x =
      some (pre ++ (leBytes 4 x.length ++ x) ++ tail.drop (4 + x.length),
        pre.length + (4 + x.length)) := by
  rw [List.length_append] at hlen
  have hput : putU32 (pre ++ tail) pre.length (x.length % 2 ^ 32) =
      some (pre ++ leBytes 4 x.length ++ tail.drop 4) := by
    rw [putU32_eq _ (by rw [List.length_append]; omega), Nat.mod_eq_of_lt hx,
      writes_storesAt (by rw [length_leBytes, List.length_append]; omega), length_leBytes,
      List.take_left, ← List.drop_drop, List.drop_left]
  have hpre : (pre ++ leBytes 4 x.length).length = pre.length + 4 := by
    rw [List.length_append, length_leBytes]
  have hcopy : (if x.length > 0 then copy (pre ++ leBytes 4 x.length ++ tail.drop 4) (pre.length + 4) x
      else some (pre ++ leBytes 4 x.length ++ tail.drop 4)) =
      some (pre ++ (leBytes 4 x.length ++ x) ++ tail.drop (4 + x.length)) := by
    split_ifs with hpos
    · rw [copy, if_pos (by rw [List.length_append, hpre, List.length_drop]; omega),
        List.take_left' hpre, ← List.drop_drop, List.drop_left' hpre, List.drop_drop]
      simp only [List.append_assoc]
    · obtain rfl : x = [] := List.length_eq_zero_iff.mp (by omega)
      simp
  unfold putvar
  rw [hput, Option.bind_eq_bind, Option.bind_some, hcopy, Option.bind_some,
    Nat.mod_eq_of_lt (by omega)]
  simp only [Nat.add_assoc]
  rfl

/-- **Encoding**: with the capacity that `size` asks for, `encode` writes the encoding, and nothing
    after it. -/
theorem encode_eq {m : Laid} (hm : Sound m) {v : m.Val} (hv : m.Encodable v)
    (hsize : m.encodedSize v < sizeMax) (hb : b.length < 2 ^ 64) (hcap : size m v ≤ b.length) :
    encode m v b = some (m.encodedSize v, m.encode v ++ b.drop (m.encodedSize v)) := by
  have hn := size_eq hv hsize.le
  rw [hn] at hcap
  have htotal := m.encodedSize_eq v
  have hput := Laid.putWith_zeroed writer_lawful hm v (b.drop m.fixedSize)
  have hvars := Laid.putVars_encode
    (fun pre tail x (hlen : (pre ++ tail).length = b.length) => putvar_eq pre tail (hlen ▸ hb)) hv.short hcap
  have hzero : copy b 0 (List.replicate m.fixedSize 0) =
      some (List.replicate m.fixedSize 0 ++ b.drop m.fixedSize) := by
    rw [copy, if_pos (by rw [List.length_replicate]; omega), List.length_replicate, Nat.zero_add]
    rfl
  have hfixed : (if m.fixedSize > 0 then
        copy b 0 (List.replicate m.fixedSize 0) >>= m.putWith writer v 0 else some b) =
      some (writes (m.plan v 0) (List.replicate m.fixedSize 0) ++ b.drop m.fixedSize) := by
    split_ifs with hpos
    · rw [hzero, Option.bind_eq_bind, Option.bind_some, hput]
    · have h0 : m.fixedSize = 0 := by omega
      rw [h0]
      have hnil : m.plan v 0 = [] := by
        refine List.eq_nil_iff_forall_not_mem.mpr fun w hw => ?_
        have := (m.plan_within hm v 0).2 w hw
        omega
      rw [hnil]
      rfl
  have hroom : ((!m.fields.fixed && (decide (size m v = sizeMax) || decide (b.length < size m v))) ||
      (m.fields.fixed && decide (m.fixedSize > 0) && decide (b.length < size m v))) = false := by
    rw [hn, decide_eq_false (by omega), decide_eq_false (by omega)]
    simp
  unfold encode
  simp only
  rw [hroom, if_neg (by simp), hfixed, Option.bind_eq_bind, Option.bind_some, hvars, hn]
  rfl

/-! ### Decoding -/

theorem getvar_eq (hb : b.length < 2 ^ 64) {off : Nat} (hoff : off ≤ b.length) :
    getvar b off = Schema.getVar b off := by
  have hu : ∀ {n : Nat}, n ≤ b.length → Go.u64 ((b.length : Int) - (n : Int)) = b.length - n := by
    intro n hn
    unfold Go.u64
    omega
  unfold getvar Schema.getVar
  rw [hu hoff]
  by_cases h4 : b.length - off < 4
  · rw [if_pos h4, if_pos h4]
  · rw [if_neg h4, if_neg h4, getU32_eq (by omega)]
    show (if leNat _ > _ then _ else _) = _
    rw [Nat.mod_eq_of_lt (by omega : off + 4 < 2 ^ 64), hu (by omega)]
    simp only
    split_ifs with h1 h2
    · rfl
    · rw [Nat.mod_eq_of_lt (by omega)]
      rfl
    · omega

/-! ### The validator -/

theorem and_tail (x : UInt8) : (x &&& 0xC0 = 0x80 ↔ isTail x = true) ∧
    (isTail x = true → (x &&& 0x3F).toNat = x.toNat - 0x80) :=
  forall_byte (p := fun x => (x &&& 0xC0 = 0x80 ↔ isTail x = true) ∧
    (isTail x = true → (x &&& 0x3F).toNat = x.toNat - 0x80)) (by decide +kernel) x

theorem leading_eq (c : UInt8) (h : ¬ c < 0x80) : leading c =
    if c.toNat < 0xC0 then none
    else if c.toNat < 0xE0 then some (1, c.toNat - 0xC0, 0x80)
    else if c.toNat < 0xF0 then some (2, c.toNat - 0xE0, 0x800)
    else if c.toNat < 0xF8 then some (3, c.toNat - 0xF0, 0x10000)
    else none :=
  forall_byte (p := fun c => ¬ c < 0x80 → leading c =
    if c.toNat < 0xC0 then none
    else if c.toNat < 0xE0 then some (1, c.toNat - 0xC0, 0x80)
    else if c.toNat < 0xF0 then some (2, c.toNat - 0xE0, 0x800)
    else if c.toNat < 0xF8 then some (3, c.toNat - 0xF0, 0x10000)
    else none) (by decide +kernel) c h

theorem continuation_nil (cp : Nat) : continuation cp [] = some cp := rfl

theorem continuation_cons (cp : Nat) (x : UInt8) (xs : List UInt8) : continuation cp (x :: xs) =
    if isTail x then continuation (cp * 64 + (x.toNat - 0x80)) xs else none := by
  obtain ⟨hiff, hbits⟩ := and_tail x
  rw [continuation]
  by_cases h : isTail x = true
  · have := isTail_iff.mp h
    rw [if_neg (not_not.mpr (hiff.mpr h)), if_pos h, hbits h,
      ← Nat.shiftLeft_add_eq_or_of_lt (by omega : x.toNat - 0x80 < 2 ^ 6), Nat.shiftLeft_eq]
  · rw [if_pos (fun hx => h (hiff.mp hx)), if_neg h]

/-- Two bytes: 0xC0 and 0xC1 start an overlong form. -/
theorem character_two {c : UInt8} (hlo : 0xC0 ≤ c.toNat) (hhi : c.toNat < 0xE0) (rest : List UInt8) :
    character c rest = charAt (c :: rest) := by
  have hc : ¬ c < 0x80 := Nat.not_lt.mpr ((by decide : 0x80 ≤ 0xC0).trans hlo)
  rw [character, if_neg hc, leading_eq c hc, if_neg (by omega), if_pos hhi]
  simp only [charAt, UInt8.lt_iff_toNat_lt, UInt8.le_iff_toNat_le, UInt8.reduceToNat]
  rw [if_neg (by omega : ¬ c.toNat < 128), if_neg (by omega : ¬ (224 ≤ c.toNat ∧ c.toNat ≤ 239)),
    if_neg (by omega : ¬ (240 ≤ c.toNat ∧ c.toNat ≤ 244))]
  cases rest with
  | nil => simp
  | cons x xs =>
    simp only [List.take_succ_cons, List.take_zero, continuation_cons, continuation_nil, List.length_cons]
    by_cases hx : isTail x = true
    · have := isTail_iff.mp hx
      simp only [hx, if_true]
      split_ifs <;> first | rfl | omega
    · simp [hx]

/-- Three bytes: no overlong form, and no surrogate. -/
theorem character_three {c : UInt8} (hlo : 0xE0 ≤ c.toNat) (hhi : c.toNat < 0xF0) (rest : List UInt8) :
    character c rest = charAt (c :: rest) := by
  have hc : ¬ c < 0x80 := Nat.not_lt.mpr ((by decide : 0x80 ≤ 0xE0).trans hlo)
  rw [character, if_neg hc, leading_eq c hc, if_neg (by omega), if_neg (by omega), if_pos hhi]
  simp only [charAt, UInt8.lt_iff_toNat_lt, UInt8.le_iff_toNat_le, UInt8.reduceToNat]
  rw [if_neg (by omega : ¬ c.toNat < 128), if_neg (by omega : ¬ (194 ≤ c.toNat ∧ c.toNat ≤ 223)),
    if_pos (by omega : 224 ≤ c.toNat ∧ c.toNat ≤ 239)]
  rcases rest with _ | ⟨x, _ | ⟨y, ys⟩⟩
  · simp
  · simp
  · simp only [List.take_succ_cons, List.take_zero, continuation_cons, continuation_nil, List.length_cons]
    rw [if_neg (by omega : ¬ ys.length + 1 + 1 < 2)]
    by_cases hx : isTail x = true
    · by_cases hy : isTail y = true
      · have hcp : ((c.toNat - 224) * 64 + (x.toNat - 128)) * 64 + (y.toNat - 128) =
            (c.toNat - 224) * 4096 + (x.toNat - 128) * 64 + (y.toNat - 128) := by omega
        have hx' := isTail_iff.mp hx
        have hy' := isTail_iff.mp hy
        simp only [hx, hy, if_true, and_true, hcp, isSecond_iff]
        split_ifs <;> first | rfl | omega
      · simp [hx, hy]
    · have hsecond : ¬ isSecond c x = true := fun h => hx (isTail_of_isSecond h)
      simp [hx, hsecond]

/-- Four bytes: no overlong form, and nothing above 0x10FFFF. -/
theorem character_four {c : UInt8} (hlo : 0xF0 ≤ c.toNat) (hhi : c.toNat < 0xF8) (rest : List UInt8) :
    character c rest = charAt (c :: rest) := by
  have hc : ¬ c < 0x80 := Nat.not_lt.mpr ((by decide : 0x80 ≤ 0xF0).trans hlo)
  rw [character, if_neg hc, leading_eq c hc, if_neg (by omega), if_neg (by omega), if_neg (by omega),
    if_pos hhi]
  simp only [charAt, UInt8.lt_iff_toNat_lt, UInt8.le_iff_toNat_le, UInt8.reduceToNat]
  rw [if_neg (by omega : ¬ c.toNat < 128), if_neg (by omega : ¬ (194 ≤ c.toNat ∧ c.toNat ≤ 223)),
    if_neg (by omega : ¬ (224 ≤ c.toNat ∧ c.toNat ≤ 239))]
  rcases rest with _ | ⟨x, _ | ⟨y, _ | ⟨z, zs⟩⟩⟩
  · simp
  · simp
  · simp
  · simp only [List.take_succ_cons, List.take_zero, continuation_cons, continuation_nil, List.length_cons]
    rw [if_neg (by omega : ¬ zs.length + 1 + 1 + 1 < 3)]
    by_cases hx : isTail x = true
    · by_cases hyz : isTail y = true ∧ isTail z = true
      · obtain ⟨hy, hz⟩ := hyz
        have hcp : (((c.toNat - 240) * 64 + (x.toNat - 128)) * 64 + (y.toNat - 128)) * 64 +
            (z.toNat - 128) = (c.toNat - 240) * 262144 + (x.toNat - 128) * 4096 +
              (y.toNat - 128) * 64 + (z.toNat - 128) := by omega
        have hx' := isTail_iff.mp hx
        have hy' := isTail_iff.mp hy
        have hz' := isTail_iff.mp hz
        simp only [hx, hy, hz, if_true, and_true, hcp, isSecond_iff]
        split_ifs <;> first | rfl | omega
      · by_cases hy : isTail y = true
        · have hz : ¬ isTail z = true := fun hz => hyz ⟨hy, hz⟩
          simp [hx, hy, hz]
        · simp [hx, hy]
    · have hsecond : ¬ isSecond c x = true := fun h => hx (isTail_of_isSecond h)
      simp [hx, hsecond]

/-- The loop finds the characters of RFC 3629. -/
theorem character_eq (c : UInt8) (rest : List UInt8) : character c rest = charAt (c :: rest) := by
  by_cases hc : c < 0x80
  · simp [character, charAt, hc]
  have hge : 0x80 ≤ c.toNat := Nat.not_lt.mp hc
  by_cases h1 : 0xC0 ≤ c.toNat ∧ c.toNat < 0xE0
  · exact character_two h1.1 h1.2 rest
  by_cases h2 : 0xE0 ≤ c.toNat ∧ c.toNat < 0xF0
  · exact character_three h2.1 h2.2 rest
  by_cases h3 : 0xF0 ≤ c.toNat ∧ c.toNat < 0xF8
  · exact character_four h3.1 h3.2 rest
  -- no character starts with a continuation byte, or from 0xF8 on
  have hnone : leading c = none := by
    rw [leading_eq c hc]
    split_ifs <;> first | rfl | omega
  rw [character, if_neg hc, hnone]
  simp only [charAt, UInt8.lt_iff_toNat_lt, UInt8.le_iff_toNat_le, UInt8.reduceToNat]
  rw [if_neg (by omega : ¬ c.toNat < 128), if_neg (by omega : ¬ (194 ≤ c.toNat ∧ c.toNat ≤ 223)),
    if_neg (by omega : ¬ (224 ≤ c.toNat ∧ c.toNat ≤ 239)),
    if_neg (by omega : ¬ (240 ≤ c.toNat ∧ c.toNat ≤ 244))]

/-- **The validator decides UTF-8.** -/
theorem utf8_eq (s : List UInt8) : utf8 s = utf8Valid s := by
  induction s using utf8Valid.induct with
  | case1 => rw [utf8, utf8Valid]
  | case2 c rest cp w h ih =>
    obtain ⟨n, rfl, -⟩ := charAt_width h
    rw [utf8, utf8Valid_cons h, ← ih, character_eq, h]
    rfl
  | case3 c rest h => rw [utf8, utf8Valid_none h, character_eq, h]

/-- **Decoding**: `decode` reads any input as `Laid.decode` does. -/
theorem decode_eq {m : Laid} (hm : Sound m) (hb : b.length < 2 ^ 64) : decode m b = m.decode b := by
  unfold decode Laid.decode
  by_cases hshort : b.length < m.fixedSize
  · rw [if_pos ⟨by omega, hshort⟩, if_pos hshort]
  · rw [if_neg (fun h => hshort h.2), if_neg hshort, m.getWith_eq reader_lawful hm 0 b (by omega)]
    cases m.getWith plainReader 0 b with
    | error f => rfl
    | ok v =>
      show (m.getVarsWith getvar utf8 v b m.fixedSize >>= _) =
        (m.getVarsWith Schema.getVar utf8Valid v b m.fixedSize >>= _)
      rw [m.getVarsWith_eq (fun _ => getvar_eq hb) utf8_eq v (by omega)]

end GoIpc.Codec.C
