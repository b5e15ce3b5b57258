import GoIpc.Codec.Tail
import GoIpc.Schema.Grammar

namespace GoIpc.Codec.Ref

open GoIpc.Lib GoIpc.Schema

/-!
# The reference codec

`refcodec` encodes JSON values of a checked message and checks encoded ones.  A slice `b[p:]` is the
buffer at offset `p`.

* `Json`, `Floats` — what the encoder reads; the conversions of floating-point numbers are a parameter;
* `encode`, `decode` — as in the source;
* `Laid.Denotes` — a JSON value that stands for a typed value;
* `encode_eq` — the encoder writes the encoding of the value that its input denotes;
* `decode_eq` — the decoder accepts what `Laid.decode` accepts, and fails with its errors.
-/

/-! ### JSON values -/

/-- Decoded JSON, with `json.Number` for numbers.  A map is the list of its entries in the order of an
    iteration. -/
inductive Json
  | null
  | bool (x : Bool)
  | number (text : List UInt8)
  | string (bytes : List UInt8)
  | array (items : List Json)
  | object (entries : List (String × Json))

abbrev Entries := List (String × Json)

/-- The Go type of a value. -/
def Json.type : Json → String
  | .null => "<nil>"
  | .bool _ => "bool"
  | .number _ => "json.Number"
  | .string _ => "string"
  | .array _ => "[]interface {}"
  | .object _ => "map[string]interface {}"

/-- `obj[name]` -/
def item (obj : Entries) (name : String) : Json := (obj.lookup name).getD .null

/-- Floating-point numbers, as bit patterns. -/
structure Floats where
  /-- `strconv.ParseFloat(text, 64)` -/
  parse : List UInt8 → Option (Fin (256 ^ 8))
  /-- `float32(f)` -/
  narrow : Fin (256 ^ 8) → Fin (256 ^ 4)
  /-- `float64(f)` -/
  widen : Fin (256 ^ 4) → Fin (256 ^ 8)
  /-- `f == g` -/
  eq : Fin (256 ^ 8) → Fin (256 ^ 8) → Bool

/-! ### Errors -/

/-- What an error of the encoder says, after the path. -/
inductive Complaint
  /-- value is %T, want an object -/
  | value (type : String)
  /-- field %s is missing -/
  | missing (field : String)
  /-- message %s has no field %s -/
  | unknown (message field : String)
  /-- want an array of %d items -/
  | array (len : Nat)
  /-- want an object -/
  | object
  /-- want a bool -/
  | bool
  /-- want a JSON number for %s, found a string -/
  | notNumber (kind : Scalar)
  /-- want a decimal string for %s, found a number -/
  | notDecimal (kind : Scalar)
  /-- want a %s, found %T -/
  | type (kind : Scalar) (type : String)
  /-- %s is not exactly an f32, or is not an f64, an i8, a u8 and so on -/
  | range (text : List UInt8) (kind : Scalar)
  /-- want a string -/
  | string
  /-- not valid UTF-8 -/
  | utf8
  /-- want lower-case hex -/
  | hex
deriving DecidableEq

/-- How encoding fails: with an error, or with an access outside the buffer. -/
inductive Stop
  | error (path : String) (what : Complaint)
  | outside
deriving DecidableEq

/-! ### The encoder -/

def slice : Nat → List UInt8 → Except Stop Unit := sliceFrom (.error .outside)

def setByte : List UInt8 → Nat → UInt8 → Except Stop (List UInt8) := Lib.setByte (.error .outside)

/-- The loop of `put` over the bytes of a scalar. -/
def putBits (size bits p : Nat) (b : List UInt8) : Except Stop (List UInt8) :=
  (List.range size).foldlM (fun b i => setByte b (p + i) (UInt8.ofNat (bits >>> (8 * i)))) b

def chars (text : List UInt8) : List Char := text.map fun x => Char.ofNat x.toNat

/-- `strconv.ParseInt` in base 10. -/
def parseInt (cs : List Char) (bits : Nat) : Option Int :=
  match cs with
  | '-' :: cs => (parseUint cs 10 bits).bind fun n => if n > 2 ^ (bits - 1) then none else some (-n)
  | '+' :: cs => (parseUint cs 10 bits).bind fun n => if n ≥ 2 ^ (bits - 1) then none else some n
  | cs => (parseUint cs 10 bits).bind fun n => if n ≥ 2 ^ (bits - 1) then none else some n

/-- The text of a scalar: a `u64` or `i64` is a string, other numbers are JSON numbers. -/
def scalarText (k : Scalar) : Json → Except Complaint (List UInt8)
  | .string text => if k = .u64 ∨ k = .i64 then .ok text else .error (.notNumber k)
  | .number text => if k = .u64 ∨ k = .i64 then .error (.notDecimal k) else .ok text
  | j => .error (.type k j.type)

/-- The bits of a number scalar from its text. -/
def textBits (F : Floats) (k : Scalar) (text : List UInt8) : Option Nat :=
  match k with
  | .f32 => (F.parse text).bind fun f =>
      if F.eq (F.widen (F.narrow f)) f then some (F.narrow f).val else none
  | .f64 => (F.parse text).map fun f => f.val
  | .i8 | .i16 | .i32 | .i64 =>
      (parseInt (chars text) (k.size * 8)).map fun n => (n % 2 ^ 64).toNat
  | _ => parseUint (chars text) 10 (k.size * 8)

def scalarBits (F : Floats) (k : Scalar) (j : Json) : Except Complaint Nat := do
  let text ← scalarText k j
  match textBits F k text with
  | some n => return n
  | none => .error (.range text k)

/-- `put` for a scalar.  A false bool stores nothing. -/
def putScalar (F : Floats) (k : Scalar) (j : Json) (path : String) (p : Nat) (b : List UInt8) :
    Except Stop (List UInt8) :=
  if k = .bool then
    match j with
    | .bool x => if x then setByte b p 1 else .ok b
    | _ => .error (.error path .bool)
  else
    match scalarBits F k j with
    | .ok bits => putBits k.size bits p b
    | .error what => .error (.error path what)

def names : Fields → List String
  | .nil => []
  | .one name _ _ rest => name :: names rest
  | .array name _ _ _ rest => name :: names rest
  | .var name _ rest => name :: names rest

def checkKeys (message : String) (fields : List String) (obj : Entries) (path : String) :
    Except Stop Unit :=
  match fields.find? fun name => (obj.lookup name).isNone with
  | some name => .error (.error path (.missing name))
  | none =>
      if obj.length = fields.length then .ok ()
      else
        match obj.find? fun x => !fields.contains x.1 with
        | some x => .error (.error path (.unknown message x.1))
        | none => .ok ()

mutual

/-- `put` for a scalar or a message. -/
def put (F : Floats) : Elem → Json → String → Nat → List UInt8 → Except Stop (List UInt8)
  | .scalar k, j, path, p, b => putScalar F k j path p b
  | .ref m, j, path, p, b =>
      match j with
      | .object obj => putFixed F m obj path p b
      | _ => .error (.error path .object)

def putFixed (F : Floats) : Laid → Entries → String → Nat → List UInt8 → Except Stop (List UInt8)
  | .mk name fs _ _, obj, path, p, b => do
      checkKeys name (names fs) obj path
      putFields F fs obj path p b

/-- The loop of `putFixed` over the fixed fields. -/
def putFields (F : Floats) : Fields → Entries → String → Nat → List UInt8 → Except Stop (List UInt8)
  | .nil, _, _, _, b => .ok b
  | .one name e off rest, obj, path, p, b => do
      slice (p + off) b
      let b ← put F e (item obj name) (path ++ "." ++ name) (p + off) b
      putFields F rest obj path p b
  | .array name n e off rest, obj, path, p, b => do
      slice (p + off) b
      let b ←
        (match item obj name with
        | .array items =>
            if items.length ≠ n then .error (.error (path ++ "." ++ name) (.array n))
            else
              (List.finRange items.length).foldlM (fun b (i : Fin items.length) => do
                slice (p + off + i * e.size) b
                put F e (items.get i) (path ++ "." ++ name ++ "[" ++ toString i.val ++ "]")
                  (p + off + i * e.size) b) b
        | _ => .error (.error (path ++ "." ++ name) (.array n)))
      putFields F rest obj path p b
  | .var _ _ rest, obj, path, p, b => putFields F rest obj path p b

end

def hexDigit (n : Nat) : UInt8 := UInt8.ofNat (if n < 10 then 48 + n else 87 + n)

/-- `hex.EncodeToString` -/
def hexEncode (raw : List UInt8) : List UInt8 :=
  raw.flatMap fun x => [hexDigit (x.toNat >>> 4), hexDigit (x.toNat &&& 15)]

def hexValue (x : UInt8) : Option Nat :=
  if 48 ≤ x ∧ x ≤ 57 then some (x.toNat - 48)
  else if 97 ≤ x ∧ x ≤ 102 then some (x.toNat - 87)
  else if 65 ≤ x ∧ x ≤ 70 then some (x.toNat - 55)
  else none

/-- `hex.DecodeString` -/
def hexDecode : List UInt8 → Option (List UInt8)
  | [] => some []
  | [_] => none
  | x :: y :: rest => do
      let a ← hexValue x
      let b ← hexValue y
      let raw ← hexDecode rest
      return UInt8.ofNat (a <<< 4 ||| b) :: raw

def varBytes (kind : VarKind) (j : Json) (path : String) : Except Stop (List UInt8) :=
  match j with
  | .string s =>
      match kind with
      | .string => if utf8Valid s then .ok s else .error (.error path .utf8)
      | .bytes =>
          match hexDecode s with
          | some raw => if hexEncode raw = s then .ok raw else .error (.error path .hex)
          | none => .error (.error path .hex)
  | _ => .error (.error path .string)

/-- `VarFields` -/
def varFields : Fields → List (String × VarKind)
  | .nil => []
  | .one _ _ _ rest => varFields rest
  | .array _ _ _ _ rest => varFields rest
  | .var name kind rest => (name, kind) :: varFields rest

/-- One turn of the loop over the string and bytes fields. -/
def appendVar (message : String) (obj : Entries) (b : List UInt8) (f : String × VarKind) :
    Except Stop (List UInt8) := do
  let raw ← varBytes f.2 (item obj f.1) (message ++ "." ++ f.1)
  return b ++ leBytes 4 (raw.length % 2 ^ 32) ++ raw

/-- `Encode` -/
def encode (F : Floats) (m : Laid) (j : Json) : Except Stop (List UInt8) :=
  match j with
  | .object obj => do
      let b ← putFixed F m obj m.name 0 (List.replicate m.fixedSize 0)
      (varFields m.fields).foldlM (appendVar m.name obj) b
  | _ => .error (.error m.name (.value j.type))

/-! ### The decoder -/

def sliceIn : Nat → List UInt8 → Except Fault Unit := sliceFrom (.error .outside)

mutual

/-- `checkType` for a scalar or a message. -/
def checkType : Elem → Nat → List UInt8 → Except Fault Unit
  | .scalar .bool, p, b =>
      match b[p]? with
      | some x => if x > 1 then .error (.error .bool) else .ok ()
      | none => .error .outside
  | .scalar _, _, _ => .ok ()
  | .ref m, p, b => checkFixed m p b

def checkFixed : Laid → Nat → List UInt8 → Except Fault Unit
  | .mk _ fs _ _, p, b => checkFields fs p b

/-- The loop of `checkFixed` over the fixed fields. -/
def checkFields : Fields → Nat → List UInt8 → Except Fault Unit
  | .nil, _, _ => .ok ()
  | .one _ e off rest, p, b => do
      sliceIn (p + off) b
      checkType e (p + off) b
      checkFields rest p b
  | .array _ n e off rest, p, b => do
      sliceIn (p + off) b
      forM (List.finRange n) fun (i : Fin n) => do
        sliceIn (p + off + i * e.size) b
        checkType e (p + off + i * e.size) b
      checkFields rest p b
  | .var _ _ rest, p, b => checkFields rest p b

end

/-- One turn of the loop of `Decode` over the string and bytes fields. -/
def checkVar (b : List UInt8) (off : Nat) (kind : VarKind) : Except Fault Nat :=
  if (b.length : Int) - off < 4 then .error (.error .length)
  else if off + 4 ≤ b.length then
    let n := leNat ((b.drop off).take 4)
    let off := off + 4
    if n > (((b.length : Int) - off) % 2 ^ 64).toNat then .error (.error .length)
    else if off + n ≤ b.length then
      if kind = .string ∧ utf8Valid ((b.drop off).take n) = false then .error (.error .utf8)
      else .ok (off + n)
    else .error .outside
  else .error .outside

/-- `Decode` -/
def decode (m : Laid) (b : List UInt8) : Except Fault Unit :=
  if b.length < m.fixedSize then .error (.error .short)
  else do
    checkFixed m 0 b
    let off ← (varFields m.fields).foldlM (fun off f => checkVar b off f.2) m.fixedSize
    if off ≠ b.length then .error (.error .trailing) else return ()

/-! ### The JSON value of a typed value -/

/-- A decimal numeral without a sign. -/
def Decimal (cs : List Char) (n : Nat) : Prop :=
  cs ≠ [] ∧ ∃ ds, Spells 10 cs ds ∧ n = Nat.ofDigits 10 ds.reverse

/-- A decimal numeral that may have a sign. -/
inductive Integer : List Char → Int → Prop
  | plain {cs : List Char} {n : Nat} (h : Decimal cs n) : Integer cs n
  | plus {cs : List Char} {n : Nat} (h : Decimal cs n) : Integer ('+' :: cs) n
  | minus {cs : List Char} {n : Nat} (h : Decimal cs n) : Integer ('-' :: cs) (-n)

/-- The text of a number scalar with the bit pattern `n`. -/
def Writes (F : Floats) (k : Scalar) (n : Nat) (text : List UInt8) : Prop :=
  match k with
  | .bool => False
  | .f32 => ∃ f, F.parse text = some f ∧ F.eq (F.widen (F.narrow f)) f = true ∧ (F.narrow f).val = n
  | .f64 => ∃ f, F.parse text = some f ∧ f.val = n
  | .i8 | .i16 | .i32 | .i64 =>
      ∃ z, Integer (chars text) z ∧ -2 ^ (k.size * 8 - 1) ≤ z ∧ z < 2 ^ (k.size * 8 - 1) ∧
        z % 256 ^ k.size = n
  | _ => Decimal (chars text) n

/-- A string for a `u64` or `i64`, and a number for the others. -/
def scalarJson (k : Scalar) (text : List UInt8) : Json :=
  if k = .u64 ∨ k = .i64 then .string text else .number text

def ScalarDenotes (F : Floats) (k : Scalar) (v : Fin k.bound) (j : Json) : Prop :=
  if k = .bool then j = .bool (v.val = 1) else ∃ text, Writes F k v text ∧ j = scalarJson k text

/-- A string stands for itself, and bytes are lower-case hex. -/
def varJson : VarKind → List UInt8 → Json
  | .string, s => .string s
  | .bytes, s => .string (hexEncode s)

mutual

def ElemDenotes (F : Floats) : (e : Elem) → e.Val → Json → Prop
  | .scalar k, v, j => ScalarDenotes F k v j
  | .ref m, v, j => Denotes F m v j

/-- An object with the fields of the message, in any order, and a value for each. -/
def Denotes (F : Floats) : (m : Laid) → m.Val → Json → Prop
  | .mk _ fs _ _, v, j => ∃ obj, j = .object obj ∧ (∀ x ∈ obj, x.1 ∈ names fs) ∧ FieldsDenote F fs v obj

def FieldsDenote (F : Floats) : (fs : Fields) → fs.Val → Entries → Prop
  | .nil, _, _ => True
  | .one name e _ rest, v, obj =>
      (∃ j, obj.lookup name = some j ∧ ElemDenotes F e v.1 j) ∧ FieldsDenote F rest v.2 obj
  | .array name n e _ rest, v, obj =>
      (∃ items, obj.lookup name = some (.array items) ∧ ∃ h : items.length = n,
        ∀ i : Fin n, ElemDenotes F e (v.1 i) (items.get (i.cast h.symm))) ∧ FieldsDenote F rest v.2 obj
  | .var name kind rest, v, obj =>
      obj.lookup name = some (varJson kind v.1) ∧ FieldsDenote F rest v.2 obj

end

/-! ### Scalars -/

variable {b : List UInt8} {F : Floats}

theorem putBits_eq {size p : Nat} (bits : Nat) (h : p + size ≤ b.length) :
    putBits size bits p b = .ok (writes (storesAt p (leBytes size bits)) b) := by
  induction size with
  | zero => rfl
  | succ n ih =>
    have hrec : (List.range n).foldlM
        (fun b i => setByte b (p + i) (UInt8.ofNat (bits >>> (8 * i)))) b = _ := ih (by omega)
    have hbyte : bits >>> (8 * n) = bits / 256 ^ n := by
      rw [Nat.shiftRight_eq_div_pow, Nat.pow_mul]
    rw [putBits, List.range_succ, List.foldlM_append, hrec]
    show setByte _ _ _ >>= pure = _
    rw [bind_pure, setByte, setByte_eq (by rw [length_writes]; omega), leBytes_add, storesAt_append,
      length_leBytes, writes_append, hbyte]
    rfl

theorem parseUint_of_decimal {cs : List Char} {n bits : Nat} (h : Decimal cs n) (hbits : bits ≤ 64)
    (hn : n < 2 ^ bits) : parseUint cs 10 bits = some n := by
  obtain ⟨hne, ds, hds, rfl⟩ := h
  exact (parseUint_eq_some (by omega) hbits).mpr ⟨hne, ds, hds, rfl, hn⟩

theorem not_spells {c : Char} (hc : digitOf c = none) {cs : List Char} {ds : List Nat} :
    ¬ Spells 10 (c :: cs) ds := by
  rintro (_ | ⟨⟨hdigit, -⟩, -⟩)
  rw [hc] at hdigit
  cases hdigit

theorem parseInt_of_integer {cs : List Char} {z : Int} {bits : Nat} (h : Integer cs z)
    (hpos : 0 < bits) (hbits : bits ≤ 64) (hlo : -2 ^ (bits - 1) ≤ z) (hhi : z < 2 ^ (bits - 1)) :
    parseInt cs bits = some z := by
  have hpow : 2 ^ bits = 2 * 2 ^ (bits - 1) := by
    rw [← Nat.pow_succ', Nat.succ_eq_add_one, Nat.sub_add_cancel hpos]
  have hcast : ((2 ^ (bits - 1) : Nat) : Int) = 2 ^ (bits - 1) := by
    push_cast
    rfl
  have hone : 0 < 2 ^ (bits - 1) := Nat.two_pow_pos _
  rw [← hcast] at hlo hhi
  cases h with
  | @plain _ n h =>
    have hn := parseUint_of_decimal h hbits (by omega)
    unfold parseInt
    split
    · obtain ⟨-, ds, hds, -⟩ := h
      exact absurd hds (not_spells (by decide))
    · obtain ⟨-, ds, hds, -⟩ := h
      exact absurd hds (not_spells (by decide))
    · rw [hn, Option.bind_some, if_neg (by omega)]
  | @plus cs n h =>
    rw [parseInt, parseUint_of_decimal h hbits (by omega), Option.bind_some, if_neg (by omega)]
  | @minus cs n h =>
    rw [parseInt, parseUint_of_decimal h hbits (by omega), Option.bind_some, if_neg (by omega)]

theorem Scalar.bits_le (k : Scalar) : 0 < k.size * 8 ∧ k.size * 8 ≤ 64 ∧ 256 ^ k.size ∣ 2 ^ 64 := by
  cases k <;> decide

/-- The text of a scalar gives its bit pattern, or one with the same low bytes. -/
theorem textBits_of_writes {k : Scalar} {n : Nat} {text : List UInt8} (h : Writes F k n text)
    (hn : n < 256 ^ k.size) : ∃ bits, textBits F k text = some bits ∧ bits % 256 ^ k.size = n := by
  obtain ⟨hpos, hbits, hdvd⟩ := Scalar.bits_le k
  have hwidth : 256 ^ k.size = 2 ^ (k.size * 8) := by
    rw [Nat.mul_comm, Nat.pow_mul]
  have hsigned : (∃ z, Integer (chars text) z ∧ -2 ^ (k.size * 8 - 1) ≤ z ∧ z < 2 ^ (k.size * 8 - 1) ∧
      z % 256 ^ k.size = n) → ∃ bits, (parseInt (chars text) (k.size * 8)).map
        (fun n => (n % 2 ^ 64).toNat) = some bits ∧ bits % 256 ^ k.size = n := by
    rintro ⟨z, hz, hlo, hhi, hmod⟩
    refine ⟨(z % 2 ^ 64).toNat, by rw [parseInt_of_integer hz hpos hbits hlo hhi]; rfl, ?_⟩
    have hdvd' : (256 ^ k.size : Int) ∣ 2 ^ 64 := by exact_mod_cast hdvd
    have hnat : (((z % 2 ^ 64).toNat : Nat) : Int) = z % 2 ^ 64 := Int.toNat_of_nonneg (by omega)
    have : (((z % 2 ^ 64).toNat % 256 ^ k.size : Nat) : Int) = n := by
      rw [Int.natCast_mod, hnat, Int.natCast_pow]
      exact (Int.emod_emod_of_dvd z hdvd').trans hmod
    exact_mod_cast this
  have hunsigned : Decimal (chars text) n →
      ∃ bits, parseUint (chars text) 10 (k.size * 8) = some bits ∧ bits % 256 ^ k.size = n :=
    fun h => ⟨n, parseUint_of_decimal h hbits (hwidth ▸ hn), Nat.mod_eq_of_lt hn⟩
  cases k with
  | bool => exact h.elim
  | u8 | u16 | u32 | u64 => exact hunsigned h
  | i8 | i16 | i32 | i64 => exact hsigned h
  | f32 =>
    obtain ⟨f, hf, heq, rfl⟩ := h
    refine ⟨_, ?_, Nat.mod_eq_of_lt hn⟩
    rw [textBits, hf, Option.bind_some, if_pos heq]
  | f64 =>
    obtain ⟨f, hf, rfl⟩ := h
    refine ⟨_, ?_, Nat.mod_eq_of_lt hn⟩
    rw [textBits, hf]
    rfl

theorem scalarText_ok (k : Scalar) (text : List UInt8) : scalarText k (scalarJson k text) = .ok text := by
  unfold scalarJson
  split_ifs with h
  · rw [scalarText, if_pos h]
  · rw [scalarText, if_neg h]

/-- Into a zeroed place, `putScalar` stores the little-endian bytes of the value. -/
theorem putScalar_eq {k : Scalar} {v : Fin k.bound} {j : Json} (h : ScalarDenotes F k v j) (path : String)
    {p : Nat} (hlen : p + k.size ≤ b.length) (hzero : Zero b p k.size) :
    putScalar F k j path p b = .ok (writes (storesAt p (leBytes k.size v)) b) := by
  unfold ScalarDenotes at h
  unfold putScalar
  split_ifs at h ⊢ with hbool
  · subst hbool h
    have hsize : Scalar.size .bool = 1 := rfl
    simp only [decide_eq_true_eq]
    split_ifs with hone
    · rw [setByte, setByte_eq (by omega), hone]
      rfl
    · have hval : v.val = 0 := by
        have : v.val < 2 := v.isLt
        omega
      obtain ⟨hlt, hget⟩ := List.getElem?_eq_some_iff.mp (hzero p le_rfl (Nat.lt_add_one p))
      have hset : writes [(p, 0)] b = b := by
        show b.set p 0 = b
        rw [← hget, List.set_getElem_self]
      rw [hval]
      exact congrArg Except.ok hset.symm
  · obtain ⟨text, hwrites, rfl⟩ := h
    have hv : v.val < 256 ^ k.size := v.isLt.trans_le k.bound_le
    obtain ⟨bits, hbits, hmod⟩ := textBits_of_writes hwrites hv
    have hscalar : scalarBits F k (scalarJson k text) = .ok bits := by
      rw [scalarBits, scalarText_ok]
      show (match textBits F k text with
        | some n => Except.ok n
        | none => Except.error (Complaint.range text k)) = _
      rw [hbits]
    rw [hscalar]
    show putBits k.size bits p b = _
    rw [putBits_eq bits hlen, ← leBytes_mod, hmod]

/-! ### The fixed section -/

theorem checkKeys_ok {message path : String} {fields : List String} {obj : Entries}
    (hall : ∀ name ∈ fields, (obj.lookup name).isSome) (honly : ∀ x ∈ obj, x.1 ∈ fields) :
    checkKeys message fields obj path = .ok () := by
  have hmissing : (fields.find? fun name => (obj.lookup name).isNone) = none := by
    rw [List.find?_eq_none]
    intro name hname
    simpa using hall name hname
  have hunknown : (obj.find? fun x => !fields.contains x.1) = none := by
    rw [List.find?_eq_none]
    intro x hx
    simpa using honly x hx
  rw [checkKeys, hmissing, hunknown]
  simp

theorem FieldsDenote.isSome : {fs : Fields} → {v : fs.Val} → {obj : Entries} →
    FieldsDenote F fs v obj → ∀ name ∈ names fs, (obj.lookup name).isSome
  | .nil, _, _, _, name, hname => absurd hname List.not_mem_nil
  | .one _ _ _ rest, v, obj, ⟨⟨j, hj, _⟩, hrest⟩, name, hname => by
    rcases List.mem_cons.mp hname with rfl | hname
    · rw [hj]
      rfl
    · exact FieldsDenote.isSome hrest name hname
  | .array _ _ _ _ rest, v, obj, ⟨⟨items, hj, _⟩, hrest⟩, name, hname => by
    rcases List.mem_cons.mp hname with rfl | hname
    · rw [hj]
      rfl
    · exact FieldsDenote.isSome hrest name hname
  | .var _ _ rest, v, obj, ⟨hj, hrest⟩, name, hname => by
    rcases List.mem_cons.mp hname with rfl | hname
    · rw [hj]
      rfl
    · exact FieldsDenote.isSome hrest name hname

theorem Denotes.object : {m : Laid} → {v : m.Val} → {j : Json} → Denotes F m v j →
    ∃ obj, j = .object obj
  | .mk _ _ _ _, _, _, ⟨obj, hobj, _⟩ => ⟨obj, hobj⟩

theorem slice_ok {p : Nat} (h : p ≤ b.length) : slice p b = .ok () := sliceFrom_eq h

mutual

theorem put_eq : (e : Elem) → e.Sound → (v : e.Val) → {j : Json} → ElemDenotes F e v j →
    (path : String) → (p : Nat) → (b : List UInt8) → p + e.size ≤ b.length → Zero b p e.size →
    put F e j path p b = .ok (writes (e.plan v p) b)
  | .scalar _, _, _, _, h, path, _, _, hlen, hzero => putScalar_eq h path hlen hzero
  | .ref m, he, v, j, h, path, p, b, hlen, hzero => by
    obtain ⟨obj, rfl⟩ := Denotes.object h
    exact putFixed_eq m he.1 v h path p b hlen hzero

theorem putFixed_eq : (m : Laid) → Sound m → (v : m.Val) → {obj : Entries} →
    Denotes F m v (.object obj) → (path : String) → (p : Nat) → (b : List UInt8) →
    p + m.fixedSize ≤ b.length → Zero b p m.fixedSize →
    putFixed F m obj path p b = .ok (writes (m.plan v p) b)
  | .mk _ fs _ _, hm, v, obj, h, path, p, b, hlen, hzero => by
    obtain ⟨obj', hobj, honly, hfields⟩ := h
    cases hobj
    rw [putFixed, checkKeys_ok hfields.isSome honly]
    exact putFields_eq fs hm.fit v hfields path p b hlen (by simpa using hzero)

theorem putFields_eq : (fs : Fields) → {start n : Nat} → fs.Fit start n → (v : fs.Val) →
    {obj : Entries} → FieldsDenote F fs v obj → (path : String) → (p : Nat) → (b : List UInt8) →
    p + n ≤ b.length → Zero b (p + start) (n - start) →
    putFields F fs obj path p b = .ok (writes (fs.plan v p) b)
  | .nil, _, _, _, _, _, _, _, _, _, _, _ => rfl
  | .one name e off rest, start, n, h, v, obj, ⟨⟨j, hj, hdenotes⟩, hobj⟩, path, p, b, hlen, hzero => by
    obtain ⟨hstart, hend, he, hrest⟩ := h.cons (x := ⟨off, 1, e⟩) rfl
    simp only [Nat.one_mul] at hstart hend hrest
    have hitem : item obj name = j := by rw [item, hj]; rfl
    have hfirst := put_eq e he v.1 hdenotes (path ++ "." ++ name) (p + off) b (by omega)
      (hzero.mono (by omega) (by omega))
    -- the field lies below the rest, which is still zero
    have hafter := putFields_eq rest hrest v.2 hobj path p (writes (e.plan v.1 (p + off)) b)
      (by rw [length_writes]; exact hlen)
      ((hzero.mono (by omega) (by omega)).writes_below (e.plan_within he v.1 (p + off)) (by omega))
    rw [putFields, slice_ok (by omega), hitem, hfirst, Fields.plan, writes_append, ← hafter]
    rfl
  | .array name len e off rest, start, n, h, v, obj, ⟨⟨items, hj, hitems, hdenotes⟩, hobj⟩, path, p, b,
      hlen, hzero => by
    subst hitems
    obtain ⟨hstart, hend, he, hrest⟩ := h.cons (x := ⟨off, items.length, e⟩) rfl
    simp only at hstart hend hrest
    have hitem : item obj name = .array items := by rw [item, hj]; rfl
    have hplan : ∀ i : Fin items.length, Within (p + off + i * e.size) (p + off + i * e.size + e.size)
        (e.plan (v.1 i) (p + off + i * e.size)) := fun i => e.plan_within he (v.1 i) _
    have hput : ∀ (i : Fin items.length) b, p + off + i * e.size + e.size ≤ b.length →
        Zero b (p + off + i * e.size) e.size → (do
          slice (p + off + i * e.size) b
          put F e (items.get i) (path ++ "." ++ name ++ "[" ++ toString i.val ++ "]")
            (p + off + i * e.size) b) = pure (writes (e.plan (v.1 i) (p + off + i * e.size)) b) := by
      intro i b hlen hzero
      rw [slice_ok (by omega)]
      exact put_eq e he (v.1 i) (hdenotes i) _ _ b hlen hzero
    have hloop := foldlM_put hplan hput (List.finRange items.length) (List.pairwise_lt_finRange _) b
      (by omega) (fun i _ => hzero.mono (by omega) (by have := slot_end_le i.isLt e.size; omega))
    have hafter := putFields_eq rest hrest v.2 hobj path p _ (by rw [length_writes]; exact hlen)
      ((hzero.mono (by omega) (by omega)).writes_below (Within.flatMap_finRange hplan) (by omega))
    rw [putFields, slice_ok (by omega), hitem]
    simp only [ne_eq, not_true_eq_false, if_false]
    rw [hloop, Fields.plan, writes_append, ← hafter]
    rfl
  | .var _ _ rest, start, n, h, v, obj, ⟨_, hobj⟩, path, p, b, hlen, hzero => by
    rw [putFields]
    exact putFields_eq rest ⟨h.fits, h.sub, h.ends⟩ v.2 hobj path p b hlen hzero

end

/-! ### String and bytes fields -/

theorem hex_byte (x : UInt8) : (hexValue (hexDigit (x.toNat >>> 4))).bind (fun a =>
    (hexValue (hexDigit (x.toNat &&& 15))).map fun b => UInt8.ofNat (a <<< 4 ||| b)) = some x :=
  forall_byte (p := fun x => (hexValue (hexDigit (x.toNat >>> 4))).bind (fun a =>
    (hexValue (hexDigit (x.toNat &&& 15))).map fun b => UInt8.ofNat (a <<< 4 ||| b)) = some x)
    (by decide +kernel) x

theorem hexDecode_hexEncode (raw : List UInt8) : hexDecode (hexEncode raw) = some raw := by
  induction raw with
  | nil => rfl
  | cons x raw ih =>
    obtain ⟨a, ha, hb⟩ := Option.bind_eq_some_iff.mp (hex_byte x)
    obtain ⟨b, hb, hx⟩ := Option.map_eq_some_iff.mp hb
    have hsplit : hexEncode (x :: raw) =
        hexDigit (x.toNat >>> 4) :: hexDigit (x.toNat &&& 15) :: hexEncode raw := rfl
    rw [hsplit, hexDecode, ha, hb, ih]
    exact congrArg (fun y => some (y :: raw)) hx

theorem varBytes_eq {kind : VarKind} {s : List UInt8} (h : kind = .string → utf8Valid s = true)
    (path : String) : varBytes kind (varJson kind s) path = .ok s := by
  cases kind with
  | string => rw [varJson, varBytes, if_pos (h rfl)]
  | bytes =>
    rw [varJson, varBytes, hexDecode_hexEncode]
    exact if_pos rfl

/-- The loop over the string and bytes fields. -/
theorem appendVars_eq (message : String) : (fs : Fields) → (v : fs.Val) → {obj : Entries} →
    FieldsDenote F fs v obj →
    (∀ x ∈ fs.vars v, x.2.length < 2 ^ 32 ∧ (x.1 = .string → utf8Valid x.2 = true)) →
    (b : List UInt8) →
    (varFields fs).foldlM (appendVar message obj) b = .ok (b ++ Schema.varBytes (fs.vars v))
  | .nil, _, _, _, _, b => congrArg Except.ok (List.append_nil b).symm
  | .one _ _ _ rest, v, _, ⟨_, hobj⟩, henc, b => appendVars_eq message rest v.2 hobj henc b
  | .array _ _ _ _ rest, v, _, ⟨_, hobj⟩, henc, b => appendVars_eq message rest v.2 hobj henc b
  | .var name kind rest, v, obj, ⟨hj, hobj⟩, henc, b => by
    obtain ⟨hlen, hutf8⟩ := henc (kind, v.1) List.mem_cons_self
    have hitem : item obj name = varJson kind v.1 := by rw [item, hj]; rfl
    have hhead : appendVar message obj b (name, kind) = .ok (b ++ leBytes 4 v.1.length ++ v.1) := by
      rw [appendVar, hitem, varBytes_eq hutf8]
      show Except.ok _ = _
      rw [Nat.mod_eq_of_lt hlen]
    have hrest := appendVars_eq message rest v.2 hobj (fun x hx => henc x (List.mem_cons_of_mem _ hx))
      (b ++ leBytes 4 v.1.length ++ v.1)
    rw [varFields, List.foldlM_cons, hhead]
    refine hrest.trans (congrArg Except.ok ?_)
    simp [Schema.varBytes, Fields.vars]

/-- **Encoding**: `Encode` of a JSON value is the encoding of the value that it denotes. -/
theorem encode_eq {m : Laid} (hm : Sound m) {v : m.Val} (hv : m.Encodable v) {j : Json}
    (h : Denotes F m v j) : encode F m j = .ok (m.encode v) := by
  obtain ⟨obj, rfl⟩ := Denotes.object h
  have hfixed := putFixed_eq m hm v h m.name 0 (List.replicate m.fixedSize 0)
    (by rw [List.length_replicate]; omega) (by simpa using zero_replicate m.fixedSize [])
  obtain ⟨name, fs, size, align⟩ := m
  obtain ⟨obj', hobj, -, hfields⟩ := h
  cases hobj
  rw [encode, hfixed]
  exact appendVars_eq name fs v hfields hv _

/-! ### Decoding -/

theorem sliceIn_ok {p : Nat} (h : p ≤ b.length) : sliceIn p b = .ok () := sliceFrom_eq h

/-- A loop that only checks fails where one that collects values does. -/
theorem forM_eq_collect {ε α : Type} {n : Nat} {f : Fin n → Except ε α} {g : Fin n → Except ε Unit}
    (h : ∀ i, g i = (f i).map fun _ => ()) :
    forM (List.finRange n) g = (collect n f).map fun _ => () := by
  induction n with
  | zero => rfl
  | succ n ih =>
    have hrest := ih (f := fun i => f i.succ) (g := fun i => g i.succ) fun i => h i.succ
    rw [List.finRange_succ, List.forM_cons, collect, h 0]
    cases f 0 with
    | error e => rfl
    | ok x =>
      show forM (List.map Fin.succ (List.finRange n)) g = _
      rw [List.forM_map, hrest]
      show _ = Except.map _ (Except.bind (collect n fun i => f i.succ) _)
      cases collect n (fun i => f i.succ) <;> rfl

theorem map_unit_bind {ε α β : Type} (x : Except ε α) (y : Except ε β) :
    (x.map (fun _ => ()) >>= fun _ => y.map fun _ => ()) =
      (x >>= fun a => y >>= fun b => pure (a, b)).map fun _ => () := by
  cases x with
  | error e => rfl
  | ok a => cases y <;> rfl

mutual

/-- The check of a fixed section reads it and forgets the value. -/
theorem checkType_eq : (e : Elem) → e.Sound → (p : Nat) → (b : List UInt8) → p + e.size ≤ b.length →
    checkType e p b = (e.getWith plainReader p b).map fun _ => ()
  | .scalar k, _, p, b, hlen => by
    show _ = (loadBits k p b).map _
    by_cases hk : k = .bool
    · subst hk
      have hp : p < b.length := hlen
      rw [checkType, loadBits_bool hp, List.getElem?_eq_getElem hp]
      simp only
      split_ifs <;> rfl
    · obtain ⟨v, hv⟩ := loadBits_of_ne_bool hk hlen
      rw [hv, checkType]
      · rfl
      · exact fun h => hk h
  | .ref m, he, p, b, hlen => by
    rw [checkType, checkFixed_eq m he.1 p b hlen]
    rfl

theorem checkFixed_eq : (m : Laid) → Sound m → (p : Nat) → (b : List UInt8) →
    p + m.fixedSize ≤ b.length → checkFixed m p b = (m.getWith plainReader p b).map fun _ => ()
  | .mk _ fs _ _, hm, p, b, hlen => by
    rw [checkFixed, checkFields_eq fs hm.fit p b hlen]
    rfl

theorem checkFields_eq : (fs : Fields) → {start n : Nat} → fs.Fit start n → (p : Nat) →
    (b : List UInt8) → p + n ≤ b.length →
    checkFields fs p b = (fs.getWith plainReader p b).map fun _ => ()
  | .nil, _, _, _, _, _, _ => rfl
  | .one _ e off rest, start, n, h, p, b, hlen => by
    obtain ⟨hstart, hend, he, hrest⟩ := h.cons (x := ⟨off, 1, e⟩) rfl
    simp only [Nat.one_mul] at hend
    rw [checkFields, sliceIn_ok (by omega), checkType_eq e he (p + off) b (by omega),
      checkFields_eq rest hrest p b hlen, Fields.getWith]
    exact map_unit_bind _ _
  | .array _ len e off rest, start, n, h, p, b, hlen => by
    obtain ⟨hstart, hend, he, hrest⟩ := h.cons (x := ⟨off, len, e⟩) rfl
    simp only at hend
    have hloop : ∀ i : Fin len, (do
        sliceIn (p + off + i * e.size) b
        checkType e (p + off + i * e.size) b) =
        (e.getWith plainReader (p + off + i * e.size) b).map fun _ => () := by
      intro i
      have hlast := slot_end_le i.isLt e.size
      rw [sliceIn_ok (by omega), ← checkType_eq e he _ b (by omega)]
      rfl
    rw [checkFields, sliceIn_ok (by omega), forM_eq_collect hloop, checkFields_eq rest hrest p b hlen,
      Fields.getWith]
    exact map_unit_bind _ _
  | .var _ _ rest, start, n, h, p, b, hlen => by
    rw [checkFields, checkFields_eq rest ⟨h.fits, h.sub, h.ends⟩ p b hlen, Fields.getWith]
    cases rest.getWith plainReader p b <;> rfl

end

theorem checkVar_eq (hb : b.length < 2 ^ 64) {off : Nat} (hoff : off ≤ b.length) (kind : VarKind) :
    checkVar b off kind = Schema.getVar b off >>= fun x =>
      if kind = .string ∧ utf8Valid x.1 = false then .error (.error .utf8) else .ok x.2 := by
  unfold checkVar Schema.getVar
  by_cases h4 : b.length - off < 4
  · rw [if_pos (by omega), if_pos h4]
    rfl
  · have hleft : (((b.length : Int) - ((off + 4 : Nat) : Int)) % 2 ^ 64).toNat =
        b.length - (off + 4) := by omega
    rw [if_neg (by omega), if_pos (by omega), if_neg h4]
    simp only [hleft]
    by_cases hn : b.length - (off + 4) < leNat ((b.drop off).take 4)
    · rw [if_pos hn, if_pos hn]
      rfl
    · rw [if_neg hn, if_neg hn, if_pos (by omega)]
      rfl

/-- The loop over the string and bytes fields. -/
theorem checkVars_eq (hb : b.length < 2 ^ 64) : (fs : Fields) → (v : fs.Val) →
    {off : Nat} → off ≤ b.length →
    (varFields fs).foldlM (fun off f => checkVar b off f.2) off =
      (fs.getVarsWith Schema.getVar utf8Valid v b off).map fun x => x.2
  | .nil, _, _, _ => rfl
  | .one _ _ _ rest, v, off, hoff => by
    rw [varFields, checkVars_eq hb rest v.2 hoff, Fields.getVarsWith]
    cases rest.getVarsWith Schema.getVar utf8Valid v.2 b off <;> rfl
  | .array _ _ _ _ rest, v, off, hoff => by
    rw [varFields, checkVars_eq hb rest v.2 hoff, Fields.getVarsWith]
    cases rest.getVarsWith Schema.getVar utf8Valid v.2 b off <;> rfl
  | .var _ kind rest, v, off, hoff => by
    rw [varFields, List.foldlM_cons, checkVar_eq hb hoff, Fields.getVarsWith]
    cases hraw : Schema.getVar b off with
    | error f => rfl
    | ok x =>
      obtain ⟨raw, off1⟩ := x
      have hrest := checkVars_eq hb rest v.2 (getVar_ok hraw).2.1
      by_cases hutf8 : kind = .string ∧ utf8Valid raw = false
      · show (if _ then _ else _) >>= _ = Except.map _ (if _ then _ else _)
        rw [if_pos hutf8, if_pos hutf8]
        rfl
      · show (if _ then _ else _) >>= _ = Except.map _ (if _ then _ else _)
        rw [if_neg hutf8, if_neg hutf8]
        refine hrest.trans ?_
        cases rest.getVarsWith Schema.getVar utf8Valid v.2 b off1 <;> rfl

/-- **Decoding**: `Decode` accepts what `Laid.decode` does, and fails with its errors. -/
theorem decode_eq {m : Laid} (hm : Sound m) (hb : b.length < 2 ^ 64) :
    decode m b = (m.decode b).map fun _ => () := by
  unfold decode Laid.decode
  by_cases hshort : b.length < m.fixedSize
  · rw [if_pos hshort, if_pos hshort]
    rfl
  · rw [if_neg hshort, if_neg hshort, checkFixed_eq m hm 0 b (by omega)]
    cases m.getWith plainReader 0 b with
    | error f => rfl
    | ok u =>
      have hvars : (varFields m.fields).foldlM (fun off f => checkVar b off f.2) m.fixedSize =
          (m.getVarsWith Schema.getVar utf8Valid u b m.fixedSize).map fun x => x.2 := by
        obtain ⟨name, fs, size, align⟩ := m
        exact checkVars_eq hb fs u (by omega)
      show (varFields m.fields).foldlM _ m.fixedSize >>= _ =
        Except.map _ (m.getVarsWith Schema.getVar utf8Valid u b m.fixedSize >>= _)
      rw [hvars]
      cases m.getVarsWith Schema.getVar utf8Valid u b m.fixedSize with
      | error f => rfl
      | ok x =>
        show (if x.2 ≠ b.length then _ else _) = Except.map _ (if x.2 ≠ b.length then _ else _)
        split_ifs <;> rfl

end GoIpc.Codec.Ref
