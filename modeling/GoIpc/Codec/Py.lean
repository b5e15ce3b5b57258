import GoIpc.Codec.Cpp

namespace GoIpc.Codec.Py

open GoIpc.Lib GoIpc.Schema
open GoIpc.Codec.Go (Slice notes note noteVal)

/-!
# Generated Python code

What the generated methods of a message do.  A field holds an object of the type its annotation says, and
nothing more is sure about it: an `int` has any size, a list any length, and a `str` may have surrogates.
The classes of the messages are names of the module, and a class may hide a built-in exception that the
code means to catch; `N` is the list of these names.

* `MessageObj` — the objects of a message's class;
* `put`, `get` — `_put` and `_get` over a `bytearray` and a `memoryview`, with the calls of the module
  `struct`; an exception is a value of `Exc`;
* `value`, `object` — the wire value an object stands for, if any, and the object `decode` makes of one;
* `py_encodes_as_go` — `encode` raises `ValueError` exactly for objects without an encoding, and otherwise
  returns what Go writes for their value;
* `py_decodes_as_go` — `decode` raises `ValueError` exactly where `UnmarshalBinary` fails, and otherwise
  returns the object of its value;
* `py_relays` — a decoded object encodes to a message that decodes to the same value everywhere.
-/

/-! ### Objects -/

/-- The exceptions of the generated code: `ValueError` with its subclasses, `struct.error` or
    `OverflowError`, `IndexError`, and `TypeError`. -/
inductive Exc
  | value
  | packing
  | index
  | type
deriving DecidableEq

/-- What `struct` does about floating-point numbers: a Python `float` is the bits of a double, `narrow`
    packs it into four bytes unless it is too large, and `widen` unpacks. -/
structure Floats where
  narrow : Fin (256 ^ 8) → Option (Fin (256 ^ 4))
  widen : Fin (256 ^ 4) → Fin (256 ^ 8)

/-- A `str` is a list of these, surrogates included. -/
abbrev CodePoint := Fin 0x110000

/-- What a field of a scalar kind holds; an `int` of any size for every integer kind. -/
def ScalarObj : Scalar → Type
  | .bool => Bool
  | .f32 | .f64 => Fin (256 ^ 8)
  | _ => Int

/-- `str` or `bytes` -/
def VarObj : VarKind → Type
  | .string => List CodePoint
  | .bytes => List UInt8

mutual

def ElemObj : Elem → Type
  | .scalar k => ScalarObj k
  | .ref m => MessageObj m

/-- An object of the class of a message. -/
def MessageObj : Laid → Type
  | .mk _ fs _ _ => FieldsObj fs

def FieldsObj : Fields → Type
  | .nil => Unit
  | .one _ e _ rest => ElemObj e × FieldsObj rest
  | .array _ _ e _ rest => List (ElemObj e) × FieldsObj rest
  | .var _ kind rest => VarObj kind × FieldsObj rest

end

/-! ### The standard library -/

/-- An integer in `n` bytes, which must fit. -/
def packUnsigned (n : Nat) (v : Int) : Except Exc (List UInt8) :=
  if 0 ≤ v ∧ v < 256 ^ n then .ok (leBytes n v.toNat) else .error .packing

/-- The same in two's complement. -/
def packSigned (n : Nat) (v : Int) : Except Exc (List UInt8) :=
  if -(256 ^ n / 2) ≤ v ∧ v < 256 ^ n / 2 then .ok (leBytes n (v % 256 ^ n).toNat)
  else .error .packing

/-- `1 if v else 0` -/
def bit (v : Bool) : UInt8 := if v then 1 else 0

/-- One item of `struct.pack`; a bool is packed as the byte 1 or 0. -/
def pack (F : Floats) : (k : Scalar) → ScalarObj k → Except Exc (List UInt8)
  | .bool, v => .ok [bit v]
  | .u8, v => packUnsigned 1 v
  | .i8, v => packSigned 1 v
  | .u16, v => packUnsigned 2 v
  | .i16, v => packSigned 2 v
  | .u32, v => packUnsigned 4 v
  | .i32, v => packSigned 4 v
  | .u64, v => packUnsigned 8 v
  | .i64, v => packSigned 8 v
  | .f32, v =>
      match F.narrow v with
      | some x => .ok (leBytes 4 x)
      | none => .error .packing
  | .f64, v => .ok (leBytes 8 (Fin.val (n := 256 ^ 8) v))

/-- `struct.pack_into` of items of one kind, which looks at the room first. -/
def packInto (F : Floats) (k : Scalar) (items : List (ScalarObj k)) (p : Nat) (b : List UInt8) :
    Except Exc (List UInt8) :=
  if p + items.length * k.size ≤ b.length then
    items.zipIdx.foldlM (fun b x => do
      let bytes ← pack F k x.1
      return writes (storesAt (p + x.2 * k.size) bytes) b) b
  else .error .packing

/-- The integer whose two's complement in `n` bytes is `x`. -/
def unpackSigned (n x : Nat) : Int := if 2 * x < 256 ^ n then x else x - 256 ^ n

/-- One item of `struct.unpack`. -/
def unpack (F : Floats) : (k : Scalar) → List UInt8 → ScalarObj k
  | .bool, bs => leNat bs == 1
  | .u8, bs | .u16, bs | .u32, bs | .u64, bs => (leNat bs : Int)
  | .i8, bs => unpackSigned 1 (leNat bs)
  | .i16, bs => unpackSigned 2 (leNat bs)
  | .i32, bs => unpackSigned 4 (leNat bs)
  | .i64, bs => unpackSigned 8 (leNat bs)
  | .f32, bs => F.widen (C.cast 4 (leNat bs))
  | .f64, bs => C.cast 8 (leNat bs)

/-- `struct.unpack_from` of `n` items of one kind. -/
def unpackFrom (F : Floats) (k : Scalar) (n p : Nat) (b : List UInt8) :
    Except Exc (List (ScalarObj k)) :=
  if p + n * k.size ≤ b.length then
    .ok ((List.range n).map fun i => unpack F k ((b.drop (p + i * k.size)).take k.size))
  else .error .packing

/-- `str.encode("utf-8")`: there is no encoding of a surrogate. -/
def encodeStr (cs : List CodePoint) : Option (List UInt8) :=
  cs.foldrM (fun c raw =>
    if h : c.val.isValidChar then some (String.utf8EncodeChar (Char.ofNatAux c.val h) ++ raw)
    else none) []

/-- `bytes.decode("utf-8")` -/
def decodeStr : List UInt8 → Option (List CodePoint)
  | [] => some []
  | a :: bs =>
      match _h : charAt (a :: bs) with
      | some (r, w) => (decodeStr ((a :: bs).drop w)).map (Fin.ofNat 0x110000 r :: ·)
      | none => none
termination_by bs => bs.length
decreasing_by exact drop_charAt_lt _h

/-- `UnicodeEncodeError` is a subclass of `ValueError`. -/
def orRaise {α : Type} : Option α → Except Exc α
  | some x => .ok x
  | none => .error .value

/-! ### The generated code -/

/-- `_arr` -/
def arr {α : Type} (v : List α) (n : Nat) : Except Exc (List α) :=
  if v.length ≠ n then .error .value else .ok v

/-- `_bool` -/
def toBool (b : UInt8) : Except Exc Bool := if b > 1 then .error .value else .ok (b == 1)

/-- What `put` writes for a scalar field. -/
def putScalar (F : Floats) : (k : Scalar) → ScalarObj k → Nat → List UInt8 → Except Exc (List UInt8)
  | .bool, v, p, b => if p < b.length then .ok (b.set p (bit v)) else .error .index
  | k, v, p, b => packInto F k [v] p b

mutual

def putElem (F : Floats) : (e : Elem) → ElemObj e → Nat → List UInt8 → Except Exc (List UInt8)
  | .scalar k, v, p, b => putScalar F k v p b
  | .ref m, v, p, b => put F m v p b

/-- What `put` writes for the items of an array. -/
def putItems (F : Floats) : (e : Elem) → List (ElemObj e) → Nat → List UInt8 → Except Exc (List UInt8)
  | .scalar k, vs, p, b => packInto F k vs p b
  | .ref m, vs, p, b => vs.zipIdx.foldlM (fun b x => put F m x.1 (p + x.2 * m.fixedSize) b) b

/-- `_put` -/
def put (F : Floats) : (m : Laid) → MessageObj m → Nat → List UInt8 → Except Exc (List UInt8)
  | .mk _ fs _ _, o, p, b => putFields F fs o p b

/-- The body of `_put`: one statement a field, and `_arr` in front of every array. -/
def putFields (F : Floats) : (fs : Fields) → FieldsObj fs → Nat → List UInt8 →
    Except Exc (List UInt8)
  | .nil, _, _, b => .ok b
  | .one _ e off rest, o, p, b => do
      let b ← putElem F e o.1 (p + off) b
      putFields F rest o.2 p b
  | .array _ n e off rest, o, p, b => do
      let vs ← arr o.1 n
      let b ← putItems F e vs (p + off) b
      putFields F rest o.2 p b
  | .var _ _ rest, o, p, b => putFields F rest o.2 p b

end

/-- The argument of `_put_var` for a string or bytes field. -/
def rawOf : (kind : VarKind) → VarObj kind → Except Exc (List UInt8)
  | .string, o => orRaise (encodeStr o)
  | .bytes, o => .ok o

/-- `_put_var` -/
def putVar (out raw : List UInt8) : Except Exc (List UInt8) :=
  if raw.length > 0xFFFFFFFF then .error .value
  else .ok (out ++ leBytes 4 raw.length ++ raw)

/-- The calls of `_put_var` in `encode`. -/
def putVars : (fs : Fields) → FieldsObj fs → List UInt8 → Except Exc (List UInt8)
  | .nil, _, out => .ok out
  | .one _ _ _ rest, o, out => putVars rest o.2 out
  | .array _ _ _ _ rest, o, out => putVars rest o.2 out
  | .var _ kind rest, o, out => do
      let raw ← rawOf kind o.1
      let out ← putVar out raw
      putVars rest o.2 out

/-- `except (_st.error, OverflowError)`: what is caught becomes a `ValueError`.  If `OverflowError` is
    the class of a message, it is no exception class, and the attempt to match anything is an error. -/
def excepting {α : Type} (N : List String) : Except Exc α → Except Exc α
  | .ok x => .ok x
  | .error e =>
      .error (if "OverflowError" ∈ N then .type else if e = .packing then .value else e)

/-- `encode` -/
def encode (N : List String) (F : Floats) : (m : Laid) → MessageObj m → Except Exc (List UInt8)
  | .mk name fs n a, o => do
      let buf ← excepting N (put F (.mk name fs n a) o 0 (List.replicate n 0))
      putVars fs o buf

/-- `get` of a scalar field -/
def getScalar (F : Floats) : (k : Scalar) → Nat → List UInt8 → Except Exc (ScalarObj k)
  | .bool, p, b =>
      match b[p]? with
      | some x => toBool x
      | none => .error .index
  | k, p, b => do
      let items ← unpackFrom F k 1 p b
      match items with
      | v :: _ => return v
      | [] => .error .index

/-- `get` of an array of scalars -/
def getScalars (F : Floats) : (k : Scalar) → Nat → Nat → List UInt8 → Except Exc (List (ScalarObj k))
  | .bool, n, p, b => ((b.drop p).take n).mapM toBool
  | k, n, p, b => unpackFrom F k n p b

/-- `""` or `b""` -/
def default : (kind : VarKind) → VarObj kind
  | .string => ([] : List CodePoint)
  | .bytes => ([] : List UInt8)

mutual

def getElem (F : Floats) : (e : Elem) → Nat → List UInt8 → Except Exc (ElemObj e)
  | .scalar k, p, b => getScalar F k p b
  | .ref m, p, b => get F m p b

/-- `get` of an array field -/
def getItems (F : Floats) : (e : Elem) → Nat → Nat → List UInt8 → Except Exc (List (ElemObj e))
  | .scalar k, n, p, b => getScalars F k n p b
  | .ref m, n, p, b => (List.range n).mapM fun i => get F m (p + i * m.fixedSize) b

/-- `_get` -/
def get (F : Floats) : (m : Laid) → Nat → List UInt8 → Except Exc (MessageObj m)
  | .mk _ fs _ _, p, b => getFields F fs p b

/-- The arguments of the constructor; string and bytes fields have their default. -/
def getFields (F : Floats) : (fs : Fields) → Nat → List UInt8 → Except Exc (FieldsObj fs)
  | .nil, _, _ => .ok ()
  | .one _ e off rest, p, b => do
      let x ← getElem F e (p + off) b
      let xs ← getFields F rest p b
      return (x, xs)
  | .array _ n e off rest, p, b => do
      let x ← getItems F e n (p + off) b
      let xs ← getFields F rest p b
      return (x, xs)
  | .var _ kind rest, p, b => do
      let xs ← getFields F rest p b
      return (default kind, xs)

end

/-- `_get_var` -/
def getVar (b : List UInt8) (off : Nat) : Except Exc (List UInt8 × Nat) :=
  if (b.length : Int) - off < 4 then .error .value
  else
    let n := leNat ((b.drop off).take 4)
    let off := off + 4
    if (n : Int) > (b.length : Int) - off then .error .value
    else .ok ((b.drop off).take n, off + n)

/-- `_str`, with `except UnicodeDecodeError` -/
def str (N : List String) (raw : List UInt8) : Except Exc (List CodePoint) :=
  match decodeStr raw with
  | some cs => .ok cs
  | none => .error (if "UnicodeDecodeError" ∈ N then .type else .value)

/-- The assignment to a string or bytes field: `_str(raw)` or `raw`. -/
def assigned (N : List String) : (kind : VarKind) → List UInt8 → Except Exc (VarObj kind)
  | .string, raw => str N raw
  | .bytes, raw => .ok raw

/-- The calls of `_get_var` in `decode`, with the assignments. -/
def getVars (N : List String) : (fs : Fields) → FieldsObj fs → List UInt8 → Nat → Except Exc (FieldsObj fs × Nat)
  | .nil, o, _, off => .ok (o, off)
  | .one _ _ _ rest, o, b, off => do
      let r ← getVars N rest o.2 b off
      return ((o.1, r.1), r.2)
  | .array _ _ _ _ rest, o, b, off => do
      let r ← getVars N rest o.2 b off
      return ((o.1, r.1), r.2)
  | .var _ kind rest, o, b, off => do
      let x ← getVar b off
      let s ← assigned N kind x.1
      let r ← getVars N rest o.2 b x.2
      return ((s, r.1), r.2)

/-- `decode` -/
def decode (N : List String) (F : Floats) : (m : Laid) → List UInt8 → Except Exc (MessageObj m)
  | .mk name fs n a, b =>
      if b.length < n then .error .value
      else do
        let o ← get F (.mk name fs n a) 0 b
        let r ← getVars N fs o b n
        if r.2 ≠ b.length then .error .value else return r.1

/-! ### What an object stands for -/

/-- Why an object stands for no value: a list of the wrong length or a surrogate, or a number out of
    the range of its kind. -/
inductive Flaw
  | form
  | range

/-- What is raised for it, before `except` sees it. -/
def Flaw.exc : Flaw → Exc
  | .form => .value
  | .range => .packing

def orFlaw {α : Type} (f : Flaw) : Option α → Except Flaw α
  | some x => .ok x
  | none => .error f

variable {n : Nat}

theorem toNat_lt_pow {v : Int} (h : 0 ≤ v ∧ v < 256 ^ n) : v.toNat < 256 ^ n := by
  rw [Int.toNat_lt h.1]
  exact_mod_cast h.2

theorem emod_toNat_lt_pow (n : Nat) (v : Int) : (v % 256 ^ n).toNat < 256 ^ n := by
  have hpos : (0 : Int) < 256 ^ n := by positivity
  exact toNat_lt_pow ⟨Int.emod_nonneg _ hpos.ne', Int.emod_lt_of_pos _ hpos⟩

def unsignedBits (n : Nat) (v : Int) : Except Flaw (Fin (256 ^ n)) :=
  if h : 0 ≤ v ∧ v < 256 ^ n then .ok ⟨v.toNat, toNat_lt_pow h⟩ else .error .range

/-- Two's complement. -/
def signedBits (n : Nat) (v : Int) : Except Flaw (Fin (256 ^ n)) :=
  if -(256 ^ n / 2) ≤ v ∧ v < 256 ^ n / 2 then .ok ⟨(v % 256 ^ n).toNat, emod_toNat_lt_pow n v⟩
  else .error .range

/-- The bit pattern of a scalar. -/
def bits (F : Floats) : (k : Scalar) → ScalarObj k → Except Flaw (Fin k.bound)
  | .bool, v => .ok (match v with
      | true => ⟨1, Nat.one_lt_two⟩
      | false => ⟨0, Nat.zero_lt_two⟩)
  | .u8, v => unsignedBits 1 v
  | .i8, v => signedBits 1 v
  | .u16, v => unsignedBits 2 v
  | .i16, v => signedBits 2 v
  | .u32, v => unsignedBits 4 v
  | .i32, v => signedBits 4 v
  | .u64, v => unsignedBits 8 v
  | .i64, v => signedBits 8 v
  | .f32, v => orFlaw .range (F.narrow v)
  | .f64, v => .ok v

/-- The bytes a string or bytes object stands for. -/
def text : (kind : VarKind) → VarObj kind → Except Flaw (List UInt8)
  | .string, o => orFlaw .form (encodeStr o)
  | .bytes, o => .ok o

/-- The values of the items of a list that should have `n`. -/
def tuple {α β : Type} (n : Nat) (meaning : α → Except Flaw β) (items : List α) :
    Except Flaw (Fin n → β) :=
  if h : items.length = n then collect n (fun i => meaning (items.get (i.cast h.symm)))
  else .error .form

mutual

def elemValue (F : Floats) : (e : Elem) → ElemObj e → Except Flaw e.Val
  | .scalar k, o => bits F k o
  | .ref m, o => value F m o

/-- The wire value an object stands for. -/
def value (F : Floats) : (m : Laid) → MessageObj m → Except Flaw m.Val
  | .mk _ fs _ _, o => fieldsValue F fs o

def fieldsValue (F : Floats) : (fs : Fields) → FieldsObj fs → Except Flaw fs.Val
  | .nil, _ => .ok ()
  | .one _ e _ rest, o => do
      let x ← elemValue F e o.1
      let xs ← fieldsValue F rest o.2
      return (x, xs)
  | .array _ n e _ rest, o => do
      let x ← tuple n (elemValue F e) o.1
      let xs ← fieldsValue F rest o.2
      return (x, xs)
  | .var _ kind rest, o => do
      let raw ← text kind o.1
      let xs ← fieldsValue F rest o.2
      return (raw, xs)

end

/-- The scalar of a bit pattern. -/
def unbits (F : Floats) : (k : Scalar) → Fin k.bound → ScalarObj k
  | .bool, v => Fin.val (n := 2) v == 1
  | .u8, v => (Fin.val (n := 256 ^ 1) v : Int)
  | .u16, v => (Fin.val (n := 256 ^ 2) v : Int)
  | .u32, v => (Fin.val (n := 256 ^ 4) v : Int)
  | .u64, v => (Fin.val (n := 256 ^ 8) v : Int)
  | .i8, v => unpackSigned 1 (Fin.val (n := 256 ^ 1) v)
  | .i16, v => unpackSigned 2 (Fin.val (n := 256 ^ 2) v)
  | .i32, v => unpackSigned 4 (Fin.val (n := 256 ^ 4) v)
  | .i64, v => unpackSigned 8 (Fin.val (n := 256 ^ 8) v)
  | .f32, v => F.widen v
  | .f64, v => v

/-- The object of a string or bytes field. -/
def untext : (kind : VarKind) → List UInt8 → VarObj kind
  | .string, raw => (decodeStr raw).getD []
  | .bytes, raw => raw

mutual

def elemObject (F : Floats) : (e : Elem) → e.Val → ElemObj e
  | .scalar k, v => unbits F k v
  | .ref m, v => object F m v

/-- The object of a wire value. -/
def object (F : Floats) : (m : Laid) → m.Val → MessageObj m
  | .mk _ fs _ _, v => fieldsObject F fs v

def fieldsObject (F : Floats) : (fs : Fields) → fs.Val → FieldsObj fs
  | .nil, _ => ()
  | .one _ e _ rest, v => (elemObject F e v.1, fieldsObject F rest v.2)
  | .array _ _ e _ rest, v => (List.ofFn fun i => elemObject F e (v.1 i), fieldsObject F rest v.2)
  | .var _ kind rest, v => (untext kind v.1, fieldsObject F rest v.2)

end

/-! ### One field after another -/

section Pairs

variable {ε α β : Type} {x : Except ε α} {y : Except ε β}

/-- Two parts have a value if each of them has. -/
theorem pair_eq_ok {v : α × β} : (do
    let a ← x
    let b ← y
    return (a, b)) = Except.ok v ↔ x = .ok v.1 ∧ y = .ok v.2 := by
  cases x <;> cases y <;> simp [bind, Except.bind, pure, Except.pure, Prod.ext_iff]

theorem pair_fails : (∃ e, (do
    let a ← x
    let b ← y
    return (a, b)) = Except.error e) ↔ (∃ e, x = .error e) ∨ ∃ e, y = .error e := by
  cases x <;> cases y <;> simp [bind, Except.bind, pure, Except.pure]

/-- The buffer with the stores for a value, or what is raised if there is none. -/
def stored (x : Except Flaw α) (plan : α → List Store) (b : List UInt8) : Except Exc (List UInt8) :=
  (x.map fun v => writes (plan v) b).mapError Flaw.exc

/-- Stores for one part of a value, then what comes next for the other. -/
theorem store_pair {x : Except Flaw α} {y : Except Flaw β} {b : List UInt8}
    {next : List UInt8 → Except Exc (List UInt8)} {p : α → List Store} {q : β → List Store}
    (hnext : ∀ b', b'.length = b.length → next b' = stored y q b') :
    (stored x p b >>= next) = stored (do
      let a ← x
      let c ← y
      return (a, c)) (fun v : α × β => p v.1 ++ q v.2) b := by
  cases x with
  | error f => rfl
  | ok a =>
    show next (writes (p a) b) = _
    rw [hnext _ (length_writes _ _)]
    cases y with
    | error f => rfl
    | ok c => exact congrArg Except.ok (writes_append _ _ _).symm

end Pairs

/-! ### Putting -/

variable {F : Floats}

theorem packUnsigned_eq (n : Nat) (v : Int) : packUnsigned n v =
    ((unsignedBits n v).map fun x : Fin (256 ^ n) => leBytes n x.val).mapError Flaw.exc := by
  unfold packUnsigned unsignedBits
  split_ifs <;> rfl

theorem packSigned_eq (n : Nat) (v : Int) : packSigned n v =
    ((signedBits n v).map fun x : Fin (256 ^ n) => leBytes n x.val).mapError Flaw.exc := by
  unfold packSigned signedBits
  split_ifs <;> rfl

/-- An item is packed as its bits. -/
theorem pack_eq (k : Scalar) (v : ScalarObj k) : pack F k v =
    ((bits F k v).map fun x : Fin k.bound => leBytes k.size x.val).mapError Flaw.exc := by
  cases k with
  | bool => cases v <;> rfl
  | u8 | u16 | u32 | u64 => exact packUnsigned_eq _ v
  | i8 | i16 | i32 | i64 => exact packSigned_eq _ v
  | f32 =>
    simp only [pack, bits]
    cases F.narrow v <;> rfl
  | f64 => rfl

/-- A loop over the items of a list that stores the value of each in its place. -/
theorem foldlM_items {α β : Type} (step : α → Nat → List UInt8 → Except Exc (List UInt8))
    (meaning : α → Except Flaw β) (plan : β → Nat → List Store) (base size : Nat) (items : List α)
    (j : Nat) (b : List UInt8)
    (hstep : ∀ x ∈ items, ∀ i b', i < j + items.length → b'.length = b.length →
      step x (base + i * size) b' = stored (meaning x) (plan · (base + i * size)) b') :
    (items.zipIdx j).foldlM (fun b x => step x.1 (base + x.2 * size) b) b =
      stored (collect items.length fun i => meaning (items.get i)) (fun v =>
        (List.finRange items.length).flatMap fun i => plan (v i) (base + (j + i.val) * size)) b := by
  induction items generalizing j b with
  | nil => rfl
  | cons x items ih =>
    rw [List.zipIdx_cons, List.foldlM_cons, hstep x List.mem_cons_self j b (by simp) rfl]
    show _ = stored (collect (items.length + 1) _) _ _
    rw [collect]
    show _ = stored (meaning x >>= _) _ _
    cases meaning x with
    | error e => rfl
    | ok v =>
      have hrest := ih (j + 1) (writes (plan v (base + j * size)) b) fun y hy i b' hi hb' =>
        hstep y (List.mem_cons_of_mem _ hy) i b' (by rw [List.length_cons]; omega)
          (hb'.trans (length_writes _ _))
      show (items.zipIdx (j + 1)).foldlM _ _ = _
      rw [hrest]
      show _ = stored (collect items.length (fun i => meaning (items.get i)) >>= _) _ _
      cases collect items.length (fun i => meaning (items.get i)) with
      | error e => rfl
      | ok vs =>
        refine congrArg Except.ok ?_
        show writes _ _ = writes ((List.finRange (items.length + 1)).flatMap _) b
        rw [List.finRange_succ, List.flatMap_cons, writes_append, List.flatMap_map]
        simp only [Fin.cons_zero, Fin.cons_succ, Fin.val_succ, Fin.val_zero, Nat.add_zero]
        simp only [Nat.add_assoc, Nat.add_comm 1]

/-- `struct.pack_into` stores the items, if there is room and each has its bits. -/
theorem packInto_eq (k : Scalar) (items : List (ScalarObj k)) (p : Nat) (b : List UInt8)
    (h : p + items.length * k.size ≤ b.length) : packInto F k items p b =
      stored (collect items.length fun i => bits F k (items.get i)) (fun v =>
        (List.finRange items.length).flatMap fun i =>
          storesAt (p + i.val * k.size) (leBytes k.size (v i).val)) b := by
  have hloop := foldlM_items
    (fun x q b => pack F k x >>= fun bytes => pure (writes (storesAt q bytes) b)) (bits F k)
    (fun v q => storesAt q (leBytes k.size v.val)) p k.size items 0 b fun x _ i b' _ _ => by
    show (pack F k x >>= _) = _
    rw [pack_eq]
    cases bits F k x <;> rfl
  simp only [Nat.zero_add] at hloop
  rwa [packInto, if_pos h]

/-- A scalar field is stored as its bits, also the bool, which is not packed. -/
theorem putScalar_eq (k : Scalar) (o : ScalarObj k) (p : Nat) (b : List UInt8)
    (h : p + k.size ≤ b.length) : putScalar F k o p b =
      stored (bits F k o) (fun v : Fin k.bound => storesAt p (leBytes k.size v.val)) b := by
  have single : packInto F k [o] p b =
      stored (bits F k o) (fun v : Fin k.bound => storesAt p (leBytes k.size v.val)) b := by
    rw [packInto, if_pos (by simpa using h)]
    show ((pack F k o >>= _) >>= _) = _
    rw [pack_eq, Nat.zero_mul, Nat.add_zero]
    cases bits F k o <;> rfl
  cases k with
  | bool =>
    have hp : p < b.length := h
    rw [putScalar, if_pos hp]
    cases o <;> rfl
  | _ => exact single

def blankFields : (fs : Fields) → FieldsObj fs → FieldsObj fs
  | .nil, o => o
  | .one _ _ _ rest, o => (o.1, blankFields rest o.2)
  | .array _ _ _ _ rest, o => (o.1, blankFields rest o.2)
  | .var _ kind rest, o => (default kind, blankFields rest o.2)

/-- An object with its string and bytes fields empty. -/
def blank : (m : Laid) → MessageObj m → MessageObj m
  | .mk _ fs _ _, o => blankFields fs o

theorem text_default (kind : VarKind) : text kind (default kind) = .ok [] := by
  cases kind <;> rfl

/-- A message of fixed size has nothing to blank. -/
theorem blankFields_of_fixed : (fs : Fields) → fs.fixed = true → (o : FieldsObj fs) →
    blankFields fs o = o
  | .nil, _, _ => rfl
  | .one _ _ _ rest, h, o => congrArg (Prod.mk o.1) (blankFields_of_fixed rest h o.2)
  | .array _ _ _ _ rest, h, o => congrArg (Prod.mk o.1) (blankFields_of_fixed rest h o.2)
  | .var _ _ _, h, _ => (by cases h)

theorem blank_of_fixed : (m : Laid) → m.fields.fixed = true → (o : MessageObj m) → blank m o = o
  | .mk _ fs _ _, h, o => blankFields_of_fixed fs h o

mutual

theorem putElem_eq : (e : Elem) → e.Sound → (o : ElemObj e) → (p : Nat) → (b : List UInt8) →
    p + e.size ≤ b.length → putElem F e o p b = stored (elemValue F e o) (e.plan · p) b
  | .scalar k, _, o, p, b, hlen => putScalar_eq k o p b hlen
  | .ref m, he, o, p, b, hlen => by
    have hput := put_eq m he.1 o p b hlen
    rwa [blank_of_fixed m he.2 o] at hput

/-- The items of an array, one after another. -/
theorem putItems_eq : (e : Elem) → e.Sound → (items : List (ElemObj e)) → (p : Nat) →
    (b : List UInt8) → p + items.length * e.size ≤ b.length → putItems F e items p b =
      stored (collect items.length fun i => elemValue F e (items.get i)) (fun v =>
        (List.finRange items.length).flatMap fun i => e.plan (v i) (p + i.val * e.size)) b
  | .scalar k, _, items, p, b, hlen => packInto_eq k items p b hlen
  | .ref m, he, items, p, b, hlen => by
    have refs : ∀ items : List (MessageObj m), p + items.length * m.fixedSize ≤ b.length →
        items.zipIdx.foldlM (fun b x => put F m x.1 (p + x.2 * m.fixedSize) b) b =
          stored (collect items.length fun i => value F m (items.get i)) (fun v =>
            (List.finRange items.length).flatMap fun i => m.plan (v i) (p + i.val * m.fixedSize)) b := by
      intro items hroom
      have hloop := foldlM_items (put F m) (value F m) m.plan p m.fixedSize items 0 b
        fun x _ i b' hi hb' => by
        have hlast := slot_end_le (hi.trans_eq (Nat.zero_add _)) m.fixedSize
        have hput := put_eq m he.1 x (p + i * m.fixedSize) b' (by omega)
        rwa [blank_of_fixed m he.2 x] at hput
      simp only [Nat.zero_add] at hloop
      exact hloop
    exact refs items hlen

/-- What `_put` does for a message; its string and bytes fields play no part. -/
theorem put_eq : (m : Laid) → Sound m → (o : MessageObj m) → (p : Nat) → (b : List UInt8) →
    p + m.fixedSize ≤ b.length → put F m o p b = stored (value F m (blank m o)) (m.plan · p) b
  | .mk _ fs _ _, hm, o, p, b, hlen => putFields_eq fs hm.fit o p b hlen

/-- `_put` stores the plan of the value, or raises what is wrong with the object. -/
theorem putFields_eq : (fs : Fields) → {start n : Nat} → fs.Fit start n → (o : FieldsObj fs) →
    (p : Nat) → (b : List UInt8) → p + n ≤ b.length → putFields F fs o p b =
      stored (fieldsValue F fs (blankFields fs o)) (fs.plan · p) b
  | .nil, _, _, _, _, _, _, _ => rfl
  | .one _ e off rest, start, n, h, o, p, b, hlen => by
    obtain ⟨hstart, hend, he, hrest⟩ := h.cons (x := ⟨off, 1, e⟩) rfl
    simp only [Nat.one_mul] at hend hrest
    rw [putFields, putElem_eq e he o.1 (p + off) b (by omega)]
    exact store_pair fun b' hb' => putFields_eq rest hrest o.2 p b' (hlen.trans_eq hb'.symm)
  | .array _ len e off rest, start, n, h, o, p, b, hlen => by
    obtain ⟨hstart, hend, he, hrest⟩ := h.cons (x := ⟨off, len, e⟩) rfl
    simp only at hend hrest
    obtain ⟨items, os⟩ := o
    show (arr items len >>= _) = stored (tuple len (elemValue F e) items >>= _) _ _
    unfold arr tuple
    by_cases hcount : items.length = len
    · rw [if_neg (not_not.mpr hcount), dif_pos hcount]
      subst hcount
      show (putItems F e items (p + off) b >>= _) =
        stored (collect items.length (fun i => elemValue F e (items.get i)) >>= _) _ _
      rw [putItems_eq e he items (p + off) b (by omega)]
      exact store_pair fun b' hb' => putFields_eq rest hrest os p b' (hlen.trans_eq hb'.symm)
    · rw [if_pos hcount, dif_neg hcount]
      rfl
  | .var _ kind rest, start, n, h, o, p, b, hlen => by
    rw [putFields, putFields_eq rest ⟨h.fits, h.sub, h.ends⟩ o.2 p b hlen]
    show _ = stored (text kind (default kind) >>= _) _ _
    rw [text_default]
    show _ = stored (fieldsValue F rest (blankFields rest o.2) >>= _) _ _
    cases fieldsValue F rest (blankFields rest o.2) <;> rfl

end

/-! ### Encoding -/

/-- The stores of the fixed section do not depend on the other fields. -/
theorem plan_blank : (fs : Fields) → (v : fs.Val) → (p : Nat) → fs.plan (fs.blank v) p = fs.plan v p
  | .nil, _, _ => rfl
  | .one _ e off rest, v, p => congrArg (e.plan v.1 (p + off) ++ ·) (plan_blank rest v.2 p)
  | .array _ n e off rest, v, p =>
      congrArg ((List.finRange n).flatMap (fun i => e.plan (v.1 i) (p + off + i * e.size)) ++ ·)
        (plan_blank rest v.2 p)
  | .var _ _ rest, v, p => plan_blank rest v.2 p

/-- `str.encode` raises for the objects that have no text. -/
theorem rawOf_eq (kind : VarKind) (o : VarObj kind) : rawOf kind o = (text kind o).mapError Flaw.exc := by
  cases kind with
  | string =>
    simp only [rawOf, text]
    cases encodeStr o <;> rfl
  | bytes => rfl

theorem text_error {kind : VarKind} {o : VarObj kind} {f : Flaw} (h : text kind o = .error f) :
    f = .form := by
  cases kind with
  | string =>
    simp only [text] at h
    cases hstr : encodeStr o <;> rw [hstr] at h <;> cases h
    rfl
  | bytes => cases h

/-- An object with a value has the value's fixed section, and its string and bytes fields are appended
    unless one of them is too long. -/
theorem putVars_ok : (fs : Fields) → {o : FieldsObj fs} → {v : fs.Val} → fieldsValue F fs o = .ok v →
    fieldsValue F fs (blankFields fs o) = .ok (fs.blank v) ∧
      ∀ out, putVars fs o out =
        if ∀ x ∈ fs.vars v, x.2.length < 2 ^ 32 then .ok (out ++ varBytes (fs.vars v))
        else .error .value
  | .nil, _, _, _ => ⟨rfl, fun out => by simp [putVars, Fields.vars, varBytes]⟩
  | .one _ e off rest, o, v, h => by
    obtain ⟨hx, hxs⟩ := pair_eq_ok.mp h
    obtain ⟨hblank, hvars⟩ := putVars_ok rest hxs
    exact ⟨pair_eq_ok.mpr ⟨hx, hblank⟩, hvars⟩
  | .array _ n e off rest, o, v, h => by
    obtain ⟨hx, hxs⟩ := pair_eq_ok.mp h
    obtain ⟨hblank, hvars⟩ := putVars_ok rest hxs
    exact ⟨pair_eq_ok.mpr ⟨hx, hblank⟩, hvars⟩
  | .var _ kind rest, o, v, h => by
    obtain ⟨hraw, hxs⟩ := pair_eq_ok.mp h
    obtain ⟨hblank, hvars⟩ := putVars_ok rest hxs
    refine ⟨pair_eq_ok.mpr ⟨text_default kind, hblank⟩, fun out => ?_⟩
    rw [putVars, rawOf_eq, hraw]
    show (putVar out v.1 >>= fun out => putVars rest o.2 out) = _
    unfold putVar
    simp only [Fields.vars, List.forall_mem_cons]
    by_cases hlen : v.1.length < 2 ^ 32
    · rw [if_neg (by omega)]
      show putVars rest o.2 _ = _
      rw [hvars]
      simp only [hlen, true_and]
      split_ifs
      · simp [varBytes]
      · rfl
    · rw [if_pos (by omega), if_neg fun h => hlen h.1]
      rfl

/-- An object without a value fails in its fixed section or at a string. -/
theorem putVars_error : (fs : Fields) → {o : FieldsObj fs} → (∃ f, fieldsValue F fs o = .error f) →
    (∃ f, fieldsValue F fs (blankFields fs o) = .error f) ∨ ∀ out, putVars fs o out = .error .value
  | .nil, _, h => by
    obtain ⟨f, h⟩ := h
    cases h
  | .one _ e off rest, o, h => by
    rcases pair_fails.mp h with he | hrest
    · exact .inl (pair_fails.mpr (.inl he))
    · exact (putVars_error rest hrest).imp_left fun hf => pair_fails.mpr (.inr hf)
  | .array _ n e off rest, o, h => by
    rcases pair_fails.mp h with he | hrest
    · exact .inl (pair_fails.mpr (.inl he))
    · exact (putVars_error rest hrest).imp_left fun hf => pair_fails.mpr (.inr hf)
  | .var _ kind rest, o, h => by
    cases hraw : text kind o.1 with
    | error f =>
      right
      intro out
      rw [putVars, rawOf_eq, hraw, text_error hraw]
      rfl
    | ok raw =>
      have hrest : ∃ f, fieldsValue F rest o.2 = .error f := by
        rcases pair_fails.mp h with ⟨f, hf⟩ | hrest
        · cases hraw.symm.trans hf
        · exact hrest
      refine (putVars_error rest hrest).imp (fun hf => pair_fails.mpr (.inr hf)) fun hvars out => ?_
      rw [putVars, rawOf_eq, hraw]
      show (putVar out raw >>= fun out => putVars rest o.2 out) = _
      unfold putVar
      split_ifs
      · rfl
      · exact hvars _

/-- `encode` up to the appended fields. -/
theorem encode_put (N : List String) {name : String} {fs : Fields} {a : Nat} (hm : Sound (.mk name fs n a))
    (o : MessageObj (.mk name fs n a)) : encode N F (.mk name fs n a) o =
      (excepting N (stored (fieldsValue F fs (blankFields fs o)) (fs.plan · 0) (List.replicate n 0)) >>=
        putVars fs o) := by
  have hput := put_eq (F := F) (.mk name fs n a) hm o 0 (List.replicate n 0)
    (by rw [List.length_replicate, Nat.zero_add]; exact le_rfl)
  show (excepting N (put F (.mk name fs n a) o 0 _) >>= _) = _
  rw [hput]
  rfl

/-- **Encoding in Python** an object that has a value. -/
theorem encode_value (N : List String) : (m : Laid) → Sound m → {o : MessageObj m} → {v : m.Val} →
    value F m o = .ok v →
    encode N F m o = if Short m v then .ok (m.encode v) else .error .value
  | .mk name fs n a, hm, o, v, hvalue => by
    obtain ⟨hblank, hvars⟩ := putVars_ok fs (F := F) (o := o) (v := v) hvalue
    rw [encode_put N hm, hblank]
    show putVars fs o (writes (fs.plan (fs.blank v) 0) (List.replicate n 0)) = _
    rw [plan_blank fs v 0, hvars]
    rfl

/-- **Encoding in Python** an object that has no value: always an exception, and a `ValueError` unless a
    message is called `OverflowError`. -/
theorem encode_flaw (N : List String) : (m : Laid) → Sound m → {o : MessageObj m} → {f : Flaw} →
    value F m o = .error f →
    ∃ e, encode N F m o = .error e ∧ ("OverflowError" ∉ N → e = .value)
  | .mk name fs n a, hm, o, f, hvalue => by
    have hraised : ∀ f' : Flaw, ∃ e, (excepting N (.error f'.exc) : Except Exc (List UInt8)) = .error e ∧
        ("OverflowError" ∉ N → e = .value) := by
      intro f'
      refine ⟨_, rfl, fun hN => ?_⟩
      rw [if_neg hN]
      cases f' <;> rfl
    rw [encode_put N hm]
    rcases putVars_error fs ⟨f, hvalue⟩ with ⟨f', hf'⟩ | hvars
    · obtain ⟨e, he, hN⟩ := hraised f'
      rw [hf']
      show ∃ e, (excepting N (.error f'.exc) >>= _) = _ ∧ _
      exact ⟨e, he ▸ rfl, hN⟩
    · cases fieldsValue F fs (blankFields fs o) with
      | error f' =>
        obtain ⟨e, he, hN⟩ := hraised f'
        show ∃ e, (excepting N (.error f'.exc) >>= _) = _ ∧ _
        exact ⟨e, he ▸ rfl, hN⟩
      | ok v => exact ⟨.value, hvars _, fun _ => rfl⟩

/-! ### Getting -/

/-- A list comprehension over `range(n)`. -/
theorem mapM_range {ε α : Type} (n : Nat) (f : Nat → Except ε α) :
    (List.range n).mapM f = (collect n fun i => f i).map List.ofFn := by
  induction n generalizing f with
  | zero => rfl
  | succ n ih =>
    rw [List.range_succ_eq_map, List.mapM_cons, List.mapM_map, ih, collect]
    show (f 0 >>= _) = Except.map _ (f 0 >>= _)
    cases f 0 with
    | error e => rfl
    | ok x =>
      show (Except.map List.ofFn (collect n fun i => f (i + 1)) >>= _) =
        Except.map _ (collect n (fun i => f (i + 1)) >>= _)
      cases collect n fun i => f (i + 1) with
      | error e => rfl
      | ok xs => exact congrArg Except.ok (by rw [List.ofFn_cons])

/-- A change of every item and of the error, made afterwards. -/
theorem collect_map {ε ε' α β : Type} (f : Fin n → Except ε α) (g : α → β) (h : ε → ε') :
    (collect n fun i => ((f i).map g).mapError h) =
      ((collect n f).map fun v i => g (v i)).mapError h := by
  induction n with
  | zero => exact congrArg Except.ok (funext fun i => i.elim0)
  | succ n ih =>
    rw [collect, collect, ih]
    cases f 0 with
    | error e => rfl
    | ok x =>
      show (Except.mapError h (Except.map _ (collect n fun i => f i.succ)) >>= _) =
        Except.mapError h (Except.map _ (collect n (fun i => f i.succ) >>= _))
      cases collect n fun i => f i.succ with
      | error e => rfl
      | ok xs =>
        refine congrArg Except.ok (funext fun i => ?_)
        cases i using Fin.cases <;> rfl

/-- Every failure of a reader is a `ValueError`, unless a message is called `UnicodeDecodeError`. -/
def raised (N : List String) : Fault → Exc
  | .error .utf8 => if "UnicodeDecodeError" ∈ N then .type else .value
  | _ => .value

variable {N : List String}

theorem cast_eq {x : Nat} (h : x < 256 ^ n) : C.cast n x = ⟨x, h⟩ :=
  Fin.ext (Nat.mod_eq_of_lt h)

/-- An item is unpacked from its bits. -/
theorem unpack_eq {k : Scalar} (hk : k ≠ .bool) {bs : List UInt8} (h : leNat bs < k.bound) :
    unpack F k bs = unbits F k ⟨leNat bs, h⟩ := by
  cases k with
  | bool => exact absurd rfl hk
  | f32 => exact congrArg F.widen (cast_eq h)
  | f64 => exact cast_eq h
  | _ => rfl

/-- One item of `struct.unpack`, inside the input. -/
theorem item_eq {k : Scalar} (hk : k ≠ .bool) {p : Nat} {b : List UInt8} (h : p + k.size ≤ b.length) :
    ((loadBits k p b).map (unbits F k)).mapError (raised N) =
      .ok (unpack F k ((b.drop p).take k.size)) := by
  have hlt := leNat_lt ((b.drop p).take k.size)
  rw [List.length_take, List.length_drop, Nat.min_eq_left (by omega)] at hlt
  have hbound : k.bound = 256 ^ k.size := by cases k <;> first | rfl | exact absurd rfl hk
  rw [loadBits_of_lt (hbound ▸ hlt), unpack_eq hk (hbound ▸ hlt)]
  rfl

/-- A scalar inside the input. -/
theorem getScalar_eq (k : Scalar) {p : Nat} {b : List UInt8} (h : p + k.size ≤ b.length) :
    getScalar F k p b = ((loadBits k p b).map (unbits F k)).mapError (raised N) := by
  have single : k ≠ .bool → (unpackFrom F k 1 p b >>= fun items =>
      match items with
      | v :: _ => pure v
      | [] => .error .index) = ((loadBits k p b).map (unbits F k)).mapError (raised N) := by
    intro hk
    rw [unpackFrom, if_pos (by omega), item_eq hk h]
    show Except.ok (unpack F k ((b.drop (p + 0 * k.size)).take k.size)) = _
    rw [Nat.zero_mul, Nat.add_zero]
  cases k with
  | bool =>
    have hp : p < b.length := h
    rw [getScalar, List.getElem?_eq_getElem hp, loadBits_bool hp]
    show toBool b[p] = _
    unfold toBool
    split_ifs with h1 h2
    · rfl
    · rw [h2]
      rfl
    · rw [beq_false_of_ne h2]
      rfl
  | _ => exact single nofun

/-- `[_bool(b) for b in buf[p:p + n]]` -/
theorem bools_eq (n p : Nat) (b : List UInt8) (h : p + n ≤ b.length) :
    ((b.drop p).take n).mapM toBool = (List.range n).mapM fun i => getScalar F .bool (p + i) b := by
  induction n generalizing p with
  | zero => rfl
  | succ n ih =>
    have hp : p < b.length := by omega
    rw [List.drop_eq_getElem_cons hp, List.take_succ_cons, List.mapM_cons, ih (p + 1) (by omega),
      List.range_succ_eq_map, List.mapM_cons, List.mapM_map]
    have hfirst : getScalar F .bool (p + 0) b = toBool b[p] := by
      rw [getScalar, Nat.add_zero, List.getElem?_eq_getElem hp]
    rw [hfirst]
    simp only [Function.comp_def, Nat.succ_eq_add_one, Nat.add_assoc, Nat.add_comm 1]
    rfl

theorem mapM_ok {ε α β : Type} (xs : List α) (f : α → Except ε β) (g : α → β)
    (h : ∀ x ∈ xs, f x = .ok (g x)) : xs.mapM f = .ok (xs.map g) := by
  induction xs with
  | nil => rfl
  | cons x xs ih =>
    rw [List.mapM_cons, h x List.mem_cons_self, ih fun y hy => h y (List.mem_cons_of_mem _ hy)]
    rfl

/-- The items of an array of scalars, as if each were a field. -/
theorem scalars_eq (k : Scalar) (n p : Nat) (b : List UInt8) (h : p + n * k.size ≤ b.length) :
    getScalars F k n p b = (List.range n).mapM fun i => getScalar F k (p + i * k.size) b := by
  have items : k ≠ .bool → unpackFrom F k n p b =
      (List.range n).mapM fun i => getScalar F k (p + i * k.size) b := by
    intro hk
    rw [unpackFrom, if_pos h]
    refine (mapM_ok _ _ _ fun i hi => ?_).symm
    have hlast := slot_end_le (List.mem_range.mp hi) k.size
    rw [getScalar_eq (N := []) k (by omega), item_eq hk (by omega)]
  cases k with
  | bool =>
    have hsize : Scalar.size .bool = 1 := rfl
    rw [hsize, Nat.mul_one] at h
    simp only [hsize, Nat.mul_one]
    exact bools_eq n p b h
  | _ => exact items nofun

/-- The items of an array, given its elements. -/
theorem items_eq {e : Elem} {p : Nat} {b : List UInt8}
    (helem : ∀ i < n, getElem F e (p + i * e.size) b =
      ((e.getWith plainReader (p + i * e.size) b).map (elemObject F e)).mapError (raised N)) :
    (List.range n).mapM (fun i => getElem F e (p + i * e.size) b) =
      ((collect n fun i => e.getWith plainReader (p + i * e.size) b).map fun v =>
        List.ofFn fun i => elemObject F e (v i)).mapError (raised N) := by
  rw [mapM_range]
  have hcollect : (collect n fun i : Fin n => getElem F e (p + i * e.size) b) =
      ((collect n fun i : Fin n => e.getWith plainReader (p + i * e.size) b).map fun v i =>
        elemObject F e (v i)).mapError (raised N) := by
    rw [← collect_map]
    exact congrArg (collect n) (funext fun i => helem i i.isLt)
  rw [hcollect]
  cases collect n fun i : Fin n => e.getWith plainReader (p + i * e.size) b <;> rfl

mutual

theorem getElem_eq : (e : Elem) → e.Sound → (p : Nat) → (b : List UInt8) → p + e.size ≤ b.length →
    getElem F e p b = ((e.getWith plainReader p b).map (elemObject F e)).mapError (raised N)
  | .scalar k, _, _, _, hlen => getScalar_eq k hlen
  | .ref m, he, p, b, hlen => get_eq m he.1 p b hlen

/-- An array read with one call of `struct`, or item by item. -/
theorem getItems_eq : (e : Elem) → e.Sound → (n p : Nat) → (b : List UInt8) →
    p + n * e.size ≤ b.length → getItems F e n p b =
      ((collect n fun i => e.getWith plainReader (p + i * e.size) b).map fun v =>
        List.ofFn fun i => elemObject F e (v i)).mapError (raised N)
  | .scalar k, he, n, p, b, hlen => by
    refine (scalars_eq k n p b hlen).trans (items_eq (e := .scalar k) fun i hi => ?_)
    have hlast := slot_end_le hi k.size
    have hroom : p + n * k.size ≤ b.length := hlen
    exact getScalar_eq k (by show p + i * k.size + k.size ≤ b.length; omega)
  | .ref m, he, n, p, b, hlen => by
    rw [getItems]
    refine items_eq (e := .ref m) fun i hi => ?_
    have hlast := slot_end_le hi m.fixedSize
    have hroom : p + n * m.fixedSize ≤ b.length := hlen
    exact get_eq m he.1 _ b (by show p + i * m.fixedSize + m.fixedSize ≤ b.length; omega)

/-- `_get` reads what the plain reader reads. -/
theorem get_eq : (m : Laid) → Sound m → (p : Nat) → (b : List UInt8) → p + m.fixedSize ≤ b.length →
    get F m p b = ((m.getWith plainReader p b).map (object F m)).mapError (raised N)
  | .mk _ fs _ _, hm, p, b, hlen => getFields_eq fs hm.fit p b hlen

/-- `_get` makes the object of what a reader finds. -/
theorem getFields_eq : (fs : Fields) → {start n : Nat} → fs.Fit start n → (p : Nat) →
    (b : List UInt8) → p + n ≤ b.length →
    getFields F fs p b = ((fs.getWith plainReader p b).map (fieldsObject F fs)).mapError (raised N)
  | .nil, _, _, _, _, _, _ => rfl
  | .one _ e off rest, start, n, h, p, b, hlen => by
    obtain ⟨hstart, hend, he, hrest⟩ := h.cons (x := ⟨off, 1, e⟩) rfl
    simp only [Nat.one_mul] at hend
    rw [getFields, Fields.getWith, getElem_eq e he (p + off) b (by omega),
      getFields_eq rest hrest p b hlen]
    cases e.getWith plainReader (p + off) b with
    | error f => rfl
    | ok x => cases rest.getWith plainReader p b <;> rfl
  | .array _ len e off rest, start, n, h, p, b, hlen => by
    obtain ⟨hstart, hend, he, hrest⟩ := h.cons (x := ⟨off, len, e⟩) rfl
    simp only at hend
    rw [getFields, Fields.getWith, getItems_eq e he len (p + off) b (by omega),
      getFields_eq rest hrest p b hlen]
    cases collect len fun i => e.getWith plainReader (p + off + i * e.size) b with
    | error f => rfl
    | ok x => cases rest.getWith plainReader p b <;> rfl
  | .var _ kind rest, start, n, h, p, b, hlen => by
    rw [getFields, Fields.getWith, getFields_eq rest ⟨h.fits, h.sub, h.ends⟩ p b hlen]
    cases rest.getWith plainReader p b with
    | error f => rfl
    | ok xs =>
      have hempty : default kind = untext kind [] := by
        cases kind with
        | string =>
          show [] = (decodeStr []).getD []
          rw [decodeStr]
          rfl
        | bytes => rfl
      rw [hempty]
      rfl

end

/-! ### Decoding -/

/-- `_get_var` fails where the plain reader does. -/
theorem getVar_eq {b : List UInt8} {off : Nat} (hoff : off ≤ b.length) :
    getVar b off = (Schema.getVar b off).mapError (raised N) := by
  unfold getVar Schema.getVar
  by_cases h4 : b.length - off < 4
  · rw [if_pos (by omega), if_pos h4]
    rfl
  · rw [if_neg (by omega), if_neg h4]
    dsimp only
    by_cases hn : b.length - (off + 4) < leNat ((b.drop off).take 4)
    · rw [if_pos (by omega), if_pos hn]
      rfl
    · rw [if_neg (by omega), if_neg hn]
      rfl

theorem decodeStr_cons {a : UInt8} {bs : List UInt8} {r w : Nat} (h : charAt (a :: bs) = some (r, w)) :
    decodeStr (a :: bs) = (decodeStr ((a :: bs).drop w)).map (Fin.ofNat 0x110000 r :: ·) := by
  rw [decodeStr]
  split
  · next h' =>
    rw [h] at h'
    cases h'
    rfl
  · next h' => cases h.symm.trans h'

theorem decodeStr_none {a : UInt8} {bs : List UInt8} (h : charAt (a :: bs) = none) :
    decodeStr (a :: bs) = none := by
  rw [decodeStr]
  split
  · next h' => cases h.symm.trans h'
  · rfl

/-- `bytes.decode` accepts UTF-8 and nothing else. -/
theorem decodeStr_valid (s : List UInt8) : (decodeStr s).isSome = utf8Valid s := by
  induction s using utf8Valid.induct with
  | case1 => rw [decodeStr, utf8Valid]; rfl
  | case2 a bs r w h ih =>
    rw [utf8Valid_cons h, ← ih, decodeStr_cons h, Option.isSome_map]
  | case3 a bs h =>
    rw [utf8Valid_none h, decodeStr_none h]
    rfl

theorem str_eq (raw : List UInt8) : str N raw =
    if utf8Valid raw = false then .error (raised N (.error .utf8))
    else .ok ((decodeStr raw).getD []) := by
  rw [← decodeStr_valid, str]
  cases decodeStr raw <;> rfl

/-- A string field is assigned if it is UTF-8. -/
theorem assigned_eq (kind : VarKind) (raw : List UInt8) : assigned N kind raw =
    if kind = .string ∧ utf8Valid raw = false then .error (raised N (.error .utf8))
    else .ok (untext kind raw) := by
  cases kind with
  | bytes => rfl
  | string =>
    by_cases hvalid : utf8Valid raw = false
    · exact ((str_eq raw).trans (if_pos hvalid)).trans (if_pos ⟨rfl, hvalid⟩).symm
    · exact ((str_eq raw).trans (if_neg hvalid)).trans (if_neg fun h => hvalid h.2).symm

/-- The string and bytes fields, one after another from `off` on. -/
theorem getVars_eq : (fs : Fields) → (v : fs.Val) → {b : List UInt8} → {off : Nat} → off ≤ b.length →
    getVars N fs (fieldsObject F fs v) b off =
      ((fs.getVarsWith Schema.getVar utf8Valid v b off).map fun r =>
        (fieldsObject F fs r.1, r.2)).mapError (raised N)
  | .nil, _, _, _, _ => rfl
  | .one _ e _ rest, v, b, off, hoff => by
    rw [Fields.getVarsWith]
    show (getVars N rest (fieldsObject F rest v.2) b off >>= _) = _
    rw [getVars_eq rest v.2 hoff]
    cases rest.getVarsWith Schema.getVar utf8Valid v.2 b off <;> rfl
  | .array _ _ e _ rest, v, b, off, hoff => by
    rw [Fields.getVarsWith]
    show (getVars N rest (fieldsObject F rest v.2) b off >>= _) = _
    rw [getVars_eq rest v.2 hoff]
    cases rest.getVarsWith Schema.getVar utf8Valid v.2 b off <;> rfl
  | .var _ kind rest, v, b, off, hoff => by
    rw [Fields.getVarsWith]
    show (getVar b off >>= _) = _
    rw [getVar_eq hoff]
    cases hraw : Schema.getVar b off with
    | error f => rfl
    | ok x =>
      obtain ⟨raw, off'⟩ := x
      show (assigned N kind raw >>= fun s => getVars N rest (fieldsObject F rest v.2) b off' >>= _) =
        Except.mapError (raised N) (Except.map _ (if kind = .string ∧ utf8Valid raw = false then _
          else rest.getVarsWith Schema.getVar utf8Valid v.2 b off' >>= _))
      rw [assigned_eq, getVars_eq rest v.2 (getVar_ok hraw).2.1]
      split_ifs
      · rfl
      · cases rest.getVarsWith Schema.getVar utf8Valid v.2 b off' <;> rfl

theorem unlessTrailing_eq {α β : Type} (trailing : Prop) [Decidable trailing] (g : α → β) (x : α) :
    (if trailing then .error .value else pure (g x) : Except Exc β) =
      ((if trailing then .error (.error .trailing) else pure x : Except Fault α).map g).mapError
        (raised N) := by
  split_ifs <;> rfl

/-- **Decoding in Python**, for every input. -/
theorem decode_eq : (m : Laid) → Sound m → (b : List UInt8) →
    decode N F m b = ((m.decode b).map (object F m)).mapError (raised N)
  | .mk name fs n a, hm, b => by
    show (if b.length < n then _ else _) =
      Except.mapError (raised N) (Except.map _ (if b.length < n then _ else _))
    by_cases hshort : b.length < n
    · rw [if_pos hshort, if_pos hshort]
      rfl
    · rw [if_neg hshort, if_neg hshort]
      have hget := get_eq (F := F) (N := N) (.mk name fs n a) hm 0 b
        (by rw [Nat.zero_add]; exact Nat.not_lt.mp hshort)
      rw [hget]
      cases Laid.getWith plainReader (.mk name fs n a) 0 b with
      | error f => rfl
      | ok v =>
        show (getVars N fs (fieldsObject F fs v) b n >>= _) = Except.mapError (raised N) (Except.map _
          (fs.getVarsWith Schema.getVar utf8Valid v b n >>= _))
        rw [getVars_eq fs v (Nat.not_lt.mp hshort)]
        cases fs.getVarsWith Schema.getVar utf8Valid v b n with
        | error f => rfl
        | ok r =>
          exact unlessTrailing_eq _ (fieldsObject F fs) r.1

/-! ### Round trips -/

theorem encodeStr_cons (c : CodePoint) (cs : List CodePoint) : encodeStr (c :: cs) =
    (encodeStr cs).bind fun raw =>
      if h : c.val.isValidChar then some (String.utf8EncodeChar (Char.ofNatAux c.val h) ++ raw)
      else none := by
  unfold encodeStr
  rw [List.foldrM_cons]
  rfl

theorem encodeStr_char (c : Char) (cs : List CodePoint) : encodeStr (Fin.ofNat 0x110000 c.toNat :: cs) =
    (encodeStr cs).map (String.utf8EncodeChar c ++ ·) := by
  have hvalid := toNat_char c
  have hval : (Fin.ofNat 0x110000 c.toNat).val = c.toNat := Nat.mod_eq_of_lt (by omega)
  rw [encodeStr_cons]
  cases encodeStr cs with
  | none => rfl
  | some raw =>
    rw [Option.bind_some, Option.map_some]
    generalize (Fin.ofNat 0x110000 c.toNat).val = n at hval
    subst hval
    rw [dif_pos (show c.toNat.isValidChar from c.valid)]
    rfl

/-- What `decodeStr` finds is encoded as it was. -/
theorem encodeStr_decodeStr {raw : List UInt8} {cs : List CodePoint} (h : decodeStr raw = some cs) :
    encodeStr cs = some raw := by
  induction raw using utf8Valid.induct generalizing cs with
  | case1 =>
    rw [decodeStr] at h
    cases h
    rfl
  | case2 a bs r w hread ih =>
    rw [decodeStr_cons hread] at h
    obtain ⟨rest', hrest, rfl⟩ := Option.map_eq_some_iff.mp h
    obtain ⟨c, rest, hs⟩ := exists_encode hread
    rw [hs, charAt_encode] at hread
    cases hread
    have hdrop : (a :: bs).drop (String.utf8EncodeChar c).length = rest := by rw [hs, List.drop_left]
    rw [encodeStr_char, ih hrest, hdrop, hs]
    rfl
  | case3 a bs hread =>
    rw [decodeStr_none hread] at h
    cases h

/-- What `str.encode` returns is UTF-8. -/
theorem encodeStr_valid {cs : List CodePoint} {raw : List UInt8} (h : encodeStr cs = some raw) :
    utf8Valid raw = true := by
  induction cs generalizing raw with
  | nil =>
    cases h
    rw [utf8Valid]
  | cons c cs ih =>
    rw [encodeStr_cons] at h
    obtain ⟨raw', hraw, h⟩ := Option.bind_eq_some_iff.mp h
    obtain ⟨_, h⟩ := Option.dite_none_right_eq_some.mp h
    cases h
    rw [utf8Valid_encode, ih hraw]

/-- The strings of an object's value are UTF-8. -/
theorem vars_valid : (fs : Fields) → {o : FieldsObj fs} → {v : fs.Val} → fieldsValue F fs o = .ok v →
    ∀ x ∈ fs.vars v, x.1 = .string → utf8Valid x.2 = true
  | .nil, _, _, _ => fun _ hx => absurd hx List.not_mem_nil
  | .one _ e _ rest, o, v, h => vars_valid rest (pair_eq_ok.mp h).2
  | .array _ _ e _ rest, o, v, h => vars_valid rest (pair_eq_ok.mp h).2
  | .var _ kind rest, o, v, h => by
    obtain ⟨hraw, hxs⟩ := pair_eq_ok.mp h
    intro x hx hkind
    rcases List.mem_cons.mp hx with rfl | hx
    · obtain rfl : kind = .string := hkind
      simp only [text] at hraw
      cases hstr : encodeStr o.1 <;> rw [hstr] at hraw <;> cases hraw
      exact encodeStr_valid hstr
    · exact vars_valid rest hxs x hx hkind

/-- A value that an object stands for can be encoded unless a field is too long. -/
theorem encodable_of_value : (m : Laid) → {o : MessageObj m} → {v : m.Val} → value F m o = .ok v →
    Short m v → m.Encodable v
  | .mk _ fs _ _, _, _, h, hshort => fun x hx => ⟨hshort x hx, vars_valid fs h x hx⟩

theorem unsignedBits_eq (x : Fin (256 ^ n)) : unsignedBits n (x.val : Int) = .ok x := by
  have hlt : (x.val : Int) < 256 ^ n := by exact_mod_cast x.isLt
  rw [unsignedBits, dif_pos ⟨Int.natCast_nonneg _, hlt⟩]
  rfl

/-- Two's complement there and back. -/
theorem signedBits_eq (hn : 0 < n) {x : Nat} (hx : x < 256 ^ n) :
    signedBits n (unpackSigned n x) = .ok ⟨x, hx⟩ := by
  obtain ⟨half, hhalf⟩ : ∃ half, 256 ^ n = 2 * half := by
    obtain ⟨k, rfl⟩ := Nat.exists_eq_succ_of_ne_zero hn.ne'
    exact ⟨256 ^ k * 128, by rw [Nat.pow_succ]; omega⟩
  have hcast : (256 : Int) ^ n = 2 * (half : Int) := by exact_mod_cast hhalf
  have hmod : unpackSigned n x % 256 ^ n = x := by
    unfold unpackSigned
    rw [hhalf, hcast]
    split_ifs with h
    · exact Int.emod_eq_of_lt (by omega) (by omega)
    · rw [← Int.add_emod_right, Int.sub_add_cancel]
      exact Int.emod_eq_of_lt (by omega) (by omega)
  have hrange : -(256 ^ n / 2) ≤ unpackSigned n x ∧ unpackSigned n x < 256 ^ n / 2 := by
    unfold unpackSigned
    rw [hhalf, hcast]
    split_ifs with h <;> omega
  rw [signedBits, if_pos hrange]
  exact congrArg Except.ok (Fin.ext (by simp [hmod]))

/-- A single-precision number survives the way to a Python `float` and back.  A signalling NaN need
    not. -/
def ScalarExact (F : Floats) : (k : Scalar) → Fin k.bound → Prop
  | .f32, v => F.narrow (F.widen v) = some v
  | _, _ => True

mutual

def ElemExact (F : Floats) : (e : Elem) → e.Val → Prop
  | .scalar k, v => ScalarExact F k v
  | .ref m, v => Exact F m v

/-- Every single-precision number in a value survives. -/
def Exact (F : Floats) : (m : Laid) → m.Val → Prop
  | .mk _ fs _ _, v => FieldsExact F fs v

def FieldsExact (F : Floats) : (fs : Fields) → fs.Val → Prop
  | .nil, _ => True
  | .one _ e _ rest, v => ElemExact F e v.1 ∧ FieldsExact F rest v.2
  | .array _ _ e _ rest, v => (∀ i, ElemExact F e (v.1 i)) ∧ FieldsExact F rest v.2
  | .var _ _ rest, v => FieldsExact F rest v.2

end

/-- The scalar of a bit pattern has these bits. -/
theorem bits_unbits (k : Scalar) (v : Fin k.bound) (h : ScalarExact F k v) :
    bits F k (unbits F k v) = .ok v := by
  cases k with
  | bool =>
    obtain ⟨x, hx⟩ := v
    have hx : x < 2 := hx
    rcases Nat.lt_succ_iff_lt_or_eq.mp hx with h0 | h1
    · obtain rfl : x = 0 := Nat.lt_one_iff.mp h0
      rfl
    · subst h1
      rfl
  | u8 | u16 | u32 | u64 => exact unsignedBits_eq _
  | i8 | i16 | i32 | i64 => exact signedBits_eq (by decide) _
  | f32 =>
    have h : F.narrow (F.widen v) = some v := h
    show orFlaw .range (F.narrow (F.widen v)) = _
    rw [h]
    rfl
  | f64 => rfl

theorem tuple_ofFn {α β : Type} {meaning : α → Except Flaw β} {items : Fin n → α} {v : Fin n → β}
    (h : ∀ i, meaning (items i) = .ok (v i)) : tuple n meaning (List.ofFn items) = .ok v := by
  rw [tuple, dif_pos List.length_ofFn, collect_eq_ok]
  intro i
  rw [List.get_ofFn]
  exact h i

/-- A string that is UTF-8 is decoded and encoded to itself. -/
theorem text_untext {kind : VarKind} {raw : List UInt8} (h : kind = .string → utf8Valid raw = true) :
    text kind (untext kind raw) = .ok raw := by
  cases kind with
  | bytes => rfl
  | string =>
    have hsome : (decodeStr raw).isSome = true := (decodeStr_valid raw).trans (h rfl)
    obtain ⟨cs, hcs⟩ := Option.isSome_iff_exists.mp hsome
    show orFlaw .form (encodeStr ((decodeStr raw).getD [])) = _
    rw [hcs, Option.getD_some, encodeStr_decodeStr hcs]
    rfl

mutual

theorem elemValue_object : (e : Elem) → e.Sound → (v : e.Val) → ElemExact F e v →
    elemValue F e (elemObject F e v) = .ok v
  | .scalar k, _, v, h => bits_unbits k v h
  | .ref m, he, v, h => value_object m he.1 v h fun x hx => by
    rw [m.vars_of_fixed he.2 v] at hx
    cases hx

/-- The object of a value stands for it. -/
theorem value_object : (m : Laid) → Sound m → (v : m.Val) → Exact F m v →
    (∀ x ∈ m.vars v, x.1 = .string → utf8Valid x.2 = true) → value F m (object F m v) = .ok v
  | .mk _ fs _ _, hm, v, h, hvalid => fieldsValue_object fs hm.fit.sub v h hvalid

/-- Field by field, with the arrays item by item. -/
theorem fieldsValue_object : (fs : Fields) → (∀ x ∈ fs.slots, x.elem.Sound) → (v : fs.Val) →
    FieldsExact F fs v → (∀ x ∈ fs.vars v, x.1 = .string → utf8Valid x.2 = true) →
    fieldsValue F fs (fieldsObject F fs v) = .ok v
  | .nil, _, _, _, _ => rfl
  | .one _ e off rest, hsub, v, h, hvalid => pair_eq_ok.mpr
      ⟨elemValue_object e (hsub ⟨off, 1, e⟩ List.mem_cons_self) v.1 h.1,
        fieldsValue_object rest (fun x hx => hsub x (List.mem_cons_of_mem _ hx)) v.2 h.2 hvalid⟩
  | .array _ n e off rest, hsub, v, h, hvalid => pair_eq_ok.mpr
      ⟨tuple_ofFn fun i => elemValue_object e (hsub ⟨off, n, e⟩ List.mem_cons_self) (v.1 i) (h.1 i),
        fieldsValue_object rest (fun x hx => hsub x (List.mem_cons_of_mem _ hx)) v.2 h.2 hvalid⟩
  | .var _ kind rest, hsub, v, h, hvalid => pair_eq_ok.mpr
      ⟨text_untext (hvalid (kind, v.1) List.mem_cons_self),
        fieldsValue_object rest hsub v.2 h fun x hx => hvalid x (List.mem_cons_of_mem _ hx)⟩

end

/-! ### Python and Go -/

/-- The names that the classes of the module take. -/
def classNames (s : Schema) : List String := s.messages.map fun m => m.name

/-- The keywords that `check` accepts as the name of a message.  A module with such a class does not
    compile. -/
def keywords : List String := ["None", "True", "False"]

/-- **Python encodes as Go does**: for every message of an accepted schema in which no message is called
    `OverflowError` or like a keyword, and every object of its class, whatever numbers, lists and strings
    it holds, `encode` raises `ValueError` and nothing else if the object has no value or a field of it
    is too long, and returns the encoding otherwise; into a buffer of its size, `MarshalTo` puts the same
    bytes for the same value. -/
theorem py_encodes_as_go {s : Schema} {c : Checked} (h : check s = .ok c)
    (hnames : ∀ x ∈ "OverflowError" :: keywords, x ∉ classNames s) {i : Nat} {decl : Message}
    (hdecl : s.messages[i]? = some decl) (F : Floats) : ∃ m, c.msg i = some m ∧
      m.name = decl.name ∧ m.fields.declared = decl.fields.map (fun f => (f.name, f.type.bare)) ∧
      ∀ o : MessageObj m,
        (∀ f, value F m o = .error f → encode (classNames s) F m o = .error .value) ∧
        ∀ v, value F m o = .ok v →
          encode (classNames s) F m o = (if Short m v then .ok (m.encode v) else .error .value) ∧
          ∀ b : Slice, b.bytes.length = m.encodedSize v → Go.marshalTo m v b =
            some (if Short m v then ((m.encodedSize v : Int), m.encode v) else (0, b.bytes)) := by
  obtain ⟨m, hmsg, hname, hdeclared, hm⟩ := check_sound h hdecl
  refine ⟨m, hmsg, hname, hdeclared, fun o => ⟨fun f hf => ?_, fun v hv => ⟨?_, fun b hb => ?_⟩⟩⟩
  · obtain ⟨e, he, hvalue⟩ := encode_flaw (classNames s) m hm hf
    rw [he, hvalue (hnames _ List.mem_cons_self)]
  · exact encode_value (classNames s) m hm hv
  · rw [Go.marshalTo_eq hm (hb ▸ b.fits) b, encoded]
    by_cases hshort : Short m v
    · rw [if_pos hshort, if_pos ⟨hshort, hb.ge⟩, List.drop_eq_nil_of_le hb.le, List.append_nil]
    · rw [if_neg hshort, if_neg fun h => hshort h.1]
      rfl

/-- Floating-point numbers of no importance. -/
def noFloats : Floats := ⟨fun _ => none, fun _ => C.cast 8 0⟩

theorem sound_note : Sound note := by
  obtain ⟨c, hc, hmsg⟩ := Go.check_notes
  obtain ⟨m, hm, -, -, hsound⟩ := check_sound hc (i := 1) rfl
  obtain rfl : m = note := Option.some_inj.mp (hm.symm.trans hmsg)
  exact hsound

theorem exact_noteVal : Exact noFloats note noteVal :=
  ⟨fun _ => ⟨trivial, trivial, trivial⟩, trivial, trivial⟩

/-- A note whose count does not fit eight bytes. -/
def bigNote : MessageObj note :=
  show List (Bool × Int × Unit) × Int × List CodePoint × List UInt8 × Unit from
    ([(true, -1, ()), (false, 5, ())], 2 ^ 64, [], [], ())

theorem py_encodes_notes : ∃ c, check notes = .ok c ∧ c.msg 1 = some note ∧
    encode (classNames notes) noFloats note bigNote = .error .value ∧
    encode (classNames notes) noFloats note (object noFloats note noteVal) =
      .ok (note.encode noteVal) := by
  obtain ⟨c, hc, hmsg⟩ := Go.check_notes
  obtain ⟨m, hm, -, -, hencode⟩ := py_encodes_as_go hc (by decide) (i := 1) rfl noFloats
  obtain rfl : m = note := Option.some_inj.mp (hm.symm.trans hmsg)
  have hvalue : value noFloats note (object noFloats note noteVal) = .ok noteVal :=
    value_object note sound_note noteVal exact_noteVal fun x hx => (Go.encodable_noteVal x hx).2
  have hshort : Short note noteVal := Go.encodable_noteVal.short
  refine ⟨c, hc, hm, (hencode bigNote).1 .range rfl, ?_⟩
  rw [((hencode _).2 noteVal hvalue).1, if_pos hshort]

/-- **Python decodes as Go does**: for every message of an accepted schema in which no message is called
    `UnicodeDecodeError` or like a keyword, and every input, `decode` raises `ValueError` exactly if
    `UnmarshalBinary` has an error, raises nothing else, and returns the object of the same value
    otherwise. -/
theorem py_decodes_as_go {s : Schema} {c : Checked} (h : check s = .ok c)
    (hnames : ∀ x ∈ "UnicodeDecodeError" :: keywords, x ∉ classNames s) {i : Nat} {decl : Message}
    (hdecl : s.messages[i]? = some decl) (F : Floats) : ∃ m, c.msg i = some m ∧
      m.name = decl.name ∧ m.fields.declared = decl.fields.map (fun f => (f.name, f.type.bare)) ∧
      ∀ (b : Slice) (recv : m.Val), decode (classNames s) F m b.bytes =
        match Go.unmarshalBinary m recv b with
        | (none, v) => .ok (object F m v)
        | (some _, _) => .error .value := by
  obtain ⟨m, hmsg, hname, hdeclared, hm⟩ := check_sound h hdecl
  refine ⟨m, hmsg, hname, hdeclared, fun b recv => ?_⟩
  have hraised : ∀ f, raised (classNames s) f = .value := by
    rintro (e | _)
    · cases e with
      | utf8 => exact if_neg (hnames _ List.mem_cons_self)
      | _ => rfl
    · rfl
  rw [decode_eq m hm, Go.unmarshalBinary, Go.decode_eq hm b]
  cases m.decode b.bytes with
  | error f => exact congrArg Except.error (hraised f)
  | ok v => rfl

/-- A bool of 2 in the array. -/
theorem py_decodes_notes : ∃ c, check notes = .ok c ∧ c.msg 1 = some note ∧
    ∀ b : Slice, b.bytes = List.replicate 8 0 ++ 2 :: List.replicate 15 0 →
      decode (classNames notes) noFloats note b.bytes = .error .value := by
  obtain ⟨c, hc, hmsg⟩ := Go.check_notes
  obtain ⟨m, hm, -, -, hdecode⟩ := py_decodes_as_go hc (by decide) (i := 1) rfl noFloats
  obtain rfl : m = note := Option.some_inj.mp (hm.symm.trans hmsg)
  refine ⟨c, hc, hm, fun b hb => ?_⟩
  have hbool : Go.unmarshalBinary note noteVal b = (some (.error .bool), noteVal) := by
    unfold Go.unmarshalBinary
    rw [hb]
    rfl
  rw [hdecode b noteVal, hbool]

/-- **Messages pass between Python and Go**: what Python encodes, Go decodes to the value of the object,
    and Python to the object of that value; and what Python decodes and encodes again has the value
    that Go finds in the input, if its single-precision numbers survive. -/
theorem py_relays {s : Schema} {c : Checked} (h : check s = .ok c) {i : Nat} {decl : Message}
    (hdecl : s.messages[i]? = some decl) (F : Floats) : ∃ m, c.msg i = some m ∧
      m.name = decl.name ∧ m.fields.declared = decl.fields.map (fun f => (f.name, f.type.bare)) ∧
      (∀ (o : MessageObj m) (b : Slice), encode (classNames s) F m o = .ok b.bytes →
        ∃ v, value F m o = .ok v ∧ (∀ recv, Go.unmarshalBinary m recv b = (none, v)) ∧
          decode (classNames s) F m b.bytes = .ok (object F m v)) ∧
      ∀ (b : Slice) (o : MessageObj m), decode (classNames s) F m b.bytes = .ok o → ∃ v,
        (∀ recv, Go.unmarshalBinary m recv b = (none, v)) ∧
        (Exact F m v → value F m o = .ok v ∧ ∃ enc, encode (classNames s) F m o = .ok enc ∧
          ∀ b' : Slice, b'.bytes = enc → ∀ recv, Go.unmarshalBinary m recv b' = (none, v)) := by
  obtain ⟨m, hmsg, hname, hdeclared, hm⟩ := check_sound h hdecl
  have back : ∀ (b : Slice) (v : m.Val), m.decode b.bytes = .ok v →
      ∀ recv, Go.unmarshalBinary m recv b = (none, v) := by
    intro b v hv recv
    rw [Go.unmarshalBinary, Go.decode_eq hm b, hv]
  refine ⟨m, hmsg, hname, hdeclared, fun o b ho => ?_, fun b o ho => ?_⟩
  · cases hv : value F m o with
    -- an object without a value is refused
    | error f =>
      obtain ⟨e, he, -⟩ := encode_flaw (classNames s) m hm hv
      rw [he] at ho
      cases ho
    | ok v =>
      rw [encode_value (classNames s) m hm hv] at ho
      split_ifs at ho with hshort
      have henc : m.encode v = b.bytes := Except.ok.inj ho
      have hdec : m.decode b.bytes = .ok v :=
        henc ▸ Laid.decode_encode hm (encodable_of_value m hv hshort)
      refine ⟨v, rfl, back b v hdec, ?_⟩
      rw [decode_eq m hm, hdec]
      rfl
  · rw [decode_eq m hm] at ho
    cases hdec : m.decode b.bytes with
    | error f =>
      rw [hdec] at ho
      cases ho
    | ok v =>
      rw [hdec] at ho
      obtain rfl : object F m v = o := Except.ok.inj ho
      obtain ⟨-, -, -, hencodable⟩ := Laid.decode_ok hm hdec
      refine ⟨v, back b v hdec, fun hexact => ?_⟩
      have hvalue : value F m (object F m v) = .ok v :=
        value_object m hm v hexact fun x hx => (hencodable x hx).2
      refine ⟨hvalue, m.encode v, ?_, fun b' hb' => back b' v ?_⟩
      · rw [encode_value (classNames s) m hm hvalue]
        exact if_pos fun x hx => (hencodable x hx).1
      · rw [hb']
        exact Laid.decode_encode hm hencodable

theorem py_relays_notes : ∃ c, check notes = .ok c ∧ c.msg 1 = some note ∧
    ∀ b : Slice, b.bytes = note.encode noteVal →
      decode (classNames notes) noFloats note b.bytes = .ok (object noFloats note noteVal) ∧
      ∃ enc, encode (classNames notes) noFloats note (object noFloats note noteVal) = .ok enc ∧
        ∀ b' : Slice, b'.bytes = enc → ∀ recv, Go.unmarshalBinary note recv b' = (none, noteVal) := by
  obtain ⟨c, hc, hmsg⟩ := Go.check_notes
  obtain ⟨m, hm, -, -, -, hrelay⟩ := py_relays hc (i := 1) rfl noFloats
  obtain rfl : m = note := Option.some_inj.mp (hm.symm.trans hmsg)
  refine ⟨c, hc, hm, fun b hb => ?_⟩
  have hdec : note.decode b.bytes = .ok noteVal :=
    hb ▸ Laid.decode_encode sound_note Go.encodable_noteVal
  have hobj : decode (classNames notes) noFloats note b.bytes = .ok (object noFloats note noteVal) := by
    rw [decode_eq note sound_note, hdec]
    rfl
  obtain ⟨v, hgo, hback⟩ := hrelay b _ hobj
  have hv := hgo noteVal
  rw [Go.unmarshalBinary, Go.decode_eq sound_note b, hdec] at hv
  cases hv
  exact ⟨hobj, (hback exact_noteVal).2⟩

end GoIpc.Codec.Py
