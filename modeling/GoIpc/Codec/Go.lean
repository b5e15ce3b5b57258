import GoIpc.Codec.Tail

namespace GoIpc.Codec.Go

open GoIpc.Lib GoIpc.Schema

/-!
# Generated Go code

What the methods that the Go generator writes for a message do.  A slice is a list of bytes; the
sub-slices of one buffer are the same list at an offset, so an index is the sum of the offsets on the way.

* `put`, `get` — the statements that `access` writes for a scalar;
* `marshalTo`, `unmarshalBinary` — the methods of a message;
* `marshalTo_eq` — `marshalTo` writes the encoding and leaves the rest of the buffer alone, or fails and
  leaves all of it;
* `decode_eq` — `unmarshalBinary` reads any input as `Laid.decode` does.
-/

/-! ### The generated code -/

/-- A slice: its length is a Go `int`. -/
structure Slice where
  bytes : List UInt8
  fits : bytes.length < 2 ^ 63

/-- The conversion of a Go `int` to `uint64`. -/
def u64 (x : Int) : Nat := (x % 2 ^ 64).toNat

def setByte : List UInt8 → Nat → UInt8 → Option (List UInt8) := Lib.setByte none

/-- `binary.LittleEndian.PutUint16` and its likes, which check the last index first. -/
def putUint (n : Nat) (b : List UInt8) (p v : Nat) : Option (List UInt8) :=
  if p + n ≤ b.length then some (b.take p ++ leBytes n v ++ b.drop (p + n)) else none

/-- What `access` writes to store a scalar.  A false bool stores nothing. -/
def put (k : Scalar) (v : Fin k.bound) (p : Nat) (b : List UInt8) : Option (List UInt8) :=
  if k = .bool then if v.val = 1 then setByte b p 1 else some b
  else if k.size = 1 then setByte b p (UInt8.ofNat v)
  else putUint k.size b p v

/-- The slice `b[p:]`. -/
def slice : Nat → List UInt8 → Option Unit := sliceFrom none

/-- `ipcgenPut` -/
def writer : Writer := ⟨put, slice⟩

def getByte (p : Nat) (b : List UInt8) : Except Fault (Fin (256 ^ 1)) :=
  match b[p]? with
  | some x => .ok ⟨x.toNat, x.toNat_lt⟩
  | none => .error .outside

def getUint (n p : Nat) (b : List UInt8) : Except Fault (Fin (256 ^ n)) :=
  if h : p + n ≤ b.length then
    .ok ⟨leNat ((b.drop p).take n), by
      have := leNat_lt ((b.drop p).take n)
      rwa [List.length_take, List.length_drop, Nat.min_eq_left (by omega)] at this⟩
  else .error .outside

/-- What `access` writes to load a scalar. -/
def get : (k : Scalar) → Nat → List UInt8 → Except Fault (Fin k.bound)
  | .bool, p, b =>
      match b[p]? with
      | some x => if x > 1 then .error (.error .bool) else .ok (if x = 1 then ⟨1, Nat.one_lt_two⟩ else ⟨0, Nat.zero_lt_two⟩)
      | none => .error .outside
  | .u8, p, b | .i8, p, b => getByte p b
  | .u16, p, b | .i16, p, b => getUint 2 p b
  | .u32, p, b | .i32, p, b | .f32, p, b => getUint 4 p b
  | .u64, p, b | .i64, p, b | .f64, p, b => getUint 8 p b

/-- `ipcgenGet` -/
def reader : Reader :=
  ⟨get, fun p b => if p ≤ b.length then .ok () else .error .outside⟩

/-- `Size`, in 64-bit arithmetic. -/
def size (m : Laid) (v : m.Val) : Int := Int.bmod (m.encodedSize v) (2 ^ 64)

/-- `ipcgenFits` -/
def fits (n : Nat) : Bool := u64 n ≤ 0xFFFFFFFF

/-- `ipcgenPutVar` -/
def putVar (b : List UInt8) (off : Nat) (x : List UInt8) : Option (List UInt8 × Nat) := do
  let b ← putUint 4 b off (x.length % 2 ^ 32)
  slice (off + 4) b
  let n := min (b.length - (off + 4)) x.length
  return (b.take (off + 4) ++ x.take n ++ b.drop (off + 4 + n), off + 4 + n)

/-- `ipcgenMarshal`: the count it returns, and the buffer. -/
def marshal (m : Laid) (v : m.Val) (b : List UInt8) : Option (Int × List UInt8) :=
  if (m.vars v).any (fun x => !fits x.2.length) then some (0, b)
  else if (b.length : Int) < size m v then some (0, b)
  else do
    slice m.fixedSize b
    let b := List.replicate m.fixedSize 0 ++ b.drop m.fixedSize
    let b ← m.putWith writer v 0 b
    if m.fields.fixed then return ((m.fixedSize : Int), b)
    else
      let (b, off) ← (m.vars v).foldlM (fun s x => putVar s.1 s.2 x.2) (b, m.fixedSize)
      return ((off : Int), b)

def marshalTo (m : Laid) (v : m.Val) (b : Slice) : Option (Int × List UInt8) := marshal m v b.bytes

/-- `ipcgenGetVar` -/
def getVar (b : List UInt8) (off : Nat) : Except Fault (List UInt8 × Nat) :=
  if (b.length : Int) - off < 4 then .error (.error .length)
  else do
    let n ← getUint 4 off b
    let off := off + 4
    if u64 ((b.length : Int) - off) < n.val then .error (.error .length)
    else if off + n.val ≤ b.length then .ok ((b.drop off).take n.val, off + n.val)
    else .error .outside

/-- The value that `UnmarshalBinary` builds. -/
def decode (m : Laid) (b : List UInt8) : Except Fault m.Val :=
  if b.length < m.fixedSize then .error (.error .short)
  else do
    let v ← m.getWith reader 0 b
    let (v, off) ← m.getVarsWith getVar utf8Valid v b m.fixedSize
    if off ≠ b.length then .error (.error .trailing) else return v

/-- `UnmarshalBinary`: its error, and the receiver afterwards. -/
def unmarshalBinary (m : Laid) (recv : m.Val) (b : Slice) : Option Fault × m.Val :=
  match decode m b.bytes with
  | .ok v => (none, v)
  | .error f => (some f, recv)

/-! ### Scalars -/

theorem writer_lawful : writer.Lawful where
  scalar {k v p b} hlen hzero := by
    show put k v p b = _
    unfold put
    split_ifs with hbool hone hsize
    · subst hbool
      rw [setByte, setByte_eq (by have : Scalar.size .bool = 1 := rfl; omega), hone]
      rfl
    · subst hbool
      have hval : v.val = 0 := by
        have : v.val < 2 := v.isLt
        omega
      have hp := hzero p le_rfl (Nat.lt_add_one p)
      have hset : writes [(p, 0)] b = b := by
        obtain ⟨hlt, hget⟩ := List.getElem?_eq_some_iff.mp hp
        show b.set p 0 = b
        rw [← hget, List.set_getElem_self]
      rw [hval]
      exact congrArg some hset.symm
    · rw [setByte, setByte_eq (by omega), hsize]
      rfl
    · have hlen' : p + (leBytes k.size v).length ≤ b.length := by rwa [length_leBytes]
      rw [putUint, if_pos hlen, writes_storesAt hlen', length_leBytes]
  enter {p b} h := if_pos h

theorem getUint_eq {n p : Nat} {b : List UInt8} (h : p + n ≤ b.length) :
    ∃ hlt, getUint n p b = .ok ⟨leNat ((b.drop p).take n), hlt⟩ := by
  unfold getUint
  rw [dif_pos h]
  exact ⟨_, rfl⟩

theorem getByte_eq {p : Nat} {b : List UInt8} (h : p < b.length) :
    ∃ hlt, getByte p b = .ok ⟨leNat ((b.drop p).take 1), hlt⟩ := by
  have hnat : leNat ((b.drop p).take 1) = b[p].toNat := by
    rw [take_one_drop h]
    rfl
  refine ⟨by rw [hnat]; exact b[p].toNat_lt, ?_⟩
  rw [getByte, List.getElem?_eq_getElem h]
  exact congrArg Except.ok (Fin.ext hnat.symm)

theorem reader_lawful : reader.Lawful where
  scalar {k p b} hlen := by
    show get k p b = loadBits k p b
    cases k with
    | bool =>
      have hp : p < b.length := hlen
      rw [loadBits_bool hp, get, List.getElem?_eq_getElem hp]
    | u8 =>
      obtain ⟨hlt, heq⟩ := getByte_eq hlen
      exact heq.trans (loadBits_of_lt (k := .u8) hlt).symm
    | i8 =>
      obtain ⟨hlt, heq⟩ := getByte_eq hlen
      exact heq.trans (loadBits_of_lt (k := .i8) hlt).symm
    | u16 | i16 | u32 | i32 | f32 | u64 | i64 | f64 =>
      obtain ⟨hlt, heq⟩ := getUint_eq hlen
      exact heq.trans (loadBits_of_lt hlt).symm
  enter {p b} h := if_pos h

/-! ### Encoding -/

theorem putVar_eq (pre tail : List UInt8) {x : List UInt8} (hx : x.length < 2 ^ 32)
    (htail : 4 + x.length ≤ tail.length) :
    putVar (pre ++ tail) pre.length x =
      some (pre ++ (leBytes 4 x.length ++ x) ++ tail.drop (4 + x.length),
        pre.length + (4 + x.length)) := by
  have hput : putUint 4 (pre ++ tail) pre.length (x.length % 2 ^ 32) =
      some (pre ++ leBytes 4 x.length ++ tail.drop 4) := by
    rw [putUint, if_pos (by rw [List.length_append]; omega), Nat.mod_eq_of_lt hx, List.take_left,
      ← List.drop_drop, List.drop_left]
  have hlen : (pre ++ leBytes 4 x.length ++ tail.drop 4).length = pre.length + tail.length := by
    simp only [List.length_append, length_leBytes, List.length_drop]
    omega
  have hpre : (pre ++ leBytes 4 x.length).length = pre.length + 4 := by
    rw [List.length_append, length_leBytes]
  have hmin : min ((pre ++ leBytes 4 x.length ++ tail.drop 4).length - (pre.length + 4)) x.length =
      x.length := by
    rw [hlen]
    omega
  unfold putVar
  rw [hput, Option.bind_eq_bind, Option.bind_some, slice, sliceFrom_eq (by rw [hlen]; omega)]
  show some _ = _
  rw [hmin, List.take_length, List.take_left' hpre, ← List.drop_drop, List.drop_left' hpre,
    List.drop_drop]
  simp only [List.append_assoc, Nat.add_assoc]

theorem size_eq {m : Laid} {v : m.Val} (h : m.encodedSize v < 2 ^ 63) :
    size m v = m.encodedSize v := by
  unfold size
  rw [Int.bmod_eq_of_le (by omega) (by omega)]

/-- **Encoding**, for every value and every buffer. -/
theorem marshalTo_eq {m : Laid} (hm : Sound m) {v : m.Val} (hsize : m.encodedSize v < 2 ^ 63)
    (b : Slice) : marshalTo m v b = some (((encoded m v b.bytes).1 : Int), (encoded m v b.bytes).2) := by
  have hlen := b.fits
  have hfits : ∀ x ∈ m.vars v, fits x.2.length = decide (x.2.length < 2 ^ 32) := by
    intro x hx
    have hle := length_le_encodedSize hx
    unfold fits u64
    rw [decide_eq_decide]
    omega
  unfold marshalTo marshal encoded
  rw [any_unfit hfits, size_eq hsize]
  by_cases hv : Short m v
  · rw [decide_eq_true hv, if_neg (by simp)]
    by_cases hcap : m.encodedSize v ≤ b.bytes.length
    · have htotal := m.encodedSize_eq v
      have hvars := Laid.putVars_encode (fun pre tail _ _ => putVar_eq pre tail) hv hcap
      rw [if_neg (by omega), if_pos ⟨hv, hcap⟩, slice, sliceFrom_eq (by omega)]
      show (m.putWith writer v 0 _ >>= _) = _
      rw [Laid.putWith_zeroed writer_lawful hm v, Option.bind_eq_bind, Option.bind_some]
      split_ifs with hfixed
      · rw [m.vars_of_fixed hfixed v] at htotal
        rw [Laid.encode, m.vars_of_fixed hfixed v, htotal]
        simp [varBytes]
      · rw [hvars]
        rfl
    · rw [if_pos (by omega), if_neg fun h => hcap h.2]
      rfl
  · rw [decide_eq_false hv, if_pos (by simp), if_neg fun h => hv h.1]
    rfl

/-! ### Decoding -/

theorem getVar_eq {b : Slice} {off : Nat} (hoff : off ≤ b.bytes.length) :
    getVar b.bytes off = Schema.getVar b.bytes off := by
  have hfits := b.fits
  unfold getVar Schema.getVar
  by_cases h4 : b.bytes.length - off < 4
  · rw [if_pos (by omega), if_pos h4]
  · obtain ⟨hlt, hn⟩ := getUint_eq (n := 4) (p := off) (b := b.bytes) (by omega)
    rw [if_neg (by omega), if_neg h4, hn]
    show (if u64 _ < leNat _ then _ else _) = _
    have hu : u64 ((b.bytes.length : Int) - ((off + 4 : Nat) : Int)) = b.bytes.length - (off + 4) := by
      unfold u64
      omega
    rw [hu]
    simp only
    split_ifs with h1 h2
    · rfl
    · rfl
    · omega

/-- **Decoding**: `UnmarshalBinary` reads any input as `Laid.decode` does. -/
theorem decode_eq {m : Laid} (hm : Sound m) (b : Slice) : decode m b.bytes = m.decode b.bytes := by
  unfold decode Laid.decode
  split_ifs with hshort
  · rfl
  · rw [m.getWith_eq reader_lawful hm 0 b.bytes (by omega)]
    cases m.getWith plainReader 0 b.bytes with
    | error f => rfl
    | ok v =>
      show (m.getVarsWith getVar utf8Valid v b.bytes m.fixedSize >>= _) =
        (m.getVarsWith Schema.getVar utf8Valid v b.bytes m.fixedSize >>= _)
      rw [m.getVarsWith_eq (fun _ => getVar_eq) (fun _ => rfl) v (by omega)]

/-- An error leaves the receiver alone. -/
theorem unmarshalBinary_error {m : Laid} {recv : m.Val} {b : Slice}
    (h : (unmarshalBinary m recv b).1 ≠ none) : (unmarshalBinary m recv b).2 = recv := by
  unfold unmarshalBinary at h ⊢
  cases hdecode : decode m b.bytes with
  | ok v => simp [hdecode] at h
  | error f => rfl

/-- **Generated Go code round-trips**: for every message of an accepted schema and every value with an
    encoding, `MarshalTo` puts the same bytes, with zeros for padding, into every buffer that holds them and
    leaves the rest alone, and `UnmarshalBinary` gets the value back from them on any receiver.  An error
    of `UnmarshalBinary` leaves the receiver unchanged, whatever the input. -/
theorem marshal_round_trip {s : Schema} {c : Checked} (h : check s = .ok c) {i : Nat} {decl : Message}
    (hdecl : s.messages[i]? = some decl) : ∃ m, c.msg i = some m ∧ m.name = decl.name ∧
      m.fields.declared = decl.fields.map (fun f => (f.name, f.type.bare)) ∧
      (∀ v, m.Encodable v → ∃ enc : List UInt8, enc.length = m.encodedSize v ∧
        (∀ q, m.Padding q → enc[q]? = some 0) ∧
        (∀ b : Slice, m.encodedSize v ≤ b.bytes.length → size m v = m.encodedSize v ∧
          marshalTo m v b = some (size m v, enc ++ b.bytes.drop (m.encodedSize v))) ∧
        ∀ b : Slice, b.bytes = enc → ∀ recv, unmarshalBinary m recv b = (none, v)) ∧
      ∀ recv b, (unmarshalBinary m recv b).1 ≠ none → (unmarshalBinary m recv b).2 = recv := by
  obtain ⟨m, hmsg, hname, hdeclared, hm⟩ := check_sound h hdecl
  refine ⟨m, hmsg, hname, hdeclared, fun v hv => ?_, fun recv b => unmarshalBinary_error⟩
  refine ⟨m.encode v, m.length_encode v, fun q => m.encode_padding v, fun b hb => ?_, fun b hb recv => ?_⟩
  · have hsize := size_eq (m := m) (v := v) (by have := b.fits; omega)
    rw [hsize, marshalTo_eq hm (by have := b.fits; omega) b, encoded, if_pos ⟨hv.short, hb⟩]
    exact ⟨rfl, rfl⟩
  · unfold unmarshalBinary
    rw [decode_eq hm b, hb, Laid.decode_encode hm hv]

/-- A message with an array of messages, a number, a string and bytes. -/
def notes : Schema :=
  ⟨"notes.ipc", "notes", ⟨1, 9⟩,
    [⟨"Dot", 1, [⟨"on", .scalar .bool ⟨3, 5⟩, ⟨3, 2⟩⟩, ⟨"x", .scalar .i32 ⟨4, 4⟩, ⟨4, 2⟩⟩], ⟨2, 9⟩, ⟨2, 15⟩⟩,
      ⟨"Note", 2, [⟨"dots", .array 2 (.ref "Dot" ⟨7, 10⟩) ⟨7, 7⟩, ⟨7, 2⟩⟩,
        ⟨"count", .scalar .u64 ⟨8, 8⟩, ⟨8, 2⟩⟩, ⟨"title", .string ⟨9, 8⟩, ⟨9, 2⟩⟩,
        ⟨"data", .bytes ⟨10, 7⟩, ⟨10, 2⟩⟩], ⟨6, 9⟩, ⟨6, 16⟩⟩]⟩

def dot : Laid := .mk "Dot" (.one "on" (.scalar .bool) 0 (.one "x" (.scalar .i32) 4 .nil)) 8 4

def note : Laid :=
  .mk "Note" (.array "dots" 2 (.ref dot) 0 (.one "count" (.scalar .u64) 16
    (.var "title" .string (.var "data" .bytes .nil)))) 24 8

theorem check_notes : ∃ c, check notes = .ok c ∧ c.msg 1 = some note := by
  have h : (match check notes with
      | .ok c => decide (c.msg 1 = some note)
      | .error _ => false) = true := by decide +kernel
  split at h
  · next c hc => exact ⟨c, hc, of_decide_eq_true h⟩
  · cases h

def noteVal : note.Val :=
  show (Fin 2 → Fin 2 × Fin (256 ^ 4) × Unit) × Fin (256 ^ 8) × List UInt8 × List UInt8 × Unit from
    (fun i => (i.rev, if i.val = 0 then 0xFFFFFFFF else 5, ()), 7, [104, 105], [255], ())

theorem encodable_noteVal : note.Encodable noteVal := by
  have hutf8 : utf8Valid [104, 105] = true := by
    rw [utf8Valid_cons (r := 104) (w := 1) rfl, List.drop_one, List.tail_cons,
      utf8Valid_cons (r := 105) (w := 1) rfl, List.drop_one, List.tail_cons, utf8Valid]
  intro x hx
  have hx : x ∈ [(VarKind.string, [104, 105]), (VarKind.bytes, [255])] := hx
  simp only [List.mem_cons, List.not_mem_nil, or_false] at hx
  rcases hx with rfl | rfl
  · exact ⟨by decide, fun _ => hutf8⟩
  · exact ⟨by decide, by simp⟩

theorem marshal_round_trip_notes : ∃ c, check notes = .ok c ∧ c.msg 1 = some note ∧
    ∃ enc : List UInt8, enc.length = 35 ∧ (∀ q, note.Padding q → enc[q]? = some 0) ∧
      (∀ b : Slice, 35 ≤ b.bytes.length →
        marshalTo note noteVal b = some (35, enc ++ b.bytes.drop 35)) ∧
      ∀ b : Slice, b.bytes = enc → ∀ recv, unmarshalBinary note recv b = (none, noteVal) := by
  obtain ⟨c, hc, hmsg⟩ := check_notes
  obtain ⟨m, hm, -, -, hround, -⟩ := marshal_round_trip hc (i := 1) rfl
  obtain rfl : m = note := Option.some_inj.mp (hm.symm.trans hmsg)
  obtain ⟨enc, hlen, hpadding, hmarshal, hunmarshal⟩ := hround noteVal encodable_noteVal
  have hsize : note.encodedSize noteVal = 35 := rfl
  refine ⟨c, hc, hm, enc, hlen.trans hsize, hpadding, fun b hb => ?_, hunmarshal⟩
  obtain ⟨hn, heq⟩ := hmarshal b (hsize ▸ hb)
  rw [heq, hn, hsize]
  rfl

end GoIpc.Codec.Go
