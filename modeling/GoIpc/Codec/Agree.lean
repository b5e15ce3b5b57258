import GoIpc.Codec.C
import GoIpc.Codec.Ref

namespace GoIpc.Codec

open GoIpc.Lib GoIpc.Schema
open GoIpc.Codec.Go (Slice notes note noteVal)

/-!
# Agreement of the codecs

Generated Go code, generated C code and the reference codec, each shown to do what `Laid.encode` and
`Laid.decode` say, do the same.

* `encoders_agree` — the three encoders write the same bytes;
* `decoders_agree` — the three decoders accept the same inputs, with the same errors for the others.
-/

/-! ### Encoders -/

/-- **The encoders agree**: for every message of an accepted schema and every value whose encoding a
    slice can hold, generated Go and C code and the reference codec write the same bytes. -/
theorem encoders_agree {s : Schema} {c : Checked} (h : check s = .ok c) {i : Nat} {decl : Message}
    (hdecl : s.messages[i]? = some decl) (F : Ref.Floats) : ∃ m, c.msg i = some m ∧
      m.name = decl.name ∧ m.fields.declared = decl.fields.map (fun f => (f.name, f.type.bare)) ∧
      ∀ v, m.Encodable v → m.encodedSize v < 2 ^ 63 → ∃ enc : List UInt8,
        enc.length = m.fixedSize + ((m.vars v).map fun x => 4 + x.2.length).sum ∧
        (∀ b : Slice, enc.length ≤ b.bytes.length →
          Go.marshalTo m v b = some ((enc.length : Int), enc ++ b.bytes.drop enc.length)) ∧
        C.size m v = enc.length ∧
        (∀ b : List UInt8, b.length < 2 ^ 64 → C.size m v ≤ b.length →
          C.encode m v b = some (enc.length, enc ++ b.drop enc.length)) ∧
        ∀ j, Ref.Denotes F m v j → Ref.encode F m j = .ok enc := by
  obtain ⟨m, hmsg, hname, hdeclared, hm⟩ := check_sound h hdecl
  refine ⟨m, hmsg, hname, hdeclared, fun v hv hfits => ?_⟩
  have hmax : m.encodedSize v < C.sizeMax := hfits.trans (by decide)
  refine ⟨m.encode v, m.length_encode v, fun b hb => ?_, ?_, fun b hb hcap => ?_,
    fun j hj => Ref.encode_eq hm hv hj⟩
  · rw [m.length_encode] at hb ⊢
    rw [Go.marshalTo_eq hm hfits b, encoded, if_pos ⟨hv.short, hb⟩]
  · rw [m.length_encode]
    exact C.size_eq hv hmax.le
  · rw [m.length_encode]
    exact C.encode_eq hm hv hmax hb hcap

/-- `noteVal` in JSON. -/
def noteJson : Ref.Json :=
  .object [("count", .string [55]),
    ("dots", .array [.object [("on", .bool true), ("x", .number [45, 49])],
      .object [("x", .number [53]), ("on", .bool false)]]),
    ("title", .string [104, 105]), ("data", .string [102, 102])]

def noFloats : Ref.Floats := ⟨fun _ => none, fun _ => C.cast 4 0, fun _ => C.cast 8 0, fun _ _ => false⟩

theorem denotes_noteJson : Ref.Denotes noFloats note noteVal noteJson := by
  have hone : Ref.Decimal ['1'] 1 := ⟨by decide, [1], .cons (by decide) .nil, rfl⟩
  have hfive : Ref.Decimal ['5'] 5 := ⟨by decide, [5], .cons (by decide) .nil, rfl⟩
  have hseven : Ref.Decimal ['7'] 7 := ⟨by decide, [7], .cons (by decide) .nil, rfl⟩
  have hfirst : Ref.ElemDenotes noFloats (.ref Go.dot) (noteVal.1 0)
      (.object [("on", .bool true), ("x", .number [45, 49])]) := by
    refine ⟨_, rfl, by decide, ⟨_, rfl, rfl⟩, ⟨_, rfl, [45, 49], ⟨-1, .minus hone, ?_⟩, rfl⟩, trivial⟩
    decide
  have hsecond : Ref.ElemDenotes noFloats (.ref Go.dot) (noteVal.1 1)
      (.object [("x", .number [53]), ("on", .bool false)]) := by
    refine ⟨_, rfl, by decide, ⟨_, rfl, rfl⟩, ⟨_, rfl, [53], ⟨5, .plain hfive, ?_⟩, rfl⟩, trivial⟩
    decide
  refine ⟨_, rfl, by decide, ⟨_, rfl, rfl, fun i => ?_⟩, ⟨_, rfl, [55], hseven, rfl⟩, rfl, rfl, trivial⟩
  match i with
  | 0 => exact hfirst
  | 1 => exact hsecond

theorem encoders_agree_notes : ∃ c, check notes = .ok c ∧ c.msg 1 = some note ∧
    ∃ enc : List UInt8, enc.length = 35 ∧
      (∀ b : Slice, 35 ≤ b.bytes.length →
        Go.marshalTo note noteVal b = some (35, enc ++ b.bytes.drop 35)) ∧
      C.encode note noteVal (List.replicate 40 170) = some (35, enc ++ List.replicate 5 170) ∧
      Ref.encode noFloats note noteJson = .ok enc := by
  obtain ⟨c, hc, hmsg⟩ := Go.check_notes
  obtain ⟨m, hm, -, -, hagree⟩ := encoders_agree hc (i := 1) rfl noFloats
  obtain rfl : m = note := Option.some_inj.mp (hm.symm.trans hmsg)
  obtain ⟨enc, hlen, hgo, hsize, hencode, href⟩ :=
    hagree noteVal Go.encodable_noteVal (by decide)
  have hlen : enc.length = 35 := hlen
  rw [hlen] at hgo hsize hencode
  exact ⟨c, hc, hm, enc, hlen, hgo, hencode _ (by decide) (by rw [hsize]; decide),
    href noteJson denotes_noteJson⟩

/-! ### Decoders -/

/-- An error of `Laid.decode` is one of the five. -/
theorem decode_cases (m : Laid) (b : List UInt8) : ∃ r : Except DecodeError m.Val,
    m.decode b = r.mapError .error := by
  cases hdecode : m.decode b with
  | ok v => exact ⟨.ok v, rfl⟩
  | error f =>
    cases f with
    | error e => exact ⟨.error e, rfl⟩
    | outside => exact absurd rfl (Laid.decode_error hdecode)

/-- **The decoders agree**: for every message of an accepted schema and every input, generated Go and C
    code and the reference codec accept it alike or fail with the same error, without an access outside
    it.  In an accepted input the fixed section is there, every bool in it is 0 or 1, and the rest is
    string and bytes fields that all fit, with UTF-8 where it must be, and nothing after them. -/
theorem decoders_agree {s : Schema} {c : Checked} (h : check s = .ok c) {i : Nat} {decl : Message}
    (hdecl : s.messages[i]? = some decl) : ∃ m, c.msg i = some m ∧
      m.name = decl.name ∧ m.fields.declared = decl.fields.map (fun f => (f.name, f.type.bare)) ∧
      ∀ b : Slice, ∃ r : Except DecodeError m.Val,
        (∀ recv, Go.unmarshalBinary m recv b =
          match r with
          | .ok v => (none, v)
          | .error e => (some (.error e), recv)) ∧
        C.decode m b.bytes = r.mapError .error ∧
        Ref.decode m b.bytes = (r.map fun _ => ()).mapError .error ∧
        ∀ v, r = .ok v → m.fixedSize ≤ b.bytes.length ∧
          (∀ off, Contains m off (.scalar .bool) → ∃ x, b.bytes[off]? = some x ∧ x ≤ 1) ∧
          b.bytes.drop m.fixedSize = varBytes (m.vars v) ∧ m.Encodable v := by
  obtain ⟨m, hmsg, hname, hdeclared, hm⟩ := check_sound h hdecl
  refine ⟨m, hmsg, hname, hdeclared, fun b => ?_⟩
  obtain ⟨r, hr⟩ := decode_cases m b.bytes
  have hb : b.bytes.length < 2 ^ 64 := b.fits.trans (by decide)
  refine ⟨r, fun recv => ?_, (C.decode_eq hm hb).trans hr, ?_, ?_⟩
  · rw [Go.unmarshalBinary, Go.decode_eq hm b, hr]
    cases r <;> rfl
  · rw [Ref.decode_eq hm hb, hr]
    cases r <;> rfl
  · rintro v rfl
    exact Laid.decode_ok hm hr

/-- A bool of the second element of the array is 2. -/
theorem decoders_agree_notes : ∃ c, check notes = .ok c ∧ c.msg 1 = some note ∧
    ∀ b : Slice, b.bytes = List.replicate 8 0 ++ 2 :: List.replicate 15 0 →
      (∀ recv, Go.unmarshalBinary note recv b = (some (.error .bool), recv)) ∧
      C.decode note b.bytes = .error (.error .bool) ∧
      Ref.decode note b.bytes = .error (.error .bool) := by
  obtain ⟨c, hc, hmsg⟩ := Go.check_notes
  obtain ⟨m, hm, -, -, hagree⟩ := decoders_agree hc (i := 1) rfl
  obtain rfl : m = note := Option.some_inj.mp (hm.symm.trans hmsg)
  refine ⟨c, hc, hm, fun b hb => ?_⟩
  obtain ⟨r, hgo, hC, href, -⟩ := hagree b
  have hbool : C.decode note b.bytes = .error (.error .bool) := by
    rw [hb]
    rfl
  cases r with
  | ok v =>
    rw [hC] at hbool
    cases hbool
  | error e =>
    rw [hC] at hbool
    cases hbool
    exact ⟨hgo, hC, href⟩

end GoIpc.Codec
