import GoIpc.Codec.Walk
import Mathlib.Algebra.Order.BigOperators.Group.List
import GoIpc.Lib.Utf8

namespace GoIpc.Schema

open GoIpc.Lib

/-!
# String and bytes fields, and whole messages

After the fixed section come the string and bytes fields, each with its length in four bytes.

* `Laid.encode` — the bytes of a value;
* `getVar`, `Fields.getVarsWith` — one field and all of them, with the primitives of one language as
  parameters;
* `Laid.decode` — what the bytes of a message are, for any decoder: `decode_encode` reads an encoded value
  back, and `decode_ok` says what the bytes of an accepted message look like.
-/

/-! ### Encoding -/

/-- The string and bytes fields, one after another. -/
def varBytes (vs : List (VarKind × List UInt8)) : List UInt8 :=
  vs.flatMap fun x => leBytes 4 x.2.length ++ x.2

/-- The bytes of a value. -/
def Laid.encode (m : Laid) (v : m.Val) : List UInt8 :=
  writes (m.plan v 0) (List.replicate m.fixedSize 0) ++ varBytes (m.vars v)

/-- The fixed section, and four bytes and the length for each string or bytes field. -/
def Laid.encodedSize (m : Laid) (v : m.Val) : Nat :=
  m.fixedSize + ((m.vars v).map fun x => 4 + x.2.length).sum

theorem length_varBytes (vs : List (VarKind × List UInt8)) :
    (varBytes vs).length = (vs.map fun x => 4 + x.2.length).sum := by
  simp [varBytes, List.length_flatMap]

theorem Laid.length_encode (m : Laid) (v : m.Val) : (m.encode v).length = m.encodedSize v := by
  rw [Laid.encode, List.length_append, length_writes, List.length_replicate, length_varBytes]
  rfl

/-- **Padding** is zero. -/
theorem Laid.encode_padding (m : Laid) (v : m.Val) {q : Nat} (h : m.Padding q) :
    (m.encode v)[q]? = some 0 := by
  have hlen : q < (writes (m.plan v 0) (List.replicate m.fixedSize 0)).length := by
    rw [length_writes, List.length_replicate]
    exact h.1
  rw [Laid.encode, List.getElem?_append_left hlen, getElem?_writes_of_ne, List.getElem?_replicate, if_pos h.1]
  rintro w hw rfl
  exact h.2 (Elem.plan_covers (.ref m) v 0 w hw)

/-- A value that has an encoding: strings are UTF-8, and every length fits its four bytes. -/
def Laid.Encodable (m : Laid) (v : m.Val) : Prop :=
  ∀ x ∈ m.vars v, x.2.length < 2 ^ 32 ∧ (x.1 = .string → utf8Valid x.2 = true)

/-- Every string and bytes field is short enough for its four bytes of length. -/
def Short (m : Laid) (v : m.Val) : Prop := ∀ x ∈ m.vars v, x.2.length < 2 ^ 32

instance (m : Laid) (v : m.Val) : Decidable (Short m v) :=
  inferInstanceAs (Decidable (∀ x ∈ m.vars v, x.2.length < 2 ^ 32))

/-- What an encoder of a value leaves in a buffer: the encoding if the value has one and it fits, and
    otherwise the buffer as it was. -/
def encoded (m : Laid) (v : m.Val) (b : List UInt8) : Nat × List UInt8 :=
  if Short m v ∧ m.encodedSize v ≤ b.length then
    (m.encodedSize v, m.encode v ++ b.drop (m.encodedSize v))
  else (0, b)

theorem Laid.Encodable.short {m : Laid} {v : m.Val} (h : m.Encodable v) : Short m v := fun x hx => (h x hx).1

/-- The loop over the string and bytes fields, for a `put` that stores a length and the bytes after it
    in a buffer of `size` bytes. -/
theorem putVars_eq {size : Nat} {put : List UInt8 → Nat → List UInt8 → Option (List UInt8 × Nat)}
    (hput : ∀ pre tail x : List UInt8, (pre ++ tail).length = size → x.length < 2 ^ 32 →
      4 + x.length ≤ tail.length → put (pre ++ tail) pre.length x =
        some (pre ++ (leBytes 4 x.length ++ x) ++ tail.drop (4 + x.length),
          pre.length + (4 + x.length)))
    {vs : List (VarKind × List UInt8)} (hvs : ∀ x ∈ vs, x.2.length < 2 ^ 32)
    (pre tail : List UInt8) (hsize : (pre ++ tail).length = size)
    (htail : (varBytes vs).length ≤ tail.length) :
    vs.foldlM (fun s x => put s.1 s.2 x.2) (pre ++ tail, pre.length) =
      some (pre ++ varBytes vs ++ tail.drop (varBytes vs).length, pre.length + (varBytes vs).length) := by
  induction vs generalizing pre tail with
  | nil => simp [varBytes]
  | cons x vs ih =>
    have hsplit : varBytes (x :: vs) = (leBytes 4 x.2.length ++ x.2) ++ varBytes vs := rfl
    have hlen : (leBytes 4 x.2.length ++ x.2).length = 4 + x.2.length := by
      rw [List.length_append, length_leBytes]
    rw [hsplit, List.length_append, hlen] at htail
    have hhead := hput pre tail x.2 hsize (hvs x List.mem_cons_self) (by omega)
    have hrest := ih (fun y hy => hvs y (List.mem_cons_of_mem _ hy))
      (pre ++ (leBytes 4 x.2.length ++ x.2)) (tail.drop (4 + x.2.length))
      (by rw [← hsize]; simp only [List.length_append, List.length_drop, length_leBytes]; omega)
      (by rw [List.length_drop]; omega)
    rw [List.foldlM_cons, hhead, Option.bind_eq_bind, Option.bind_some]
    rw [List.length_append, hlen] at hrest
    rw [hrest, hsplit, List.length_append, hlen, List.drop_drop]
    simp only [List.append_assoc, Nat.add_assoc]

theorem Laid.encodedSize_eq (m : Laid) (v : m.Val) :
    m.encodedSize v = m.fixedSize + (varBytes (m.vars v)).length := by
  rw [length_varBytes]
  rfl

variable {b : List UInt8} {m : Laid}

/-- The fixed section in the first bytes of a buffer, and then the string and bytes fields. -/
theorem Laid.putVars_encode {v : m.Val} {put : List UInt8 → Nat → List UInt8 → Option (List UInt8 × Nat)}
    (hput : ∀ pre tail x : List UInt8, (pre ++ tail).length = b.length → x.length < 2 ^ 32 →
      4 + x.length ≤ tail.length → put (pre ++ tail) pre.length x =
        some (pre ++ (leBytes 4 x.length ++ x) ++ tail.drop (4 + x.length),
          pre.length + (4 + x.length))) (hv : Short m v) (hb : m.encodedSize v ≤ b.length) :
    (m.vars v).foldlM (fun s x => put s.1 s.2 x.2)
        (writes (m.plan v 0) (List.replicate m.fixedSize 0) ++ b.drop m.fixedSize, m.fixedSize) =
      some (m.encode v ++ b.drop (m.encodedSize v), m.encodedSize v) := by
  have htotal := m.encodedSize_eq v
  have hlen : (writes (m.plan v 0) (List.replicate m.fixedSize 0)).length = m.fixedSize := by
    rw [length_writes, List.length_replicate]
  have hvars := putVars_eq hput hv
    (writes (m.plan v 0) (List.replicate m.fixedSize 0)) (b.drop m.fixedSize)
    (by rw [List.length_append, hlen, List.length_drop]; omega) (by rw [List.length_drop]; omega)
  rwa [hlen, List.drop_drop, ← htotal] at hvars

/-- The check of every length comes out as `Short`. -/
theorem any_unfit {v : m.Val} {fits : Nat → Bool}
    (hfits : ∀ x ∈ m.vars v, fits x.2.length = decide (x.2.length < 2 ^ 32)) :
    ((m.vars v).any fun x => !fits x.2.length) = !decide (Short m v) := by
  by_cases hv : Short m v
  · rw [decide_eq_true hv, Bool.not_true, List.any_eq_false]
    intro x hx
    rw [hfits x hx, decide_eq_true (hv x hx)]
    decide
  · rw [decide_eq_false hv, Bool.not_false, List.any_eq_true]
    obtain ⟨x, hx, hlong⟩ : ∃ x ∈ m.vars v, ¬ x.2.length < 2 ^ 32 := by
      unfold Short at hv
      push Not at hv ⊢
      exact hv
    exact ⟨x, hx, by rw [hfits x hx, decide_eq_false hlong]; rfl⟩

theorem length_le_encodedSize {v : m.Val} {x : VarKind × List UInt8} (hx : x ∈ m.vars v) :
    x.2.length ≤ m.encodedSize v := by
  have hmem : 4 + x.2.length ∈ (m.vars v).map fun x => 4 + x.2.length := List.mem_map_of_mem hx
  have hle := List.single_le_sum (fun _ _ => Nat.zero_le _) _ hmem
  have htotal : m.encodedSize v = m.fixedSize + ((m.vars v).map fun x => 4 + x.2.length).sum := rfl
  omega

/-! ### Decoding -/

/-- A length and the bytes after it. -/
def getVar (b : List UInt8) (off : Nat) : Except Fault (List UInt8 × Nat) :=
  if b.length - off < 4 then .error (.error .length)
  else
    let n := leNat ((b.drop off).take 4)
    if b.length - (off + 4) < n then .error (.error .length)
    else .ok ((b.drop (off + 4)).take n, off + 4 + n)

/-- The string and bytes fields of a message, put into a value that has its fixed fields. -/
def Fields.getVarsWith (get : List UInt8 → Nat → Except Fault (List UInt8 × Nat))
    (valid : List UInt8 → Bool) : (fs : Fields) → fs.Val → List UInt8 → Nat →
    Except Fault (fs.Val × Nat)
  | .nil, v, _, off => .ok (v, off)
  | .one _ _ _ rest, v, b, off => do
      let (us, off) ← rest.getVarsWith get valid v.2 b off
      return ((v.1, us), off)
  | .array _ _ _ _ rest, v, b, off => do
      let (us, off) ← rest.getVarsWith get valid v.2 b off
      return ((v.1, us), off)
  | .var _ kind rest, v, b, off => do
      let (raw, off) ← get b off
      if kind = .string ∧ valid raw = false then .error (.error .utf8)
      else
        let (us, off) ← rest.getVarsWith get valid v.2 b off
        return ((raw, us), off)

def Laid.getVarsWith (get : List UInt8 → Nat → Except Fault (List UInt8 × Nat))
    (valid : List UInt8 → Bool) : (m : Laid) → m.Val → List UInt8 → Nat → Except Fault (m.Val × Nat)
  | .mk _ fs _ _, v, b, off => fs.getVarsWith get valid v b off

/-- What a byte string is as message `m`. -/
def Laid.decode (m : Laid) (b : List UInt8) : Except Fault m.Val :=
  if b.length < m.fixedSize then .error (.error .short)
  else do
    let v ← m.getWith plainReader 0 b
    let (v, off) ← m.getVarsWith getVar utf8Valid v b m.fixedSize
    if off ≠ b.length then .error (.error .trailing) else return v

/-! ### What `getVar` finds -/

theorem getVar_ok {raw : List UInt8} {off off' : Nat} (h : getVar b off = .ok (raw, off')) :
    off' = off + 4 + raw.length ∧ off' ≤ b.length ∧ raw.length < 2 ^ 32 ∧
      b.drop off = leBytes 4 raw.length ++ raw ++ b.drop off' := by
  unfold getVar at h
  simp only at h
  split_ifs at h with h4 hn
  simp only [Except.ok.injEq, Prod.mk.injEq] at h
  obtain ⟨hraw, hoff⟩ := h
  have hlen4 : ((b.drop off).take 4).length = 4 := by
    rw [List.length_take, List.length_drop]
    omega
  have hlt := leNat_lt ((b.drop off).take 4)
  rw [hlen4] at hlt
  have hlen : raw.length = leNat ((b.drop off).take 4) := by
    rw [← hraw, List.length_take, List.length_drop]
    omega
  have hnum : leBytes 4 raw.length = (b.drop off).take 4 := by
    have := leBytes_leNat ((b.drop off).take 4)
    rwa [hlen4, ← hlen] at this
  rw [← hlen] at hoff hraw hn
  refine ⟨hoff.symm, by omega, by omega, ?_⟩
  have hhead := List.take_append_drop 4 (b.drop off)
  have htail := List.take_append_drop raw.length (b.drop (off + 4))
  rw [List.drop_drop] at hhead htail
  rw [hraw] at htail
  rw [hnum, ← hoff, List.append_assoc, htail, hhead]

theorem getVar_append (pre post : List UInt8) {raw : List UInt8} (hlen : raw.length < 2 ^ 32) :
    getVar (pre ++ (leBytes 4 raw.length ++ raw) ++ post) pre.length =
      .ok (raw, pre.length + (4 + raw.length)) := by
  have hdrop : (pre ++ (leBytes 4 raw.length ++ raw) ++ post).drop pre.length =
      leBytes 4 raw.length ++ (raw ++ post) := by
    rw [List.append_assoc, List.drop_left, List.append_assoc]
  have htake : ((pre ++ (leBytes 4 raw.length ++ raw) ++ post).drop pre.length).take 4 =
      leBytes 4 raw.length := by
    rw [hdrop, List.take_left' (length_leBytes ..)]
  have hnum : leNat (leBytes 4 raw.length) = raw.length := by
    rw [leNat_leBytes]
    exact Nat.mod_eq_of_lt hlen
  have hraw : ((pre ++ (leBytes 4 raw.length ++ raw) ++ post).drop (pre.length + 4)).take raw.length =
      raw := by
    rw [← List.drop_drop, hdrop, List.drop_left' (length_leBytes ..), List.take_left]
  have htotal : (pre ++ (leBytes 4 raw.length ++ raw) ++ post).length =
      pre.length + (4 + raw.length) + post.length := by
    simp only [List.length_append, length_leBytes]
  unfold getVar
  simp only [htake, hnum, hraw, htotal]
  rw [if_neg (by omega), if_neg (by omega), Nat.add_assoc]

/-! ### What the string and bytes fields are -/

/-- The fields of an accepted message fill the input up to where reading ends. -/
theorem Fields.getVars_ok : (fs : Fields) → {v u : fs.Val} → {b : List UInt8} → {off off' : Nat} →
    off ≤ b.length → fs.getVarsWith getVar utf8Valid v b off = .ok (u, off') →
    off' ≤ b.length ∧ b.drop off = varBytes (fs.vars u) ++ b.drop off' ∧
    ∀ x ∈ fs.vars u, x.2.length < 2 ^ 32 ∧ (x.1 = .string → utf8Valid x.2 = true)
  | .nil, v, u, b, off, off', hoff, h => by
    cases h
    exact ⟨hoff, rfl, fun x hx => absurd hx List.not_mem_nil⟩
  | .one _ _ _ rest, v, u, b, off, off', hoff, h => by
    rw [Fields.getVarsWith] at h
    obtain ⟨⟨us, off1⟩, hrest, heq⟩ := except_bind_eq_ok.mp h
    cases heq
    exact rest.getVars_ok hoff hrest
  | .array _ _ _ _ rest, v, u, b, off, off', hoff, h => by
    rw [Fields.getVarsWith] at h
    obtain ⟨⟨us, off1⟩, hrest, heq⟩ := except_bind_eq_ok.mp h
    cases heq
    exact rest.getVars_ok hoff hrest
  | .var _ kind rest, v, u, b, off, off', hoff, h => by
    rw [Fields.getVarsWith] at h
    obtain ⟨⟨raw, off1⟩, hget, h⟩ := except_bind_eq_ok.mp h
    obtain ⟨-, hoff1, hlen, hdrop⟩ := getVar_ok hget
    simp only at h
    split_ifs at h with hutf8
    obtain ⟨⟨us, off2⟩, hrest, heq⟩ := except_bind_eq_ok.mp h
    cases heq
    obtain ⟨hoff', hbytes, hall⟩ := rest.getVars_ok hoff1 hrest
    refine ⟨hoff', ?_, fun x hx => ?_⟩
    · rw [hdrop, hbytes]
      simp [varBytes, Fields.vars]
    · rcases List.mem_cons.mp hx with rfl | hx
      · refine ⟨hlen, fun hkind => ?_⟩
        simp only [not_and, Bool.not_eq_false] at hutf8
        exact hutf8 hkind
      · exact hall x hx

/-- Encoded fields are read back. -/
theorem Fields.getVars_append : (fs : Fields) → (v : fs.Val) → (pre post : List UInt8) →
    (∀ x ∈ fs.vars v, x.2.length < 2 ^ 32 ∧ (x.1 = .string → utf8Valid x.2 = true)) →
    fs.getVarsWith getVar utf8Valid (fs.blank v) (pre ++ varBytes (fs.vars v) ++ post) pre.length =
      .ok (v, pre.length + (varBytes (fs.vars v)).length)
  | .nil, _, _, _, _ => rfl
  | .one _ _ _ rest, v, pre, post, h => by
    have hrest := rest.getVars_append v.2 pre post h
    rw [Fields.getVarsWith]
    exact except_bind_eq_ok.mpr ⟨_, hrest, rfl⟩
  | .array _ _ _ _ rest, v, pre, post, h => by
    have hrest := rest.getVars_append v.2 pre post h
    rw [Fields.getVarsWith]
    exact except_bind_eq_ok.mpr ⟨_, hrest, rfl⟩
  | .var _ kind rest, v, pre, post, h => by
    obtain ⟨hlen, hutf8⟩ := h (kind, v.1) List.mem_cons_self
    have hsplit : varBytes ((kind, v.1) :: rest.vars v.2) =
        (leBytes 4 v.1.length ++ v.1) ++ varBytes (rest.vars v.2) := rfl
    have hget := getVar_append pre (varBytes (rest.vars v.2) ++ post) hlen
    have hrest := rest.getVars_append v.2 (pre ++ (leBytes 4 v.1.length ++ v.1)) post
      (fun x hx => h x (List.mem_cons_of_mem _ hx))
    rw [Fields.getVarsWith, Fields.vars, hsplit]
    simp only [List.append_assoc, List.length_append, length_leBytes] at hget hrest ⊢
    refine except_bind_eq_ok.mpr ⟨_, hget, ?_⟩
    simp only
    rw [if_neg (by simpa using hutf8)]
    refine except_bind_eq_ok.mpr ⟨_, hrest, ?_⟩
    simp only [Nat.add_assoc]
    rfl

theorem Laid.getVars_ok : (m : Laid) → {v u : m.Val} → {b : List UInt8} → {off off' : Nat} →
    off ≤ b.length → m.getVarsWith getVar utf8Valid v b off = .ok (u, off') →
    off' ≤ b.length ∧ b.drop off = varBytes (m.vars u) ++ b.drop off' ∧ m.Encodable u
  | .mk _ fs _ _, _, _, _, _, _, hoff, h => fs.getVars_ok hoff h

theorem Laid.getVars_append : (m : Laid) → {v : m.Val} → m.Encodable v → (pre post : List UInt8) →
    m.getVarsWith getVar utf8Valid (m.blank v) (pre ++ varBytes (m.vars v) ++ post) pre.length =
      .ok (v, pre.length + (varBytes (m.vars v)).length)
  | .mk _ fs _ _, v, h, pre, post => fs.getVars_append v pre post h

/-- Primitives that do what `getVar` and `utf8Valid` do inside the input give the same fields. -/
theorem Fields.getVarsWith_eq {get : List UInt8 → Nat → Except Fault (List UInt8 × Nat)}
    {valid : List UInt8 → Bool} (hget : ∀ off ≤ b.length, get b off = getVar b off)
    (hvalid : ∀ raw, valid raw = utf8Valid raw) : (fs : Fields) → (v : fs.Val) → {off : Nat} →
    off ≤ b.length → fs.getVarsWith get valid v b off = fs.getVarsWith getVar utf8Valid v b off
  | .nil, _, _, _ => rfl
  | .one _ _ _ rest, v, off, hoff => by
    rw [Fields.getVarsWith, Fields.getVarsWith, rest.getVarsWith_eq hget hvalid v.2 hoff]
  | .array _ _ _ _ rest, v, off, hoff => by
    rw [Fields.getVarsWith, Fields.getVarsWith, rest.getVarsWith_eq hget hvalid v.2 hoff]
  | .var _ kind rest, v, off, hoff => by
    rw [Fields.getVarsWith, Fields.getVarsWith, hget off hoff]
    cases hraw : getVar b off with
    | error f => rfl
    | ok x =>
      obtain ⟨raw, off1⟩ := x
      have hrest := rest.getVarsWith_eq hget hvalid v.2 (getVar_ok hraw).2.1
      show (if _ then _ else rest.getVarsWith get valid v.2 b off1 >>= _) =
        (if _ then _ else rest.getVarsWith getVar utf8Valid v.2 b off1 >>= _)
      rw [hrest, hvalid raw]

theorem Laid.getVarsWith_eq {get : List UInt8 → Nat → Except Fault (List UInt8 × Nat)}
    {valid : List UInt8 → Bool} (hget : ∀ off ≤ b.length, get b off = getVar b off)
    (hvalid : ∀ raw, valid raw = utf8Valid raw) : (m : Laid) → (v : m.Val) → {off : Nat} →
    off ≤ b.length → m.getVarsWith get valid v b off = m.getVarsWith getVar utf8Valid v b off
  | .mk _ fs _ _, v, _, hoff => fs.getVarsWith_eq hget hvalid v hoff

/-! ### Whole messages -/

/-- The first bytes of an encoded value are its fixed section. -/
theorem Laid.plan_in_encode (hm : Sound m) (v : m.Val) : ∀ w ∈ m.plan v 0, (m.encode v)[w.1]? = some w.2 := by
  intro w hw
  have hwithin := m.plan_within hm v 0
  have hlt : w.1 < m.fixedSize := by
    have := (hwithin.2 w hw).2
    omega
  rw [Laid.encode, List.getElem?_append_left (by rw [length_writes, List.length_replicate]; exact hlt)]
  exact getElem?_writes_of_mem hwithin.1 hw (by rw [List.length_replicate]; exact hlt)

/-- **Round trip**: the bytes of a value are that value. -/
theorem Laid.decode_encode (hm : Sound m) {v : m.Val} (hv : m.Encodable v) :
    m.decode (m.encode v) = .ok v := by
  have hfixed := m.read_of_plan hm v 0 (m.encode v) (Laid.plan_in_encode hm v)
  have hlen : (writes (m.plan v 0) (List.replicate m.fixedSize 0)).length = m.fixedSize := by
    rw [length_writes, List.length_replicate]
  have hvars := m.getVars_append hv (writes (m.plan v 0) (List.replicate m.fixedSize 0)) []
  rw [List.append_nil, hlen] at hvars
  have htotal : (m.encode v).length = m.fixedSize + (varBytes (m.vars v)).length := by
    rw [Laid.encode, List.length_append, hlen]
  unfold Laid.decode
  rw [if_neg (by omega)]
  refine except_bind_eq_ok.mpr ⟨_, hfixed, ?_⟩
  refine except_bind_eq_ok.mpr ⟨_, hvars, ?_⟩
  simp only
  rw [if_neg (by rw [htotal]; simp)]
  rfl

/-- **Accepted messages**: the fixed section is there with its bools, and the rest of the input is the
    string and bytes fields of the value, which all fit and are UTF-8 where they must be. -/
theorem Laid.decode_ok (hm : Sound m) {v : m.Val} (h : m.decode b = .ok v) :
    m.fixedSize ≤ b.length ∧
    (∀ off, Contains m off (.scalar .bool) → ∃ x, b[off]? = some x ∧ x ≤ 1) ∧
    b.drop m.fixedSize = varBytes (m.vars v) ∧ m.Encodable v := by
  unfold Laid.decode at h
  split_ifs at h with hshort
  obtain ⟨u, hu, h⟩ := except_bind_eq_ok.mp h
  obtain ⟨⟨v', off⟩, hv', h⟩ := except_bind_eq_ok.mp h
  simp only at h
  split_ifs at h with htrailing
  cases h
  obtain ⟨-, hdrop, henc⟩ := m.getVars_ok (by omega) hv'
  refine ⟨by omega, fun off hoff => ?_, ?_, henc⟩
  · obtain ⟨-, -, hle, -⟩ := hoff.aligned hm
    have hsize : (Elem.scalar .bool).size = 1 := rfl
    exact hoff.bool_le hu (by omega)
  · rw [hdrop, not_not.mp htrailing, List.drop_length, List.append_nil]

theorem Fields.getVars_error : (fs : Fields) → {v : fs.Val} → {b : List UInt8} → {off : Nat} →
    {f : Fault} → fs.getVarsWith getVar utf8Valid v b off = .error f → f ≠ .outside
  | .nil, _, _, _, _, h => (by cases h)
  | .one _ _ _ rest, v, b, off, f, h => by
    rw [Fields.getVarsWith] at h
    rcases except_bind_eq_error.mp h with h | ⟨_, -, h⟩
    · exact rest.getVars_error h
    · cases h
  | .array _ _ _ _ rest, v, b, off, f, h => by
    rw [Fields.getVarsWith] at h
    rcases except_bind_eq_error.mp h with h | ⟨_, -, h⟩
    · exact rest.getVars_error h
    · cases h
  | .var _ kind rest, v, b, off, f, h => by
    rw [Fields.getVarsWith] at h
    rcases except_bind_eq_error.mp h with h | ⟨⟨raw, off1⟩, -, h⟩
    · unfold getVar at h
      simp only at h
      split_ifs at h <;> cases h <;> simp
    · simp only at h
      split_ifs at h
      · cases h
        simp
      · rcases except_bind_eq_error.mp h with h | ⟨_, -, h⟩
        · exact rest.getVars_error h
        · cases h

theorem Laid.getVars_error : (m : Laid) → {v : m.Val} → {b : List UInt8} → {off : Nat} →
    {f : Fault} → m.getVarsWith getVar utf8Valid v b off = .error f → f ≠ .outside
  | .mk _ fs _ _, _, _, _, _, h => fs.getVars_error h

/-- `decode` fails with an error, and never outside the input. -/
theorem Laid.decode_error {f : Fault} (h : m.decode b = .error f) : f ≠ .outside := by
  unfold Laid.decode at h
  split_ifs at h
  · cases h
    simp
  · rcases except_bind_eq_error.mp h with h | ⟨u, -, h⟩
    · rw [m.read_error h]
      simp
    · rcases except_bind_eq_error.mp h with h | ⟨⟨v, off⟩, -, h⟩
      · exact m.getVars_error h
      · simp only at h
        split_ifs at h <;> cases h
        simp

end GoIpc.Schema
