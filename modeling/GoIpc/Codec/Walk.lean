import GoIpc.Lib.Stores
import GoIpc.Lib.Parser
import GoIpc.Schema.Layout

namespace GoIpc.Schema

open GoIpc.Lib

/-!
# Values of checked messages, and walks over their fixed section

A value is typed by its message: bit patterns for scalars, functions for arrays, byte strings for string
and bytes fields.

* `Laid.plan` — the stores that make up the fixed section of a value, in the order of the fields;
* `Elem.putWith`, `Elem.getWith` — the walks of generated code, with the stores and loads of one language
  as a parameter;
* `Laid.putWith_eq` — a lawful writer into a zeroed section makes the stores of the plan;
* `Laid.getWith_eq` — lawful readers read alike;
* `Laid.read_of_plan` — a reader finds the value whose plan was stored.
-/

/-! ### Values -/

/-- The number of bit patterns of a scalar: a bool is 0 or 1. -/
def Scalar.bound : Scalar → Nat
  | .bool => 2
  | k => 256 ^ k.size

theorem Scalar.bound_le (k : Scalar) : k.bound ≤ 256 ^ k.size := by
  cases k <;> decide

mutual

def Elem.Val : Elem → Type
  | .scalar k => Fin k.bound
  | .ref m => m.Val

def Laid.Val : Laid → Type
  | .mk _ fs _ _ => fs.Val

def Fields.Val : Fields → Type
  | .nil => Unit
  | .one _ e _ rest => e.Val × rest.Val
  | .array _ n e _ rest => (Fin n → e.Val) × rest.Val
  | .var _ _ rest => List UInt8 × rest.Val

end

/-- The string and bytes fields of a value, in order. -/
def Fields.vars : (fs : Fields) → fs.Val → List (VarKind × List UInt8)
  | .nil, _ => []
  | .one _ _ _ rest, v => rest.vars v.2
  | .array _ _ _ _ rest, v => rest.vars v.2
  | .var _ kind rest, v => (kind, v.1) :: rest.vars v.2

def Laid.vars : (m : Laid) → m.Val → List (VarKind × List UInt8)
  | .mk _ fs _ _, v => fs.vars v

theorem Fields.vars_of_fixed : (fs : Fields) → fs.fixed = true → (v : fs.Val) → fs.vars v = []
  | .nil, _, _ => rfl
  | .one _ _ _ rest, h, v => rest.vars_of_fixed h v.2
  | .array _ _ _ _ rest, h, v => rest.vars_of_fixed h v.2
  | .var _ _ _, h, _ => (by cases h)

theorem Laid.vars_of_fixed : (m : Laid) → m.fields.fixed = true → (v : m.Val) → m.vars v = []
  | .mk _ fs _ _, h, v => fs.vars_of_fixed h v

/-! ### The plan of a value -/

mutual

/-- The stores of an element at `p`. -/
def Elem.plan : (e : Elem) → e.Val → Nat → List Store
  | .scalar k, v, p => storesAt p (leBytes k.size (Fin.val (n := k.bound) v))
  | .ref m, v, p => m.plan v p

def Laid.plan : (m : Laid) → m.Val → Nat → List Store
  | .mk _ fs _ _, v, p => fs.plan v p

def Fields.plan : (fs : Fields) → fs.Val → Nat → List Store
  | .nil, _, _ => []
  | .one _ e off rest, v, p => e.plan v.1 (p + off) ++ rest.plan v.2 p
  | .array _ n e off rest, v, p =>
      (List.finRange n).flatMap (fun i => e.plan (v.1 i) (p + off + i * e.size)) ++ rest.plan v.2 p
  | .var _ _ rest, v, p => rest.plan v.2 p

end

/-- The fields from offset `start` to `n` of a section are placed there, and their elements are sound. -/
structure Fields.Fit (fs : Fields) (start n : Nat) : Prop where
  fits : Fits start fs.placed
  sub : ∀ x ∈ fs.slots, x.elem.Sound
  ends : endOf start fs.placed ≤ n

variable {m : Laid} {p : Nat} {b : List UInt8}

theorem Sound.fit (h : Sound m) : m.fields.Fit 0 m.fixedSize := by
  have hpos := h.align_pos
  refine ⟨?_, fun x hx => h.elem hx, ?_⟩
  · cases h with
    | intro htight _ _ _ => exact htight.fits
  · cases h with
    | intro _ hsize _ _ =>
      rw [hsize]
      exact le_roundUp _ hpos

/-- The first slot lies from `start` on, and the others after it. -/
theorem Fields.Fit.cons {fs rest : Fields} {start n : Nat} {x : Slot} (h : fs.Fit start n)
    (hslots : fs.slots = x :: rest.slots) :
    start ≤ x.offset ∧ x.offset + x.count * x.elem.size ≤ n ∧ x.elem.Sound ∧
      rest.Fit (x.offset + x.count * x.elem.size) n := by
  have hplaced : fs.placed = x.placed :: rest.placed := by
    rw [Fields.placed, hslots]
    rfl
  obtain ⟨hfits, hsub, hends⟩ := h
  rw [hplaced] at hfits hends
  rw [hslots] at hsub
  refine ⟨hfits.1.1, hfits.2.start_le.trans hends, hsub x List.mem_cons_self, hfits.2, ?_, hends⟩
  exact fun y hy => hsub y (List.mem_cons_of_mem _ hy)

mutual

/-- The plan of an element stays inside it. -/
theorem Elem.plan_within : (e : Elem) → e.Sound → (v : e.Val) → (p : Nat) →
    Within p (p + e.size) (e.plan v p)
  | .scalar k, _, v, p => by
    have := within_storesAt p (leBytes k.size (Fin.val (n := k.bound) v))
    rw [length_leBytes] at this
    exact this
  | .ref m, he, v, p => m.plan_within he.1 v p

theorem Laid.plan_within : (m : Laid) → Schema.Sound m → (v : m.Val) → (p : Nat) →
    Within p (p + m.fixedSize) (m.plan v p)
  | .mk _ fs _ _, hm, v, p => fs.plan_within hm.fit v p

theorem Fields.plan_within : (fs : Fields) → {start n : Nat} → fs.Fit start n → (v : fs.Val) →
    (p : Nat) → Within (p + start) (p + n) (fs.plan v p)
  | .nil, _, _, _, _, _ => .nil _ _
  | .one _ e off rest, start, n, h, v, p => by
    obtain ⟨hstart, hend, he, hrest⟩ := h.cons (x := ⟨off, 1, e⟩) rfl
    simp only [Nat.one_mul] at hstart hend hrest
    have hw := e.plan_within he v.1 (p + off)
    have hw' := rest.plan_within hrest v.2 p
    exact (hw.mono (by omega) le_rfl).append hw' (by omega) (by omega) (by omega)
  | .array _ len e off rest, start, n, h, v, p => by
    obtain ⟨hstart, hend, he, hrest⟩ := h.cons (x := ⟨off, len, e⟩) rfl
    simp only at hstart hend hrest
    have hw : Within (p + off) (p + off + len * e.size)
        ((List.finRange len).flatMap fun i => e.plan (v.1 i) (p + off + i * e.size)) :=
      Within.flatMap_finRange fun i => e.plan_within he (v.1 i) _
    have hw' := rest.plan_within hrest v.2 p
    exact (hw.mono (by omega) le_rfl).append hw' (by omega) (by omega) (by omega)
  | .var _ _ rest, start, n, h, v, p => rest.plan_within ⟨h.fits, h.sub, h.ends⟩ v.2 p

end

/-! ### Padding -/

/-- The byte at `q` of an element at `p` belongs to a scalar, at any depth. -/
def Elem.Covers : Elem → Nat → Nat → Prop
  | .scalar k, p, q => p ≤ q ∧ q < p + k.size
  | .ref m, p, q => ∃ off k, Contains m off (.scalar k) ∧ p + off ≤ q ∧ q < p + off + k.size

/-- The byte at `q` of the fixed section belongs to no scalar. -/
def Laid.Padding (m : Laid) (q : Nat) : Prop := q < m.fixedSize ∧ ¬ Elem.Covers (.ref m) 0 q

/-- A scalar of an element of `m` is a scalar of `m`. -/
theorem Elem.Covers.contains {off q : Nat} {e : Elem} (hm : Contains m off e) (h : e.Covers (p + off) q) :
    Elem.Covers (.ref m) p q := by
  cases e with
  | scalar k => exact ⟨off, k, hm, h⟩
  | ref n =>
    obtain ⟨off', k, hn, hle, hlt⟩ := h
    exact ⟨off + off', k, .nested hm hn, by omega, by omega⟩

mutual

/-- Every store of the plan goes to a scalar. -/
theorem Elem.plan_covers : (e : Elem) → (v : e.Val) → (p : Nat) → ∀ w ∈ e.plan v p, e.Covers p w.1
  | .scalar k, v, p, w, hw => by
    have h := (within_storesAt p (leBytes k.size (Fin.val (n := k.bound) v))).2 w hw
    rwa [length_leBytes] at h
  | .ref (.mk name fs size align), v, p, w, hw => by
    obtain ⟨x, hx, k, hk, hcovers⟩ := fs.plan_covers v p w hw
    exact hcovers.contains (.field (m := .mk name fs size align) hx hk)

theorem Fields.plan_covers : (fs : Fields) → (v : fs.Val) → (p : Nat) → ∀ w ∈ fs.plan v p,
    ∃ x ∈ fs.slots, ∃ k < x.count, x.elem.Covers (p + (x.offset + k * x.elem.size)) w.1
  | .nil, _, _, _, hw => absurd hw List.not_mem_nil
  | .one _ e off rest, v, p, w, hw => by
    rcases List.mem_append.mp hw with hw | hw
    · refine ⟨⟨off, 1, e⟩, List.mem_cons_self, 0, Nat.one_pos, ?_⟩
      rw [Nat.zero_mul, Nat.add_zero]
      exact e.plan_covers v.1 (p + off) w hw
    · obtain ⟨x, hx, h⟩ := rest.plan_covers v.2 p w hw
      exact ⟨x, List.mem_cons_of_mem _ hx, h⟩
  | .array _ n e off rest, v, p, w, hw => by
    rcases List.mem_append.mp hw with hw | hw
    · obtain ⟨i, -, hw⟩ := List.mem_flatMap.mp hw
      refine ⟨⟨off, n, e⟩, List.mem_cons_self, i, i.isLt, ?_⟩
      rw [← Nat.add_assoc]
      exact e.plan_covers (v.1 i) (p + off + i * e.size) w hw
    · obtain ⟨x, hx, h⟩ := rest.plan_covers v.2 p w hw
      exact ⟨x, List.mem_cons_of_mem _ hx, h⟩
  | .var _ _ rest, v, p, w, hw => rest.plan_covers v.2 p w hw

end

/-! ### Writing -/

/-- How one language stores a scalar and goes on at an offset.  `none` is an access outside the
    buffer. -/
structure Writer where
  scalar : (k : Scalar) → Fin k.bound → Nat → List UInt8 → Option (List UInt8)
  enter : Nat → List UInt8 → Option Unit

mutual

def Elem.putWith (w : Writer) : (e : Elem) → e.Val → Nat → List UInt8 → Option (List UInt8)
  | .scalar k, v, p, b => w.scalar k v p b
  | .ref m, v, p, b => do
      w.enter p b
      m.putWith w v p b

def Laid.putWith (w : Writer) : (m : Laid) → m.Val → Nat → List UInt8 → Option (List UInt8)
  | .mk _ fs _ _, v, p, b => fs.putWith w v p b

/-- The fixed fields, in order; an array is a loop over its elements. -/
def Fields.putWith (w : Writer) : (fs : Fields) → fs.Val → Nat → List UInt8 → Option (List UInt8)
  | .nil, _, _, b => some b
  | .one _ e off rest, v, p, b => do
      let b ← e.putWith w v.1 (p + off) b
      rest.putWith w v.2 p b
  | .array _ n e off rest, v, p, b => do
      let b ← (List.finRange n).foldlM (fun b i => e.putWith w (v.1 i) (p + off + i * e.size) b) b
      rest.putWith w v.2 p b
  | .var _ _ rest, v, p, b => rest.putWith w v.2 p b

end

/-- Into a zeroed place, a scalar is stored as its little-endian bytes. -/
structure Writer.Lawful (w : Writer) : Prop where
  scalar : ∀ {k v p b}, p + k.size ≤ b.length → Zero b p k.size →
    w.scalar k v p b = some (writes (storesAt p (leBytes k.size v)) b)
  enter : ∀ {p : Nat} {b : List UInt8}, p ≤ b.length → w.enter p b = some ()

/-- The loop over the elements of an array. -/
theorem foldlM_put {μ : Type → Type} [Monad μ] [LawfulMonad μ] {n size base : Nat}
    {put : Fin n → List UInt8 → μ (List UInt8)} {plan : Fin n → List Store}
    (hplan : ∀ i : Fin n, Within (base + i * size) (base + i * size + size) (plan i))
    (hput : ∀ (i : Fin n) b, base + i * size + size ≤ b.length → Zero b (base + i * size) size →
      put i b = pure (writes (plan i) b))
    (is : List (Fin n)) (his : is.Pairwise (· < ·)) (b : List UInt8)
    (hlen : base + n * size ≤ b.length) (hzero : ∀ i ∈ is, Zero b (base + i * size) size) :
    is.foldlM (fun b i => put i b) b = pure (writes (is.flatMap plan) b) := by
  induction is generalizing b with
  | nil => rfl
  | cons i is ih =>
    have hlast := slot_end_le i.isLt size
    obtain ⟨hi, hrest⟩ := List.pairwise_cons.mp his
    rw [List.foldlM_cons, hput i b (by omega) (hzero i List.mem_cons_self), pure_bind,
      List.flatMap_cons, writes_append]
    refine ih hrest _ (by rw [length_writes]; exact hlen) fun j hj => ?_
    have := slot_end_le (Fin.lt_def.mp (hi j hj)) size
    exact (hzero j (List.mem_cons_of_mem _ hj)).writes_below (hplan i) (by omega)

mutual

theorem Elem.putWith_eq {w : Writer} (hw : w.Lawful) : (e : Elem) → e.Sound → (v : e.Val) →
    (p : Nat) → (b : List UInt8) → p + e.size ≤ b.length → Zero b p e.size →
    e.putWith w v p b = some (writes (e.plan v p) b)
  | .scalar _, _, _, _, _, hlen, hzero => hw.scalar hlen hzero
  | .ref m, he, v, p, b, hlen, hzero => by
    rw [Elem.putWith, hw.enter (by omega)]
    exact m.putWith_eq hw he.1 v p b hlen hzero

theorem Laid.putWith_eq {w : Writer} (hw : w.Lawful) : (m : Laid) → Schema.Sound m → (v : m.Val) →
    (p : Nat) → (b : List UInt8) → p + m.fixedSize ≤ b.length → Zero b p m.fixedSize →
    m.putWith w v p b = some (writes (m.plan v p) b)
  | .mk _ fs _ _, hm, v, p, b, hlen, hzero => by
    rw [Laid.putWith]
    exact fs.putWith_eq hw hm.fit v p b hlen (by simpa using hzero)

theorem Fields.putWith_eq {w : Writer} (hw : w.Lawful) : (fs : Fields) → {start n : Nat} →
    fs.Fit start n → (v : fs.Val) → (p : Nat) → (b : List UInt8) → p + n ≤ b.length →
    Zero b (p + start) (n - start) → fs.putWith w v p b = some (writes (fs.plan v p) b)
  | .nil, _, _, _, _, _, _, _, _ => rfl
  | .one _ e off rest, start, n, h, v, p, b, hlen, hzero => by
    obtain ⟨hstart, hend, he, hrest⟩ := h.cons (x := ⟨off, 1, e⟩) rfl
    simp only [Nat.one_mul] at hstart hend hrest
    have hfirst := e.putWith_eq hw he v.1 (p + off) b (by omega) (hzero.mono (by omega) (by omega))
    rw [Fields.putWith, hfirst, Option.bind_eq_bind, Option.bind_some, Fields.plan, writes_append]
    refine rest.putWith_eq hw hrest v.2 p _ (by rw [length_writes]; exact hlen) ?_
    refine (hzero.mono ?_ ?_).writes_below (e.plan_within he v.1 (p + off)) ?_ <;> omega
  | .array _ len e off rest, start, n, h, v, p, b, hlen, hzero => by
    obtain ⟨hstart, hend, he, hrest⟩ := h.cons (x := ⟨off, len, e⟩) rfl
    simp only at hstart hend hrest
    have hplan : ∀ i : Fin len, Within (p + off + i * e.size) (p + off + i * e.size + e.size)
        (e.plan (v.1 i) (p + off + i * e.size)) := fun i => e.plan_within he (v.1 i) _
    have hloop := foldlM_put hplan
      (fun i b hlen hzero => e.putWith_eq hw he (v.1 i) (p + off + i * e.size) b hlen hzero)
      (List.finRange len) (List.pairwise_lt_finRange len) b (by omega) ?_
    · rw [Fields.putWith, hloop, pure_bind, Fields.plan, writes_append]
      refine rest.putWith_eq hw hrest v.2 p _ (by rw [length_writes]; exact hlen) ?_
      refine (hzero.mono ?_ ?_).writes_below (Within.flatMap_finRange hplan) ?_ <;> omega
    · intro i _
      have hlast := slot_end_le i.isLt e.size
      exact hzero.mono (by omega) (by omega)
  | .var _ _ rest, start, n, h, v, p, b, hlen, hzero => by
    rw [Fields.putWith]
    exact rest.putWith_eq hw ⟨h.fits, h.sub, h.ends⟩ v.2 p b hlen hzero

end

/-- A lawful writer into a zeroed section leaves what follows it alone. -/
theorem Laid.putWith_zeroed {w : Writer} (hw : w.Lawful) (hm : Schema.Sound m) (v : m.Val)
    (tail : List UInt8) : m.putWith w v 0 (List.replicate m.fixedSize 0 ++ tail) =
      some (writes (m.plan v 0) (List.replicate m.fixedSize 0) ++ tail) := by
  rw [m.putWith_eq hw hm v 0 _ (by rw [List.length_append, List.length_replicate]; omega)
    (zero_replicate _ _), writes_append_left (fun x hx => ?_)]
  have := (m.plan_within hm v 0).2 x hx
  rw [List.length_replicate]
  omega

/-! ### Reading -/

inductive DecodeError
  | short
  | length
  | trailing
  | bool
  | utf8
deriving DecidableEq

/-- How decoding fails: with an error, or with an access outside the input. -/
inductive Fault
  | error (e : DecodeError)
  | outside
deriving DecidableEq

/-- How one language loads a scalar and goes on at an offset. -/
structure Reader where
  scalar : (k : Scalar) → Nat → List UInt8 → Except Fault (Fin k.bound)
  enter : Nat → List UInt8 → Except Fault Unit

/-- A loop over `n` places that stops at the first failure. -/
def collect {ε α : Type} : (n : Nat) → (Fin n → Except ε α) → Except ε (Fin n → α)
  | 0, _ => .ok Fin.elim0
  | n + 1, f => do
      let x ← f 0
      let xs ← collect n (fun i => f i.succ)
      return Fin.cons x xs

mutual

def Elem.getWith (r : Reader) : (e : Elem) → Nat → List UInt8 → Except Fault e.Val
  | .scalar k, p, b => r.scalar k p b
  | .ref m, p, b => do
      r.enter p b
      m.getWith r p b

def Laid.getWith (r : Reader) : (m : Laid) → Nat → List UInt8 → Except Fault m.Val
  | .mk _ fs _ _, p, b => fs.getWith r p b

/-- The fixed fields, in order; string and bytes fields stay empty. -/
def Fields.getWith (r : Reader) : (fs : Fields) → Nat → List UInt8 → Except Fault fs.Val
  | .nil, _, _ => .ok ()
  | .one _ e off rest, p, b => do
      let x ← e.getWith r (p + off) b
      let xs ← rest.getWith r p b
      return (x, xs)
  | .array _ n e off rest, p, b => do
      let x ← collect n (fun i => e.getWith r (p + off + i * e.size) b)
      let xs ← rest.getWith r p b
      return (x, xs)
  | .var _ _ rest, p, b => do
      let xs ← rest.getWith r p b
      return ([], xs)

end

/-- The bit pattern of a scalar at `p`. -/
def loadBits (k : Scalar) (p : Nat) (b : List UInt8) : Except Fault (Fin k.bound) :=
  if h : leNat ((b.drop p).take k.size) < k.bound then .ok ⟨_, h⟩ else .error (.error .bool)

theorem loadBits_of_lt {k : Scalar} (h : leNat ((b.drop p).take k.size) < k.bound) :
    loadBits k p b = .ok ⟨_, h⟩ := dif_pos h

theorem loadBits_of_ne_bool {k : Scalar} (hk : k ≠ .bool) (h : p + k.size ≤ b.length) :
    ∃ v, loadBits k p b = .ok v := by
  have hlt := leNat_lt ((b.drop p).take k.size)
  rw [List.length_take, List.length_drop, Nat.min_eq_left (by omega)] at hlt
  have hbound : k.bound = 256 ^ k.size := by cases k <;> first | rfl | exact absurd rfl hk
  exact ⟨_, loadBits_of_lt (hbound ▸ hlt)⟩

theorem loadBits_bool (h : p < b.length) : loadBits .bool p b =
    if b[p] > 1 then .error (.error .bool)
    else .ok (if b[p] = 1 then ⟨1, by decide⟩ else ⟨0, by decide⟩) := by
  have hnat : leNat ((b.drop p).take (Scalar.size .bool)) = b[p].toNat := by
    show leNat ((b.drop p).take 1) = _
    rw [take_one_drop h]
    rfl
  by_cases hone : b[p] > 1
  · have : ¬ leNat ((b.drop p).take (Scalar.size .bool)) < Scalar.bound .bool := by
      rw [hnat]
      exact Nat.not_lt.mpr hone
    rw [if_pos hone, loadBits, dif_neg this]
  · have hle : b[p].toNat ≤ 1 := Nat.not_lt.mp hone
    have hlt : leNat ((b.drop p).take (Scalar.size .bool)) < Scalar.bound .bool := by
      rw [hnat]
      exact Nat.lt_succ_of_le hle
    rw [if_neg hone, loadBits_of_lt hlt]
    refine congrArg Except.ok (Fin.ext ?_)
    show leNat ((b.drop p).take (Scalar.size .bool)) = _
    rw [hnat]
    split_ifs with h1
    · rw [h1]
      rfl
    · have hne : b[p].toNat ≠ 1 := fun h => h1 (UInt8.toNat_inj.mp h)
      show b[p].toNat = 0
      omega

/-- The reader that looks at no bounds. -/
def plainReader : Reader := ⟨loadBits, fun _ _ => .ok ()⟩

structure Reader.Lawful (r : Reader) : Prop where
  scalar : ∀ {k p b}, p + k.size ≤ b.length → r.scalar k p b = loadBits k p b
  enter : ∀ {p : Nat} {b : List UInt8}, p ≤ b.length → r.enter p b = .ok ()

mutual

/-- Inside the input, lawful readers read alike. -/
theorem Elem.getWith_eq {r : Reader} (hr : r.Lawful) : (e : Elem) → e.Sound → (p : Nat) →
    (b : List UInt8) → p + e.size ≤ b.length → e.getWith r p b = e.getWith plainReader p b
  | .scalar _, _, _, _, hlen => hr.scalar hlen
  | .ref m, he, p, b, hlen => by
    rw [Elem.getWith, Elem.getWith, hr.enter (by omega), m.getWith_eq hr he.1 p b hlen]
    rfl

theorem Laid.getWith_eq {r : Reader} (hr : r.Lawful) : (m : Laid) → Schema.Sound m → (p : Nat) →
    (b : List UInt8) → p + m.fixedSize ≤ b.length → m.getWith r p b = m.getWith plainReader p b
  | .mk _ fs _ _, hm, p, b, hlen => by
    rw [Laid.getWith, Laid.getWith, fs.getWith_eq hr hm.fit p b hlen]

theorem Fields.getWith_eq {r : Reader} (hr : r.Lawful) : (fs : Fields) → {start n : Nat} →
    fs.Fit start n → (p : Nat) → (b : List UInt8) → p + n ≤ b.length →
    fs.getWith r p b = fs.getWith plainReader p b
  | .nil, _, _, _, _, _, _ => rfl
  | .one _ e off rest, start, n, h, p, b, hlen => by
    obtain ⟨hstart, hend, he, hrest⟩ := h.cons (x := ⟨off, 1, e⟩) rfl
    simp only [Nat.one_mul] at hend
    rw [Fields.getWith, Fields.getWith, e.getWith_eq hr he (p + off) b (by omega),
      rest.getWith_eq hr hrest p b hlen]
  | .array _ len e off rest, start, n, h, p, b, hlen => by
    obtain ⟨hstart, hend, he, hrest⟩ := h.cons (x := ⟨off, len, e⟩) rfl
    simp only at hend
    have hloop : (fun i : Fin len => e.getWith r (p + off + i * e.size) b) =
        fun i : Fin len => e.getWith plainReader (p + off + i * e.size) b := by
      funext i
      have hlast := slot_end_le i.isLt e.size
      exact e.getWith_eq hr he _ b (by omega)
    rw [Fields.getWith, Fields.getWith, hloop, rest.getWith_eq hr hrest p b hlen]
  | .var _ _ rest, start, n, h, p, b, hlen => by
    rw [Fields.getWith, Fields.getWith, rest.getWith_eq hr ⟨h.fits, h.sub, h.ends⟩ p b hlen]

end

/-! ### What a reader finds -/

theorem collect_eq_ok {ε α : Type} {n : Nat} {f : Fin n → Except ε α} {g : Fin n → α} :
    collect n f = .ok g ↔ ∀ i, f i = .ok (g i) := by
  induction n with
  | zero => exact ⟨fun _ i => i.elim0, fun _ => congrArg Except.ok (funext fun i => i.elim0)⟩
  | succ n ih =>
    simp only [collect, except_bind_eq_ok, ih, Fin.forall_fin_succ]
    constructor
    · rintro ⟨x, hx, xs, hxs, heq⟩
      cases heq
      exact ⟨hx, hxs⟩
    · rintro ⟨h0, hsucc⟩
      refine ⟨g 0, h0, fun i => g i.succ, hsucc, congrArg Except.ok ?_⟩
      exact Fin.cons_self_tail g

theorem collect_error {ε α : Type} {n : Nat} {f : Fin n → Except ε α} {e : ε}
    (h : collect n f = .error e) : ∃ i, f i = .error e := by
  induction n with
  | zero => cases h
  | succ n ih =>
    rw [collect, except_bind_eq_error] at h
    rcases h with h0 | ⟨x, -, h⟩
    · exact ⟨0, h0⟩
    · rcases except_bind_eq_error.mp h with hrest | ⟨xs, -, h⟩
      · obtain ⟨i, hi⟩ := ih hrest
        exact ⟨i.succ, hi⟩
      · cases h

/-- A value without its string and bytes fields. -/
def Fields.blank : (fs : Fields) → fs.Val → fs.Val
  | .nil, v => v
  | .one _ _ _ rest, v => (v.1, rest.blank v.2)
  | .array _ _ _ _ rest, v => (v.1, rest.blank v.2)
  | .var _ _ rest, v => ([], rest.blank v.2)

def Laid.blank : (m : Laid) → m.Val → m.Val
  | .mk _ fs _ _, v => fs.blank v

theorem Fields.blank_of_fixed : (fs : Fields) → fs.fixed = true → (v : fs.Val) → fs.blank v = v
  | .nil, _, _ => rfl
  | .one _ _ _ rest, h, v => congrArg (Prod.mk v.1) (rest.blank_of_fixed h v.2)
  | .array _ _ _ _ rest, h, v => congrArg (Prod.mk v.1) (rest.blank_of_fixed h v.2)
  | .var _ _ _, h, _ => (by cases h)

theorem Laid.blank_of_fixed : (m : Laid) → m.fields.fixed = true → (v : m.Val) → m.blank v = v
  | .mk _ fs _ _, h, v => fs.blank_of_fixed h v

theorem take_drop_of_storesAt {xs : List UInt8} (h : ∀ w ∈ storesAt p xs, b[w.1]? = some w.2) :
    (b.drop p).take xs.length = xs := by
  induction xs generalizing p with
  | nil => rfl
  | cons x xs ih =>
    have hp := h (p, x) List.mem_cons_self
    have hrest := ih (fun w hw => h w (List.mem_cons_of_mem _ hw))
    obtain ⟨hlt, hget⟩ := List.getElem?_eq_some_iff.mp hp
    rw [List.drop_eq_getElem_cons hlt, List.length_cons, List.take_succ_cons, hrest]
    exact congrArg (· :: xs) hget

mutual

/-- A reader finds the value whose plan is in the input. -/
theorem Elem.read_of_plan : (e : Elem) → e.Sound → (v : e.Val) → (p : Nat) → (b : List UInt8) →
    (∀ w ∈ e.plan v p, b[w.1]? = some w.2) → e.getWith plainReader p b = .ok v
  | .scalar k, _, v, p, b, h => by
    have hbytes := take_drop_of_storesAt h
    rw [length_leBytes] at hbytes
    have hval : leNat ((b.drop p).take k.size) = Fin.val (n := k.bound) v := by
      rw [hbytes, leNat_leBytes]
      exact Nat.mod_eq_of_lt ((Fin.isLt (n := k.bound) v).trans_le k.bound_le)
    show loadBits k p b = .ok v
    have hlt : leNat ((b.drop p).take k.size) < k.bound := by
      rw [hval]
      exact Fin.isLt (n := k.bound) v
    rw [loadBits, dif_pos hlt]
    exact congrArg Except.ok (Fin.ext hval)
  | .ref m, he, v, p, b, h =>
    (m.read_of_plan he.1 v p b h).trans (congrArg Except.ok (m.blank_of_fixed he.2 v))

theorem Laid.read_of_plan : (m : Laid) → Schema.Sound m → (v : m.Val) → (p : Nat) →
    (b : List UInt8) → (∀ w ∈ m.plan v p, b[w.1]? = some w.2) →
    m.getWith plainReader p b = .ok (m.blank v)
  | .mk _ fs _ _, hm, v, p, b, h => fs.read_of_plan hm.fit.sub v p b h

theorem Fields.read_of_plan : (fs : Fields) → (∀ x ∈ fs.slots, x.elem.Sound) → (v : fs.Val) →
    (p : Nat) → (b : List UInt8) → (∀ w ∈ fs.plan v p, b[w.1]? = some w.2) →
    fs.getWith plainReader p b = .ok (fs.blank v)
  | .nil, _, _, _, _, _ => rfl
  | .one _ e off rest, hsub, v, p, b, h => by
    have he := e.read_of_plan (hsub ⟨off, 1, e⟩ List.mem_cons_self) v.1 (p + off) b
      (fun w hw => h w (List.mem_append_left _ hw))
    have hrest := rest.read_of_plan (fun x hx => hsub x (List.mem_cons_of_mem _ hx)) v.2 p b
      (fun w hw => h w (List.mem_append_right _ hw))
    rw [Fields.getWith, he, hrest]
    rfl
  | .array _ n e off rest, hsub, v, p, b, h => by
    have he : collect n (fun i => e.getWith plainReader (p + off + i * e.size) b) = .ok v.1 := by
      refine collect_eq_ok.mpr fun i => ?_
      refine e.read_of_plan (hsub ⟨off, n, e⟩ List.mem_cons_self) (v.1 i) _ b fun w hw => ?_
      exact h w (List.mem_append_left _ (List.mem_flatMap.mpr ⟨i, List.mem_finRange i, hw⟩))
    have hrest := rest.read_of_plan (fun x hx => hsub x (List.mem_cons_of_mem _ hx)) v.2 p b
      (fun w hw => h w (List.mem_append_right _ hw))
    rw [Fields.getWith, he, hrest]
    rfl
  | .var _ _ rest, hsub, v, p, b, h => by
    have hrest := rest.read_of_plan hsub v.2 p b h
    rw [Fields.getWith, hrest]
    rfl

end

mutual

/-- A bool is the only thing a reader can object to in the fixed section. -/
theorem Elem.read_error : (e : Elem) → {p : Nat} → {b : List UInt8} → {f : Fault} →
    e.getWith plainReader p b = .error f → f = .error .bool
  | .scalar k, p, b, f, h => by
    have h : loadBits k p b = .error f := h
    unfold loadBits at h
    split_ifs at h
    cases h
    rfl
  | .ref m, _, _, _, h => m.read_error h

theorem Laid.read_error : (m : Laid) → {p : Nat} → {b : List UInt8} → {f : Fault} →
    m.getWith plainReader p b = .error f → f = .error .bool
  | .mk _ fs _ _, _, _, _, h => fs.read_error h

theorem Fields.read_error : (fs : Fields) → {p : Nat} → {b : List UInt8} → {f : Fault} →
    fs.getWith plainReader p b = .error f → f = .error .bool
  | .nil, _, _, _, h => (by cases h)
  | .one _ e off rest, p, b, f, h => by
    rw [Fields.getWith] at h
    rcases except_bind_eq_error.mp h with he | ⟨x, -, h⟩
    · exact e.read_error he
    · rcases except_bind_eq_error.mp h with hrest | ⟨xs, -, h⟩
      · exact rest.read_error hrest
      · cases h
  | .array _ n e off rest, p, b, f, h => by
    rw [Fields.getWith] at h
    rcases except_bind_eq_error.mp h with he | ⟨x, -, h⟩
    · obtain ⟨i, hi⟩ := collect_error he
      exact e.read_error hi
    · rcases except_bind_eq_error.mp h with hrest | ⟨xs, -, h⟩
      · exact rest.read_error hrest
      · cases h
  | .var _ _ rest, p, b, f, h => by
    rw [Fields.getWith] at h
    rcases except_bind_eq_error.mp h with hrest | ⟨xs, -, h⟩
    · exact rest.read_error hrest
    · cases h

end

/-- A reader that accepts the fields of a message has accepted every element of them. -/
theorem Fields.read_slot : (fs : Fields) → {p : Nat} → {b : List UInt8} → {v : fs.Val} →
    fs.getWith plainReader p b = .ok v → ∀ x ∈ fs.slots, ∀ k < x.count,
    ∃ u, x.elem.getWith plainReader (p + (x.offset + k * x.elem.size)) b = .ok u
  | .nil, _, _, _, _ => fun _ hx => absurd hx List.not_mem_nil
  | .one _ e off rest, p, b, v, h => by
    rw [Fields.getWith] at h
    obtain ⟨u, hu, h⟩ := except_bind_eq_ok.mp h
    obtain ⟨us, hus, -⟩ := except_bind_eq_ok.mp h
    intro x hx k hk
    rcases List.mem_cons.mp hx with rfl | hx
    · obtain rfl : k = 0 := Nat.lt_one_iff.mp hk
      exact ⟨u, by rw [Nat.zero_mul, Nat.add_zero]; exact hu⟩
    · exact rest.read_slot hus x hx k hk
  | .array _ n e off rest, p, b, v, h => by
    rw [Fields.getWith] at h
    obtain ⟨u, hu, h⟩ := except_bind_eq_ok.mp h
    obtain ⟨us, hus, -⟩ := except_bind_eq_ok.mp h
    intro x hx k hk
    rcases List.mem_cons.mp hx with rfl | hx
    · have := collect_eq_ok.mp hu ⟨k, hk⟩
      exact ⟨u ⟨k, hk⟩, by rw [← Nat.add_assoc]; exact this⟩
    · exact rest.read_slot hus x hx k hk
  | .var _ _ rest, p, b, v, h => by
    rw [Fields.getWith] at h
    obtain ⟨us, hus, -⟩ := except_bind_eq_ok.mp h
    exact rest.read_slot hus

theorem Laid.getWith_fields (r : Reader) : (m : Laid) → (p : Nat) → (b : List UInt8) →
    {v : m.Val} → m.getWith r p b = .ok v → ∃ u, m.fields.getWith r p b = .ok u
  | .mk _ _ _ _, _, _, v, h => ⟨v, h⟩

/-- A reader that accepts a message has accepted every element, at any depth. -/
theorem Contains.read {off : Nat} {e : Elem} (h : Contains m off e) {v : m.Val}
    (hv : m.getWith plainReader p b = .ok v) : ∃ u, e.getWith plainReader (p + off) b = .ok u := by
  induction h generalizing p with
  | @field m x k hx hk =>
    obtain ⟨u, hu⟩ := m.getWith_fields plainReader p b hv
    exact m.fields.read_slot hu x hx k hk
  | @nested m n off off' e _ _ ih ih' =>
    obtain ⟨u, hu⟩ := ih hv
    have hn : n.getWith plainReader (p + off) b = .ok u := hu
    obtain ⟨u', hu'⟩ := ih' hn
    exact ⟨u', by rw [← Nat.add_assoc]; exact hu'⟩

/-- **Bools**: in a message that a reader accepts, every bool byte at any depth is 0 or 1. -/
theorem Contains.bool_le {off : Nat} (h : Contains m off (.scalar .bool)) {v : m.Val}
    (hv : m.getWith plainReader 0 b = .ok v) (hlt : off < b.length) : ∃ x, b[off]? = some x ∧ x ≤ 1 := by
  obtain ⟨u, hu⟩ := h.read hv
  rw [Nat.zero_add] at hu
  have hu : loadBits .bool off b = .ok u := hu
  unfold loadBits at hu
  split_ifs at hu with hbits
  refine ⟨b[off], List.getElem?_eq_getElem hlt, ?_⟩
  rw [List.drop_eq_getElem_cons hlt] at hbits
  have hx : b[off].toNat + 256 * 0 < 2 := hbits
  show b[off].toNat ≤ 1
  omega

end GoIpc.Schema
