import GoIpc.Schema.Check

namespace GoIpc.Schema

open GoIpc.Lib

/-!
# The layout of checked messages

Every message of a schema that `check` accepts has a valid layout, down to the scalars inside nested
messages and arrays.

* `Slot` — a fixed field: `count` elements from `offset` on;
* `ValidLayout` — alignment, order, least offsets, size and alignment of one message;
* `Sound` — a message and every message it contains were laid out by the placement of `layout`;
* `Contains` — an element at an offset of the outermost message;
* `check_layout` — the layouts of a checked schema are valid.
-/

/-! ### Fixed fields -/

/-- `count` elements, one after another. -/
structure Slot where
  offset : Nat
  count : Nat
  elem : Elem

def Fields.slots : Fields → List Slot
  | .nil => []
  | .one _ e off rest => ⟨off, 1, e⟩ :: rest.slots
  | .array _ n e off rest => ⟨off, n, e⟩ :: rest.slots
  | .var _ _ rest => rest.slots

def Slot.placed (x : Slot) : Placed := ⟨x.offset, x.count * x.elem.size, x.elem.align⟩

/-- The fixed section of a message. -/
def Fields.placed (fs : Fields) : List Placed := fs.slots.map Slot.placed

/-- The type that was declared, without its position. -/
def Ty.bare : Ty → Ty
  | .scalar kind _ => .scalar kind ⟨0, 0⟩
  | .string _ => .string ⟨0, 0⟩
  | .bytes _ => .bytes ⟨0, 0⟩
  | .array len elem _ => .array len elem.bare ⟨0, 0⟩
  | .ref name _ => .ref name ⟨0, 0⟩

def Elem.type : Elem → Ty
  | .scalar kind => .scalar kind ⟨0, 0⟩
  | .ref msg => .ref msg.name ⟨0, 0⟩

/-- The names and types of the fields. -/
def Fields.declared : Fields → List (String × Ty)
  | .nil => []
  | .one name e _ rest => (name, e.type) :: rest.declared
  | .array name n e _ rest => (name, .array n e.type ⟨0, 0⟩) :: rest.declared
  | .var name .string rest => (name, .string ⟨0, 0⟩) :: rest.declared
  | .var name .bytes rest => (name, .bytes ⟨0, 0⟩) :: rest.declared

/-- Whether no field is a string or bytes field. -/
def Fields.fixed : Fields → Bool
  | .nil => true
  | .one _ _ _ rest => rest.fixed
  | .array _ _ _ _ rest => rest.fixed
  | .var _ _ _ => false

/-! ### Valid layouts -/

/-- What the layout of a message promises. -/
structure ValidLayout (m : Laid) : Prop where
  aligned : ∀ p ∈ m.fields.placed, p.align ∣ p.offset
  ordered : m.fields.placed.IsChain (fun p q => p.offset + p.size ≤ q.offset)
  least : ∀ qs, Fits 0 qs →
    List.Forall₂ (fun p q => p.size = q.size ∧ p.align = q.align) m.fields.placed qs →
    List.Forall₂ (fun p q : Placed => p.offset ≤ q.offset) m.fields.placed qs
  size_least :
    IsLeast {n | (∀ p ∈ m.fields.placed, p.offset + p.size ≤ n) ∧ m.align ∣ n} m.fixedSize
  align_greatest : IsGreatest {a | a = 1 ∨ ∃ p ∈ m.fields.placed, p.align = a} m.align
  align_mem : m.align ∈ [1, 2, 4, 8]

/-- An element at an offset of message `m`, at any depth. -/
inductive Contains : Laid → Nat → Elem → Prop
  | field {m : Laid} {x : Slot} {k : Nat} (hx : x ∈ m.fields.slots) (hk : k < x.count) :
      Contains m (x.offset + k * x.elem.size) x.elem
  | nested {m n : Laid} {off off' : Nat} {e : Elem} (h : Contains m off (.ref n))
      (h' : Contains n off' e) : Contains m (off + off') e

/-- The placement of `layout`, for a message and for every message it contains; those have no string or
    bytes fields. -/
inductive Sound : Laid → Prop
  | intro {m : Laid} (htight : Tight 0 m.fields.placed)
      (hsize : m.fixedSize = roundUp (endOf 0 m.fields.placed) m.align)
      (halign : m.align = m.fields.placed.foldl (fun a p => max a p.align) 1)
      (hfixed : ∀ x ∈ m.fields.slots, ∀ n, x.elem = .ref n → n.fields.fixed = true)
      (hsub : ∀ x ∈ m.fields.slots, ∀ n, x.elem = .ref n → Sound n) : Sound m

theorem Scalar.size_mem (k : Scalar) : k.size ∈ [1, 2, 4, 8] := by
  cases k <;> decide

theorem mem_foldl_max (ps : List Placed) (a : Nat) :
    ps.foldl (fun a p => max a p.align) a ∈ a :: ps.map Placed.align := by
  induction ps generalizing a with
  | nil => simp
  | cons p ps ih =>
    have h := ih (max a p.align)
    rw [List.foldl_cons, List.map_cons]
    rcases List.mem_cons.mp h with h | h
    · rcases max_choice a p.align with hmax | hmax <;> rw [h, hmax] <;> simp
    · exact List.mem_cons_of_mem _ (List.mem_cons_of_mem _ h)

theorem le_foldl_max (ps : List Placed) (a : Nat) :
    a ≤ ps.foldl (fun a p => max a p.align) a ∧
    ∀ p ∈ ps, p.align ≤ ps.foldl (fun a p => max a p.align) a := by
  induction ps generalizing a with
  | nil => simp
  | cons p ps ih =>
    obtain ⟨hle, hall⟩ := ih (max a p.align)
    rw [List.foldl_cons]
    refine ⟨(le_max_left ..).trans hle, fun q hq => ?_⟩
    rcases List.mem_cons.mp hq with rfl | hq
    · exact (le_max_right ..).trans hle
    · exact hall q hq

variable {m : Laid} {e : Elem} {s : Schema} {t : Table}

/-- Alignments are 1, 2, 4 or 8. -/
theorem Sound.align_mem (h : Sound m) : m.align ∈ [1, 2, 4, 8] := by
  induction h with
  | @intro m _ _ halign _ _ ih =>
    rw [halign]
    rcases List.mem_cons.mp (mem_foldl_max m.fields.placed 1) with h | h
    · rw [h]
      simp
    · obtain ⟨p, hp, hpa⟩ := List.mem_map.mp h
      obtain ⟨x, hx, rfl⟩ := List.mem_map.mp hp
      rw [← hpa]
      show x.elem.align ∈ [1, 2, 4, 8]
      cases he : x.elem with
      | scalar k => exact k.size_mem
      | ref n => exact ih x hx n he

theorem Sound.align_pos (h : Sound m) : 0 < m.align := by
  have := h.align_mem
  simp only [List.mem_cons, List.not_mem_nil, or_false] at this
  omega

theorem endOf_le_of_bounds {start n : Nat} {ps : List Placed} (hstart : start ≤ n)
    (h : ∀ p ∈ ps, p.offset + p.size ≤ n) : endOf start ps ≤ n := by
  induction ps generalizing start with
  | nil => exact hstart
  | cons p ps ih =>
    exact ih (h p List.mem_cons_self) (fun q hq => h q (List.mem_cons_of_mem _ hq))

/-- **One message**: the placement of `layout` is a valid layout. -/
theorem Sound.valid (h : Sound m) : ValidLayout m := by
  have hpos := h.align_pos
  have hmem := h.align_mem
  cases h with
  | intro htight hsize halign _ _ =>
    have hround := roundUp_isLeast (endOf 0 m.fields.placed) hpos
    rw [← hsize] at hround
    refine ⟨fun p hp => (htight.fits.within hp).2.1, htight.fits.isChain,
      fun qs hfits hsame => htight.least hfits le_rfl hsame, ⟨⟨fun p hp => ?_, hround.1.2⟩, ?_⟩,
      ⟨?_, ?_⟩, hmem⟩
    · exact (htight.fits.within hp).2.2.trans hround.1.1
    · rintro n ⟨hn, hdvd⟩
      exact hround.2 ⟨endOf_le_of_bounds (Nat.zero_le n) hn, hdvd⟩
    · rw [halign]
      rcases List.mem_cons.mp (mem_foldl_max m.fields.placed 1) with h | h
      · exact .inl h
      · obtain ⟨p, hp, hpa⟩ := List.mem_map.mp h
        exact .inr ⟨p, hp, hpa⟩
    · rintro a (rfl | ⟨p, hp, rfl⟩)
      · exact hpos
      · rw [halign]
        exact (le_foldl_max m.fields.placed 1).2 p hp

/-- Powers of two up to 8 divide each other in order. -/
theorem dvd_of_le_of_mem {a b : Nat} (ha : a ∈ [1, 2, 4, 8]) (hb : b ∈ [1, 2, 4, 8]) (hle : a ≤ b) :
    a ∣ b := by
  revert ha hb
  simp only [List.mem_cons, List.not_mem_nil, or_false]
  rintro (rfl | rfl | rfl | rfl) (rfl | rfl | rfl | rfl) <;> omega

/-- An element of a sound message is a scalar, or a sound message without string and bytes fields. -/
def Elem.Sound : Elem → Prop
  | .scalar _ => True
  | .ref m => Schema.Sound m ∧ m.fields.fixed = true

theorem Elem.Sound.align_mem (h : e.Sound) : e.align ∈ [1, 2, 4, 8] := by
  cases e with
  | scalar k => exact k.size_mem
  | ref m => exact h.1.align_mem

/-- Elements of an array follow each other aligned. -/
theorem Elem.Sound.align_dvd_size (h : e.Sound) : e.align ∣ e.size := by
  cases e with
  | scalar k => exact dvd_rfl
  | ref m => exact h.1.valid.size_least.1.2

theorem Sound.elem (h : Sound m) {x : Slot} (hx : x ∈ m.fields.slots) : x.elem.Sound := by
  cases h with
  | intro _ _ _ hfixed hsub =>
    cases he : x.elem with
    | scalar k => trivial
    | ref n => exact ⟨hsub x hx n he, hfixed x hx n he⟩

theorem Sound.elem_align_le (h : Sound m) {x : Slot} (hx : x ∈ m.fields.slots) : x.elem.align ≤ m.align :=
  h.valid.align_greatest.2 (.inr ⟨x.placed, List.mem_map_of_mem hx, rfl⟩)

/-- **Every depth**: an element is inside the outermost message, at a multiple of its alignment, which
    is at most the alignment of the message. -/
theorem Contains.aligned {off : Nat} (h : Contains m off e) (hm : Sound m) :
    e.Sound ∧ e.align ∣ off ∧ off + e.size ≤ m.fixedSize ∧ e.align ≤ m.align := by
  induction h with
  | @field m x k hx hk =>
    have he := hm.elem hx
    have hslot := hm.valid.aligned _ (List.mem_map_of_mem hx)
    have hend := hm.valid.size_least.1.1 _ (List.mem_map_of_mem hx)
    refine ⟨he, Nat.dvd_add hslot (Dvd.dvd.mul_left he.align_dvd_size k), ?_, hm.elem_align_le hx⟩
    calc x.offset + k * x.elem.size + x.elem.size = x.offset + (k + 1) * x.elem.size := by ring
      _ ≤ x.offset + x.count * x.elem.size := by gcongr; omega
      _ ≤ m.fixedSize := hend
  | @nested m n off off' e _ _ ih ih' =>
    obtain ⟨hn, hdvd, hle, ha⟩ := ih hm
    obtain ⟨he, hdvd', hle', ha'⟩ := ih' hn.1
    have hsize : (Elem.ref n).size = n.fixedSize := rfl
    have halign : (Elem.ref n).align = n.align := rfl
    rw [halign] at hdvd ha
    rw [hsize] at hle
    refine ⟨he, ?_, by omega, by omega⟩
    exact Nat.dvd_add ((dvd_of_le_of_mem he.align_mem hn.1.align_mem ha').trans hdvd) hdvd'

/-! ### The layouts of `check` -/

/-- What `layout` has found so far: sound messages, under their names. -/
def Table.Sound (s : Schema) (t : Table) : Prop :=
  ∀ i m, t i = some m → Schema.Sound m ∧ ∃ decl, s.messages[i]? = some decl ∧ m.name = decl.name ∧
    m.fields.declared = decl.fields.map (fun f => (f.name, f.type.bare))

theorem lookup_name {name : String} {i : Nat} (h : s.lookup name = some i) :
    ∃ m, s.messages[i]? = some m ∧ m.name = name := by
  obtain ⟨hi, hname, -⟩ := List.findIdx?_eq_some_iff_getElem.mp h
  exact ⟨s.messages[i], List.getElem?_eq_getElem hi, by simpa using hname⟩

theorem Ty.isVar_bare (t : Ty) : t.bare.isVar = t.isVar := by
  cases t <;> rfl

theorem Elem.isVar_type (e : Elem) : e.type.isVar = false := by
  cases e <;> rfl

theorem Fields.fixed_eq (fs : Fields) : fs.fixed = !fs.declared.any (fun d => d.2.isVar) := by
  match fs with
  | .nil => rfl
  | .one _ e _ rest => simp [Fields.fixed, Fields.declared, rest.fixed_eq, e.isVar_type]
  | .array _ n e _ rest =>
    have : (Ty.array n e.type ⟨0, 0⟩).isVar = false := rfl
    simp [Fields.fixed, Fields.declared, rest.fixed_eq, this]
  | .var _ .string rest => rfl
  | .var _ .bytes rest => rfl

/-- The layout of a message has string and bytes fields when the message has. -/
theorem fixed_of_declared {fields : Fields} {m : Message}
    (h : fields.declared = m.fields.map (fun f => (f.name, f.type.bare))) : fields.fixed = m.fixed := by
  rw [Fields.fixed_eq, h, Message.fixed, List.any_map]
  congr 2
  funext f
  exact f.type.isVar_bare

/-- `types` lets a field refer only to messages without string and bytes fields. -/
def Ty.RefFixed (s : Schema) : Ty → Prop
  | .ref name _ => s.notFixed name = false
  | .array _ elem _ => elem.RefFixed s
  | _ => True

theorem elemOf_sound {type : Ty} (ht : t.Sound s) (hfix : type.RefFixed s) (h : elemOf s t type = some e) :
    e.Sound ∧ e.type = type.bare := by
  cases type with
  | scalar kind pos =>
    cases h
    exact ⟨trivial, rfl⟩
  | ref name pos =>
    simp only [elemOf, Option.map_eq_some_iff, Option.bind_eq_some_iff] at h
    obtain ⟨m, ⟨i, hlookup, hti⟩, rfl⟩ := h
    obtain ⟨hsound, decl, hdecl, hname, hdeclared⟩ := ht i m hti
    obtain ⟨decl', hdecl', hname'⟩ := lookup_name hlookup
    rw [hdecl] at hdecl'
    cases hdecl'
    have hfixed : m.fields.fixed = true := by
      simp only [Ty.RefFixed, Schema.notFixed, hlookup, Option.bind_some, hdecl] at hfix
      rw [fixed_of_declared hdeclared]
      simpa using hfix
    refine ⟨⟨hsound, hfixed⟩, ?_⟩
    show Ty.ref m.name ⟨0, 0⟩ = Ty.ref name ⟨0, 0⟩
    rw [hname, hname']
  | string | bytes | array => cases h

/-- What the loop over the fields promises of the fields from `c` on. -/
structure Laying (c c' : Cursor) (fs : List Field) (fields : Fields) : Prop where
  tight : Tight c.off fields.placed
  off : c'.off = endOf c.off fields.placed
  align : c'.align = fields.placed.foldl (fun a p => max a p.align) c.align
  sub : ∀ x ∈ fields.slots, x.elem.Sound
  declared : fields.declared = fs.map (fun f => (f.name, f.type.bare))

theorem Cursor.place_eq (c : Cursor) (size align : Nat) :
    c.place size align = (roundUp c.off align, ⟨roundUp c.off align + size, max c.align align⟩) := by
  unfold Cursor.place
  simp only [Nat.max_def, gt_iff_lt]
  congr 2
  split_ifs <;> omega

theorem Elem.Sound.align_pos (h : e.Sound) : 0 < e.align := by
  have := h.align_mem
  simp only [List.mem_cons, List.not_mem_nil, or_false] at this
  omega

/-- One more slot in front. -/
theorem Laying.cons {c c' : Cursor} {fs : List Field} {f : Field} {fields fields' : Fields} {x : Slot}
    (hx : x.elem.Sound) (hoff : x.offset = roundUp c.off x.elem.align)
    (h : Laying ⟨x.offset + x.count * x.elem.size, max c.align x.elem.align⟩ c' fs fields)
    (hslots : fields'.slots = x :: fields.slots)
    (hdecl : fields'.declared = (f.name, f.type.bare) :: fields.declared) :
    Laying c c' (f :: fs) fields' := by
  have hplaced : fields'.placed = x.placed :: fields.placed := by
    rw [Fields.placed, hslots]
    rfl
  refine ⟨?_, ?_, ?_, ?_, ?_⟩
  · rw [hplaced]
    refine ⟨?_, h.tight⟩
    show IsLeast _ x.offset
    rw [hoff]
    exact roundUp_isLeast c.off hx.align_pos
  · rw [hplaced]
    exact h.off
  · rw [hplaced]
    exact h.align
  · rw [hslots]
    rintro y hy
    rcases List.mem_cons.mp hy with rfl | hy
    · exact hx
    · exact h.sub y hy
  · rw [hdecl, h.declared]
    rfl

/-- The loop over the fields of a message. -/
theorem layoutFields_laying (ht : t.Sound s) {m : Message} {fs : List Field}
    (hfix : ∀ f ∈ fs, f.type.RefFixed s) {c c' : Cursor} {fields : Fields}
    (h : layoutFields s t m c fs = .ok (fields, c')) : Laying c c' fs fields := by
  induction fs generalizing c fields with
  | nil =>
    cases h
    exact ⟨trivial, rfl, rfl, fun x hx => absurd hx List.not_mem_nil, rfl⟩
  | cons f fs ih =>
    replace ih := @ih (fun g hg => hfix g (List.mem_cons_of_mem _ hg))
    have hfix := hfix f List.mem_cons_self
    simp only [layoutFields] at h
    split at h
    -- strings and bytes take no space in the fixed part
    · next hty =>
      obtain ⟨⟨rest, c1⟩, hrest, heq⟩ := except_bind_eq_ok.mp h
      cases heq
      have hlay := ih hrest
      refine ⟨hlay.tight, hlay.off, hlay.align, hlay.sub, ?_⟩
      rw [List.map_cons, ← hlay.declared, hty]
      rfl
    · next hty =>
      obtain ⟨⟨rest, c1⟩, hrest, heq⟩ := except_bind_eq_ok.mp h
      cases heq
      have hlay := ih hrest
      refine ⟨hlay.tight, hlay.off, hlay.align, hlay.sub, ?_⟩
      rw [List.map_cons, ← hlay.declared, hty]
      rfl
    · next len elem pos hty =>
      split at h
      · cases h
      · next e he =>
        have hfix : elem.RefFixed s := by
          rwa [hty] at hfix
        obtain ⟨hsound, htype⟩ := elemOf_sound ht hfix he
        rw [Cursor.place_eq] at h
        simp only at h
        split_ifs at h
        obtain ⟨⟨rest, c1⟩, hrest, heq⟩ := except_bind_eq_ok.mp h
        cases heq
        refine Laying.cons (x := ⟨_, len, e⟩) hsound rfl (ih hrest) rfl ?_
        rw [hty, Ty.bare, ← htype]
        rfl
    · split at h
      · cases h
      · next e he =>
        obtain ⟨hsound, htype⟩ := elemOf_sound ht hfix he
        rw [Cursor.place_eq] at h
        simp only at h
        split_ifs at h
        obtain ⟨⟨rest, c1⟩, hrest, heq⟩ := except_bind_eq_ok.mp h
        cases heq
        refine Laying.cons (x := ⟨_, 1, e⟩) hsound rfl ?_ rfl ?_
        · have := ih hrest
          rwa [Nat.one_mul]
        · rw [← htype]
          rfl

theorem layoutMessage_sound (ht : t.Sound s) {m : Message} (hfix : ∀ f ∈ m.fields, f.type.RefFixed s)
    {laid : Laid} (h : layoutMessage s t m = .ok laid) :
    Sound laid ∧ laid.name = m.name ∧
      laid.fields.declared = m.fields.map (fun f => (f.name, f.type.bare)) := by
  obtain ⟨⟨fields, c⟩, hfields, heq⟩ := except_bind_eq_ok.mp h
  cases heq
  have hlay := layoutFields_laying ht hfix hfields
  refine ⟨.intro hlay.tight ?_ hlay.align ?_ ?_, rfl, hlay.declared⟩
  · show roundUp c.off c.align = roundUp (endOf 0 fields.placed) c.align
    rw [hlay.off]
  · intro x hx n hn
    have := hlay.sub x hx
    rw [hn] at this
    exact this.2
  · intro x hx n hn
    have := hlay.sub x hx
    rw [hn] at this
    exact this.1

theorem Table.Sound.set (ht : t.Sound s) {i : Nat} {decl : Message} {laid : Laid}
    (hdecl : s.messages[i]? = some decl) (hsound : Schema.Sound laid) (hname : laid.name = decl.name)
    (hdeclared : laid.fields.declared = decl.fields.map (fun f => (f.name, f.type.bare))) :
    Table.Sound s (fun j => if j = i then some laid else t j) := by
  intro j m hj
  simp only at hj
  split_ifs at hj with hji
  · cases hj
    rw [hji]
    exact ⟨hsound, decl, hdecl, hname, hdeclared⟩
  · exact ht j m hj

/-- The run over the messages: every message in the list gets its layout. -/
theorem layout_sound (hfix : ∀ m ∈ s.messages, ∀ f ∈ m.fields, f.type.RefFixed s) {t' : Table}
    {is : List Nat} (ht : t.Sound s) (h : layout s t is = .ok t') :
    t'.Sound s ∧ ∀ i, (i ∈ is ∨ (t i).isSome) → (t' i).isSome := by
  induction is generalizing t with
  | nil =>
    cases h
    exact ⟨ht, fun i hi => hi.resolve_left List.not_mem_nil⟩
  | cons i is ih =>
    simp only [layout] at h
    split at h
    · cases h
    · next decl hdecl =>
      obtain ⟨laid, hlaid, hrest⟩ := except_bind_eq_ok.mp h
      obtain ⟨hsound, hname, hdeclared⟩ := layoutMessage_sound ht (hfix decl (List.mem_of_getElem? hdecl)) hlaid
      have ht1 := ht.set hdecl hsound hname hdeclared
      obtain ⟨ht', hall⟩ := ih ht1 hrest
      refine ⟨ht', fun j hj => hall j ?_⟩
      rcases hj with hj | hj
      · rcases List.mem_cons.mp hj with rfl | hj
        · exact .inr (by simp)
        · exact .inl hj
      · refine .inr ?_
        split_ifs
        · rfl
        · exact hj

/-! ### Every message is visited -/

/-- What a visit keeps: messages that are done, and problems. -/
def Visits.Grows (v v' : Visits) : Prop :=
  (v'.problems = [] → v.problems = []) ∧ ∀ i ∈ v.sorted, i ∈ v'.sorted

theorem Visits.Grows.refl (v : Visits) : v.Grows v := ⟨id, fun _ h => h⟩

theorem Visits.Grows.trans {v v' v'' : Visits} (h : v.Grows v') (h' : v'.Grows v'') : v.Grows v'' :=
  ⟨fun hp => h.1 (h'.1 hp), fun i hi => h'.2 i (h.2 i hi)⟩

theorem grows_foldl {f : Visits → Nat → Visits} (hf : ∀ (v : Visits) i, v.Grows (f v i)) (is : List Nat)
    (v : Visits) : v.Grows (is.foldl f v) := by
  induction is generalizing v with
  | nil => exact .refl v
  | cons i is ih => exact (hf v i).trans (ih (f v i))

theorem visit_grows (s : Schema) (fuel i : Nat) (v : Visits) :
    v.Grows (visit s fuel i v) ∧ ((visit s fuel i v).problems = [] → i ∈ (visit s fuel i v).sorted) := by
  induction fuel generalizing i v with
  | zero => exact ⟨⟨fun h => by simp [visit] at h, fun _ h => h⟩, fun h => by simp [visit] at h⟩
  | succ fuel ih =>
    rw [visit]
    split_ifs with hactive hdone
    · exact ⟨⟨fun h => by simp at h, fun _ h => h⟩, fun h => by simp at h⟩
    · exact ⟨.refl v, fun _ => hdone⟩
    · have hrefs := grows_foldl (fun v r => (ih r v).1) (refs s i) { v with stack := v.stack ++ [i] }
      exact ⟨⟨hrefs.1, fun j hj => List.mem_append_left _ (hrefs.2 j hj)⟩, fun _ => by simp⟩

/-- The messages of a loop that reports nothing are done. -/
theorem mem_sorted_of_foldl {fuel : Nat} {is : List Nat} {v : Visits} {i : Nat} (hi : i ∈ is)
    (h : (is.foldl (fun v i => visit s fuel i v) v).problems = []) :
    i ∈ (is.foldl (fun v i => visit s fuel i v) v).sorted := by
  induction is generalizing v with
  | nil => cases hi
  | cons j is ih =>
    rcases List.mem_cons.mp hi with rfl | hi
    · have hgrows := grows_foldl (fun v i => (visit_grows s fuel i v).1) is (visit s fuel i v)
      exact hgrows.2 i ((visit_grows s fuel i v).2 (hgrows.1 h))
    · exact ih hi h

theorem mem_sorted_of_cycles (h : (cycles s).problems = []) {i : Nat} (hi : i < s.messages.length) :
    i ∈ (cycles s).sorted :=
  mem_sorted_of_foldl (List.mem_range.mpr hi) h

/-- What `check` does for a schema it accepts. -/
theorem check_eq_ok {c : Checked} (h : check s = .ok c) :
    nameProblems s ++ typeProblems s = [] ∧ (cycles s).problems = [] ∧
    c.sorted = (cycles s).sorted ∧ layout s (fun _ => none) (cycles s).sorted = .ok c.msg := by
  simp only [check] at h
  split_ifs at h with hproblems hcycles
  split at h <;> cases h
  next t ht =>
    exact ⟨not_not.mp hproblems, not_not.mp hcycles, rfl, ht⟩

theorem refFixed_of_typeProblems (h : typeProblems s = []) :
    ∀ m ∈ s.messages, ∀ f ∈ m.fields, f.type.RefFixed s := by
  intro m hm f hf
  have hfield := List.flatMap_eq_nil_iff.mp (List.flatMap_eq_nil_iff.mp h m hm) f hf
  obtain ⟨hresolve, hmatch⟩ := List.append_eq_nil_iff.mp hfield
  cases htype : f.type with
  | scalar | string | bytes => trivial
  | ref name pos =>
    rw [htype] at hmatch
    simp only [ite_eq_right_iff, reduceCtorEq, imp_false, Bool.not_eq_true] at hmatch
    exact hmatch
  | array len elem pos =>
    rw [htype] at hresolve
    cases elem with
    | scalar => trivial
    | string | bytes | array => simp [resolve] at hresolve
    | ref name pos' =>
      simp only [resolve, List.append_eq_nil_iff, ite_eq_right_iff, reduceCtorEq, imp_false,
        Bool.not_eq_true] at hresolve
      exact hresolve.2.2

/-- Every declared message of an accepted schema has a sound layout. -/
theorem check_sound {c : Checked} (h : check s = .ok c) {i : Nat} {m : Message}
    (hm : s.messages[i]? = some m) :
    ∃ laid, c.msg i = some laid ∧ laid.name = m.name ∧
      laid.fields.declared = m.fields.map (fun f => (f.name, f.type.bare)) ∧ Sound laid := by
  obtain ⟨hproblems, hcycles, -, hlayout⟩ := check_eq_ok h
  have hfix := refFixed_of_typeProblems (List.append_eq_nil_iff.mp hproblems).2
  obtain ⟨hsound, hall⟩ := layout_sound hfix (fun _ _ h => (by cases h)) hlayout
  have hi : i < s.messages.length := by
    rw [List.getElem?_eq_some_iff] at hm
    exact hm.1
  obtain ⟨laid, hlaid⟩ := Option.isSome_iff_exists.mp (hall i (.inl (mem_sorted_of_cycles hcycles hi)))
  obtain ⟨hlaidSound, decl, hdecl, hname, hdeclared⟩ := hsound i laid hlaid
  rw [hm] at hdecl
  cases hdecl
  exact ⟨laid, hlaid, hname, hdeclared, hlaidSound⟩

/-- **The layout is valid**: every message of a schema that `check` accepts has a valid layout, and every
    element at any depth starts at a multiple of its alignment, a scalar at a multiple of its size. -/
theorem check_layout {s : Schema} {c : Checked} (h : check s = .ok c) {i : Nat} {m : Message}
    (hm : s.messages[i]? = some m) :
    ∃ laid, c.msg i = some laid ∧ laid.name = m.name ∧
      laid.fields.declared = m.fields.map (fun f => (f.name, f.type.bare)) ∧ ValidLayout laid ∧
      ∀ off e, Contains laid off e → e.align ∣ off ∧ off + e.size ≤ laid.fixedSize ∧
        ∀ kind, e = .scalar kind → kind.size ∣ off := by
  obtain ⟨laid, hlaid, hname, hdeclared, hsound⟩ := check_sound h hm
  refine ⟨laid, hlaid, hname, hdeclared, hsound.valid, fun off e he => ?_⟩
  obtain ⟨-, hdvd, hle, -⟩ := he.aligned hsound
  refine ⟨hdvd, hle, ?_⟩
  rintro kind rfl
  exact hdvd

/-- A message of two bytes and one, and an array of two of them after two bytes. -/
def pairs : Schema :=
  ⟨"pairs.ipc", "pairs", ⟨1, 9⟩,
    [⟨"Inner", 1, [⟨"a", .scalar .u16 ⟨3, 4⟩, ⟨3, 2⟩⟩, ⟨"b", .scalar .u8 ⟨4, 4⟩, ⟨4, 2⟩⟩], ⟨2, 9⟩, ⟨2, 17⟩⟩,
      ⟨"Outer", 2, [⟨"x", .scalar .u16 ⟨7, 4⟩, ⟨7, 2⟩⟩,
        ⟨"inner", .array 2 (.ref "Inner" ⟨8, 11⟩) ⟨8, 8⟩, ⟨8, 2⟩⟩], ⟨6, 9⟩, ⟨6, 17⟩⟩]⟩

theorem check_pairs : ∃ c, check pairs = .ok c ∧
    (c.msg 1).map (fun m => m.fields.slots.map fun x => (x.offset, x.count, x.elem.size)) =
      some [(0, 1, 2), (2, 2, 4)] := by
  have h : (match check pairs with
      | .ok c => decide ((c.msg 1).map (fun m => m.fields.slots.map fun x =>
          (x.offset, x.count, x.elem.size)) = some [(0, 1, 2), (2, 2, 4)])
      | .error _ => false) = true := by decide +kernel
  split at h
  · next c hc => exact ⟨c, hc, of_decide_eq_true h⟩
  · cases h

/-- An element of an array of messages need not start at a multiple of its own size: `Inner` has four
    bytes, and the first one in `Outer` starts at offset 2. -/
theorem element_not_at_multiple : ∃ s c i laid off e, check s = .ok c ∧ c.msg i = some laid ∧
    Contains laid off e ∧ ¬ e.size ∣ off := by
  obtain ⟨c, hc, hslots⟩ := check_pairs
  obtain ⟨laid, hlaid, hslots⟩ := Option.map_eq_some_iff.mp hslots
  rw [List.map_eq_cons_iff] at hslots
  obtain ⟨x, xs, hx, -, hxs⟩ := hslots
  obtain ⟨y, ys, rfl, hy, -⟩ := List.map_eq_cons_iff.mp hxs
  simp only [Prod.mk.injEq] at hy
  have hmem : y ∈ laid.fields.slots := by rw [hx]; simp
  refine ⟨pairs, c, 1, laid, _, y.elem, hc, hlaid, .field hmem (k := 0) (by omega), ?_⟩
  rw [hy.1, hy.2.2]
  decide

theorem check_layout_pairs : ∃ c, check pairs = .ok c ∧ ∃ laid, c.msg 1 = some laid ∧
    laid.name = "Outer" ∧ ValidLayout laid := by
  obtain ⟨c, hc, -⟩ := check_pairs
  obtain ⟨laid, hlaid, hname, -, hvalid, -⟩ := check_layout hc (i := 1) rfl
  exact ⟨c, hc, laid, hlaid, hname, hvalid⟩

end GoIpc.Schema
