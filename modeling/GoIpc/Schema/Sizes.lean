import Mathlib.Data.Int.Interval
import GoIpc.Schema.Grammar
import GoIpc.Schema.Layout

namespace GoIpc.Schema

open GoIpc.Lib

/-!
# The sizes of checked messages

`layout` computes with `int64`.  `layout64` is `layout` with every sum and product tested for the range of
an `int64`; for a schema that `parse` returns no test fails and it finds what the exact `layout` finds.

* `Ty.Short` — array lengths fit in 31 bits, as `parse` leaves them (`parse_short`);
* `check64_eq` — nothing overflows;
* `Packs`, `Ty.Extent` — where the fixed fields of a declared message end, and the size of a declared type,
  by the rules of C and from the declarations alone;
* `check_sizes` — a fixed field starts and ends within `maxFixedSize`, and the messages do just if their
  last fields leave room for the rounding.
-/

variable {s : Schema}

/-! ### Layout in `int64` -/

/-- Why `Check` stops: at a problem of the schema, or at a sum or product that is not an `int64`. -/
inductive Stop
  | problem (p : Problem)
  | overflow

/-- The result of a sum or product. -/
def int64 (x : Int) : Except Stop Int := if -2 ^ 63 ≤ x ∧ x < 2 ^ 63 then .ok x else .error .overflow

/-- `roundUp`, from left to right. -/
def roundUp64 (n a : Int) : Except Stop Int := do
  let sum ← int64 (n + a)
  let most ← int64 (sum - 1)
  let quotient ← int64 (most.tdiv a)
  int64 (quotient * a)

/-- A message after `layout`: `Offset` of its fixed fields, `FixedSize` and `Align`. -/
structure Laid64 where
  offsets : List Int
  fixedSize : Int
  align : Int

abbrev Table64 := Nat → Option Laid64

section

variable (s : Schema)

/-- `Type.Size` and `Type.Align` of an element type. -/
def elem64 (t : Table64) : Ty → Option (Int × Int)
  | .scalar kind _ => some (kind.size, kind.size)
  | .ref name _ => ((s.lookup name).bind t).map fun m => (m.fixedSize, m.align)
  | _ => none

/-- `fieldSize` and `Type.Align` of a fixed field.  The element counts once if there is no array. -/
def fieldSize64 (t : Table64) (f : Field) : Except Stop (Int × Int) :=
  match f.type with
  | .array len elem _ =>
      match elem64 s t elem with
      | none => .error (.problem ⟨f.pos, .stuck⟩)
      | some (size, a) => (int64 (len * size)).map (·, a)
  | type =>
      match elem64 s t type with
      | none => .error (.problem ⟨f.pos, .stuck⟩)
      | some r => .ok r

/-- The loop over the fields of message `m`; the result has the offsets, and `off` and `align`. -/
def layoutFields64 (t : Table64) (m : Message) (off align : Int) :
    List Field → Except Stop (List Int × Int × Int)
  | [] => .ok ([], off, align)
  | f :: fs =>
      if f.type.isVar then layoutFields64 t m off align fs
      else do
        let (size, a) ← fieldSize64 s t f
        let offset ← roundUp64 off a
        let off ← int64 (offset + size)
        if off > maxFixedSize then .error (.problem ⟨f.pos, .tooLarge m.name maxFixedSize⟩)
        else
          let (offsets, r) ← layoutFields64 t m off (if a > align then a else align) fs
          return (offset :: offsets, r)

def layoutMessage64 (t : Table64) (m : Message) : Except Stop Laid64 := do
  let (offsets, off, align) ← layoutFields64 s t m 0 1 m.fields
  let size ← roundUp64 off align
  return ⟨offsets, size, align⟩

def layout64 (t : Table64) : List Nat → Except Stop Table64
  | [] => .ok t
  | i :: rest =>
      match s.messages[i]? with
      | none => .error (.problem ⟨⟨0, 0⟩, .stuck⟩)
      | some m => do
          let msg ← layoutMessage64 s t m
          layout64 (fun j => if j = i then some msg else t j) rest

/-- `Check` with the `int64` of `layout`; the result has `Sorted` and the messages. -/
def check64 : Except (List Stop) (List Nat × Table64) :=
  let problems := nameProblems s ++ typeProblems s
  if problems ≠ [] then .error ((problems.mergeSort Problem.le).map .problem)
  else
    let v := cycles s
    if v.problems ≠ [] then .error ((v.problems.mergeSort Problem.le).map .problem)
    else
      match layout64 s (fun _ => none) v.sorted with
      | .error stop => .error [stop]
      | .ok t => .ok (v.sorted, t)

end

/-! ### Array lengths -/

/-- Array lengths fit in 31 bits. -/
def Ty.Short : Ty → Prop
  | .array len elem _ => len < 2 ^ 31 ∧ elem.Short
  | _ => True

variable {type : Ty} {fs : List Field} {t : Table} {c : Cursor} {m : Message}

theorem NamedType.short {pos : Pos} {name : String} (h : NamedType pos name type) : type.Short := by
  cases h <;> trivial

theorem DerivesType.short {ts rest : List Token} (h : DerivesType ts type rest) : type.Short := by
  induction h with
  | name _ htype => exact htype.short
  | array _ _ _ hfits _ _ ih => exact ⟨hfits, ih⟩

theorem DerivesFields.short {ts rest : List Token} {fields : List Field}
    (h : DerivesFields ts fields rest) : ∀ f ∈ fields, f.type.Short := by
  induction h with
  | close => exact nofun
  | field _ _ htype _ _ ih =>
    rintro f hf
    rcases List.mem_cons.mp hf with rfl | hf
    · exact htype.short
    · exact ih f hf

theorem DerivesMessages.short {ts : List Token} {ms : List Message} (h : DerivesMessages ts ms) :
    ∀ m ∈ ms, ∀ f ∈ m.fields, f.type.Short := by
  induction h with
  | eof => exact nofun
  | message _ _ _ hm _ ih =>
    rintro m' hm'
    rcases List.mem_cons.mp hm' with rfl | hm'
    · cases hm with
      | message _ _ _ _ _ _ h => exact h.short
    · exact ih m' hm'

/-- `parse` admits array lengths up to `2 ^ 31 - 1`. -/
theorem parse_short {file : String} {src : List UInt8} (h : parse file src = .ok s) :
    ∀ m ∈ s.messages, ∀ f ∈ m.fields, f.type.Short := by
  rw [parse_eq] at h
  cases hlex : lex file src with
  | error e =>
    rw [hlex] at h
    cases h
  | ok ts =>
    rw [hlex] at h
    obtain ⟨⟨s', rest⟩, hs, rfl⟩ := map_eq_ok.mp h
    cases (schema_eq_ok (lex_eq_ok.mp hlex).ended).mp ⟨rest, hs⟩ with
    | schema _ _ _ _ _ hms => exact hms.short

/-! ### Sizes of declared types -/

mutual

/-- The size and the alignment of a declared fixed type: those of a message are the least multiple of its
    alignment behind its last fixed field, and the largest alignment of its fields. -/
inductive Ty.Extent (s : Schema) : Ty → Nat → Nat → Prop
  | scalar {kind : Scalar} {pos : Pos} : Ty.Extent s (.scalar kind pos) kind.size kind.size
  | ref {name : String} {pos : Pos} {i off a size : Nat} {m : Message} (hname : s.lookup name = some i)
      (hmsg : s.messages[i]? = some m) (hfields : Packs s 0 1 m.fields off a)
      (hsize : IsLeast {n | off ≤ n ∧ a ∣ n} size) : Ty.Extent s (.ref name pos) size a
  | array {len size a : Nat} {elem : Ty} {pos : Pos} (helem : Ty.Extent s elem size a) :
      Ty.Extent s (.array len elem pos) (len * size) a

/-- Fixed fields packed from `off` on, each at the least multiple of its alignment, end at `off'`; `a'` is
    the largest of their alignments and `a`. -/
inductive Packs (s : Schema) : Nat → Nat → List Field → Nat → Nat → Prop
  | nil {off a : Nat} : Packs s off a [] off a
  | var {off a off' a' : Nat} {f : Field} {fs : List Field} (hvar : f.type.isVar = true)
      (hrest : Packs s off a fs off' a') : Packs s off a (f :: fs) off' a'
  | fixed {off a size b start off' a' : Nat} {f : Field} {fs : List Field} (htype : f.type.Extent s size b)
      (hstart : IsLeast {n | off ≤ n ∧ b ∣ n} start) (hrest : Packs s (start + size) (max a b) fs off' a') :
      Packs s off a (f :: fs) off' a'

end

theorem Ty.Extent.isVar {size a : Nat} (h : type.Extent s size a) : type.isVar = false := by
  cases h <;> rfl

/-- Fixed fields end at one place. -/
theorem Packs.unique {off a off₁ a₁ off₂ a₂ : Nat} (h : Packs s off a fs off₁ a₁)
    (h' : Packs s off a fs off₂ a₂) : off₁ = off₂ ∧ a₁ = a₂ := by
  -- along the derivation, together with: a declared type has one size
  refine @Packs.rec s
    (fun type size a _ => ∀ {size' a'}, type.Extent s size' a' → size = size' ∧ a = a')
    (fun off a fs off₁ a₁ _ => ∀ {off₂ a₂}, Packs s off a fs off₂ a₂ → off₁ = off₂ ∧ a₁ = a₂)
    ?scalar ?ref ?array ?nil ?var ?fixed off a fs off₁ a₁ h off₂ a₂ h'
  case scalar =>
    intro kind pos size' a' h'
    cases h'
    exact ⟨rfl, rfl⟩
  case ref =>
    intro name pos i off a size m hname hmsg _ hsize ih size' a' h'
    cases h' with
    | ref hname' hmsg' hfields' hsize' =>
      obtain rfl := Option.some_inj.mp (hname.symm.trans hname')
      obtain rfl := Option.some_inj.mp (hmsg.symm.trans hmsg')
      obtain ⟨rfl, rfl⟩ := ih hfields'
      exact ⟨hsize.unique hsize', rfl⟩
  case array =>
    intro len size a elem pos _ ih size' a' h'
    cases h' with
    | array helem' =>
      obtain ⟨rfl, rfl⟩ := ih helem'
      exact ⟨rfl, rfl⟩
  case nil =>
    intro off a off₂ a₂ h'
    cases h'
    exact ⟨rfl, rfl⟩
  case var =>
    intro off a off₁ a₁ f fs hvar _ ih off₂ a₂ h'
    cases h' with
    | var _ hrest' => exact ih hrest'
    | fixed htype' => exact absurd hvar (by simp [htype'.isVar])
  case fixed =>
    intro off a size b start off₁ a₁ f fs htype hstart _ ihtype ih off₂ a₂ h'
    cases h' with
    | var hvar => exact absurd hvar (by simp [htype.isVar])
    | fixed htype' hstart' hrest' =>
      obtain ⟨rfl, rfl⟩ := ihtype htype'
      obtain rfl := hstart.unique hstart'
      exact ih hrest'

/-! ### Nothing overflows -/

/-- The `int64` of a message. -/
def Laid.to64 (m : Laid) : Laid64 := ⟨m.fields.slots.map (fun x => x.offset), m.fixedSize, m.align⟩

def Table.to64 (t : Table) : Table64 := fun i => (t i).map Laid.to64

theorem int64_natCast {n : Nat} (h : n < 2 ^ 63) : int64 n = .ok n := by
  unfold int64
  rw [if_pos]
  omega

theorem ok_bind {ε α β : Type} (x : α) (f : α → Except ε β) : (Except.ok x >>= f) = f x := (rfl)

theorem roundUp_le (n a : Nat) : roundUp n a ≤ n + a - 1 := by
  have h := Nat.div_add_mod (n + a - 1) a
  rw [Nat.mul_comm] at h
  unfold roundUp
  omega

theorem roundUp64_natCast {n a : Nat} (ha : 0 < a) (h : n + a < 2 ^ 63) :
    roundUp64 n a = .ok (roundUp n a : Nat) := by
  have hle := roundUp_le n a
  have hdiv : (n + a - 1) / a ≤ n + a - 1 := Nat.div_le_self ..
  have hsub : ((n + a : Nat) : Int) - 1 = (n + a - 1 : Nat) := by omega
  have htdiv : ((n + a - 1 : Nat) : Int).tdiv (a : Nat) = ((n + a - 1) / a : Nat) := rfl
  unfold roundUp64
  simp only [← Nat.cast_add, int64_natCast h, ok_bind, hsub, int64_natCast (show n + a - 1 < 2 ^ 63 by omega),
    htdiv, int64_natCast (show (n + a - 1) / a < 2 ^ 63 by omega), ← Nat.cast_mul]
  exact int64_natCast (by unfold roundUp at hle; omega)

/-- The fields of every message end within the bound, and where the declaration of the message says. -/
def Table.Small (s : Schema) (t : Table) : Prop :=
  ∀ i m, t i = some m → endOf 0 m.fields.placed ≤ maxFixedSize ∧
    ∃ decl, s.messages[i]? = some decl ∧ Packs s 0 1 decl.fields (endOf 0 m.fields.placed) m.align

/-- A multiple of 8 bounds the rounding to an alignment. -/
theorem roundUp_le_of_align {n a : Nat} (ha : a ∈ [1, 2, 4, 8]) (hn : n ≤ maxFixedSize) :
    roundUp n a ≤ 2 ^ 31 := by
  have hpos : 0 < a := by
    simp only [List.mem_cons, List.not_mem_nil, or_false] at ha
    omega
  have hdvd : a ∣ 2 ^ 31 := (dvd_of_le_of_mem ha (by decide) (by
    simp only [List.mem_cons, List.not_mem_nil, or_false] at ha
    omega)).trans (show 8 ∣ 2 ^ 31 by decide)
  refine (roundUp_isLeast n hpos).2 ⟨hn.trans ?_, hdvd⟩
  unfold maxFixedSize
  omega

theorem Sound.fixedSize_le {m : Laid} (h : Sound m) (hend : endOf 0 m.fields.placed ≤ maxFixedSize) :
    m.fixedSize ≤ 2 ^ 31 := by
  have ha := h.align_mem
  cases h with
  | intro _ hsize _ _ _ =>
    rw [hsize]
    exact roundUp_le_of_align ha hend

/-- The elements of a fixed field: an array has `len`, any other field one. -/
def fixedOf (s : Schema) (t : Table) : Ty → Option (Nat × Elem)
  | .array len elem _ => (elemOf s t elem).map (len, ·)
  | type => (elemOf s t type).map (1, ·)

theorem elem64_eq (t : Table) (type : Ty) :
    elem64 s t.to64 type = (elemOf s t type).map fun e => ((e.size : Int), (e.align : Int)) := by
  cases type with
  | ref name pos =>
    simp only [elem64, elemOf, Option.map_map]
    cases s.lookup name with
    | none => rfl
    | some i => cases h : t i <;> simp [Table.to64, h, Laid.to64, Elem.size, Elem.align]
  | _ => rfl

theorem elemOf_size_le (ht : t.Sound s) (hsmall : t.Small s) {e : Elem} (h : elemOf s t type = some e) :
    e.size ≤ 2 ^ 31 := by
  cases type with
  | scalar kind pos =>
    cases h
    cases kind <;> decide
  | ref name pos =>
    simp only [elemOf, Option.map_eq_some_iff, Option.bind_eq_some_iff] at h
    obtain ⟨m, ⟨i, -, hti⟩, rfl⟩ := h
    exact (ht i m hti).1.fixedSize_le (hsmall i m hti).1
  | string | bytes | array => cases h

/-- What is known of the elements of a fixed field. -/
theorem fixedOf_bounds (ht : t.Sound s) (hsmall : t.Small s) (hfix : type.RefFixed s) (hshort : type.Short)
    {n : Nat} {e : Elem} (h : fixedOf s t type = some (n, e)) :
    n * e.size < 2 ^ 62 ∧ e.align ∈ [1, 2, 4, 8] := by
  unfold fixedOf at h
  split at h
  · next len elem pos =>
    obtain ⟨e', he, heq⟩ := Option.map_eq_some_iff.mp h
    cases heq
    have hsize := elemOf_size_le ht hsmall he
    have hfix : elem.RefFixed s := hfix
    refine ⟨?_, (elemOf_sound ht hfix he).1.align_mem⟩
    calc n * e.size ≤ (2 ^ 31 - 1) * 2 ^ 31 := Nat.mul_le_mul (Nat.le_sub_one_of_lt hshort.1) hsize
      _ < 2 ^ 62 := by norm_num
  · obtain ⟨e', he, heq⟩ := Option.map_eq_some_iff.mp h
    cases heq
    have hsize := elemOf_size_le ht hsmall he
    exact ⟨by omega, (elemOf_sound ht hfix he).1.align_mem⟩

/-- The elements of a fixed field have the size of its declared type. -/
theorem fixedOf_extent (ht : t.Sound s) (hsmall : t.Small s) {n : Nat} {e : Elem}
    (h : fixedOf s t type = some (n, e)) : type.Extent s (n * e.size) e.align := by
  have helem : ∀ {type : Ty} {e : Elem}, elemOf s t type = some e → type.Extent s e.size e.align := by
    intro type e h
    cases type with
    | scalar kind pos =>
      cases h
      exact .scalar
    | ref name pos =>
      simp only [elemOf, Option.map_eq_some_iff, Option.bind_eq_some_iff] at h
      obtain ⟨m, ⟨i, hname, hti⟩, rfl⟩ := h
      obtain ⟨-, decl, hdecl, hpacks⟩ := hsmall i m hti
      have hpos := (ht i m hti).1.align_pos
      cases (ht i m hti).1 with
      | intro _ hsize _ _ _ =>
        refine .ref hname hdecl hpacks ?_
        show IsLeast _ m.fixedSize
        rw [hsize]
        exact roundUp_isLeast _ hpos
    | string | bytes | array => cases h
  unfold fixedOf at h
  split at h
  · obtain ⟨e', he, heq⟩ := Option.map_eq_some_iff.mp h
    cases heq
    exact .array (helem he)
  · obtain ⟨e', he, heq⟩ := Option.map_eq_some_iff.mp h
    cases heq
    rw [Nat.one_mul]
    exact helem he

/-- `fieldSize` is exact. -/
theorem fieldSize64_eq (ht : t.Sound s) (hsmall : t.Small s) {f : Field} (hfix : f.type.RefFixed s)
    (hshort : f.type.Short) :
    fieldSize64 s t.to64 f =
      match fixedOf s t f.type with
      | none => .error (.problem ⟨f.pos, .stuck⟩)
      | some (n, e) => .ok (((n * e.size : Nat) : Int), (e.align : Int)) := by
  unfold fieldSize64
  cases htype : f.type with
  | array len elem pos =>
    simp only [fixedOf, elem64_eq]
    cases he : elemOf s t elem with
    | none => rfl
    | some e =>
      have hfixed : fixedOf s t f.type = some (len, e) := by simp [fixedOf, htype, he]
      have hbound := (fixedOf_bounds ht hsmall hfix hshort hfixed).1
      simp only [Option.map_some, ← Nat.cast_mul, int64_natCast (show len * e.size < 2 ^ 63 by omega)]
      rfl
  | _ =>
    simp only [fixedOf, elem64_eq]
    cases elemOf s t _ <;> simp

/-- What the loop over the fields finds, as numbers. -/
def view (r : Fields × Cursor) : List Int × Int × Int :=
  (r.1.slots.map (fun x => (x.offset : Int)), r.2.off, r.2.align)

theorem layoutFields_var {f : Field} (hvar : f.type.isVar = true) :
    (layoutFields s t m c (f :: fs)).map view = (layoutFields s t m c fs).map view := by
  cases htype : f.type with
  | string | bytes =>
    simp only [layoutFields, htype]
    cases layoutFields s t m c fs <;> rfl
  | scalar | array | ref =>
    rw [htype] at hvar
    cases hvar

theorem layoutFields_fixed {f : Field} (hvar : f.type.isVar = false) :
    (layoutFields s t m c (f :: fs)).map view =
      match fixedOf s t f.type with
      | none => .error ⟨f.pos, .stuck⟩
      | some (n, e) =>
          let offset := roundUp c.off e.align
          if offset + n * e.size > maxFixedSize then .error ⟨f.pos, .tooLarge m.name maxFixedSize⟩
          else ((layoutFields s t m ⟨offset + n * e.size, max c.align e.align⟩ fs).map view).map
            fun (offsets, r) => ((offset : Int) :: offsets, r) := by
  cases htype : f.type with
  | string | bytes =>
    rw [htype] at hvar
    cases hvar
  | array len elem pos =>
    simp only [layoutFields, htype, fixedOf]
    cases elemOf s t elem with
    | none => rfl
    | some e =>
      simp only [Cursor.place_eq, Option.map_some]
      split_ifs
      · rfl
      · cases layoutFields s t m ⟨roundUp c.off e.align + len * e.size, max c.align e.align⟩ fs <;> rfl
  | scalar | ref =>
    simp only [layoutFields, htype, fixedOf]
    cases elemOf s t _ with
    | none => rfl
    | some e =>
      simp only [Cursor.place_eq, Option.map_some, Nat.one_mul]
      split_ifs
      · rfl
      · cases layoutFields s t m ⟨roundUp c.off e.align + e.size, max c.align e.align⟩ fs <;> rfl

/-- **The loop over the fields**: with the cursor within the bound no sum or product overflows. -/
theorem layoutFields64_eq (ht : t.Sound s) (hsmall : t.Small s) (hc : c.off ≤ maxFixedSize)
    (hfix : ∀ f ∈ fs, f.type.RefFixed s) (hshort : ∀ f ∈ fs, f.type.Short) :
    layoutFields64 s t.to64 m c.off c.align fs =
      ((layoutFields s t m c fs).map view).mapError .problem := by
  induction fs generalizing c with
  | nil => rfl
  | cons f fs ih =>
    replace ih := fun c hc => @ih c hc (fun g hg => hfix g (List.mem_cons_of_mem _ hg))
      (fun g hg => hshort g (List.mem_cons_of_mem _ hg))
    have hfix := hfix f List.mem_cons_self
    have hshort := hshort f List.mem_cons_self
    cases hvar : f.type.isVar with
    | true =>
      rw [layoutFields_var hvar, layoutFields64, if_pos hvar]
      exact ih c hc
    | false =>
      rw [layoutFields_fixed hvar, layoutFields64, if_neg (by simp [hvar]),
        fieldSize64_eq ht hsmall hfix hshort]
      cases hfixed : fixedOf s t f.type with
      | none => rfl
      | some ne =>
        obtain ⟨n, e⟩ := ne
        obtain ⟨hsize, halign⟩ := fixedOf_bounds ht hsmall hfix hshort hfixed
        simp only [List.mem_cons, List.not_mem_nil, or_false] at halign
        have hround := roundUp_le c.off e.align
        have hmax : (if (e.align : Int) > c.align then (e.align : Int) else c.align) =
            (max c.align e.align : Nat) := by
          split_ifs <;> omega
        unfold maxFixedSize at hc
        simp only [ok_bind, hmax, roundUp64_natCast (show 0 < e.align by omega)
            (show c.off + e.align < 2 ^ 63 by omega), ← Nat.cast_add,
          int64_natCast (show roundUp c.off e.align + n * e.size < 2 ^ 63 by omega)]
        simp only [gt_iff_lt, Nat.cast_lt]
        split_ifs with hlarge
        · rfl
        · rw [ih ⟨_, _⟩ (by simpa using hlarge)]
          cases layoutFields s t m ⟨roundUp c.off e.align + n * e.size, max c.align e.align⟩ fs <;> rfl

/-- The cursor stays within the bound. -/
theorem layoutFields_view_le (hc : c.off ≤ maxFixedSize) {r : List Int × Int × Int}
    (h : (layoutFields s t m c fs).map view = .ok r) : r.2.1 ≤ maxFixedSize := by
  induction fs generalizing c r with
  | nil =>
    cases h
    exact Int.ofNat_le.mpr hc
  | cons f fs ih =>
    cases hvar : f.type.isVar with
    | true =>
      rw [layoutFields_var hvar] at h
      exact ih hc h
    | false =>
      rw [layoutFields_fixed hvar] at h
      split at h
      · cases h
      · next n e _ =>
        simp only at h
        split_ifs at h with hlarge
        obtain ⟨r', hr', rfl⟩ := map_eq_ok.mp h
        exact ih (c := ⟨_, _⟩) (r := r') (Nat.le_of_not_lt hlarge) hr'

/-- The loop packs the declared fields. -/
theorem layoutFields_packs (ht : t.Sound s) (hsmall : t.Small s) (hfix : ∀ f ∈ fs, f.type.RefFixed s)
    (hshort : ∀ f ∈ fs, f.type.Short) {r : List Int × Int × Int}
    (h : (layoutFields s t m c fs).map view = .ok r) :
    ∃ off a : Nat, r.2 = (↑off, ↑a) ∧ Packs s c.off c.align fs off a := by
  induction fs generalizing c r with
  | nil =>
    cases h
    exact ⟨_, _, rfl, .nil⟩
  | cons f fs ih =>
    have hrest := fun c r => @ih c (fun g hg => hfix g (List.mem_cons_of_mem _ hg))
      (fun g hg => hshort g (List.mem_cons_of_mem _ hg)) r
    cases hvar : f.type.isVar with
    | true =>
      rw [layoutFields_var hvar] at h
      obtain ⟨off, a, hr, hpacks⟩ := hrest c r h
      exact ⟨off, a, hr, .var hvar hpacks⟩
    | false =>
      rw [layoutFields_fixed hvar] at h
      split at h
      · cases h
      · next n e hfixed =>
        have halign := (fixedOf_bounds ht hsmall (hfix f List.mem_cons_self)
          (hshort f List.mem_cons_self) hfixed).2
        simp only at h
        split_ifs at h
        obtain ⟨r', hr', rfl⟩ := map_eq_ok.mp h
        obtain ⟨off, a, hr, hpacks⟩ := hrest ⟨_, _⟩ r' hr'
        refine ⟨off, a, hr, .fixed (fixedOf_extent ht hsmall hfixed) (roundUp_isLeast _ ?_) hpacks⟩
        simp only [List.mem_cons, List.not_mem_nil, or_false] at halign
        omega

theorem layoutMessage_small (ht : t.Sound s) (hsmall : t.Small s) (hfix : ∀ f ∈ m.fields, f.type.RefFixed s)
    (hshort : ∀ f ∈ m.fields, f.type.Short) {laid : Laid} (h : layoutMessage s t m = .ok laid) :
    endOf 0 laid.fields.placed ≤ maxFixedSize ∧
      Packs s 0 1 m.fields (endOf 0 laid.fields.placed) laid.align := by
  obtain ⟨⟨fields, c⟩, hfields, heq⟩ := except_bind_eq_ok.mp h
  cases heq
  have hview : (layoutFields s t m ⟨0, 1⟩ m.fields).map view = .ok (view (fields, c)) :=
    map_eq_ok.mpr ⟨_, hfields, rfl⟩
  have hle := layoutFields_view_le (c := ⟨0, 1⟩) (Nat.zero_le _) hview
  obtain ⟨off, a, hr, hpacks⟩ := layoutFields_packs ht hsmall hfix hshort hview
  obtain ⟨hoff', ha⟩ := Prod.mk.inj hr
  have hoff := (layoutFields_laying ht hfix hfields).off
  show endOf 0 fields.placed ≤ maxFixedSize ∧ Packs s 0 1 m.fields (endOf 0 fields.placed) c.align
  rw [← hoff]
  obtain rfl : c.off = off := Int.ofNat_inj.mp hoff'
  obtain rfl : c.align = a := Int.ofNat_inj.mp ha
  exact ⟨Int.ofNat_le.mp hle, hpacks⟩

/-- The alignment that the loop over the fields finds. -/
theorem layoutFields_align_mem (ht : t.Sound s) (hfix : ∀ f ∈ m.fields, f.type.RefFixed s) {fields : Fields}
    (h : layoutFields s t m ⟨0, 1⟩ m.fields = .ok (fields, c)) : c.align ∈ [1, 2, 4, 8] := by
  have hmessage : layoutMessage s t m = .ok (.mk m.name fields (roundUp c.off c.align) c.align) :=
    except_bind_eq_ok.mpr ⟨_, h, rfl⟩
  exact (layoutMessage_sound ht hfix hmessage).1.align_mem

theorem layoutMessage64_eq (ht : t.Sound s) (hsmall : t.Small s) (hfix : ∀ f ∈ m.fields, f.type.RefFixed s)
    (hshort : ∀ f ∈ m.fields, f.type.Short) :
    layoutMessage64 s t.to64 m = ((layoutMessage s t m).map Laid.to64).mapError .problem := by
  have hfields := layoutFields64_eq ht hsmall (c := ⟨0, 1⟩) (m := m) (Nat.zero_le _) hfix hshort
  unfold layoutMessage64 layoutMessage
  rw [show (0 : Int) = ((0 : Nat) : Int) from rfl, show (1 : Int) = ((1 : Nat) : Int) from rfl, hfields]
  cases h : layoutFields s t m ⟨0, 1⟩ m.fields with
  | error p => rfl
  | ok r =>
    obtain ⟨fields, c⟩ := r
    have hle := layoutFields_view_le (c := ⟨0, 1⟩) (Nat.zero_le _) (map_eq_ok.mpr ⟨_, h, rfl⟩)
    have hoff : c.off ≤ maxFixedSize := Int.ofNat_le.mp hle
    have halign := layoutFields_align_mem ht hfix h
    simp only [List.mem_cons, List.not_mem_nil, or_false] at halign
    unfold maxFixedSize at hoff
    have hround := roundUp64_natCast (show 0 < c.align by omega) (show c.off + c.align < 2 ^ 63 by omega)
    simp only [view, Except.map, Except.mapError, ok_bind, hround]
    rfl

theorem Table.to64_set (t : Table) (i : Nat) (laid : Laid) :
    (fun j => if j = i then some laid.to64 else t.to64 j) =
      Table.to64 (fun j => if j = i then some laid else t j) := by
  funext j
  simp only [Table.to64]
  split_ifs <;> rfl

theorem Table.Small.set (h : t.Small s) {i : Nat} {laid : Laid} {decl : Message}
    (hdecl : s.messages[i]? = some decl)
    (hlaid : endOf 0 laid.fields.placed ≤ maxFixedSize ∧
      Packs s 0 1 decl.fields (endOf 0 laid.fields.placed) laid.align) :
    Table.Small s (fun j => if j = i then some laid else t j) := by
  intro j m hj
  simp only at hj
  split_ifs at hj with hij
  · cases hj
    subst hij
    exact ⟨hlaid.1, decl, hdecl, hlaid.2⟩
  · exact h j m hj

section

variable (hfix : ∀ m ∈ s.messages, ∀ f ∈ m.fields, f.type.RefFixed s)
  (hshort : ∀ m ∈ s.messages, ∀ f ∈ m.fields, f.type.Short)
include hfix hshort

/-- **The run over the messages**: no sum or product overflows, whether it ends with a layout or with
    a problem. -/
theorem layout64_eq (ht : t.Sound s) (hsmall : t.Small s) (is : List Nat) :
    layout64 s t.to64 is = ((layout s t is).map Table.to64).mapError .problem := by
  induction is generalizing t with
  | nil => rfl
  | cons i is ih =>
    simp only [layout64, layout]
    cases hdecl : s.messages[i]? with
    | none => rfl
    | some decl =>
      have hmem := List.mem_of_getElem? hdecl
      simp only [layoutMessage64_eq ht hsmall (hfix decl hmem) (hshort decl hmem)]
      cases hlaid : layoutMessage s t decl with
      | error p => rfl
      | ok laid =>
        obtain ⟨hsound, hname, hdeclared⟩ := layoutMessage_sound ht (hfix decl hmem) hlaid
        have := ih (ht.set hdecl hsound hname hdeclared)
          (hsmall.set hdecl (layoutMessage_small ht hsmall (hfix decl hmem) (hshort decl hmem) hlaid))
        rw [← Table.to64_set] at this
        exact this

theorem layout_small {t' : Table} (ht : t.Sound s) (hsmall : t.Small s) {is : List Nat}
    (h : layout s t is = .ok t') : t'.Small s := by
  induction is generalizing t with
  | nil =>
    cases h
    exact hsmall
  | cons i is ih =>
    simp only [layout] at h
    split at h
    · cases h
    · next decl hdecl =>
      have hmem := List.mem_of_getElem? hdecl
      obtain ⟨laid, hlaid, hrest⟩ := except_bind_eq_ok.mp h
      obtain ⟨hsound, hname, hdeclared⟩ := layoutMessage_sound ht (hfix decl hmem) hlaid
      exact ih (ht.set hdecl hsound hname hdeclared)
        (hsmall.set hdecl (layoutMessage_small ht hsmall (hfix decl hmem) (hshort decl hmem) hlaid)) hrest

end

/-- **`Check` in `int64`** finds for a parsed schema what the exact `check` finds. -/
theorem check64_eq {file : String} {src : List UInt8} (h : parse file src = .ok s) :
    check64 s = ((check s).map fun c => (c.sorted, c.msg.to64)).mapError (List.map .problem) := by
  unfold check64 check
  simp only
  split_ifs with hproblems hcycles
  · rfl
  · rfl
  · have htypes := (List.append_eq_nil_iff.mp (not_not.mp hproblems)).2
    have hlayout := layout64_eq (t := fun _ => none) (refFixed_of_typeProblems htypes) (parse_short h)
      nofun nofun (cycles s).sorted
    rw [show Table.to64 (fun _ => none) = fun _ => none from rfl] at hlayout
    rw [hlayout]
    cases layout s (fun _ => none) (cycles s).sorted <;> rfl

/-! ### Sizes -/

theorem check_small {c : Checked} (hshort : ∀ m ∈ s.messages, ∀ f ∈ m.fields, f.type.Short)
    (h : check s = .ok c) : c.msg.Sound s ∧ c.msg.Small s := by
  obtain ⟨hproblems, -, -, hlayout⟩ := check_eq_ok h
  have hfix := refFixed_of_typeProblems (List.append_eq_nil_iff.mp hproblems).2
  exact ⟨(layout_sound hfix (fun _ _ h => (by cases h)) hlayout).1,
    layout_small hfix hshort (fun _ _ h => (by cases h)) (fun _ _ h => (by cases h)) hlayout⟩

/-- The rounding at the end is what can exceed the bound. -/
theorem Sound.fixedSize_le_iff {m : Laid} (h : Sound m) :
    m.fixedSize ≤ maxFixedSize ↔ endOf 0 m.fields.placed + m.align ≤ 2 ^ 31 := by
  have ha := h.align_mem
  have hpos := h.align_pos
  cases h with
  | intro _ hsize _ _ _ =>
    have hle := le_roundUp (endOf 0 m.fields.placed) hpos
    have hup := roundUp_le (endOf 0 m.fields.placed) m.align
    obtain ⟨k, hk⟩ := dvd_roundUp (endOf 0 m.fields.placed) m.align
    rw [← hsize] at hle hup hk
    unfold maxFixedSize
    simp only [List.mem_cons, List.not_mem_nil, or_false] at ha
    rcases ha with ha | ha | ha | ha <;> rw [ha] at hk hup ⊢ <;> omega

/-- **Sizes of a checked schema**: no sum or product of `Check` leaves the `int64`, every fixed field
    starts at most at `maxFixedSize` and is at most that large, and all messages are at most that large just
    if in each declared message the end of the last fixed field leaves room for the alignment. -/
theorem check_sizes {file : String} {src : List UInt8} {c : Checked} (hparse : parse file src = .ok s)
    (hcheck : check s = .ok c) :
    check64 s = .ok (c.sorted, c.msg.to64) ∧
    (∀ i m, c.msg i = some m → ∀ x ∈ m.fields.slots,
      x.offset ≤ maxFixedSize ∧ x.count * x.elem.size ≤ maxFixedSize) ∧
    ((∀ i m, c.msg i = some m → m.fixedSize ≤ maxFixedSize) ↔
      ∀ decl ∈ s.messages, ∀ off a, Packs s 0 1 decl.fields off a → off + a ≤ 2 ^ 31) := by
  obtain ⟨hsound, hsmall⟩ := check_small (parse_short hparse) hcheck
  refine ⟨by rw [check64_eq hparse, hcheck]; rfl, fun i m hm x hx => ?_, ?_, ?_⟩
  · have hplaced : x.placed ∈ m.fields.placed := List.mem_map_of_mem hx
    have hend := (hsmall i m hm).1
    cases (hsound i m hm).1 with
    | intro htight _ _ _ _ =>
      have hwithin := (htight.fits.within hplaced).2.2
      have hoffset : x.placed.offset = x.offset := rfl
      have hsize : x.placed.size = x.count * x.elem.size := rfl
      omega
  · intro hsizes decl hdecl off a hpacks
    obtain ⟨i, hi⟩ := List.mem_iff_getElem?.mp hdecl
    obtain ⟨m, hm, -⟩ := check_sound hcheck hi
    obtain ⟨-, decl', hdecl', hpacks'⟩ := hsmall i m hm
    obtain rfl := Option.some_inj.mp (hi.symm.trans hdecl')
    obtain ⟨rfl, rfl⟩ := hpacks.unique hpacks'
    exact (hsound i m hm).1.fixedSize_le_iff.mp (hsizes i m hm)
  · intro hends i m hm
    obtain ⟨-, decl, hdecl, hpacks⟩ := hsmall i m hm
    exact (hsound i m hm).1.fixedSize_le_iff.mpr (hends decl (List.mem_of_getElem? hdecl) _ _ hpacks)

/-- A message with a `u64` and an array of `n` bytes after it. -/
def wideSource (n : String) : List UInt8 :=
  ("package wide\n\nmessage Wide = 1 \x7b\n\ta u64\n\tb [" ++ n ++ "]u8\n\x7d\n").toUTF8.data.toList

def wideSchema (n : Nat) : Schema :=
  ⟨"wide.ipc", "wide", ⟨1, 9⟩,
    [⟨"Wide", 1, [⟨"a", .scalar .u64 ⟨4, 4⟩, ⟨4, 2⟩⟩,
      ⟨"b", .array n (.scalar .u8 ⟨5, 16⟩) ⟨5, 4⟩, ⟨5, 2⟩⟩], ⟨3, 9⟩, ⟨3, 16⟩⟩]⟩

/-- What `check` finds for it. -/
def wideLaid (n size : Nat) : Laid :=
  .mk "Wide" (.one "a" (.scalar .u64) 0 (.array "b" n (.scalar .u8) 8 .nil)) size 8

/-- The array ends within the bound, and the size is one byte beyond it. -/
theorem check_sizes_fails : ∃ file src s c i m, parse file src = .ok s ∧ check s = .ok c ∧
    c.msg i = some m ∧ endOf 0 m.fields.placed = maxFixedSize ∧ m.fixedSize = maxFixedSize + 1 := by
  have hparse : parse "wide.ipc" (wideSource "2147483639") = .ok (wideSchema 2147483639) := by
    decide +kernel
  have hcheck : (match check (wideSchema 2147483639) with
      | .ok c => decide (c.msg 0 = some (wideLaid 2147483639 (2 ^ 31)))
      | .error _ => false) = true := by decide +kernel
  split at hcheck
  · next c hc =>
    exact ⟨_, _, _, c, 0, _, hparse, hc, of_decide_eq_true hcheck, by decide, by decide⟩
  · cases hcheck

theorem wide_packs (n : Nat) : Packs (wideSchema n) 0 1
    [⟨"a", .scalar .u64 ⟨4, 4⟩, ⟨4, 2⟩⟩, ⟨"b", .array n (.scalar .u8 ⟨5, 16⟩) ⟨5, 4⟩, ⟨5, 2⟩⟩] (8 + n) 8 := by
  have hstart : IsLeast {m | 8 ≤ m ∧ 1 ∣ m} 8 := roundUp_isLeast 8 (a := 1) (by decide)
  have hrest := Packs.fixed (s := wideSchema n) (f := ⟨"b", .array n (.scalar .u8 ⟨5, 16⟩) ⟨5, 4⟩, ⟨5, 2⟩⟩)
    (a := max 1 8) (.array .scalar) hstart .nil
  rw [show n * Scalar.u8.size = n from Nat.mul_one n] at hrest
  exact .fixed .scalar (roundUp_isLeast 0 (a := 8) (by decide)) hrest

/-- The largest array of the example with a size within the bound. -/
theorem check_sizes_wide : ∃ c, check (wideSchema 2147483632) = .ok c ∧
    ∀ i m, c.msg i = some m → m.fixedSize ≤ maxFixedSize := by
  have hparse : parse "wide.ipc" (wideSource "2147483632") = .ok (wideSchema 2147483632) := by
    decide +kernel
  have hcheck : (match check (wideSchema 2147483632) with
      | .ok _ => true
      | .error _ => false) = true := by decide +kernel
  split at hcheck
  · next c hc =>
    refine ⟨c, hc, (check_sizes hparse hc).2.2.mpr fun decl hdecl off a hpacks => ?_⟩
    obtain rfl := List.mem_singleton.mp hdecl
    obtain ⟨rfl, rfl⟩ := hpacks.unique (wide_packs 2147483632)
    decide
  · cases hcheck

end GoIpc.Schema
