import GoIpc.Ring.Frames
import GoIpc.Ring.Rules

namespace GoIpc.Ring

open GoIpc.Lib

/-!
# Producer steps keep the invariant

`Guarantee` is what a producer's step owes everybody else: the shared invariant, the claims and
cells of the other producers, the cells below the reader and any header the reader may already
have read.  `Producer.step_inv` proves it for every program counter, together with what the
producer itself knows afterwards; each case names the effect of `Frames.lean` it is.
-/

variable {C : Capacity} {mend : Option Nat} {pos t : Nat} {s s' : Shared}

/-- What one step of producer `t` owes the other parties. -/
structure Guarantee (C : Capacity) (mend : Option Nat) (pos t : Nat) (s s' : Shared) : Prop where
  ok : s'.Ok C mend pos
  head : s'.head = s.head
  grows : Grows s s'
  others : ∀ e ∈ s.log, e.owner ≠ t → e.state = .claimed → Untouched C s pos s' pos e
  low : ∀ c, c < pos → s'.tape C c = s.tape C c
  header : 0 < lenAt (s.tape C) pos →
    ∀ k, k < 8 → s'.tape C (pos + k) = s.tape C (pos + k)

/-- A step that changes no cell and no claim. -/
theorem Guarantee.quiet (hok : s'.Ok C mend pos) (hhead : s'.head = s.head)
    (hdata : s'.data = s.data) (hlog : s'.log = s.log) (htail : s'.tail = s.tail) :
    Guarantee C mend pos t s s' := by
  have htape : s'.tape C = s.tape C := by
    unfold Shared.tape
    rw [hhead, hdata]
  refine ⟨hok, hhead, .of_eq hlog htail, ?_, ?_, ?_⟩
  · intro e he _ _
    exact ⟨hlog ▸ he, fun c _ _ _ => by rw [htape], fun h _ => h⟩
  · intro c _; rw [htape]
  · intro _ k _; rw [htape]

variable {q : Req} {e : Entry} {g : Nat → UInt8} {c : Claim}

/-- A successful compare-and-swap on `tail`. -/
theorem Guarantee.claim (h : s.Ok C mend pos) (hq : q.Ok C)
    (hroom : s.tail + q.need C s.tail ≤ s.head + C.size) :
    Guarantee C mend pos t s
      { s with tail := s.tail + q.need C s.tail, log := s.log ++ [q.entry C s.tail t] } where
  ok := h.claim hq hroom
  head := rfl
  grows :=
    { tail := Nat.le_add_right _ _
      cursors := fun e he => ⟨e, List.mem_append_left _ he, rfl⟩
      next := .inr ⟨q.entry C s.tail t, by simp, rfl⟩
      taken := fun e he ht => ⟨e, List.mem_append_left _ he, rfl, rfl, ht⟩ }
  others e he _ _ := ⟨List.mem_append_left _ he, fun _ _ _ _ => rfl, fun h _ => h⟩
  low _ _ := rfl
  header _ _ _ := rfl

/-- A store into the claim the producer holds, at or after a header at `a` that is not yet
    readable. -/
theorem Guarantee.write (h : s.Ok C mend pos) (he : e ∈ s.log) (howner : e.owner = t)
    (hst : e.state = .claimed) {a c n : Nat} {f : Entry → Entry} (hf : Keeps f) (ha : e.cursor ≤ a)
    (hac : a ≤ c) (hhi : c + n ≤ e.stop) (hn : 0 < n) (hpos : pos ≤ a) (hmod : a % 8 = 0)
    (hneg : lenAt (s.tape C) a ≤ 0) (hend : c % C.size + n ≤ C.size) (hwf : (f e).Wf C)
    (hcontent : (f e).Content (patch (s.tape C) c n g) mend pos) :
    Guarantee C mend pos t s
        (Shared.note { s with data := patch s.data (c % C.size) n g } e.cursor f) ∧
      Shared.tape C (Shared.note { s with data := patch s.data (c % C.size) n g } e.cursor f)
        = patch (s.tape C) c n g := by
  have hstop := h.stop_le he
  have hpm := h.pos_mod
  have htape : Shared.tape C (Shared.note { s with data := patch s.data (c % C.size) n g } e.cursor f)
      = patch (s.tape C) c n g :=
    tape_patch (s := s) (by have := h.head_le; omega) (by omega) hend
  refine ⟨⟨?_, rfl, ?_, ?_, ?_, ?_⟩, htape⟩
  · exact h.write he hf (by omega) hhi (by omega) (by omega) hend hwf hcontent
      (fun _ _ _ => ⟨id, id⟩)
  · refine ⟨le_refl _, ?_, .inl rfl, ?_⟩
    · intro x hx
      exact ⟨_, mem_note.mpr ⟨x, hx, rfl⟩, (hf.at_cursor e.cursor).cursor x⟩
    · intro x hx htk
      have hne : x.cursor ≠ e.cursor := by
        intro hc
        obtain rfl := h.tiled.eq_of_lo_eq hx he hc
        obtain ⟨full, hfull⟩ := htk
        rw [hst] at hfull
        exact absurd hfull (by simp)
      exact ⟨x, mem_note_other hx hne, rfl, rfl, htk⟩
  · intro x hx hown _
    have hxe : x ≠ e := fun heq => hown (heq ▸ howner)
    have hd := h.tiled.eq_or_disjoint hx he
    have hne : x.cursor ≠ e.cursor := fun hc => hxe (h.tiled.eq_of_lo_eq hx he hc)
    refine ⟨mem_note_other hx hne, ?_, fun hp _ => hp⟩
    intro y _ h1 h2
    rw [htape]
    apply patch_of_not_mem
    rcases hd with heq | hd | hd
    · exact absurd heq hxe
    · omega
    · omega
  · intro x hx
    rw [htape]
    exact patch_of_not_mem _ _ (by omega)
  · intro hlen k hk
    -- the reader is not at `a`, so its header ends before `a`
    have hne : pos ≠ a := by
      rintro rfl
      omega
    rw [htape]
    exact patch_of_not_mem _ _ (by omega)

/-- A store into the claim the producer holds that the history does not record. -/
theorem Guarantee.store (h : s.Ok C mend pos) (he : e ∈ s.log) (howner : e.owner = t)
    (hst : e.state = .claimed) {a c n : Nat} (ha : e.cursor ≤ a) (hac : a ≤ c) (hhi : c + n ≤ e.stop)
    (hn : 0 < n) (hpos : pos ≤ a) (hmod : a % 8 = 0) (hneg : lenAt (s.tape C) a ≤ 0)
    (hend : c % C.size + n ≤ C.size) (hcontent : e.Content (patch (s.tape C) c n g) mend pos) :
    Guarantee C mend pos t s { s with data := patch s.data (c % C.size) n g } ∧
      Shared.tape C { s with data := patch s.data (c % C.size) n g }
        = patch (s.tape C) c n g := by
  have hg := Guarantee.write h he howner hst keeps_id ha hac hhi hn hpos hmod hneg hend
    (h.wf e he) hcontent
  rwa [note_id] at hg

/-! ### The stores of a claim, as patches -/

theorem storeType_eq {a : Nat} {v : Word} (h : a % C.size + 8 ≤ C.size) :
    s.storeType (a % C.size) v = { s with data := patch s.data ((a + 4) % C.size) 4 (byteOf v) } := by
  rw [add_mod_of_lt (by omega)]
  rfl

theorem storeLength_eq {a : Nat} {v : Int} :
    s.storeLength (a % C.size) v
      = { s with data := patch s.data (a % C.size) 4 (byteOf (BitVec.ofInt 32 v)) } := rfl

theorem storeByte_eq {a k : Nat} {b : UInt8} (h : a % C.size + 8 + k + 1 ≤ C.size) :
    s.storeByte (a % C.size + recordHeaderSize + k) b
      = { s with data := patch s.data ((a + 8 + k) % C.size) 1 (fun _ => b) } := by
  rw [show a + 8 + k = a + (8 + k) by omega, add_mod_of_lt (by omega)]
  show Shared.mk _ _ _ _ (store8 s.data (a % C.size + 8 + k) b) _ _ = _
  rw [Nat.add_assoc]
  rfl

/-! ### Reading a header back after a store -/

variable {T : Mem}

theorem typeAt_storeType (a : Nat) (v : Word) : typeAt (patch T (a + 4) 4 (byteOf v)) a = v :=
  load32_store32 T (a + 4) v

theorem lenAt_storeType (a : Nat) (v : Word) :
    lenAt (patch T (a + 4) 4 (byteOf v)) a = lenAt T a :=
  lenAt_congr (fun _ _ => patch_of_not_mem _ _ (by omega))

theorem lenAt_storeLength (a : Nat) {v : Int} (h1 : -(2 ^ 31) ≤ v) (h2 : v < 2 ^ 31) :
    lenAt (patch T a 4 (byteOf (BitVec.ofInt 32 v))) a = v := by
  unfold lenAt
  have : load32 (patch T a 4 (byteOf (BitVec.ofInt 32 v))) a = BitVec.ofInt 32 v :=
    load32_store32 T a _
  rw [this, signed_ofInt h1 h2]

theorem typeAt_storeLength (a : Nat) (v : Word) :
    typeAt (patch T a 4 (byteOf v)) a = typeAt T a :=
  load32_patch T (byteOf v) (by omega)

theorem Entry.Wf.total_lt (hw : e.Wf C) : align e.total < 2 ^ 31 := by
  have := hw.total_max
  have := C.max
  omega

/-- A store at or after the record leaves the padding in front of it alone. -/
theorem Entry.Content.padKeep (hw : e.Wf C) (h : e.Content T mend pos) {c n : Nat} (hc : e.record ≤ c) :
    e.pad ≠ 0 → pos ≤ e.cursor → e.PadOk (patch T c n g) mend := by
  have ha := hw.arith
  intro hpad hpos
  exact (h.pad hpad hpos).congr (fun k hk => patch_of_not_mem _ _ (by omega)) id

/-- A store at or after the record leaves written padding written. -/
theorem Entry.Padded.patch {T T' : Mem} (h : e.Padded T pos) (hw : e.Wf C) {c n : Nat}
    (hT : T' = Lib.patch T c n g) (hc : e.record ≤ c) : e.Padded T' pos := by
  have ha := hw.arith
  subst hT
  exact h.congr (le_refl _) (fun _ _ k hk => patch_of_not_mem _ _ (by omega))

/-! ### One lemma for each store of a claim -/

theorem step_padType (hok : s.Ok C mend pos) {tail : Nat} (h : (Producer.padType q tail).Local C s pos t) :
    Guarantee C mend pos t s (s.storeType (tail % C.size) typePadding) ∧
      (Producer.padLen q tail).Local C (s.storeType (tail % C.size) typePadding) pos t := by
  obtain ⟨hq, e, hold, hf, hpad, hpos, hz⟩ := h
  have hw := hok.wf e hold.mem
  have ha := hw.arith
  have hfit := hw.pad_fits
  have hcur : e.cursor = tail := hold.cursor
  have hpadpos := toEnd_pos C tail
  have hlen : lenAt (s.tape C) e.cursor = 0 := hz.lenAt (by omega)
  have hcm := hw.cursor_mod
  subst hcur
  rw [storeType_eq (by omega)]
  have hrec : ∀ c, e.record ≤ c → c < e.stop →
      patch (s.tape C) (e.cursor + 4) 4 (byteOf typePadding) c = s.tape C c :=
    fun c h1 _ => patch_of_not_mem _ _ (by omega)
  obtain ⟨hg, htape⟩ := Guarantee.store (t := t) (g := byteOf typePadding) hok hold.mem hold.owner
    hold.claimed (a := e.cursor) (c := e.cursor + 4) (n := 4) (le_refl _) (by omega) (by omega)
    (by omega) hpos hcm (by omega) (by rw [add_mod_of_lt (by omega)]; omega)
    ⟨fun _ _ => .inl (by rw [lenAt_storeType]; exact hlen),
      fun hp => ((hok.content e hold.mem).record hp).congr hw hrec id,
      fun hu => absurd (.inl hold.claimed) hu⟩
  refine ⟨hg, hq, e, { hold with mem := hold.mem }, hf, hpad, hpos, ?_, ?_, ?_⟩
  · rw [htape, typeAt_storeType]
  · rwa [htape, lenAt_storeType]
  · intro c h1 h2
    rw [htape, hrec c h1 h2]
    exact hz c (by omega) h2

theorem step_padLen (hok : s.Ok C mend pos) {tail : Nat} (h : (Producer.padLen q tail).Local C s pos t) :
    Guarantee C mend pos t s (s.storeLength (tail % C.size) (toEnd C tail)) ∧
      (Producer.recType q ⟨tail, 0, q.recordLen, q.slot⟩).Local C
        (s.storeLength (tail % C.size) (toEnd C tail)) pos t := by
  obtain ⟨hq, e, hold, hf, hpad, hpos, htyp, hlen, hz⟩ := h
  have hw := hok.wf e hold.mem
  have ha := hw.arith
  have hfit := hw.pad_fits
  have hlt := hw.total_lt
  have hcur : e.cursor = tail := hold.cursor
  have hpadpos := toEnd_pos C tail
  have hcm := hw.cursor_mod
  subst hcur
  rw [← hpad, storeLength_eq]
  have hrec : ∀ c, e.record ≤ c → c < e.stop →
      patch (s.tape C) e.cursor 4 (byteOf (BitVec.ofInt 32 e.pad)) c = s.tape C c :=
    fun c h1 _ => patch_of_not_mem _ _ (by omega)
  obtain ⟨hg, htape⟩ := Guarantee.store (t := t) (g := byteOf (BitVec.ofInt 32 e.pad)) hok hold.mem
    hold.owner hold.claimed (a := e.cursor) (c := e.cursor) (n := 4) (le_refl _) (le_refl _)
    (by omega) (by omega) hpos hcm (by omega) (by omega)
    ⟨fun _ _ => .inr ⟨lenAt_storeLength _ (by omega) (by omega),
        .inr (by rw [typeAt_storeLength]; exact htyp)⟩,
      fun hp => ((hok.content e hold.mem).record hp).congr hw hrec id,
      fun hu => absurd (.inl hold.claimed) hu⟩
  refine ⟨hg, hq, e, { hold with mem := hold.mem, padded := ?_ }, hf, ?_⟩
  · intro _ _
    rw [htape, lenAt_storeLength _ (by omega) (by omega)]
    omega
  · intro c h1 h2
    rw [htape, hrec c h1 h2]
    exact hz c h1 h2

/-- A store of the type of an open record that is not published. -/
theorem Open.storeType (hok : s.Ok C mend pos) (hold : Open C s pos t c e) (v : Word)
    (hlen : lenAt (s.tape C) e.record = 0 ∨ lenAt (s.tape C) e.record = -e.total) :
    Guarantee C mend pos t s (s.storeType c.index v) ∧ Open C (s.storeType c.index v) pos t c e ∧
      Shared.tape C (s.storeType c.index v) = patch (s.tape C) (e.record + 4) 4 (byteOf v) := by
  have hw := hok.wf e hold.mem
  have ha := hw.arith
  have hfit := hw.record_fits
  have hpos := hok.pos_le_record hold.mem (.inl hold.claimed)
  rw [hold.index, storeType_eq (by omega)]
  obtain ⟨hg, htape⟩ := Guarantee.store (t := t) (g := byteOf v) hok hold.mem hold.owner
    hold.claimed (a := e.record) (c := e.record + 4) (n := 4) (by omega) (by omega) (by omega)
    (by omega) hpos (by omega) (by omega) (by rw [add_mod_of_lt (by omega)]; omega)
    ⟨(hok.content e hold.mem).padKeep hw (by omega), fun _ => by
      unfold Entry.RecordOk
      rw [hold.claimed]
      exact (lenAt_storeType e.record v).symm ▸ hlen,
      fun hu => absurd (.inl hold.claimed) hu⟩
  exact ⟨hg, { hold with mem := hold.mem, padded := hold.padded.patch hw htape (by omega) }, htape⟩

/-- Publishing an open record: the store of `+len`. -/
theorem Open.publish (hok : s.Ok C mend pos) (hold : Open C s pos t c e) {st : ClaimState}
    (hlen : lenAt (s.tape C) e.record = -e.total)
    (hrec : ∀ T, lenAt T e.record = e.total → typeAt T e.record = typeAt (s.tape C) e.record →
      slice T (e.record + 8) (e.total - 8) = slice (s.tape C) (e.record + 8) (e.total - 8) →
      Entry.RecordOk T mend { e with state := st }) :
    Guarantee C mend pos t s ((s.storeLength c.index c.total).mark c.cursor st) := by
  have hw := hok.wf e hold.mem
  have ha := hw.arith
  have hfit := hw.record_fits
  have hlt := hw.total_lt
  have hpos := hok.pos_le_record hold.mem (.inl hold.claimed)
  rw [hold.index, hold.total, ← hold.cursor, storeLength_eq]
  refine (Guarantee.write (t := t) (g := byteOf (BitVec.ofInt 32 e.total)) hok hold.mem hold.owner
    hold.claimed (keeps_state st) (a := e.record) (c := e.record) (n := 4) (by omega)
    (le_refl _) (by omega) (by omega) hpos (by omega) (by omega) (by omega)
    ⟨hw.1, hw.2, hw.3, hw.4, hw.5, hw.6⟩
    ⟨(hok.content e hold.mem).padKeep hw (le_refl _), fun _ => ?_,
      fun _ => Entry.Padded.patch (e := e) hold.padded hw rfl (le_refl _)⟩).1
  exact hrec _ (lenAt_storeLength _ (by omega) (by omega)) (typeAt_storeLength _ _)
    (slice_congr fun k hk => patch_of_not_mem _ _ (by omega))

theorem step_recType (hok : s.Ok C mend pos) (h : (Producer.recType q c).Local C s pos t) :
    Guarantee C mend pos t s (s.storeType c.index q.typ) ∧
      (Producer.recLen q c).Local C (s.storeType c.index q.typ) pos t := by
  obtain ⟨hq, e, hold, hf, hz⟩ := h
  have ha := (hok.wf e hold.mem).arith
  have hlen : lenAt (s.tape C) e.record = 0 := hz.lenAt (by omega)
  obtain ⟨hg, hopen, htape⟩ := hold.storeType hok q.typ (.inl hlen)
  refine ⟨hg, hq, e, hopen, hf, ?_, ?_, ?_⟩
  · rw [htape, typeAt_storeType]
    exact hf.typ.symm
  · rwa [htape, lenAt_storeType]
  · intro x h1 h2
    rw [htape, patch_of_not_mem _ _ (by omega)]
    exact hz x (by omega) h2

/-- What `recLen` leaves: the record is marked in progress and its payload reads zero. -/
theorem step_recLen (hok : s.Ok C mend pos) (h : (Producer.recLen q c).Local C s pos t) :
    Guarantee C mend pos t s (s.storeLength c.index (-c.total)) ∧
      ∃ e, Open C (s.storeLength c.index (-c.total)) pos t c e ∧ Fresh q e ∧
        Written (Shared.tape C (s.storeLength c.index (-c.total))) e := by
  obtain ⟨hq, e, hold, hf, htyp, hlen, hz⟩ := h
  have hw := hok.wf e hold.mem
  have ha := hw.arith
  have hfit := hw.record_fits
  have hlt := hw.total_lt
  have hpos := hok.pos_le_record hold.mem (.inl hold.claimed)
  have hcell : ∀ x, e.record + 8 ≤ x → x < e.stop →
      patch (s.tape C) e.record 4 (byteOf (BitVec.ofInt 32 (-e.total))) x = 0 := by
    intro x h1 h2
    rw [patch_of_not_mem _ _ (by omega)]
    exact hz x h1 h2
  rw [hold.index, hold.total, storeLength_eq]
  obtain ⟨hg, htape⟩ := Guarantee.store (t := t) (g := byteOf (BitVec.ofInt 32 (-e.total))) hok
    hold.mem hold.owner hold.claimed (a := e.record) (c := e.record) (n := 4) (by omega) (le_refl _)
    (by omega) (by omega) hpos (by omega) (by omega) (by omega)
    ⟨(hok.content e hold.mem).padKeep hw (le_refl _), fun _ => by
      unfold Entry.RecordOk
      rw [hold.claimed]
      exact .inr (lenAt_storeLength _ (by omega) (by omega)),
      fun hu => absurd (.inl hold.claimed) hu⟩
  refine ⟨hg, e, { hold with mem := hold.mem, padded := hold.padded.patch hw htape (by omega) },
    hf, ⟨?_, ?_, ?_⟩⟩
  · rwa [htape, typeAt_storeLength]
  · rw [htape, lenAt_storeLength _ (by omega) (by omega)]
  · have hpl := hw.payload_len
    rw [htape, slice_zero _ (fun k hk => hcell _ (by omega) (by omega)), hf.payload]
    congr 1
    rw [hf.payload, List.length_replicate] at hpl
    omega

/-- A payload byte, whether `tryWrite` copies it or the caller writes it in place. -/
theorem step_put (hok : s.Ok C mend pos) (hold : Open C s pos t c e) (hwr : Written (s.tape C) e) {k : Nat}
    (b : UInt8) (hk : 8 + k < e.total) :
    Guarantee C mend pos t s ((s.storeByte (c.index + recordHeaderSize + k) b).note c.cursor
        (fun e => { e with payload := e.payload.set k b })) ∧
      ∃ e', Open C ((s.storeByte (c.index + recordHeaderSize + k) b).note c.cursor
          (fun e => { e with payload := e.payload.set k b })) pos t c e' ∧
        Written (Shared.tape C ((s.storeByte (c.index + recordHeaderSize + k) b).note c.cursor
          (fun e => { e with payload := e.payload.set k b }))) e' ∧ e'.total = e.total := by
  have hw := hok.wf e hold.mem
  have ha := hw.arith
  have hfit := hw.record_fits
  have hpos := hok.pos_le_record hold.mem (.inl hold.claimed)
  have hlen := hwr.len
  rw [hold.index, ← hold.cursor, storeByte_eq (by omega)]
  have hw' : Entry.Wf C { e with payload := e.payload.set k b } :=
    { hw with payload_len := by rw [List.length_set]; exact hw.payload_len }
  -- the byte is behind the length, which stays negative
  have hl : lenAt (patch (s.tape C) (e.record + 8 + k) 1 (fun _ => b)) e.record
      = lenAt (s.tape C) e.record := lenAt_congr (fun _ _ => patch_of_not_mem _ _ (by omega))
  obtain ⟨hg, htape⟩ := Guarantee.write (t := t) (g := fun _ => b) hok hold.mem hold.owner
    hold.claimed (keeps_payload k b) (a := e.record) (c := e.record + 8 + k) (n := 1) (by omega)
    (by omega) (by omega) (by omega) hpos (by omega) (by omega)
    (by rw [Nat.add_assoc, add_mod_of_lt (by omega)]; omega) hw'
    ⟨(hok.content e hold.mem).padKeep hw (by omega), fun _ => by
      unfold Entry.RecordOk
      rw [show ({ e with payload := e.payload.set k b } : Entry).state = .claimed from hold.claimed]
      exact .inr (hl.trans hlen),
      fun hu => absurd (.inl hold.claimed) hu⟩
  refine ⟨hg, { e with payload := e.payload.set k b },
    { hold with
      mem := mem_note_self hold.mem
      padded := Entry.Padded.patch (e := e) hold.padded hw htape (by omega) },
    ⟨?_, ?_, ?_⟩, rfl⟩
  · rw [htape]
    show typeAt _ e.record = e.typ
    rw [typeAt_congr (fun _ _ => patch_of_not_mem _ _ (by omega))]
    exact hwr.typ
  · rw [htape]
    exact hl.trans hlen
  · rw [htape]
    show slice (store8 (s.tape C) (e.record + 8 + k) b) (e.record + 8) (e.total - 8)
      = e.payload.set k b
    rw [slice_store8, hwr.payload]

/-- Publishing: the store of `+len` by `Commit`. -/
theorem step_commit (hok : s.Ok C mend pos) (hold : Open C s pos t c e) (hwr : Written (s.tape C) e) :
    Guarantee C mend pos t s ((s.storeLength c.index c.total).mark c.cursor .committed) := by
  exact hold.publish hok hwr.len fun T hlen htyp hslice =>
    ⟨hlen, htyp.trans hwr.typ, hslice.trans hwr.payload⟩

/-- The first store of `Abort`: the record becomes padding. -/
theorem step_abort (hok : s.Ok C mend pos) (h : (Producer.held c).Local C s pos t) :
    Guarantee C mend pos t s (s.storeType c.index typePadding) ∧
      (Producer.abortLen c).Local C (s.storeType c.index typePadding) pos t := by
  obtain ⟨e, hold, hwr⟩ := h
  obtain ⟨hg, hopen, htape⟩ := hold.storeType hok typePadding (.inr hwr.len)
  refine ⟨hg, e, hopen, ?_, ?_⟩
  · rw [htape, typeAt_storeType]
  · rw [htape, lenAt_storeType]
    exact hwr.len

/-- The second store of `Abort` publishes the padding. -/
theorem step_abortLen (hok : s.Ok C mend pos) (h : (Producer.abortLen c).Local C s pos t) :
    Guarantee C mend pos t s ((s.storeLength c.index c.total).mark c.cursor .aborted) := by
  obtain ⟨e, hold, htyp, hlen⟩ := h
  exact hold.publish hok hlen fun T hlen htyp' _ => ⟨hlen, htyp'.trans htyp⟩

/-! ### Claiming -/

/-- What a producer knows right after its compare-and-swap on `tail` succeeded. -/
theorem step_claim (hok : s.Ok C mend pos) (h : (Producer.casTail q s.tail).Local C s pos t) :
    Producer.Local C
      { s with tail := s.tail + q.need C s.tail, log := s.log ++ [q.entry C s.tail t] } pos t
      (if q.need C s.tail ≠ q.aligned then .padType q s.tail
        else .recType q ⟨s.tail, s.tail % C.size, q.recordLen, q.slot⟩) := by
  obtain ⟨hq, ht, hroom⟩ := h
  have hmem : q.entry C s.tail t ∈ s.log ++ [q.entry C s.tail t] := by simp
  have hpad : (q.entry C s.tail t).pad = padOf C s.tail q.aligned := rfl
  have hneed : q.need C s.tail = padOf C s.tail q.aligned + q.aligned := need_eq C _ _
  have hblank : ∀ a b, s.tail ≤ a → Blank (s.tape C) a b := fun a b hab c hc _ =>
    hok.free c (le_trans hab hc)
  split
  case isTrue hne =>
    -- the record does not fit before the end of the region
    have hend : padOf C s.tail q.aligned = toEnd C s.tail := by
      unfold padOf at hneed ⊢
      split at hneed
      · rw [if_pos ‹_›]
      · omega
    have hrec : (q.entry C s.tail t).record % C.size = 0 := by
      show (s.tail + padOf C s.tail q.aligned) % C.size = 0
      rw [hend]
      exact add_toEnd_mod C s.tail
    exact ⟨hq, q.entry C s.tail t, ⟨hmem, rfl, rfl, rfl, hrec.symm, rfl⟩, ⟨rfl, rfl, rfl⟩,
      hpad.trans hend, hok.pos_le, hblank _ _ (le_refl _)⟩
  case isFalse hne =>
    have hzero : padOf C s.tail q.aligned = 0 := by omega
    have hrec : (q.entry C s.tail t).record = s.tail := by
      show s.tail + padOf C s.tail q.aligned = s.tail
      omega
    refine ⟨hq, q.entry C s.tail t, ⟨⟨hmem, rfl, rfl, rfl, ?_, rfl⟩, ?_⟩, ⟨rfl, rfl, rfl⟩, ?_⟩
    · rw [hrec]
    · exact fun hne _ => absurd (hpad.trans hzero) hne
    · rw [hrec]
      exact hblank _ _ (le_refl _)

theorem Producer.intent_local {tail : Nat}
    (h : q.Ok C ∧ tail % 8 = 0 ∧ tail + q.need C tail ≤ s.head + C.size) :
    (Producer.intent q tail).Local C s pos t := by
  unfold Producer.intent
  split <;> exact h

theorem Producer.start_local (slot : Option Nat) (typ : Word) (length : Int)
    (payload : Option (List UInt8)) (hp : ∀ p, payload = some p → (p.length : Int) = length) :
    (Producer.start C slot typ length payload).Local C s pos t := by
  unfold Producer.start
  split
  · trivial
  · split
    · trivial
    · next htyp hlen =>
      simp only [Bool.or_eq_true, decide_eq_true_eq, not_or, not_lt] at hlen
      refine ⟨htyp, by dsimp only; omega, ?_⟩
      intro p hpp
      have := hp p hpp
      dsimp only
      omega

/-- **One step of a producer** keeps its side of the invariant, whatever it does next. -/
theorem Producer.step_inv (hok : s.Ok C mend pos) {p p' : Producer} {a : ProdAct}
    (hl : p.Local C s pos t) (h : p.step C t s a = some (s', p')) :
    Guarantee C mend pos t s s' ∧ p'.Local C s' pos t := by
  have same : Guarantee C mend pos t s s := .quiet hok rfl rfl rfl rfl
  have slots : ∀ f, Guarantee C mend pos t s { s with slots := f } :=
    fun f => .quiet (hok.slots f) rfl rfl rfl rfl
  cases Producer.step_rule h with
  | tryClaim | tryWrite => exact ⟨same, start_local _ _ _ _ (by simp)⟩
  | loadTail => exact ⟨same, hl, hok.tail_mod⟩
  | cached room =>
    -- the cached head is never ahead of the real one
    have hcache := hok.cache
    have hroom := (hasRoom_iff.mp room).2
    exact ⟨same, intent_local ⟨hl.1, hl.2, by omega⟩⟩
  | loadCache => exact ⟨same, hl⟩
  | overtaken | lost => exact ⟨same, hl.1⟩
  | room _ room => exact ⟨same, hl.1, hl.2, le_refl _, (hasRoom_iff.mp room).2⟩
  | full => exact ⟨same, trivial⟩
  | storeCache =>
    obtain ⟨hq, ht, hh, hroom⟩ := hl
    exact ⟨.quiet (hok.storeCache hh) rfl rfl rfl rfl, intent_local ⟨hq, ht, by dsimp only; omega⟩⟩
  | giveUp | release =>
    obtain ⟨f, hf⟩ := release_eq s _
    rw [hf]
    exact ⟨slots f, trivial⟩
  | storeSize | storeAt => exact ⟨slots _, hl⟩
  | noSize | noAt => exact ⟨same, hl⟩
  | claimPad pad =>
    have hclaim := step_claim hok hl
    rw [if_pos pad] at hclaim
    exact ⟨.claim hok hl.1 hl.2.2, hclaim⟩
  | claim fits =>
    have hclaim := step_claim hok hl
    rw [if_neg (not_not.mpr fits)] at hclaim
    exact ⟨.claim hok hl.1 hl.2.2, hclaim⟩
  | padType => exact step_padType hok hl
  | padLen => exact step_padLen hok hl
  | recType => exact step_recType hok hl
  | recLenWrite payload =>
    obtain ⟨hg, e, hold, hf, hwr⟩ := step_recLen hok hl
    have hlen := hl.1.payload_len _ payload
    have htot := hf.total
    unfold Req.recordLen recordHeaderSize at htot
    exact ⟨hg, e, hold, hwr, by omega⟩
  | recLenClaim =>
    obtain ⟨hg, e, hold, hf, hwr⟩ := step_recLen hok hl
    exact ⟨hg, e, hold, hwr⟩
  | @copy c off b rest =>
    obtain ⟨e, hold, hwr, hlen⟩ := hl
    rw [List.length_cons] at hlen
    obtain ⟨hg, e', hold', hwr', htot⟩ := step_put hok hold hwr b (k := off) (by omega)
    exact ⟨hg, e', hold', hwr', by omega⟩
  | written =>
    obtain ⟨e, hold, hwr, -⟩ := hl
    exact ⟨step_commit hok hold hwr, trivial⟩
  | @put c off b fits =>
    obtain ⟨e, hold, hwr⟩ := hl
    have htot := hold.total
    unfold recordHeaderSize at fits
    obtain ⟨hg, e', hold', hwr', -⟩ := step_put hok hold hwr b (k := off) (by omega)
    exact ⟨hg, e', hold', hwr'⟩
  | commit =>
    obtain ⟨e, hold, hwr⟩ := hl
    exact ⟨step_commit hok hold hwr, trivial⟩
  | abort => exact step_abort hok hl
  | abortLen => exact ⟨step_abortLen hok hl, trivial⟩

end GoIpc.Ring
