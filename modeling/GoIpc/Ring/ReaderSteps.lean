import GoIpc.Ring.Frames

namespace GoIpc.Ring

open GoIpc.Lib

/-!
# Reader steps keep the invariant

`Advance` is what a step of `Read` owes the producers: it claims nothing, it changes no cell of
a claim it has not passed, and it does not pass padding that is not written.  `Reader.step_inv`
proves it for every program counter, together with what the reader itself knows afterwards; the
three places where `Read` could report a corrupt record are closed by `Ok.segment`.
-/

variable {C : Capacity} {pos : Nat} {s s' : Shared} {rd' : Reader}

/-- What one step of the reader owes the producers. -/
structure Advance (C : Capacity) (pos pos' : Nat) (s s' : Shared) : Prop where
  ok : s'.Ok C none pos'
  head : s.head ≤ s'.head
  moved : pos ≤ pos'
  log : s'.log = s.log
  tail : s'.tail = s.tail
  slots : s'.slots = s.slots
  claims : ∀ e ∈ s.log, e.state = .claimed → Untouched C s pos s' pos' e

/-- A step that changes no cell and does not move the reader. -/
theorem Advance.quiet (h : s.Ok C none pos) : Advance C pos pos s s :=
  ⟨h, le_refl _, le_refl _, rfl, rfl, rfl, fun _ he _ => ⟨he, fun _ _ _ _ => rfl, fun h _ => h⟩⟩

/-! ### The loop -/

variable {r : Loop} {len : Nat}

theorem Loop.finish_pos : r.finish.pos r.head = r.cursor := by
  unfold Loop.finish
  split
  · rfl
  · show r.head = r.head + r.consumed
    omega

theorem Loop.next_pos : r.next.pos r.head = r.cursor := by
  unfold Loop.next
  split
  · rfl
  · exact r.finish_pos

theorem Loop.finish_local (hr : r.Ok C s) (hle : r.consumed ≤ r.available) : r.finish.Local C s := by
  unfold Loop.finish
  split
  · exact ⟨hr, hle⟩
  · intro n
    simp

theorem Loop.next_local (hr : r.Ok C s) (hle : r.consumed ≤ r.available) : r.next.Local C s := by
  unfold Loop.next
  split
  · next h => exact ⟨hr, h.2⟩
  · exact finish_local hr hle

/-- The limit of the loop is a cursor between claims. -/
theorem Loop.Ok.limit_le (hr : r.Ok C s) (h : s.Ok C none pos) : r.head + r.available ≤ s.tail := by
  rcases hr.limit with hl | ⟨e, he, hl⟩
  · omega
  · have := h.tiled.bounds he
    omega

/-- What the header at the loop's cursor says: a segment that ends before the limit. -/
theorem Loop.Ok.segment (hr : r.Ok C s) (h : s.Ok C none r.cursor) (hlt : r.consumed < r.available)
    (hlen : lenAt (s.tape C) r.cursor = len) (hpos : 0 < len) :
    ∃ e ∈ s.log, 8 ≤ len ∧ r.cursor % C.size + align len ≤ C.size ∧
      r.consumed + align len ≤ r.available ∧ Segment (s.tape C) r.cursor len e := by
  have hcur : r.cursor = r.head + r.consumed := rfl
  have hle := hr.limit_le h
  obtain ⟨e, he, hmin, hfit, hseg⟩ := h.segment (by omega) hlen hpos
  obtain ⟨hb1, hb2, hb3, -⟩ := hseg.bounds (h.wf e he)
  have hb := h.tiled.bounds he
  refine ⟨e, he, hmin, hfit, ?_, hseg⟩
  -- the limit is above the claim's cursor, so it is not below its end
  rcases hr.limit with hl | ⟨x, hx, hl⟩
  · omega
  · have hxb := h.tiled.bounds hx
    rcases h.tiled.eq_or_disjoint hx he with rfl | hd | hd
    · omega
    · omega
    · omega

theorem Loop.Ok.lt_tail (hr : r.Ok C s) (h : s.Ok C none r.cursor) (hlt : r.consumed < r.available) :
    r.cursor < s.tail := by
  have hcur : r.cursor = r.head + r.consumed := rfl
  have hle := hr.limit_le h
  omega

/-- A header where the reader stands lies in the window and does not cross the end. -/
theorem Shared.Ok.inside {mend : Option Nat} (h : s.Ok C mend pos) (hlt : pos < s.tail) :
    s.head ≤ pos ∧ pos + 8 ≤ s.head + C.size ∧ pos % C.size + 8 ≤ C.size := by
  have hwin := h.window
  have hhead := h.head_le
  have htm := h.tail_mod
  have hpm := h.pos_mod
  have hm := mod_size_mod_eight C hpm
  have hc := C.mod_eight
  have hmin := C.min
  have hmod := Nat.mod_lt pos (show 0 < C.size by omega)
  omega

theorem Shared.Ok.loadLength {mend : Option Nat} (h : s.Ok C mend pos) (hlt : pos < s.tail) :
    s.loadLength (pos % C.size) = lenAt (s.tape C) pos := by
  obtain ⟨h1, h2, h3⟩ := h.inside hlt
  have hload : load32 s.data (pos % C.size) = load32 (s.tape C) pos :=
    load32_unwrap h1 (by omega) (by omega)
  unfold Shared.loadLength lenAt
  rw [hload]

theorem Shared.Ok.loadType {mend : Option Nat} (h : s.Ok C mend pos) (hlt : pos < s.tail) :
    s.loadType (pos % C.size) = typeAt (s.tape C) pos := by
  obtain ⟨h1, h2, h3⟩ := h.inside hlt
  have hidx : (pos + 4) % C.size = pos % C.size + 4 := add_mod_of_lt (by omega)
  have hload : load32 s.data ((pos + 4) % C.size) = load32 (s.tape C) (pos + 4) :=
    load32_unwrap (by omega) (by omega) (by omega)
  unfold Shared.loadType typeAt
  rw [← hidx, hload]

/-! ### Passing a record -/

/-- Moving the reader over a segment: nothing is written, and unwritten padding is not passed. -/
theorem Advance.stepOver (h : s.Ok C none pos) {e : Entry} (he : e ∈ s.log)
    (hlen : lenAt (s.tape C) pos = len) (hpos : 0 < len) (hseg : Segment (s.tape C) pos len e) :
    Advance C pos (pos + align len) s
      { s with delivered := s.delivered ++ deliveredBy (s.tape C) pos len } := by
  refine ⟨h.stepOver he hseg, le_refl _, Nat.le_add_right _ _, rfl, rfl, rfl, ?_⟩
  intro x hx _
  refine ⟨hx, fun _ _ _ _ => rfl, ?_⟩
  intro hle hzero
  obtain ⟨hb1, hb2, hb3, -⟩ := hseg.bounds (h.wf e he)
  have hxb := h.tiled.bounds hx
  rcases h.tiled.eq_or_disjoint hx he with rfl | hd | hd
  · -- the padding of `x` itself would have to be the segment
    have hcur : pos = x.cursor := by omega
    rw [← hcur] at hzero
    omega
  · omega
  · omega

/-- Clearing cells the reader has passed. -/
theorem Advance.erase (h : s.Ok C none pos) {c n : Nat} {g : Nat → UInt8} (hlo : s.head ≤ c)
    (hhi : c + n ≤ pos) (hend : c % C.size + n ≤ C.size) :
    Advance C pos pos s { s with data := patch s.data (c % C.size) n g } ∧
      Shared.tape C { s with data := patch s.data (c % C.size) n g }
        = patch (s.tape C) c n g := by
  have hp := h.pos_le
  have hwin := h.window
  have htape : Shared.tape C { s with data := patch s.data (c % C.size) n g }
      = patch (s.tape C) c n g := tape_patch (s := s) hlo (by omega) hend
  refine ⟨⟨h.erase hlo hhi hend, le_refl _, le_refl _, rfl, rfl, rfl, ?_⟩, htape⟩
  intro x hx _
  refine ⟨hx, ?_, fun hle _ => hle⟩
  intro y hy _ _
  rw [htape]
  exact patch_of_not_mem _ _ (by omega)

/-- Publishing the position as the new head. -/
theorem Advance.publish (h : s.Ok C none pos) (hz : Blank (s.tape C) s.head pos) :
    Advance C pos pos s { s with head := pos } := by
  obtain ⟨hok, htape⟩ := h.advance hz
  refine ⟨hok, h.head_le, le_refl _, rfl, rfl, rfl, ?_⟩
  intro x hx _
  exact ⟨hx, fun _ _ _ _ => by rw [htape], fun hle _ => hle⟩

/-! ### Every program counter -/

/-- The callback of `Read` sees what lies on the tape. -/
theorem step_pass {typ : Word} (hok : s.Ok C none r.cursor) (hl : (Reader.pass r len typ).Local C s)
    (h : (Reader.pass r len typ).step C s .step = some (s', rd')) :
    Advance C r.cursor (rd'.pos s'.head) s s' ∧ rd'.Local C s' := by
  obtain ⟨hr, hlt, hpos, hlen, rfl⟩ := hl
  obtain ⟨e, he, hmin, hfit, hav, hseg⟩ := hr.segment hok hlt hlen hpos
  have hadv := Advance.stepOver hok he hlen hpos hseg
  unfold Reader.step at h
  dsimp only at h
  split at h
  · next htyp =>
    obtain ⟨rfl, rfl⟩ := by simpa using h
    have hnil : deliveredBy (s.tape C) r.cursor len = [] := if_pos htyp
    rw [hnil, List.append_nil] at hadv
    exact ⟨hadv, hr, hav, hmin, hfit⟩
  · next htyp =>
    obtain ⟨rfl, rfl⟩ := by simpa using h
    obtain ⟨h1, h2, h3⟩ := hok.inside (hr.lt_tail hok hlt)
    have hle := le_align len
    have hstop := hok.stop_le he
    obtain ⟨-, -, hb3, -⟩ := hseg.bounds (hok.wf e he)
    have hslice : slice s.data (r.cursor % C.size + 8) (len - 8)
        = slice (s.tape C) (r.cursor + 8) (len - 8) :=
      slice_unwrap h1 (by omega) (by omega)
    have hone : deliveredBy (s.tape C) r.cursor len = [(typeAt (s.tape C) r.cursor,
        slice s.data (r.cursor % C.size + recordHeaderSize) (len - recordHeaderSize))] := by
      rw [deliveredBy, if_neg htyp, ← hslice]
      rfl
    rw [hone] at hadv
    exact ⟨hadv, ⟨hr.head, hr.limit, hr.cleared⟩, hav, hmin, hfit⟩

theorem step_clear (hok : s.Ok C none (r.cursor + align len)) (hl : (Reader.clear r len).Local C s)
    (h : (Reader.clear r len).step C s .step = some (s', rd')) :
    Advance C (r.cursor + align len) (rd'.pos s'.head) s s' ∧ rd'.Local C s' := by
  obtain ⟨hr, hav, hmin, hfit⟩ := hl
  have hle := le_align len
  have hcur : r.cursor = r.head + r.consumed := rfl
  have hhead := hr.head
  have hidx : (r.cursor + 4) % C.size = r.cursor % C.size + 4 := add_mod_of_lt (by omega)
  unfold Reader.step Lib.clear at h
  obtain ⟨rfl, rfl⟩ := by simpa using h
  rw [← hidx, show r.cursor % C.size + align len - (r.cursor + 4) % C.size = align len - 4 by omega]
  obtain ⟨hadv, htape⟩ := Advance.erase (g := fun _ => 0) hok (c := r.cursor + 4)
    (n := align len - 4) (by omega) (by omega) (by omega)
  refine ⟨hadv, ⟨hr.head, hr.limit, ?_⟩, hav, hmin, hfit, ?_⟩
  · intro c h1 h2
    rw [htape, patch_of_not_mem _ _ (by omega)]
    exact hr.cleared c h1 h2
  · intro c h1 h2
    rw [htape, patch_of_mem _ _ h1 (by omega)]

theorem step_storeLen (hok : s.Ok C none (r.cursor + align len)) (hl : (Reader.storeLen r len).Local C s)
    (h : (Reader.storeLen r len).step C s .step = some (s', rd')) :
    Advance C (r.cursor + align len) (rd'.pos s'.head) s s' ∧ rd'.Local C s' := by
  obtain ⟨hr, hav, hmin, hfit, hz⟩ := hl
  have hle := le_align len
  have hcur : r.cursor = r.head + r.consumed := rfl
  have hhead := hr.head
  unfold Reader.step at h
  simp only [Option.some.injEq, Prod.mk.injEq] at h
  obtain ⟨rfl, rfl⟩ := h
  obtain ⟨hadv, htape⟩ := Advance.erase (g := byteOf (BitVec.ofInt 32 0)) hok (c := r.cursor)
    (n := 4) (by omega) (by omega) (by omega)
  have hpos : (Loop.next { r with consumed := r.consumed + align len }).pos s.head
      = r.cursor + align len := by
    rw [← hhead]
    exact Loop.next_pos.trans (Nat.add_assoc _ _ _).symm
  refine ⟨?_, Loop.next_local ⟨hr.head, hr.limit, ?_⟩ hav⟩
  · show Advance C _ ((Loop.next { r with consumed := r.consumed + align len }).pos s.head) s _
    rwa [hpos]
  · intro c h1 h2
    have h2 : c < r.cursor + align len := by
      unfold Loop.cursor at h2 ⊢
      dsimp only at h2
      omega
    show Shared.tape C { s with data := patch s.data (r.cursor % C.size) 4 _ } c = 0
    rw [htape]
    by_cases hc : c < r.cursor
    · rw [patch_of_not_mem _ _ (by omega)]
      exact hr.cleared c h1 hc
    · by_cases hc4 : c < r.cursor + 4
      · rw [patch_of_mem _ _ (by omega) hc4]
        simp [byteOf]
      · rw [patch_of_not_mem _ _ (by omega)]
        exact hz c (by omega) h2

/-- **One step of the reader** keeps its side of the invariant, and never finds a corrupt
    record. -/
theorem Reader.step_inv {rd : Reader} {a : ReadAct} (hok : s.Ok C none (rd.pos s.head))
    (hl : rd.Local C s) (h : rd.step C s a = some (s', rd')) :
    Advance C (rd.pos s.head) (rd'.pos s'.head) s s' ∧ rd'.Local C s' := by
  have same : Advance C (rd.pos s.head) (rd.pos s.head) s s := .quiet hok
  cases a with
  | read limit =>
    cases rd with
    | idle last =>
      obtain ⟨rfl, rfl⟩ := by simpa [Reader.step] using h
      split
      · exact ⟨same, by intro n; simp⟩
      · exact ⟨same, trivial⟩
    | _ => cases h
  | step =>
    cases rd with
    | idle last => cases h
    | loadHead limit =>
      obtain ⟨rfl, rfl⟩ := by simpa [Reader.step] using h
      exact ⟨same, rfl⟩
    | loadTail limit head =>
      have hhead : head = s.head := hl
      subst hhead
      have hle := hok.pos_le
      have hcur : (Loop.cursor ⟨limit, s.head, s.tail - s.head, 0, 0⟩) = s.head := rfl
      obtain ⟨rfl, rfl⟩ := by simpa [Reader.step] using h
      have hpos : (Loop.next ⟨limit, s.head, s.tail - s.head, 0, 0⟩).pos s.head = s.head :=
        Loop.next_pos
      refine ⟨?_, Loop.next_local ⟨rfl, .inl ?_, ?_⟩ (Nat.zero_le _)⟩
      · rw [hpos]
        exact same
      · have : s.head ≤ s.tail := hle
        dsimp only
        omega
      · intro c h1 h2
        omega
    | loadLen r =>
      obtain ⟨hr, hlt⟩ := hl
      have hhead := hr.head
      unfold Reader.step at h
      dsimp only at h
      have hat : s.Ok C none r.cursor := hok
      rw [hat.loadLength (hr.lt_tail hok hlt)] at h
      split at h
      · obtain ⟨rfl, rfl⟩ := by simpa using h
        rw [← hhead, Loop.finish_pos]
        exact ⟨same, Loop.finish_local hr (by omega)⟩
      · next hneg =>
        obtain ⟨len, hlen⟩ := Int.eq_ofNat_of_zero_le (show 0 ≤ lenAt (s.tape C) r.cursor by omega)
        rw [hlen, Int.toNat_natCast] at h
        obtain ⟨e, he, hmin, hfit, hav, hseg⟩ := hr.segment hok hlt hlen (by omega)
        -- none of the three corruption tests can succeed
        rw [if_neg (by unfold recordHeaderSize; omega)] at h
        obtain ⟨rfl, rfl⟩ := by simpa using h
        exact ⟨same, hr, hlt, by omega, hlen⟩
    | loadType r len =>
      obtain ⟨hr, hlt, hpos, hlen⟩ := hl
      unfold Reader.step at h
      dsimp only at h
      have hat : s.Ok C none r.cursor := hok
      rw [hat.loadType (hr.lt_tail hok hlt)] at h
      obtain ⟨rfl, rfl⟩ := by simpa using h
      exact ⟨same, hr, hlt, hpos, hlen, rfl⟩
    | pass r len typ => exact step_pass hok hl h
    | clear r len => exact step_clear hok hl h
    | storeLen r len => exact step_storeLen hok hl h
    | storeHead r =>
      obtain ⟨hr, hle⟩ := hl
      obtain ⟨rfl, rfl⟩ := by simpa [Reader.step] using h
      exact ⟨Advance.publish hok hr.cleared, by intro n; simp⟩

end GoIpc.Ring
