import GoIpc.Ring.Invariant

namespace GoIpc.Ring

open GoIpc.Lib

/-!
# What the effects of a step keep

Every step of the ring has one of a handful of effects on the shared memory.  This file says
once, for each of them, that the shared invariant survives; the step lemmas of producers, reader
and receiver then only say which effect they have.

* `Ok.slots`, `Ok.storeCache` — no cell and no claim changes;
* `Ok.claim` — a compare-and-swap on `tail` adds a claim over zero cells;
* `Ok.write` — a store inside one claim that the reader has not passed;
* `Ok.stepOver` — the reader passes a segment with a positive length;
* `Ok.erase` — the reader clears cells it has passed;
* `Ok.advance` — the reader publishes its position as the new head.
-/

variable {C : Capacity} {mend mend' : Option Nat} {pos pos' : Nat} {s s' : Shared} {T T' : Mem}

/-! ### Cells -/

/-- A store inside the window is the same store on the tape. -/
theorem tape_patch {c n : Nat} {g : Nat → UInt8} (hlo : s.head ≤ c)
    (hhi : c + n ≤ s.head + C.size) (hend : c % C.size + n ≤ C.size) :
    Shared.tape C { s with data := patch s.data (c % C.size) n g }
      = patch (s.tape C) c n g :=
  unwrap_patch g hlo hhi hend

variable {e : Entry}

/-- A slice of the same cells is the same slice. -/
theorem Entry.RecordOk.congr (hw : e.Wf C) (h : e.RecordOk T mend)
    (hT : ∀ c, e.record ≤ c → c < e.stop → T' c = T c) (hm : mend = some e.record → mend' = some e.record) :
    e.RecordOk T' mend' := by
  have ha := hw.arith
  have hl : lenAt T' e.record = lenAt T e.record :=
    lenAt_congr (fun k hk => hT _ (by omega) (by omega))
  have ht : typeAt T' e.record = typeAt T e.record :=
    typeAt_congr (fun k hk => hT _ (by omega) (by omega))
  have hs : slice T' (e.record + 8) (e.total - 8) = slice T (e.record + 8) (e.total - 8) :=
    slice_congr (fun k hk => hT _ (by omega) (by omega))
  unfold Entry.RecordOk at h ⊢
  rw [hl, ht, hs]
  split at h
  · exact h
  · exact h
  · exact h
  · exact h
  · exact ⟨h.1, h.2.imp_left hm⟩

theorem Entry.PadOk.congr (h : e.PadOk T mend) (hT : ∀ k, k < 8 → T' (e.cursor + k) = T (e.cursor + k))
    (hm : mend = some e.cursor → mend' = some e.cursor) : e.PadOk T' mend' := by
  have hl : lenAt T' e.cursor = lenAt T e.cursor := lenAt_congr (fun k hk => hT k (by omega))
  have ht : typeAt T' e.cursor = typeAt T e.cursor := typeAt_congr hT
  unfold Entry.PadOk at h ⊢
  rw [hl, ht]
  exact h.imp_right (fun h => ⟨h.1, h.2.imp_left hm⟩)

theorem Entry.Padded.congr (h : e.Padded T pos) (hle : pos ≤ pos')
    (hT : pos ≤ e.cursor → e.pad ≠ 0 → ∀ k, k < 4 → T' (e.cursor + k) = T (e.cursor + k)) :
    e.Padded T' pos' := by
  intro hpad hpos
  rw [lenAt_congr (hT (le_trans hle hpos) hpad)]
  exact h hpad (le_trans hle hpos)

/-- The content of a claim only depends on its own cells from `pos` on. -/
theorem Entry.Content.congr (hw : e.Wf C) (h : e.Content T mend pos)
    (hT : ∀ c, pos ≤ c → e.cursor ≤ c → c < e.stop → T' c = T c)
    (hm1 : mend = some e.cursor → mend' = some e.cursor)
    (hm2 : mend = some e.record → mend' = some e.record) : e.Content T' mend' pos := by
  have ha := hw.arith
  constructor
  · intro hpad hpos
    exact (h.pad hpad hpos).congr (fun k hk => hT _ (by omega) (by omega) (by omega)) hm1
  · intro hpos
    exact (h.record hpos).congr hw (fun c h1 h2 => hT c (by omega) (by omega) h2) hm2
  · intro hu
    exact (h.done hu).congr (le_refl _)
      (fun _ _ k hk => hT _ (by omega) (by omega) (by omega))

theorem Entry.Content.mono (h : e.Content T mend pos) (hle : pos ≤ pos') : e.Content T mend pos' :=
  ⟨fun hpad hpos => h.pad hpad (le_trans hle hpos), fun hpos => h.record (le_trans hle hpos),
    fun hu => (h.done hu).congr hle (fun _ _ _ _ => rfl)⟩

/-! ### The history -/

/-- A change of a claim's history that leaves its range alone. -/
structure Keeps (f : Entry → Entry) : Prop where
  cursor : ∀ e, (f e).cursor = e.cursor
  pad : ∀ e, (f e).pad = e.pad
  total : ∀ e, (f e).total = e.total
  owner : ∀ e, (f e).owner = e.owner
  slot : ∀ e, (f e).slot = e.slot

namespace Keeps

variable {f : Entry → Entry} (hf : Keeps f)

include hf

theorem record (e : Entry) : (f e).record = e.record := by
  unfold Entry.record; rw [hf.cursor, hf.pad]

theorem stop (e : Entry) : (f e).stop = e.stop := by
  unfold Entry.stop Entry.size; rw [hf.cursor, hf.pad, hf.total]

theorem at_cursor (a : Nat) : Keeps (fun e => if e.cursor = a then f e else e) where
  cursor e := by split; exacts [hf.cursor e, rfl]
  pad e := by split; exacts [hf.pad e, rfl]
  total e := by split; exacts [hf.total e, rfl]
  owner e := by split; exacts [hf.owner e, rfl]
  slot e := by split; exacts [hf.slot e, rfl]

end Keeps

theorem keeps_id : Keeps id := ⟨fun _ => rfl, fun _ => rfl, fun _ => rfl, fun _ => rfl, fun _ => rfl⟩

theorem keeps_state (st : ClaimState) : Keeps (fun e => { e with state := st }) :=
  ⟨fun _ => rfl, fun _ => rfl, fun _ => rfl, fun _ => rfl, fun _ => rfl⟩

theorem keeps_payload (k : Nat) (b : UInt8) :
    Keeps (fun e => { e with payload := e.payload.set k b }) :=
  ⟨fun _ => rfl, fun _ => rfl, fun _ => rfl, fun _ => rfl, fun _ => rfl⟩

/-- Noting nothing changes nothing. -/
theorem note_id (s : Shared) (a : Nat) : s.note a id = s := by
  unfold Shared.note
  simp

/-- A noted claim, and the others. -/
theorem mem_note {a : Nat} {f : Entry → Entry} {x : Entry} :
    x ∈ (s.note a f).log ↔ ∃ e ∈ s.log, (if e.cursor = a then f e else e) = x := by
  simp [Shared.note, List.mem_map]

theorem mem_note_self {f : Entry → Entry} (he : e ∈ s.log) :
    f e ∈ (s.note e.cursor f).log := mem_note.mpr ⟨e, he, if_pos rfl⟩

theorem mem_note_other {a : Nat} {f : Entry → Entry} (he : e ∈ s.log) (hne : e.cursor ≠ a) :
    e ∈ (s.note a f).log := mem_note.mpr ⟨e, he, if_neg hne⟩

/-- An entry of a noted log is the noted claim or an untouched other one. -/
theorem mem_note_cases (h : s.Ok C mend pos) {x : Entry} {f : Entry → Entry} (he : e ∈ s.log)
    (hx : x ∈ (s.note e.cursor f).log) : x = f e ∨ (x ∈ s.log ∧ x ≠ e ∧ x.cursor ≠ e.cursor) := by
  obtain ⟨y, hy, rfl⟩ := mem_note.mp hx
  by_cases hc : y.cursor = e.cursor
  · obtain rfl := h.tiled.eq_of_lo_eq hy he hc
    exact .inl (if_pos rfl)
  · rw [if_neg hc]
    exact .inr ⟨hy, fun heq => hc (heq ▸ rfl), hc⟩

/-! ### Effects of producers -/

theorem Shared.Ok.slots (h : s.Ok C mend pos) (f : Nat → Slot) :
    Shared.Ok C mend pos { s with slots := f } :=
  ⟨h.tiled, h.wf, h.window, h.cache, h.head_le, h.bound, h.free, h.content, h.passed, h.delivered⟩

theorem Shared.Ok.storeCache (h : s.Ok C mend pos) {v : Nat} (hv : v ≤ s.head) :
    Shared.Ok C mend pos { s with headCache := v } :=
  ⟨h.tiled, h.wf, h.window, hv, h.head_le, h.bound, h.free, h.content, h.passed, h.delivered⟩

/-- Releasing a slot, as a change of slots. -/
theorem release_eq (s : Shared) (slot : Option Nat) :
    ∃ f, s.release slot = { s with slots := f } := by
  cases slot with
  | none => exact ⟨s.slots, rfl⟩
  | some i => exact ⟨_, rfl⟩

/-- A claim that `tryClaim` makes is well formed. -/
theorem Req.entry_wf {q : Req} (hq : q.Ok C) {tail : Nat} (ht : tail % 8 = 0) (t : Nat) :
    (q.entry C tail t).Wf C := by
  have hlen := hq.length_le
  rw [maxMessageSize_eq] at hlen
  have hmin := C.min
  have hdvd := C.dvd
  refine ⟨ht, rfl, ?_, ?_, ?_, hq.typ_ne⟩
  · show 8 ≤ q.recordLen
    unfold Req.recordLen recordHeaderSize
    omega
  · show align q.recordLen ≤ C.size / 2
    apply align_le
    · unfold Req.recordLen recordHeaderSize
      omega
    · omega
  · show (List.replicate q.length 0).length + 8 = q.recordLen
    rw [List.length_replicate]
    unfold Req.recordLen recordHeaderSize
    omega

theorem Req.entry_stop {q : Req} {tail : Nat} (t : Nat) :
    (q.entry C tail t).stop = tail + q.need C tail := by
  show tail + (padOf C tail q.aligned + align q.recordLen) = tail + Ring.need C tail q.aligned
  rw [need_eq]
  rfl

/-- **Claiming.** A successful compare-and-swap on `tail` adds a claim whose cells are all
    zero, if the whole claim fits into one lap from `head`. -/
theorem Shared.Ok.claim (h : s.Ok C mend pos) {q : Req} (hq : q.Ok C) {t : Nat}
    (hroom : s.tail + q.need C s.tail ≤ s.head + C.size) :
    Shared.Ok C mend pos
      { s with tail := s.tail + q.need C s.tail, log := s.log ++ [q.entry C s.tail t] } := by
  have hw : (q.entry C s.tail t).Wf C := Req.entry_wf hq h.tail_mod t
  have hstop : (q.entry C s.tail t).stop = s.tail + q.need C s.tail := Req.entry_stop t
  have ha := hw.arith
  have hcur : (q.entry C s.tail t).cursor = s.tail := rfl
  have hpos := h.pos_le
  refine ⟨?_, ?_, hroom, h.cache, h.head_le, ?_, ?_, ?_, ?_, ?_⟩
  · rw [← hstop]
    exact h.tiled.concat hcur (by omega)
  · intro e he
    rcases List.mem_append.mp he with he | he
    · exact h.wf e he
    · obtain rfl := List.mem_singleton.mp he
      exact hw
  · rcases h.bound with hp | ⟨e, he, hp⟩
    · exact .inr ⟨q.entry C s.tail t, by simp, .inl (hcur ▸ hp)⟩
    · exact .inr ⟨e, List.mem_append_left _ he, hp⟩
  · intro c hc
    exact h.free c (by dsimp only at hc; omega)
  · intro e he
    rcases List.mem_append.mp he with he | he
    · exact h.content e he
    · obtain rfl := List.mem_singleton.mp he
      -- the cells of the new claim are still free
      have hz : ∀ c, s.tail ≤ c → s.tape C c = 0 := h.free
      refine ⟨fun _ _ => .inl ?_, fun _ => .inl ?_, fun hu => absurd (.inl rfl) hu⟩
      · exact Blank.lenAt (b := s.tail + 4) (fun c h1 _ => hz c (by omega)) (by omega)
      · exact Blank.lenAt (b := (q.entry C s.tail t).record + 4)
          (fun c h1 _ => hz c (by omega)) (by omega)
  · intro e he hle
    rcases List.mem_append.mp he with he | he
    · exact h.passed e he hle
    · obtain rfl := List.mem_singleton.mp he
      omega
  · show s.delivered = committedOf (below Entry.stop pos (s.log ++ [q.entry C s.tail t]))
    rw [below_concat (by omega)]
    exact h.delivered

/-- **Writing.** A store inside one claim the reader has not passed touches no other claim. -/
theorem Shared.Ok.write (h : s.Ok C mend pos) (he : e ∈ s.log) {c n : Nat} {g : Nat → UInt8}
    {f : Entry → Entry} (hf : Keeps f) (hlo : e.cursor ≤ c) (hhi : c + n ≤ e.stop) (hpos : pos ≤ c)
    (hlt : pos < e.stop) (hend : c % C.size + n ≤ C.size) (hwf : (f e).Wf C)
    (hcontent : (f e).Content (patch (s.tape C) c n g) mend' pos)
    (hmend : ∀ x ∈ s.log, x.cursor ≠ e.cursor →
      (mend = some x.cursor → mend' = some x.cursor) ∧
      (mend = some x.record → mend' = some x.record)) :
    Shared.Ok C mend' pos
      (Shared.note { s with data := patch s.data (c % C.size) n g } e.cursor f) := by
  have hstop := h.stop_le he
  have htape : Shared.tape C (Shared.note { s with data := patch s.data (c % C.size) n g } e.cursor f)
      = patch (s.tape C) c n g :=
    tape_patch (s := s) (le_trans h.head_le hpos) (by omega) hend
  have hfc := hf.at_cursor e.cursor
  have hb := h.tiled.bounds he
  refine ⟨?_, ?_, h.window, h.cache, h.head_le, ?_, ?_, ?_, ?_, ?_⟩
  · exact h.tiled.map hfc.cursor hfc.stop
  · intro x hx
    rcases mem_note_cases h he hx with rfl | ⟨hx, -, -⟩
    · exact hwf
    · exact h.wf x hx
  · rcases h.bound with hp | ⟨x, hx, hp⟩
    · exact .inl hp
    · refine .inr ⟨_, mem_note.mpr ⟨x, hx, rfl⟩, ?_⟩
      rwa [hfc.cursor, hfc.record]
  · intro x hx
    rw [htape, patch_of_not_mem _ _ (by dsimp only [Shared.note] at hx; omega)]
    exact h.free x hx
  · intro x hx
    rw [htape]
    rcases mem_note_cases h he hx with rfl | ⟨hx, hne, hcne⟩
    · exact hcontent
    · have hd := h.tiled.eq_or_disjoint hx he
      obtain ⟨hm1, hm2⟩ := hmend x hx hcne
      refine (h.content x hx).congr (h.wf x hx) ?_ hm1 hm2
      intro y _ h1 h2
      apply patch_of_not_mem
      rcases hd with heq | hd | hd
      · exact absurd heq hne
      · omega
      · omega
  · intro x hx hle
    rcases mem_note_cases h he hx with rfl | ⟨hx, -, -⟩
    · rw [hf.stop] at hle
      omega
    · exact h.passed x hx hle
  · show s.delivered = committedOf (below Entry.stop pos (s.log.map _))
    -- no claim below `pos` is the one that changed
    have hsame : ∀ x ∈ below Entry.stop pos s.log,
        (if x.cursor = e.cursor then f x else x) = id x := by
      intro x hx
      obtain ⟨hx, hle⟩ := mem_below.mp hx
      apply if_neg
      intro hc
      obtain rfl := h.tiled.eq_of_lo_eq hx he hc
      omega
    rw [below_map hfc.stop, List.map_congr_left hsame, List.map_id]
    exact h.delivered

/-! ### Effects of the reader -/

/-- What a positive length at the reader's position means: complete padding in front of a
    record, or the record of a finished claim. -/
inductive Segment (T : Mem) (pos len : Nat) (e : Entry) : Prop
  | padding (h1 : pos = e.cursor) (h2 : pos + align len = e.record)
      (typ : typeAt T pos = typePadding)
  | message (h1 : pos = e.record) (h2 : pos + align len = e.stop) (st : e.state = .committed)
      (typ : typeAt T pos = e.typ) (payload : slice T (pos + 8) (len - 8) = e.payload)
  | skipped (h1 : pos = e.record) (h2 : pos + align len = e.stop)
      (st : e.state = .aborted ∨ e.state = .reclaimed true) (typ : typeAt T pos = typePadding)

/-- **The reader only meets whole segments.** -/
theorem Shared.Ok.segment (h : s.Ok C none pos) (hlt : pos < s.tail) {len : Nat}
    (hlen : lenAt (s.tape C) pos = len) (hpos : 0 < len) :
    ∃ e ∈ s.log, 8 ≤ len ∧ pos % C.size + align len ≤ C.size ∧ Segment (s.tape C) pos len e := by
  rcases h.bound with hp | ⟨e, he, hp⟩
  · omega
  have hw := h.wf e he
  have ha := hw.arith
  have hmin := hw.total_min
  refine ⟨e, he, ?_⟩
  by_cases hpad : e.pad ≠ 0 ∧ pos = e.cursor
  · -- the header of the wrap padding
    obtain ⟨hpad, rfl⟩ := hpad
    rcases (h.content e he).pad hpad (le_refl _) with h0 | ⟨hl, ht⟩
    · omega
    · have hpe : e.pad = len := by omega
      have hal : align len = e.pad := by rw [← hpe]; exact align_of_mod (by omega)
      have hfit := hw.pad_fits
      refine ⟨by omega, by omega, .padding rfl (by omega) ?_⟩
      simpa using ht
  · -- the header of the record
    have hrec : pos = e.record := by omega
    have hfit := hw.record_fits
    have hok := (h.content e he).record (le_of_eq hrec)
    unfold Entry.RecordOk at hok
    rw [← hrec] at hok hfit
    split at hok
    · omega
    · omega
    case h_3 hst =>
      have hl : len = e.total := by omega
      subst hl
      exact ⟨hmin, hfit, .message hrec (by omega) hst hok.2.1 hok.2.2⟩
    case h_4 hst =>
      have hl : len = e.total := by omega
      subst hl
      exact ⟨hmin, hfit, .skipped hrec (by omega) (.inl hst) hok.2⟩
    case h_5 hst =>
      have hl : len = align e.total := by omega
      have hal : align len = align e.total := by rw [hl]; exact align_of_mod (align_mod _)
      refine ⟨by omega, by omega, .skipped hrec (by omega) (.inr hst) ?_⟩
      simpa using hok.2

/-- A segment ends inside its claim, at the record or at the end of the claim. -/
theorem Segment.bounds {len : Nat} (hw : e.Wf C) (h : Segment T pos len e) :
    e.cursor ≤ pos ∧ pos < e.stop ∧ pos + align len ≤ e.stop ∧
      (pos + align len = e.record ∨ pos + align len = e.stop) := by
  have ha := hw.arith
  cases h <;> omega

/-- What passing a segment hands to the callback. -/
def deliveredBy (T : Mem) (pos len : Nat) : List (Word × List UInt8) :=
  if typeAt T pos = typePadding then [] else [(typeAt T pos, slice T (pos + 8) (len - 8))]

/-- **Stepping over.** Passing a segment delivers exactly the claim that ends there, if it is
    committed, and nothing otherwise. -/
theorem Shared.Ok.stepOver (h : s.Ok C none pos) {len : Nat} (he : e ∈ s.log)
    (hseg : Segment (s.tape C) pos len e) :
    Shared.Ok C none (pos + align len)
      { s with delivered := s.delivered ++ deliveredBy (s.tape C) pos len } := by
  have hw := h.wf e he
  have ha := hw.arith
  obtain ⟨hb1, hb2, hb3, hb4⟩ := hseg.bounds hw
  have hle : pos ≤ pos + align len := Nat.le_add_right _ _
  refine ⟨h.tiled, h.wf, h.window, h.cache, le_trans h.head_le hle, ?_, h.free,
    fun x hx => (h.content x hx).mono hle, ?_, ?_⟩
  · rcases hb4 with hr | hr
    · exact .inr ⟨e, he, .inr hr⟩
    · rw [hr]
      rcases h.tiled.next he with hn | ⟨e', he', hn⟩
      · exact .inl hn
      · exact .inr ⟨e', he', .inl hn.symm⟩
  · intro x hx hxle
    by_cases hxp : x.stop ≤ pos
    · exact h.passed x hx hxp
    · -- only the claim of the segment itself can end in between
      have hxb := h.tiled.bounds hx
      have hxe : x = e := by
        rcases h.tiled.eq_or_disjoint hx he with heq | hd | hd
        · exact heq
        · omega
        · omega
      subst hxe
      unfold Entry.Unfinished
      cases hseg with
      | padding h1 h2 _ => omega
      | message h1 h2 st _ _ => simp [st]
      | skipped h1 h2 st _ => rcases st with st | st <;> simp [st]
  · show s.delivered ++ deliveredBy (s.tape C) pos len
      = committedOf (below Entry.stop (pos + align len) s.log)
    rw [h.delivered]
    cases hseg with
    | padding h1 h2 typ =>
      rw [below_within h.tiled he hb1 hle (by omega), deliveredBy, if_pos typ, List.append_nil]
    | message h1 h2 st typ payload =>
      rw [h2, below_hi h.tiled he hb1 hb2, deliveredBy, if_neg (typ ▸ hw.typ_ne), typ, payload]
      simp [committedOf, Entry.isCommitted, Entry.message, st]
    | skipped h1 h2 st typ =>
      rw [h2, below_hi h.tiled he hb1 hb2, deliveredBy, if_pos typ, List.append_nil]
      rcases st with st | st <;> simp [committedOf, Entry.isCommitted, st]

/-- **Erasing.** Clearing cells the reader has passed touches no claim that is left. -/
theorem Shared.Ok.erase (h : s.Ok C mend pos) {c n : Nat} {g : Nat → UInt8} (hlo : s.head ≤ c)
    (hhi : c + n ≤ pos) (hend : c % C.size + n ≤ C.size) :
    Shared.Ok C mend pos { s with data := patch s.data (c % C.size) n g } := by
  have hp := h.pos_le
  have hwin := h.window
  have htape : Shared.tape C { s with data := patch s.data (c % C.size) n g }
      = patch (s.tape C) c n g := tape_patch (s := s) hlo (by omega) hend
  refine ⟨h.tiled, h.wf, h.window, h.cache, h.head_le, h.bound, ?_, ?_, h.passed, h.delivered⟩
  · intro x hx
    rw [htape, patch_of_not_mem _ _ (by dsimp only at hx; omega)]
    exact h.free x hx
  · intro x hx
    rw [htape]
    exact (h.content x hx).congr (h.wf x hx)
      (fun y h1 _ _ => patch_of_not_mem _ _ (by omega)) id id

/-- **Publishing.** Moving `head` over cleared cells frees them for the next lap. -/
theorem Shared.Ok.advance (h : s.Ok C mend pos) (hz : Blank (s.tape C) s.head pos) :
    Shared.Ok C mend pos { s with head := pos } ∧
      Shared.tape C { s with head := pos } = s.tape C := by
  have hp := h.pos_le
  have hwin := h.window
  have hle := h.head_le
  have htape : Shared.tape C { s with head := pos } = s.tape C :=
    unwrap_advance hle (show pos ≤ s.head + C.size by omega) hz
  refine ⟨⟨h.tiled, h.wf, ?_, ?_, le_refl _, h.bound, ?_, ?_, h.passed, h.delivered⟩, htape⟩
  · dsimp only
    omega
  · exact le_trans h.cache hle
  · intro c hc
    rw [htape]
    exact h.free c hc
  · intro e he
    rw [htape]
    exact h.content e he

/-! ### What the others know -/

/-- What a step of somebody else leaves of a claim: it stays claimed, its cells from `pos` on
    stay as they are, and the reader does not pass padding that is not written yet. -/
structure Untouched (C : Capacity) (s : Shared) (pos : Nat) (s' : Shared) (pos' : Nat)
    (e : Entry) : Prop where
  mem : e ∈ s'.log
  cells : ∀ c, pos ≤ c → e.cursor ≤ c → c < e.stop → s'.tape C c = s.tape C c
  behind : pos ≤ e.cursor → lenAt (s.tape C) e.cursor = 0 → pos' ≤ e.cursor

theorem Written.congr (hw : e.Wf C) (h : Written T e) (hT : ∀ c, e.record ≤ c → c < e.stop → T' c = T c) :
    Written T' e := by
  have ha := hw.arith
  refine ⟨?_, ?_, ?_⟩
  · rw [typeAt_congr (fun k hk => hT _ (by omega) (by omega))]
    exact h.typ
  · rw [lenAt_congr (fun k hk => hT _ (by omega) (by omega))]
    exact h.len
  · rw [slice_congr (fun k hk => hT _ (by omega) (by omega))]
    exact h.payload

/-- **Non-interference.** A producer's knowledge survives any step that leaves its claim
    untouched and moves no cursor back. -/
theorem Producer.Local.stable {t : Nat} {p : Producer} (h : p.Local C s pos t)
    (hok : s.Ok C mend pos) (hhead : s.head ≤ s'.head) (hle : pos ≤ pos')
    (hkeep : ∀ e ∈ s.log, e.owner = t → e.state = .claimed → p.cursor = some e.cursor →
      Untouched C s pos s' pos' e) : p.Local C s' pos' t := by
  -- an open record stays open, with its cells and its header
  have hopen : ∀ {c : Claim} {e : Entry}, Open C s pos t c e → p.cursor = some c.cursor →
      Open C s' pos' t c e ∧ (∀ x, e.record ≤ x → x < e.stop → s'.tape C x = s.tape C x) ∧
        typeAt (s'.tape C) e.record = typeAt (s.tape C) e.record ∧
        lenAt (s'.tape C) e.record = lenAt (s.tape C) e.record := by
    intro c e hold hc
    have ha := (hok.wf e hold.mem).arith
    have hp := hok.pos_le_record hold.mem (.inl hold.claimed)
    have hu := hkeep e hold.mem hold.owner hold.claimed (hold.cursor ▸ hc)
    have hcells : ∀ x, e.record ≤ x → x < e.stop → s'.tape C x = s.tape C x := fun x h1 h2 =>
      hu.cells x (by omega) (by omega) h2
    refine ⟨{ hold with mem := hu.mem, padded := hold.padded.congr hle ?_ }, hcells,
      typeAt_congr fun k hk => hcells _ (by omega) (by omega),
      lenAt_congr fun k hk => hcells _ (by omega) (by omega)⟩
    exact fun h1 h2 k hk => hu.cells _ (by omega) (by omega) (by omega)
  cases p with
  | idle | giveUp | release => trivial
  | loadTail q => exact h
  | loadCache q tail | loadHead q tail => exact h
  | storeCache q tail head =>
    obtain ⟨hq, ht, hh, hr⟩ := h
    exact ⟨hq, ht, le_trans hh hhead, hr⟩
  | storeSize q tail | storeAt q tail | casTail q tail =>
    obtain ⟨hq, ht, hr⟩ := h
    exact ⟨hq, ht, by omega⟩
  | padType q tail =>
    obtain ⟨hq, e, hold, hf, hpad, hpos, hz⟩ := h
    have hw := hok.wf e hold.mem
    have ha := hw.arith
    have hu := hkeep e hold.mem hold.owner hold.claimed (hold.cursor ▸ rfl)
    refine ⟨hq, e, { hold with mem := hu.mem }, hf, hpad, hu.behind hpos ?_, ?_⟩
    · exact Blank.lenAt hz (by omega)
    · intro c h1 h2
      rw [hu.cells c (by omega) h1 h2]
      exact hz c h1 h2
  | padLen q tail =>
    obtain ⟨hq, e, hold, hf, hpad, hpos, htyp, hlen, hz⟩ := h
    have hw := hok.wf e hold.mem
    have ha := hw.arith
    have hu := hkeep e hold.mem hold.owner hold.claimed (hold.cursor ▸ rfl)
    refine ⟨hq, e, { hold with mem := hu.mem }, hf, hpad, hu.behind hpos hlen, ?_, ?_, ?_⟩
    · rwa [typeAt_congr (fun k hk => hu.cells _ (by omega) (by omega) (by omega))]
    · rwa [lenAt_congr (fun k hk => hu.cells _ (by omega) (by omega) (by omega))]
    · intro c h1 h2
      rw [hu.cells c (by omega) (by omega) h2]
      exact hz c h1 h2
  | recType q c =>
    obtain ⟨hq, e, hold, hf, hz⟩ := h
    obtain ⟨ho, hcells, -⟩ := hopen hold rfl
    exact ⟨hq, e, ho, hf, fun x h1 h2 => (hcells x h1 h2).trans (hz x h1 h2)⟩
  | recLen q c =>
    obtain ⟨hq, e, hold, hf, htyp, hlen, hz⟩ := h
    obtain ⟨ho, hcells, ht, hl⟩ := hopen hold rfl
    exact ⟨hq, e, ho, hf, ht.trans htyp, hl.trans hlen, fun x h1 h2 =>
      (hcells x (by omega) h2).trans (hz x h1 h2)⟩
  | copy c off rest =>
    obtain ⟨e, hold, hwr, hlen⟩ := h
    obtain ⟨ho, hcells, -⟩ := hopen hold rfl
    exact ⟨e, ho, hwr.congr (hok.wf e hold.mem) hcells, hlen⟩
  | held c =>
    obtain ⟨e, hold, hwr⟩ := h
    obtain ⟨ho, hcells, -⟩ := hopen hold rfl
    exact ⟨e, ho, hwr.congr (hok.wf e hold.mem) hcells⟩
  | abortLen c =>
    obtain ⟨e, hold, htyp, hlen⟩ := h
    obtain ⟨ho, -, ht, hl⟩ := hopen hold rfl
    exact ⟨e, ho, ht.trans htyp, hl.trans hlen⟩

/-- Claims keep their range and never leave the history; a taken claim stays taken. -/
structure Grows (s s' : Shared) : Prop where
  tail : s.tail ≤ s'.tail
  cursors : ∀ e ∈ s.log, ∃ e' ∈ s'.log, e'.cursor = e.cursor
  next : s'.tail = s.tail ∨ ∃ e' ∈ s'.log, e'.cursor = s.tail
  taken : ∀ e ∈ s.log, e.Taken →
    ∃ e' ∈ s'.log, e'.cursor = e.cursor ∧ e'.owner = e.owner ∧ e'.Taken

theorem Grows.of_eq (hl : s'.log = s.log) (ht : s'.tail = s.tail) : Grows s s' where
  tail := le_of_eq ht.symm
  cursors e he := ⟨e, hl ▸ he, rfl⟩
  next := .inl ht
  taken e he h := ⟨e, hl ▸ he, rfl, rfl, h⟩

theorem Lost.stable {t : Nat} {p : Producer} (h : Lost s t p) (hg : Grows s s') :
    Lost s' t p := by
  obtain ⟨e, he, hc, ho, ht⟩ := h
  obtain ⟨e', he', hc', ho', ht'⟩ := hg.taken e he ht
  exact ⟨e', he', by rw [hc, hc'], ho'.trans ho, ht'⟩

/-- The reader's knowledge survives a step of somebody else that touches no cell below the
    reader and no header it may have read. -/
theorem Reader.Local.stable {rd : Reader} (h : rd.Local C s) (hg : Grows s s')
    (hhead : s'.head = s.head)
    (hlow : ∀ c, c < rd.pos s.head → s'.tape C c = s.tape C c)
    (hhdr : 0 < lenAt (s.tape C) (rd.pos s.head) →
      ∀ k, k < 8 → s'.tape C (rd.pos s.head + k) = s.tape C (rd.pos s.head + k)) :
    rd.Local C s' := by
  -- the window of the loop stays, and so do the bytes it has cleared
  have hloop : ∀ r : Loop, r.Ok C s → r.cursor ≤ rd.pos s.head → r.Ok C s' := by
    intro r hr hle
    refine ⟨by rw [hhead]; exact hr.head, ?_, ?_⟩
    · rcases hr.limit with hl | ⟨e, he, hl⟩
      · rcases hg.next with hn | ⟨e', he', hn⟩
        · exact .inl (by omega)
        · exact .inr ⟨e', he', by omega⟩
      · obtain ⟨e', he', hc⟩ := hg.cursors e he
        exact .inr ⟨e', he', by omega⟩
    · rw [hhead]
      intro c h1 h2
      rw [hlow c (by omega)]
      exact hr.cleared c h1 h2
  cases rd with
  | idle last => exact h
  | loadHead limit => trivial
  | loadTail limit head => exact h.trans hhead.symm
  | loadLen r => exact ⟨hloop r h.1 (le_refl _), h.2⟩
  | loadType r len =>
    obtain ⟨hr, hc, hlen, hl⟩ := h
    have hsame : ∀ k, k < 8 → s'.tape C (r.cursor + k) = s.tape C (r.cursor + k) :=
      hhdr (show 0 < lenAt (s.tape C) r.cursor by omega)
    refine ⟨hloop r hr (le_refl _), hc, hlen, ?_⟩
    rwa [lenAt_congr (fun k hk => hsame k (by omega))]
  | pass r len typ =>
    obtain ⟨hr, hc, hlen, hl, ht⟩ := h
    have hsame : ∀ k, k < 8 → s'.tape C (r.cursor + k) = s.tape C (r.cursor + k) :=
      hhdr (show 0 < lenAt (s.tape C) r.cursor by omega)
    refine ⟨hloop r hr (le_refl _), hc, hlen, ?_, ?_⟩
    · rwa [lenAt_congr (fun k hk => hsame k (by omega))]
    · rwa [typeAt_congr hsame]
  | clear r len => exact ⟨hloop r h.1 (Nat.le_add_right _ _), h.2⟩
  | storeLen r len =>
    obtain ⟨hr, h1, h2, h3, hz⟩ := h
    refine ⟨hloop r hr (Nat.le_add_right _ _), h1, h2, h3, ?_⟩
    intro c hc1 hc2
    rw [hlow c hc2]
    exact hz c hc1 hc2
  | storeHead r => exact ⟨hloop r h.1 (le_refl _), h.2⟩

end GoIpc.Ring
