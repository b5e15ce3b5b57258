import GoIpc.Ring.History
import GoIpc.Ring.ProducerSteps

namespace GoIpc.Ring

open GoIpc.Lib

/-!
# Recovery keeps the invariant

`reclaim` stores a length over the header that stops the reader and then the padding type.  The
two stores are right for exactly one kind of claim: the unfinished one that covers `head`, up to
the end of its lap segment.  `Inv.reclaim` and `Inv.padType` say that the ring invariant survives
them in that case; between the two, `mend` marks the header whose type is still missing.  The
producer of the claim is then `Lost`.
-/

variable {C : Capacity} {pos : Nat} {s : Shared}

/-! ### The claim that stops the reader -/

variable {e : Entry}

/-- A claim that covers the reader's position begins there, or its record does. -/
theorem Shared.Ok.at_segment {mend : Option Nat} (h : s.Ok C mend pos) (he : e ∈ s.log)
    (h1 : e.cursor ≤ pos) (h2 : pos < e.stop) : (pos = e.cursor ∧ e.pad ≠ 0) ∨ pos = e.record := by
  have hb := h.tiled.bounds he
  have ha := (h.wf e he).arith
  rcases h.bound with hp | ⟨x, hx, hp⟩
  · omega
  · have hxb := h.tiled.bounds hx
    have hxa := (h.wf x hx).arith
    have hxmin := (h.wf x hx).total_min
    obtain rfl := h.tiled.eq_of_overlap he hx (c := pos) h1 h2 (by omega) (by omega)
    omega

/-- A header that does not let the reader pass belongs to an unfinished claim. -/
theorem Shared.Ok.unfinished (h : s.Ok C none pos) (he : e ∈ s.log) (h1 : e.cursor ≤ pos)
    (h2 : pos < e.stop) (hlen : lenAt (s.tape C) pos ≤ 0) : e.Unfinished := by
  have hw := h.wf e he
  have hmin := hw.total_min
  have hal := le_align e.total
  by_contra hu
  rcases h.at_segment he h1 h2 with ⟨rfl, hpad⟩ | rfl
  · -- written padding is readable
    have hdone := (h.content e he).done hu hpad (le_refl _)
    rcases (h.content e he).pad hpad (le_refl _) with h0 | ⟨hl, -⟩
    · exact hdone h0
    · omega
  · have hrec := (h.content e he).record (le_refl _)
    unfold Entry.RecordOk at hrec
    split at hrec
    case h_1 hst => exact hu (.inl hst)
    case h_2 hst => exact hu (.inr hst)
    · omega
    · omega
    · omega

/-- The segment `reclaim` pads is the wrap padding or the whole record. -/
theorem lapSegment_eq (hw : e.Wf C) :
    (e.pad ≠ 0 → lapSegment C e.cursor e.stop = e.pad) ∧
      lapSegment C e.record e.stop = align e.total := by
  have ha := hw.arith
  have hfit := hw.record_fits
  have hpf := hw.pad_fits
  unfold lapSegment
  constructor
  · intro hpad
    have hend : e.pad = toEnd C e.cursor := by
      rw [hw.pad_eq] at hpad ⊢
      unfold padOf at hpad ⊢
      split at hpad
      · rw [if_pos ‹_›]
      · exact absurd rfl hpad
    unfold toEnd at hend
    dsimp only
    rw [← hend, if_pos (by omega)]
  · dsimp only
    rw [if_neg (by omega)]
    omega

/-- Reclaiming changes the history of one claim. -/
theorem log_reclaim {mend : Option Nat} (h : s.Ok C mend pos) (he : e ∈ s.log) (h1 : e.cursor ≤ pos)
    (h2 : pos < e.stop) (hu : e.Unfinished) (size : Nat) :
    s.log.map (Entry.reclaim pos size)
      = (s.mark e.cursor (.reclaimed (decide (e.stop ≤ pos + size)))).log := by
  apply List.map_congr_left
  intro x hx
  by_cases hc : x.cursor = e.cursor
  · obtain rfl := h.tiled.eq_of_lo_eq hx he hc
    rw [if_pos rfl]
    exact if_pos ⟨h1, h2, hu⟩
  · rw [if_neg hc]
    apply if_neg
    rintro ⟨h1', h2', -⟩
    have hb := h.tiled.bounds he
    have hxb := h.tiled.bounds hx
    exact hc (by rw [h.tiled.eq_of_overlap hx he (c := pos) h1' h2' h1 h2])

/-! ### The two stores -/

theorem Entry.same_reclaim (cursor size : Nat) (e : Entry) : e.Same (e.reclaim cursor size) := by
  unfold Entry.reclaim
  split
  · next h => exact ⟨rfl, rfl, rfl, rfl, rfl, fun _ => h.2.2, nofun⟩
  · exact .refl e

/-- **The length.** Over the unfinished claim that stops the reader, `reclaim` keeps the shared
    invariant, with the type still to come. -/
theorem Shared.Ok.reclaim (h : s.Ok C none pos) (he : e ∈ s.log) (h1 : e.cursor ≤ pos) (h2 : pos < e.stop)
    (hu : e.Unfinished) :
    (s.reclaim C pos (lapSegment C pos e.stop)).Ok C (some pos) pos ∧
      (s.reclaim C pos (lapSegment C pos e.stop)).tape C
        = patch (s.tape C) pos 4 (byteOf (BitVec.ofInt 32 (lapSegment C pos e.stop))) := by
  have hw := h.wf e he
  have ha := hw.arith
  have hlt := hw.total_lt
  have hfit := hw.record_fits
  have hpf := hw.pad_fits
  have hpm := h.pos_mod
  have hstop := h.stop_le he
  obtain ⟨hsegp, hsegr⟩ := lapSegment_eq hw
  have hfit4 : pos % C.size + 4 ≤ C.size := by
    have := mod_size_mod_eight C hpm
    have := C.mod_eight
    have := C.min
    have := Nat.mod_lt pos (show 0 < C.size by omega)
    omega
  have hroom : pos + 4 ≤ e.stop := by
    rcases h.at_segment he h1 h2 with ⟨rfl, _⟩ | rfl <;> omega
  generalize hg : byteOf (BitVec.ofInt 32 (lapSegment C pos e.stop)) = g
  have heq : s.reclaim C pos (lapSegment C pos e.stop)
      = Shared.mark { s with data := patch s.data (pos % C.size) 4 g } e.cursor
          (.reclaimed (decide (e.stop ≤ pos + lapSegment C pos e.stop))) := by
    subst hg
    show Shared.mk _ _ _ _ _ (s.log.map _) _ = Shared.mk _ _ _ _ _ _ _
    rw [log_reclaim h he h1 h2 hu]
    rfl
  rw [heq]
  refine ⟨?_, tape_patch (s := s) h.head_le (by omega) hfit4⟩
  refine h.write he (keeps_state _) h1 hroom (le_refl _) h2 hfit4 ⟨hw.1, hw.2, hw.3, hw.4, hw.5, hw.6⟩
    ?_ (fun x _ _ => ⟨fun hm => absurd hm (by simp), fun hm => absurd hm (by simp)⟩)
  subst hg
  rcases h.at_segment he h1 h2 with ⟨rfl, hpad⟩ | rfl
  · -- the wrap padding: the record part stays as it is
    rw [hsegp hpad, decide_eq_false (by omega)]
    refine ⟨fun _ _ => .inr ⟨lenAt_storeLength _ (by omega) (by omega), .inl rfl⟩, fun _ => ?_,
      fun hu => absurd (.inr rfl) hu⟩
    have hrec := (h.content e he).record (by omega)
    have hold : lenAt (s.tape C) e.record = 0 ∨ lenAt (s.tape C) e.record = -e.total := by
      unfold Entry.RecordOk at hrec
      rcases hu with hst | hst <;> rw [hst] at hrec <;> exact hrec
    show lenAt _ e.record = 0 ∨ lenAt _ e.record = -(e.total : Int)
    rwa [lenAt_congr (fun k hk => patch_of_not_mem _ _ (by omega))]
  · rw [hsegr, decide_eq_true (by omega)]
    have hnot : e.pad ≠ 0 → ¬ e.record ≤ e.cursor := by omega
    exact ⟨fun hpad hle => absurd hle (hnot hpad),
      fun _ => ⟨lenAt_storeLength _ (by omega) (by omega), .inl rfl⟩,
      fun _ hpad hle => absurd hle (hnot hpad)⟩

/-- **The type.** The padding type completes what `reclaim` began. -/
theorem Shared.Ok.padType (h : s.Ok C (some pos) pos) (he : e ∈ s.log) (h1 : e.cursor ≤ pos)
    (h2 : pos < e.stop) (ht : e.Taken) :
    (s.storeType (pos % C.size) typePadding).Ok C none pos ∧
      (s.storeType (pos % C.size) typePadding).tape C
        = patch (s.tape C) (pos + 4) 4 (byteOf typePadding) := by
  have hw := h.wf e he
  have ha := hw.arith
  have hpm := h.pos_mod
  have hstop := h.stop_le he
  have hhead := h.head_le
  have hfit8 : pos % C.size + 8 ≤ C.size := by
    have := mod_size_mod_eight C hpm
    have := C.mod_eight
    have := C.min
    have := Nat.mod_lt pos (show 0 < C.size by omega)
    omega
  have hroom : pos + 8 ≤ e.stop := by
    rcases h.at_segment he h1 h2 with ⟨rfl, _⟩ | rfl <;> omega
  have hidx : (pos + 4) % C.size = pos % C.size + 4 := add_mod_of_lt (by omega)
  rw [storeType_eq hfit8]
  refine ⟨?_, tape_patch (s := s) (by omega) (by omega) (by omega)⟩
  have hok : Shared.Ok C none pos (Shared.note
      { s with data := patch s.data ((pos + 4) % C.size) 4 (byteOf typePadding) } e.cursor id) :=
    h.write he keeps_id (by omega) (by omega) (by omega) h2 (by omega) hw ?_ ?_
  · rwa [note_id] at hok
  · -- the claim itself: its header is now complete padding
    show e.Content _ none pos
    have hcont := h.content e he
    rcases h.at_segment he h1 h2 with ⟨rfl, hpad⟩ | rfl
    · refine ⟨fun _ _ => ?_, fun hle => ?_, fun hu => ?_⟩
      · rcases hcont.pad hpad (le_refl _) with h0 | ⟨hl, -⟩
        · exact .inl (by rw [lenAt_storeType]; exact h0)
        · exact .inr ⟨by rw [lenAt_storeType]; exact hl, .inr (typeAt_storeType _ _)⟩
      · refine (hcont.record hle).congr hw (fun c _ _ => patch_of_not_mem _ _ (by omega)) ?_
        intro hm
        simp only [Option.some.injEq] at hm
        omega
      · refine (hcont.done hu).congr (le_refl _) ?_
        intro _ _ k hk
        exact patch_of_not_mem _ _ (by omega)
    · have hnot : e.pad ≠ 0 → ¬ e.record ≤ e.cursor := by omega
      refine ⟨fun hpad hle => absurd hle (hnot hpad), fun _ => ?_,
        fun _ hpad hle => absurd hle (hnot hpad)⟩
      have hrec := hcont.record (le_refl _)
      obtain ⟨full, hst⟩ := ht
      show e.RecordOk _ none
      unfold Entry.RecordOk at hrec ⊢
      rw [hst] at hrec ⊢
      cases full with
      | false =>
        show lenAt _ e.record = 0 ∨ lenAt _ e.record = -(e.total : Int)
        rwa [lenAt_storeType]
      | true =>
        show lenAt _ e.record = align e.total ∧ _
        rw [lenAt_storeType]
        exact ⟨hrec.1, .inr (typeAt_storeType _ _)⟩
  · -- no other claim was being mended
    intro x hx hxc
    have hxa := (h.wf x hx).arith
    have hxmin := (h.wf x hx).total_min
    have hxe : x ≠ e := fun heq => hxc (heq ▸ rfl)
    have hd := h.tiled.eq_or_disjoint hx he
    constructor <;>
    · intro hm
      simp only [Option.some.injEq] at hm
      rcases hd with heq | hd | hd
      · exact absurd heq hxe
      · omega
      · omega

/-! ### The whole ring -/

/-- The invariant does not look at the slots. -/
theorem Inv.slots {mend : Option Nat} {s : Sys} (h : Inv C mend s) (f : Nat → Slot) :
    Inv C mend { s with sh := { s.sh with slots := f } } where
  ok := h.ok.slots f
  prods t := (h.prods t).imp id
    (fun hl => hl.stable h.ok (le_refl _) (le_refl _)
      (fun _ he _ _ _ => ⟨he, fun _ _ _ _ => rfl, fun h _ => h⟩))
  reader := h.reader.stable (.of_eq rfl rfl) rfl (fun _ _ => rfl) (fun _ _ _ => rfl)
  mending := h.mending

/-- **Reclaiming the claim that stops the reader.** -/
theorem Inv.reclaim {s : Sys} (h : Inv C none s) (hidle : ∃ last, s.reader = .idle last) (he : e ∈ s.sh.log)
    (h1 : e.cursor ≤ s.sh.head) (h2 : s.sh.head < e.stop) (hu : e.Unfinished) :
    Inv C (some s.sh.head)
      { s with sh := s.sh.reclaim C s.sh.head (lapSegment C s.sh.head e.stop) } := by
  obtain ⟨last, hidle⟩ := hidle
  have hpos : s.pos = s.sh.head := by
    unfold Sys.pos
    rw [hidle]
    rfl
  have hok := h.ok
  rw [hpos] at hok
  obtain ⟨hok', htape⟩ := hok.reclaim he h1 h2 hu
  have hlog : (s.sh.reclaim C s.sh.head (lapSegment C s.sh.head e.stop)).log
      = (s.sh.mark e.cursor
          (.reclaimed (decide (e.stop ≤ s.sh.head + lapSegment C s.sh.head e.stop)))).log :=
    log_reclaim hok he h1 h2 hu _
  generalize decide (e.stop ≤ s.sh.head + lapSegment C s.sh.head e.stop) = full at hlog
  have hroom : s.sh.head + 4 ≤ e.stop := by
    have ha := (hok.wf e he).arith
    rcases hok.at_segment he h1 h2 with ⟨hp, _⟩ | hp <;> omega
  have hgrows : Grows s.sh (s.sh.reclaim C s.sh.head (lapSegment C s.sh.head e.stop)) := by
    refine ⟨le_refl _, ?_, .inl rfl, ?_⟩
    · intro x hx
      rw [hlog]
      exact ⟨_, mem_note.mpr ⟨x, hx, rfl⟩, ((keeps_state _).at_cursor e.cursor).cursor x⟩
    · intro x hx htk
      rw [hlog]
      refine ⟨_, mem_note.mpr ⟨x, hx, rfl⟩, ((keeps_state _).at_cursor e.cursor).cursor x,
        ((keeps_state _).at_cursor e.cursor).owner x, ?_⟩
      split
      · exact ⟨_, rfl⟩
      · exact htk
  have hpos' : Sys.pos { s with sh := s.sh.reclaim C s.sh.head (lapSegment C s.sh.head e.stop) }
      = s.sh.head := by
    unfold Sys.pos
    dsimp only
    rw [hidle]
    rfl
  refine ⟨?_, ?_, ?_, fun _ => ⟨last, hidle⟩⟩
  · rw [hpos']
    exact hok'
  · intro t
    rw [hpos']
    by_cases hmine : t = e.owner ∧ (s.prods t).cursor = some e.cursor
    · -- the producer of the reclaimed claim
      refine .inl ⟨{ e with state := .reclaimed full }, ?_, hmine.2, hmine.1.symm, full, rfl⟩
      show _ ∈ (s.sh.reclaim C s.sh.head (lapSegment C s.sh.head e.stop)).log
      rw [hlog]
      exact mem_note.mpr ⟨e, he, if_pos rfl⟩
    · have hp := h.prods t
      rw [hpos] at hp
      refine hp.imp (fun hx => hx.stable hgrows) (fun hx => ?_)
      refine hx.stable hok (le_refl _) (le_refl _) ?_
      intro x hx hxo hxst hxc
      have hne : x.cursor ≠ e.cursor := by
        intro hc
        obtain rfl := hok.tiled.eq_of_lo_eq hx he hc
        exact hmine ⟨hxo.symm, hxc⟩
      refine ⟨?_, ?_, fun hle _ => hle⟩
      · show x ∈ (s.sh.reclaim C s.sh.head (lapSegment C s.sh.head e.stop)).log
        rw [hlog]
        exact mem_note_other hx hne
      · intro c _ hc1 hc2
        have hd := hok.tiled.eq_or_disjoint hx he
        show (s.sh.reclaim C s.sh.head (lapSegment C s.sh.head e.stop)).tape C c = s.sh.tape C c
        rw [htape]
        apply patch_of_not_mem
        rcases hd with rfl | hd | hd
        · exact absurd rfl hne
        · omega
        · omega
  · have hr := h.reader
    dsimp only
    rw [hidle] at hr ⊢
    exact hr

/-- **Completing the padding.** -/
theorem Inv.padType {s : Sys} (h : Inv C (some s.sh.head) s) (he : e ∈ s.sh.log) (h1 : e.cursor ≤ s.sh.head)
    (h2 : s.sh.head < e.stop) (ht : e.Taken) :
    Inv C none { s with sh := s.sh.storeType (s.sh.head % C.size) typePadding } := by
  obtain ⟨last, hidle⟩ := h.mending (by simp)
  have hpos : s.pos = s.sh.head := by
    unfold Sys.pos
    rw [hidle]
    rfl
  have hok := h.ok
  rw [hpos] at hok
  obtain ⟨hok', htape⟩ := hok.padType he h1 h2 ht
  have hroom : s.sh.head + 8 ≤ e.stop := by
    have ha := (hok.wf e he).arith
    rcases hok.at_segment he h1 h2 with ⟨hp, _⟩ | hp <;> omega
  have hpos' : Sys.pos { s with sh := s.sh.storeType (s.sh.head % C.size) typePadding }
      = s.sh.head := by
    unfold Sys.pos
    dsimp only
    rw [hidle]
    rfl
  refine ⟨?_, ?_, ?_, fun hm => absurd rfl hm⟩
  · rw [hpos']
    exact hok'
  · intro t
    rw [hpos']
    have hp := h.prods t
    rw [hpos] at hp
    refine hp.imp (fun hx => hx.stable (.of_eq rfl rfl)) (fun hx => ?_)
    refine hx.stable hok (le_refl _) (le_refl _) ?_
    intro x hx _ hxst _
    -- a producer that still writes has another claim
    have hxe : x ≠ e := by
      rintro rfl
      obtain ⟨full, hst⟩ := ht
      rw [hxst] at hst
      cases hst
    refine ⟨hx, ?_, fun hle _ => hle⟩
    intro c _ hc1 hc2
    have hd := hok.tiled.eq_or_disjoint hx he
    rw [htape]
    apply patch_of_not_mem
    rcases hd with heq | hd | hd
    · exact absurd heq hxe
    · omega
    · omega
  · have hr := h.reader
    dsimp only
    rw [hidle] at hr ⊢
    exact hr

end GoIpc.Ring
