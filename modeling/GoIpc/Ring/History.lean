import GoIpc.Ring.Frames
import GoIpc.Ring.Rules

namespace GoIpc.Ring

open GoIpc.Lib
open Function (update update_self update_of_ne)

/-!
# What a producer's step does to the history and to the slots

Two inversions of `Producer.step`, used wherever a property talks about claims or slots and not
about cells: `LogStep` says how the history may change, `SlotStep` how the slots may.  From the
first follows `Held`: whoever made an unfinished claim is still working on it.
-/

variable {C : Capacity} {t : Nat} {s s' : Shared} {p p' : Producer} {a : ProdAct}

/-- The slot a producer's call is attributed to. -/
def Producer.slot : Producer → Option Nat
  | .idle _ => none
  | .loadTail q | .loadCache q _ | .loadHead q _ | .storeCache q _ _ | .storeSize q _
  | .storeAt q _ | .casTail q _ | .giveUp q | .padType q _ | .padLen q _ => q.slot
  | .recType _ c | .recLen _ c | .copy c _ _ | .held c | .abortLen c | .release c => c.slot

/-- The change of the history in one step of producer `t`. -/
inductive LogStep (C : Capacity) (t : Nat) (p p' : Producer) (s s' : Shared) : Prop
  /-- The step is none of the others. -/
  | same (log : s'.log = s.log) (tail : s'.tail = s.tail) (cursor : p'.cursor = p.cursor)
  /-- The compare-and-swap on `tail` succeeds. -/
  | claim (q : Req) (pc : p = .casTail q s.tail) (log : s'.log = s.log ++ [q.entry C s.tail t])
      (tail : s'.tail = s.tail + q.need C s.tail) (cursor : p'.cursor = some s.tail)
      (slot : p'.slot = q.slot)
  /-- A payload byte is written. -/
  | payload (c k : Nat) (b : UInt8) (pc : p.cursor = some c)
      (log : s'.log = (s.note c (fun e => { e with payload := e.payload.set k b })).log)
      (tail : s'.tail = s.tail) (cursor : p'.cursor = p.cursor)
  /-- The claim is committed or aborted. -/
  | finish (c : Claim) (st : ClaimState) (pc : p.cursor = some c.cursor)
      (log : s'.log = (s.mark c.cursor st).log) (tail : s'.tail = s.tail)
      (final : st = .committed ∨ st = .aborted) (pc' : p' = .release c)

theorem Producer.intent_cursor (q : Req) (tail : Nat) : (Producer.intent q tail).cursor = none := by
  unfold Producer.intent
  split <;> rfl

theorem Producer.intent_slot (q : Req) (tail : Nat) : (Producer.intent q tail).slot = q.slot := by
  unfold Producer.intent
  split <;> rfl

theorem Producer.start_cursor (slot : Option Nat) (typ : Word) (length : Int)
    (payload : Option (List UInt8)) : (Producer.start C slot typ length payload).cursor = none := by
  unfold Producer.start
  split
  · rfl
  · split <;> rfl

theorem Producer.step_log (h : p.step C t s a = some (s', p')) : LogStep C t p p' s s' := by
  cases Producer.step_rule h with
  | tryClaim | tryWrite => exact .same rfl rfl (start_cursor ..)
  | cached | storeCache => exact .same rfl rfl (intent_cursor ..)
  | giveUp | release =>
    obtain ⟨f, hf⟩ := release_eq s _
    rw [hf]
    exact .same rfl rfl rfl
  | claimPad | claim => exact .claim _ rfl rfl rfl rfl rfl
  | copy | put => exact .payload _ _ _ rfl rfl rfl rfl
  | written | commit => exact .finish _ .committed rfl rfl rfl (.inl rfl) rfl
  | abortLen => exact .finish _ .aborted rfl rfl rfl (.inr rfl) rfl
  | _ => exact .same rfl rfl rfl

/-- A call keeps its slot until it ends. -/
theorem Producer.step_slot (h : p.step C t s a = some (s', p')) :
    (∃ last, p = .idle last) ∨ (∃ last, p' = .idle last) ∨ p'.slot = p.slot := by
  cases Producer.step_rule h with
  | tryClaim | tryWrite => exact .inl ⟨_, rfl⟩
  | giveUp | release => exact .inr (.inl ⟨_, rfl⟩)
  | cached | storeCache => exact .inr (.inr (intent_slot ..))
  | _ => exact .inr (.inr rfl)

/-- The change of the slots in one step of a producer. -/
inductive SlotStep (C : Capacity) (p p' : Producer) (s s' : Shared) : Prop
  | same (slots : s'.slots = s.slots)
  /-- `intent.size.Store(need)` -/
  | size (q : Req) (tail i : Nat) (pc : p = .storeSize q tail) (slot : q.slot = some i)
      (slots : s'.slots = (s.storeSize i (q.need C tail)).slots) (pc' : p' = .storeAt q tail)
  /-- `intent.at.Store(tail)` -/
  | intent (q : Req) (tail i : Nat) (pc : p = .storeAt q tail) (slot : q.slot = some i)
      (slots : s'.slots = (s.storeAt i tail).slots) (pc' : p' = .casTail q tail)
  /-- `release`, at the end of a call -/
  | release (i : Nat) (pc : (∃ q, p = .giveUp q) ∨ ∃ c, p = .release c) (slot : p.slot = some i)
      (slots : s'.slots = (s.storeAt i noIntent).slots) (pc' : ∃ last, p' = .idle last)

theorem Producer.step_slots (h : p.step C t s a = some (s', p')) : SlotStep C p p' s s' := by
  cases Producer.step_rule h with
  | storeSize slot => exact .size _ _ _ rfl slot rfl rfl
  | storeAt slot => exact .intent _ _ _ rfl slot rfl rfl
  | @giveUp q =>
    cases hs : q.slot with
    | none => exact .same rfl
    | some i => exact .release i (.inl ⟨q, rfl⟩) hs rfl ⟨_, rfl⟩
  | @release c =>
    cases hs : c.slot with
    | none => exact .same rfl
    | some i => exact .release i (.inr ⟨c, rfl⟩) hs rfl ⟨_, rfl⟩
  | _ => exact .same rfl

/-- A producer touches no slot but its own, and that only while it holds no claim. -/
theorem SlotStep.elsewhere (h : SlotStep C p p' s s') {j : Nat}
    (hj : p.slot = some j → p.cursor ≠ none) : s'.slots j = s.slots j := by
  cases h with
  | same slots => rw [slots]
  | size q tail i pc slot slots _ =>
    subst pc
    rw [slots]
    exact update_of_ne (by rintro rfl; exact hj slot rfl) _ _
  | intent q tail i pc slot slots _ =>
    subst pc
    rw [slots]
    exact update_of_ne (by rintro rfl; exact hj slot rfl) _ _
  | release i pc slot slots _ =>
    rw [slots]
    have hnone : p.cursor = none := by rcases pc with ⟨q, rfl⟩ | ⟨c, rfl⟩ <;> rfl
    exact update_of_ne (by rintro rfl; exact hj slot hnone) _ _

/-! ### Following a claim back -/

/-- Claim `e` before is claim `e'` after: the same cells of the same call, perhaps further on. -/
structure Entry.Same (e e' : Entry) : Prop where
  cursor : e.cursor = e'.cursor
  pad : e.pad = e'.pad
  total : e.total = e'.total
  owner : e.owner = e'.owner
  slot : e.slot = e'.slot
  unfinished : e'.Unfinished → e.Unfinished
  claimed : e'.state = .claimed → e.state = .claimed

theorem Entry.Same.refl (e : Entry) : e.Same e := ⟨rfl, rfl, rfl, rfl, rfl, id, id⟩

theorem Entry.Same.stop {e e' : Entry} (h : e.Same e') : e.stop = e'.stop := by
  unfold Entry.stop Entry.size
  rw [h.cursor, h.pad, h.total]

theorem Entry.Same.size {e e' : Entry} (h : e.Same e') : e.size = e'.size := by
  unfold Entry.size
  rw [h.pad, h.total]

/-- In a step that is not the receiver's, no claim is taken over. -/
structure Entry.Was (e e' : Entry) : Prop extends Entry.Same e e' where
  taken : e'.Taken → e.Taken

theorem Entry.Was.refl (e : Entry) : e.Was e := ⟨.refl e, id⟩

/-- Every claim after a producer's step is the new one or was there before. -/
theorem LogStep.was (h : LogStep C t p p' s s') {e' : Entry} (he : e' ∈ s'.log) :
    (∃ e ∈ s.log, e.Was e') ∨
      ∃ q, p = .casTail q s.tail ∧ e' = q.entry C s.tail t ∧ p'.cursor = some s.tail ∧
        p'.slot = q.slot := by
  cases h with
  | same log _ _ => exact .inl ⟨e', log ▸ he, .refl e'⟩
  | claim q pc log _ hc hs =>
    rw [log] at he
    rcases List.mem_append.mp he with he | he
    · exact .inl ⟨e', he, .refl e'⟩
    · exact .inr ⟨q, pc, List.mem_singleton.mp he, hc, hs⟩
  | payload c k b _ log _ _ =>
    rw [log] at he
    obtain ⟨x, hx, rfl⟩ := mem_note.mp he
    refine .inl ⟨x, hx, ?_⟩
    split
    · exact ⟨⟨rfl, rfl, rfl, rfl, rfl, id, id⟩, id⟩
    · exact .refl x
  | finish c st _ log _ final _ =>
    rw [log] at he
    obtain ⟨x, hx, rfl⟩ := mem_note.mp he
    refine .inl ⟨x, hx, ?_⟩
    split
    · refine ⟨⟨rfl, rfl, rfl, rfl, rfl, ?_, ?_⟩, ?_⟩
      · intro hu
        rcases hu with hu | hu <;> rcases final with rfl | rfl <;> cases hu
      · intro hu
        rcases final with rfl | rfl <;> cases hu
      · rintro ⟨full, hu⟩
        rcases final with rfl | rfl <;> cases hu
    · exact .refl x

/-- A claim that is finished was finished before the step, or is finished by it. -/
theorem LogStep.finished (h : LogStep C t p p' s s') {e' : Entry} (he : e' ∈ s'.log)
    (hfin : ¬ e'.Unfinished) : ∃ e ∈ s.log, e.Same e' ∧
      (¬ e.Unfinished ∨ p.cursor = some e.cursor ∧ ∃ c, p' = .release c) := by
  cases h with
  | same log _ _ => exact ⟨e', log ▸ he, .refl e', .inl hfin⟩
  | claim q pc log _ _ _ =>
    rw [log] at he
    rcases List.mem_append.mp he with he | he
    · exact ⟨e', he, .refl e', .inl hfin⟩
    · cases List.mem_singleton.mp he
      exact absurd (.inl rfl) hfin
  | payload c k b _ log _ _ =>
    rw [log] at he
    obtain ⟨x, hx, rfl⟩ := mem_note.mp he
    refine ⟨x, hx, ?_, .inl fun hu => hfin ?_⟩
    · split
      · exact ⟨rfl, rfl, rfl, rfl, rfl, id, id⟩
      · exact .refl x
    · split <;> exact hu
  | finish c st pc log _ _ pc' =>
    rw [log] at he
    obtain ⟨x, hx, rfl⟩ := mem_note.mp he
    refine ⟨x, hx, ?_⟩
    split at hfin
    · next hc =>
      rw [if_pos hc]
      exact ⟨⟨rfl, rfl, rfl, rfl, rfl, fun h => absurd h hfin, fun h => absurd (.inl h) hfin⟩,
        .inr ⟨hc ▸ pc, c, pc'⟩⟩
    · next hc =>
      rw [if_neg hc]
      exact ⟨.refl x, .inl hfin⟩

/-- Producers never take a claim over. -/
theorem LogStep.taken (h : LogStep C t p p' s s') {e : Entry} (he : e ∈ s'.log) (ht : e.Taken) :
    ∃ x ∈ s.log, x.Taken := by
  rcases h.was he with ⟨x, hx, hw⟩ | ⟨q, _, rfl, _⟩
  · exact ⟨x, hx, hw.taken ht⟩
  · obtain ⟨full, hst⟩ := ht
    cases hst

/-! ### Who works on a claim -/

/-- Whoever made a claim that is neither finished nor taken over is still working on it, in the
    call whose slot the claim is attributed to. -/
def Held (s : Sys) : Prop :=
  ∀ e ∈ s.sh.log, e.state = .claimed →
    (s.prods e.owner).cursor = some e.cursor ∧ (s.prods e.owner).slot = e.slot

theorem Held.start : Held Sys.start := by
  nofun

theorem Held.step {s : Sys} {s' : Shared} (h : Held s) (hp : (s.prods t).step C t s.sh a = some (s', p')) :
    Held { s with sh := s', prods := update s.prods t p' } := by
  have hlog := Producer.step_log hp
  intro e' he' hst
  show (update s.prods t p' e'.owner).cursor = some e'.cursor ∧
    (update s.prods t p' e'.owner).slot = e'.slot
  rcases hlog.was he' with ⟨e, he, hw⟩ | ⟨q, hpc, rfl, hcur, hslot⟩
  · obtain ⟨hc, hs⟩ := h e he (hw.claimed hst)
    rw [← hw.owner, ← hw.cursor, ← hw.slot]
    by_cases ho : e.owner = t
    · subst ho
      rw [update_self]
      have hcur : p'.cursor = some e.cursor := by
        cases hlog with
        | same _ _ hcur => exact hcur.trans hc
        | claim q hpc _ _ _ _ =>
          rw [hpc] at hc
          cases hc
        | payload _ _ _ _ _ _ hcur => exact hcur.trans hc
        | finish c st hpc log _ final _ =>
          -- the claim the producer finishes is the one it works on, and it is not this one
          rw [hc] at hpc
          rw [log] at he'
          obtain ⟨x, hx, rfl⟩ := mem_note.mp he'
          have hxc : x.cursor = c.cursor := by
            have hwc := hw.cursor
            simp only [Option.some.injEq] at hpc
            split at hwc
            · assumption
            · omega
          rw [if_pos hxc] at hst
          rcases final with rfl | rfl <;> cases hst
      refine ⟨hcur, ?_⟩
      rcases Producer.step_slot hp with ⟨last, hi⟩ | ⟨last, hi⟩ | hsl
      · rw [hi] at hc
        cases hc
      · rw [hi] at hcur
        cases hcur
      · exact hsl.trans hs
    · rw [update_of_ne ho]
      exact ⟨hc, hs⟩
  · show (update s.prods t p' t).cursor = some s.sh.tail ∧
      (update s.prods t p' t).slot = q.slot
    rw [update_self]
    exact ⟨hcur, hslot⟩

end GoIpc.Ring
