import GoIpc.Lib.Census
import GoIpc.Lib.Machine

namespace GoIpc.Close

open GoIpc.Lib
open Function (update forall_update_iff)

/-!
# The gate before the unmap

Every operation on a `Queue` runs between `enter` and `leave`, and `Close` unmaps the segment
only after it has waited for the operations inside.  The Windows event guards its handles with
the same protocol, under a mutex where the queue has an atomic flag: a count (`active`,
`waiters`), a flag (`closing`, `closed`), and a channel with room for one token (`drained`).

`leave` lowers the count and only then looks at the flag.  Between the two an operation may come
in and `Close` may begin; the token then tells `Close` of a moment that has passed.
`close_waits` is what holds when no `leave` is overtaken like that, `overtaken` the run where one
is.
-/

/-! ### The protocol -/

/-- Where a goroutine stands. -/
inductive Visitor
  /-- not in an operation -/
  | out
  /-- in `enter`, with the count raised -/
  | added
  /-- `enter` returned true -/
  | inside
  /-- `enter` found the flag set and calls `leave` -/
  | refused
  /-- in `leave`, with the count lowered to zero -/
  | last
  /-- in `leave`, with the flag found set -/
  | posting
deriving DecidableEq

/-- Where the goroutine that closes stands. -/
inductive Closer
  | idle
  /-- the flag is set; what is parked is released -/
  | stopping
  /-- about to load the count -/
  | counting
  /-- in the receive from `drained` -/
  | waiting
  /-- about to free what the gate guards -/
  | freeing
  | done
  /-- the release failed and nothing is freed -/
  | failed
deriving DecidableEq

/-- The gate and everybody at it. -/
structure State where
  active : Int
  closing : Bool
  drained : Bool
  visitors : Nat → Visitor
  closer : Closer

inductive Act
  | enter (t : Nat)
  | leave (t : Nat)
  | step (t : Nat)
  | close
  | closeStep
  | closeFail
deriving DecidableEq

namespace State

def start : State := ⟨0, false, false, fun _ => .out, .idle⟩

def move (s : State) (t : Nat) (v : Visitor) : State :=
  { s with visitors := update s.visitors t v }

/-- The first access of `leave`. -/
def lower (s : State) (t : Nat) : State :=
  { s.move t (if s.active - 1 = 0 then .last else .out) with active := s.active - 1 }

/-- One atomic step.  `stopFails` is whether the release of what is parked can fail. -/
def step (stopFails : Bool) (s : State) : Act → Option State
  | .enter t => if s.visitors t = .out then
      some { s.move t .added with active := s.active + 1 } else none
  | .leave t => if s.visitors t = .inside then some (s.lower t) else none
  | .step t =>
      match s.visitors t with
      | .added => some (s.move t (if s.closing then .refused else .inside))
      | .refused => some (s.lower t)
      | .last => some (s.move t (if s.closing then .posting else .out))
      | .posting => some { s.move t .out with drained := true }
      | _ => none
  | .close =>
      -- a second `Close` returns `ErrClosed`
      if s.closing then some s else some { s with closing := true, closer := .stopping }
  | .closeStep =>
      match s.closer with
      | .stopping => some { s with closer := .counting }
      | .counting => some { s with closer := if s.active > 0 then .waiting else .freeing }
      | .waiting => if s.drained then some { s with drained := false, closer := .freeing } else none
      | .freeing => some { s with closer := .done }
      | _ => none
  | .closeFail =>
      if stopFails ∧ s.closer = .stopping then some { s with closer := .failed } else none

end State

/-- `Queue.enter`, `Queue.leave` and `Queue.Close`: an error from closing the events is kept for
    the return value and stops nothing. -/
def queueGate : Machine State Act := ⟨State.start, State.step false⟩

/-- `enter`, `leave` and `close` of the Windows event: `close` returns when `SetEvent` fails. -/
def eventGate : Machine State Act := ⟨State.start, State.step true⟩

/-! ### The invariant -/

/-- A goroutine the count includes. -/
def Visitor.registered : Visitor → Prop
  | .added | .inside | .refused => True
  | _ => False

/-- Nobody is inside and nobody will be. -/
structure State.Quiet (s : State) : Prop where
  closing : s.closing = true
  nobody : ∀ t, s.visitors t ≠ .inside

structure State.Inv (s : State) : Prop where
  count : Census (fun t => (s.visitors t).registered) s.active
  flag : s.closer ≠ .idle → s.closing = true
  token : s.drained = true → s.Quiet
  posting : ∀ t, s.visitors t = .posting → s.Quiet
  freeing : s.closer = .freeing ∨ s.closer = .done → s.Quiet

/-- A `leave` that finds the flag set was not overtaken: the count is still zero. -/
def notOvertaken (s : State) : Act → Bool
  | .step t => s.visitors t ≠ .last ∨ s.closing = false ∨ s.active = 0
  | _ => true

namespace State

variable {s s' : State} {t : Nat} {v : Visitor}

theorem Inv.start : Inv State.start where
  count := Census.empty (fun _ h => h)
  flag h := absurd rfl h
  token h := by cases h
  posting t h := by cases h
  freeing h := by rcases h with h | h <;> cases h

/-- Once quiet, a gate stays quiet when goroutine `t` moves anywhere but inside. -/
theorem Quiet.move (h : s.Quiet) (hv : v ≠ .inside) (hc : s'.closing = s.closing)
    (hs : s'.visitors = update s.visitors t v) : s'.Quiet := by
  refine ⟨hc.trans h.closing, ?_⟩
  rw [hs]
  exact (forall_update_iff s.visitors fun _ x => x ≠ Visitor.inside).mpr
    ⟨hv, fun u _ => h.nobody u⟩

/-- Goroutine `t` moves, and the count with it. -/
theorem Inv.visit (h : s.Inv) {n : Int}
    (hcount : Census (fun u => (update s.visitors t v u).registered) n)
    (hin : v = .inside → s.closing = false) (hpost : v = .posting → s.Quiet) :
    Inv { s.move t v with active := n } := by
  have quiet : s.Quiet → Quiet { s.move t v with active := n } := fun hq =>
    hq.move (fun hi => by have := hin hi; rw [hq.closing] at this; cases this) rfl rfl
  refine ⟨hcount, h.flag, fun hd => quiet (h.token hd), ?_, fun hf => quiet (h.freeing hf)⟩
  exact (forall_update_iff s.visitors fun _ x => x = Visitor.posting → _).mpr
    ⟨fun hv => quiet (hpost hv), fun u _ hu => quiet (h.posting u hu)⟩

/-- Moves of a goroutine that is not counted into or out of the gate. -/
theorem Inv.move (h : s.Inv) (hv : v.registered ↔ (s.visitors t).registered)
    (hin : v = .inside → s.closing = false) (hpost : v = .posting → s.Quiet) : (s.move t v).Inv :=
  h.visit (h.count.stay hv) hin hpost

/-- Lowering the count. -/
theorem Inv.lower (h : s.Inv) (ht : (s.visitors t).registered) : (s.lower t).Inv := by
  have hv : ∀ v : Visitor, v = (if s.active - 1 = 0 then .last else .out) →
      ¬ v.registered ∧ v ≠ .inside ∧ v ≠ .posting := by
    rintro v rfl
    split <;> exact ⟨id, by simp, by simp⟩
  obtain ⟨hreg, hin, hpost⟩ := hv _ rfl
  exact h.visit (h.count.exit ht hreg) (fun h => absurd h hin) (fun h => absurd h hpost)

/-- A step of `Close` after the flag is set. -/
theorem Inv.closerMove (h : s.Inv) {c : Closer} {d : Bool} (hc : s.closing = true)
    (hd : d = true → s.drained = true) (hf : c = .freeing ∨ c = .done → s.Quiet) :
    Inv { s with drained := d, closer := c } :=
  have same : s.Quiet → Quiet { s with drained := d, closer := c } :=
    fun hq => ⟨hq.closing, hq.nobody⟩
  ⟨h.count, fun _ => hc, fun hd' => same (h.token (hd hd')), fun u hu => same (h.posting u hu),
    fun hf' => same (hf hf')⟩

/-- **A step of a goroutine in `enter` or `leave`.** -/
theorem Inv.step_visitor {stopFails : Bool} (h : s.Inv) (hok : notOvertaken s (.step t) = true)
    (hs : s.step stopFails (.step t) = some s') : s'.Inv := by
  cases hpc : s.visitors t with
  | out | inside =>
    simp only [State.step, hpc] at hs
    cases hs
  | added =>
    simp only [State.step, hpc] at hs
    cases hs
    refine h.move ?_ ?_ ?_
    · rw [hpc]
      split <;> exact Iff.rfl
    · split <;> simp_all
    · split <;> simp
  | refused =>
    simp only [State.step, hpc] at hs
    cases hs
    exact h.lower (hpc ▸ trivial)
  | last =>
    simp only [State.step, hpc] at hs
    cases hs
    refine h.move ?_ ?_ ?_
    · rw [hpc]
      split <;> exact Iff.rfl
    · split <;> simp
    · -- the flag is set and the count is still zero
      split
      · next hc =>
        intro _
        have h0 : s.active = 0 := by simpa [notOvertaken, hpc, hc] using hok
        refine ⟨hc, fun u hu => h.count.none_of_le (le_of_eq h0) u ?_⟩
        rw [hu]
        trivial
      · simp
  | posting =>
    simp only [State.step, hpc] at hs
    cases hs
    have hm := h.move (t := t) (v := .out) (hpc ▸ Iff.rfl) (by simp) (by simp)
    have hq : (s.move t .out).Quiet := (h.posting t hpc).move (by simp) rfl rfl
    exact ⟨hm.count, hm.flag, fun _ => ⟨hq.closing, hq.nobody⟩,
      fun u hu => ⟨hq.closing, hq.nobody⟩, fun _ => ⟨hq.closing, hq.nobody⟩⟩

/-- **A step of `Close`**: it frees after it found the count at zero or received the token. -/
theorem Inv.step_closer {stopFails : Bool} (h : s.Inv)
    (hs : s.step stopFails .closeStep = some s') : s'.Inv := by
  cases hpc : s.closer with
  | idle | done | failed =>
    simp only [State.step, hpc] at hs
    cases hs
  | stopping =>
    simp only [State.step, hpc] at hs
    cases hs
    exact h.closerMove (h.flag (by rw [hpc]; simp)) id (by simp)
  | counting =>
    simp only [State.step, hpc] at hs
    cases hs
    have hc := h.flag (by rw [hpc]; simp)
    refine h.closerMove hc id (fun hf => ⟨hc, fun t ht => ?_⟩)
    split at hf
    · simp at hf
    · next hz =>
      refine h.count.none_of_le (not_lt.mp hz) t ?_
      rw [ht]
      trivial
  | waiting =>
    simp only [State.step, hpc] at hs
    split_ifs at hs with hd
    cases hs
    exact h.closerMove (h.token hd).closing (by simp) (fun _ => h.token hd)
  | freeing =>
    simp only [State.step, hpc] at hs
    cases hs
    have hq := h.freeing (.inl hpc)
    exact h.closerMove hq.closing id (fun _ => hq)

/-- **Every step that is not overtaken keeps the invariant.** -/
theorem Inv.step {stopFails : Bool} {a : Act} (h : s.Inv) (hok : notOvertaken s a = true)
    (hs : s.step stopFails a = some s') : s'.Inv := by
  cases a with
  | step t => exact h.step_visitor hok hs
  | closeStep => exact h.step_closer hs
  | enter t =>
    simp only [State.step] at hs
    split_ifs at hs with hout
    cases hs
    exact h.visit (h.count.enter (hout ▸ id) trivial) (by simp) (by simp)
  | leave t =>
    simp only [State.step] at hs
    split_ifs at hs with hin
    cases hs
    exact h.lower (hin ▸ trivial)
  | close =>
    simp only [State.step] at hs
    split at hs <;> cases hs
    · exact h
    · next hc =>
      have never : ¬ s.Quiet := fun hq => hc hq.closing
      exact ⟨h.count, fun _ => rfl, fun hd => absurd (h.token hd) never,
        fun u hu => absurd (h.posting u hu) never, fun hf => by rcases hf with hf | hf <;> cases hf⟩
  | closeFail =>
    simp only [State.step] at hs
    split_ifs at hs with hpc
    cases hs
    exact h.closerMove (h.flag (by rw [hpc.2]; simp)) id (by simp)

end State

/-! ### Closing -/

/-- **Close waits for the operations inside.**  In every run in which no `leave` is overtaken, of
    the queue's gate as of the event's, nobody is between an `enter` that returned true and its
    `leave` from the moment `Close` goes on to free what the gate guards. -/
theorem close_waits (s : State) :
    (queueGate.Reach (fun s a => notOvertaken s a = true) s →
      s.closer = .freeing ∨ s.closer = .done → ∀ t, s.visitors t ≠ .inside) ∧
    (eventGate.Reach (fun s a => notOvertaken s a = true) s →
      s.closer = .freeing ∨ s.closer = .done → ∀ t, s.visitors t ≠ .inside) := by
  constructor
  · intro hr hf
    have hinv : s.Inv := hr.invariant (m := queueGate) (I := State.Inv) State.Inv.start
      (fun _ _ _ h hok hs => h.step hok hs)
    exact (hinv.freeing hf).nobody
  · intro hr hf
    have hinv : s.Inv := hr.invariant (m := eventGate) (I := State.Inv) State.Inv.start
      (fun _ _ _ h hok hs => h.step hok hs)
    exact (hinv.freeing hf).nobody

/-- `Close` finds goroutine 0 inside and waits for the token of its `leave`. -/
def waited : List Act :=
  [.enter 0, .step 0, .close, .closeStep, .closeStep, .leave 0, .step 0, .step 0, .closeStep]

theorem waited_nobody_inside :
    (∃ s, queueGate.Reach (fun s a => notOvertaken s a = true) s ∧ s.closer = .freeing ∧
      ∀ t, s.visitors t ≠ .inside) ∧
    ∃ s, eventGate.Reach (fun s a => notOvertaken s a = true) s ∧ s.closer = .freeing ∧
      ∀ t, s.visitors t ≠ .inside := by
  constructor
  · have hrun : (queueGate.runOk notOvertaken State.start waited).map State.closer
        = some .freeing := by decide
    obtain ⟨s, hreach, hs⟩ := Machine.Reach.exists_of_runOk (fun _ _ h => h) hrun
    exact ⟨s, hreach, hs, (close_waits s).1 hreach (.inl hs)⟩
  · have hrun : (eventGate.runOk notOvertaken State.start waited).map State.closer
        = some .freeing := by decide
    obtain ⟨s, hreach, hs⟩ := Machine.Reach.exists_of_runOk (fun _ _ h => h) hrun
    exact ⟨s, hreach, hs, (close_waits s).2 hreach (.inl hs)⟩

/-- Goroutine 0 has lowered the count in `leave`; before it looks at the flag, goroutine 1 comes
    in and `Close` begins to wait. -/
def overtaken : List Act :=
  [.enter 0, .step 0, .leave 0, .enter 1, .step 1, .close, .closeStep, .closeStep, .step 0,
   .step 0, .closeStep]

/-- **An overtaken leave lets `Close` free under an operation.** -/
theorem overtaken_frees_under_operation :
    (∃ s, queueGate.Reach (fun _ _ => True) s ∧ s.closer = .freeing ∧ s.visitors 1 = .inside) ∧
    ∃ s, eventGate.Reach (fun _ _ => True) s ∧ s.closer = .freeing ∧ s.visitors 1 = .inside := by
  constructor
  · have hrun : (queueGate.run State.start overtaken).map (fun s => (s.closer, s.visitors 1))
        = some (.freeing, .inside) := by decide
    obtain ⟨s, hreach, hs⟩ := Machine.Reach.exists_of_run hrun
    exact ⟨s, hreach, congrArg Prod.fst hs, congrArg Prod.snd hs⟩
  · have hrun : (eventGate.run State.start overtaken).map (fun s => (s.closer, s.visitors 1))
        = some (.freeing, .inside) := by decide
    obtain ⟨s, hreach, hs⟩ := Machine.Reach.exists_of_run hrun
    exact ⟨s, hreach, congrArg Prod.fst hs, congrArg Prod.snd hs⟩

end GoIpc.Close
