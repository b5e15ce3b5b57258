import GoIpc.Name.Lock

namespace GoIpc.Name

open GoIpc.Lib
open Function (update update_self update_of_ne)

/-!
# Opening a channel by its two names

A channel is two queues under two names.  `CreateChannel` creates the direction to the opener and then
the direction back; `OpenChannel` resolves the direction back, attaches to it, resolves the other one,
attaches to it and swaps itself in as its reader.  Nothing ties the two lookups together.

* `Pair.State`, `Pair.State.step` — both names with every process at work on them, and the openers;
* `Known` — an incarnation belongs to the `createQueue` that chose it;
* `opened_same_channel` — both directions come from one `CreateChannel` when its creator still holds
  the second name at the second lookup;
* `opened_two_channels` — the run in which the creator is replaced between the lookups.

Agent `a` of both names is the same call of `CreateChannel`, when it is one.
-/

/-! ### Who made an incarnation -/

/-- The incarnation of an agent. -/
def Agent.incarnation : Agent → Option Nat
  | .building _ k | .built _ k | .incOpened _ k _ | .written _ k _ | .published _ k _ => some k
  | _ => none

structure Known (s : State) : Prop where
  old : ∀ k a, s.maker k = some a → k < s.incarnations
  mine : ∀ a k, (s.agents a).incarnation = some k → s.maker k = some a

variable {s s' : State} {a b k : Nat}

theorem Known.start : Known State.start where
  old k a h := by cases h
  mine a k h := by cases h

/-- Agent `a` moves, without a new incarnation. -/
theorem Known.move {p : Agent} (h : Known s) (hagents : s'.agents = update s.agents a p)
    (hmaker : s'.maker = s.maker) (hinc : s'.incarnations = s.incarnations)
    (hp : ∀ k, p.incarnation = some k → (s.agents a).incarnation = some k) : Known s' := by
  refine ⟨fun k b hk => ?_, fun b k hk => ?_⟩
  · rw [hinc]
    rw [hmaker] at hk
    exact h.old k b hk
  · rw [hmaker]
    rw [hagents] at hk
    by_cases hb : b = a
    · subst hb
      rw [update_self] at hk
      exact h.mine b k (hp k hk)
    · rw [update_of_ne hb] at hk
      exact h.mine b k hk

theorem Known.same (h : Known s) (hagents : s'.agents = s.agents) (hmaker : s'.maker = s.maker)
    (hinc : s'.incarnations = s.incarnations) : Known s' := by
  refine ⟨fun k b hk => ?_, fun b k hk => ?_⟩
  · rw [hinc]
    rw [hmaker] at hk
    exact h.old k b hk
  · rw [hmaker]
    rw [hagents] at hk
    exact h.mine b k hk

/-- A step that moves agent `a` without a new incarnation. -/
theorem Known.kept {p : Agent} (h : Known s) (hagents : s'.agents = update s.agents a p)
    (hmaker : s'.maker = s.maker) (hinc : s'.incarnations = s.incarnations)
    (hp : ∀ k, p.incarnation = some k → (s.agents a).incarnation = some k) :
    Known s' ∧ ∀ k b, s.maker k = some b → s'.maker k = some b :=
  ⟨h.move hagents hmaker hinc hp, fun k b hk => by rw [hmaker]; exact hk⟩

theorem Known.agentStep (h : Known s) (hs : s.agentStep a = some s') :
    Known s' ∧ ∀ k b, s.maker k = some b → s'.maker k = some b := by
  simp only [State.agentStep] at hs
  split at hs
  case h_6 j i old hp =>
    cases j with
    | sweep =>
      cases old <;> cases hs <;> exact h.kept rfl rfl rfl (by simp [Agent.incarnation])
    | create =>
      -- the new incarnation has no maker yet
      have hnew : ∀ k b, s.maker k = some b → k ≠ s.incarnations := fun k b hk heq => by
        have := h.old k b hk
        omega
      have hkeep : ∀ k b, s.maker k = some b →
          update s.maker s.incarnations (some a) k = some b := fun k b hk => by
        rwa [update_of_ne (hnew k b hk)]
      have hknown : ∀ s' : State, s'.agents = update s.agents a (.building i s.incarnations) →
          s'.maker = update s.maker s.incarnations (some a) →
          s'.incarnations = s.incarnations + 1 → Known s' := by
        intro s' hagents hmaker hinc
        refine ⟨fun k b hk => ?_, fun b k hk => ?_⟩
        · rw [hinc]
          rw [hmaker] at hk
          by_cases hki : k = s.incarnations
          · omega
          · rw [update_of_ne hki] at hk
            have := h.old k b hk
            omega
        · rw [hmaker]
          rw [hagents] at hk
          by_cases hb : b = a
          · subst hb
            rw [update_self] at hk
            cases hk
            exact update_self ..
          · rw [update_of_ne hb] at hk
            exact hkeep k b (h.mine b k hk)
      cases old <;> cases hs <;> exact ⟨hknown _ rfl rfl rfl, hkeep⟩
  case h_1 j hp =>
    split at hs <;> cases hs <;> exact h.kept rfl rfl rfl (by simp [Agent.incarnation])
  case h_2 j i hp =>
    split at hs <;> cases hs <;> exact h.kept rfl rfl rfl (by simp [Agent.incarnation])
  case h_3 j i hp =>
    cases hs
    exact h.kept rfl rfl rfl (by split <;> simp [Agent.incarnation])
  case h_8 i k hp =>
    split at hs <;> cases hs <;> exact h.kept rfl rfl rfl (by simp [hp, Agent.incarnation])
  all_goals try cases hs
  all_goals next hp => exact h.kept rfl rfl rfl (by simp [hp, Agent.incarnation])

/-- **Every step keeps the makers.**  One that chooses an incarnation chooses a new one. -/
theorem Known.step {x : Act} (h : Known s) (hs : s.step x = some s') :
    Known s' ∧ ∀ k b, s.maker k = some b → s'.maker k = some b := by
  cases x with
  | create a | sweep a =>
    simp only [State.step] at hs
    split at hs <;> cases hs
    exact h.kept rfl rfl rfl (by simp [Agent.incarnation])
  | step a => exact h.agentStep hs
  | fail a =>
    simp only [State.step, State.agentFail] at hs
    split at hs
    all_goals try cases hs
    all_goals exact h.kept rfl rfl rfl (by simp [Agent.incarnation])
  | close a =>
    simp only [State.step] at hs
    split at hs <;> cases hs
    exact h.kept rfl rfl rfl (by simp [Agent.incarnation])
  | exit a =>
    simp only [State.step] at hs
    split at hs <;> cases hs <;> exact h.kept rfl rfl rfl (by simp [Agent.incarnation])
  | unlink u a =>
    simp only [State.step] at hs
    split_ifs at hs
    split at hs <;> cases hs
    · next hp =>
      exact h.kept rfl rfl rfl (by simp [hp, Agent.incarnation])
    · exact ⟨h.same rfl rfl rfl, fun _ _ hk => hk⟩
    · exact ⟨h.same rfl rfl rfl, fun _ _ hk => hk⟩
  | unlinkStep u =>
    simp only [State.step, State.unlinkStep] at hs
    split at hs <;> cases hs <;> exact ⟨h.same rfl rfl rfl, fun _ _ hk => hk⟩

/-! ### The two names of a channel -/

namespace Pair

/-- Where an `OpenChannel` stands; `k` and `l` are the incarnations it has found. -/
inductive Opener
  | idle
  /-- about to stat the `.name` path of the direction back -/
  | statBack
  | readBack
  | attachBack (k : Nat)
  | checkPeer (k : Nat)
  /-- about to stat the `.name` path of the other direction -/
  | statOut (k : Nat)
  | readOut (k : Nat)
  | attachOut (k l : Nat)
  /-- about to swap itself in as the reader -/
  | swapping (k l : Nat)
  /-- `OpenChannel` returned the channel -/
  | opened (k l : Nat)
  | failed
deriving DecidableEq

/-- `out` is the name of the direction from the creator (`.c2o`), `back` of the one to it (`.o2c`).
    `reader` holds the opener that reads an instance of `out`; none while it is pending. -/
structure State where
  out : Name.State
  back : Name.State
  reader : Nat → Option Nat
  openers : Nat → Opener

inductive Act
  | out (x : Name.Act)
  | back (x : Name.Act)
  | open (o : Nat)
  /-- the next step of an opener; `gone` is the answer of the peer check, when that is due -/
  | openStep (o : Nat) (gone : Bool)
deriving DecidableEq

namespace State

def start : State := ⟨.start, .start, fun _ => none, fun _ => .idle⟩

def goto (s : State) (o : Nat) (p : Opener) : State :=
  { s with openers := update s.openers o p }

/-- `CreateChannel` creates the direction back after the other one. -/
def inOrder (s : State) : Name.Act → Bool
  | .create a =>
      match s.out.agents a with
      | .published .. => true
      | _ => false
  | _ => true

/-- One step of `OpenChannel`. -/
def openStep (s : State) (o : Nat) (gone : Bool) : Option State :=
  match s.openers o with
  | .statBack => some (s.goto o (if s.back.name.isSome then .readBack else .failed))
  | .readBack =>
      match s.back.current with
      | some k => some (s.goto o (.attachBack k))
      | none => some (s.goto o .failed)
  | .attachBack k => some (s.goto o (if s.back.instances k then .checkPeer k else .failed))
  | .checkPeer k => some (s.goto o (if gone then .failed else .statOut k))
  | .statOut k => some (s.goto o (if s.out.name.isSome then .readOut k else .failed))
  | .readOut k =>
      match s.out.current with
      | some l => some (s.goto o (.attachOut k l))
      | none => some (s.goto o .failed)
  | .attachOut k l => some (s.goto o (if s.out.instances l then .swapping k l else .failed))
  | .swapping k l =>
      if s.reader l = none then
        some { s.goto o (.opened k l) with reader := update s.reader l (some o) }
      else some (s.goto o .failed)
  | .idle | .opened .. | .failed => none

def step (s : State) : Act → Option State
  | .out x => (s.out.step x).map (fun t => { s with out := t })
  | .back x => if s.inOrder x then (s.back.step x).map (fun t => { s with back := t }) else none
  | .open o => if s.openers o = .idle then some (s.goto o .statBack) else none
  | .openStep o gone => s.openStep o gone

end State

def machine : Machine State Act := ⟨State.start, State.step⟩

/-- The second name is undisturbed, and at its lookup the creator of the attached direction still
    holds the other name: it has not begun to close or unlink that direction and has not exited. -/
def held (s : State) : Act → Bool
  | .out x => undisturbed s.out x
  | .back _ | .open _ => true
  | .openStep o _ =>
      match s.openers o with
      | .readOut k =>
          match s.back.maker k with
          | some a =>
              match s.out.agents a with
              | .published _ _ false => true
              | _ => false
          | none => false
      | _ => true

/-- The incarnations an opener goes on with come from one `CreateChannel`. -/
def State.Twins (s : State) (k l : Nat) : Prop := ∃ a, s.back.maker k = some a ∧ s.out.maker l = some a

structure Inv (s : State) : Prop where
  out : Name.Inv s.out
  known : Known s.out
  knownBack : Known s.back
  twins : ∀ o k l, s.openers o = .attachOut k l ∨ s.openers o = .swapping k l ∨
    s.openers o = .opened k l → s.Twins k l

variable {s s' : State} {o : Nat} {p : Opener}

theorem Inv.goto (h : Inv s) (houts : s'.out = s.out) (hback : s'.back = s.back)
    (hopeners : s'.openers = update s.openers o p)
    (hp : ∀ k l, p = .attachOut k l ∨ p = .swapping k l ∨ p = .opened k l → s.Twins k l) : Inv s' := by
  refine ⟨houts ▸ h.out, houts ▸ h.known, hback ▸ h.knownBack, fun o' k l ho => ?_⟩
  rw [State.Twins, houts, hback]
  rw [hopeners] at ho
  by_cases hoo : o' = o
  · subst hoo
    rw [update_self] at ho
    exact hp k l ho
  · rw [update_of_ne hoo] at ho
    exact h.twins o' k l ho

theorem Inv.openStep {gone : Bool} (h : Inv s) (hok : held s (.openStep o gone) = true)
    (hs : s.openStep o gone = some s') : Inv s' := by
  have htwins := h.twins o
  simp only [State.openStep] at hs
  split at hs
  case h_6 k hp =>
    split at hs <;> cases hs
    · next l hcurrent =>
      refine h.goto rfl rfl rfl (fun k' l' hp' => ?_)
      simp only [Opener.attachOut.injEq, reduceCtorEq, or_false] at hp'
      obtain ⟨rfl, rfl⟩ := hp'
      -- the creator holds the other name, so the lookup finds its own incarnation
      simp only [held, hp] at hok
      split at hok
      · next a hmaker =>
        split at hok
        · next i l' hlive =>
          refine ⟨a, hmaker, ?_⟩
          have hright := h.out.right a
          rw [hlive] at hright
          obtain ⟨f, hinc, hcontent⟩ := hright.written
          have hl : l = l' := by
            have : s.out.current = some l' := by simp [Name.State.current, hinc, hcontent]
            exact Option.some.inj (hcurrent.symm.trans this)
          rw [hl]
          exact h.known.mine a l' (hlive ▸ rfl)
        · cases hok
      · cases hok
    · exact h.goto rfl rfl rfl (by simp)
  case h_7 k l hp =>
    cases hs
    refine h.goto rfl rfl rfl (fun k' l' hp' => htwins k' l' ?_)
    rw [hp]
    split at hp' <;> simp_all
  case h_8 k l hp =>
    split at hs <;> cases hs
    · refine h.goto rfl rfl rfl (fun k' l' hp' => htwins k' l' ?_)
      rw [hp]
      simp_all
    · exact h.goto rfl rfl rfl (by simp)
  case h_2 hp =>
    split at hs <;> cases hs <;> exact h.goto rfl rfl rfl (by simp)
  all_goals try cases hs
  all_goals exact h.goto rfl rfl rfl (by split <;> simp)

/-- **Every step under the condition keeps the invariant.** -/
theorem Inv.step {x : Act} (h : Inv s) (hok : held s x = true) (hs : s.step x = some s') : Inv s' := by
  cases x with
  | out x =>
    obtain ⟨t, ht, rfl⟩ := Option.map_eq_some_iff.mp hs
    obtain ⟨hknown, hmaker⟩ := h.known.step ht
    refine ⟨h.out.step hok ht, hknown, h.knownBack, fun o k l ho => ?_⟩
    obtain ⟨a, hk, hl⟩ := h.twins o k l ho
    exact ⟨a, hk, hmaker l a hl⟩
  | back x =>
    simp only [State.step] at hs
    split_ifs at hs
    obtain ⟨t, ht, rfl⟩ := Option.map_eq_some_iff.mp hs
    obtain ⟨hknown, hmaker⟩ := h.knownBack.step ht
    refine ⟨h.out, h.known, hknown, fun o k l ho => ?_⟩
    obtain ⟨a, hk, hl⟩ := h.twins o k l ho
    exact ⟨a, hmaker k a hk, hl⟩
  | «open» o =>
    simp only [State.step] at hs
    split at hs <;> cases hs
    exact h.goto rfl rfl rfl (by simp)
  | openStep o gone => exact h.openStep hok hs

theorem Inv.start : Inv State.start where
  out := Name.Inv.start
  known := Known.start
  knownBack := Known.start
  twins o k l ho := by rcases ho with ho | ho | ho <;> cases ho

/-- **Both directions of an opened channel are one channel**, in every run in which no `Unlink` removes
    a file of a name that somebody else has locked and, at the second lookup of every opener, the
    creator of the direction it has attached still holds the name of the other direction. -/
theorem opened_same_channel (s : State) (hr : machine.Reach (fun s x => held s x = true) s)
    (o k l : Nat) (ho : s.openers o = .opened k l) :
    ∃ a, s.back.maker k = some a ∧ s.out.maker l = some a := by
  have h : Inv s := hr.invariant (I := Inv) Inv.start (fun _ _ _ h hok hs => h.step hok hs)
  exact h.twins o k l (.inr (.inr ho))

/-- `CreateChannel` as agent `a`. -/
def createsBoth (a : Nat) : List Act := (creates a).map .out ++ (creates a).map .back

/-- `OpenChannel` up to its peer check, and the rest of it. -/
def opensBack (o : Nat) : List Act := .open o :: List.replicate 4 (.openStep o false)

def opensOut (o : Nat) : List Act := List.replicate 4 (.openStep o false)

theorem opened_same_channel_alone :
    ∃ s, machine.Reach (fun s x => held s x = true) s ∧ s.openers 0 = .opened 0 0 ∧
      ∃ a, s.back.maker 0 = some a ∧ s.out.maker 0 = some a := by
  have hrun : (machine.runOk held State.start (createsBoth 0 ++ opensBack 0 ++ opensOut 0)).map
      (fun s => s.openers 0) = some (.opened 0 0) := by decide
  obtain ⟨s, hreach, hs⟩ := Machine.Reach.exists_of_runOk (fun _ _ h => h) hrun
  exact ⟨s, hreach, hs, opened_same_channel s hreach 0 0 0 hs⟩

/-- Between the two lookups the creator exits and another one creates the channel again. -/
def replaced : List Act :=
  createsBoth 0 ++ opensBack 0 ++ [Act.back (.exit 0), .out (.exit 0)] ++ createsBoth 1 ++ opensOut 0

/-- **A creator that is replaced between the lookups leaves a mixed channel**: the opener succeeds with
    the direction back of the first creator and the other direction of the second. -/
theorem opened_two_channels :
    ∃ s, machine.Reach (fun _ _ => True) s ∧ s.openers 0 = .opened 0 1 ∧ s.back.maker 0 = some 0 ∧
      s.out.maker 1 = some 1 := by
  have hrun : (machine.run State.start replaced).map
      (fun s => (s.openers 0, s.back.maker 0, s.out.maker 1))
      = some (.opened 0 1, some 0, some 1) := by decide
  obtain ⟨s, hreach, hs⟩ := Machine.Reach.exists_of_run hrun
  simp only [Prod.mk.injEq] at hs
  exact ⟨s, hreach, hs⟩

end Pair

end GoIpc.Name
