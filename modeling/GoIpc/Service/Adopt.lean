import GoIpc.Channel.Pipe
import GoIpc.Lib.Machine

namespace GoIpc.Adopt

open GoIpc.Lib
open GoIpc.Ring (Capacity claimSlots)
open GoIpc.Channel (Pipe)
open Function (update update_self update_of_ne update_idem)

/-!
# How a service finds its clients

A client creates its channel and then knocks: it opens the registry queue of the service and sends
its id.  A service publishes the registry queue, lists the runtime directory, adopts every client
whose channel it finds there, and then adopts every client that knocks.  The two paths race.

* `Connect` — where a client's `Connect` stands, with `knock` taken apart;
* `Phase` — where the service stands, with `adopt` and `OpenChannel` taken apart;
* `adopted_once` — while every knock finds a free claim slot in the registry, no client is adopted
  twice, and a client past its knock is adopted once the service has nothing left to do;
* `knock_lost` — the client whose knock finds every claim slot held by a knock under way.

Clients are numbered; the number stands for the random id.  `opens` and `hellos` are counters of
what happened to a channel.
-/

/-! ### State -/

/-- Where a client's `Connect` stands. -/
inductive Connect
  /-- create the direction to the service, with a reader still to come -/
  | createTx
  /-- take the name of the other direction: its name file appears -/
  | lockRx
  /-- publish the other direction -/
  | publishRx
  /-- open the registry queue -/
  | openRegistry
  /-- `acquireSlot` looks at a claim slot -/
  | acquire (slot : Nat)
  | send (slot : Nat)
  /-- close the registry handle, which gives its slot back -/
  | close (slot : Nat)
  /-- wait for the hello -/
  | recv
  | connected
deriving DecidableEq

/-- `knock` has returned. -/
def Connect.pastKnock : Connect → Bool
  | .recv | .connected => true
  | _ => false

/-- A client's channel. -/
structure Chan where
  c2o : Bool
  o2c : Bool
  /-- the consumer field of `c2o` is no longer `pendingProc` -/
  taken : Bool
  /-- calls of `OpenChannel` that succeeded -/
  opens : Nat
  /-- hello messages sent -/
  hellos : Nat
deriving DecidableEq

def Chan.none : Chan := ⟨false, false, false, 0, 0⟩

/-- Where `adopt` stands. -/
inductive Opening
  | openTx
  | openRx
  /-- the compare-and-swap on the consumer field -/
  | swap
  /-- enter the session -/
  | enroll
  | hello
deriving DecidableEq

/-- Where the service stands.  `todo` and `adopt` carry the ids that `Serve` has still to adopt
    before it starts to read knocks. -/
inductive Phase
  | create
  | list
  /-- the directory is being read; these files were there when it began -/
  | listing (files : List Nat)
  | todo (ids : List Nat)
  | adopt (id : Nat) (pc : Opening) (ids : List Nat)
  /-- `run` waits for a knock -/
  | recv
deriving DecidableEq

structure Sys where
  connect : Nat → Connect
  chan : Nat → Chan
  /-- the clients whose name file is in the runtime directory -/
  files : List Nat
  /-- the registry queue is published -/
  registered : Bool
  /-- who holds a claim slot of the registry queue -/
  owner : Nat → Option Nat
  pipe : Pipe
  knocks : List Nat
  sessions : List Nat
  phase : Phase

inductive Act
  | client (id : Nat)
  | service
  /-- the directory listing returns these ids -/
  | listed (ids : List Nat)

/-- Size of a knock: an incarnation. -/
def incarnationLen : Nat := 16

/-! ### Steps -/

namespace Sys

variable (C : Capacity) (s : Sys)

def start : Sys where
  connect := fun _ => .createTx
  chan := fun _ => .none
  files := []
  registered := false
  owner := fun _ => none
  pipe := .start
  knocks := []
  sessions := []
  phase := .create

/-- Client `i` goes on with `pc`. -/
def goto (i : Nat) (pc : Connect) : Sys := { s with connect := update s.connect i pc }

def setChan (i : Nat) (c : Chan) : Sys := { s with chan := update s.chan i c }

def setOwner (slot : Nat) (o : Option Nat) : Sys :=
  { s with owner := update s.owner slot o }

/-- The next step of client `i`. -/
def clientStep (i : Nat) : Option Sys :=
  match s.connect i with
  | .createTx => some ((s.setChan i { s.chan i with c2o := true }).goto i .lockRx)
  | .lockRx => some ({ s with files := s.files ++ [i] }.goto i .publishRx)
  | .publishRx => some ((s.setChan i { s.chan i with o2c := true }).goto i .openRegistry)
  | .openRegistry =>
      -- without a registry the service is not up, and `knock` returns
      some (s.goto i (if s.registered then .acquire 0 else .recv))
  | .acquire k =>
      if s.owner k = none then some ((s.setOwner k (some i)).goto i (.send k))
      else if k + 1 < claimSlots then some (s.goto i (.acquire (k + 1)))
      -- no owner of a slot is dead: `ErrTooManyClaims`, which `knock` drops
      else some (s.goto i .recv)
  | .send k =>
      -- a sender waits while the queue is full
      if s.pipe.fits C incarnationLen then
        some ({ s with pipe := s.pipe.push C incarnationLen, knocks := s.knocks ++ [i] }.goto i
          (.close k))
      else none
  | .close k => some ((s.setOwner k none).goto i .recv)
  | .recv => if 0 < (s.chan i).hellos then some (s.goto i .connected) else none
  | .connected => none

/-- `adopt` returns, and the service turns to the next id. -/
def next (ids : List Nat) : Sys := { s with phase := .todo ids }

/-- The next step of `adopt`. -/
def adoptStep (id : Nat) (ids : List Nat) : Opening → Sys
  | .openTx => if (s.chan id).o2c then { s with phase := .adopt id .openRx ids } else s.next ids
  | .openRx => if (s.chan id).c2o then { s with phase := .adopt id .swap ids } else s.next ids
  | .swap =>
      if (s.chan id).taken then s.next ids
      else
        { s.setChan id { s.chan id with taken := true, opens := (s.chan id).opens + 1 } with
          phase := .adopt id .enroll ids }
  | .enroll => { s with sessions := s.sessions ++ [id], phase := .adopt id .hello ids }
  | .hello => (s.setChan id { s.chan id with hellos := (s.chan id).hellos + 1 }).next ids

/-- The next step of the service. -/
def serviceStep : Option Sys :=
  match s.phase with
  | .create => some { s with registered := true, phase := .list }
  | .list => some { s with phase := .listing s.files }
  | .listing _ => none
  | .todo [] => some { s with phase := .recv }
  | .todo (id :: ids) => some { s with phase := .adopt id .openTx ids }
  | .adopt id pc ids => some (s.adoptStep id ids pc)
  | .recv =>
      match s.knocks with
      | [] => none
      | id :: knocks =>
          some { s with
            knocks := knocks
            pipe := s.pipe.pop C incarnationLen
            phase := .adopt id .openTx [] }

/-- The listing shows every file that was there all the time, and no other than those there at its
    end. -/
def listed (ids : List Nat) : Option Sys :=
  match s.phase with
  | .listing seen =>
      if seen.all (ids.contains ·) && ids.all (s.files.contains ·) then some (s.next ids) else none
  | _ => none

/-- One step. -/
def step : Act → Option Sys
  | .client id => s.clientStep C id
  | .service => s.serviceStep C
  | .listed ids => s.listed ids

/-- When a knock looks at the last claim slot of the registry, that slot is free. -/
def slotLeft : Act → Bool
  | .client id =>
      match s.connect id with
      | .acquire k => k + 1 < claimSlots || (s.owner k).isNone
      | _ => true
  | _ => true

end Sys

/-- Any number of clients and a service with a registry queue of capacity `C`. -/
def machine (C : Capacity) : Machine Sys Act := ⟨Sys.start, Sys.step C⟩

/-! ### The invariant -/

/-- The service will still come to adopt client `i`. -/
def Phase.awaits (i : Nat) : Phase → Prop
  | .create | .list => True
  | .listing files => i ∈ files
  | .todo ids => i ∈ ids
  | .adopt id .openTx ids | .adopt id .openRx ids | .adopt id .swap ids => id = i ∨ i ∈ ids
  | .adopt _ _ ids => i ∈ ids
  | .recv => False

/-- One for the client whose channel is open and who has no session yet. -/
def Phase.enrolling (i : Nat) : Phase → Nat
  | .adopt id .enroll _ => if id = i then 1 else 0
  | _ => 0

/-- One for the client whose channel is open and who has not been greeted. -/
def Phase.greeting (i : Nat) : Phase → Nat
  | .adopt id .enroll _ | .adopt id .hello _ => if id = i then 1 else 0
  | _ => 0

/-- Client `i` is adopted, or will be. -/
def Sys.Covered (s : Sys) (i : Nat) : Prop :=
  (s.chan i).taken = true ∨ i ∈ s.knocks ∨ s.phase.awaits i

/-- The knock is in the queue, or the service has been found absent. -/
def Connect.knocked : Connect → Bool
  | .close _ | .recv | .connected => true
  | _ => false

/-- The channel of client `i` is complete, and the directory shows it. -/
def Sys.Visible (s : Sys) (i : Nat) : Prop :=
  (s.chan i).c2o = true ∧ i ∈ s.files ∧ (s.chan i).o2c = true

/-- What client `i` has made of its channel. -/
def Sys.Made (s : Sys) (i : Nat) : Connect → Prop
  | .createTx => True
  | .lockRx => (s.chan i).c2o = true
  | .publishRx => (s.chan i).c2o = true ∧ i ∈ s.files
  | _ => s.Visible i

structure Inv (s : Sys) : Prop where
  made : ∀ i, s.Made i (s.connect i)
  covered : ∀ i, (s.connect i).knocked = true → s.Covered i
  registered : s.registered = false → s.phase = .create
  opens : ∀ i, (s.chan i).opens = (s.chan i).taken.toNat
  sessions : ∀ i, s.sessions.count i + s.phase.enrolling i = (s.chan i).taken.toNat
  hellos : ∀ i, (s.chan i).hellos + s.phase.greeting i = (s.chan i).taken.toNat

variable {C : Capacity} {s s' : Sys} {i : Nat} {pc : Connect}

theorem Sys.goto_connect_self : (s.goto i pc).connect i = pc := update_self ..

theorem Sys.goto_connect_ne {j : Nat} (h : j ≠ i) : (s.goto i pc).connect j = s.connect j :=
  update_of_ne h ..

theorem Sys.Made.visible (h : s.Made i pc) (hk : pc.knocked = true) : s.Visible i := by
  cases pc <;> first | exact h | cases hk

/-- More files, and more of a channel published, is no loss. -/
theorem Sys.Made.mono {t : Sys} (h : s.Made i pc) (hfiles : i ∈ s.files → i ∈ t.files)
    (hc2o : (s.chan i).c2o = true → (t.chan i).c2o = true)
    (ho2c : (s.chan i).o2c = true → (t.chan i).o2c = true) : t.Made i pc := by
  cases pc with
  | createTx => trivial
  | lockRx => exact hc2o h
  | publishRx => exact ⟨hc2o h.1, hfiles h.2⟩
  | _ => exact ⟨hc2o h.1, hfiles h.2.1, ho2c h.2.2⟩

theorem Inv.start : Inv Sys.start where
  made _ := trivial
  covered _ h := by cases h
  registered _ := rfl
  opens _ := rfl
  sessions _ := rfl
  hellos _ := rfl

namespace Inv

variable (h : Inv s)
include h

/-! ### Steps of a client -/

/-- A client moves on. -/
theorem goto (hm : s.Made i pc) (hk : pc.knocked = true → s.Covered i) : Inv (s.goto i pc) where
  made j := by
    by_cases hj : j = i
    · subst hj
      rw [Sys.goto_connect_self]
      exact hm.mono id id id
    · rw [Sys.goto_connect_ne hj]
      exact (h.made j).mono id id id
  covered j hj := by
    by_cases hji : j = i
    · subst hji
      rw [Sys.goto_connect_self] at hj
      exact hk hj
    · rw [Sys.goto_connect_ne hji] at hj
      exact h.covered j hj
  registered := h.registered
  opens := h.opens
  sessions := h.sessions
  hellos := h.hellos

/-- A direction of a channel is published. -/
theorem publish (c2o o2c : Bool) (hc2o : (s.chan i).c2o = true → c2o = true)
    (ho2c : (s.chan i).o2c = true → o2c = true) :
    Inv (s.setChan i { s.chan i with c2o := c2o, o2c := o2c }) := by
  -- what the counters of a channel are compared with does not change
  have hchan : ∀ j, ((s.setChan i { s.chan i with c2o := c2o, o2c := o2c }).chan j).taken =
      (s.chan j).taken ∧
      ((s.setChan i { s.chan i with c2o := c2o, o2c := o2c }).chan j).opens = (s.chan j).opens ∧
      ((s.setChan i { s.chan i with c2o := c2o, o2c := o2c }).chan j).hellos =
        (s.chan j).hellos := by
    intro j
    by_cases hj : j = i
    · subst hj
      simp [Sys.setChan]
    · simp [Sys.setChan, hj]
  exact {
    made := by
      intro j
      refine (h.made j).mono id ?_ ?_ <;> by_cases hj : j = i
      · subst hj
        simpa [Sys.setChan] using hc2o
      · simp [Sys.setChan, hj]
      · subst hj
        simpa [Sys.setChan] using ho2c
      · simp [Sys.setChan, hj]
    covered := by
      intro j hj
      rcases h.covered j hj with ht | hrest
      · exact .inl ((hchan j).1.trans ht)
      · exact .inr hrest
    registered := h.registered
    opens := fun j => by rw [(hchan j).1, (hchan j).2.1, h.opens j]
    sessions := fun j => by rw [(hchan j).1]; exact h.sessions j
    hellos := fun j => by rw [(hchan j).1, (hchan j).2.2]; exact h.hellos j }

/-- A name file appears. -/
theorem appear (i : Nat) : Inv { s with files := s.files ++ [i] } where
  made j := (h.made j).mono (List.mem_append_left _) id id
  covered := h.covered
  registered := h.registered
  opens := h.opens
  sessions := h.sessions
  hellos := h.hellos

/-- A knock arrives. -/
theorem knock (p : Pipe) (i : Nat) : Inv { s with pipe := p, knocks := s.knocks ++ [i] } where
  made := h.made
  covered j hj := by
    rcases h.covered j hj with ht | hk | hw
    · exact .inl ht
    · exact .inr (.inl (List.mem_append_left _ hk))
    · exact .inr (.inr hw)
  registered := h.registered
  opens := h.opens
  sessions := h.sessions
  hellos := h.hellos

theorem setOwner (k : Nat) (o : Option Nat) : Inv (s.setOwner k o) :=
  ⟨h.made, h.covered, h.registered, h.opens, h.sessions, h.hellos⟩

/-- A step of a client, whose knock does not run out of claim slots. -/
theorem client (hok : s.slotLeft (.client i) = true) (hs : s.clientStep C i = some s') :
    Inv s' := by
  have hmade := h.made i
  unfold Sys.clientStep at hs
  simp only [Sys.slotLeft] at hok
  split at hs <;> rename_i hpc <;> rw [hpc] at hmade
  · -- createTx
    cases hs
    exact (h.publish true (s.chan i).o2c (fun _ => rfl) id).goto (by simp [Sys.Made, Sys.setChan])
      nofun
  · -- lockRx
    cases hs
    exact (h.appear i).goto ⟨hmade, by simp⟩ nofun
  · -- publishRx
    cases hs
    refine (h.publish (s.chan i).c2o true id (fun _ => rfl)).goto ?_ nofun
    exact ⟨by simpa [Sys.setChan] using hmade.1, hmade.2, by simp [Sys.setChan]⟩
  · -- openRegistry: a service that is not up yet has still to list the directory
    cases hs
    split
    · exact h.goto hmade nofun
    · next hreg =>
      refine h.goto hmade fun _ => .inr (.inr ?_)
      rw [h.registered (by simpa using hreg)]
      trivial
  · next k =>
    rw [hpc] at hok
    split at hs
    · cases hs
      exact (h.setOwner k (some i)).goto hmade nofun
    · next howner =>
      split at hs
      · cases hs
        exact h.goto hmade nofun
      · next hlast =>
        -- the last slot is free
        simp only [Bool.or_eq_true, decide_eq_true_eq, Option.isNone_iff_eq_none] at hok
        exact absurd hok (by simp [hlast, howner])
  · next k =>
    split_ifs at hs
    cases hs
    exact (h.knock _ i).goto hmade fun _ => .inr (.inl (by simp))
  · next k =>
    cases hs
    exact (h.setOwner k none).goto hmade fun _ => h.covered i (hpc ▸ rfl)
  · split at hs <;> cases hs
    exact h.goto hmade fun _ => h.covered i (hpc ▸ rfl)
  · cases hs

/-! ### Steps of the service -/

/-- The service moves on, and forgets nobody whose channel is complete. -/
theorem turn (p : Phase) (hp : s.phase ≠ .create)
    (henroll : ∀ j, p.enrolling j = s.phase.enrolling j)
    (hgreet : ∀ j, p.greeting j = s.phase.greeting j)
    (hkeep : ∀ j, s.Visible j → s.phase.awaits j → (s.chan j).taken = true ∨ p.awaits j) :
    Inv { s with phase := p } where
  made := h.made
  covered j hj := by
    rcases h.covered j hj with ht | hk | hw
    · exact .inl ht
    · exact .inr (.inl hk)
    · rcases hkeep j ((h.made j).visible hj) hw with ht | hw
      · exact .inl ht
      · exact .inr (.inr hw)
  registered hr := absurd (h.registered hr) hp
  opens := h.opens
  sessions j := by rw [henroll j]; exact h.sessions j
  hellos j := by rw [hgreet j]; exact h.hellos j

variable {id : Nat} {ids : List Nat}

/-- The compare-and-swap of `OpenChannel` succeeds. -/
theorem swap (hp : s.phase = .adopt id .swap ids) (htaken : (s.chan id).taken = false) :
    Inv { s.setChan id { s.chan id with taken := true, opens := (s.chan id).opens + 1 } with
      phase := .adopt id .enroll ids } where
  made j := by
    refine (h.made j).mono (fun hf => hf) ?_ ?_ <;> by_cases hj : j = id <;>
      simp [Sys.setChan, hj]
  covered j hj := by
    by_cases hji : j = id
    · subst hji
      exact .inl (by simp [Sys.setChan])
    · have hcov := h.covered j hj
      simpa [Sys.Covered, Sys.setChan, hji, hp, Phase.awaits, Ne.symm hji] using hcov
  registered hr := absurd (h.registered hr) (by rw [hp]; nofun)
  opens j := by
    have hopens := h.opens j
    by_cases hj : j = id
    · subst hj
      simpa [Sys.setChan, htaken] using hopens
    · simpa [Sys.setChan, hj] using hopens
  sessions j := by
    have hsessions := h.sessions j
    rw [hp] at hsessions
    by_cases hj : j = id
    · subst hj
      simpa [Sys.setChan, htaken, Phase.enrolling] using hsessions
    · simpa [Sys.setChan, hj, Phase.enrolling, Ne.symm hj] using hsessions
  hellos j := by
    have hhellos := h.hellos j
    rw [hp] at hhellos
    by_cases hj : j = id
    · subst hj
      simpa [Sys.setChan, htaken, Phase.greeting] using hhellos
    · simpa [Sys.setChan, hj, Phase.greeting, Ne.symm hj] using hhellos

/-- The session is entered. -/
theorem enroll (hp : s.phase = .adopt id .enroll ids) :
    Inv { s with sessions := s.sessions ++ [id], phase := .adopt id .hello ids } where
  made := h.made
  covered j hj := by simpa [Sys.Covered, hp, Phase.awaits] using h.covered j hj
  registered hr := absurd (h.registered hr) (by rw [hp]; nofun)
  opens := h.opens
  sessions j := by
    have hsessions := h.sessions j
    rw [hp] at hsessions
    by_cases hj : id = j
    · simpa [Phase.enrolling, hj] using hsessions
    · simpa [Phase.enrolling, hj] using hsessions
  hellos j := by
    have hhellos := h.hellos j
    rwa [hp] at hhellos

/-- The hello is sent. -/
theorem greet (hp : s.phase = .adopt id .hello ids) :
    Inv ((s.setChan id { s.chan id with hellos := (s.chan id).hellos + 1 }).next ids) where
  made j := by
    refine (h.made j).mono (fun hf => hf) ?_ ?_ <;> by_cases hj : j = id <;>
      simp [Sys.setChan, Sys.next, hj]
  covered j hj := by
    have hcov := h.covered j hj
    by_cases hji : j = id
    · subst hji
      simpa [Sys.Covered, Sys.setChan, Sys.next, hp, Phase.awaits] using hcov
    · simpa [Sys.Covered, Sys.setChan, Sys.next, hji, hp, Phase.awaits] using hcov
  registered hr := absurd (h.registered hr) (by rw [hp]; nofun)
  opens j := by
    have hopens := h.opens j
    by_cases hj : j = id
    · subst hj
      simpa [Sys.setChan, Sys.next] using hopens
    · simpa [Sys.setChan, Sys.next, hj] using hopens
  sessions j := by
    have hsessions := h.sessions j
    rw [hp] at hsessions
    by_cases hj : j = id
    · subst hj
      simpa [Sys.setChan, Sys.next, Phase.enrolling] using hsessions
    · simpa [Sys.setChan, Sys.next, hj, Phase.enrolling] using hsessions
  hellos j := by
    have hhellos := h.hellos j
    rw [hp] at hhellos
    by_cases hj : j = id
    · subst hj
      simpa [Sys.setChan, Sys.next, Phase.greeting] using hhellos
    · simpa [Sys.setChan, Sys.next, hj, Phase.greeting, Ne.symm hj] using hhellos

/-- A step of `adopt`. -/
theorem adoptStep {pc : Opening} (hp : s.phase = .adopt id pc ids) : Inv (s.adoptStep id ids pc) := by
  have hne : s.phase ≠ .create := by rw [hp]; nofun
  cases pc with
  | openTx =>
    simp only [Sys.adoptStep]
    split
    · exact h.turn _ hne (fun j => hp ▸ rfl) (fun j => hp ▸ rfl)
        (fun j _ hw => .inr (by rwa [hp] at hw))
    · next ho2c =>
      refine h.turn _ hne (fun j => hp ▸ rfl) (fun j => hp ▸ rfl) ?_
      intro j hvis hw
      rw [hp] at hw
      rcases hw with rfl | hw
      · exact absurd hvis.2.2 ho2c
      · exact .inr hw
  | openRx =>
    simp only [Sys.adoptStep]
    split
    · exact h.turn _ hne (fun j => hp ▸ rfl) (fun j => hp ▸ rfl)
        (fun j _ hw => .inr (by rwa [hp] at hw))
    · next hc2o =>
      refine h.turn _ hne (fun j => hp ▸ rfl) (fun j => hp ▸ rfl) ?_
      intro j hvis hw
      rw [hp] at hw
      rcases hw with rfl | hw
      · exact absurd hvis.1 hc2o
      · exact .inr hw
  | swap =>
    simp only [Sys.adoptStep]
    split
    -- the channel has been adopted before
    · next htaken =>
      refine h.turn _ hne (fun j => hp ▸ rfl) (fun j => hp ▸ rfl) ?_
      intro j _ hw
      rw [hp] at hw
      rcases hw with rfl | hw
      · exact .inl htaken
      · exact .inr hw
    · next htaken => exact h.swap hp (by simpa using htaken)
  | enroll => exact h.enroll hp
  | hello => exact h.greet hp

/-- A knock is received. -/
theorem received {knocks : List Nat} (p : Pipe) (hp : s.phase = .recv) (hk : s.knocks = id :: knocks) :
    Inv { s with knocks := knocks, pipe := p, phase := .adopt id .openTx [] } where
  made := h.made
  covered j hj := by
    have hcov := h.covered j hj
    simp only [Sys.Covered, hp, hk, Phase.awaits, List.mem_cons, or_false] at hcov
    rcases hcov with ht | rfl | hmem
    · exact .inl ht
    · exact .inr (.inr (.inl rfl))
    · exact .inr (.inl hmem)
  registered hr := absurd (h.registered hr) (by rw [hp]; nofun)
  opens := h.opens
  sessions j := by
    have hsessions := h.sessions j
    rwa [hp] at hsessions
  hellos j := by
    have hhellos := h.hellos j
    rwa [hp] at hhellos

/-- The registry is published. -/
theorem register (hp : s.phase = .create) :
    Inv { s with registered := true, phase := .list } where
  made := h.made
  covered j _ := .inr (.inr trivial)
  registered hr := by cases hr
  opens := h.opens
  sessions j := by
    have hsessions := h.sessions j
    rwa [hp] at hsessions
  hellos j := by
    have hhellos := h.hellos j
    rwa [hp] at hhellos

theorem service (hs : s.serviceStep C = some s') : Inv s' := by
  unfold Sys.serviceStep at hs
  split at hs
  case h_1 hp =>
    cases hs
    exact h.register hp
  case h_2 hp =>
    cases hs
    exact h.turn _ (by rw [hp]; nofun) (fun j => hp ▸ rfl)
      (fun j => hp ▸ rfl) (fun j hvis _ => .inr hvis.2.1)
  case h_3 => cases hs
  case h_4 hp =>
    cases hs
    exact h.turn _ (by rw [hp]; nofun) (fun j => hp ▸ rfl)
      (fun j => hp ▸ rfl) (fun j _ hw => by rw [hp] at hw; cases hw)
  case h_5 id ids hp =>
    cases hs
    exact h.turn _ (by rw [hp]; nofun) (fun j => hp ▸ rfl)
      (fun j => hp ▸ rfl)
      (fun j _ hw => .inr (by rw [hp] at hw; exact (List.mem_cons.mp hw).imp_left Eq.symm))
  case h_6 id pc ids hp =>
    cases hs
    exact h.adoptStep hp
  case h_7 hp =>
    split at hs <;> cases hs
    next hk =>
      exact h.received _ hp hk

/-- The listing returns. -/
theorem listed (hs : s.listed ids = some s') : Inv s' := by
  unfold Sys.listed at hs
  split at hs
  · next seen hp =>
    split_ifs at hs with hall
    cases hs
    simp only [Bool.and_eq_true, List.all_eq_true, List.contains_iff_mem] at hall
    exact h.turn _ (by rw [hp]; nofun) (fun j => hp ▸ rfl)
      (fun j => hp ▸ rfl) (fun j _ hw => .inr (by rw [hp] at hw; exact hall.1 j hw))
  · cases hs

theorem step {a : Act} (hok : s.slotLeft a = true) (hs : s.step C a = some s') : Inv s' := by
  cases a with
  | client id => exact h.client hok hs
  | service => exact h.service hs
  | listed ids => exact h.listed hs

end Inv

/-! ### The result -/

/-- **Every client is adopted, and only once.**  While every knock finds a free claim slot: no
    channel is opened twice, no client has two sessions or is greeted twice; and when the service has
    adopted what its listing showed and has read every knock, each client past its knock has its
    session and its hello. -/
theorem adopted_once (h : (machine C).Reach (fun s a => s.slotLeft a = true) s) :
    (∀ i, (s.chan i).opens ≤ 1 ∧ s.sessions.count i ≤ 1 ∧ (s.chan i).hellos ≤ 1) ∧
      (s.phase = .recv → s.knocks = [] → ∀ i, (s.connect i).pastKnock = true →
        (s.chan i).opens = 1 ∧ s.sessions.count i = 1 ∧ (s.chan i).hellos = 1) := by
  have hinv : Inv s := h.invariant .start fun _ _ _ hi hok hs => hi.step hok hs
  refine ⟨fun i => ?_, fun hp hk i hpast => ?_⟩
  · have hle : (s.chan i).taken.toNat ≤ 1 := Bool.toNat_le _
    have hopens := hinv.opens i
    have hsessions := hinv.sessions i
    have hhellos := hinv.hellos i
    omega
  · have hknocked : (s.connect i).knocked = true := by
      generalize s.connect i = pc at hpast
      cases pc <;> first | rfl | cases hpast
    have htaken : (s.chan i).taken = true := by
      rcases hinv.covered i hknocked with ht | hmem | hw
      · exact ht
      · rw [hk] at hmem
        cases hmem
      · rw [hp] at hw
        cases hw
    have hopens := hinv.opens i
    have hsessions := hinv.sessions i
    have hhellos := hinv.hellos i
    rw [hp, htaken] at hsessions hhellos
    rw [htaken] at hopens
    exact ⟨hopens, hsessions, hhellos⟩

/-- A client that is there before the service and is found by the listing, and one that knocks. -/
def early : List Act :=
  List.replicate 4 (Act.client 0) ++ [Act.service, .service, .listed [0]] ++
    List.replicate 7 Act.service ++ List.replicate 7 (Act.client 1) ++
    List.replicate 7 Act.service ++ [Act.client 0, .client 1]

theorem adopted_once_early : ∃ s,
    (machine .smallest).Reach (fun s a => s.slotLeft a = true) s ∧ s.phase = .recv ∧
      s.knocks = [] ∧ s.connect 0 = .connected ∧ s.connect 1 = .connected ∧
      (s.chan 0).opens = 1 ∧ (s.chan 1).opens = 1 ∧ s.sessions.count 1 = 1 := by
  have hrun : ((machine .smallest).runOk Sys.slotLeft (machine .smallest).init early).map (fun s =>
      (s.phase, s.knocks, s.connect 0, s.connect 1)) =
      some (.recv, [], .connected, .connected) := by
    decide +kernel
  obtain ⟨s, hs, hobs⟩ := Machine.Reach.exists_of_runOk (fun _ _ h => h) hrun
  simp only [Prod.mk.injEq] at hobs
  obtain ⟨hp, hk, h0, h1⟩ := hobs
  obtain ⟨-, hall⟩ := adopted_once hs
  have hzero := hall hp hk 0 (h0 ▸ rfl)
  have hone := hall hp hk 1 (h1 ▸ rfl)
  exact ⟨s, hs, hp, hk, h0, h1, hzero.1, hone.1, hone.2.1⟩

/-! ### More knocks at once than claim slots -/

/-- The service has started before any client; `n` clients have opened the registry and taken a claim
    slot each. -/
def crowd (n : Nat) : Sys where
  connect := fun i => if i < n then .send i else .createTx
  chan := fun i => if i < n then ⟨true, true, false, 0, 0⟩ else .none
  files := List.range n
  registered := true
  owner := fun k => if k < n then some k else none
  pipe := .start
  knocks := []
  sessions := []
  phase := .recv

/-- The next client of the crowd has made its channel and goes on with `pc`. -/
def arriving (n : Nat) (pc : Connect) : Sys :=
  ({ crowd n with files := List.range (n + 1) }.setChan n ⟨true, true, false, 0, 0⟩).goto n pc

theorem arriving_connect (n : Nat) (pc : Connect) : (arriving n pc).connect n = pc :=
  Sys.goto_connect_self

theorem goto_arriving (n : Nat) (pc pc' : Connect) :
    (arriving n pc).goto n pc' = arriving n pc' := by
  simp [arriving, Sys.goto]

/-- The client opens the registry. -/
theorem run_arriving (n : Nat) :
    (machine C).run (crowd n) (List.replicate 4 (.client n)) = some (arriving n (.acquire 0)) := by
  simp [List.replicate, Machine.run, machine, Sys.step, Sys.clientStep, crowd, arriving, Sys.goto,
    Sys.setChan, Chan.none, List.range_succ]

/-- A slot that another client of the crowd holds is passed. -/
theorem step_held {n k : Nat} (hk : k < n) :
    (machine C).step (arriving n (.acquire k)) (.client n) =
      some (arriving n (if k + 1 < claimSlots then .acquire (k + 1) else .recv)) := by
  have howner : (arriving n (.acquire k)).owner k = some k := by
    simp [arriving, crowd, Sys.goto, Sys.setChan, hk]
  simp only [machine, Sys.step, Sys.clientStep, arriving_connect, howner, reduceCtorEq, if_false,
    goto_arriving]
  split <;> rfl

/-- A table of `n` entries gains one. -/
theorem update_below {β : Type} (n : Nat) (f g : Nat → β) :
    update (fun i => if i < n then f i else g i) n (f n) =
      fun i => if i < n + 1 then f i else g i := by
  funext i
  by_cases hi : i = n
  · subst hi
    simp
  · have hlt : i < n + 1 ↔ i < n := by omega
    simp [update_of_ne hi, hlt]

/-- The first slot that nobody holds goes to the client. -/
theorem step_free (n : Nat) :
    (machine C).step (arriving n (.acquire n)) (.client n) = some (crowd (n + 1)) := by
  have howner : (arriving n (.acquire n)).owner n = none := by
    simp [arriving, crowd, Sys.goto, Sys.setChan]
  simp only [machine, Sys.step, Sys.clientStep, arriving_connect, howner, if_true,
    Option.some.injEq]
  simp only [arriving, crowd, Sys.goto, Sys.setChan, Sys.setOwner, update_idem, Sys.mk.injEq,
    true_and, and_true]
  exact ⟨update_below n Connect.send _,
    update_below n (fun _ => (⟨true, true, false, 0, 0⟩ : Chan)) _, update_below n some _⟩

/-- A service that starts before any client. -/
theorem reach_crowd_zero : (machine C).Reach (fun _ _ => True) (crowd 0) := by
  have hrun : (machine C).run (machine C).init
      [.service, .service, .listed [], .service] = some (crowd 0) := by
    simp [Machine.run, machine, Sys.step, Sys.serviceStep, Sys.listed, Sys.next, Sys.start, crowd]
  exact .of_run (fun _ _ => trivial) .init _ hrun

/-- The client after a crowd comes to slot `k`. -/
theorem reach_acquire {n : Nat} (h : (machine C).Reach (fun _ _ => True) (crowd n))
    (k : Nat) (hk : k ≤ n) (hslots : k < claimSlots) :
    (machine C).Reach (fun _ _ => True) (arriving n (.acquire k)) := by
  induction k with
  | zero => exact .of_run (fun _ _ => trivial) h _ (run_arriving n)
  | succ k ih =>
    have hstep := step_held (C := C) (n := n) (k := k) hk
    rw [if_pos hslots] at hstep
    exact .step (ih (by omega) (by omega)) trivial hstep

theorem reach_crowd (n : Nat) (hn : n ≤ claimSlots) :
    (machine C).Reach (fun _ _ => True) (crowd n) := by
  induction n with
  | zero => exact reach_crowd_zero
  | succ n ih => exact .step (reach_acquire (ih (by omega)) n le_rfl hn) trivial (step_free n)

/-- **A knock finds every claim slot held**, by the knocks of 256 other clients, and is dropped: the
    service waits, no knock is in its queue, and the client that waits for its hello is not adopted. -/
theorem knock_lost : ∃ s, (machine .smallest).Reach (fun _ _ => True) s ∧ s.phase = .recv ∧
    s.knocks = [] ∧ (s.connect 256).pastKnock = true ∧ (s.chan 256).opens = 0 := by
  have hlast : (machine .smallest).Reach (fun _ _ => True) (arriving 256 (.acquire 255)) :=
    reach_acquire (reach_crowd 256 le_rfl) 255 (by decide) (by decide)
  refine ⟨arriving 256 .recv, .step hlast trivial (step_held (k := 255) (by decide)), rfl, rfl,
    ?_, ?_⟩
  · rw [arriving_connect]
    rfl
  · simp [arriving, Sys.goto, Sys.setChan]

end GoIpc.Adopt
