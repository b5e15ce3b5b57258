import GoIpc.Lib.Machine
import Mathlib.Logic.Function.Basic

namespace GoIpc.Name

open GoIpc.Lib
open Function (update update_self update_of_ne)

/-!
# Names on Unix

A queue name is two files: the creator holds a `flock` on the `.name` file for the life of the queue,
and the `.inc` file names the instance.  `createQueue` and `sweepName` take the lock first (`lockName`);
`Unlink` compares and removes without it.

* `State`, `State.step` — the two paths, the files behind them and every process at work on the name;
  each file-system call is one step;
* `Right` — what the place of a process says about the files;
* `undisturbed` — no `Unlink` removes a file of the name while somebody else has it locked;
* `holder_keeps_name` — then a live holder keeps its name;
* `unlink_takes_name` — the run in which an `Unlink` after `Close` takes the name of a successor.

Files and incarnations are numbers; new ones are different from all before.  Every incarnation has 16
characters, so the write of `publish` replaces the whole content and its truncate cuts nothing.
-/

/-! ### The model -/

inductive Job
  | create
  | sweep
deriving DecidableEq

/-- Where a `createQueue` (and then the handle it returns) or a `sweepName` stands.  `i` is the file of
    the lock, `k` the incarnation, `f` the open `.inc` file. -/
inductive Agent
  | idle
  /-- about to open the `.name` path -/
  | opening (j : Job)
  /-- about to take the `flock` -/
  | opened (j : Job) (i : Nat)
  /-- about to compare the file with the path -/
  | flocked (j : Job) (i : Nat)
  /-- the path is another file, about to close this one and try again -/
  | dropping (j : Job) (i : Nat)
  /-- `lockName` returned, about to read the `.inc` path -/
  | locked (j : Job) (i : Nat)
  /-- about to remove the instance the name pointed at -/
  | clearing (j : Job) (i : Nat) (old : Option Nat)
  /-- with a new incarnation, about to make the instance -/
  | building (i k : Nat)
  /-- in `publish`, about to open the `.inc` path -/
  | built (i k : Nat)
  | incOpened (i k f : Nat)
  /-- about to truncate -/
  | written (i k f : Nat)
  /-- `createQueue` returned; `begun` when an `Unlink` of the handle has begun -/
  | published (i k : Nat) (begun : Bool)
  /-- in `Close`, before it releases the lock -/
  | closing (i k : Nat)
  | closed (k : Nat)
  /-- `createQueue` fails, about to remove what it made -/
  | unwinding (i k : Nat)
  | removingInc (i : Nat)
  | removingName (i : Nat)
  | releasing (i : Nat)
  /-- failed, finished or exited -/
  | gone
deriving DecidableEq

/-- Where an `Unlink` stands: of the handle `a`, with incarnation `k`. -/
inductive Unlink
  | idle
  /-- about to remove the instance -/
  | removing (a k : Nat)
  /-- about to read the `.inc` path -/
  | reading (a k : Nat)
  | removingInc (a : Nat)
  | removingName (a : Nat)
deriving DecidableEq

/-- `maker` is history: which `createQueue` chose an incarnation. -/
structure State where
  name : Option Nat
  inc : Option Nat
  content : Nat → Option Nat
  flock : Nat → Option Nat
  instances : Nat → Bool
  files : Nat
  incarnations : Nat
  maker : Nat → Option Nat
  agents : Nat → Agent
  unlinks : Nat → Unlink

inductive Act
  | create (a : Nat)
  | sweep (a : Nat)
  | step (a : Nat)
  /-- the call that is due fails -/
  | fail (a : Nat)
  | close (a : Nat)
  | exit (a : Nat)
  /-- `Unlink` of the handle of `a` begins, as number `u` -/
  | unlink (u a : Nat)
  | unlinkStep (u : Nat)
deriving DecidableEq

/-- The file on which an agent holds the `flock`. -/
def Agent.lock : Agent → Option Nat
  | .flocked _ i | .dropping _ i | .locked _ i | .clearing _ i _ | .building i _ | .built i _
  | .incOpened i _ _ | .written i _ _ | .published i _ _ | .closing i _ | .unwinding i _
  | .removingInc i | .removingName i | .releasing i => some i
  | .idle | .opening _ | .opened _ _ | .closed _ | .gone => none

namespace State

def start : State :=
  ⟨none, none, fun _ => none, fun _ => none, fun _ => false, 0, 0, fun _ => none, fun _ => .idle,
    fun _ => .idle⟩

def move (s : State) (a : Nat) (p : Agent) : State :=
  { s with agents := update s.agents a p }

def unlinkTo (s : State) (u : Nat) (p : Unlink) : State :=
  { s with unlinks := update s.unlinks u p }

/-- Closing the file of the lock drops the `flock`. -/
def release (s : State) (i : Nat) : State := { s with flock := update s.flock i none }

/-- The incarnation in the `.inc` file. -/
def current (s : State) : Option Nat := s.inc.bind s.content

def removeInstance (s : State) (k : Nat) : State :=
  { s with instances := update s.instances k false }

/-- One step of an agent. -/
def agentStep (s : State) (a : Nat) : Option State :=
  match s.agents a with
  | .opening j =>
      match s.name with
      | some i => some (s.move a (.opened j i))
      | none => some { s.move a (.opened j s.files) with name := some s.files, files := s.files + 1 }
  | .opened j i =>
      if s.flock i = none then
        some { s.move a (.flocked j i) with flock := update s.flock i (some a) }
      -- `ErrInUse`
      else some (s.move a .gone)
  | .flocked j i => some (s.move a (if s.name = some i then .locked j i else .dropping j i))
  | .dropping j i => some ((s.release i).move a (.opening j))
  | .locked j i => some (s.move a (.clearing j i s.current))
  | .clearing j i old =>
      let t := match old with
        | some k => s.removeInstance k
        | none => s
      match j with
      | .create => some { t.move a (.building i s.incarnations) with
          incarnations := s.incarnations + 1
          maker := update s.maker s.incarnations (some a) }
      | .sweep => some (t.move a (.removingInc i))
  | .building i k =>
      some { s.move a (.built i k) with instances := update s.instances k true }
  | .built i k =>
      match s.inc with
      | some f => some (s.move a (.incOpened i k f))
      | none => some { s.move a (.incOpened i k s.files) with
          inc := some s.files
          content := update s.content s.files none
          files := s.files + 1 }
  | .incOpened i k f =>
      some { s.move a (.written i k f) with content := update s.content f (some k) }
  | .written i k _ => some (s.move a (.published i k false))
  | .closing i k => some ((s.release i).move a (.closed k))
  | .unwinding i k => some ((s.removeInstance k).move a (.releasing i))
  | .removingInc i => some { s.move a (.removingName i) with inc := none }
  | .removingName i => some { s.move a (.releasing i) with name := none }
  | .releasing i => some ((s.release i).move a .gone)
  | .idle | .published .. | .closed _ | .gone => none

/-- The call that is due at an agent fails. -/
def agentFail (s : State) (a : Nat) : Option State :=
  match s.agents a with
  | .opening _ | .opened _ _ => some (s.move a .gone)
  | .clearing _ i _ => some (s.move a (.releasing i))
  | .building i k | .built i k | .incOpened i k _ | .written i k _ => some (s.move a (.unwinding i k))
  | .removingInc i | .removingName i => some (s.move a (.releasing i))
  | _ => none

def unlinkStep (s : State) (u : Nat) : Option State :=
  match s.unlinks u with
  | .idle => none
  | .removing a k =>
      some ((s.removeInstance k).unlinkTo u (.reading a k))
  | .reading a k => some (s.unlinkTo u (if s.current = some k then .removingInc a else .idle))
  | .removingInc a => some { s.unlinkTo u (.removingName a) with inc := none }
  | .removingName _ => some { s.unlinkTo u .idle with name := none }

def step (s : State) : Act → Option State
  | .create a => if s.agents a = .idle then some (s.move a (.opening .create)) else none
  | .sweep a => if s.agents a = .idle then some (s.move a (.opening .sweep)) else none
  | .step a => s.agentStep a
  | .fail a => s.agentFail a
  | .close a =>
      match s.agents a with
      | .published i k _ => some (s.move a (.closing i k))
      | _ => none
  | .exit a =>
      match (s.agents a).lock with
      | some i => some ((s.release i).move a .gone)
      | none => some (s.move a .gone)
  | .unlink u a =>
      if s.unlinks u = .idle then
        match s.agents a with
        | .published i k _ => some ((s.move a (.published i k true)).unlinkTo u (.removing a k))
        | .closing _ k | .closed k => some (s.unlinkTo u (.removing a k))
        | _ => none
      else none
  | .unlinkStep u => s.unlinkStep u

/-- `readName`: a stat of the `.name` path, then a read of the `.inc` path. -/
def readName (s : State) : Option Nat := if s.name.isSome then s.current else none

end State

def machine : Machine State Act := ⟨State.start, State.step⟩

/-! ### What a process may rely on -/

/-- The file that the `.name` path is while an agent stands here. -/
def Agent.secured : Agent → Option Nat
  | .locked _ i | .clearing _ i _ | .building i _ | .built i _ | .incOpened i _ _ | .written i _ _
  | .published i _ false | .removingInc i | .removingName i => some i
  | _ => none

/-- An agent whose handle has been closed or unlinked, or that has ended. -/
def Agent.past : Agent → Bool
  | .published _ _ true | .closing .. | .closed _ | .gone => true
  | _ => false

/-- What the content of the `.inc` path is while an agent stands here. -/
def State.Written (s : State) : Agent → Prop
  | .incOpened _ _ f => s.inc = some f
  | .written _ k f => s.inc = some f ∧ s.content f = some k
  | .published _ k false => ∃ f, s.inc = some f ∧ s.content f = some k
  | _ => True

/-- What the place of agent `a` says about the files. -/
structure Right (s : State) (a : Nat) (p : Agent) : Prop where
  lock : ∀ i, p.lock = some i → s.flock i = some a
  secured : ∀ i, p.secured = some i → s.name = some i
  written : s.Written p

/-- The handle an `Unlink` is about. -/
def Unlink.handle : Unlink → Option Nat
  | .idle => none
  | .removing a _ | .reading a _ | .removingInc a | .removingName a => some a

structure Inv (s : State) : Prop where
  right : ∀ a, Right s a (s.agents a)
  unlinks : ∀ u a, (s.unlinks u).handle = some a → (s.agents a).past = true

/-- Nobody but `a` has the name locked. -/
def State.freeFor (s : State) (a : Nat) : Bool :=
  match s.name with
  | some i => s.flock i = none ∨ s.flock i = some a
  | none => true

/-- No `Unlink` removes a file of the name while somebody else has it locked. -/
def undisturbed (s : State) : Act → Bool
  | .unlinkStep u =>
      match s.unlinks u with
      | .removingInc a | .removingName a => s.freeFor a
      | _ => true
  | _ => true

variable {s s' : State} {a b : Nat} {p q : Agent}

/-- A secured agent holds the lock of the path. -/
theorem lock_of_secured {i : Nat} (h : p.secured = some i) : p.lock = some i := by
  cases p with
  | published i k begun => cases begun <;> simp_all [Agent.secured, Agent.lock]
  | _ => simp_all [Agent.secured, Agent.lock]

/-- A past agent secures nothing. -/
theorem secured_of_past (h : p.past = true) : p.secured = none := by
  cases p with
  | published i k begun => cases begun <;> simp_all [Agent.secured, Agent.past]
  | _ => simp_all [Agent.secured, Agent.past]

/-- An agent that relies on the `.inc` path has secured the name. -/
theorem written_of_free (h : p.secured = none) : s.Written p := by
  cases p with
  | published i k begun => cases begun <;> simp_all [Agent.secured, State.Written]
  | _ => simp_all [Agent.secured, State.Written]

/-- An agent without a lock relies on nothing. -/
theorem Right.free (h : p.lock = none) : Right s a p := by
  have hfree : p.secured = none := by
    cases hq : p.secured with
    | none => rfl
    | some j => rw [lock_of_secured hq] at h; cases h
  exact ⟨fun i hi => (by rw [h] at hi; cases hi), fun i hi => (by rw [hfree] at hi; cases hi),
    written_of_free hfree⟩

/-- **At most one agent has secured the name.** -/
theorem Inv.secured_unique (h : Inv s) {i j : Nat} (ha : (s.agents a).secured = some i)
    (hb : (s.agents b).secured = some j) : a = b := by
  have hi := (h.right a).secured i ha
  have hj := (h.right b).secured j hb
  obtain rfl : i = j := Option.some.inj (hi.symm.trans hj)
  have hla := (h.right a).lock i (lock_of_secured ha)
  have hlb := (h.right b).lock i (lock_of_secured hb)
  exact Option.some.inj (hla.symm.trans hlb)

/-- What a place relies on survives a change of what it does not mention. -/
theorem Right.keep (h : Right s b q) (hflock : ∀ i, q.lock = some i → s'.flock i = s.flock i)
    (hname : q.secured ≠ none → s'.name = s.name)
    (hinc : q.secured ≠ none → s'.inc = s.inc ∧ s'.content = s.content) : Right s' b q := by
  refine ⟨fun i hi => (hflock i hi).trans (h.lock i hi), fun i hi => ?_, ?_⟩
  · rw [hname (by rw [hi]; simp)]
    exact h.secured i hi
  · cases hq : q.secured with
    | none => exact written_of_free hq
    | some i =>
      obtain ⟨hi, hc⟩ := hinc (by rw [hq]; simp)
      have hw := h.written
      unfold State.Written at hw ⊢
      rwa [hi, hc]

/-- Agent `a` moves to `p`. -/
theorem Inv.move (h : Inv s) (hagents : s'.agents = update s.agents a p)
    (hunlinks : s'.unlinks = s.unlinks) (ha : Right s' a p)
    (hother : ∀ b, b ≠ a → Right s b (s.agents b) → Right s' b (s.agents b))
    (hpast : (s.agents a).past = true → p.past = true) : Inv s' := by
  refine ⟨fun b => ?_, fun u b hu => ?_⟩
  · rw [hagents]
    by_cases hb : b = a
    · subst hb
      rwa [update_self]
    · rw [update_of_ne hb]
      exact hother b hb (h.right b)
  · rw [hunlinks] at hu
    have := h.unlinks u b hu
    rw [hagents]
    by_cases hb : b = a
    · subst hb
      rw [update_self]
      exact hpast this
    · rwa [update_of_ne hb]

/-- Agent `a` goes from `q` to `p` and changes neither path, content nor lock: it keeps its lock or has
    none, and relies on the name as before, not at all, or as it has found it. -/
theorem Inv.goto (h : Inv s) (hp : s.agents a = q) (hagents : s'.agents = update s.agents a p)
    (hsame : s'.flock = s.flock ∧ s'.name = s.name ∧ s'.inc = s.inc ∧ s'.content = s.content ∧
      s'.unlinks = s.unlinks)
    (hlock : p.lock = q.lock ∨ p.lock = none)
    (hsecured : p.secured = q.secured ∨ p.secured = none ∨ p.secured = s.name)
    (hpast : q.past = true → p.past = true) (hwritten : s.Written p) : Inv s' := by
  subst hp
  obtain ⟨hflock, hname, hinc, hcontent, hunlinks⟩ := hsame
  refine h.move hagents hunlinks ⟨fun i hi => ?_, fun i hi => ?_, ?_⟩
    (fun b _ hr => hr.keep (fun _ _ => by rw [hflock]) (fun _ => hname) (fun _ => ⟨hinc, hcontent⟩))
    hpast
  · rw [hflock]
    rcases hlock with heq | heq <;> rw [heq] at hi
    · exact (h.right a).lock i hi
    · cases hi
  · rw [hname]
    rcases hsecured with heq | heq | heq <;> rw [heq] at hi
    · exact (h.right a).secured i hi
    · cases hi
    · exact hi
  · unfold State.Written at hwritten ⊢
    rwa [hinc, hcontent]

/-- Agent `a` gives its lock up. -/
theorem Inv.released (h : Inv s) {i : Nat} (hi : (s.agents a).lock = some i) (hp : p.lock = none)
    (hpast : (s.agents a).past = true → p.past = true) : Inv ((s.release i).move a p) := by
  have hmine := (h.right a).lock i hi
  refine h.move rfl rfl (.free hp) (fun b hb hr => ?_) hpast
  refine hr.keep (fun j hj => ?_) (fun _ => rfl) (fun _ => ⟨rfl, rfl⟩)
  have hji : j ≠ i := by
    rintro rfl
    exact hb (Option.some.inj ((hr.lock j hj).symm.trans hmine))
  exact update_of_ne hji ..

theorem Inv.start : Inv State.start where
  right a := .free rfl
  unlinks u a hu := by cases hu

/-- A secured agent changes the paths. -/
theorem Inv.change (h : Inv s) {i : Nat} (hi : (s.agents a).secured = some i)
    (hagents : s'.agents = update s.agents a p) (hflock : s'.flock = s.flock)
    (hunlinks : s'.unlinks = s.unlinks) (ha : Right s' a p)
    (hpast : (s.agents a).past = true → p.past = true) : Inv s' := by
  refine h.move hagents hunlinks ha (fun b hb hr => ?_) hpast
  -- nobody else has secured the name
  have hfree : (s.agents b).secured = none := by
    cases hq : (s.agents b).secured with
    | none => rfl
    | some j => exact absurd (h.secured_unique hq hi) hb
  exact hr.keep (fun _ _ => by rw [hflock]) (fun hne => absurd hfree hne)
    (fun hne => absurd hfree hne)

/-- **Every step of an agent keeps the invariant.** -/
theorem Inv.agentStep (h : Inv s) (hs : s.agentStep a = some s') : Inv s' := by
  have hr := h.right a
  obtain ⟨q, hp⟩ : ∃ q, s.agents a = q := ⟨_, rfl⟩
  rw [State.agentStep, hp] at hs
  rw [hp] at hr
  have hlock : ∀ i, q.lock = some i → (s.agents a).lock = some i := fun i hi => hp ▸ hi
  have hsecured : ∀ i, q.secured = some i → (s.agents a).secured = some i := fun i hi => hp ▸ hi
  -- a place that keeps the lock and relies on the name as before
  have stay : ∀ {p : Agent} {t : State}, t.agents = update s.agents a p →
      (t.flock = s.flock ∧ t.name = s.name ∧ t.inc = s.inc ∧ t.content = s.content ∧
        t.unlinks = s.unlinks) → p.lock = q.lock → p.secured = q.secured → q.past = false →
      s.Written p → Inv t := fun hagents hsame hl hsec hq =>
    h.goto hp hagents hsame (.inl hl) (.inl hsec) (fun hpast => by rw [hq] at hpast; cases hpast)
  have young : q.past = false → ∀ {p : Agent}, (s.agents a).past = true → p.past = true :=
    fun hq p hpast => by rw [hp, hq] at hpast; cases hpast
  cases q with
  | opening j =>
    simp only at hs
    split at hs <;> cases hs
    · exact stay rfl ⟨rfl, rfl, rfl, rfl, rfl⟩ rfl rfl rfl trivial
    · next hname =>
      refine h.move rfl rfl (.free rfl)
        (fun b _ hb => hb.keep (fun _ _ => rfl) (fun hne => ?_) (fun _ => ⟨rfl, rfl⟩)) (young rfl)
      -- the path is missing, so nobody has secured the name
      obtain ⟨i, hi⟩ := Option.ne_none_iff_exists'.mp hne
      have := hb.secured i hi
      rw [hname] at this
      cases this
  | opened j i =>
    simp only at hs
    split at hs <;> cases hs
    · next hfree =>
      refine h.move rfl rfl ⟨fun i' hi => ?_, nofun, trivial⟩
        (fun b _ hb => hb.keep (fun i' hi => ?_) (fun _ => rfl) (fun _ => ⟨rfl, rfl⟩)) (young rfl)
      · cases hi
        exact update_self ..
      · refine update_of_ne ?_ ..
        rintro rfl
        have := hb.lock i' hi
        rw [hfree] at this
        cases this
    · exact h.goto hp rfl ⟨rfl, rfl, rfl, rfl, rfl⟩ (.inr rfl) (.inr (.inl rfl)) (fun _ => rfl) trivial
  | flocked j i =>
    cases hs
    by_cases hname : s.name = some i
    · rw [if_pos hname]
      exact h.goto hp rfl ⟨rfl, rfl, rfl, rfl, rfl⟩ (.inl rfl) (.inr (.inr hname.symm)) nofun trivial
    · rw [if_neg hname]
      exact stay rfl ⟨rfl, rfl, rfl, rfl, rfl⟩ rfl rfl rfl trivial
  | dropping j i =>
    cases hs
    exact h.released (hlock i rfl) rfl (young rfl)
  | locked j i =>
    cases hs
    exact stay rfl ⟨rfl, rfl, rfl, rfl, rfl⟩ rfl rfl rfl trivial
  | clearing j i old =>
    cases j <;> cases old <;> cases hs <;> exact stay rfl ⟨rfl, rfl, rfl, rfl, rfl⟩ rfl rfl rfl trivial
  | building i k =>
    cases hs
    exact stay rfl ⟨rfl, rfl, rfl, rfl, rfl⟩ rfl rfl rfl trivial
  | built i k =>
    simp only at hs
    split at hs <;> cases hs
    · next f hinc =>
      exact stay rfl ⟨rfl, rfl, rfl, rfl, rfl⟩ rfl rfl rfl hinc
    · exact h.change (hsecured i rfl) rfl rfl rfl ⟨hr.lock, hr.secured, rfl⟩ (young rfl)
  | incOpened i k f =>
    cases hs
    exact h.change (hsecured i rfl) rfl rfl rfl ⟨hr.lock, hr.secured, hr.written, update_self ..⟩ (young rfl)
  | written i k f =>
    cases hs
    exact stay rfl ⟨rfl, rfl, rfl, rfl, rfl⟩ rfl rfl rfl ⟨f, hr.written⟩
  | closing i k =>
    cases hs
    exact h.released (hlock i rfl) rfl (fun _ => rfl)
  | unwinding i k =>
    cases hs
    exact stay rfl ⟨rfl, rfl, rfl, rfl, rfl⟩ rfl rfl rfl trivial
  | removingInc i =>
    cases hs
    exact h.change (hsecured i rfl) rfl rfl rfl ⟨hr.lock, hr.secured, trivial⟩ (young rfl)
  | removingName i =>
    cases hs
    exact h.change (hsecured i rfl) rfl rfl rfl ⟨hr.lock, nofun, trivial⟩ (young rfl)
  | releasing i =>
    cases hs
    exact h.released (hlock i rfl) rfl (fun _ => rfl)
  | idle | published | closed | gone => cases hs

theorem Inv.agentFail (h : Inv s) (hs : s.agentFail a = some s') : Inv s' := by
  simp only [State.agentFail] at hs
  split at hs
  all_goals try cases hs
  all_goals next hp =>
    exact h.goto hp rfl ⟨rfl, rfl, rfl, rfl, rfl⟩ (by simp [Agent.lock]) (.inr (.inl rfl))
      (by simp [Agent.past]) trivial

/-- The step of an `Unlink`. -/
theorem Inv.unlinkTo {u : Nat} {q : Unlink} (h : Inv s) (hagents : s'.agents = s.agents)
    (hunlinks : s'.unlinks = update s.unlinks u q) (hflock : s'.flock = s.flock)
    (hq : ∀ b, q.handle = some b → (s.agents b).past = true)
    (hfiles : (s'.name = s.name ∧ s'.inc = s.inc ∧ s'.content = s.content) ∨
      ∀ b, (s.agents b).secured = none) : Inv s' := by
  refine ⟨fun b => ?_, fun v b hv => ?_⟩
  · rw [hagents]
    refine (h.right b).keep (fun _ _ => by rw [hflock]) (fun hne => ?_) (fun hne => ?_)
    · rcases hfiles with hfiles | hfree
      · exact hfiles.1
      · exact absurd (hfree b) hne
    · rcases hfiles with hfiles | hfree
      · exact hfiles.2
      · exact absurd (hfree b) hne
  · rw [hunlinks] at hv
    rw [hagents]
    by_cases hvu : v = u
    · subst hvu
      rw [update_self] at hv
      exact hq b hv
    · rw [update_of_ne hvu] at hv
      exact h.unlinks v b hv

/-- An `Unlink` that nobody is in the way of removes nothing anybody relies on. -/
theorem Inv.unsecured (h : Inv s) (hfree : s.freeFor a = true) (hpast : (s.agents a).past = true)
    (b : Nat) : (s.agents b).secured = none := by
  cases hb : (s.agents b).secured with
  | none => rfl
  | some i =>
    have hname := (h.right b).secured i hb
    have hlock := (h.right b).lock i (lock_of_secured hb)
    have hba : b = a := by
      simpa [State.freeFor, hname, hlock] using hfree
    rw [hba, secured_of_past hpast] at hb
    cases hb

/-- **Every undisturbed step keeps the invariant.** -/
theorem Inv.step {x : Act} (h : Inv s) (hok : undisturbed s x = true) (hs : s.step x = some s') :
    Inv s' := by
  cases x with
  | create a | sweep a =>
    simp only [State.step] at hs
    split_ifs at hs with hp
    cases hs
    exact h.goto hp rfl ⟨rfl, rfl, rfl, rfl, rfl⟩ (.inl rfl) (.inl rfl) nofun trivial
  | step a => exact h.agentStep hs
  | fail a => exact h.agentFail hs
  | close a =>
    simp only [State.step] at hs
    split at hs <;> cases hs
    next hp =>
      exact h.goto hp rfl ⟨rfl, rfl, rfl, rfl, rfl⟩ (.inl rfl) (.inr (.inl rfl)) (fun _ => rfl) trivial
  | exit a =>
    simp only [State.step] at hs
    split at hs <;> cases hs
    · next i hi =>
      exact h.released hi rfl (fun _ => rfl)
    · exact h.goto rfl rfl ⟨rfl, rfl, rfl, rfl, rfl⟩ (.inr rfl) (.inr (.inl rfl)) (fun _ => rfl) trivial
  | unlink u a =>
    simp only [State.step] at hs
    split_ifs at hs
    split at hs <;> cases hs
    · next i k begun hp =>
      -- from here on the handle does not secure its name
      have hmid : Inv (s.move a (.published i k true)) :=
        h.goto hp rfl ⟨rfl, rfl, rfl, rfl, rfl⟩ (.inl rfl) (.inr (.inl rfl)) (fun _ => rfl) trivial
      refine hmid.unlinkTo rfl rfl rfl (fun b hb => ?_) (.inl ⟨rfl, rfl, rfl⟩)
      cases hb
      show (update s.agents a _ a).past = true
      rw [update_self]
      rfl
    · next hp =>
      refine h.unlinkTo rfl rfl rfl (fun b hb => ?_) (.inl ⟨rfl, rfl, rfl⟩)
      cases hb
      rw [hp]
      rfl
    · next hp =>
      refine h.unlinkTo rfl rfl rfl (fun b hb => ?_) (.inl ⟨rfl, rfl, rfl⟩)
      cases hb
      rw [hp]
      rfl
  | unlinkStep u =>
    have hpast := h.unlinks u
    simp only [State.step, State.unlinkStep] at hs
    split at hs
    case h_1 => cases hs
    case h_2 a k hu =>
      cases hs
      exact h.unlinkTo rfl rfl rfl (fun b hb => hpast b (hu ▸ hb)) (.inl ⟨rfl, rfl, rfl⟩)
    case h_3 a k hu =>
      cases hs
      refine h.unlinkTo rfl rfl rfl (fun b hb => hpast b ?_) (.inl ⟨rfl, rfl, rfl⟩)
      rw [hu]
      split at hb
      · exact hb
      · cases hb
    -- the paths go, whoever has published there since: `undisturbed` says nobody has
    case h_4 a hu =>
      cases hs
      have hfree : s.freeFor a = true := by simpa [undisturbed, hu] using hok
      exact h.unlinkTo rfl rfl rfl (fun b hb => hpast b (hu ▸ hb))
        (.inr (h.unsecured hfree (hpast a (hu ▸ rfl))))
    case h_5 a hu =>
      cases hs
      have hfree : s.freeFor a = true := by simpa [undisturbed, hu] using hok
      exact h.unlinkTo rfl rfl rfl nofun
        (.inr (h.unsecured hfree (hpast a (hu ▸ rfl))))

/-! ### Holding a name -/

/-- **A live holder keeps its name.**  In every run in which no `Unlink` removes a file of the name
    while somebody else has it locked: from the moment `createQueue` has published until `Close` or
    `Unlink` of its handle begins, the `.name` path is the file it holds the lock of, the `.inc` file
    holds its incarnation, no other `createQueue` is past `lockName`, and `readName` returns its
    instance. -/
theorem holder_keeps_name (s : State) (hr : machine.Reach (fun s x => undisturbed s x = true) s)
    (a i k : Nat) (hlive : s.agents a = .published i k false) :
    s.name = some i ∧ s.flock i = some a ∧ (∃ f, s.inc = some f ∧ s.content f = some k) ∧
      (∀ b, b ≠ a → (s.agents b).secured = none) ∧ s.readName = some k := by
  have h : Inv s := hr.invariant (I := Inv) Inv.start (fun _ _ _ h hok hs => h.step hok hs)
  have hright := h.right a
  rw [hlive] at hright
  have hname := hright.secured i rfl
  obtain ⟨f, hinc, hcontent⟩ := hright.written
  refine ⟨hname, hright.lock i rfl, ⟨f, hinc, hcontent⟩, fun b hb => ?_, ?_⟩
  · cases hq : (s.agents b).secured with
    | none => rfl
    | some j => exact absurd (h.secured_unique (j := i) hq (hlive ▸ rfl)) hb
  · simp [State.readName, State.current, hname, hinc, hcontent]

/-- The steps of a `createQueue` that finds the name free. -/
def creates (a : Nat) : List Act := .create a :: List.replicate 9 (.step a)

/-- The first handle is unlinked and closed before a second is created. -/
def succession : List Act :=
  creates 0 ++ [Act.unlink 0 0, .unlinkStep 0, .unlinkStep 0, .unlinkStep 0, .unlinkStep 0, .close 0,
    .step 0] ++ creates 1

theorem holder_keeps_name_successor :
    ∃ s, machine.Reach (fun s x => undisturbed s x = true) s ∧ s.agents 1 = .published 2 1 false ∧
      s.readName = some 1 := by
  have hrun : (machine.runOk undisturbed State.start succession).map (fun s => s.agents 1)
      = some (.published 2 1 false) := by decide
  obtain ⟨s, hreach, hs⟩ := Machine.Reach.exists_of_runOk (fun _ _ h => h) hrun
  exact ⟨s, hreach, hs, (holder_keeps_name s hreach 1 2 1 hs).2.2.2.2⟩

/-- The first handle is closed, and its `Unlink` reads the `.inc` file; then a second `createQueue`
    publishes, and the `Unlink` goes on. -/
def lateUnlink : List Act :=
  creates 0 ++ [Act.close 0, .step 0, .unlink 0 0, .unlinkStep 0, .unlinkStep 0] ++ creates 1
    ++ [Act.unlinkStep 0, .unlinkStep 0] ++ creates 2

/-- **A late `Unlink` takes the name of a live holder.**  Afterwards a third `createQueue` succeeds
    while the second handle is open. -/
theorem unlink_takes_name :
    ∃ s, machine.Reach (fun _ _ => True) s ∧ s.agents 1 = .published 0 1 false ∧
      s.agents 2 = .published 2 2 false ∧ s.name = some 2 ∧ s.readName = some 2 := by
  have hrun : (machine.run State.start lateUnlink).map
      (fun s => (s.agents 1, s.agents 2, s.name, s.readName))
      = some (.published 0 1 false, .published 2 2 false, some 2, some 2) := by decide
  obtain ⟨s, hreach, hs⟩ := Machine.Reach.exists_of_run hrun
  simp only [Prod.mk.injEq] at hs
  exact ⟨s, hreach, hs⟩

end GoIpc.Name
