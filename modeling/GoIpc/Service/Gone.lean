import GoIpc.Service.Machine

namespace GoIpc.Service

open GoIpc.Lib
open GoIpc.Ring (Capacity)
open GoIpc.Channel (Fault SendPc RecvPc Move Next Try)

/-!
# Telling the handler that a client went

The serve loop learns that its client went from the next receive, and then closes the channel,
removes its name and calls `Gone`.  It may also learn it from the send of a reply; that error ends
the loop without any of the three.

* `gone_once` — while no reply is sent to a client that has left, a loop that ended because its client
  went has closed, unlinked and called `Gone`, once each and in this order;
* `gone_missed` — a client that leaves with a request of its own still unanswered.
-/

variable {C : Capacity} {s s' : Sys}

/-! ### A send to a client that is there -/

/-- The send has seen no sign that the receiver is gone. -/
def Unaware : SendPc → Prop
  | .check .last | .write .last | .retire .last | .retire (.done (some .peerGone)) => False
  | _ => True

theorem Unaware.of_sent {pc : SendPc} (h : pc.sent = true) : Unaware pc := by
  cases pc with
  | retire n =>
    cases n with
    | done r =>
      cases r with
      | none => trivial
      | some e => cases h
    | retry => cases h
    | last => cases h
  | wakeLoad => trivial
  | wakeSignal => trivial
  | _ => cases h

variable {mv : Move}

/-- A send to a receiver that is there does not report it gone. -/
theorem Unaware.step {α : Type} {size : α → Nat} {m : α} {l l' : Channel.Lane α} {pc : SendPc}
    {r : SendPc ⊕ Option Fault} (h : Unaware pc) (hs : pc.step C size false false m l mv = some (l', r)) :
    r.elim Unaware (· ≠ some .peerGone) := by
  cases pc with
  | check t =>
    cases mv <;> cases hs
    cases t <;> trivial
  | write t =>
    cases mv <;> simp only [SendPc.step, Bool.false_eq_true, false_and, if_false, reduceCtorEq] at hs
    split at hs
    · cases hs
      cases t <;> first | trivial | simp [SendPc.finish]
    · split at hs <;>
      · cases hs
        cases t <;> trivial
  | register =>
    cases mv <;> cases hs
    trivial
  | wait =>
    cases mv with
    | token =>
      obtain ⟨-, hs⟩ := Option.ite_none_left_eq_some.mp hs
      cases hs
      trivial
    | cancel =>
      cases hs
      trivial
    | _ => cases hs
  | retire n =>
    cases mv <;> cases hs
    cases n with
    | retry => trivial
    | last => exact h.elim
    | done r =>
      cases r with
      | none => trivial
      | some e =>
        rintro ⟨⟩
        exact h
  | wakeLoad =>
    cases mv <;> cases hs
    split
    · trivial
    · simp
  | wakeSignal =>
    cases mv <;> cases hs
    simp

/-! ### The end of the serve loop -/

/-- What the session has done of its end, where it stands. -/
def Session.Logged : Session → List Event → Prop
  | .recv _, log | .handling _, log | .close, log => log = []
  | .reply _ pc, log => log = [] ∧ Unaware pc
  | .unlink, log => log = [.closed]
  | .gone, log => log = [.closed, .unlinked]
  | .forget .clientWent, log | .ended .clientWent, log => log = [.closed, .unlinked, .gone]
  | .forget .other, log | .ended .other, log => log = []

/-- The reply that is being sent goes to a client that is there. -/
def present (s : Sys) : Act → Bool
  | .session _ =>
      match s.session with
      | .reply _ pc => pc.sent || !s.left
      | _ => true
  | _ => true

theorem Session.Logged.recv {pc : RecvPc Packet} (hpc : s.session = .recv pc) (h : s.session.Logged s.log)
    (hs : s.sessionStep C mv = some s') : s'.session.Logged s'.log := by
  rw [hpc] at h
  unfold Sys.sessionStep at hs
  rw [hpc] at hs
  dsimp only at hs
  split_ifs at hs
  obtain ⟨⟨l, r⟩, -, rfl⟩ := Option.map_eq_some_iff.mp hs
  dsimp only
  cases r with
  | inl pc => exact h
  | inr r =>
    cases r with
    | ok m => exact h
    | error e => cases e <;> exact h

theorem Session.Logged.reply {m : Packet} {pc : SendPc} (hpc : s.session = .reply m pc)
    (h : s.session.Logged s.log) (hpresent : pc.sent = true ∨ s.left = false)
    (hs : s.sessionStep C mv = some s') : s'.session.Logged s'.log := by
  rw [hpc] at h
  obtain ⟨hlog, hun⟩ := h
  unfold Sys.sessionStep at hs
  rw [hpc] at hs
  dsimp only at hs
  split_ifs at hs
  obtain ⟨⟨l, r⟩, hstep, rfl⟩ := Option.map_eq_some_iff.mp hs
  dsimp only
  rcases hpresent with hsent | hleft
  · -- the reply is in the ring, the rest cannot fail
    cases SendPc.effect hstep with
    | put pc' h0 => exact absurd (h0.symm.trans hsent) (by decide)
    | keep pc' hkeep => exact ⟨hlog, Unaware.of_sent (hkeep.trans hsent)⟩
    | ok => exact hlog
    | fail e h0 => exact absurd (h0.symm.trans hsent) (by decide)
  · rw [hleft] at hstep
    have hgo := hun.step hstep
    cases r with
    | inl pc' => exact ⟨hlog, hgo⟩
    | inr r =>
      cases r with
      | none => exact hlog
      | some e =>
        cases e with
        | peerGone => exact absurd rfl hgo
        | messageTooLarge => exact hlog
        | ctx => exact hlog

theorem Session.Logged.sessionStep (h : s.session.Logged s.log) (hpresent : present s (.session mv) = true)
    (hs : s.sessionStep C mv = some s') : s'.session.Logged s'.log := by
  cases hpc : s.session with
  | recv pc => exact h.recv hpc hs
  | reply m pc =>
    refine h.reply hpc ?_ hs
    simpa [present, hpc] using hpresent
  | handling m =>
    simp only [Sys.sessionStep, hpc] at hs
    cases hs
  | close | unlink | gone =>
    rw [hpc] at h
    simp only [Sys.sessionStep, hpc] at hs
    split at hs <;> cases hs
    exact congrArg (· ++ [_]) h
  | forget c =>
    rw [hpc] at h
    simp only [Sys.sessionStep, hpc] at hs
    split at hs <;> cases hs
    cases c <;> exact h
  | ended c =>
    simp only [Sys.sessionStep, hpc] at hs
    cases hs

/-- A step of the client leaves the session where it is. -/
theorem Sys.clientStep_session (hs : s.clientStep C mv = some s') :
    s'.session = s.session ∧ s'.log = s.log := by
  unfold Sys.clientStep at hs
  split at hs
  · cases hs
  · obtain ⟨⟨l, r⟩, -, rfl⟩ := Option.map_eq_some_iff.mp hs
    dsimp only
    split <;> exact ⟨rfl, rfl⟩
  · obtain ⟨⟨l, r⟩, -, rfl⟩ := Option.map_eq_some_iff.mp hs
    dsimp only
    split <;> exact ⟨rfl, rfl⟩
  · split at hs <;> cases hs
    split <;> exact ⟨rfl, rfl⟩

theorem Sys.call_session {typ : Ring.Word} {payload : List UInt8} (hs : s.call C typ payload = some s') :
    s'.session = s.session ∧ s'.log = s.log := by
  unfold Sys.call at hs
  split_ifs at hs
  · cases hs
    exact ⟨rfl, rfl⟩
  · cases hs
    exact ⟨rfl, rfl⟩
  · split at hs <;> cases hs
    exact ⟨rfl, rfl⟩

/-- **Every step to a client that is there keeps the log.** -/
theorem Session.Logged.step {a : Act} (h : s.session.Logged s.log) (hpresent : present s a = true)
    (hs : s.step C a = some s') : s'.session.Logged s'.log := by
  cases a with
  | call typ payload =>
    obtain ⟨h1, h2⟩ := Sys.call_session hs
    rwa [h1, h2]
  | client mv =>
    obtain ⟨h1, h2⟩ := Sys.clientStep_session hs
    rwa [h1, h2]
  | leave =>
    simp only [Sys.step] at hs
    split at hs <;> cases hs
    exact h
  | session mv => exact h.sessionStep hpresent hs
  | handle out =>
    simp only [Sys.step, Sys.handle] at hs
    split at hs
    · next hpc =>
      rw [hpc] at h
      cases hs
      exact ⟨h, trivial⟩
    · cases hs

/-- **Gone is reported exactly once** for a client that went, after its channel was closed and
    unlinked, in every run that sends no reply to a client that has left. -/
theorem gone_once (h : (machine C).Reach (fun s a => present s a = true) s)
    (hend : s.session = .forget .clientWent ∨ s.session = .ended .clientWent) :
    s.log = [.closed, .unlinked, .gone] ∧ s.log.count .gone = 1 := by
  have hlog : s.session.Logged s.log := h.invariant
    (I := fun s => s.session.Logged s.log) rfl fun _ _ _ hi hok hs => Session.Logged.step hi hok hs
  have heq : s.log = [.closed, .unlinked, .gone] := by
    rcases hend with hend | hend <;>
    · rwa [hend] at hlog
  exact ⟨heq, heq ▸ rfl⟩

/-- The client leaves between calls. -/
def goodbye : List Act :=
  [.leave, .session .step, .session .step, .session .step, .session .step, .session .step]

theorem gone_once_goodbye : ∃ s, (machine .smallest).Reach (fun s a => present s a = true) s ∧
    s.log = [.closed, .unlinked, .gone] ∧ s.log.count .gone = 1 := by
  have hrun : ((machine .smallest).runOk present (machine .smallest).init goodbye).map
      (fun s => match s.session with | .ended .clientWent => true | _ => false) = some true := by
    decide +kernel
  obtain ⟨s, hs, hobs⟩ := Machine.Reach.exists_of_runOk (fun _ _ h => h) hrun
  have hend : s.session = .ended .clientWent := by
    split at hobs
    · assumption
    · cases hobs
  exact ⟨s, hs, gone_once hs (.inr hend)⟩

/-- A call is abandoned and its client leaves; the session then answers the request. -/
def unanswered : List Act :=
  [.call 1 [], .client .step, .client .step, .client .step, .client .step, .client .step,
    .client .step, .client .cancel, .client .step, .leave, .session .step, .session .step,
    .handle (.ok (2, [])), .session .step, .session .step]

/-- **A client that leaves with a request behind is not reported.**  The reply finds it gone, and the
    serve loop ends without a call of `Gone`; the channel is closed and its name stays. -/
theorem gone_missed : ∃ s, (machine .smallest).Reach (fun _ _ => True) s ∧
    s.session = .ended .clientWent ∧ s.left = true ∧ s.log = [] := by
  have hrun : ((machine .smallest).run (machine .smallest).init unanswered).map
      (fun s => ((match s.session with | .ended .clientWent => true | _ => false), s.left, s.log)) =
      some (true, true, []) := by
    decide +kernel
  obtain ⟨s, hs, hobs⟩ := Machine.Reach.exists_of_run hrun
  simp only [Prod.mk.injEq] at hobs
  refine ⟨s, hs, ?_, hobs.2⟩
  have hend := hobs.1
  split at hend
  · assumption
  · cases hend

end GoIpc.Service
