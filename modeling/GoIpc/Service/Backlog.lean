import GoIpc.Service.Calls

namespace GoIpc.Service

open GoIpc.Lib
open GoIpc.Ring (Capacity maxMessageSize)
open GoIpc.Channel (Lane Fault SendPc RecvPc Move)

/-!
# Client and session waiting for each other

A client reads replies only after its own request has been sent.  Calls that are given up leave
requests in one direction and replies in the other, and when both directions are full the client
waits for room in the one while the session waits for room in the other.

* `backlog_deadlock` — a run that ends there;
* `patient_never_deadlocked` — while no call is given up after its request was sent, at most one
  request or reply is on its way, and the client always finds room.
-/

variable {C : Capacity} {s s' : Sys}

/-- The client waits for room for a request, the session for room for a reply, and no token is
    pending for either. -/
def Sys.Deadlocked (C : Capacity) (s : Sys) : Prop :=
  ∃ m m', s.client = .send m .wait ∧ s.session = .reply m' .wait ∧
    s.request.pipe.fits C m.size = false ∧ s.reply.pipe.fits C m'.size = false ∧
    s.request.notFull = 0 ∧ s.reply.notFull = 0

/-- No call is given up after its request was sent. -/
def patient (s : Sys) : Act → Bool
  | .client .cancel =>
      match s.client with
      | .recv _ _ _ => false
      | _ => true
  | _ => true

/-! ### Receiving from a peer that is there -/

/-- The receive has met no error and no sign that the peer is gone. -/
def Hopeful : RecvPc Packet → Prop
  | .read .last | .retire .last | .retire (.done (.error _)) => False
  | _ => True

variable {mv : Move}

/-- A receive from a peer that is there, whose context does not end, returns a message. -/
theorem Hopeful.step {l l' : Lane Packet} {pc : RecvPc Packet} {r : RecvPc Packet ⊕ Except Fault Packet}
    (h : Hopeful pc) (hmv : mv ≠ .cancel) (hs : pc.step C Packet.size false l mv = some (l', r)) :
    r.elim Hopeful fun r => ∃ m, r = .ok m := by
  cases pc with
  | read t =>
    cases mv <;> simp only [RecvPc.step, reduceCtorEq] at hs
    split at hs <;> cases hs
    · trivial
    · cases t <;> trivial
  | wakeLoad t m =>
    cases mv <;> cases hs
    split
    · trivial
    · cases t <;> first | trivial | exact ⟨m, rfl⟩
  | wakeSignal t m waiters =>
    cases mv <;> cases hs
    cases t <;> first | trivial | exact ⟨m, rfl⟩
  | register =>
    cases mv <;> cases hs
    trivial
  | wait =>
    cases mv with
    | cancel => exact absurd rfl hmv
    | token =>
      obtain ⟨-, hs⟩ := Option.ite_none_left_eq_some.mp hs
      cases hs
      trivial
    | _ => cases hs
  | retire n =>
    cases mv <;> cases hs
    cases n with
    | retry => trivial
    | last => exact h.elim
    | done r =>
      cases r with
      | ok m => exact ⟨m, rfl⟩
      | error e => exact h.elim

/-! ### What is on its way -/

/-- The session has left its loop and answers nothing any more. -/
def Session.over : Session → Bool
  | .recv _ | .handling _ | .reply _ _ => false
  | _ => true

/-- A request the session has taken and not yet answered. -/
def Session.holding : Session → Nat
  | .recv pc => pc.holds.toList.length
  | .handling _ => 1
  | .reply _ pc => if pc.sent then 0 else 1
  | _ => 0

/-- A reply the client has taken and not yet looked at. -/
def Client.holding : Client → Nat
  | .recv _ _ pc => pc.holds.toList.length
  | .got _ _ _ => 1
  | _ => 0

/-- The client's request is sent and not answered. -/
def Client.waiting : Client → Nat
  | .send _ pc => if pc.sent then 1 else 0
  | .recv _ _ _ | .got _ _ _ => 1
  | .idle => 0

/-- Requests and replies on their way. -/
def Sys.onTheWay (s : Sys) : Nat :=
  s.request.queue.length + s.session.holding + s.reply.queue.length + s.client.holding

/-- What patience keeps. -/
structure Patient (C : Capacity) (s : Sys) : Prop where
  request : s.request.Ok C Packet.size
  size : ∀ m pc, s.client = .send m pc → m.size ≤ maxMessageSize C
  shut : s.shut = true → s.session.over = true
  few : s.session.over = false → s.onTheWay ≤ s.client.waiting
  hopeful : s.session.over = false → ∀ call seq pc, s.client = .recv call seq pc → Hopeful pc

theorem Patient.start : Patient C Sys.start where
  request := rfl
  size _ _ h := by cases h
  shut h := by cases h
  few _ := le_rfl
  hopeful _ _ _ _ h := by cases h

/-! ### Steps -/

theorem Patient.call {typ : Ring.Word} {payload : List UInt8} (h : Patient C s)
    (hs : s.call C typ payload = some s') : Patient C s' := by
  unfold Sys.call at hs
  split at hs
  · cases hs
    exact ⟨h.request, h.size, h.shut, h.few, h.hopeful⟩
  · split at hs
    · cases hs
      exact ⟨h.request, h.size, h.shut, h.few, h.hopeful⟩
    · next hlen =>
      split at hs <;> cases hs
      next hpc =>
        refine ⟨h.request, ?_, h.shut, fun hover => ?_, nofun⟩
        · intro m pc hc
          cases hc
          have hsize : Packet.size ⟨typ, frame ((s.seq + 1) % 2 ^ 64) payload, s.requests.length + 1⟩ =
              serviceSeqSize + payload.length := length_frame _ _
          have := C.min
          rw [hsize]
          rw [Ring.maxMessageSize_eq] at hlen ⊢
          unfold serviceSeqSize at hlen ⊢
          omega
        · have hfew := h.few hover
          unfold Sys.onTheWay at hfew ⊢
          rwa [hpc] at hfew

theorem Patient.clientSend {m : Packet} {pc : SendPc} (h : Patient C s) (hpc : s.client = .send m pc)
    (hs : s.clientStep C mv = some s') : Patient C s' := by
  have hfew := h.few
  unfold Sys.onTheWay at hfew
  rw [hpc] at hfew
  simp only [Sys.clientStep, hpc] at hs
  obtain ⟨⟨l, r⟩, hstep, rfl⟩ := Option.map_eq_some_iff.mp hs
  dsimp only
  have heffect := SendPc.effect hstep
  have hok := h.request.send heffect
  have hsize := h.size m pc hpc
  cases heffect with
  | put pc' h0 h1 _ hfits hqueue hpipe =>
    refine ⟨hok, fun x px hc => by cases hc; exact hsize, h.shut, fun hover => ?_,
      by simp⟩
    have := hfew hover
    unfold Sys.onTheWay
    rw [hqueue]
    simp only [Client.holding, Client.waiting, h0, h1, List.length_append, List.length_singleton,
      Bool.false_eq_true, if_false, if_true] at this ⊢
    omega
  | keep pc' hsent hqueue hpipe =>
    refine ⟨hok, fun x px hc => by cases hc; exact hsize, h.shut, fun hover => ?_,
      by simp⟩
    have := hfew hover
    unfold Sys.onTheWay
    rw [hqueue]
    simp only [Client.holding, Client.waiting, hsent] at this ⊢
    exact this
  | ok h1 hqueue hpipe =>
    refine ⟨hok, by simp, h.shut, fun hover => ?_,
      fun _ _ _ _ hc => by cases hc; trivial⟩
    have := hfew hover
    unfold Sys.onTheWay
    rw [hqueue]
    simp only [Client.holding, Client.waiting, h1, if_true] at this
    exact this
  | fail e h0 hqueue hpipe =>
    refine ⟨hok, fun x px hc => (by cases hc), h.shut, fun hover => ?_,
      fun _ _ _ _ hc => by cases hc⟩
    have := hfew hover
    unfold Sys.onTheWay
    simp only [Sys.finish, hqueue]
    simp only [Client.holding, Client.waiting, h0, Bool.false_eq_true, if_false] at this
    exact this

theorem Patient.clientRecv {call seq : Nat} {pc : RecvPc Packet} (h : Patient C s)
    (hpc : s.client = .recv call seq pc) (hmv : mv ≠ .cancel) (hs : s.clientStep C mv = some s') :
    Patient C s' := by
  have hfew := h.few
  unfold Sys.onTheWay at hfew
  rw [hpc] at hfew
  simp only [Sys.clientStep, hpc] at hs
  obtain ⟨⟨l, r⟩, hstep, rfl⟩ := Option.map_eq_some_iff.mp hs
  dsimp only
  -- while the session is in its loop, the receive of the client does not fail
  have hgo : s.session.over = false → r.elim Hopeful fun r => ∃ m, r = .ok m := by
    intro hover
    have hshut : s.shut = false := by
      cases hsh : s.shut with
      | false => rfl
      | true => exact absurd ((h.shut hsh).symm.trans hover) (by decide)
    rw [hshut] at hstep
    exact (h.hopeful hover call seq pc hpc).step hmv hstep
  cases RecvPc.effect hstep with
  | take m pc' h0 h1 hqueue hpipe =>
    refine ⟨h.request, by simp, h.shut, fun hover => ?_,
      fun hover _ _ px hc => by cases hc; exact hgo hover⟩
    have := hfew hover
    rw [hqueue] at this
    unfold Sys.onTheWay
    simp only [Client.holding, Client.waiting, h0, h1, Option.toList_none, Option.toList_some,
      List.length_cons, List.length_nil] at this ⊢
    omega
  | keep pc' hkeep hqueue hpipe =>
    refine ⟨h.request, by simp, h.shut, fun hover => ?_,
      fun hover _ _ px hc => by cases hc; exact hgo hover⟩
    have := hfew hover
    unfold Sys.onTheWay
    rw [hqueue]
    simp only [Client.holding, Client.waiting, hkeep] at this ⊢
    exact this
  | ok m h1 hqueue hpipe =>
    refine ⟨h.request, by simp, h.shut, fun hover => ?_,
      by simp⟩
    have := hfew hover
    unfold Sys.onTheWay
    rw [hqueue]
    simp only [Client.holding, Client.waiting, h1, Option.toList_some, List.length_singleton] at this ⊢
    exact this
  | fail e h0 hqueue hpipe =>
    refine ⟨h.request, fun x px hc => (by cases hc), h.shut,
      fun hover => (by obtain ⟨_, hm⟩ := hgo hover; cases hm), fun _ _ _ _ hc => by cases hc⟩

theorem Patient.clientStep (h : Patient C s) (hpatient : patient s (.client mv) = true)
    (hs : s.clientStep C mv = some s') : Patient C s' := by
  cases hpc : s.client with
  | idle =>
    simp only [Sys.clientStep, hpc] at hs
    cases hs
  | send m pc => exact h.clientSend hpc hs
  | recv call seq pc =>
    refine h.clientRecv hpc ?_ hs
    rintro rfl
    simp [patient, hpc] at hpatient
  | got call seq m =>
    have hfew := h.few
    unfold Sys.onTheWay at hfew
    rw [hpc] at hfew
    simp only [Sys.clientStep, hpc] at hs
    split_ifs at hs
    cases hs
    simp only [Client.holding, Client.waiting] at hfew
    split
    · refine ⟨h.request, fun x px hc => (by cases hc), h.shut, fun hover => ?_,
        fun _ _ _ _ hc => by cases hc⟩
      have := hfew hover
      show s.request.queue.length + s.session.holding + s.reply.queue.length + 0 ≤ 0
      omega
    · refine ⟨h.request, by simp, h.shut, fun hover => ?_,
        fun _ _ _ _ hc => by cases hc; trivial⟩
      have := hfew hover
      show s.request.queue.length + s.session.holding + s.reply.queue.length + 0 ≤ 1
      omega

/-- A session that has left its loop needs nothing more. -/
theorem Patient.of_over (h : Patient C s) (hrequest : s'.request.Ok C Packet.size)
    (hclient : s'.client = s.client) (hover : s'.session.over = true) : Patient C s' := by
  refine ⟨hrequest, ?_, fun _ => hover, fun hno => ?_, fun hno => ?_⟩
  · rw [hclient]
    exact h.size
  · exact absurd (hover.symm.trans hno) (by decide)
  · exact absurd (hover.symm.trans hno) (by decide)

theorem Patient.sessionRecv {pc : RecvPc Packet} (h : Patient C s) (hpc : s.session = .recv pc)
    (hs : s.sessionStep C mv = some s') : Patient C s' := by
  have hfew := h.few (hpc ▸ rfl)
  have hshut : s.shut = true → False := fun hsh => by
    have := h.shut hsh
    rw [hpc] at this
    cases this
  have hhope := h.hopeful (hpc ▸ rfl)
  unfold Sys.onTheWay at hfew
  rw [hpc] at hfew
  simp only [Sys.sessionStep, hpc] at hs
  split at hs
  · cases hs
  obtain ⟨⟨l, r⟩, hstep, rfl⟩ := Option.map_eq_some_iff.mp hs
  dsimp only
  have heffect := RecvPc.effect hstep
  have hok := h.request.recv heffect
  cases heffect with
  | take m pc' h0 h1 hqueue hpipe =>
    refine ⟨hok, h.size, fun hsh => (hshut hsh).elim, fun _ => ?_, fun _ => hhope⟩
    rw [hqueue] at hfew
    unfold Sys.onTheWay
    simp only [Session.holding, h0, h1, Option.toList_none, Option.toList_some, List.length_cons,
      List.length_nil] at hfew ⊢
    omega
  | keep pc' hkeep hqueue hpipe =>
    refine ⟨hok, h.size, fun hsh => (hshut hsh).elim, fun _ => ?_, fun _ => hhope⟩
    unfold Sys.onTheWay
    rw [hqueue]
    simp only [Session.holding, hkeep] at hfew ⊢
    exact hfew
  | ok m h1 hqueue hpipe =>
    refine ⟨hok, h.size, fun hsh => (hshut hsh).elim, fun _ => ?_, fun _ => hhope⟩
    unfold Sys.onTheWay
    rw [hqueue]
    simp only [Session.holding, h1, Option.toList_some, List.length_singleton] at hfew ⊢
    exact hfew
  | fail e h0 hqueue hpipe => cases e <;> exact h.of_over hok rfl rfl

theorem Patient.sessionReply {m : Packet} {pc : SendPc} (h : Patient C s) (hpc : s.session = .reply m pc)
    (hs : s.sessionStep C mv = some s') : Patient C s' := by
  have hfew := h.few (hpc ▸ rfl)
  have hshut : s.shut = true → False := fun hsh => by
    have := h.shut hsh
    rw [hpc] at this
    cases this
  have hhope := h.hopeful (hpc ▸ rfl)
  unfold Sys.onTheWay at hfew
  rw [hpc] at hfew
  simp only [Sys.sessionStep, hpc] at hs
  split at hs
  · cases hs
  obtain ⟨⟨l, r⟩, hstep, rfl⟩ := Option.map_eq_some_iff.mp hs
  dsimp only
  cases SendPc.effect hstep with
  | put pc' h0 h1 _ hfits hqueue hpipe =>
    refine ⟨h.request, h.size, fun hsh => (hshut hsh).elim, fun _ => ?_, fun _ => hhope⟩
    unfold Sys.onTheWay
    rw [hqueue]
    simp only [Session.holding, h0, h1, List.length_append, List.length_singleton,
      Bool.false_eq_true, if_false, if_true] at hfew ⊢
    omega
  | keep pc' hsent hqueue hpipe =>
    refine ⟨h.request, h.size, fun hsh => (hshut hsh).elim, fun _ => ?_, fun _ => hhope⟩
    unfold Sys.onTheWay
    rw [hqueue]
    simp only [Session.holding, hsent] at hfew ⊢
    exact hfew
  | ok h1 hqueue hpipe =>
    refine ⟨h.request, h.size, fun hsh => (hshut hsh).elim, fun _ => ?_, fun _ => hhope⟩
    unfold Sys.onTheWay
    rw [hqueue]
    simp only [Session.holding, h1, if_true] at hfew
    exact hfew
  | fail e h0 hqueue hpipe => exact h.of_over h.request rfl rfl

theorem Patient.sessionStep (h : Patient C s) (hs : s.sessionStep C mv = some s') : Patient C s' := by
  cases hpc : s.session with
  | recv pc => exact h.sessionRecv hpc hs
  | reply m pc => exact h.sessionReply hpc hs
  | handling m =>
    simp only [Sys.sessionStep, hpc] at hs
    cases hs
  | close | unlink | gone | forget c =>
    simp only [Sys.sessionStep, hpc] at hs
    split_ifs at hs
    cases hs
    exact h.of_over h.request rfl rfl
  | ended c =>
    simp only [Sys.sessionStep, hpc] at hs
    cases hs

/-- **Every patient step keeps at most one request or reply on its way.** -/
theorem Patient.step {a : Act} (h : Patient C s) (hpatient : patient s a = true)
    (hs : s.step C a = some s') : Patient C s' := by
  cases a with
  | call typ payload => exact h.call hs
  | client mv => exact h.clientStep hpatient hs
  | leave =>
    simp only [Sys.step] at hs
    split at hs <;> cases hs
    exact ⟨h.request, h.size, h.shut, h.few, h.hopeful⟩
  | session mv => exact h.sessionStep hs
  | handle out =>
    simp only [Sys.step, Sys.handle] at hs
    split at hs <;> cases hs
    next m hpc =>
      have hno : s.session.over = false := hpc ▸ rfl
      refine ⟨h.request, h.size, fun hsh => ?_, fun _ => ?_, fun _ => h.hopeful hno⟩
      · exact absurd ((h.shut hsh).symm.trans hno) (by decide)
      · have hfew := h.few hno
        unfold Sys.onTheWay at hfew
        rwa [hpc] at hfew

/-- A patient client finds room for its request while the session is in its loop. -/
theorem Patient.finds_room (h : Patient C s) (hover : s.session.over = false) {m : Packet}
    {pc : SendPc} (hclient : s.client = .send m pc) (hsent : pc.sent = false) :
    s.request.pipe.fits C m.size = true := by
  have hfew := h.few hover
  unfold Sys.onTheWay at hfew
  rw [hclient] at hfew
  simp only [Client.waiting, hsent, Bool.false_eq_true, if_false] at hfew
  refine h.request.fits_of_empty ?_ (h.size m pc hclient)
  exact List.eq_nil_of_length_eq_zero (by omega)

/-- **A patient client and its session never wait for each other.** -/
theorem patient_never_deadlocked (h : (machine C).Reach (fun s a => patient s a = true) s) :
    ¬ s.Deadlocked C := by
  rintro ⟨m, m', hclient, hsession, hfull, -⟩
  have hinv : Patient C s := h.invariant .start fun _ _ _ hi hok hs => hi.step hok hs
  have hroom := hinv.finds_room (hsession ▸ rfl) hclient rfl
  exact absurd (hfull.symm.trans hroom) (by decide)

/-- A call that waits for its answer. -/
def awaited : List Act :=
  [.call 1 [], .client .step, .client .step, .client .step, .client .step, .client .step,
    .client .step, .session .step, .session .step, .handle (.ok (2, [5])), .session .step,
    .session .step, .session .step, .session .step, .client .token, .client .step, .client .step,
    .client .step, .client .step]

theorem patient_never_deadlocked_awaited : ∃ s,
    (machine .smallest).Reach (fun s a => patient s a = true) s ∧
      s.results = [(1, .reply 2 [5])] ∧ ¬ s.Deadlocked .smallest := by
  have hrun : ((machine .smallest).runOk patient (machine .smallest).init awaited).map Sys.results =
      some [(1, .reply 2 [5])] := by
    decide +kernel
  obtain ⟨s, hs, hobs⟩ := Machine.Reach.exists_of_runOk (fun _ _ h => h) hrun
  exact ⟨s, hs, hobs, patient_never_deadlocked hs⟩

/-- The session answers a request with a reply of the maximum size. -/
def answered : List Act :=
  [.session .step, .session .step, .handle (.ok (2, List.replicate 2032 0)), .session .step,
    .session .step, .session .step]

/-- Five calls fill the request lane and are given up.  The session answers the first; behind the
    hello and this reply the second does not fit before the end of the lap, and the session waits
    with it; a further call waits for room. -/
def faceToFace : List Act :=
  givenUp [] ++ givenUp [] ++ givenUp [] ++ givenUp (List.replicate 2032 0) ++
    givenUp (List.replicate 1984 0) ++ answered ++
    [Act.session .step, .session .step, .handle (.ok (2, List.replicate 2032 0)), .session .step,
      .session .step, .session .step, .session .step, .session .step] ++
    [Act.call 1 (List.replicate 2032 0), .client .step, .client .step, .client .step, .client .step,
      .client .step]

/-- What a deadlock shows. -/
def deadlocked (s : Sys) : Bool :=
  match s.client, s.session with
  | .send m .wait, .reply m' .wait =>
      !s.request.pipe.fits .smallest m.size && !s.reply.pipe.fits .smallest m'.size &&
        (s.request.notFull == 0) && (s.reply.notFull == 0)
  | _, _ => false

/-- **Abandoned calls fill both directions**, and client and session wait for each other. -/
theorem backlog_deadlock : ∃ s, (machine .smallest).Reach (fun _ _ => True) s ∧
    s.Deadlocked .smallest := by
  have hrun : ((machine .smallest).run (machine .smallest).init faceToFace).map deadlocked =
      some true := by
    decide +kernel
  obtain ⟨s, hs, hobs⟩ := Machine.Reach.exists_of_run hrun
  refine ⟨s, hs, ?_⟩
  unfold deadlocked at hobs
  split at hobs
  · next m m' hclient hsession =>
    simp only [Bool.and_eq_true, Bool.not_eq_true', beq_iff_eq] at hobs
    exact ⟨m, m', hclient, hsession, hobs.1.1.1, hobs.1.1.2, hobs.1.2, hobs.2⟩
  · cases hobs

end GoIpc.Service
