import GoIpc.Service.Gone
import Mathlib.Data.List.Nodup

namespace GoIpc.Service

open GoIpc.Lib
open GoIpc.Ring (Capacity Word maxMessageSize)
open GoIpc.Channel (Lane Fault SendPc RecvPc Move)

/-!
# Calls and replies match

A call takes the next sequence number, whatever becomes of its send, and skips the replies with
smaller numbers: those of calls that were given up.  The invariant says of every packet, wherever it
is, which call it belongs to, and orders the requests: handled ones, the one the session holds, those
in the ring, and the one the client has still to put in, with increasing numbers.

* `Inv` — the invariant;
* `calls_match` — every answer is the handler's result for the call's own request, no call finds a
  reply it cannot place, and no reply is ahead of the client;
* `wrapped_seq` — sequence numbers are 64 bits wide: after `2 ^ 64` calls an old reply can be ahead.
-/

variable {C : Capacity} {s s' : Sys}

/-! ### Requests and replies -/

/-- The reply to call `seq` when the handler returned `out`. -/
def replyOf (seq : Nat) : Handled → Word × List UInt8
  | .error err => (typeServiceError, frame seq err)
  | .ok (replyTyp, reply) =>
      if replyTyp ≥ serviceReservedMin then
        (typeServiceError,
          frame seq (text ("ipc: reply type " ++ toString replyTyp.toNat ++ " is reserved")))
      else (replyTyp, frame seq reply)

/-- What a call returns when the handler returned `out`. -/
def resultOf : Handled → CallResult
  | .error err => .callError err
  | .ok (replyTyp, reply) =>
      if replyTyp ≥ serviceReservedMin then
        .callError (text ("ipc: reply type " ++ toString replyTyp.toNat ++ " is reserved"))
      else .reply replyTyp reply

theorem length_frame (seq : Nat) (payload : List UInt8) :
    (frame seq payload).length = serviceSeqSize + payload.length := by
  simp [frame]

theorem drop_frame (seq : Nat) (payload : List UInt8) :
    (frame seq payload).drop serviceSeqSize = payload :=
  List.drop_left' (length_leBytes _ _)

/-- A sequence number below `2 ^ 64` is read back. -/
theorem seqOf_frame {seq : Nat} (h : seq < 2 ^ 64) (payload : List UInt8) :
    seqOf (frame seq payload) = seq := by
  rw [seqOf, frame, List.take_left' (length_leBytes _ _), leNat_leBytes]
  exact Nat.mod_eq_of_lt h

/-- Every reply is a frame with the sequence number of its request. -/
theorem replyOf_frame (seq : Nat) (out : Handled) : ∃ body, (replyOf seq out).2 = frame seq body := by
  unfold replyOf
  split
  · exact ⟨_, rfl⟩
  · split <;> exact ⟨_, rfl⟩

theorem judge_replyOf {seq : Nat} (h : seq < 2 ^ 64) (out : Handled) :
    judge seq (replyOf seq out).1 (replyOf seq out).2 = some (resultOf out) := by
  obtain ⟨body, hbody⟩ := replyOf_frame seq out
  have hlen : ¬ (replyOf seq out).2.length < serviceSeqSize := by
    rw [hbody, length_frame]
    omega
  have hseq : seqOf (replyOf seq out).2 = seq := by rw [hbody, seqOf_frame h]
  unfold judge
  rw [if_neg hlen, hseq, if_neg (lt_irrefl seq), if_neg (lt_irrefl seq)]
  cases out with
  | error err => simp [replyOf, resultOf, drop_frame]
  | ok r =>
    obtain ⟨typ, reply⟩ := r
    by_cases hres : typ ≥ serviceReservedMin
    · simp [replyOf, resultOf, hres, drop_frame]
    · have hne : typ ≠ typeServiceError := by
        rintro rfl
        exact hres (by decide)
      simp [replyOf, resultOf, hres, hne, drop_frame]

/-- A reply to an earlier call is skipped. -/
theorem judge_stale {seq call : Nat} (hlt : call < seq) (h : seq < 2 ^ 64) (typ : Word) (out : Handled) :
    judge seq typ (replyOf call out).2 = none := by
  obtain ⟨body, hbody⟩ := replyOf_frame call out
  rw [hbody, judge, if_neg (by rw [length_frame]; omega), seqOf_frame (by omega), if_pos hlt]

/-- Call `k` was made with this type and payload. -/
def Made (reqs : List (Word × List UInt8)) (k : Nat) (typ : Word) (payload : List UInt8) : Prop :=
  0 < k ∧ reqs[k - 1]? = some (typ, payload)

variable {typ : Word} {mv : Move}

theorem Made.le {reqs : List (Word × List UInt8)} {k : Nat} {payload : List UInt8}
    (h : Made reqs k typ payload) : k ≤ reqs.length := by
  have := (List.getElem?_eq_some_iff.mp h.2).1
  omega

theorem Made.mono {reqs reqs' : List (Word × List UInt8)} {k : Nat} {payload : List UInt8}
    (h : Made reqs k typ payload) (hr : reqs <+: reqs') : Made reqs' k typ payload := by
  obtain ⟨more, rfl⟩ := hr
  refine ⟨h.1, ?_⟩
  rw [List.getElem?_append_left (by have := h.le; have := h.1; omega)]
  exact h.2

theorem made_last (reqs : List (Word × List UInt8)) (typ : Word) (payload : List UInt8) :
    Made (reqs ++ [(typ, payload)]) (reqs.length + 1) typ payload := by
  refine ⟨Nat.succ_pos _, ?_⟩
  simp

section Packets

variable (reqs : List (Word × List UInt8)) (handled : List (Nat × Word × List UInt8 × Handled))

/-- The packet is the request of its call. -/
def IsRequest (m : Packet) : Prop :=
  ∃ payload, Made reqs m.call m.typ payload ∧ m.bytes = frame m.call payload ∧
    m.typ < serviceReservedMin

/-- The packet is the reply to its call: the handler ran on the call's own request. -/
def IsReply (m : Packet) : Prop :=
  ∃ typ payload out, Made reqs m.call typ payload ∧ (m.call, typ, payload, out) ∈ handled ∧
    (m.typ, m.bytes) = replyOf m.call out

/-- What call number `x.1` returned is the handler's result for its own request. -/
def Good (x : Nat × CallResult) : Prop :=
  match x.2 with
  | .corrupt => False
  | .reply _ _ | .callError _ => ∃ typ payload out, Made reqs x.1 typ payload ∧
      (x.1, typ, payload, out) ∈ handled ∧ x.2 = resultOf out
  | .reservedType | .fail _ => True

end Packets

section Grow

variable {reqs reqs' : List (Word × List UInt8)}
  {handled handled' : List (Nat × Word × List UInt8 × Handled)}

theorem IsRequest.mono {m : Packet} (h : IsRequest reqs m) (hr : reqs <+: reqs') :
    IsRequest reqs' m := by
  obtain ⟨payload, hmade, hrest⟩ := h
  exact ⟨payload, hmade.mono hr, hrest⟩

theorem IsReply.mono {m : Packet} (h : IsReply reqs handled m) (hr : reqs <+: reqs')
    (hh : handled ⊆ handled') : IsReply reqs' handled' m := by
  obtain ⟨typ, payload, out, hmade, hmem, heq⟩ := h
  exact ⟨typ, payload, out, hmade.mono hr, hh hmem, heq⟩

theorem Good.mono {x : Nat × CallResult} (h : Good reqs handled x) (hr : reqs <+: reqs')
    (hh : handled ⊆ handled') : Good reqs' handled' x := by
  obtain ⟨k, r⟩ := x
  cases r with
  | corrupt => exact h
  | reservedType => trivial
  | fail e => trivial
  | reply t p | callError t =>
    obtain ⟨typ, payload, out, hmade, hmem, heq⟩ := h
    exact ⟨typ, payload, out, hmade.mono hr, hh hmem, heq⟩

theorem good_resultOf {k : Nat} {payload : List UInt8} {out : Handled} (hmade : Made reqs k typ payload)
    (hmem : (k, typ, payload, out) ∈ handled) : Good reqs handled (k, resultOf out) := by
  have hwit : ∃ typ payload out', Made reqs k typ payload ∧ (k, typ, payload, out') ∈ handled ∧
      resultOf out = resultOf out' := ⟨typ, payload, out, hmade, hmem, rfl⟩
  unfold Good
  cases hr : resultOf out with
  | reply t p | callError t =>
    rwa [hr] at hwit
  | _ =>
    unfold resultOf at hr
    split at hr
    · cases hr
    · split at hr <;> cases hr

end Grow

/-! ### The invariant -/

section Places

variable (reqs : List (Word × List UInt8)) (handled : List (Nat × Word × List UInt8 × Handled))

/-- What the running call knows. -/
def Client.Ok : Client → Prop
  | .idle => True
  | .send m _ => m.call = reqs.length ∧ IsRequest reqs m
  | .recv call seq pc => call = reqs.length ∧ seq = reqs.length ∧
      ∀ m, pc.holds = some m → IsReply reqs handled m
  | .got call seq m => call = reqs.length ∧ seq = reqs.length ∧ IsReply reqs handled m

/-- What the session holds. -/
def Session.Ok : Session → Prop
  | .recv pc => ∀ m, pc.holds = some m → IsRequest reqs m
  | .handling m => IsRequest reqs m
  | .reply m _ => IsReply reqs handled m
  | _ => True

variable {reqs handled}

theorem Client.Ok.mono {handled' : List (Nat × Word × List UInt8 × Handled)} {c : Client}
    (h : c.Ok reqs handled) (hh : handled ⊆ handled') : c.Ok reqs handled' := by
  cases c with
  | idle => trivial
  | send m pc => exact h
  | recv call seq pc => exact ⟨h.1, h.2.1, fun m hm => (h.2.2 m hm).mono (List.prefix_refl _) hh⟩
  | got call seq m => exact ⟨h.1, h.2.1, h.2.2.mono (List.prefix_refl _) hh⟩

theorem Session.Ok.mono {reqs' : List (Word × List UInt8)} {c : Session} (h : c.Ok reqs handled)
    (hr : reqs <+: reqs') : c.Ok reqs' handled := by
  cases c with
  | recv pc => exact fun m hm => (h m hm).mono hr
  | handling m => exact IsRequest.mono h hr
  | reply m pc => exact IsReply.mono h hr (List.Subset.refl _)
  | _ => trivial

end Places

/-- The call whose request the session has taken and not yet passed to the handler. -/
def Session.current : Session → List Nat
  | .recv pc => (pc.holds.map Packet.call).toList
  | .handling m => [m.call]
  | _ => []

/-- The running call has still to put its request into the ring. -/
def Client.unsent : Client → Bool
  | .send _ pc => !pc.sent
  | _ => false

/-- The calls whose requests have been sent, in order. -/
def Sys.line (s : Sys) : List Nat :=
  s.handled.map Prod.fst ++ s.session.current ++ s.request.queue.map Packet.call

structure Inv (s : Sys) : Prop where
  seq : s.seq = s.requests.length
  client : s.client.Ok s.requests s.handled
  request : ∀ m ∈ s.request.queue, IsRequest s.requests m
  session : s.session.Ok s.requests s.handled
  reply : ∀ m ∈ s.reply.queue, IsReply s.requests s.handled m
  order : s.line.Pairwise (· < ·)
  bound : ∀ k ∈ s.line, k + s.client.unsent.toNat ≤ s.requests.length
  results : ∀ x ∈ s.results, Good s.requests s.handled x

theorem Inv.start : Inv Sys.start where
  seq := rfl
  client := trivial
  request _ hm := (List.not_mem_nil hm).elim
  session _ hm := by cases hm
  reply _ hm := (List.not_mem_nil hm).elim
  order := .nil
  bound _ hk := (List.not_mem_nil hk).elim
  results _ hx := (List.not_mem_nil hx).elim

theorem forall_mem_append_singleton {β : Type} {P : β → Prop} {l : List β} {x : β}
    (hl : ∀ y ∈ l, P y) (hx : P x) : ∀ y ∈ l ++ [x], P y := by
  intro y hy
  rcases List.mem_append.mp hy with hy | hy
  · exact hl y hy
  · rwa [List.mem_singleton.mp hy]

/-! ### Steps of the client -/

theorem Inv.call {payload : List UInt8} (h : Inv s) (hs : s.call C typ payload = some s')
    (hn : s'.requests.length < 2 ^ 64) : Inv s' := by
  unfold Sys.call at hs
  split at hs
  · cases hs
    exact { h with results := forall_mem_append_singleton h.results trivial }
  · next htyp =>
    split at hs
    · cases hs
      exact { h with results := forall_mem_append_singleton h.results trivial }
    · split at hs <;> cases hs
      next hpc =>
        have hseq : (s.seq + 1) % 2 ^ 64 = s.requests.length + 1 := by
          rw [h.seq]
          exact Nat.mod_eq_of_lt (by simpa using hn)
        have hgrow : s.requests <+: s.requests ++ [(typ, payload)] := List.prefix_append _ _
        refine ⟨?_, ?_, ?_, h.session.mono hgrow, ?_, h.order, ?_, ?_⟩
        · show (s.seq + 1) % 2 ^ 64 = (s.requests ++ [_]).length
          rw [hseq]
          simp
        · refine ⟨by simp, payload, made_last _ _ _, ?_, BitVec.not_le.mp htyp⟩
          rw [hseq]
        · exact fun m hm => (h.request m hm).mono hgrow
        · exact fun m hm => (h.reply m hm).mono hgrow (List.Subset.refl _)
        · intro k hk
          have hbound := h.bound k hk
          rw [hpc] at hbound
          simp only [Client.unsent, SendPc.sent, Bool.not_false, Bool.toNat_true, Bool.toNat_false,
            List.length_append, List.length_singleton] at hbound ⊢
          omega
        · exact fun x hx => (h.results x hx).mono hgrow (List.Subset.refl _)

/-- The running call returns. -/
theorem Inv.finish (h : Inv s) {r : CallResult}
    (hr : Good s.requests s.handled (s.requests.length, r)) : Inv (s.finish r) where
  seq := h.seq
  client := trivial
  request := h.request
  session := h.session
  reply := h.reply
  order := h.order
  bound k hk := by
    have := h.bound k hk
    show k + 0 ≤ s.requests.length
    omega
  results := forall_mem_append_singleton h.results hr

/-- What the invariant does not speak about may change. -/
theorem Inv.of_eq (h : Inv s) (hseq : s'.seq = s.seq) (hclient : s'.client = s.client)
    (hrequest : s'.request.queue = s.request.queue) (hsession : s'.session = s.session)
    (hreply : s'.reply.queue = s.reply.queue) (hrequests : s'.requests = s.requests)
    (hhandled : s'.handled = s.handled) (hresults : s'.results = s.results) : Inv s' := by
  have hline : s'.line = s.line := by
    unfold Sys.line
    rw [hhandled, hsession, hrequest]
  refine ⟨?_, ?_, ?_, ?_, ?_, ?_, ?_, ?_⟩
  · rw [hseq, hrequests]
    exact h.seq
  · rw [hclient, hrequests, hhandled]
    exact h.client
  · rw [hrequest, hrequests]
    exact h.request
  · rw [hsession, hrequests, hhandled]
    exact h.session
  · rw [hreply, hrequests, hhandled]
    exact h.reply
  · rw [hline]
    exact h.order
  · rw [hline, hclient, hrequests]
    exact h.bound
  · rw [hresults, hrequests, hhandled]
    exact h.results

/-- A lane whose messages are the same. -/
theorem Inv.request_keep (h : Inv s) {l : Lane Packet} (hq : l.queue = s.request.queue) :
    Inv { s with request := l } := h.of_eq rfl rfl hq rfl rfl rfl rfl rfl

theorem Inv.reply_mono (h : Inv s) {l : Lane Packet}
    (hq : ∀ m ∈ l.queue, IsReply s.requests s.handled m) : Inv { s with reply := l } :=
  ⟨h.seq, h.client, h.request, h.session, hq, h.order, h.bound, h.results⟩

theorem Inv.reply_keep (h : Inv s) {l : Lane Packet} (hq : l.queue = s.reply.queue) :
    Inv { s with reply := l } :=
  h.reply_mono (hq ▸ h.reply)

/-- The client goes on. -/
theorem Inv.client_keep (h : Inv s) {c : Client} (hok : c.Ok s.requests s.handled)
    (hun : c.unsent = true → s.client.unsent = true) : Inv { s with client := c } := by
  refine ⟨h.seq, hok, h.request, h.session, h.reply, h.order, fun k hk => ?_, h.results⟩
  have hbound := h.bound k hk
  show k + c.unsent.toNat ≤ s.requests.length
  cases hc : c.unsent with
  | false =>
    simp only [Bool.toNat_false]
    omega
  | true =>
    rwa [hun hc] at hbound

/-- The session goes on with the same request. -/
theorem Inv.session_keep (h : Inv s) {c : Session} (hok : c.Ok s.requests s.handled)
    (hcur : c.current = s.session.current) : Inv { s with session := c } := by
  have hline : Sys.line { s with session := c } = s.line := by
    unfold Sys.line
    rw [hcur]
  refine ⟨h.seq, h.client, h.request, hok, h.reply, ?_, ?_, h.results⟩
  · rw [hline]
    exact h.order
  · rw [hline]
    exact h.bound

theorem Inv.clientSend {m : Packet} {pc : SendPc} (h : Inv s) (hpc : s.client = .send m pc)
    (hs : s.clientStep C mv = some s') : Inv s' := by
  have hclient := h.client
  rw [hpc] at hclient
  obtain ⟨hcall, hreq⟩ := hclient
  simp only [Sys.clientStep, hpc] at hs
  obtain ⟨⟨l, r⟩, hstep, rfl⟩ := Option.map_eq_some_iff.mp hs
  dsimp only
  cases SendPc.effect hstep with
  | put pc' h0 h1 hsize hfits hqueue hpipe =>
    -- the request goes in behind all earlier ones
    have hline : Sys.line { s with request := l, client := .send m pc' } = s.line ++ [m.call] := by
      unfold Sys.line
      rw [hqueue, List.map_append, ← List.append_assoc]
      rfl
    have hbound : ∀ k ∈ s.line, k < m.call := by
      intro k hk
      have := h.bound k hk
      simp only [hpc, Client.unsent, h0, Bool.not_false, Bool.toNat_true] at this
      omega
    refine ⟨h.seq, ⟨hcall, hreq⟩, ?_, h.session, h.reply, ?_, ?_, h.results⟩
    · show ∀ x ∈ l.queue, _
      rw [hqueue]
      exact forall_mem_append_singleton h.request hreq
    · rw [hline, List.pairwise_append]
      refine ⟨h.order, List.pairwise_singleton _ _, fun a ha b hb => ?_⟩
      rw [List.mem_singleton.mp hb]
      exact hbound a ha
    · rw [hline]
      simp only [Client.unsent, h1, Bool.not_true, Bool.toNat_false, Nat.add_zero]
      exact forall_mem_append_singleton (fun k hk => by have := hbound k hk; omega) (by omega)
  | keep pc' hsent hqueue hpipe =>
    refine (h.request_keep hqueue).client_keep ⟨hcall, hreq⟩ (fun hun => ?_)
    simpa [hpc, Client.unsent, hsent] using hun
  | ok h1 hqueue hpipe =>
    exact (h.request_keep hqueue).client_keep ⟨hcall, h.seq, nofun⟩
      nofun
  | fail e h0 hqueue hpipe => exact (h.request_keep hqueue).finish trivial

theorem Inv.clientRecv {call seq : Nat} {pc : RecvPc Packet} (h : Inv s)
    (hpc : s.client = .recv call seq pc) (hs : s.clientStep C mv = some s') : Inv s' := by
  have hclient := h.client
  rw [hpc] at hclient
  obtain ⟨hcall, hseq, hholds⟩ := hclient
  simp only [Sys.clientStep, hpc] at hs
  obtain ⟨⟨l, r⟩, hstep, rfl⟩ := Option.map_eq_some_iff.mp hs
  dsimp only
  cases RecvPc.effect hstep with
  | take m pc' h0 h1 hqueue hpipe =>
    have hreply := h.reply
    rw [hqueue] at hreply
    refine (h.reply_mono fun x hx => hreply x (List.mem_cons_of_mem m hx)).client_keep
      ⟨hcall, hseq, fun x hx => ?_⟩ nofun
    obtain rfl : m = x := by simpa [h1] using hx
    exact hreply m List.mem_cons_self
  | keep pc' hkeep hqueue hpipe =>
    refine (h.reply_keep hqueue).client_keep ⟨hcall, hseq, ?_⟩ nofun
    rwa [hkeep]
  | ok m h1 hqueue hpipe =>
    exact (h.reply_keep hqueue).client_keep ⟨hcall, hseq, hholds m h1⟩ nofun
  | fail e h0 hqueue hpipe => exact (h.reply_keep hqueue).finish trivial

/-- A reply in the hands of the client answers its call, or an earlier one. -/
theorem Inv.clientGot {call seq : Nat} {m : Packet} (h : Inv s) (hpc : s.client = .got call seq m)
    (hn : s.requests.length < 2 ^ 64) (hs : s.clientStep C mv = some s') : Inv s' := by
  have hclient := h.client
  rw [hpc] at hclient
  obtain ⟨hcall, rfl, typ, payload, out, hmade, hmem, heq⟩ := hclient
  simp only [Sys.clientStep, hpc] at hs
  split_ifs at hs
  cases hs
  have htyp : m.typ = (replyOf m.call out).1 := congrArg Prod.fst heq
  have hbytes : m.bytes = (replyOf m.call out).2 := congrArg Prod.snd heq
  rcases Nat.lt_or_eq_of_le hmade.le with hlt | hlast
  · rw [hbytes, judge_stale hlt hn]
    exact h.client_keep ⟨hcall, rfl, nofun⟩ nofun
  · rw [htyp, hbytes, hlast, judge_replyOf hn]
    rw [hlast] at hmade hmem
    exact h.finish (good_resultOf hmade hmem)

theorem Inv.clientStep (h : Inv s) (hn : s.requests.length < 2 ^ 64) (hs : s.clientStep C mv = some s') :
    Inv s' := by
  cases hpc : s.client with
  | idle =>
    simp only [Sys.clientStep, hpc] at hs
    cases hs
  | send m pc => exact h.clientSend hpc hs
  | recv call seq pc => exact h.clientRecv hpc hs
  | got call seq m => exact h.clientGot hpc hn hs

/-! ### Steps of the session -/

theorem Inv.sessionRecv {pc : RecvPc Packet} (h : Inv s) (hpc : s.session = .recv pc)
    (hs : s.sessionStep C mv = some s') : Inv s' := by
  have hsession := h.session
  rw [hpc] at hsession
  simp only [Sys.sessionStep, hpc] at hs
  split at hs
  · cases hs
  obtain ⟨⟨l, r⟩, hstep, rfl⟩ := Option.map_eq_some_iff.mp hs
  dsimp only
  cases RecvPc.effect hstep with
  | take m pc' h0 h1 hqueue hpipe =>
    have hrequest := h.request
    rw [hqueue] at hrequest
    -- the request moves from the ring into the hands of the session
    have hline : Sys.line { s with request := l, session := .recv pc' } = s.line := by
      unfold Sys.line
      rw [hqueue, hpc]
      simp [Session.current, h0, h1]
    refine ⟨h.seq, h.client, fun x hx => hrequest x (List.mem_cons_of_mem m hx), fun x hx => ?_,
      h.reply, ?_, ?_, h.results⟩
    · obtain rfl : m = x := by simpa [h1] using hx
      exact hrequest m List.mem_cons_self
    · rw [hline]
      exact h.order
    · rw [hline]
      exact h.bound
  | keep pc' hkeep hqueue hpipe =>
    refine (h.request_keep hqueue).session_keep ?_ ?_
    · intro m hm
      rw [hkeep] at hm
      exact hsession m hm
    · show _ = s.session.current
      rw [hpc]
      simp [Session.current, hkeep]
  | ok m h1 hqueue hpipe =>
    refine (h.request_keep hqueue).session_keep (hsession m h1) ?_
    show _ = s.session.current
    rw [hpc]
    simp [Session.current, h1]
  | fail e h0 hqueue hpipe =>
    have hcur : s.session.current = [] := by
      rw [hpc]
      simp [Session.current, h0]
    cases e <;> exact (h.request_keep hqueue).session_keep trivial hcur.symm

theorem Inv.sessionReply {m : Packet} {pc : SendPc} (h : Inv s) (hpc : s.session = .reply m pc)
    (hs : s.sessionStep C mv = some s') : Inv s' := by
  have hsession := h.session
  rw [hpc] at hsession
  have hcur : s.session.current = [] := by rw [hpc]; rfl
  simp only [Sys.sessionStep, hpc] at hs
  split at hs
  · cases hs
  obtain ⟨⟨l, r⟩, hstep, rfl⟩ := Option.map_eq_some_iff.mp hs
  dsimp only
  cases SendPc.effect hstep with
  | put pc' h0 h1 hsize hfits hqueue hpipe =>
    have hreply : ∀ x ∈ l.queue, IsReply s.requests s.handled x := by
      rw [hqueue]
      exact forall_mem_append_singleton h.reply hsession
    exact (h.reply_mono hreply).session_keep (c := .reply m pc') hsession hcur.symm
  | keep pc' hsent hqueue hpipe => exact (h.reply_keep hqueue).session_keep hsession hcur.symm
  | ok h1 hqueue hpipe =>
    exact (h.reply_keep hqueue).session_keep (fun m hm => by cases hm) hcur.symm
  | fail e h0 hqueue hpipe => exact (h.reply_keep hqueue).session_keep trivial hcur.symm

theorem Inv.sessionStep (h : Inv s) (hs : s.sessionStep C mv = some s') : Inv s' := by
  cases hpc : s.session with
  | recv pc => exact h.sessionRecv hpc hs
  | reply m pc => exact h.sessionReply hpc hs
  | handling m =>
    simp only [Sys.sessionStep, hpc] at hs
    cases hs
  | close | unlink | gone =>
    simp only [Sys.sessionStep, hpc] at hs
    split at hs <;> cases hs
    refine Inv.of_eq (s := { s with session := _ }) ?_ rfl rfl rfl rfl rfl rfl rfl rfl
    exact h.session_keep trivial (hpc ▸ rfl)
  | forget c =>
    simp only [Sys.sessionStep, hpc] at hs
    split at hs <;> cases hs
    exact (h.session_keep (c := .ended c) trivial (hpc ▸ rfl)).of_eq rfl rfl rfl rfl rfl rfl rfl rfl
  | ended c =>
    simp only [Sys.sessionStep, hpc] at hs
    cases hs

/-- The handler runs on the request of its call. -/
theorem Inv.handle {out : Handled} (h : Inv s) (hn : s.requests.length < 2 ^ 64)
    (hs : s.handle out = some s') : Inv s' := by
  unfold Sys.handle at hs
  split at hs <;> cases hs
  next m hpc =>
    have hsession := h.session
    rw [hpc] at hsession
    obtain ⟨payload, hmade, hbytes, htyp⟩ := hsession
    have hlen : m.bytes.length = serviceSeqSize + payload.length := by rw [hbytes, length_frame]
    have hasks : asksHandler m.typ m.bytes = true :=
      decide_eq_true ⟨by rw [hlen]; omega, htyp⟩
    have hdrop : m.bytes.drop serviceSeqSize = payload := by rw [hbytes, drop_frame]
    have hanswer : answer m.typ m.bytes out = replyOf m.call out := by
      have hseq : seqOf m.bytes = m.call := by
        rw [hbytes, seqOf_frame (lt_of_le_of_lt hmade.le hn)]
      unfold answer
      rw [if_neg (by omega)]
      dsimp only
      rw [if_neg (BitVec.not_le.mpr htyp), hseq]
      rfl
    rw [hasks, hdrop, if_pos rfl]
    have hsub : s.handled ⊆ s.handled ++ [(m.call, m.typ, payload, out)] :=
      List.subset_append_left _ _
    have hline : (s.handled ++ [(m.call, m.typ, payload, out)]).map Prod.fst ++ [] ++
        s.request.queue.map Packet.call = s.line := by
      unfold Sys.line
      rw [hpc]
      simp [Session.current]
    refine ⟨h.seq, h.client.mono hsub, h.request, ?_,
      fun x hx => (h.reply x hx).mono (List.prefix_refl _) hsub, ?_, ?_,
      fun x hx => (h.results x hx).mono (List.prefix_refl _) hsub⟩
    · refine ⟨m.typ, payload, out, hmade, List.mem_append_right _ (List.mem_singleton_self _), ?_⟩
      exact hanswer
    · unfold Sys.line
      exact hline.symm ▸ h.order
    · unfold Sys.line
      exact hline.symm ▸ h.bound

/-- Calls are only ever added. -/
theorem Sys.requests_le {a : Act} (hs : s.step C a = some s') :
    s.requests.length ≤ s'.requests.length := by
  cases a with
  | call typ payload =>
    simp only [Sys.step, Sys.call] at hs
    split_ifs at hs
    · cases hs
      exact le_rfl
    · cases hs
      exact le_rfl
    · split at hs <;> cases hs
      simp
  | client mv =>
    simp only [Sys.step, Sys.clientStep] at hs
    split at hs
    · cases hs
    · obtain ⟨⟨l, r⟩, -, rfl⟩ := Option.map_eq_some_iff.mp hs
      dsimp only
      split <;> exact le_rfl
    · obtain ⟨⟨l, r⟩, -, rfl⟩ := Option.map_eq_some_iff.mp hs
      dsimp only
      split <;> exact le_rfl
    · split_ifs at hs
      cases hs
      split <;> exact le_rfl
  | leave =>
    simp only [Sys.step] at hs
    split_ifs at hs
    cases hs
    exact le_rfl
  | session mv =>
    simp only [Sys.step, Sys.sessionStep] at hs
    split at hs <;> try split_ifs at hs
    all_goals first
      | contradiction
      | cases hs
        exact le_rfl
      | obtain ⟨⟨l, r⟩, -, rfl⟩ := Option.map_eq_some_iff.mp hs
        dsimp only
        split <;> exact le_rfl
  | handle out =>
    simp only [Sys.step, Sys.handle] at hs
    split at hs <;> cases hs
    exact le_rfl

/-- **Every step keeps the invariant**, while sequence numbers have not wrapped. -/
theorem Inv.step {a : Act} (h : Inv s) (hn : s'.requests.length < 2 ^ 64)
    (hs : s.step C a = some s') : Inv s' := by
  have hn0 : s.requests.length < 2 ^ 64 := lt_of_le_of_lt (Sys.requests_le hs) hn
  cases a with
  | call typ payload => exact h.call hs hn
  | client mv => exact h.clientStep hn0 hs
  | leave =>
    simp only [Sys.step] at hs
    split at hs <;> cases hs
    exact h.of_eq rfl rfl rfl rfl rfl rfl rfl rfl
  | session mv => exact h.sessionStep hs
  | handle out => exact h.handle hn0 hs

/-- A call returned what the service answered. -/
def CallResult.answered : CallResult → Bool
  | .reply _ _ | .callError _ => true
  | _ => false

/-- **Calls and replies match**, for fewer than `2 ^ 64` calls.  Contexts may end at any wait of any
    call, the handler is arbitrary, and the client may leave.  A call that returns a reply or a
    `CallError` returns what the handler made of its own request, on which the handler ran once; no
    call returns `ErrCorrupt`; and no reply in the channel is ahead of the client. -/
theorem calls_match (h : (machine C).Reach (fun _ _ => True) s) (hn : s.requests.length < 2 ^ 64) :
    (∀ x ∈ s.results, x.2.answered = true → ∃ typ payload out,
      s.requests[x.1 - 1]? = some (typ, payload) ∧ (x.1, typ, payload, out) ∈ s.handled ∧
      (∀ y ∈ s.handled, y.1 = x.1 → y = (x.1, typ, payload, out)) ∧ x.2 = resultOf out) ∧
    (∀ x ∈ s.results, x.2 ≠ .corrupt) ∧
    (∀ m ∈ s.reply.queue, seqOf m.bytes ≤ s.seq) := by
  have hinv : Inv s := h.invariant
    (I := fun s => s.requests.length < 2 ^ 64 → Inv s) (fun _ => .start)
    (fun s t a hi _ hs hn => (hi (lt_of_le_of_lt (Sys.requests_le hs) hn)).step hn hs) hn
  refine ⟨fun x hx hans => ?_, fun x hx hc => ?_, fun m hm => ?_⟩
  · have hgood := hinv.results x hx
    obtain ⟨k, r⟩ := x
    have hex : ∃ typ payload out, Made s.requests k typ payload ∧
        (k, typ, payload, out) ∈ s.handled ∧ r = resultOf out := by
      cases r with
      | reply t p => exact hgood
      | callError t => exact hgood
      | _ => cases hans
    obtain ⟨typ, payload, out, hmade, hmem, hr⟩ := hex
    refine ⟨typ, payload, out, hmade.2, hmem, fun y hy hk => ?_, hr⟩
    -- the numbers of the handled calls increase, so each was handled once
    have hnodup : (s.handled.map Prod.fst).Nodup :=
      ((List.pairwise_append.mp (List.pairwise_append.mp hinv.order).1).1).imp (fun h => h.ne)
    exact List.inj_on_of_nodup_map hnodup hy hmem hk
  · have hgood := hinv.results x hx
    unfold Good at hgood
    rwa [hc] at hgood
  · obtain ⟨typ, payload, out, hmade, -, heq⟩ := hinv.reply m hm
    obtain ⟨body, hbody⟩ := replyOf_frame m.call out
    have hbytes : m.bytes = (replyOf m.call out).2 := congrArg Prod.snd heq
    have hle := hmade.le
    rwa [hbytes, hbody, seqOf_frame (by omega), hinv.seq]

/-- A call is given up after its request was sent; the next call meets its reply first. -/
def staleReply : List Act :=
  [.call 1 [], .client .step, .client .step, .client .step, .client .step, .client .step,
    .client .step, .client .cancel, .client .step, .session .step, .session .step,
    .handle (.ok (2, [5])), .session .step, .session .step, .session .step,
    .call 1 [], .client .step, .client .step, .client .step, .client .step, .client .step,
    .client .step, .client .step, .client .step, .client .step, .session .step, .session .step,
    .handle (.error [6]), .session .step, .session .step, .session .step, .session .step,
    .client .token, .client .step, .client .step, .client .step, .client .step]

theorem calls_match_stale : ∃ s, (machine .smallest).Reach (fun _ _ => True) s ∧
    s.results = [(1, .fail .ctx), (2, .callError [6])] ∧
    ∃ out, (2, 1, [], out) ∈ s.handled ∧ resultOf out = .callError [6] := by
  have hrun : ((machine .smallest).run (machine .smallest).init staleReply).map
      (fun s => decide (s.results = [(1, .fail .ctx), (2, .callError [6])] ∧
        s.requests = [(1, []), (1, [])])) = some true := by
    decide +kernel
  obtain ⟨s, hs, hobs⟩ := Machine.Reach.exists_of_run hrun
  obtain ⟨hresults, hrequests⟩ := of_decide_eq_true hobs
  have hmem : (2, CallResult.callError [6]) ∈ s.results := by
    rw [hresults]
    simp
  obtain ⟨typ, payload, out, hreq, hin, -, hout⟩ :=
    (calls_match hs (by rw [hrequests]; decide)).1 _ hmem rfl
  rw [hrequests] at hreq
  obtain ⟨rfl, rfl⟩ : typ = 1 ∧ payload = [] := by simpa using hreq.symm
  exact ⟨s, hs, hresults, out, hin, hout.symm⟩

/-! ### Sequence numbers wrap -/

section Wrap

variable {client : Client} {session : Session} {seq next w : Nat} {request reply : Lane Packet}
  {left : Bool} {requests : List (Word × List UInt8)}
  {handled : List (Nat × Word × List UInt8 × Handled)} {results : List (Nat × CallResult)}
  {log : List Event} {payload : List UInt8}

/-- A call takes the next sequence number and begins to send. -/
theorem step_call (hlen : payload.length ≤ maxMessageSize C - serviceSeqSize)
    (hnext : (seq + 1) % 2 ^ 64 = next) :
    (machine C).step ⟨.idle, session, seq, request, reply, left, false, requests, handled, results,
      log⟩ (.call 1 payload) =
    some ⟨.send ⟨1, frame next payload, requests.length + 1⟩ (.check .first), session, next, request,
      reply, left, false, requests ++ [(1, payload)], handled, results, log⟩ := by
  have htyp : ¬ (1 : Word) ≥ serviceReservedMin := by decide
  simp only [machine, Sys.step, Sys.call, htyp, if_false, not_lt.mpr hlen, hnext]

/-- A call that finds the ring full and is given up. -/
def turnedAway (payload : List UInt8) : List Act :=
  [.call 1 payload, .client .step, .client .step, .client .step, .client .step, .client .step,
    .client .cancel, .client .step]

/-- A call that is turned away takes a sequence number and leaves nothing behind. -/
theorem run_turnedAway (hidle : s.client = .idle) (hopen : s.shut = false)
    (hlen : payload.length ≤ maxMessageSize C - serviceSeqSize)
    (hfull : s.request.pipe.fits C (serviceSeqSize + payload.length) = false) :
    (machine C).run s (turnedAway payload) = some { s with
      seq := (s.seq + 1) % 2 ^ 64
      requests := s.requests ++ [(1, payload)]
      results := s.results ++ [(s.requests.length + 1, .fail .ctx)] } := by
  obtain ⟨client, session, seq, request, reply, left, shut, requests, handled, results, log⟩ := s
  dsimp only at hidle hopen hfull
  subst hidle hopen
  generalize hnext : (seq + 1) % 2 ^ 64 = next
  let m : Packet := ⟨1, frame next payload, requests.length + 1⟩
  have hsize : m.size = serviceSeqSize + payload.length := length_frame next payload
  -- where the call stands, with the waiters of the request lane
  let stand (pc : SendPc) (w : Nat) : Sys := ⟨.send m pc, session, next,
    { request with sendWaiters := w }, reply, left, false, requests ++ [(1, payload)], handled,
    results, log⟩
  have hwrite : ∀ t w pc, SendPc.blocked t = .inl pc →
      (machine C).step (stand (.write t) w) (.client .step) = some (stand pc w) := by
    intro t w pc hpc
    have hmax : ¬ m.size > maxMessageSize C := by
      have := C.min
      rw [Ring.maxMessageSize_eq] at hlen ⊢
      rw [hsize]
      unfold serviceSeqSize at hlen ⊢
      omega
    have hfits : request.pipe.fits C m.size = false := by rw [hsize, hfull]
    simp only [stand, machine, Sys.step, Sys.clientStep, SendPc.step, hmax, hfits,
      Bool.false_eq_true, if_false, Option.map_some, hpc]
  rw [turnedAway, Machine.run_cons (t := stand (.check .first) request.sendWaiters)
      (step_call hlen hnext),
    Machine.run_cons (t := stand (.write .first) request.sendWaiters) rfl,
    Machine.run_cons (hwrite .first _ .register rfl),
    Machine.run_cons (t := stand (.check .again) (request.sendWaiters + 1)) rfl,
    Machine.run_cons (t := stand (.write .again) (request.sendWaiters + 1)) rfl,
    Machine.run_cons (hwrite .again _ .wait rfl),
    Machine.run_cons (t := stand (.retire (.done (some .ctx))) (request.sendWaiters + 1)) rfl]
  simp [stand, machine, Machine.run, Sys.step, Sys.clientStep, SendPc.step, Sys.finish]

/-- Any number of calls that are turned away. -/
theorem reach_turnedAway (h : (machine C).Reach (fun _ _ => True) s) (hseq : s.seq < 2 ^ 64)
    (hidle : s.client = .idle) (hopen : s.shut = false) (hlen : payload.length ≤ maxMessageSize C - serviceSeqSize)
    (hfull : s.request.pipe.fits C (serviceSeqSize + payload.length) = false) (k : Nat) :
    ∃ reqs res, reqs.length = s.requests.length + k ∧
      (machine C).Reach (fun _ _ => True)
        { s with seq := (s.seq + k) % 2 ^ 64, requests := reqs, results := res } := by
  induction k with
  | zero => exact ⟨s.requests, s.results, rfl, by rw [Nat.add_zero, Nat.mod_eq_of_lt hseq]; exact h⟩
  | succ k ih =>
    obtain ⟨reqs, res, hreqs, ht⟩ := ih
    have hrun := run_turnedAway (s := { s with
      seq := (s.seq + k) % 2 ^ 64, requests := reqs, results := res }) hidle hopen hlen hfull
    refine ⟨reqs ++ [(1, payload)], res ++ [(reqs.length + 1, .fail .ctx)],
      by simp [hreqs, Nat.add_assoc], ?_⟩
    rw [← Nat.add_assoc, ← Nat.mod_add_mod]
    exact .of_run (fun _ _ => trivial) ht _ hrun

/-- A call that is given up once its request is in the ring. -/
def givenUp (payload : List UInt8) : List Act :=
  [.call 1 payload, .client .step, .client .step, .client .step, .client .step, .client .step,
    .client .step, .client .cancel, .client .step]

/-- A call that is sent and finds a reply waiting. -/
def atOnce : List Act :=
  [.call 1 [], .client .step, .client .step, .client .step, .client .step, .client .step,
    .client .step]

theorem run_atOnce {m : Packet} {rest : List Packet} {r : CallResult} (hidle : s.client = .idle)
    (hopen : s.shut = false) (hfits : s.request.pipe.fits C serviceSeqSize = true)
    (hrecv : s.request.recvWaiters = 0) (hsend : s.reply.sendWaiters = 0)
    (hqueue : s.reply.queue = m :: rest)
    (hjudge : judge ((s.seq + 1) % 2 ^ 64) m.typ m.bytes = some r) :
    ∃ t, (machine C).run s atOnce = some t ∧ t.requests = s.requests ++ [(1, [])] ∧
      (s.requests.length + 1, r) ∈ t.results := by
  obtain ⟨client, session, seq, request, reply, left, shut, requests, handled, results, log⟩ := s
  dsimp only at hidle hopen hfits hrecv hsend hqueue hjudge
  subst hidle hopen
  generalize hnext : (seq + 1) % 2 ^ 64 = next at hjudge
  let q : Packet := ⟨1, frame next [], requests.length + 1⟩
  let filled : Lane Packet :=
    { request with pipe := request.pipe.push C q.size, queue := request.queue ++ [q] }
  let emptied : Lane Packet := { reply with pipe := reply.pipe.pop C m.size, queue := rest }
  let stand (c : Client) (l l' : Lane Packet) : Sys := ⟨c, session, next, l, l', left, false,
    requests ++ [(1, [])], handled, results, log⟩
  -- nobody waits at either end, so each call goes through at its first attempt
  have hwrite : (machine C).step (stand (.send q (.write .first)) request reply) (.client .step) =
      some (stand (.send q .wakeLoad) filled reply) := by
    have hmax : ¬ q.size > maxMessageSize C := by
      have := C.min
      rw [Ring.maxMessageSize_eq]
      show ¬ 8 > _
      omega
    have hfits : request.pipe.fits C q.size = true := hfits
    simp only [stand, machine, Sys.step, Sys.clientStep, SendPc.step, hmax, hfits, if_true, if_false,
      Option.map_some, SendPc.finish, filled]
  have hwake : (machine C).step (stand (.send q .wakeLoad) filled reply) (.client .step) =
      some (stand (.recv (requests.length + 1) next (.read .first)) filled reply) := by
    simp [stand, machine, Sys.step, Sys.clientStep, SendPc.step, filled, hrecv, q]
  have hread : (machine C).step
      (stand (.recv (requests.length + 1) next (.read .first)) filled reply) (.client .step) =
      some (stand (.recv (requests.length + 1) next (.wakeLoad .first m)) filled emptied) := by
    simp only [stand, machine, Sys.step, Sys.clientStep, RecvPc.step, hqueue, Option.map_some, emptied]
  have hgot : (machine C).step
      (stand (.recv (requests.length + 1) next (.wakeLoad .first m)) filled emptied) (.client .step) =
      some (stand (.got (requests.length + 1) next m) filled emptied) := by
    simp [stand, machine, Sys.step, Sys.clientStep, RecvPc.step, RecvPc.finish, emptied, hsend]
  refine ⟨(stand (.got (requests.length + 1) next m) filled emptied).finish r, ?_, rfl, ?_⟩
  · rw [atOnce, Machine.run_cons (t := stand (.send q (.check .first)) request reply)
        (step_call (Nat.zero_le _) hnext),
      Machine.run_cons (t := stand (.send q (.write .first)) request reply) rfl,
      Machine.run_cons hwrite, Machine.run_cons hwake, Machine.run_cons hread,
      Machine.run_cons hgot]
    simp [machine, Machine.run, Sys.step, Sys.clientStep, stand, hjudge]
  · show _ ∈ results ++ [((requests ++ [(1, [])]).length, r)]
    simp

/-- No call is under way. -/
def Client.isIdle : Client → Bool
  | .idle => true
  | _ => false

/-- Three calls fill the ring and are given up; the session answers the first. -/
def backlog : List Act :=
  givenUp [] ++ givenUp (List.replicate 2032 0) ++ givenUp (List.replicate 2016 0) ++
    [Act.session .step, .session .step, .handle (.ok (2, [])), .session .step, .session .step,
      .session .step]

/-- **Sequence numbers are 64 bits wide.**  With the reply to the first call still in the channel,
    call number `2 ^ 64` has sequence number 0, and that reply is ahead of it. -/
theorem wrapped_seq : ∃ s, (machine .smallest).Reach (fun _ _ => True) s ∧
    s.requests.length = 2 ^ 64 ∧ (2 ^ 64, .corrupt) ∈ s.results := by
  have hrun : ((machine .smallest).run (machine .smallest).init backlog).map (fun s =>
      decide (s.client.isIdle = true ∧ s.shut = false ∧
        s.seq = 3 ∧ s.requests.length = 3 ∧ s.request.pipe = ⟨16, 4096⟩ ∧
        s.request.recvWaiters = 0 ∧ s.reply.sendWaiters = 0 ∧
        s.reply.queue = [⟨2, frame 1 [], 1⟩])) = some true := by
    decide +kernel
  obtain ⟨s, hs, hobs⟩ := Machine.Reach.exists_of_run hrun
  obtain ⟨hclient, hopen, hseq, hreqs, hpipe, hrecv, hsend, hqueue⟩ := of_decide_eq_true hobs
  have hidle : s.client = .idle := by
    cases hpc : s.client with
    | idle => rfl
    | send | recv | got =>
      rw [hpc] at hclient
      cases hclient
  -- the ring has 16 bytes left: too few for the calls that are turned away
  have hfull : s.request.pipe.fits .smallest
      (serviceSeqSize + (List.replicate 2032 (0 : UInt8)).length) = false := by
    rw [hpipe, List.length_replicate]
    decide
  obtain ⟨reqs, res, hlen, ht⟩ := reach_turnedAway hs (by rw [hseq]; decide) hidle hopen
    (by rw [List.length_replicate]; decide) hfull (2 ^ 64 - 4)
  have hlast : (s.seq + (2 ^ 64 - 4)) % 2 ^ 64 = 2 ^ 64 - 1 := by
    rw [hseq]
    decide
  rw [hlast] at ht
  have hjudge : judge ((2 ^ 64 - 1 + 1) % 2 ^ 64) 2 (frame 1 []) = some .corrupt := by decide
  have hfits : s.request.pipe.fits .smallest serviceSeqSize = true := by
    rw [hpipe]
    decide
  obtain ⟨t, hend, hreqs', hmem⟩ := run_atOnce (s := { s with
      seq := 2 ^ 64 - 1, requests := reqs, results := res }) hidle hopen hfits hrecv hsend hqueue hjudge
  have hcount : reqs.length + 1 = 2 ^ 64 := by omega
  refine ⟨t, .of_run (fun _ _ => trivial) ht _ hend, ?_, ?_⟩
  · rwa [hreqs', List.length_append]
  · rwa [← hcount]

end Wrap

end GoIpc.Service
