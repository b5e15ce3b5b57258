import GoIpc.Service.Calls
import Mathlib.Data.List.Forall2

namespace GoIpc.Service

open GoIpc.Lib
open GoIpc.Ring (Capacity Word maxMessageSize typePadding)

/-!
# What a session answers

The serve loops of the three services, over what the receives return and what the handler makes of each
request.  The channel is open and the client lives, so a send is refused by its own checks only: a
reserved type, or a message that does not fit the channel.

* `sendTyped` — those checks;
* `GoService.answer`, `CService.answer`, `CppService.answer` — the three `answer` functions;
* `serve` — the loop around them;
* `Answers`, `Served` — what an answer and a session owe the client;
* `sessions_answer` — one answer for every request.  The C service replaces a reply that does not fit by
  an error reply; the Go and the C++ service hand it to the send, which refuses it, and the session ends.
-/

variable {α : Type} {C : Capacity}

/-! ### The three services -/

/-- `SendTyped` with room to come: the message it sends, `none` where a check at the top of `tryClaim` refuses. -/
def sendTyped (C : Capacity) (m : Word × List UInt8) : Option (Word × List UInt8) :=
  if m.1 = typePadding then none
  else if m.2.length > maxMessageSize C then none
  else some m

/-- What a handler made of a request, in the words the three services share. -/
inductive Outcome
  | reply (typ : Word) (payload : List UInt8)
  | error (message : List UInt8)
  | nothing

namespace GoService

def outcome : Handled → Outcome
  | .error err => .error err
  | .ok (typ, payload) => .reply typ payload

/-- `answer` and `reply` of the Go service. -/
def answer (C : Capacity) (typ : Word) (msg : List UInt8) (out : Handled) : Option (Word × List UInt8) :=
  sendTyped C (Service.answer typ msg out)

end GoService

namespace CService

/-- A call of the handler on its `goipc_reply`; `memory` is what `realloc` makes of it. -/
inductive Call
  | set (typ : Word) (payload : List UInt8) (memory : Bool)
  | error (message : List UInt8) (memory : Bool)
deriving DecidableEq

/-- `struct goipc_reply`: `full` is `rc == GOIPC_ENOMEM`. -/
structure Reply where
  set : Bool
  full : Bool
  typ : Word
  payload : List UInt8

/-- What `answer` hands to the handler. -/
def blank : Reply := ⟨false, false, 0, []⟩

/-- `reply_fill` -/
def fill (r : Reply) (typ : Word) (payload : List UInt8) (memory : Bool) : Reply :=
  if memory then ⟨true, false, typ, payload⟩ else { r with full := true }

/-- `goipc_reply_set` and `goipc_reply_error`; a C string ends at its first NUL. -/
def Reply.call (r : Reply) : Call → Reply
  | .set typ payload memory => if typ ≥ serviceReservedMin then r else fill r typ payload memory
  | .error message memory => fill r typeServiceError (message.takeWhile (· ≠ 0)) memory

/-- What the calls of a handler leave in its reply. -/
def run (calls : List Call) : Reply := calls.foldl Reply.call blank

def outcome (calls : List Call) : Outcome :=
  let r := run calls
  if r.full ∨ ¬ r.set then .nothing
  else if r.typ = typeServiceError then .error r.payload
  else .reply r.typ r.payload

/-- `send_error`, with the memory for one of the service's own texts. -/
def sendError (C : Capacity) (seq : Nat) (message : String) : Option (Word × List UInt8) :=
  sendTyped C (typeServiceError, frame seq (text message))

/-- `answer` of the C service. -/
def answer (C : Capacity) (typ : Word) (msg : List UInt8) (calls : List Call) :
    Option (Word × List UInt8) :=
  if msg.length < serviceSeqSize then
    sendError C 0 "goipc: request is shorter than its sequence number"
  else
    let seq := seqOf msg
    if typ ≥ serviceReservedMin then
      sendError C seq ("goipc: request type " ++ toString typ.toNat ++ " is reserved")
    else
      let r := run calls
      if r.full then sendError C seq "goipc: out of memory"
      else if ¬ r.set then sendError C seq "goipc: the handler set no reply"
      else if serviceSeqSize + r.payload.length > maxMessageSize C then
        sendError C seq "goipc: reply exceeds the maximum size"
      else sendTyped C (r.typ, frame seq r.payload)

end CService

namespace CppService

/-- A handler returns a reply or throws. -/
inductive Handled
  | reply (typ : Word) (payload : List UInt8)
  | throws (what : List UInt8)
  /-- An exception that is no `std::exception`. -/
  | throwsOther

def outcome : Handled → Outcome
  | .reply typ payload => .reply typ payload
  | .throws what => .error (what.takeWhile (· ≠ 0))
  | .throwsOther => .nothing

/-- `send_error` -/
def sendError (C : Capacity) (seq : Nat) (message : List UInt8) : Option (Word × List UInt8) :=
  sendTyped C (typeServiceError, frame seq message)

/-- `answer` of the C++ service; `none` is an exception. -/
def answer (C : Capacity) (typ : Word) (msg : List UInt8) (out : Handled) : Option (Word × List UInt8) :=
  if msg.length < serviceSeqSize then
    sendError C 0 (text "goipc: request is shorter than its sequence number")
  else
    let seq := seqOf msg
    if typ ≥ serviceReservedMin then
      sendError C seq (text ("goipc: request type " ++ toString typ.toNat ++ " is reserved"))
    else
      match out with
      | .throwsOther => none
      | .throws what => sendError C seq (what.takeWhile (· ≠ 0))
      | .reply replyTyp payload =>
          if replyTyp ≥ serviceReservedMin then
            sendError C seq (text ("goipc: reply type " ++ toString replyTyp.toNat ++ " is reserved"))
          else sendTyped C (replyTyp, frame seq payload)

end CppService

/-! ### The serve loop -/

/-- What a receive of the loop returns; a request comes with what the handler will make of it. -/
inductive Received (α : Type)
  | request (typ : Word) (msg : List UInt8) (out : α)
  | peerGone
  | closed

/-- How far a session came. -/
inductive Ended
  | serving
  | clientWent
  | closed
  /-- `answer` failed. -/
  | refused
deriving DecidableEq

/-- `serve`: what it sends for these receives, and why it ended. -/
def serve (answer : Word → List UInt8 → α → Option (Word × List UInt8)) :
    List (Received α) → List (Word × List UInt8) × Ended
  | [] => ([], .serving)
  | .peerGone :: _ => ([], .clientWent)
  | .closed :: _ => ([], .closed)
  | .request typ msg out :: rest =>
      match answer typ msg out with
      | none => ([], .refused)
      | some m => (m :: (serve answer rest).1, (serve answer rest).2)

/-- The requests a session receives before its client goes or its service closes. -/
def requested : List (Received α) → List (Word × List UInt8 × α)
  | .request typ msg out :: rest => (typ, msg, out) :: requested rest
  | _ => []

/-! ### What a session owes -/

/-- The sequence number of a request; a request that is too short for one is answered under 0. -/
def numberOf (msg : List UInt8) : Nat := if msg.length < serviceSeqSize then 0 else seqOf msg

/-- A payload that fits the channel behind its sequence number. -/
def Fits (C : Capacity) (payload : List UInt8) : Prop :=
  serviceSeqSize + payload.length ≤ maxMessageSize C

/-- An answer: the handler's reply or error text where the handler was asked and the channel can carry
    it, and otherwise an error reply. -/
inductive Answers (C : Capacity) (typ : Word) (msg : List UInt8) : Outcome → Word × List UInt8 → Prop
  | reply {t : Word} {payload : List UInt8} (asked : asksHandler typ msg) (free : t < serviceReservedMin)
      (fits : Fits C payload) : Answers C typ msg (.reply t payload) (t, frame (numberOf msg) payload)
  | error {message : List UInt8} (asked : asksHandler typ msg) (fits : Fits C message) :
      Answers C typ msg (.error message) (typeServiceError, frame (numberOf msg) message)
  | notAsked {o : Outcome} {body : List UInt8} (asked : asksHandler typ msg = false) :
      Answers C typ msg o (typeServiceError, frame (numberOf msg) body)
  | reserved {t : Word} {payload body : List UInt8} (taken : t ≥ serviceReservedMin) :
      Answers C typ msg (.reply t payload) (typeServiceError, frame (numberOf msg) body)
  | tooLarge {t : Word} {payload body : List UInt8} (large : ¬ Fits C payload) :
      Answers C typ msg (.reply t payload) (typeServiceError, frame (numberOf msg) body)
  | errorTooLarge {message body : List UInt8} (large : ¬ Fits C message) :
      Answers C typ msg (.error message) (typeServiceError, frame (numberOf msg) body)
  | nothing {body : List UInt8} :
      Answers C typ msg .nothing (typeServiceError, frame (numberOf msg) body)

/-- A session that owes nothing: its answers are those to its requests, one each and in their order, and it
    did not end by an answer. -/
def Served (C : Capacity) (outcome : α → Outcome) (received : List (Received α))
    (sent : List (Word × List UInt8) × Ended) : Prop :=
  List.Forall₂ (fun q m => Answers C q.1 q.2.1 (outcome q.2.2) m) (requested received) sent.1 ∧
    sent.2 ≠ .refused

/-- **A session serves** exactly if each of its answers is one. -/
theorem served_iff {outcome : α → Outcome}
    {answer : Word → List UInt8 → α → Option (Word × List UInt8)} {received : List (Received α)} :
    Served C outcome received (serve answer received) ↔ ∀ q ∈ requested received,
      ∃ m, answer q.1 q.2.1 q.2.2 = some m ∧ Answers C q.1 q.2.1 (outcome q.2.2) m := by
  induction received with
  | nil => exact iff_of_true ⟨.nil, nofun⟩ nofun
  | cons e rest ih =>
    cases e with
    | peerGone | closed => exact iff_of_true ⟨.nil, nofun⟩ nofun
    | request typ msg out =>
      simp only [requested, List.forall_mem_cons, ← ih, serve]
      cases answer typ msg out with
      | none => exact iff_of_false (fun h => h.2 rfl) (by simp)
      | some m => simp [Served, requested, and_assoc]

/-! ### Texts that fit -/

theorem length_text_append (s t : String) : (text (s ++ t)).length = (text s).length + (text t).length := by
  simp [text, String.toByteArray_append]

/-- A character takes at most four bytes. -/
theorem length_text_le (s : String) : (text s).length ≤ 4 * s.length := by
  rw [← String.ofList_toList (s := s)]
  induction s.toList with
  | nil => simp [text]
  | cons c l ih =>
    have hc := c.utf8Size_le_four
    have hone : [c].utf8Encode.size = c.utf8Size := by simp [List.utf8Encode]
    simp [text] at ih ⊢
    omega

/-- The number of a type has at most ten digits. -/
theorem length_text_word (w : Word) : (text (toString w.toNat)).length ≤ 40 := by
  have hrepr : (toString w.toNat).length ≤ 10 := by
    rw [← String.length_toList]
    change w.toNat.repr.toList.length ≤ 10
    rw [Nat.toList_repr]
    exact (Nat.length_toDigits_le_iff (by decide) (by decide)).mpr (by have := w.isLt; omega)
  have := length_text_le (toString w.toNat)
  omega

theorem le_maxMessageSize (C : Capacity) : 2040 ≤ maxMessageSize C := by
  have := C.min
  rw [Ring.maxMessageSize_eq]
  omega

theorem fits_text {s : String} (h : s.length ≤ 100) : Fits C (text s) := by
  have := length_text_le s
  have := le_maxMessageSize C
  unfold Fits serviceSeqSize
  omega

/-- A text that names a type. -/
theorem fits_text_word {s t : String} (w : Word) (hs : s.length ≤ 100) (ht : t.length ≤ 100) :
    Fits C (text (s ++ toString w.toNat ++ t)) := by
  have h1 := length_text_le s
  have h2 := length_text_le t
  have h3 := length_text_word w
  have h4 := le_maxMessageSize C
  unfold Fits serviceSeqSize
  rw [length_text_append, length_text_append]
  omega

/-- A message that fits goes out unless its type is the padding's. -/
theorem sendTyped_frame {typ : Word} {payload : List UInt8} (seq : Nat) (htyp : typ ≠ typePadding)
    (h : Fits C payload) : sendTyped C (typ, frame seq payload) = some (typ, frame seq payload) := by
  unfold Fits at h
  rw [sendTyped, if_neg htyp, if_neg (by rw [length_frame]; omega)]

/-- Only a message that fits goes out. -/
theorem fits_of_sendTyped {typ : Word} {payload : List UInt8} {seq : Nat} {m : Word × List UInt8}
    (h : sendTyped C (typ, frame seq payload) = some m) : Fits C payload := by
  unfold sendTyped at h
  split_ifs at h with _ hlen
  rw [length_frame] at hlen
  exact Nat.not_lt.mp hlen

/-- A type below the reserved ones is not the padding's. -/
theorem ne_typePadding {typ : Word} (h : typ < serviceReservedMin) : typ ≠ typePadding := by
  rintro rfl
  exact absurd h (by decide)

/-! ### The answers of each service -/

/-- What the handler must return for the Go and the C++ service to answer: a reply that fits or has a reserved
    type, or an error text that fits. -/
def Outcome.Sendable (C : Capacity) : Outcome → Prop
  | .reply typ payload => typ ≥ serviceReservedMin ∨ Fits C payload
  | .error message => Fits C message
  | .nothing => False

section Answer

variable {typ : Word} {msg : List UInt8} {o : Outcome}

/-- An error reply whose text fits goes out. -/
theorem sendTyped_error {body : List UInt8} (seq : Nat) (h : Fits C body) :
    sendTyped C (typeServiceError, frame seq body) = some (typeServiceError, frame seq body) :=
  sendTyped_frame seq (by decide) h

theorem asksHandler_iff :
    asksHandler typ msg = true ↔ ¬ msg.length < serviceSeqSize ∧ ¬ typ ≥ serviceReservedMin := by
  rw [asksHandler, decide_eq_true_eq, Nat.not_lt, ge_iff_le, BitVec.not_le]

theorem numberOf_of_asked (h : asksHandler typ msg) : numberOf msg = seqOf msg :=
  if_neg (asksHandler_iff.mp h).1

/-- The two checks in front of the handler, the same in the three services up to their texts. -/
theorem answers_iff_asked {short reserved : List UInt8} {body : Option (Word × List UInt8)}
    (hshort : Fits C short) (hreserved : Fits C reserved) :
    (∃ m, (if msg.length < serviceSeqSize then sendTyped C (typeServiceError, frame 0 short)
        else if typ ≥ serviceReservedMin then sendTyped C (typeServiceError, frame (seqOf msg) reserved)
        else body) = some m ∧ Answers C typ msg o m) ↔
      (asksHandler typ msg → ∃ m, body = some m ∧ Answers C typ msg o m) := by
  by_cases hask : asksHandler typ msg
  · rw [if_neg (asksHandler_iff.mp hask).1, if_neg (asksHandler_iff.mp hask).2]
    exact ⟨fun h _ => h, fun h => h hask⟩
  · refine iff_of_true ?_ (fun h => absurd h hask)
    by_cases hlen : msg.length < serviceSeqSize
    · have hnum : numberOf msg = 0 := if_pos hlen
      rw [if_pos hlen, sendTyped_error 0 hshort, ← hnum]
      exact ⟨_, rfl, .notAsked (Bool.not_eq_true _ ▸ hask)⟩
    · have htyp : typ ≥ serviceReservedMin := by
        by_contra htyp
        exact hask (asksHandler_iff.mpr ⟨hlen, htyp⟩)
      have hnum : numberOf msg = seqOf msg := if_neg hlen
      rw [if_neg hlen, if_pos htyp, sendTyped_error _ hreserved, ← hnum]
      exact ⟨_, rfl, .notAsked (Bool.not_eq_true _ ▸ hask)⟩

/-- A handler's reply as the Go and the C++ service send it: under its own type, or as an error reply when that
    type is reserved. -/
theorem answers_reply {t : Word} {payload reserved : List UInt8} (hask : asksHandler typ msg)
    (hreserved : Fits C reserved) :
    (∃ m, (if t ≥ serviceReservedMin then sendTyped C (typeServiceError, frame (seqOf msg) reserved)
        else sendTyped C (t, frame (seqOf msg) payload)) = some m ∧
      Answers C typ msg (.reply t payload) m) ↔ t ≥ serviceReservedMin ∨ Fits C payload := by
  rw [← numberOf_of_asked hask]
  by_cases ht : t ≥ serviceReservedMin
  · rw [if_pos ht, sendTyped_error _ hreserved]
    exact iff_of_true ⟨_, rfl, .reserved ht⟩ (.inl ht)
  · have hfree : t < serviceReservedMin := BitVec.not_le.mp ht
    rw [if_neg ht]
    refine ⟨fun ⟨m, hm, _⟩ => .inr (fits_of_sendTyped hm), fun h => ?_⟩
    have hfits := h.resolve_left ht
    exact ⟨_, sendTyped_frame _ (ne_typePadding hfree) hfits, .reply hask hfree hfits⟩

/-- A handler's error text as the Go and the C++ service send it. -/
theorem answers_error {message : List UInt8} (hask : asksHandler typ msg) :
    (∃ m, sendTyped C (typeServiceError, frame (seqOf msg) message) = some m ∧
      Answers C typ msg (.error message) m) ↔ Fits C message := by
  rw [← numberOf_of_asked hask]
  exact ⟨fun ⟨m, hm, _⟩ => fits_of_sendTyped hm, fun h => ⟨_, sendTyped_error _ h, .error hask h⟩⟩

theorem GoService.answer_eq (out : Service.Handled) : GoService.answer C typ msg out =
    if msg.length < serviceSeqSize then
      sendTyped C (typeServiceError, frame 0 (text "ipc: request is shorter than its sequence number"))
    else if typ ≥ serviceReservedMin then
      sendTyped C (typeServiceError,
        frame (seqOf msg) (text ("ipc: request type " ++ toString typ.toNat ++ " is reserved")))
    else sendTyped C (replyOf (seqOf msg) out) := by
  have hanswer : Service.answer typ msg out =
      if msg.length < serviceSeqSize then
        (typeServiceError, frame 0 (text "ipc: request is shorter than its sequence number"))
      else if typ ≥ serviceReservedMin then
        (typeServiceError,
          frame (seqOf msg) (text ("ipc: request type " ++ toString typ.toNat ++ " is reserved")))
      else replyOf (seqOf msg) out := rfl
  rw [GoService.answer, hanswer, apply_ite (sendTyped C), apply_ite (sendTyped C)]

/-- **The Go service answers** what it can send, and nothing else. -/
theorem GoService.answer_answers (out : Service.Handled) :
    (∃ m, GoService.answer C typ msg out = some m ∧ Answers C typ msg (GoService.outcome out) m) ↔
      (asksHandler typ msg → (GoService.outcome out).Sendable C) := by
  rw [GoService.answer_eq, answers_iff_asked (fits_text (by decide))
    (fits_text_word typ (by decide) (by decide))]
  refine forall_congr' fun hask => ?_
  cases out with
  | error err => exact answers_error hask
  | ok r =>
    rw [replyOf, apply_ite (sendTyped C)]
    exact answers_reply hask (fits_text_word r.1 (by decide) (by decide))

/-- **The C++ service answers** what it can send, and nothing else. -/
theorem CppService.answer_answers (out : CppService.Handled) :
    (∃ m, CppService.answer C typ msg out = some m ∧ Answers C typ msg (CppService.outcome out) m) ↔
      (asksHandler typ msg → (CppService.outcome out).Sendable C) := by
  refine (answers_iff_asked (fits_text (by decide)) (fits_text_word typ (by decide) (by decide))).trans
    (forall_congr' fun hask => ?_)
  cases out with
  | throwsOther => exact iff_of_false (fun ⟨m, hm, _⟩ => by cases hm) id
  | throws what => exact answers_error hask
  | reply t payload => exact answers_reply hask (fits_text_word t (by decide) (by decide))

/-- The type a C handler sets is a free one or the error's. -/
theorem CService.run_typ (calls : List CService.Call) :
    (CService.run calls).typ < serviceReservedMin ∨ (CService.run calls).typ = typeServiceError := by
  have hstart : CService.blank.typ < serviceReservedMin := by decide
  unfold CService.run
  refine List.foldlRecOn calls CService.Reply.call (motive := fun r => r.typ < serviceReservedMin ∨
    r.typ = typeServiceError) (.inl hstart) fun r hr call _ => ?_
  cases call with
  | set typ payload memory =>
    rw [CService.Reply.call]
    split_ifs with htyp
    · exact hr
    · cases memory
      · exact hr
      · exact .inl (BitVec.not_le.mp htyp)
  | error message memory =>
    cases memory
    · exact hr
    · exact .inr rfl

/-- **The C service answers** everything. -/
theorem CService.answer_answers (calls : List CService.Call) :
    ∃ m, CService.answer C typ msg calls = some m ∧ Answers C typ msg (CService.outcome calls) m := by
  refine (answers_iff_asked (fits_text (by decide)) (fits_text_word typ (by decide) (by decide))).mpr
    fun hask => ?_
  have htyp := CService.run_typ calls
  unfold CService.outcome
  generalize CService.run calls = r at htyp
  simp only [CService.sendError, ← numberOf_of_asked hask]
  by_cases hfull : r.full
  · rw [if_pos hfull, if_pos (.inl hfull), sendTyped_error _ (fits_text (by decide))]
    exact ⟨_, rfl, .nothing⟩
  by_cases hset : ¬ r.set
  · rw [if_neg hfull, if_pos hset, if_pos (.inr hset), sendTyped_error _ (fits_text (by decide))]
    exact ⟨_, rfl, .nothing⟩
  rw [if_neg hfull, if_neg hset, if_neg (not_or.mpr ⟨hfull, hset⟩)]
  by_cases hlarge : serviceSeqSize + r.payload.length > maxMessageSize C
  · have hfits : ¬ Fits C r.payload := by
      unfold Fits
      omega
    rw [if_pos hlarge, sendTyped_error _ (fits_text (by decide))]
    split_ifs
    · exact ⟨_, rfl, .errorTooLarge hfits⟩
    · exact ⟨_, rfl, .tooLarge hfits⟩
  · have hfits : Fits C r.payload := Nat.not_lt.mp hlarge
    rw [if_neg hlarge]
    by_cases herr : r.typ = typeServiceError
    · rw [if_pos herr, herr, sendTyped_error _ hfits]
      exact ⟨_, rfl, .error hask hfits⟩
    · have hfree := htyp.resolve_right herr
      rw [if_neg herr, sendTyped_frame _ (ne_typePadding hfree) hfits]
      exact ⟨_, rfl, .reply hask hfree hfits⟩

end Answer

/-! ### Sessions -/

/-- **Every request gets one answer and the session lives on**: in the C service always, in the Go and the
    C++ service exactly if every reply and every error text the handler returns fits the channel behind
    its sequence number. -/
theorem sessions_answer (C : Capacity) (go : List (Received Handled)) (c : List (Received (List CService.Call)))
    (cpp : List (Received CppService.Handled)) :
    (Served C GoService.outcome go (serve (GoService.answer C) go) ↔
      ∀ q ∈ requested go, asksHandler q.1 q.2.1 → (GoService.outcome q.2.2).Sendable C) ∧
    Served C CService.outcome c (serve (CService.answer C) c) ∧
    (Served C CppService.outcome cpp (serve (CppService.answer C) cpp) ↔
      ∀ q ∈ requested cpp, asksHandler q.1 q.2.1 → (CppService.outcome q.2.2).Sendable C) :=
  ⟨served_iff.trans (forall₂_congr fun q _ => GoService.answer_answers q.2.2),
    served_iff.mpr fun q _ => CService.answer_answers q.2.2,
    served_iff.trans (forall₂_congr fun q _ => CppService.answer_answers q.2.2)⟩

/-- A request under sequence number 7. -/
def requestSeven : List UInt8 := [7, 0, 0, 0, 0, 0, 0, 0]

theorem sessions_answer_seven :
    Served .smallest GoService.outcome [.request 1 requestSeven (.ok (2, [5])), .peerGone]
      (serve (GoService.answer .smallest) [.request 1 requestSeven (.ok (2, [5])), .peerGone]) ∧
    Served .smallest CService.outcome [.request 1 requestSeven [.set 2 [5] true], .peerGone]
      (serve (CService.answer .smallest) [.request 1 requestSeven [.set 2 [5] true], .peerGone]) ∧
    Served .smallest CppService.outcome [.request 1 requestSeven (.reply 2 [5]), .closed]
      (serve (CppService.answer .smallest) [.request 1 requestSeven (.reply 2 [5]), .closed]) := by
  have h := sessions_answer .smallest [.request 1 requestSeven (.ok (2, [5])), .peerGone]
    [.request 1 requestSeven [.set 2 [5] true], .peerGone] [.request 1 requestSeven (.reply 2 [5]), .closed]
  refine ⟨h.1.mpr fun q hq _ => ?_, h.2.1, h.2.2.mpr fun q hq _ => ?_⟩
  all_goals
    obtain rfl := List.mem_singleton.mp hq
    exact .inr (by unfold Fits; decide)

/-- A reply one byte too long for a ring of 4096 bytes. -/
def longReply : List UInt8 := List.replicate 2033 0

/-- A reply that does not fit ends the session of a Go and of a C++ service: the client gets no answer to it, and
    the request behind it is never read.  The C service sends an error reply and goes on. -/
theorem long_reply_ends_session :
    serve (GoService.answer .smallest)
        [.request 1 requestSeven (.ok (2, longReply)), .request 1 requestSeven (.ok (2, [5]))] =
      ([], .refused) ∧
    serve (CppService.answer .smallest)
        [.request 1 requestSeven (.reply 2 longReply), .request 1 requestSeven (.reply 2 [5])] =
      ([], .refused) ∧
    serve (CService.answer .smallest)
        [.request 1 requestSeven [.set 2 longReply true], .request 1 requestSeven [.set 2 [5] true]] =
      ([(typeServiceError, frame 7 (text "goipc: reply exceeds the maximum size")), (2, frame 7 [5])],
        .serving) := by
  refine ⟨?_, ?_, ?_⟩ <;> decide +kernel

end GoIpc.Service
