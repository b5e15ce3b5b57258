import GoIpc.Lib.Machine
import GoIpc.Lib.Sums

namespace GoIpc.Event

open GoIpc.Lib

/-!
# Events over Unix sockets

The creator of a socket event runs a token server.  Every handle has one connection to it and any
number of goroutines in `wait` and `signal`; its `read` goroutine hands the tokens that come back to
the oldest waiter.  Bytes are delivered in order and no connection breaks.  The server counts its tokens
in an `int`, here a natural number: the two agree while fewer than 2^63 tokens are signalled and not
taken.

* `Handle`, `Handle.step` — one handle, with the server's goroutine for its connection;
* `State`, `State.step` — the server and all handles, every lock-protected section one step;
* `Handle.pending` — the bytes on their way to the server, read as requests;
* `Handle.Lawful` — what the waits, the waiters and `read` of a handle have to do with each other.
-/

/-! ### The model -/

/-- Where a goroutine in `wait` stands. -/
inductive WaitAt
  /-- in the list of waiters, about to send its request -/
  | asking
  /-- in the select -/
  | selecting
  /-- its context has ended -/
  | withdrawing
  /-- `withdraw` failed; in the last receive -/
  | receiving
  /-- withdrawn, about to send the cancel -/
  | cancelling
  /-- returned nil -/
  | returned
  /-- returned the error of its context -/
  | cancelled
deriving DecidableEq

/-- A call of `wait`, with its channel: whether a token is in it. -/
structure Wait where
  pc : WaitAt
  ch : Bool
deriving DecidableEq

/-- Where the goroutine in `sockEvent.read` stands. -/
inductive Reader
  | reading
  | got (b : UInt8)
  /-- has taken wait `w` off the list, about to send on its channel -/
  | handing (w : Nat)
  /-- found no waiter, about to send the token back -/
  | returning
deriving DecidableEq

/-- Where the goroutine in `sockServer.client` stands. -/
inductive Client
  | reading
  | got (b : UInt8)
  /-- has read an `S`, in the read of the count -/
  | counting
  | counted (n : UInt8)
deriving DecidableEq

def byteW : UInt8 := 87
def byteC : UInt8 := 67
def byteS : UInt8 := 83
def byteT : UInt8 := 84
def byteX : UInt8 := 88

/-- A handle and its connection.  `signals` holds what each call of `signal` still has to send;
    `sent` is history: what all of them have sent. -/
structure Handle where
  up : List UInt8
  client : Client
  down : List UInt8
  reader : Reader
  waits : List Wait
  waiters : List Nat
  signals : List Nat
  sent : Nat
deriving DecidableEq

inductive HandleAct
  | wait
  | ask (w : Nat)
  /-- the select receives from the channel -/
  | take (w : Nat)
  /-- the select sees the end of the context -/
  | cancel (w : Nat)
  | withdraw (w : Nat)
  | receive (w : Nat)
  | sendCancel (w : Nat)
  | signal (n : Nat)
  | signalStep (j : Nat)
  | read
  | hand
  /-- the server's goroutine reads a byte -/
  | serve
deriving DecidableEq

namespace Handle

def fresh : Handle := ⟨[], .reading, [], .reading, [], [], [], 0⟩

def put (h : Handle) (w : Nat) (x : Wait) : Handle := { h with waits := h.waits.set w x }

/-- Go on with wait `w` when it stands at `p`. -/
def on (h : Handle) (w : Nat) (p : WaitAt) (k : Wait → Option Handle) : Option Handle :=
  match h.waits[w]? with
  | some x => if x.pc = p then k x else none
  | none => none

/-- One step at a handle. -/
def step (h : Handle) : HandleAct → Option Handle
  | .wait =>
      some { h with waits := h.waits ++ [⟨.asking, false⟩], waiters := h.waiters ++ [h.waits.length] }
  | .ask w => h.on w .asking fun x =>
      some { h.put w { x with pc := .selecting } with up := h.up ++ [byteW] }
  | .take w => h.on w .selecting fun x => if x.ch then some (h.put w ⟨.returned, false⟩) else none
  | .cancel w => h.on w .selecting fun x => some (h.put w { x with pc := .withdrawing })
  | .withdraw w => h.on w .withdrawing fun x =>
      if w ∈ h.waiters then
        some { h.put w { x with pc := .cancelling } with waiters := h.waiters.erase w }
      else some (h.put w { x with pc := .receiving })
  | .receive w => h.on w .receiving fun x => if x.ch then some (h.put w ⟨.returned, false⟩) else none
  | .sendCancel w => h.on w .cancelling fun x =>
      some { h.put w { x with pc := .cancelled } with up := h.up ++ [byteC] }
  | .signal n => some { h with signals := h.signals ++ [n] }
  | .signalStep j =>
      match h.signals[j]? with
      | some n =>
          if 0 < n then
            some { h with
              up := h.up ++ [byteS, UInt8.ofNat (min n 255)]
              signals := h.signals.set j (n - min n 255)
              sent := h.sent + min n 255 }
          else none
      | none => none
  | .read =>
      match h.reader, h.down with
      | .reading, b :: rest => some { h with reader := .got b, down := rest }
      | _, _ => none
  | .hand =>
      match h.reader with
      | .got b =>
          if b = byteT then
            match h.waiters with
            | w :: rest => some { h with reader := .handing w, waiters := rest }
            | [] => some { h with reader := .returning }
          else some { h with reader := .reading }
      | .handing w =>
          match h.waits[w]? with
          | some x => some { h.put w { x with ch := true } with reader := .reading }
          | none => none
      | .returning => some { h with up := h.up ++ [byteS, 1], reader := .reading }
      | .reading => none
  | .serve =>
      match h.client, h.up with
      | .reading, b :: rest => some { h with client := .got b, up := rest }
      | .counting, n :: rest => some { h with client := .counted n, up := rest }
      | _, _ => none

end Handle

/-- The token server and the handles.  `waiting` holds the connections by the index of their handle. -/
structure State where
  handles : List Handle
  tokens : Nat
  waiting : List Nat
deriving DecidableEq

inductive Act
  | connect
  | own (i : Nat) (a : HandleAct)
  /-- the lock-protected section of the server's goroutine for handle `i` -/
  | handle (i : Nat)
deriving DecidableEq

namespace State

/-- The creator's own handle is connected from the start. -/
def start : State := ⟨[.fresh], 0, []⟩

def put (s : State) (i : Nat) (h : Handle) : State := { s with handles := s.handles.set i h }

/-- The server answers the request at the front of its queue. -/
def grant (s : State) (i : Nat) (rest : List Nat) : State :=
  match s.handles[i]? with
  | some h => { s.put i { h with down := h.down ++ [byteT] } with tokens := s.tokens - 1, waiting := rest }
  | none => { s with waiting := rest }

/-- The loop at the end of the section, over the queue it starts with. -/
def distribute : List Nat → State → State
  | [], s => s
  | i :: rest, s => if 0 < s.tokens then distribute rest (s.grant i rest) else s

/-- The section that follows the read of one byte. -/
def take (s : State) (i : Nat) (h : Handle) (b : UInt8) : State :=
  if b = byteW then { s.put i { h with client := .reading } with waiting := s.waiting ++ [i] }
  else if b = byteC ∧ i ∈ s.waiting then
    { s.put i { h with client := .reading, down := h.down ++ [byteX] } with
      waiting := s.waiting.erase i }
  else s.put i { h with client := .reading }

def step (s : State) : Act → Option State
  | .connect => some { s with handles := s.handles ++ [.fresh] }
  | .own i a =>
      match s.handles[i]? with
      | some h => (h.step a).map (s.put i)
      | none => none
  | .handle i =>
      match s.handles[i]? with
      | some h =>
          match h.client with
          | .got b =>
              if b = byteS then some (s.put i { h with client := .counting })
              else some (distribute (s.take i h b).waiting (s.take i h b))
          | .counted n =>
              let t := { s.put i { h with client := .reading } with tokens := s.tokens + n.toNat }
              some (distribute t.waiting t)
          | _ => none
      | none => none

end State

/-- A socket event. -/
def machine : Machine State Act := ⟨State.start, State.step⟩

/-! ### The steps as rules -/

/-- The steps at a handle, one rule for each branch of `Handle.step`. -/
inductive Handle.Step (h : Handle) : HandleAct → Handle → Prop
  | wait : Step h .wait { h with
      waits := h.waits ++ [⟨.asking, false⟩], waiters := h.waiters ++ [h.waits.length] }
  | ask {w x} (here : h.waits[w]? = some x) (pc : x.pc = .asking) : Step h (.ask w)
      { h.put w { x with pc := .selecting } with up := h.up ++ [byteW] }
  | take {w x} (here : h.waits[w]? = some x) (pc : x.pc = .selecting) (ch : x.ch = true) :
      Step h (.take w) (h.put w ⟨.returned, false⟩)
  | cancel {w x} (here : h.waits[w]? = some x) (pc : x.pc = .selecting) :
      Step h (.cancel w) (h.put w { x with pc := .withdrawing })
  | withdraw {w x} (here : h.waits[w]? = some x) (pc : x.pc = .withdrawing) (mem : w ∈ h.waiters) :
      Step h (.withdraw w)
        { h.put w { x with pc := .cancelling } with waiters := h.waiters.erase w }
  /-- the wait has left the list already -/
  | late {w x} (here : h.waits[w]? = some x) (pc : x.pc = .withdrawing) (left : w ∉ h.waiters) :
      Step h (.withdraw w) (h.put w { x with pc := .receiving })
  | receive {w x} (here : h.waits[w]? = some x) (pc : x.pc = .receiving) (ch : x.ch = true) :
      Step h (.receive w) (h.put w ⟨.returned, false⟩)
  | sendCancel {w x} (here : h.waits[w]? = some x) (pc : x.pc = .cancelling) :
      Step h (.sendCancel w) { h.put w { x with pc := .cancelled } with up := h.up ++ [byteC] }
  | signal {n} : Step h (.signal n) { h with signals := h.signals ++ [n] }
  | signalStep {j n} : Step h (.signalStep j) { h with
      up := h.up ++ [byteS, UInt8.ofNat (min n 255)]
      signals := h.signals.set j (n - min n 255)
      sent := h.sent + min n 255 }
  | read {b rest} (reader : h.reader = .reading) (down : h.down = b :: rest) :
      Step h .read { h with reader := .got b, down := rest }
  /-- a token for the oldest waiter -/
  | answer {w rest} (reader : h.reader = .got byteT) (waiters : h.waiters = w :: rest) :
      Step h .hand { h with reader := .handing w, waiters := rest }
  | nobody (reader : h.reader = .got byteT) (waiters : h.waiters = []) :
      Step h .hand { h with reader := .returning }
  | skip {b} (reader : h.reader = .got b) (other : b ≠ byteT) :
      Step h .hand { h with reader := .reading }
  | hand {w x} (reader : h.reader = .handing w) (here : h.waits[w]? = some x) :
      Step h .hand { h.put w { x with ch := true } with reader := .reading }
  | giveBack (reader : h.reader = .returning) :
      Step h .hand { h with up := h.up ++ [byteS, 1], reader := .reading }
  | serve {b rest} (client : h.client = .reading) (up : h.up = b :: rest) :
      Step h .serve { h with client := .got b, up := rest }
  | serveCount {n rest} (client : h.client = .counting) (up : h.up = n :: rest) :
      Step h .serve { h with client := .counted n, up := rest }

theorem Handle.on_eq_some {h h' : Handle} {w : Nat} {p : WaitAt} {k : Wait → Option Handle}
    (hs : h.on w p k = some h') : ∃ x, h.waits[w]? = some x ∧ x.pc = p ∧ k x = some h' := by
  unfold on at hs
  split at hs
  · next x hx =>
    split_ifs at hs with hp
    exact ⟨x, hx, hp, hs⟩
  · cases hs

/-- Every step at a handle is by one of the rules. -/
theorem Handle.step_rule {h h' : Handle} {a : HandleAct} (hs : h.step a = some h') :
    h.Step a h' := by
  cases a with
  | wait => cases hs; exact .wait
  | signal n => cases hs; exact .signal
  | ask w =>
    obtain ⟨x, hx, hpc, hk⟩ := on_eq_some hs
    cases hk
    exact .ask hx hpc
  | take w =>
    obtain ⟨x, hx, hpc, hk⟩ := on_eq_some hs
    split at hk <;> cases hk
    exact .take hx hpc ‹_›
  | cancel w =>
    obtain ⟨x, hx, hpc, hk⟩ := on_eq_some hs
    cases hk
    exact .cancel hx hpc
  | withdraw w =>
    obtain ⟨x, hx, hpc, hk⟩ := on_eq_some hs
    split at hk <;> cases hk
    · exact .withdraw hx hpc ‹_›
    · exact .late hx hpc ‹_›
  | receive w =>
    obtain ⟨x, hx, hpc, hk⟩ := on_eq_some hs
    split at hk <;> cases hk
    exact .receive hx hpc ‹_›
  | sendCancel w =>
    obtain ⟨x, hx, hpc, hk⟩ := on_eq_some hs
    cases hk
    exact .sendCancel hx hpc
  | signalStep j =>
    simp only [Handle.step] at hs
    split at hs
    · split at hs <;> cases hs
      exact .signalStep
    · cases hs
  | read =>
    simp only [Handle.step] at hs
    split at hs <;> cases hs
    exact .read ‹_› ‹_›
  | hand =>
    simp only [Handle.step] at hs
    split at hs
    · next b hreader =>
      split at hs
      · next hT =>
        subst hT
        split at hs <;> cases hs
        · exact .answer hreader ‹_›
        · exact .nobody hreader ‹_›
      · cases hs
        exact .skip hreader ‹_›
    · split at hs <;> cases hs
      exact .hand ‹_› ‹_›
    · cases hs
      exact .giveBack ‹_›
    · cases hs
  | serve =>
    simp only [Handle.step] at hs
    split at hs <;> cases hs
    · exact .serve ‹_› ‹_›
    · exact .serveCount ‹_› ‹_›

/-- The steps of the event. -/
inductive State.Step (s : State) : Act → State → Prop
  | connect : Step s .connect { s with handles := s.handles ++ [.fresh] }
  | own {i a h h'} (here : s.handles[i]? = some h) (step : h.step a = some h') :
      Step s (.own i a) (s.put i h')
  /-- the first byte of a signal -/
  | count {i h} (here : s.handles[i]? = some h) (client : h.client = .got byteS) :
      Step s (.handle i) (s.put i { h with client := .counting })
  | take {i h b} (here : s.handles[i]? = some h) (client : h.client = .got b) (other : b ≠ byteS) :
      Step s (.handle i) (distribute (s.take i h b).waiting (s.take i h b))
  | counted {i h n} (here : s.handles[i]? = some h) (client : h.client = .counted n) :
      Step s (.handle i) (distribute s.waiting
        { s.put i { h with client := .reading } with tokens := s.tokens + n.toNat })

/-- Every step of the event is by one of the rules. -/
theorem State.step_rule {s s' : State} {a : Act} (hs : s.step a = some s') : s.Step a s' := by
  cases a with
  | connect => cases hs; exact .connect
  | own i a =>
    simp only [State.step] at hs
    split at hs
    · obtain ⟨h', hstep, rfl⟩ := Option.map_eq_some_iff.mp hs
      exact .own ‹_› hstep
    · cases hs
  | handle i =>
    simp only [State.step] at hs
    split at hs
    · next h hi =>
      split at hs
      · next b hc =>
        split at hs <;> cases hs
        · subst ‹b = byteS›
          exact .count hi hc
        · exact .take hi hc ‹_›
      · cases hs
        exact .counted hi ‹_›
      · cases hs
    · cases hs

/-! ### Requests on their way -/

/-- What a handle asks of the server. -/
inductive Req
  | wait
  | cancel
  | signal (n : UInt8)
deriving DecidableEq

def Req.encode : Req → List UInt8
  | .wait => [byteW]
  | .cancel => [byteC]
  | .signal n => [byteS, n]

/-- The requests in a byte stream; `mid` says that it starts with the count of a signal. -/
def decode : Bool → List UInt8 → List Req
  | _, [] => []
  | true, n :: bs => .signal n :: decode false bs
  | false, b :: bs =>
      if b = byteS then decode true bs
      else if b = byteW then .wait :: decode false bs
      else if b = byteC then .cancel :: decode false bs
      else decode false bs

/-- The stream ends with a whole request. -/
def whole : Bool → List UInt8 → Bool
  | mid, [] => !mid
  | true, _ :: bs => whole false bs
  | false, b :: bs => whole (b = byteS) bs

theorem decode_append {m : Bool} {bs : List UInt8} (h : whole m bs = true) (cs : List UInt8) :
    decode m (bs ++ cs) = decode m bs ++ decode false cs ∧ whole m (bs ++ cs) = whole false cs := by
  induction bs generalizing m with
  | nil =>
    cases m with
    | false => exact ⟨by simp [decode], rfl⟩
    | true => cases h
  | cons b bs ih =>
    cases m with
    | true =>
      have hrest := ih (m := false) h
      exact ⟨by simp [decode, hrest.1], hrest.2⟩
    | false =>
      have hrest := ih (m := decide (b = byteS)) h
      refine ⟨?_, hrest.2⟩
      by_cases hS : b = byteS
      · simp only [hS, decide_true] at hrest
        simp [decode, hS, hrest.1]
      · simp only [hS, decide_false] at hrest
        simp only [List.cons_append, decode, if_neg hS, hrest.1]
        split_ifs <;> rfl

theorem decode_encode (r : Req) : decode false r.encode = [r] ∧ whole false r.encode = true := by
  cases r <;> exact ⟨rfl, rfl⟩

/-- A whole request goes to the end of the stream. -/
theorem decode_append_encode {m : Bool} {bs : List UInt8} (h : whole m bs = true) (r : Req) :
    decode m (bs ++ r.encode) = decode m bs ++ [r] ∧ whole m (bs ++ r.encode) = true := by
  obtain ⟨hd, hw⟩ := decode_append h r.encode
  obtain ⟨hd', hw'⟩ := decode_encode r
  exact ⟨by rw [hd, hd'], by rw [hw, hw']⟩

namespace Handle

/-- The requests between the handle and the server's queue. -/
def pending (h : Handle) : List Req :=
  match h.client with
  | .reading => decode false h.up
  | .got b => decode false (b :: h.up)
  | .counting => decode true h.up
  | .counted n => .signal n :: decode false h.up

/-- No request is cut off. -/
def framed (h : Handle) : Bool :=
  match h.client with
  | .reading | .counted _ => whole false h.up
  | .got b => whole false (b :: h.up)
  | .counting => whole true h.up

variable {h h' : Handle}

/-- Sending a request. -/
theorem pending_send (hf : h.framed = true) (r : Req) (hclient : h'.client = h.client)
    (hup : h'.up = h.up ++ r.encode) : h'.pending = h.pending ++ [r] ∧ h'.framed = true := by
  unfold pending framed
  rw [hclient, hup]
  cases hc : h.client with
  | reading =>
    simp only [framed, hc] at hf
    exact decode_append_encode hf r
  | got b =>
    simp only [framed, hc] at hf
    exact decode_append_encode hf r
  | counting =>
    simp only [framed, hc] at hf
    exact decode_append_encode hf r
  | counted n =>
    simp only [framed, hc] at hf
    obtain ⟨hd, hw⟩ := decode_append_encode hf r
    exact ⟨by simp only [hd, List.cons_append], hw⟩

theorem pending_congr (hclient : h'.client = h.client) (hup : h'.up = h.up) :
    h'.pending = h.pending ∧ h'.framed = h.framed := by
  unfold pending framed
  rw [hclient, hup]
  exact ⟨rfl, rfl⟩

/-- A byte read by the server's goroutine is still on its way. -/
theorem pending_serve {b : UInt8} {rest : List UInt8} (hc : h.client = .reading)
    (hup : h.up = b :: rest) :
    ({ h with client := .got b, up := rest } : Handle).pending = h.pending ∧
      ({ h with client := .got b, up := rest } : Handle).framed = h.framed := by
  simp [pending, framed, hc, hup]

/-- So is the count of a signal. -/
theorem pending_serveCount {n : UInt8} {rest : List UInt8} (hc : h.client = .counting)
    (hup : h.up = n :: rest) :
    ({ h with client := .counted n, up := rest } : Handle).pending = h.pending ∧
      ({ h with client := .counted n, up := rest } : Handle).framed = h.framed := by
  simp [pending, framed, hc, hup, decode, whole]

/-- The server takes a request that is one byte. -/
theorem pending_take {b : UInt8} (hc : h.client = .got b) (hS : b ≠ byteS) :
    h.pending = (if b = byteW then [.wait] else if b = byteC then [.cancel] else []) ++
      ({ h with client := .reading } : Handle).pending ∧
    ({ h with client := .reading } : Handle).framed = h.framed := by
  simp only [pending, framed, hc, decode, whole, hS, decide_false, if_false, and_true]
  split_ifs <;> rfl

/-- The server finds the first byte of a signal. -/
theorem pending_count (hc : h.client = .got byteS) :
    ({ h with client := .counting } : Handle).pending = h.pending ∧
      ({ h with client := .counting } : Handle).framed = h.framed := by
  simp [pending, framed, hc, decode, whole]

/-- The server takes a signal. -/
theorem pending_counted {n : UInt8} (hc : h.client = .counted n) :
    h.pending = .signal n :: ({ h with client := .reading } : Handle).pending ∧
      ({ h with client := .reading } : Handle).framed = h.framed := by
  simp [pending, framed, hc]

end Handle

/-! ### What a handle keeps -/

/-- A wait that a token can still reach. -/
def WaitAt.live : WaitAt → Bool
  | .asking | .selecting | .withdrawing => true
  | _ => false

/-- A wait that has left the list to return the error of its context. -/
def WaitAt.gone : WaitAt → Bool
  | .cancelling | .cancelled => true
  | _ => false

structure Handle.Lawful (h : Handle) : Prop where
  framed : h.framed = true
  nodup : h.waiters.Nodup
  waiter : ∀ w ∈ h.waiters, ∃ x, h.waits[w]? = some x ∧ x.pc.live = true ∧ x.ch = false
  handing : ∀ w, h.reader = .handing w → w ∉ h.waiters ∧
    ∃ x, h.waits[w]? = some x ∧ (x.pc.live = true ∨ x.pc = .receiving) ∧ x.ch = false
  gone : ∀ (w : Nat) (x : Wait), h.waits[w]? = some x → x.pc.gone = true → x.ch = false

namespace Handle

variable {h h' : Handle} {w : Nat} {x y : Wait} {p : WaitAt}

theorem Lawful.fresh : Lawful Handle.fresh where
  framed := rfl
  nodup := List.nodup_nil
  waiter w hw := by cases hw
  handing w hw := by cases hw
  gone w x hx := by cases hx

/-- The waits after one of them has moved. -/
theorem waits_set (hx : h.waits[w]? = some x) (y : Wait) (u : Nat) :
    (h.waits.set w y)[u]? = if u = w then some y else h.waits[u]? := by
  have hw : w < h.waits.length := (List.getElem?_eq_some_iff.mp hx).1
  rw [List.getElem?_set]
  by_cases hu : w = u
  · subst hu
    rw [if_pos rfl, if_pos hw, if_pos rfl]
  · rw [if_neg hu, if_neg (Ne.symm hu)]

/-- Wait `w` moves from `x` to `y`. -/
theorem Lawful.move (hl : h.Lawful) (hx : h.waits[w]? = some x) (hframed : h'.framed = true)
    (hwaits : h'.waits = h.waits.set w y) (hreader : h'.reader = h.reader)
    (hsub : h'.waiters.Sublist h.waiters)
    (hwaiter : w ∈ h'.waiters → y.pc.live = true ∧ y.ch = false)
    (hhanding : h.reader = .handing w → (y.pc.live = true ∨ y.pc = .receiving) ∧ y.ch = false)
    (hgone : y.pc.gone = true → y.ch = false) : h'.Lawful := by
  have hget := waits_set hx y
  refine ⟨hframed, hsub.nodup hl.nodup, fun u hu => ?_, fun u hu => ?_, fun u z hz hg => ?_⟩
  · rw [hwaits, hget]
    by_cases huw : u = w
    · subst huw
      exact ⟨y, if_pos rfl, hwaiter hu⟩
    · rw [if_neg huw]
      exact hl.waiter u (hsub.subset hu)
  · rw [hreader] at hu
    obtain ⟨hnot, z, hz, hlive⟩ := hl.handing u hu
    refine ⟨fun hmem => hnot (hsub.subset hmem), ?_⟩
    rw [hwaits, hget]
    by_cases huw : u = w
    · subst huw
      exact ⟨y, if_pos rfl, hhanding hu⟩
    · rw [if_neg huw]
      exact ⟨z, hz, hlive⟩
  · rw [hwaits, hget] at hz
    by_cases huw : u = w
    · rw [if_pos huw] at hz
      cases hz
      exact hgone hg
    · rw [if_neg huw] at hz
      exact hl.gone u z hz hg

/-- What the server has read does not matter, while no request is cut off. -/
theorem Lawful.client (hl : h.Lawful) {c : Client}
    (hf : ({ h with client := c } : Handle).framed = h.framed) :
    ({ h with client := c } : Handle).Lawful :=
  ⟨hf.trans hl.framed, hl.nodup, hl.waiter, hl.handing, hl.gone⟩

/-- What comes from the server does not matter. -/
theorem Lawful.down (hl : h.Lawful) (bs : List UInt8) : ({ h with down := bs } : Handle).Lawful :=
  ⟨hl.framed, hl.nodup, hl.waiter, hl.handing, hl.gone⟩

/-- A waiter has no token. -/
theorem Lawful.waiter_at (hl : h.Lawful) (hx : h.waits[w]? = some x) (hw : w ∈ h.waiters) :
    x.pc.live = true ∧ x.ch = false := by
  obtain ⟨z, hz, hlive⟩ := hl.waiter w hw
  rw [hx] at hz
  cases hz
  exact hlive

theorem Lawful.handing_at (hl : h.Lawful) (hx : h.waits[w]? = some x) (hr : h.reader = .handing w) :
    (x.pc.live = true ∨ x.pc = .receiving) ∧ x.ch = false := by
  obtain ⟨-, z, hz, hlive⟩ := hl.handing w hr
  rw [hx] at hz
  cases hz
  exact hlive

/-- A wait that takes its token from the channel. -/
theorem Lawful.took (hl : h.Lawful) (hx : h.waits[w]? = some x) (hch : x.ch = true) :
    (h.put w ⟨.returned, false⟩).Lawful := by
  refine hl.move hx ?_ rfl rfl (.refl _) (fun hw => ?_)
    (fun hr => ?_) nofun
  · rw [(pending_congr rfl rfl).2]
    exact hl.framed
  · have := (hl.waiter_at hx hw).2
    rw [hch] at this
    cases this
  · have := (hl.handing_at hx hr).2
    rw [hch] at this
    cases this

/-- A new wait goes to the end of the list. -/
theorem Lawful.wait (hl : h.Lawful) : ({ h with
    waits := h.waits ++ [⟨.asking, false⟩], waiters := h.waiters ++ [h.waits.length] } :
    Handle).Lawful := by
  have hnew : h.waits.length ∉ h.waiters := fun hmem => by
    obtain ⟨x, hx, -⟩ := hl.waiter _ hmem
    simp at hx
  have hold : ∀ {u x}, h.waits[u]? = some x →
      (h.waits ++ [(⟨.asking, false⟩ : Wait)])[u]? = some x := fun hx => by
    rwa [List.getElem?_append_left (List.getElem?_eq_some_iff.mp hx).1]
  refine ⟨(pending_congr rfl rfl).2.trans hl.framed, ?_, fun u hu => ?_, fun u hu => ?_,
    fun u x hx hg => ?_⟩
  · exact List.nodup_append.mpr ⟨hl.nodup, by simp, by
      rintro u hu v hv rfl
      rw [List.mem_singleton.mp hv] at hu
      exact hnew hu⟩
  · rcases List.mem_append.mp hu with hu | hu
    · obtain ⟨x, hx, hlive⟩ := hl.waiter u hu
      exact ⟨x, hold hx, hlive⟩
    · rw [List.mem_singleton.mp hu]
      exact ⟨⟨.asking, false⟩, by simp, rfl, rfl⟩
  · obtain ⟨hnot, x, hx, hlive⟩ := hl.handing u hu
    refine ⟨fun hmem => ?_, x, hold hx, hlive⟩
    rcases List.mem_append.mp hmem with hmem | hmem
    · exact hnot hmem
    · rw [List.mem_singleton.mp hmem] at hx
      simp at hx
  · rcases Nat.lt_or_ge u h.waits.length with hlt | hge
    · rw [List.getElem?_append_left hlt] at hx
      exact hl.gone u x hx hg
    · rw [List.getElem?_append_right hge] at hx
      have : x = ⟨.asking, false⟩ := by
        cases hk : u - h.waits.length with
        | zero => simpa [hk] using hx.symm
        | succ k => simp [hk] at hx
      rw [this] at hg
      cases hg

/-- `read` takes the oldest waiter off the list. -/
theorem Lawful.answer (hl : h.Lawful) {rest : List Nat} (hws : h.waiters = w :: rest) :
    ({ h with reader := .handing w, waiters := rest } : Handle).Lawful := by
  have hnodup := hl.nodup
  rw [hws, List.nodup_cons] at hnodup
  refine ⟨(pending_congr rfl rfl).2.trans hl.framed, hnodup.2,
    fun u hu => hl.waiter u (by simp [hws, hu]), ?_, hl.gone⟩
  intro u hu
  cases hu
  obtain ⟨x, hx, hlive, hch⟩ := hl.waiter w (by simp [hws])
  exact ⟨hnodup.1, x, hx, .inl hlive, hch⟩

/-- `read` hands a token to a wait, which has not been withdrawn. -/
theorem Lawful.hand (hl : h.Lawful) (hr : h.reader = .handing w) (hx : h.waits[w]? = some x) :
    ({ h.put w { x with ch := true } with reader := .reading } : Handle).Lawful := by
  obtain ⟨hnot, -⟩ := hl.handing w hr
  obtain ⟨hlive, hch⟩ := hl.handing_at hx hr
  have hget := waits_set hx { x with ch := true }
  refine ⟨(pending_congr rfl rfl).2.trans hl.framed, hl.nodup, fun u hu => ?_,
    nofun, fun u z hz hg => ?_⟩
  · show ∃ z, (h.waits.set w _)[u]? = some z ∧ _
    rw [hget, if_neg (fun huw : u = w => hnot (huw ▸ hu))]
    exact hl.waiter u hu
  · have hz : (h.waits.set w _)[u]? = some z := hz
    rw [hget] at hz
    split at hz
    · cases hz
      simp only at hg
      rcases hlive with hlive | hlive
      · cases hpc : x.pc <;> simp [hpc, WaitAt.live, WaitAt.gone] at hlive hg
      · simp [hlive, WaitAt.gone] at hg
    · exact hl.gone u z hz hg

/-- The list and the waits stay, and `read` has no wait in its hands. -/
theorem Lawful.keep (hl : h.Lawful) (hframed : h'.framed = h.framed)
    (hwaits : h'.waits = h.waits) (hwaiters : h'.waiters = h.waiters)
    (hreader : ∀ w, h'.reader = .handing w → h.reader = .handing w) : h'.Lawful := by
  refine ⟨hframed.trans hl.framed, ?_, ?_, fun w hw => ?_, ?_⟩
  · exact hwaiters ▸ hl.nodup
  · exact hwaits ▸ hwaiters ▸ hl.waiter
  · rw [hwaits, hwaiters]
    exact hl.handing w (hreader w hw)
  · exact hwaits ▸ hl.gone

/-- **Every step at a handle keeps it lawful.** -/
theorem Lawful.step {a : HandleAct} (hl : h.Lawful) (hs : h.step a = some h') : h'.Lawful := by
  have same : ∀ {h' : Handle}, h'.client = h.client → h'.up = h.up → h'.framed = true :=
    fun hc hu => (pending_congr hc hu).2.trans hl.framed
  -- a live wait that stays live
  have stays : ∀ {w x}, h.waits[w]? = some x →
      (w ∈ h.waiters → x.ch = false) ∧ (h.reader = .handing w → x.ch = false) := fun hx =>
    ⟨fun hw => (hl.waiter_at hx hw).2, fun hr => (hl.handing_at hx hr).2⟩
  cases Handle.step_rule hs with
  | wait => exact hl.wait
  | ask hx hpc =>
    exact hl.move hx (pending_send hl.framed .wait (by rfl) (by rfl)).2 rfl rfl (.refl _)
      (fun hw => ⟨rfl, (stays hx).1 hw⟩) (fun hr => ⟨.inl rfl, (stays hx).2 hr⟩) nofun
  | take hx _ hch | receive hx _ hch => exact hl.took hx hch
  | cancel hx =>
    exact hl.move hx (same rfl rfl) rfl rfl (.refl _) (fun hw => ⟨rfl, (stays hx).1 hw⟩)
      (fun hr => ⟨.inl rfl, (stays hx).2 hr⟩) nofun
  | @withdraw w x hx hpc hw =>
    refine hl.move hx (same rfl rfl) rfl rfl List.erase_sublist (fun hmem => ?_) (fun hr => ?_)
      (fun _ => (hl.waiter_at hx hw).2)
    · exact absurd hmem (hl.nodup.not_mem_erase)
    · exact absurd hw (hl.handing w hr).1
  | late hx hpc hw =>
    exact hl.move hx (same rfl rfl) rfl rfl (.refl _) (fun hmem => absurd hmem hw)
      (fun hr => ⟨.inr rfl, (stays hx).2 hr⟩) nofun
  | @sendCancel w x hx hpc =>
    refine hl.move hx (pending_send hl.framed .cancel (by rfl) (by rfl)).2 rfl rfl (.refl _)
      (fun hw => ?_) (fun hr => ?_) (fun _ => hl.gone w x hx (hpc ▸ rfl))
    · have := (hl.waiter_at hx hw).1
      rw [hpc] at this
      cases this
    · have := (hl.handing_at hx hr).1
      rw [hpc] at this
      rcases this with h | h <;> cases h
  | signal => exact hl.keep (pending_congr rfl rfl).2 rfl rfl (fun _ => id)
  | signalStep =>
    exact hl.keep ((pending_send hl.framed (.signal _) (by rfl) (by rfl)).2.trans hl.framed.symm)
      rfl rfl (fun _ => id)
  | read | nobody | skip => exact hl.keep (pending_congr rfl rfl).2 rfl rfl nofun
  | answer _ hws => exact hl.answer hws
  | hand hr hx => exact hl.hand hr hx
  | giveBack =>
    exact hl.keep ((pending_send hl.framed (.signal 1) (by rfl) (by rfl)).2.trans hl.framed.symm)
      rfl rfl nofun
  | serve hc hup => exact hl.keep (pending_serve hc hup).2 rfl rfl (fun _ => id)
  | serveCount hc hup => exact hl.keep (pending_serveCount hc hup).2 rfl rfl (fun _ => id)

end Handle

end GoIpc.Event
