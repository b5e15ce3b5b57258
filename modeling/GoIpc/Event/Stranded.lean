import GoIpc.Event.Tokens

namespace GoIpc.Event

open GoIpc.Lib

/-!
# Waiters and their requests

A wait is in the list of its handle and asks the server once; a withdrawn wait sends a cancel that
drops *a* queued request of the connection.  When the request had been answered, the cancel finds
none, and the answer finds no waiter and goes back.  The two ends agree as long as no wait of the
handle begins between these two (`Even`): it could take the answer, or lose its request to the cancel.

* `Even` — at most one side is ahead, and then nobody is affected;
* `Handle.step_even`, `State.Agreed.step` — what every step under `evenly` keeps;
* `no_stranded_waiter` — quiet states of such runs;
* `stranded_waiter` — the run in which a late cancel drops the request of a new wait.
-/

/-! ### What is on its way -/

def Wait.asks (x : Wait) : Nat := if x.pc = .asking then 1 else 0

def Wait.cancels (x : Wait) : Nat := if x.pc = .cancelling then 1 else 0

def Req.waits : Req → Nat
  | .wait => 1
  | _ => 0

def Req.cancels : Req → Nat
  | .cancel => 1
  | _ => 0

/-- An answer that `read` has not looked at. -/
def Reader.answers : Reader → Nat
  | .got b => if b = byteT then 1 else 0
  | _ => 0

namespace Handle

/-- The requests on their way to the server's queue. -/
def requests (h : Handle) : Nat := total Wait.asks h.waits + total Req.waits h.pending

/-- The cancels on their way. -/
def cancels (h : Handle) : Nat := total Wait.cancels h.waits + total Req.cancels h.pending

/-- The answers on their way to the list of waiters. -/
def answers (h : Handle) : Nat := h.coming + h.reader.answers

end Handle

/-- With `q` requests of the handle queued: when requests and answers are ahead of waiters and cancels
    no request is left, and when they are behind nobody waits. -/
structure Even (q : Nat) (h : Handle) : Prop where
  ahead : h.waiters.length + h.cancels < q + h.requests + h.answers → q + h.requests = 0
  behind : q + h.requests + h.answers < h.waiters.length + h.cancels → h.waiters.length = 0

theorem Even.fresh : Even 0 Handle.fresh :=
  ⟨fun h => absurd h (by decide), fun h => absurd h (by decide)⟩

namespace Handle

variable {h h' : Handle} {w q : Nat} {x y : Wait}

/-- Wait `w` moves and sends `rs`. -/
theorem requests_move (hx : h.waits[w]? = some x) (hwaits : h'.waits = h.waits.set w y) {rs : List Req}
    (hpending : h'.pending = h.pending ++ rs) :
    h'.requests + x.asks = h.requests + y.asks + total Req.waits rs ∧
      h'.cancels + x.cancels = h.cancels + y.cancels + total Req.cancels rs := by
  have hasks := total_set Wait.asks hx y
  have hcancels := total_set Wait.cancels hx y
  simp only [requests, cancels, hwaits, hpending, total_append]
  omega

/-- The waits stay where they are. -/
theorem requests_send (hwaits : h'.waits = h.waits) {n : UInt8}
    (hpending : h'.pending = h.pending ++ [.signal n]) :
    h'.requests = h.requests ∧ h'.cancels = h.cancels := by
  simp [requests, cancels, hwaits, hpending, Req.waits, Req.cancels]

theorem requests_congr (hwaits : h'.waits = h.waits) (hpending : h'.pending = h.pending) :
    h'.requests = h.requests ∧ h'.cancels = h.cancels := by
  rw [requests, cancels, hwaits, hpending]
  exact ⟨rfl, rfl⟩

theorem Even_congr (heven : Even q h) (hreq : h'.requests = h.requests ∧ h'.cancels = h.cancels)
    (hanswers : h'.answers = h.answers) (hwaiters : h'.waiters = h.waiters) : Even q h' := by
  obtain ⟨hahead, hbehind⟩ := heven
  refine ⟨?_, ?_⟩ <;> rw [hreq.1, hreq.2, hanswers, hwaiters] <;> assumption

/-- Wait `w` moves, with what it sends, and stays where it is in the list. -/
theorem even_move (heven : Even q h) (rs : List Req) (hx : h.waits[w]? = some x)
    (hwaits : h'.waits = h.waits.set w y) (hpending : h'.pending = h.pending ++ rs)
    (hasks : y.asks + total Req.waits rs = x.asks)
    (hcancels : y.cancels + total Req.cancels rs = x.cancels) (hdown : h'.down = h.down)
    (hreader : h'.reader.answers = h.reader.answers) (hwaiters : h'.waiters = h.waiters) :
    Even q h' := by
  have hmove := requests_move hx hwaits hpending
  refine Even_congr heven ⟨by omega, by omega⟩ ?_ hwaiters
  rw [answers, answers, coming, coming, hdown, hreader]

/-- A wait begins while the two sides are equal. -/
theorem even_wait (heq : q + h.requests + h.answers = h.waiters.length + h.cancels)
    (hwaits : h'.waits = h.waits ++ [⟨.asking, false⟩]) (hpending : h'.pending = h.pending)
    (hanswers : h'.answers = h.answers) (hws : h'.waiters = h.waiters ++ [h.waits.length]) :
    Even q h' := by
  have hrequests : h'.requests = h.requests + 1 := by
    simp only [requests, hwaits, hpending, total_append, total_cons, total_nil, Wait.asks, if_true]
    omega
  have hcancels : h'.cancels = h.cancels := by simp [cancels, hwaits, hpending, Wait.cancels]
  have hlen : h'.waiters.length = h.waiters.length + 1 := by simp [hws]
  exact ⟨by omega, by omega⟩

/-- A wait leaves the list, and has a cancel to send. -/
theorem even_withdraw (heven : Even q h) (hx : h.waits[w]? = some x) (hpc : x.pc = .withdrawing)
    (hmem : w ∈ h.waiters) (hwaits : h'.waits = h.waits.set w { x with pc := .cancelling })
    (hpending : h'.pending = h.pending ++ []) (hanswers : h'.answers = h.answers)
    (hws : h'.waiters = h.waiters.erase w) : Even q h' := by
  obtain ⟨hahead, hbehind⟩ := heven
  have hmove := requests_move hx hwaits hpending
  have hpos := List.length_pos_of_mem hmem
  have hlen := List.length_erase_of_mem hmem
  rw [← hws] at hlen
  simp [Wait.asks, Wait.cancels, hpc] at hmove
  exact ⟨by omega, by omega⟩

/-- An answer finds a waiter, or nobody. -/
theorem even_answer (heven : Even q h) (hreq : h'.requests = h.requests ∧ h'.cancels = h.cancels)
    (hanswers : h'.answers + 1 = h.answers) (hws : h'.waiters = h.waiters.tail) : Even q h' := by
  obtain ⟨hahead, hbehind⟩ := heven
  have hlen : h'.waiters.length = h.waiters.length - 1 := by rw [hws, List.length_tail]
  exact ⟨by omega, by omega⟩

/-- **A step at a handle keeps it even**; a wait begins only while the two sides are equal. -/
theorem step_even {a : HandleAct} (hl : h.Lawful) (heven : Even q h)
    (hwait : a = .wait → q + h.requests + h.answers = h.waiters.length + h.cancels)
    (hs : h.step a = some h') : Even q h' := by
  have same : ∀ {h' : Handle}, h'.client = h.client → h'.up = h.up →
      h'.pending = h.pending ++ [] := fun hc hu => by
    rw [(pending_congr hc hu).1, List.append_nil]
  cases Handle.step_rule hs with
  | wait => exact even_wait (hwait rfl) rfl (pending_congr rfl rfl).1 rfl rfl
  | ask hx hpc =>
    exact even_move heven [.wait] hx rfl (pending_send hl.framed .wait (by rfl) (by rfl)).1
      (by simp [Wait.asks, hpc, Req.waits]) (by simp [Wait.cancels, hpc, Req.cancels]) rfl rfl rfl
  | sendCancel hx hpc =>
    exact even_move heven [.cancel] hx rfl (pending_send hl.framed .cancel (by rfl) (by rfl)).1
      (by simp [Wait.asks, hpc, Req.waits]) (by simp [Wait.cancels, hpc, Req.cancels]) rfl rfl rfl
  | take hx hpc | receive hx hpc | cancel hx hpc | late hx hpc =>
    exact even_move heven [] hx rfl (same rfl rfl) (by simp [Wait.asks, hpc])
      (by simp [Wait.cancels, hpc]) rfl rfl rfl
  | withdraw hx hpc hmem => exact even_withdraw heven hx hpc hmem rfl (same rfl rfl) rfl rfl
  | hand hreader hx =>
    exact even_move heven [] hx rfl (same rfl rfl) (by simp [Wait.asks]) (by simp [Wait.cancels]) rfl
      (hreader ▸ rfl) rfl
  | answer hreader hws | nobody hreader hws =>
    exact even_answer heven (requests_congr rfl (pending_congr rfl rfl).1)
      (by simp [answers, coming, hreader, Reader.answers]) (by simp [hws])
  -- the two sides stay as they are
  | signal => exact Even_congr heven (requests_congr rfl (pending_congr rfl rfl).1) rfl rfl
  | signalStep =>
    exact Even_congr heven (requests_send rfl (pending_send hl.framed (.signal _) (by rfl) (by rfl)).1) rfl rfl
  | giveBack hreader =>
    exact Even_congr heven (requests_send rfl (pending_send hl.framed (.signal 1) (by rfl) (by rfl)).1)
      (by simp [answers, coming, hreader, Reader.answers]) rfl
  | read hreader hdown =>
    refine Even_congr heven (requests_congr rfl (pending_congr rfl rfl).1) ?_ rfl
    simp only [answers, coming, hreader, hdown, Reader.answers, List.count_cons, beq_iff_eq]
    omega
  | skip hreader hT =>
    exact Even_congr heven (requests_congr rfl (pending_congr rfl rfl).1)
      (by simp [answers, coming, hreader, Reader.answers, hT]) rfl
  | serve hc hup => exact Even_congr heven (requests_congr rfl (pending_serve hc hup).1) rfl rfl
  | serveCount hc hup =>
    exact Even_congr heven (requests_congr rfl (pending_serveCount hc hup).1) rfl rfl

end Handle

/-! ### Both ends -/

/-- A wait begins only while its handle is even on both sides, and a cancel that finds no request in
    the queue has no request of its handle behind it. -/
def evenly (s : State) : Act → Bool
  | .own i .wait =>
      match s.handles[i]? with
      | some h => s.waiting.count i + h.requests + h.answers = h.waiters.length + h.cancels
      | none => true
  | .handle i =>
      match s.handles[i]? with
      | some h => h.client ≠ .got byteC ∨ i ∈ s.waiting ∨ h.requests = 0
      | none => true
  | _ => true

namespace State

structure Agreed (s : State) : Prop where
  sound : s.Sound
  even : ∀ (i : Nat) (h : Handle), s.handles[i]? = some h → Even (s.waiting.count i) h

variable {s s' : State} {i : Nat} {h h' : Handle}

/-- Handle `i` and its place in the queue change. -/
theorem Agreed.put (hag : s.Agreed) (hsound : s'.Sound) (hi : s.handles[i]? = some h)
    (hhandles : s'.handles = s.handles.set i h') (heven : Even (s'.waiting.count i) h')
    (hother : ∀ j, j ≠ i → s'.waiting.count j = s.waiting.count j) : s'.Agreed := by
  refine ⟨hsound, fun j g hg => ?_⟩
  have hlt : i < s.handles.length := (List.getElem?_eq_some_iff.mp hi).1
  rw [hhandles, List.getElem?_set] at hg
  by_cases hj : i = j
  · subst hj
    rw [if_pos rfl, if_pos hlt] at hg
    cases hg
    exact heven
  · rw [if_neg hj] at hg
    rw [hother j (Ne.symm hj)]
    exact hag.even j g hg

/-- An answer of the server. -/
theorem Agreed.grant (hag : s.Agreed) {rest : List Nat} (hq : s.waiting = i :: rest)
    (htokens : 0 < s.tokens) : (s.grant i rest).Agreed := by
  have hlt := hag.sound.known i (by simp [hq])
  have hi : s.handles[i]? = some s.handles[i] := List.getElem?_eq_getElem hlt
  have hsound := hag.sound.grant hq htokens
  have heven := hag.even i _ hi
  unfold State.grant at hsound ⊢
  rw [hi] at hsound ⊢
  generalize s.handles[i] = h at hi heven hsound
  have hcount : s.waiting.count i = rest.count i + 1 := by
    simp [hq]
  obtain ⟨hahead, hbehind⟩ := heven
  have hanswers : ({ h with down := h.down ++ [byteT] } : Handle).answers = h.answers + 1 := by
    simp only [Handle.answers, Handle.coming, List.count_append, List.count_singleton_self]
    omega
  have hreq : ({ h with down := h.down ++ [byteT] } : Handle).requests = h.requests := rfl
  have hcan : ({ h with down := h.down ++ [byteT] } : Handle).cancels = h.cancels := rfl
  have hlen : ({ h with down := h.down ++ [byteT] } : Handle).waiters.length = h.waiters.length := rfl
  refine hag.put hsound hi rfl ⟨?_, ?_⟩ (fun j hj => ?_)
  · show _ + _ < rest.count i + _ + _ → rest.count i + _ = 0
    omega
  · show rest.count i + _ + _ < _ + _ → _
    omega
  · show rest.count j = s.waiting.count j
    rw [hq, List.count_cons_of_ne (Ne.symm hj)]

/-- The request that the server takes is no longer on its way. -/
theorem requests_take {b : UInt8} (hc : h.client = .got b) (hS : b ≠ byteS) :
    h.requests = ({ h with client := .reading } : Handle).requests + (if b = byteW then 1 else 0) ∧
    h.cancels = ({ h with client := .reading } : Handle).cancels + (if b = byteC then 1 else 0) := by
  have hpending := (Handle.pending_take hc hS).1
  have hWC : byteC ≠ byteW := by decide
  simp only [Handle.requests, Handle.cancels, hpending, total_append]
  split_ifs with hW hC hC
  · exact absurd (hC.symm.trans hW) hWC
  all_goals
    simp only [total_cons, total_nil, Req.waits, Req.cancels]
    omega

/-- The section of the server for a request, a cancel or a byte it does not know. -/
theorem Agreed.take (hag : s.Agreed) (hi : s.handles[i]? = some h) {b : UInt8}
    (hc : h.client = .got b) (hS : b ≠ byteS) (hok : evenly s (.handle i) = true) :
    (s.take i h b).Agreed := by
  have htake : (s.take i h b).Sound := hag.sound.take hi hc hS
  obtain ⟨hreq, hcan⟩ := requests_take hc hS
  obtain ⟨hahead, hbehind⟩ := hag.even i h hi
  have hanswers : ({ h with client := .reading } : Handle).answers = h.answers := rfl
  have hlen : ({ h with client := .reading } : Handle).waiters.length = h.waiters.length := rfl
  unfold State.take at htake ⊢
  split_ifs at htake ⊢ with hW hC
  · -- a request joins the queue
    rw [if_pos hW] at hreq
    rw [if_neg (by rw [hW]; decide)] at hcan
    refine hag.put htake hi rfl ?_ (fun j hj => ?_)
    · show Even ((s.waiting ++ [i]).count i) _
      rw [List.count_append, List.count_singleton_self]
      exact ⟨by omega, by omega⟩
    · show (s.waiting ++ [i]).count j = _
      rw [List.count_append, List.count_singleton, beq_eq_false_iff_ne.mpr (Ne.symm hj)]
      rfl
  · -- a cancel drops a request of the queue
    rw [if_neg hW] at hreq
    rw [if_pos hC.1] at hcan
    have hpos : 0 < s.waiting.count i := List.count_pos_iff.mpr hC.2
    refine hag.put htake hi rfl ?_ (fun j hj => List.count_erase_of_ne hj ..)
    show Even ((s.waiting.erase i).count i) _
    rw [List.count_erase_self]
    have hdown : Even (s.waiting.count i - 1) { h with client := .reading } :=
      ⟨by omega, by omega⟩
    exact Handle.Even_congr hdown ⟨rfl, rfl⟩
      (by simp [Handle.answers, Handle.coming, byteX, byteT]) rfl
  · rw [if_neg hW] at hreq
    refine hag.put htake hi rfl ?_ (fun j _ => rfl)
    show Even (s.waiting.count i) _
    by_cases hbC : b = byteC
    · -- a cancel finds no request: none is queued and none is on its way
      have hnone : i ∉ s.waiting := fun hmem => hC ⟨hbC, hmem⟩
      have hzero : h.requests = 0 := by
        simpa [evenly, hi, hc, hbC, hnone] using hok
      have hcount : s.waiting.count i = 0 := List.count_eq_zero.mpr hnone
      rw [if_pos hbC] at hcan
      exact ⟨by omega, by omega⟩
    · rw [if_neg hbC] at hcan
      exact ⟨by omega, by omega⟩

/-- **Every step that `evenly` allows keeps the two ends agreed.** -/
theorem Agreed.step {a : Act} (hag : s.Agreed) (hok : evenly s a = true)
    (hs : s.step a = some s') : s'.Agreed := by
  have hsound := hag.sound.step hs
  cases State.step_rule hs with
  | connect =>
    refine ⟨hsound, fun i h hi => ?_⟩
    rcases Nat.lt_or_ge i s.handles.length with hlt | hge
    · exact hag.even i h (by rwa [List.getElem?_append_left hlt] at hi)
    · -- a new handle has nothing queued
      have hzero : s.waiting.count i = 0 := List.count_eq_zero.mpr (fun hmem =>
        absurd (hag.sound.known i hmem) (by omega))
      rw [List.getElem?_append_right hge] at hi
      obtain rfl : h = .fresh := by
        cases hk : i - s.handles.length with
        | zero => simpa [hk] using hi.symm
        | succ k => simp [hk] at hi
      show Even (s.waiting.count i) Handle.fresh
      rw [hzero]
      exact Even.fresh
  | @own i a h h' hi hstep =>
    refine hag.put hsound hi rfl (Handle.step_even (hag.sound.at hi) (hag.even i h hi) ?_ hstep)
      (fun j _ => rfl)
    rintro rfl
    simpa [evenly, hi, State.put] using hok
  | @count i h hi hc =>
    exact hag.put hsound hi rfl (Handle.Even_congr (hag.even i h hi)
      (Handle.requests_congr rfl (Handle.pending_count hc).1) rfl rfl) (fun j _ => rfl)
  | take hi hc hS =>
    exact distribute_rule (P := Agreed) (fun _ _ _ h => h.grant) _ _ rfl (hag.take hi hc hS hok)
  | @counted i h n hi hc =>
    refine distribute_rule (P := Agreed) (fun _ _ _ h => h.grant) _ _ rfl ?_
    have hpending := (Handle.pending_counted hc).1
    refine hag.put (hag.sound.counted hi hc) hi rfl (Handle.Even_congr (hag.even i h hi) ⟨?_, ?_⟩
      rfl rfl) (fun j _ => rfl)
    · simp only [Handle.requests, hpending, total_cons, Req.waits]
      omega
    · simp only [Handle.cancels, hpending, total_cons, Req.cancels]
      omega

/-- The server's loop ends with no token or no request left. -/
theorem distribute_served (q : List Nat) (s : State) (hq : s.waiting = q) :
    (distribute q s).tokens = 0 ∨ (distribute q s).waiting = [] := by
  induction q generalizing s with
  | nil => exact .inr hq
  | cons i rest ih =>
    rw [distribute]
    split
    · refine ih _ ?_
      unfold State.grant
      split <;> rfl
    · exact .inl (by omega)

/-- **The server never keeps a token from a request.** -/
theorem served_step {a : Act} (h : s.tokens = 0 ∨ s.waiting = []) (hs : s.step a = some s') :
    s'.tokens = 0 ∨ s'.waiting = [] := by
  cases State.step_rule hs with
  | connect | own | count => exact h
  | take | counted => exact distribute_served _ _ rfl

end State

/-! ### Quiet states -/

/-- Nothing is on its way, and nobody at the handle is between a step and its pending send. -/
def Handle.quiet (h : Handle) : Bool :=
  h.up = [] ∧ h.client = .reading ∧ h.down = [] ∧ h.reader = .reading ∧
    (∀ x ∈ h.waits, x.pc ≠ .asking ∧ x.pc ≠ .cancelling) ∧ ∀ n ∈ h.signals, n = 0

theorem Handle.quiet_books {h : Handle} (hq : h.quiet = true) :
    h.requests = 0 ∧ h.cancels = 0 ∧ h.answers = 0 := by
  simp only [Handle.quiet, decide_eq_true_eq] at hq
  obtain ⟨hup, hclient, hdown, hreader, hwaits, -⟩ := hq
  have hpending : h.pending = [] := by
    simp [Handle.pending, hclient, hup, decode]
  refine ⟨?_, ?_, ?_⟩
  · rw [Handle.requests, hpending, total_eq_zero _ (fun x hx => by simp [Wait.asks, (hwaits x hx).1])]
    rfl
  · rw [Handle.cancels, hpending,
      total_eq_zero _ (fun x hx => by simp [Wait.cancels, (hwaits x hx).2])]
    rfl
  · simp [Handle.answers, Handle.coming, hdown, hreader, Reader.answers]

/-- **Socket events strand no waiter.**  In every quiet state of every run whose steps are all `evenly`
    made: while the server holds a token no handle has a waiter, and every handle has as many requests
    queued at the server as it has waiters. -/
theorem no_stranded_waiter (s : State) (hr : machine.Reach (fun s a => evenly s a = true) s)
    (hquiet : ∀ h ∈ s.handles, h.quiet = true) :
    (0 < s.tokens → ∀ h ∈ s.handles, h.waiters = []) ∧
    ∀ i h, s.handles[i]? = some h → s.waiting.count i = h.waiters.length := by
  have hag : s.Agreed := hr.invariant (I := State.Agreed)
    ⟨State.Sound.start, fun i h hi => ?_⟩ (fun _ _ _ h hok hs => h.step hok hs)
  · have hserved : s.tokens = 0 ∨ s.waiting = [] := hr.invariant
      (I := fun s => s.tokens = 0 ∨ s.waiting = []) (.inl rfl) (fun _ _ _ h _ hs => State.served_step h hs)
    have hcount : ∀ i h, s.handles[i]? = some h → s.waiting.count i = h.waiters.length := by
      intro i h hi
      obtain ⟨hahead, hbehind⟩ := hag.even i h hi
      obtain ⟨hreq, hcan, hans⟩ := Handle.quiet_books (hquiet h (List.mem_of_getElem? hi))
      omega
    refine ⟨fun htokens h hh => ?_, hcount⟩
    obtain ⟨i, hi⟩ := List.mem_iff_getElem?.mp hh
    have hnone : s.waiting = [] := hserved.resolve_left (by omega)
    have := hcount i h hi
    rw [hnone, List.count_nil] at this
    exact List.length_eq_zero_iff.mp this.symm
  · have hi : [Handle.fresh][i]? = some h := hi
    obtain rfl : h = .fresh := by
      cases i with
      | zero => simpa using hi.symm
      | succ i => simp at hi
    exact Even.fresh

/-- A wait is withdrawn while its answer is on the way; the answer goes back, and the next wait gets
    it. -/
def crossing : List Act :=
  [.own 0 .wait, .own 0 (.ask 0), .own 0 .serve, .handle 0,
   .own 0 (.signal 1), .own 0 (.signalStep 0), .own 0 .serve, .handle 0, .own 0 .serve, .handle 0,
   .own 0 (.cancel 0), .own 0 (.withdraw 0), .own 0 (.sendCancel 0), .own 0 .serve, .handle 0,
   .own 0 .read, .own 0 .hand, .own 0 .hand, .own 0 .serve, .handle 0, .own 0 .serve, .handle 0]

theorem no_stranded_waiter_crossing :
    ∃ s, machine.Reach (fun s a => evenly s a = true) s ∧ s.tokens = 1 ∧
      ∀ h ∈ s.handles, h.waiters = [] := by
  have hrun : (machine.runOk evenly State.start crossing).map (fun s =>
      decide (s.tokens = 1 ∧ ∀ h ∈ s.handles, h.quiet = true)) = some true := by decide +kernel
  obtain ⟨s, hreach, hs⟩ := Machine.Reach.exists_of_runOk (fun _ _ h => h) hrun
  obtain ⟨htokens, hquiet⟩ := of_decide_eq_true hs
  exact ⟨s, hreach, htokens, (no_stranded_waiter s hreach hquiet).1 (by omega)⟩

/-- As `crossing`, but the answer finds nobody before the cancel is sent, and a second wait asks before
    cancel and token are sent. -/
def lateCancel : List Act :=
  [.own 0 .wait, .own 0 (.ask 0), .own 0 .serve, .handle 0,
   .own 0 (.signal 1), .own 0 (.signalStep 0), .own 0 .serve, .handle 0, .own 0 .serve, .handle 0,
   .own 0 (.cancel 0), .own 0 (.withdraw 0), .own 0 .read, .own 0 .hand,
   .own 0 .wait, .own 0 (.ask 1), .own 0 (.sendCancel 0), .own 0 .hand,
   .own 0 .serve, .handle 0, .own 0 .serve, .handle 0, .own 0 .serve, .handle 0, .own 0 .serve,
   .handle 0, .own 0 .read, .own 0 .hand]

/-- **A late cancel strands a waiter.**  The cancel of the first wait drops the request of the second;
    the token is back at the server, everything is quiet, and the second wait is in the list. -/
theorem stranded_waiter :
    ∃ s, machine.Reach (fun _ _ => True) s ∧ (∀ h ∈ s.handles, h.quiet = true) ∧ s.tokens = 1 ∧
      s.waiting = [] ∧ s.handles.map Handle.waiters = [[1]] := by
  have hrun : (machine.run State.start lateCancel).map (fun s =>
      decide ((∀ h ∈ s.handles, h.quiet = true) ∧ s.tokens = 1 ∧ s.waiting = [] ∧
        s.handles.map Handle.waiters = [[1]])) = some true := by decide +kernel
  obtain ⟨s, hreach, hs⟩ := Machine.Reach.exists_of_run hrun
  exact ⟨s, hreach, of_decide_eq_true hs⟩

end GoIpc.Event
