import GoIpc.Event.Socket

namespace GoIpc.Event

open GoIpc.Lib

/-!
# Socket events conserve tokens

Every token that a caller of `signal` has sent is in one place: with the server, in a request or an
answer on its way, in the hands of a `read`, or with the wait it was handed to.

* `Handle.held` — the tokens at a handle and on its connection;
* `Handle.step_held` — a step at a handle creates no token and loses none;
* `State.Sound` — the books of the whole event, kept by every step;
* `tokens_conserved` — the balance in every state of every run.
-/

/-! ### The books of a handle -/

/-- A wait that was handed a token. -/
def Wait.tokens (x : Wait) : Nat := if x.ch ∨ x.pc = .returned then 1 else 0

def Req.tokens : Req → Nat
  | .signal n => n.toNat
  | _ => 0

/-- A token that `read` has taken and not yet handed over or sent back. -/
def Reader.tokens : Reader → Nat
  | .reading => 0
  | .got b => if b = byteT then 1 else 0
  | .handing _ | .returning => 1

namespace Handle

/-- The counts of the signals in flight. -/
def signalled (h : Handle) : Nat := total Req.tokens h.pending

/-- The answers in flight. -/
def coming (h : Handle) : Nat := h.down.count byteT

/-- The waits that were handed a token. -/
def handed (h : Handle) : Nat := total Wait.tokens h.waits

def held (h : Handle) : Nat := h.signalled + h.coming + h.reader.tokens + h.handed

variable {h h' : Handle} {w : Nat} {x y : Wait}

theorem handed_put (hx : h.waits[w]? = some x) (hwaits : h'.waits = h.waits.set w y) :
    h'.handed + x.tokens = h.handed + y.tokens := by
  rw [handed, hwaits]
  exact total_set Wait.tokens hx y

theorem signalled_congr (hclient : h'.client = h.client) (hup : h'.up = h.up) :
    h'.signalled = h.signalled := by
  rw [signalled, (pending_congr hclient hup).1]
  rfl

theorem signalled_send (hf : h.framed = true) (r : Req) (hclient : h'.client = h.client)
    (hup : h'.up = h.up ++ r.encode) : h'.signalled = h.signalled + r.tokens := by
  rw [signalled, (pending_send hf r hclient hup).1, total_append]
  rfl

/-- A wait moves without a change of its token, and sends a request without tokens or none. -/
theorem held_move (hf : h.framed = true) (hx : h.waits[w]? = some x) (htokens : y.tokens = x.tokens)
    (hwaits : h'.waits = h.waits.set w y) (hclient : h'.client = h.client)
    (hup : h'.up = h.up ∨ ∃ r : Req, r.tokens = 0 ∧ h'.up = h.up ++ r.encode)
    (hdown : h'.down = h.down) (hreader : h'.reader = h.reader) : h'.held = h.held := by
  have hhanded := handed_put hx hwaits
  have hsignalled : h'.signalled = h.signalled := by
    rcases hup with hup | ⟨r, hr, hup⟩
    · exact signalled_congr hclient hup
    · rw [signalled_send hf r hclient hup, hr, Nat.add_zero]
  simp only [held, coming, hdown, hreader, hsignalled]
  omega

/-- `read` hands its token to a wait, which had none. -/
theorem held_hand (hl : h.Lawful) (hreader : h.reader = .handing w) (hx : h.waits[w]? = some x) :
    ({ h.put w { x with ch := true } with reader := .reading } : Handle).held = h.held := by
  obtain ⟨hlive, hch⟩ := hl.handing_at hx hreader
  have hnone : x.tokens = 0 := by
    have hpc : x.pc ≠ .returned := by
      rcases hlive with hlive | hlive
      · intro hpc
        rw [hpc] at hlive
        cases hlive
      · simp [hlive]
    simp [Wait.tokens, hch, hpc]
  have hone : ({ x with ch := true } : Wait).tokens = 1 := by simp [Wait.tokens]
  generalize hset : ({ h.put w { x with ch := true } with reader := .reading } : Handle) = h'
  have hhanded : h'.handed + x.tokens = h.handed + ({ x with ch := true } : Wait).tokens :=
    handed_put hx (hset ▸ rfl)
  have hsignalled : h'.signalled = h.signalled := signalled_congr (hset ▸ rfl) (hset ▸ rfl)
  have hdown : h'.down = h.down := hset ▸ rfl
  have hread : h'.reader = .reading := hset ▸ rfl
  simp only [held, coming, hdown, hread, hreader, Reader.tokens, hsignalled]
  omega

/-- **A step at a handle creates no token and loses none**, except for what callers send. -/
theorem step_held {a : HandleAct} (hl : h.Lawful) (hs : h.step a = some h') :
    h'.held + h.sent = h.held + h'.sent := by
  -- a step of `read` or of the server's goroutine that sends nothing
  have still : ∀ {h' : Handle}, h'.pending = h.pending → h'.waits = h.waits →
      h'.coming + h'.reader.tokens = h.coming + h.reader.tokens → h'.held = h.held := by
    intro h' hpending hwaits hread
    simp only [held, signalled, handed, hpending, hwaits]
    omega
  have same : ∀ {h' : Handle}, h'.held = h.held → h'.sent = h.sent →
      h'.held + h.sent = h.held + h'.sent := fun h1 h2 => by rw [h1, h2]
  cases Handle.step_rule hs with
  | wait =>
    refine same ?_ rfl
    have hhanded : total Wait.tokens (h.waits ++ [⟨.asking, false⟩]) = total Wait.tokens h.waits := by
      rw [total_append]
      rfl
    simp only [held, signalled, coming, handed, hhanded]
    rfl
  | ask hx hpc =>
    exact same (held_move hl.framed hx (by simp [Wait.tokens, hpc]) rfl rfl
      (.inr ⟨.wait, rfl, rfl⟩) rfl rfl) rfl
  | sendCancel hx hpc =>
    exact same (held_move hl.framed hx (by simp [Wait.tokens, hpc]) rfl rfl
      (.inr ⟨.cancel, rfl, rfl⟩) rfl rfl) rfl
  | take hx _ hch | receive hx _ hch =>
    exact same (held_move hl.framed hx (by simp [Wait.tokens, hch]) rfl rfl (.inl rfl) rfl rfl) rfl
  | cancel hx hpc | withdraw hx hpc | late hx hpc =>
    exact same (held_move hl.framed hx (by simp [Wait.tokens, hpc]) rfl rfl (.inl rfl) rfl rfl) rfl
  | signal => exact same (still (pending_congr rfl rfl).1 rfl rfl) rfl
  | @signalStep j n =>
    have hsignalled : signalled { h with
        up := h.up ++ [byteS, UInt8.ofNat (min n 255)], signals := h.signals.set j (n - min n 255)
        sent := h.sent + min n 255 } = h.signalled + (Req.signal (UInt8.ofNat (min n 255))).tokens :=
      signalled_send hl.framed _ rfl rfl
    have hbyte : (UInt8.ofNat (min n 255)).toNat = min n 255 := by
      rw [UInt8.toNat_ofNat']
      exact Nat.mod_eq_of_lt (by omega)
    simp only [Req.tokens, hbyte] at hsignalled
    simp only [held, coming, handed, hsignalled]
    omega
  | read hreader hdown =>
    refine same (still (pending_congr rfl rfl).1 rfl ?_) rfl
    simp only [coming, hreader, hdown, Reader.tokens, List.count_cons, beq_iff_eq]
    omega
  | answer hreader | nobody hreader =>
    exact same (still (pending_congr rfl rfl).1 rfl (by simp [coming, hreader, Reader.tokens])) rfl
  | skip hreader hT =>
    exact same (still (pending_congr rfl rfl).1 rfl (by simp [coming, hreader, Reader.tokens, hT])) rfl
  | hand hreader hx => exact same (held_hand hl hreader hx) rfl
  | giveBack hreader =>
    have hsignalled : signalled { h with up := h.up ++ [byteS, 1], reader := .reading } =
        h.signalled + (Req.signal 1).tokens := signalled_send hl.framed _ rfl rfl
    have hone : (Req.signal 1).tokens = 1 := rfl
    refine same ?_ rfl
    simp only [held, coming, handed, hreader, Reader.tokens, hsignalled]
    omega
  | serve hc hup => exact same (still (pending_serve hc hup).1 rfl rfl) rfl
  | serveCount hc hup => exact same (still (pending_serveCount hc hup).1 rfl rfl) rfl

end Handle

/-! ### The books of the event -/

namespace State

structure Sound (s : State) : Prop where
  lawful : ∀ h ∈ s.handles, h.Lawful
  known : ∀ i ∈ s.waiting, i < s.handles.length
  books : total Handle.sent s.handles = s.tokens + total Handle.held s.handles

variable {s s' : State} {i : Nat} {h h' : Handle}

theorem Sound.start : Sound State.start where
  lawful h hh := by
    rw [List.mem_singleton.mp hh]
    exact .fresh
  known i hi := by cases hi
  books := rfl

/-- Handle `i` changes, and `n` of its tokens and `m` of the server's change places. -/
theorem Sound.put (hsound : s.Sound) (hi : s.handles[i]? = some h) (hl : h'.Lawful)
    (hhandles : s'.handles = s.handles.set i h') (hwaiting : ∀ j ∈ s'.waiting, j ∈ s.waiting ∨ j = i)
    (hbooks : h'.held + h.sent + s'.tokens = h.held + h'.sent + s.tokens) : s'.Sound := by
  have hlt : i < s.handles.length := (List.getElem?_eq_some_iff.mp hi).1
  refine ⟨fun g hg => ?_, fun j hj => ?_, ?_⟩
  · rw [hhandles] at hg
    rcases List.mem_or_eq_of_mem_set hg with hg | rfl
    · exact hsound.lawful g hg
    · exact hl
  · rw [hhandles, List.length_set]
    rcases hwaiting j hj with hj | rfl
    · exact hsound.known j hj
    · exact hlt
  · have hsent := total_set Handle.sent hi h'
    have hheld := total_set Handle.held hi h'
    have hold := hsound.books
    rw [hhandles]
    omega

theorem Sound.at (hsound : s.Sound) (hi : s.handles[i]? = some h) : h.Lawful :=
  hsound.lawful h (List.mem_of_getElem? hi)

/-- An answer of the server moves a token to the connection. -/
theorem Sound.grant (hsound : s.Sound) {rest : List Nat} (hq : s.waiting = i :: rest)
    (htokens : 0 < s.tokens) : (s.grant i rest).Sound := by
  have hlt := hsound.known i (by simp [hq])
  have hi : s.handles[i]? = some s.handles[i] := List.getElem?_eq_getElem hlt
  have hl := hsound.at hi
  unfold State.grant
  rw [hi]
  generalize s.handles[i] = h at hi hl
  have hheld : ({ h with down := h.down ++ [byteT] } : Handle).held = h.held + 1 := by
    have hcoming : ({ h with down := h.down ++ [byteT] } : Handle).coming = h.coming + 1 := by
      simp [Handle.coming]
    have hsignalled : ({ h with down := h.down ++ [byteT] } : Handle).signalled = h.signalled := rfl
    simp only [Handle.held, hcoming, hsignalled, Handle.handed]
    omega
  refine hsound.put hi (hl.down _) rfl ?_ ?_
  · intro j hj
    exact .inl (by rw [hq]; exact List.mem_cons_of_mem _ hj)
  · show _ + h.sent + (s.tokens - 1) = h.held + h.sent + s.tokens
    omega

/-- What the server's answers keep, its loop keeps. -/
theorem distribute_rule {P : State → Prop}
    (hgrant : ∀ s i rest, P s → s.waiting = i :: rest → 0 < s.tokens → P (s.grant i rest))
    (q : List Nat) (s : State) (hq : s.waiting = q) (h : P s) : P (distribute q s) := by
  induction q generalizing s with
  | nil => exact h
  | cons i rest ih =>
    rw [distribute]
    split
    · next htokens =>
      refine ih _ ?_ (hgrant s i rest h hq htokens)
      unfold State.grant
      split <;> rfl
    · exact h

/-- A request without tokens leaves the connection. -/
theorem held_take {b : UInt8} (hc : h.client = .got b) (hS : b ≠ byteS) :
    ({ h with client := .reading } : Handle).held = h.held := by
  have hsignalled : ({ h with client := .reading } : Handle).signalled = h.signalled := by
    rw [Handle.signalled, Handle.signalled, (Handle.pending_take hc hS).1, total_append]
    split_ifs <;> simp [Req.tokens]
  show _ + _ + _ + _ = h.signalled + h.coming + h.reader.tokens + h.handed
  rw [hsignalled]
  rfl

/-- The server takes a request without tokens. -/
theorem Sound.take (hsound : s.Sound) (hi : s.handles[i]? = some h) {b : UInt8}
    (hc : h.client = .got b) (hS : b ≠ byteS) : (s.take i h b).Sound := by
  have hl := hsound.at hi
  have hf := (Handle.pending_take hc hS).2
  have hheld := held_take hc hS
  unfold State.take
  split_ifs with hW hC
  · refine hsound.put hi (hl.client hf) rfl (fun j hj => ?_) ?_
    · rcases List.mem_append.mp hj with hj | hj
      · exact .inl hj
      · exact .inr (List.mem_singleton.mp hj)
    · show _ + _ + s.tokens = _ + h.sent + s.tokens
      omega
  · refine hsound.put hi ((hl.client hf).down _) rfl
      (fun j hj => .inl (List.mem_of_mem_erase hj)) ?_
    have hcoming : ({ h with client := .reading, down := h.down ++ [byteX] } : Handle).held =
        ({ h with client := .reading } : Handle).held := by
      simp [Handle.held, Handle.coming, Handle.signalled, Handle.pending, Handle.handed, byteX, byteT]
    show ({ h with client := .reading, down := h.down ++ [byteX] } : Handle).held + h.sent
      + s.tokens = h.held + h.sent + s.tokens
    omega
  · refine hsound.put hi (hl.client hf) rfl (fun j hj => .inl hj) ?_
    show _ + _ + s.tokens = _ + h.sent + s.tokens
    omega

/-- The server takes a signal. -/
theorem Sound.counted (hsound : s.Sound) (hi : s.handles[i]? = some h) {n : UInt8}
    (hc : h.client = .counted n) :
    Sound { s.put i { h with client := .reading } with tokens := s.tokens + n.toNat } := by
  obtain ⟨hp, hf⟩ := Handle.pending_counted hc
  refine hsound.put hi ((hsound.at hi).client hf) rfl (fun j hj => .inl hj) ?_
  have hsignalled : h.signalled = n.toNat + ({ h with client := .reading } : Handle).signalled := by
    rw [Handle.signalled, hp, total_cons]
    rfl
  show (_ + h.coming + h.reader.tokens + h.handed) + h.sent + (s.tokens + n.toNat) =
    (h.signalled + h.coming + h.reader.tokens + h.handed) + h.sent + s.tokens
  omega

/-- **Every step keeps the books.** -/
theorem Sound.step {a : Act} (hsound : s.Sound) (hs : s.step a = some s') : s'.Sound := by
  cases State.step_rule hs with
  | connect =>
    refine ⟨fun h hh => ?_, fun i hi => ?_, ?_⟩
    · rcases List.mem_append.mp hh with hh | hh
      · exact hsound.lawful h hh
      · rw [List.mem_singleton.mp hh]
        exact .fresh
    · have := hsound.known i hi
      simp only [List.length_append]
      omega
    · have := hsound.books
      simp only [total_append, this]
      rfl
  | own hi hstep =>
    have hheld := Handle.step_held (hsound.at hi) hstep
    refine hsound.put hi ((hsound.at hi).step hstep) rfl (fun j hj => .inl hj) ?_
    show _ + _ + s.tokens = _
    omega
  | @count i h hi hc =>
    obtain ⟨hp, hf⟩ := Handle.pending_count hc
    refine hsound.put hi ((hsound.at hi).client hf) rfl (fun j hj => .inl hj) ?_
    have hsignalled : ({ h with client := .counting } : Handle).signalled = h.signalled := by
      rw [Handle.signalled, hp]
      rfl
    show _ + _ + _ + _ + _ + s.tokens =
      h.signalled + h.coming + h.reader.tokens + h.handed + h.sent + s.tokens
    rw [hsignalled]
    rfl
  | take hi hc hS =>
    exact distribute_rule (P := Sound) (fun _ _ _ h => h.grant) _ _ rfl (hsound.take hi hc hS)
  | counted hi hc =>
    exact distribute_rule (P := Sound) (fun _ _ _ h => h.grant) _ _ rfl (hsound.counted hi hc)

end State

/-! ### Conservation -/

theorem total_held (hs : List Handle) :
    total Handle.held hs = total Handle.signalled hs + total Handle.coming hs
      + total (fun h => h.reader.tokens) hs + total Handle.handed hs := by
  unfold Handle.held
  rw [total_add, total_add, total_add]

/-- **Socket events conserve tokens.**  In every state of every run, what the callers of `signal` have
    sent is what the server holds, the counts of the signals in flight, the answers in flight, what
    `read` has taken, and the waits that were handed a token; and a wait that was withdrawn holds
    none. -/
theorem tokens_conserved (s : State) (hr : machine.Reach (fun _ _ => True) s) :
    total Handle.sent s.handles = s.tokens + total Handle.signalled s.handles
      + total Handle.coming s.handles + total (fun h => h.reader.tokens) s.handles
      + total Handle.handed s.handles ∧
    ∀ h ∈ s.handles, ∀ x ∈ h.waits, x.pc = .cancelling ∨ x.pc = .cancelled → x.tokens = 0 := by
  have hsound : s.Sound := hr.invariant (I := State.Sound) State.Sound.start
    (fun _ _ _ h _ hs => h.step hs)
  refine ⟨?_, fun h hh x hx hpc => ?_⟩
  · rw [hsound.books, total_held]
    omega
  · obtain ⟨w, hw⟩ := List.mem_iff_getElem?.mp hx
    have hch := (hsound.lawful h hh).gone w x hw (by rcases hpc with hpc | hpc <;> rw [hpc] <;> rfl)
    rcases hpc with hpc | hpc <;> simp [Wait.tokens, hch, hpc]

/-- Two tokens are signalled through a second handle: one goes to a wait, the other stays with the
    server. -/
def twoTokens : List Act :=
  [.connect, .own 0 .wait, .own 0 (.ask 0), .own 0 .serve, .handle 0,
   .own 1 (.signal 2), .own 1 (.signalStep 0), .own 1 .serve, .handle 1, .own 1 .serve, .handle 1,
   .own 0 .read, .own 0 .hand, .own 0 .hand, .own 0 (.take 0)]

theorem tokens_conserved_two :
    ∃ s, machine.Reach (fun _ _ => True) s ∧ s.tokens = 1 ∧ total Handle.handed s.handles = 1 ∧
      total Handle.sent s.handles = s.tokens + total Handle.signalled s.handles
        + total Handle.coming s.handles + total (fun h => h.reader.tokens) s.handles
        + total Handle.handed s.handles := by
  have hrun : (machine.run State.start twoTokens).map
      (fun s => decide (s.tokens = 1 ∧ total Handle.handed s.handles = 1)) = some true := by decide
  obtain ⟨s, hreach, hs⟩ := Machine.Reach.exists_of_run hrun
  obtain ⟨htokens, hhanded⟩ := of_decide_eq_true hs
  exact ⟨s, hreach, htokens, hhanded, (tokens_conserved s hreach).1⟩

end GoIpc.Event
