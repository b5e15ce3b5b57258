import GoIpc.Conn.Machine

namespace GoIpc.Conn

open GoIpc.Lib

/-!
# What a deadline error says

`Read`, `Write` and `CloseWrite` translate the result of a channel operation after it returned,
and `translate` answers `os.ErrDeadlineExceeded` whenever the deadline has ended the context, even
for an operation that succeeded.

* `deadline_no_effect` — in every run where no successful operation is translated under an expired
  deadline, a deadline error means that the call had no effect beyond what it reports;
* `late_expiry` — a `Read`, a `Write` and a `CloseWrite` whose deadline passes between the success
  and the translation.
-/

variable {limit : Nat} {s s' : State}

/-- No operation that succeeded is translated under an expired deadline. -/
def notLate (s : State) : Act → Bool
  | .readStep =>
      match s.reader with
      | .translate _ _ key _ none => s.readDeadline.ctx key ≠ some .deadline
      | _ => true
  | .writeStep =>
      match s.writer with
      | .translate _ _ key none => s.writeDeadline.ctx key ≠ some .deadline
      | _ => true
  | _ => true

/-! ### Reading -/

/-- A message of a connection: data that is not empty, or the end of the stream. -/
def Msg.Proper (m : Msg) : Prop := m.typ ≠ typeStreamEOF → m.payload ≠ []

/-- The message `Read` holds between the channel and `pending`. -/
def Reader.held : Reader → List UInt8
  | .translate _ _ _ m none => m.bytes
  | .done _ _ _ m none => m.bytes
  | _ => []

/-- What `Read` knows where it stands. -/
def Reader.Ok (pending : List UInt8) : Reader → Prop
  | .idle (some r) => r.err = some .deadlineExceeded → r.taken = 0
  | .idle none => True
  | .loop _ taken => taken = 0 ∨ pending ≠ []
  | .begin _ taken | .recv _ taken _ => taken = 0 ∧ pending = []
  | .translate _ _ _ m none | .done _ _ _ m none => m.Proper ∧ pending = []
  | .translate _ taken _ _ (some _) | .done _ taken _ _ (some _) => taken = 0 ∧ pending = []

/-- The stream from the peer: returned, pending, in the hands of `Read`, or in the channel. -/
structure ReadInv (s : State) : Prop where
  proper : ∀ m ∈ s.inbound, m.Proper
  reader : s.reader.Ok s.pending
  stream : s.returned ++ s.pending ++ s.reader.held ++ bytesOf s.inbound = s.peerSent

/-! ### Writing -/

/-- The messages a job has put into the channel are what it reports. -/
def Job.Sent : Job → List Msg → Prop
  | .data p written, sent => bytesOf sent = p.take written ∧ ∀ m ∈ sent, m.typ = typeStreamData
  | .eof, sent => sent = []

/-- What `Write` and `CloseWrite` know where they stand. -/
def Writer.Ok (limit : Nat) : Writer → Prop
  | .idle (some r) => r.err = some .deadlineExceeded → r.job.Sent r.sent
  | .idle none => True
  | .loop (.data p written) sent => (Job.data p written).Sent sent
  | .loop .eof _ => True
  | .begin j sent | .send j sent _ | .translate j sent _ (some _) | .done j sent _ (some _) =>
      j.Sent sent
  | .translate (.data p written) sent _ none | .done (.data p written) sent _ none =>
      ((Job.data p written).advance limit).Sent sent
  | .translate .eof _ _ none | .done .eof _ _ none => True

theorem typeStreamData_ne : typeStreamData ≠ typeStreamEOF := by decide

theorem bytesOf_append (a b : List Msg) : bytesOf (a ++ b) = bytesOf a ++ bytesOf b :=
  List.flatMap_append

theorem bytesOf_singleton (m : Msg) : bytesOf [m] = m.bytes := by
  simp [bytesOf]

/-- Sending the next chunk advances the job. -/
theorem Job.Sent.advance {p : List UInt8} {written : Nat} {sent : List Msg}
    (h : (Job.data p written).Sent sent) :
    ((Job.data p written).advance limit).Sent (sent ++ [(Job.data p written).msg limit]) := by
  obtain ⟨hb, ht⟩ := h
  refine ⟨?_, ?_⟩
  · rw [bytesOf_append, bytesOf_singleton, hb, Msg.bytes, Job.msg, if_neg typeStreamData_ne]
    show p.take written ++ (p.drop written).take (chunkEnd limit p written - written) = _
    rw [← List.take_add]
    unfold chunkEnd
    split
    · -- the last chunk
      rw [List.take_of_length_le (by omega), List.take_length]
    · rw [Nat.add_sub_cancel_left]
  · intro m hm
    rcases List.mem_append.mp hm with hm | hm
    · exact ht m hm
    · rw [List.mem_singleton.mp hm]
      rfl

/-- A deadline error comes from the context; without it, an operation that succeeded is reported
    as such. -/
theorem translate_none {cause : Option Cause} (h : cause ≠ some .deadline) :
    translate cause none = none := by
  rw [translate, if_neg h]

theorem translate_some (cause : Option Cause) (e : ChanErr) : ∃ e', translate cause (some e) = some e' := by
  unfold translate
  split
  · exact ⟨_, rfl⟩
  · cases e <;> exact ⟨_, rfl⟩

/-! ### The reading side -/

theorem ReadInv.start : ReadInv State.start where
  proper m hm := by cases hm
  reader := trivial
  stream := rfl

/-- A step that does not touch the reading side. -/
theorem ReadInv.same (h : ReadInv s) (hin : s'.inbound = s.inbound) (hr : s'.reader = s.reader)
    (hp : s'.pending = s.pending) (hret : s'.returned = s.returned)
    (hpeer : s'.peerSent = s.peerSent) : ReadInv s' := by
  refine ⟨?_, ?_, ?_⟩
  · rw [hin]
    exact h.proper
  · rw [hr, hp]
    exact h.reader
  · rw [hret, hp, hr, hin, hpeer]
    exact h.stream

/-- A step of `Read` that moves no byte. -/
theorem ReadInv.move (h : ReadInv s) {r : Reader} {d : Deadline} (hok : r.Ok s.pending)
    (hheld : r.held = s.reader.held) : ReadInv { s with readDeadline := d, reader := r } := by
  refine ⟨h.proper, hok, ?_⟩
  show s.returned ++ s.pending ++ r.held ++ bytesOf s.inbound = s.peerSent
  rw [hheld]
  exact h.stream

/-- The peer sends a message of a connection. -/
theorem ReadInv.append (h : ReadInv s) {m : Msg} (hm : m.Proper) :
    ReadInv { s with inbound := s.inbound ++ [m], peerSent := s.peerSent ++ m.bytes } := by
  refine ⟨?_, h.reader, ?_⟩
  · intro x hx
    rcases List.mem_append.mp hx with hx | hx
    · exact h.proper x hx
    · rwa [List.mem_singleton.mp hx]
  · show s.returned ++ s.pending ++ s.reader.held ++ bytesOf (s.inbound ++ [m]) = _
    rw [bytesOf_append, bytesOf_singleton, ← List.append_assoc, h.stream]

/-- **Every step keeps the stream from the peer.** -/
theorem ReadInv.step {a : Act} (h : ReadInv s) (hok : notLate s a = true)
    (hs : s.step limit a = some s') : ReadInv s' := by
  have hreader := h.reader
  have hstream := h.stream
  cases State.step_rule hs with
  | read len hpc => exact h.move (d := s.readDeadline) (.inl rfl) (hpc ▸ rfl)
  | @readPending len taken hpc hp =>
    rw [hpc] at hstream
    refine ⟨h.proper, by simp [Reader.Ok], ?_⟩
    show s.returned ++ s.pending.take len ++ s.pending.drop len ++ [] ++ bytesOf s.inbound = _
    rwa [List.append_assoc s.returned, List.take_append_drop]
  | readAtEnd hpc => exact h.move (d := s.readDeadline) (by simp [Reader.Ok]) (hpc ▸ rfl)
  | readOn hpc hp =>
    rw [hpc] at hreader
    exact h.move (d := s.readDeadline) ⟨hreader.resolve_right (not_not.mpr hp), hp⟩ (hpc ▸ rfl)
  | readExpired hpc =>
    rw [hpc] at hreader
    exact h.move (d := s.readDeadline) (fun _ => hreader.1) (hpc ▸ rfl)
  | readBegin hpc =>
    rw [hpc] at hreader
    exact h.move hreader (hpc ▸ rfl)
  | @readTranslate len taken key m err hpc =>
    rw [hpc] at hreader
    cases err with
    | none =>
      -- the deadline has not passed, so the success stays one
      have hcause : s.readDeadline.ctx key ≠ some .deadline := by
        simpa [notLate, hpc] using hok
      rw [translate_none hcause]
      exact h.move (d := s.readDeadline) hreader (hpc ▸ rfl)
    | some e =>
      obtain ⟨e', he'⟩ := translate_some (s.readDeadline.ctx key) e
      rw [he']
      exact h.move (d := s.readDeadline) hreader (hpc ▸ rfl)
  | readFailed hpc =>
    rw [hpc] at hreader
    exact h.move (fun _ => hreader.1) (hpc ▸ rfl)
  | @readEnd len taken key m hpc htyp =>
    rw [hpc] at hstream
    -- the end of the stream holds no bytes
    have hheld : m.bytes = [] := if_pos htyp
    refine ⟨h.proper, by simp [Reader.Ok], ?_⟩
    simp only [Reader.held, hheld] at hstream
    exact hstream
  | @readData len taken key m hpc htyp =>
    rw [hpc] at hreader hstream
    obtain ⟨hproper, hp⟩ := hreader
    have hheld : m.bytes = m.payload := if_neg htyp
    refine ⟨h.proper, .inr (hproper htyp), ?_⟩
    simp only [Reader.held, hheld, hp, List.append_nil] at hstream
    show s.returned ++ m.payload ++ [] ++ bytesOf s.inbound = _
    rwa [List.append_nil]
  | @recvOk len taken key m rest hpc hin =>
    rw [hpc] at hreader hstream
    rw [hin] at hstream
    refine ⟨fun x hx => h.proper x (by rw [hin]; exact List.mem_cons_of_mem _ hx),
      ⟨h.proper m (hin ▸ List.mem_cons_self), hreader.2⟩, ?_⟩
    simp only [Reader.held, bytesOf, List.flatMap_cons, List.append_nil] at hstream ⊢
    rwa [List.append_assoc]
  | recvErr hpc =>
    rw [hpc] at hreader
    exact h.move (d := s.readDeadline) hreader (hpc ▸ rfl)
  | peer hm =>
    refine h.append fun htyp => ?_
    rcases hm with hm | rfl
    · exact hm.2
    · exact absurd rfl htyp
  | _ => exact h.same rfl rfl rfl rfl rfl

/-! ### The writing side -/

/-- **Every step keeps what `Write` and `CloseWrite` report.** -/
theorem Writer.Ok.step {a : Act} (h : s.writer.Ok limit) (hok : notLate s a = true)
    (hs : s.step limit a = some s') : s'.writer.Ok limit := by
  cases State.step_rule hs with
  | writeRefused | closeWriteRefused => exact nofun
  | write => exact ⟨rfl, nofun⟩
  | closeWrite => rfl
  | writeOn hpc | writeBegin hpc | sendErr hpc =>
    rwa [hpc] at h
  | writeAll | writeEnd => exact nofun
  | writeExpired hpc | writeFailed hpc =>
    rw [hpc] at h
    exact fun _ => h
  | @writeTranslate j sent key err hpc =>
    rw [hpc] at h
    cases err with
    | none =>
      have hcause : s.writeDeadline.ctx key ≠ some .deadline := by
        simpa [notLate, hpc] using hok
      rw [translate_none hcause]
      cases j <;> exact h
    | some e =>
      obtain ⟨e', he'⟩ := translate_some (s.writeDeadline.ctx key) e
      rwa [he']
  | @writeNext j sent key hpc =>
    rw [hpc] at h
    cases j <;> exact h
  | @sendOk j sent key hpc =>
    rw [hpc] at h
    cases j with
    | data p written => exact h.advance
    | eof => trivial
  | _ => exact h

/-! ### The connection -/

/-- **A deadline error means no effect.**  In every run where no operation that succeeded is
    translated under an expired deadline:

    * a `Read` that returns the deadline error took no message out of the channel, and the bytes
      the peer sent are those already returned followed by those later reads will find;
    * a `Write` that returns it after `n` bytes put exactly the first `n` bytes into the channel;
    * a `CloseWrite` that returns it sent no end-of-stream message. -/
theorem deadline_no_effect (h : (machine limit).Reach (fun s a => notLate s a = true) s) :
    (∀ r, s.reader = .idle (some r) → r.err = some .deadlineExceeded →
      r.taken = 0 ∧ s.returned ++ s.pending ++ bytesOf s.inbound = s.peerSent) ∧
    (∀ p n sent, s.writer = .idle (some ⟨.data p n, some .deadlineExceeded, sent⟩) →
      bytesOf sent = p.take n ∧ ∀ m ∈ sent, m.typ = typeStreamData) ∧
    ∀ sent, s.writer = .idle (some ⟨.eof, some .deadlineExceeded, sent⟩) → sent = [] := by
  have hinv : ReadInv s ∧ s.writer.Ok limit := by
    refine Machine.Reach.invariant (I := fun s => ReadInv s ∧ s.writer.Ok limit) ?_ ?_ h
    · exact ⟨.start, trivial⟩
    · exact fun _ _ _ hi hok hs => ⟨hi.1.step hok hs, hi.2.step hok hs⟩
  obtain ⟨hread, hwrite⟩ := hinv
  refine ⟨?_, ?_, ?_⟩
  · intro r hr herr
    have hreader := hread.reader
    have hstream := hread.stream
    rw [hr] at hreader hstream
    exact ⟨hreader herr, by simpa [Reader.held] using hstream⟩
  · intro p n sent hw
    rw [hw] at hwrite
    exact hwrite rfl
  · intro sent hw
    rw [hw] at hwrite
    exact hwrite rfl

/-- Both deadlines pass while a `Read` waits and a `Write` of three bytes waits with its second
    message. -/
def timelyExpiry : List Act :=
  [.setRead .future, .setWrite .future, .read 4, .readStep, .readStep,
   .write [1, 2, 3], .writeStep, .writeStep, .sendOk, .writeStep, .writeStep, .writeStep, .writeStep,
   .fireRead 1, .fireWrite 1, .recvErr .canceled, .readStep, .readStep,
   .sendErr .canceled, .writeStep, .writeStep]

theorem timelyExpiry_no_effect :
    ∃ s, (machine 2).Reach (fun s a => notLate s a = true) s ∧
      s.reader = .idle (some ⟨[], some .deadlineExceeded, 0⟩) ∧
      s.returned ++ s.pending ++ bytesOf s.inbound = s.peerSent ∧
      ∃ sent, s.writer = .idle (some ⟨.data [1, 2, 3] 2, some .deadlineExceeded, sent⟩) ∧
        bytesOf sent = [1, 2] := by
  have hrun : ((machine 2).runOk notLate State.start timelyExpiry).map
      (fun s => (s.reader, s.writer))
      = some (.idle (some ⟨[], some .deadlineExceeded, 0⟩),
          .idle (some ⟨.data [1, 2, 3] 2, some .deadlineExceeded, [⟨0, [1, 2]⟩]⟩)) := by
    decide +kernel
  obtain ⟨s, hreach, hs⟩ := Machine.Reach.exists_of_runOk (fun _ _ h => h) hrun
  obtain ⟨hr, hw⟩ := Prod.mk.inj hs
  obtain ⟨hread, hwrite, -⟩ := deadline_no_effect hreach
  exact ⟨s, hreach, hr, (hread _ hr rfl).2, _, hw, (hwrite _ _ _ hw).1⟩

/-! ### An expiry after the success -/

/-- The deadline of a `Read` passes after the channel handed over its message. -/
def lateRead : List Act :=
  [.peer ⟨typeStreamData, [7]⟩, .setRead .future, .read 4, .readStep, .readStep, .recvOk,
   .fireRead 1, .readStep, .readStep]

/-- The deadline of a `Write` passes after the channel took its message. -/
def lateWrite : List Act :=
  [.setWrite .future, .write [7], .writeStep, .writeStep, .sendOk, .fireWrite 1, .writeStep,
   .writeStep]

/-- The deadline of a `CloseWrite` passes after the channel took the end-of-stream message. -/
def lateCloseWrite : List Act :=
  [.setWrite .future, .closeWrite, .writeStep, .sendOk, .fireWrite 1, .writeStep, .writeStep]

/-- **A late expiry hides a success.**  The `Read` lost the byte 7 for good, the `Write` that
    reports no byte sent one, and the `CloseWrite` ended the stream. -/
theorem late_expiry :
    (∃ s, (machine 4).Reach (fun _ _ => True) s ∧
      s.reader = .idle (some ⟨[], some .deadlineExceeded, 1⟩) ∧ s.peerSent = [7] ∧
      s.returned ++ s.pending ++ bytesOf s.inbound = []) ∧
    (∃ s, (machine 4).Reach (fun _ _ => True) s ∧
      s.writer = .idle (some ⟨.data [7] 0, some .deadlineExceeded, [⟨typeStreamData, [7]⟩]⟩) ∧
      s.outbound = [⟨typeStreamData, [7]⟩]) ∧
    ∃ s, (machine 4).Reach (fun _ _ => True) s ∧
      s.writer = .idle (some ⟨.eof, some .deadlineExceeded, [⟨typeStreamEOF, []⟩]⟩) ∧
      s.outbound = [⟨typeStreamEOF, []⟩] := by
  refine ⟨?_, ?_, ?_⟩
  · have hrun : ((machine 4).run State.start lateRead).map
        (fun s => decide (s.reader = .idle (some ⟨[], some .deadlineExceeded, 1⟩) ∧
          s.peerSent = [7] ∧ s.returned ++ s.pending ++ bytesOf s.inbound = [])) = some true := by
      decide +kernel
    obtain ⟨s, hreach, hs⟩ := Machine.Reach.exists_of_run hrun
    exact ⟨s, hreach, of_decide_eq_true hs⟩
  · have hrun : ((machine 4).run State.start lateWrite).map
        (fun s => decide (s.writer
            = .idle (some ⟨.data [7] 0, some .deadlineExceeded, [⟨typeStreamData, [7]⟩]⟩) ∧
          s.outbound = [⟨typeStreamData, [7]⟩])) = some true := by decide +kernel
    obtain ⟨s, hreach, hs⟩ := Machine.Reach.exists_of_run hrun
    exact ⟨s, hreach, of_decide_eq_true hs⟩
  · have hrun : ((machine 4).run State.start lateCloseWrite).map
        (fun s => decide (s.writer
            = .idle (some ⟨.eof, some .deadlineExceeded, [⟨typeStreamEOF, []⟩]⟩) ∧
          s.outbound = [⟨typeStreamEOF, []⟩])) = some true := by decide +kernel
    obtain ⟨s, hreach, hs⟩ := Machine.Reach.exists_of_run hrun
    exact ⟨s, hreach, of_decide_eq_true hs⟩

end GoIpc.Conn
