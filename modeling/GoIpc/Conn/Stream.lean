import GoIpc.Conn.Pair

namespace GoIpc.Conn

open GoIpc.Lib
open GoIpc.Ring (Capacity maxMessageSize)
open GoIpc.Channel (Pipe)

/-!
# A connection is a byte stream

`Write` cuts a slice by the maximum message size, `Read` cuts the messages again by its own buffer
and keeps what is left in `pending`.  Whatever the two chunkings are, the bytes come out in the
order they went in.

* `Timeless` — no context of the connection ended at a deadline;
* `Sending` — what the writing side has put into the ring is what its calls report;
* `Called` — the calls report on the slices they were given, in order;
* `Pair.Linked` — what one side put into the ring, the other took out or has still to receive;
* `stream` — the theorem.
-/

variable {C : Capacity} {limit : Nat} {s s' : State} {a : Act} {p p' : Pair} {i : Bool}

/-! ### Without deadlines -/

/-- No context has ended at this deadline, and none will without a step that sets it. -/
structure Deadline.Off (d : Deadline) : Prop where
  expired : d.expired = false
  ctx : ∀ k, d.ctx k ≠ some .deadline

theorem Deadline.Off.cancel {d : Deadline} (h : d.Off) (sel : Nat → Bool) :
    (d.cancel sel .canceled).Off := by
  refine ⟨h.expired, fun k => ?_⟩
  show (if _ then _ else _) ≠ _
  split
  · simp
  · exact h.ctx k

theorem Deadline.Off.done {d : Deadline} (h : d.Off) (key : Nat) : (d.done key).Off :=
  Deadline.Off.cancel (d := { d with waiting := d.waiting.erase key }) ⟨h.expired, h.ctx⟩ _

theorem Deadline.Off.begin {d d' : Deadline} {base : Bool} {key : Nat} (h : d.Off)
    (hb : d.begin base = some (key, d')) : d'.Off := by
  simp only [Deadline.begin, h.expired, Bool.false_eq_true, if_false, Option.some.injEq,
    Prod.mk.injEq] at hb
  obtain ⟨rfl, rfl⟩ := hb
  refine ⟨rfl, fun k => ?_⟩
  show Function.update d.ctx _ _ k ≠ _
  rw [Function.update_apply]
  split
  · cases base <;> simp
  · exact h.ctx k

/-- A new context is always granted. -/
theorem Deadline.Off.begin_ne_none {d : Deadline} {base : Bool} (h : d.Off) : d.begin base ≠ none := by
  simp [Deadline.begin, h.expired]

/-- Neither deadline of the connection has passed. -/
structure Timeless (s : State) : Prop where
  read : s.readDeadline.Off
  write : s.writeDeadline.Off

theorem Timeless.start : Timeless State.start :=
  ⟨⟨rfl, fun _ => by simp [State.start, Deadline.start]⟩,
    ⟨rfl, fun _ => by simp [State.start, Deadline.start]⟩⟩

/-- Nothing succeeds late. -/
theorem Timeless.notLate (h : Timeless s) (a : Act) : notLate s a = true := by
  unfold Conn.notLate
  split
  · split
    · exact decide_eq_true (h.read.ctx _)
    · rfl
  · split
    · exact decide_eq_true (h.write.ctx _)
    · rfl
  · rfl

/-- Only a step that sets a deadline can make one pass. -/
theorem Timeless.step (h : Timeless s) (ha : a.untimed = true)
    (hs : s.step limit a = some s') : Timeless s' := by
  cases State.step_rule hs with
  | setRead | setWrite | fireRead | fireWrite => cases ha
  | readBegin _ hb => exact ⟨h.read.begin hb, h.write⟩
  | readFailed | readEnd | readData => exact ⟨h.read.done _, h.write⟩
  | writeBegin _ hb => exact ⟨h.read, h.write.begin hb⟩
  | writeFailed | writeNext => exact ⟨h.read, h.write.done _⟩
  | closeCancel => exact ⟨h.read.cancel _, h.write.cancel _⟩
  | _ => exact ⟨h.read, h.write⟩

/-! ### The writing side -/

/-- The bytes a finished call counts as written. -/
def WriteDone.counted (r : WriteDone) : List UInt8 :=
  match r.job with
  | .data p written => p.take written
  | .eof => []

/-- A call that reports success has written its whole slice. -/
def WriteDone.Whole (r : WriteDone) : Prop :=
  r.err = none → ∀ p written, r.job = .data p written → written = p.length

/-- The bytes the running call has put into the ring. -/
def Writer.bytes (limit : Nat) : Writer → List UInt8
  | .loop (.data p written) _ | .begin (.data p written) _ | .send (.data p written) _ _
  | .translate (.data p written) _ _ (some _) | .done (.data p written) _ _ (some _) =>
      p.take written
  | .translate (.data p written) _ _ none | .done (.data p written) _ _ none =>
      p.take (chunkEnd limit p written)
  | _ => []

/-- Where the running call stands in its slice: there is a byte left when it sends. -/
def Writer.Inside : Writer → Prop
  | .loop (.data p written) _ => written ≤ p.length
  | .begin (.data p written) _ | .send (.data p written) _ _ | .translate (.data p written) _ _ _
  | .done (.data p written) _ _ _ => written < p.length
  | _ => True

/-- A message of a connection: data within the limit and not empty, or the end of the stream. -/
def Msg.Fit (limit : Nat) (m : Msg) : Prop :=
  m.typ = typeStreamData ∧ m.payload ≠ [] ∧ m.payload.length ≤ limit ∨ m = ⟨typeStreamEOF, []⟩

theorem Msg.Fit.proper {m : Msg} (h : m.Fit limit) : m.Proper := by
  rcases h with ⟨-, hne, -⟩ | rfl
  · exact fun _ => hne
  · exact fun h => absurd rfl h

/-- The writing side: what is in the ring and what the calls returned. -/
structure Sending (limit : Nat) (s : State) (writes : List WriteDone) : Prop where
  bytes : bytesOf s.outbound = writes.flatMap WriteDone.counted ++ s.writer.bytes limit
  inside : s.writer.Inside
  fit : ∀ m ∈ s.outbound, m.Fit limit
  whole : ∀ r ∈ writes, r.Whole

theorem Sending.start : Sending limit State.start [] :=
  ⟨rfl, trivial, fun _ hm => (List.not_mem_nil hm).elim, fun _ hr => (List.not_mem_nil hr).elim⟩

variable {writes : List WriteDone}

/-- A step that returns no call and sends nothing. -/
theorem Sending.move (h : Sending limit s writes) (hout : s'.outbound = s.outbound)
    (hret : State.returnsWrite a s' = []) (hbytes : s'.writer.bytes limit = s.writer.bytes limit)
    (hin : s'.writer.Inside) : Sending limit s' (writes ++ State.returnsWrite a s') := by
  rw [hret, List.append_nil]
  exact ⟨by rw [hout, hbytes]; exact h.bytes, hin, by rw [hout]; exact h.fit, h.whole⟩

/-- A step that leaves the writing side alone. -/
theorem Sending.same (h : Sending limit s writes) (hout : s'.outbound = s.outbound)
    (hw : s'.writer = s.writer) (hret : State.returnsWrite a s' = []) :
    Sending limit s' (writes ++ State.returnsWrite a s') :=
  h.move hout hret (by rw [hw]) (hw ▸ h.inside)

/-- A step that returns a call. -/
theorem Sending.return (h : Sending limit s writes) {r : WriteDone} (hout : s'.outbound = s.outbound)
    (hret : State.returnsWrite a s' = [r]) (hw : s'.writer = .idle (some r))
    (hbytes : r.counted = s.writer.bytes limit) (hr : r.Whole) :
    Sending limit s' (writes ++ State.returnsWrite a s') := by
  rw [hret]
  refine ⟨?_, hw ▸ trivial, by rw [hout]; exact h.fit, ?_⟩
  · rw [hout, hw, h.bytes, List.flatMap_append, List.append_assoc]
    simp [hbytes, Writer.bytes]
  · intro x hx
    rcases List.mem_append.mp hx with hx | hx
    · exact h.whole x hx
    · rwa [List.mem_singleton.mp hx]

/-- A step that sends a message. -/
theorem Sending.put (h : Sending limit s writes) {m : Msg} (hm : m.Fit limit)
    (hout : s'.outbound = s.outbound ++ [m]) (hret : State.returnsWrite a s' = [])
    (hbytes : s'.writer.bytes limit = s.writer.bytes limit ++ m.bytes) (hin : s'.writer.Inside) :
    Sending limit s' (writes ++ State.returnsWrite a s') := by
  rw [hret, List.append_nil]
  refine ⟨?_, hin, ?_, h.whole⟩
  · rw [hout, bytesOf_append, bytesOf_singleton, h.bytes, hbytes, List.append_assoc]
  · intro x hx
    rw [hout] at hx
    rcases List.mem_append.mp hx with hx | hx
    · exact h.fit x hx
    · rwa [List.mem_singleton.mp hx]

theorem chunkEnd_le (limit : Nat) (p : List UInt8) (written : Nat) : chunkEnd limit p written ≤ p.length := by
  unfold chunkEnd
  split <;> omega

/-- The next chunk is not empty and within the limit. -/
theorem Job.msg_fit (hlimit : 0 < limit) {j : Job}
    (h : ∀ p written, j = .data p written → written < p.length) : (j.msg limit).Fit limit := by
  cases j with
  | eof => exact .inr rfl
  | data p written =>
    have hlt := h p written rfl
    have hlen : ((p.drop written).take (chunkEnd limit p written - written)).length =
        chunkEnd limit p written - written := by
      have := chunkEnd_le limit p written
      rw [List.length_take, List.length_drop]
      omega
    have hpos : 0 < chunkEnd limit p written - written := by
      unfold chunkEnd
      split <;> omega
    have hle : chunkEnd limit p written - written ≤ limit := by
      unfold chunkEnd
      split <;> omega
    refine .inl ⟨rfl, ?_, ?_⟩
    · exact List.ne_nil_of_length_pos (by rw [Job.msg, hlen]; exact hpos)
    · rwa [Job.msg, hlen]

/-- The bytes of the next message continue what has been written. -/
theorem Job.msg_bytes {p : List UInt8} {written : Nat} :
    p.take written ++ ((Job.data p written).msg limit).bytes = p.take (chunkEnd limit p written) := by
  have h : (Job.data p written).Sent [⟨typeStreamData, p.take written⟩] :=
    ⟨by rw [bytesOf_singleton, Msg.bytes, if_neg typeStreamData_ne],
      fun m hm => by rw [List.mem_singleton.mp hm]⟩
  have h' : bytesOf (_ ++ [(Job.data p written).msg limit]) = _ := h.advance.1
  rwa [bytesOf_append, bytesOf_singleton, bytesOf_singleton, Msg.bytes, if_neg typeStreamData_ne] at h'

/-- **Every step keeps the writing side's account.** -/
theorem Sending.step (h : Sending limit s writes) (hlimit : 0 < limit) (ht : Timeless s)
    (ha : a.untimed = true) (hs : s.step limit a = some s') :
    Sending limit s' (writes ++ State.returnsWrite a s') := by
  have hin := h.inside
  cases State.step_rule hs with
  | setRead | setWrite | fireRead | fireWrite => cases ha
  | writeRefused p hpc | closeWriteRefused hpc =>
    exact h.return rfl rfl rfl (hpc ▸ rfl) nofun
  | write p hpc => exact h.move rfl rfl (hpc ▸ rfl) (Nat.zero_le _)
  | closeWrite hpc => exact h.move rfl rfl (hpc ▸ rfl) trivial
  | writeOn hpc hlt => exact h.move rfl rfl (hpc ▸ rfl) hlt
  -- the loop ends where all chunks are sent
  | @writeAll q written sent hpc hge =>
    rw [hpc] at hin
    have heq : written = q.length := le_antisymm hin hge
    refine h.return rfl rfl rfl (hpc ▸ rfl) ?_
    rintro - p w hjob
    cases hjob
    exact heq
  | writeEnd hpc =>
    exact h.return rfl rfl rfl (hpc ▸ rfl) nofun
  | writeExpired _ hb => exact absurd hb ht.write.begin_ne_none
  | @writeBegin j sent key d hpc =>
    rw [hpc] at hin
    exact h.move rfl rfl (by rw [hpc]; cases j <;> rfl) (by cases j <;> exact hin)
  | @writeTranslate j sent key err hpc =>
    rw [hpc] at hin
    refine h.move rfl rfl ?_ (by cases j <;> exact hin)
    rw [hpc]
    cases err with
    | none =>
      rw [translate_none (ht.write.ctx key)]
      cases j <;> rfl
    | some e =>
      obtain ⟨e', he'⟩ := translate_some (s.writeDeadline.ctx key) e
      rw [he']
      cases j <;> rfl
  | @writeFailed j sent key e hpc =>
    exact h.return rfl rfl rfl (by rw [hpc]; cases j <;> rfl) nofun
  | @writeNext j sent key hpc =>
    refine h.move rfl rfl (by rw [hpc]; cases j <;> rfl) ?_
    cases j with
    | data q written => exact chunkEnd_le limit q written
    | eof => trivial
  -- a chunk goes out, and the account moves by its bytes
  | @sendOk j sent key hpc =>
    rw [hpc] at hin
    cases j with
    | data q written =>
      refine h.put (Job.msg_fit hlimit fun p w hjob => by cases hjob; exact hin) rfl rfl ?_ hin
      rw [hpc]
      exact Job.msg_bytes.symm
    | eof => exact h.put (.inr rfl) rfl rfl (hpc ▸ rfl) trivial
  | @sendErr j sent key e hpc =>
    rw [hpc] at hin
    exact h.move rfl rfl (by rw [hpc]; cases j <;> rfl) (by cases j <;> exact hin)
  | closeSend b =>
    cases b with
    | false => exact h.same rfl rfl rfl
    | true => exact h.put (.inr rfl) rfl rfl (by simp [Msg.bytes]) hin
  | _ => exact h.same rfl rfl rfl

/-! ### The slices of the calls -/

/-- The slice of a job. -/
def Job.slice : Job → Option (List UInt8)
  | .data p _ => some p
  | .eof => none

/-- The slice of the running call. -/
def Writer.slice : Writer → Option (List UInt8)
  | .idle _ => none
  | .loop j _ | .begin j _ | .send j _ _ | .translate j _ _ _ | .done j _ _ _ => j.slice

/-- The slice a finished call was given. -/
def WriteDone.slice (r : WriteDone) : Option (List UInt8) := r.job.slice

/-- The slices given to `Write` are those of its finished calls and of the running one. -/
def Called (s : State) (calls : List (List UInt8)) (writes : List WriteDone) : Prop :=
  calls = writes.filterMap WriteDone.slice ++ s.writer.slice.toList

variable {calls : List (List UInt8)}

/-- A step inside a call, or outside of all of them. -/
theorem Called.move (h : Called s calls writes) (ha : a.slice = none)
    (hret : State.returnsWrite a s' = []) (hw : s'.writer.slice = s.writer.slice) :
    Called s' (calls ++ a.slice.toList) (writes ++ State.returnsWrite a s') := by
  rw [ha, hret, Called, hw]
  simpa [Called] using h

/-- A step that returns the running call. -/
theorem Called.return (h : Called s calls writes) {r : WriteDone} (ha : a.slice = none)
    (hret : State.returnsWrite a s' = [r]) (hw : s'.writer.slice = none)
    (hr : r.slice = s.writer.slice) :
    Called s' (calls ++ a.slice.toList) (writes ++ State.returnsWrite a s') := by
  rw [ha, hret, Called, hw, h, List.filterMap_append, ← hr]
  cases hslice : r.slice <;> simp [hslice]

theorem Job.advance_slice (j : Job) : (j.advance limit).slice = j.slice := by
  cases j <;> rfl

/-- **Every step keeps the slices of the calls.** -/
theorem Called.step (h : Called s calls writes) (hs : s.step limit a = some s') :
    Called s' (calls ++ a.slice.toList) (writes ++ State.returnsWrite a s') := by
  cases State.step_rule hs with
  | writeRefused p hpc | write p hpc =>
    -- the call brings its slice
    rw [Called, hpc] at h
    rw [Called, h]
    simp [Act.slice, State.returnsWrite, Writer.slice, WriteDone.slice, Job.slice]
  | closeWriteRefused hpc | writeAll hpc | writeEnd hpc | writeExpired hpc | writeFailed hpc =>
    exact h.return rfl rfl rfl (hpc ▸ rfl)
  | closeWrite hpc | writeOn hpc | writeBegin hpc | writeTranslate hpc | sendOk hpc | sendErr hpc =>
    exact h.move rfl rfl (hpc ▸ rfl)
  | @writeNext j sent key hpc =>
    refine h.move rfl rfl ?_
    rw [hpc]
    exact j.advance_slice
  | _ => exact h.move rfl rfl rfl

/-- What the running call has put into the ring is the beginning of its slice. -/
theorem Writer.bytes_prefix_slice (w : Writer) : w.bytes limit <+: w.slice.getD [] := by
  cases w with
  | idle r => exact List.nil_prefix
  | loop j sent | begin j sent | send j sent key =>
    cases j with
    | data q n => exact List.take_prefix n q
    | eof => exact List.nil_prefix
  | translate j sent key err | done j sent key err =>
    cases j with
    | data q n =>
      cases err with
      | none => exact List.take_prefix _ q
      | some e => exact List.take_prefix n q
    | eof => cases err <;> exact List.nil_prefix

/-! ### Two sides -/

/-- What a step does to the two rings: it puts in what it sends, and takes out what it receives. -/
structure State.Moves (limit : Nat) (s : State) (a : Act) (s' : State) : Prop where
  outbound : s'.outbound = s.outbound ++ (s.sends limit a).toList
  inbound : s.inbound = (s.takes a).toList ++ s'.inbound
  peerSent : s'.peerSent = s.peerSent

theorem State.moves (hpeer : ∀ m, a ≠ .peer m) (hs : s.step limit a = some s') :
    s.Moves limit a s' := by
  have hstay : ∀ {t : State} {b : Act}, s.sends limit b = none → s.takes b = none →
      t.outbound = s.outbound → t.inbound = s.inbound → t.peerSent = s.peerSent →
      s.Moves limit b t := by
    intro t b h1 h2 h3 h4 h5
    exact ⟨by simp [h1, h3], by simp [h2, h4], h5⟩
  cases State.step_rule hs with
  | peer => exact absurd rfl (hpeer _)
  | recvOk _ hin => exact ⟨by simp [State.sends], by simp [State.takes, hin], rfl⟩
  | sendOk hpc => exact ⟨by simp [State.sends, hpc], by simp [State.takes], rfl⟩
  | closeSend b hpc =>
    cases b with
    | false => exact hstay rfl rfl rfl rfl rfl
    | true => exact ⟨by simp [State.sends, hpc], by simp [State.takes], rfl⟩
  | closeCancel b hpc | closeChannel b hpc =>
    exact hstay (by cases b <;> simp [State.sends, hpc]) rfl rfl rfl rfl
  | _ => exact hstay rfl rfl rfl rfl rfl

/-- A step of the pair is a step of one side that the channel allows. -/
theorem Pair.of_step {x : Bool × Act} (hs : p.step C x = some p') :
    ∃ s', p.allows C x.1 x.2 = true ∧ (p.side x.1).step (maxMessageSize C) x.2 = some s' ∧
      p' = p.after C x.1 x.2 s' := by
  unfold Pair.step at hs
  split_ifs at hs with hal
  obtain ⟨s', hstep, rfl⟩ := Option.map_eq_some_iff.mp hs
  exact ⟨s', hal, hstep, rfl⟩

/-- The other side is not the environment: nothing comes from outside. -/
theorem Pair.allows_ne_peer (h : p.allows C i a = true) (m : Msg) : a ≠ .peer m := by
  rintro rfl
  cases h

section After

variable {k : Bool}

/-- The side that moves, and its history. -/
@[simp] theorem Pair.after_self : (p.after C k a s').side k = s' ∧
    (p.after C k a s').taken k = p.taken k ++ ((p.side k).takes a).toList ∧
    (p.after C k a s').reads k = p.reads k ++ (p.side k).returnsRead a s' ∧
    (p.after C k a s').calls k = p.calls k ++ a.slice.toList ∧
    (p.after C k a s').writes k = p.writes k ++ State.returnsWrite a s' := by
  simp [Pair.after]

/-- The other side is brought the message. -/
@[simp] theorem Pair.after_other :
    (p.after C k a s').side (!k) = (p.side (!k)).deliver ((p.side k).sends (maxMessageSize C) a) ∧
    (p.after C k a s').taken (!k) = p.taken (!k) ∧ (p.after C k a s').reads (!k) = p.reads (!k) ∧
    (p.after C k a s').calls (!k) = p.calls (!k) ∧ (p.after C k a s').writes (!k) = p.writes (!k) := by
  simp [Pair.after]

/-- **What a step keeps of both sides**, each with its history: the one that moves makes a step, and
    the other is brought a message. -/
theorem Pair.forall_after {P : State → List Msg → List (Nat × ReadDone) → List (List UInt8) →
      List WriteDone → Prop}
    (hself : P s' (p.taken k ++ ((p.side k).takes a).toList)
      (p.reads k ++ (p.side k).returnsRead a s') (p.calls k ++ a.slice.toList)
      (p.writes k ++ State.returnsWrite a s'))
    (hother : P ((p.side (!k)).deliver ((p.side k).sends (maxMessageSize C) a)) (p.taken (!k))
      (p.reads (!k)) (p.calls (!k)) (p.writes (!k))) (i : Bool) :
    P ((p.after C k a s').side i) ((p.after C k a s').taken i) ((p.after C k a s').reads i)
      ((p.after C k a s').calls i) ((p.after C k a s').writes i) := by
  by_cases hi : i = k
  · subst hi
    simpa using hself
  · obtain rfl : i = !k := Bool.eq_not.mpr hi
    simpa using hother

end After

/-- What holds of one side, whichever side moves. -/
theorem Pair.forall_side {P : Bool → Prop} (k : Bool) (hself : P k) (hother : P (!k)) (i : Bool) :
    P i := by
  cases i <;> cases k <;> assumption

/-! ### The invariant of the pair -/

theorem State.deliver_fields (m : Option Msg) :
    (s.deliver m).writer = s.writer ∧ (s.deliver m).outbound = s.outbound ∧
      (s.deliver m).reader = s.reader ∧ (s.deliver m).inbound = s.inbound ++ m.toList ∧
      (s.deliver m).peerSent = s.peerSent ++ bytesOf m.toList := by
  cases m with
  | none => exact ⟨rfl, rfl, rfl, (List.append_nil _).symm, (List.append_nil _).symm⟩
  | some m => exact ⟨rfl, rfl, rfl, rfl, congrArg _ (bytesOf_singleton m).symm⟩

theorem Timeless.deliver (h : Timeless s) (m : Option Msg) : Timeless (s.deliver m) := by
  cases m <;> exact ⟨h.read, h.write⟩

theorem Sending.deliver (h : Sending limit s writes) (m : Option Msg) :
    Sending limit (s.deliver m) writes := by
  cases m <;> exact ⟨h.bytes, h.inside, h.fit, h.whole⟩

theorem Called.deliver (h : Called s calls writes) (m : Option Msg) :
    Called (s.deliver m) calls writes := by
  cases m <;> exact h

theorem ReadInv.deliver (h : ReadInv s) {m : Option Msg} (hm : ∀ x ∈ m, x.Proper) :
    ReadInv (s.deliver m) := by
  cases m with
  | none => exact h
  | some m => exact h.append (hm m rfl)

/-- Both sides' accounts, and the rings between them. -/
structure Pair.Inv (C : Capacity) (p : Pair) : Prop where
  timeless : ∀ i, Timeless (p.side i)
  reading : ∀ i, ReadInv (p.side i)
  sending : ∀ i, Sending (maxMessageSize C) (p.side i) (p.writes i)
  called : ∀ i, Called (p.side i) (p.calls i) (p.writes i)
  linked : ∀ i, (p.side i).outbound = p.taken (!i) ++ (p.side (!i)).inbound
  bytes : ∀ i, (p.side (!i)).peerSent = bytesOf (p.side i).outbound

theorem Pair.Inv.start : Pair.Inv C Pair.start :=
  ⟨fun _ => .start, fun _ => .start, fun _ => .start, fun _ => rfl, fun _ => rfl, fun _ => rfl⟩

theorem maxMessageSize_pos (C : Capacity) : 0 < maxMessageSize C := by
  have := C.min
  rw [Ring.maxMessageSize_eq]
  omega

/-- **Every step without a deadline keeps the accounts of both sides.** -/
theorem Pair.Inv.step {x : Bool × Act} (h : p.Inv C) (ha : x.2.untimed = true)
    (hs : p.step C x = some p') : p'.Inv C := by
  obtain ⟨k, a⟩ := x
  obtain ⟨s', hal, hstep, rfl⟩ := Pair.of_step hs
  have hmoves := State.moves (Pair.allows_ne_peer hal) hstep
  have hsending := (h.sending k).step (maxMessageSize_pos C) (h.timeless k) ha hstep
  -- what this side puts into the ring is a message of a connection
  have hproper : ∀ m ∈ (p.side k).sends (maxMessageSize C) a, m.Proper := by
    intro m hm
    refine (hsending.fit m ?_).proper
    rw [hmoves.outbound]
    exact List.mem_append_right _ (Option.mem_toList.mpr hm)
  obtain ⟨-, hout, -, hin, hsent⟩ :=
    (p.side (!k)).deliver_fields ((p.side k).sends (maxMessageSize C) a)
  refine ⟨forall_after (P := fun s _ _ _ _ => Timeless s) ((h.timeless k).step ha hstep)
      ((h.timeless (!k)).deliver _),
    forall_after (P := fun s _ _ _ _ => ReadInv s)
      ((h.reading k).step ((h.timeless k).notLate a) hstep) ((h.reading (!k)).deliver hproper),
    forall_after (P := fun s _ _ _ writes => Sending _ s writes) hsending ((h.sending (!k)).deliver _),
    forall_after (P := fun s _ _ calls writes => Called s calls writes) ((h.called k).step hstep)
      ((h.called (!k)).deliver _), forall_side k ?_ ?_, forall_side k ?_ ?_⟩
  · simp only [after_self, after_other]
    rw [hmoves.outbound, hin, h.linked k, List.append_assoc]
  · simp only [Bool.not_not, after_self, after_other]
    have hlink := h.linked (!k)
    rw [Bool.not_not, hmoves.inbound] at hlink
    rw [hout, hlink, List.append_assoc]
  · simp only [after_self, after_other]
    rw [hmoves.outbound, hsent, h.bytes k, bytesOf_append]
  · simp only [Bool.not_not, after_self, after_other]
    rw [hout, hmoves.peerSent, ← h.bytes (!k), Bool.not_not]

/-- What the peer has returned, holds or has still to receive is what was counted as written. -/
theorem Pair.Inv.account (h : p.Inv C) (i : Bool) :
    (p.side (!i)).returned ++ (p.side (!i)).pending ++ (p.side (!i)).reader.held ++
        bytesOf (p.side (!i)).inbound =
      (p.writes i).flatMap WriteDone.counted ++ (p.side i).writer.bytes (maxMessageSize C) := by
  rw [(h.reading (!i)).stream, h.bytes i, (h.sending i).bytes]

/-! ### Reads and writes only -/

/-- The running call writes data and has met no error. -/
def Writer.Clean : Writer → Prop
  | .idle _ => True
  | .loop j _ | .begin j _ | .send j _ _ => j ≠ .eof
  | .translate j _ _ err => j ≠ .eof ∧ err = none
  | .done j _ _ err => j ≠ .eof ∧ err = none

/-- A side on which nothing but `Read` and `Write` runs. -/
structure Streaming (s : State) (writes : List WriteDone) : Prop where
  eofSent : s.eofSent = false
  clean : s.writer.Clean
  data : ∀ m ∈ s.outbound, m.typ = typeStreamData
  ok : ∀ r ∈ writes, r.err = none ∧ r.job ≠ .eof

theorem Streaming.start : Streaming State.start [] :=
  ⟨rfl, trivial, fun _ hm => (List.not_mem_nil hm).elim, fun _ hr => (List.not_mem_nil hr).elim⟩

theorem Streaming.deliver (h : Streaming s writes) (m : Option Msg) :
    Streaming (s.deliver m) writes := by
  cases m <;> exact ⟨h.eofSent, h.clean, h.data, h.ok⟩

/-- A step that returns no call and sends nothing. -/
theorem Streaming.move (h : Streaming s writes) (heof : s'.eofSent = s.eofSent)
    (hout : s'.outbound = s.outbound) (hret : State.returnsWrite a s' = [])
    (hclean : s'.writer.Clean) : Streaming s' (writes ++ State.returnsWrite a s') := by
  rw [hret, List.append_nil]
  exact ⟨heof.trans h.eofSent, hclean, by rw [hout]; exact h.data, h.ok⟩

theorem Job.advance_ne {j : Job} (h : j ≠ .eof) : j.advance limit ≠ .eof := by
  cases j with
  | data q written => exact nofun
  | eof => exact absurd rfl h

theorem Streaming.step (h : Streaming s writes) (ht : Timeless s) (ha : a.streaming = true)
    (hs : s.step limit a = some s') : Streaming s' (writes ++ State.returnsWrite a s') := by
  have hclean := h.clean
  cases State.step_rule hs with
  | writeRefused p hpc hsent => exact absurd (h.eofSent.symm.trans hsent) (by decide)
  | write p hpc => exact h.move rfl rfl rfl nofun
  | writeOn hpc | writeBegin hpc =>
    rw [hpc] at hclean
    exact h.move rfl rfl rfl hclean
  | writeAll hpc =>
    -- the whole slice is written
    rw [hpc] at hclean
    refine ⟨h.eofSent, trivial, h.data, ?_⟩
    intro r hr
    rcases List.mem_append.mp hr with hr | hr
    · exact h.ok r hr
    · rw [List.mem_singleton.mp hr]
      exact ⟨rfl, hclean⟩
  | writeEnd hpc =>
    rw [hpc] at hclean
    exact absurd rfl hclean
  | writeExpired _ hb => exact absurd hb ht.write.begin_ne_none
  | @writeTranslate j sent key err hpc =>
    rw [hpc] at hclean
    refine h.move rfl rfl rfl ⟨hclean.1, ?_⟩
    rw [hclean.2]
    exact translate_none (ht.write.ctx key)
  | writeFailed hpc =>
    rw [hpc] at hclean
    cases hclean.2
  | writeNext hpc =>
    rw [hpc] at hclean
    exact h.move rfl rfl rfl (Job.advance_ne hclean.1)
  | @sendOk j sent key hpc =>
    rw [hpc] at hclean
    show Streaming _ (writes ++ [])
    rw [List.append_nil]
    refine ⟨h.eofSent, ⟨hclean, rfl⟩, ?_, h.ok⟩
    intro m hm
    rcases List.mem_append.mp hm with hm | hm
    · exact h.data m hm
    · rw [List.mem_singleton.mp hm]
      cases j with
      | data q written => rfl
      | eof => exact absurd rfl hclean
  | closeWriteRefused | closeWrite | setRead | setWrite | fireRead | fireWrite | recvErr | sendErr
  | closeEnded | close | closeSend | closeCancel | closeChannel | peer => cases ha
  | _ => exact h.move rfl rfl rfl hclean

/-- A `Read` that returns no error returns bytes, unless its buffer is empty. -/
theorem State.returnsRead_data (hs : s.step limit a = some s') {x : Nat × ReadDone}
    (hx : x ∈ s.returnsRead a s') (hlen : 0 < x.1) (herr : x.2.err = none) : x.2.data ≠ [] := by
  cases State.step_rule hs with
  | @readPending len taken hpc hp =>
    have hreadLen : s.readLen = len := by simp [State.readLen, hpc]
    rw [List.mem_singleton.mp hx] at hlen ⊢
    rw [hreadLen] at hlen
    show s.pending.take len ≠ []
    intro hnil
    rcases List.take_eq_nil_iff.mp hnil with h0 | h0
    · omega
    · exact hp h0
  | readAtEnd | readExpired | readFailed | readEnd =>
    rw [List.mem_singleton.mp hx] at herr
    cases herr
  | _ => cases hx

/-- Every buffer that is not empty brought bytes, or an error. -/
def ReadsData (reads : List (Nat × ReadDone)) : Prop :=
  ∀ x ∈ reads, 0 < x.1 → x.2.err = none → x.2.data ≠ []

/-- What runs of `Read` and `Write` keep. -/
structure Pair.Streams (C : Capacity) (p : Pair) : Prop where
  inv : p.Inv C
  streaming : ∀ i, Streaming (p.side i) (p.writes i)
  reads : ∀ i, ReadsData (p.reads i)

theorem Act.untimed_of_streaming (h : a.streaming = true) : a.untimed = true := by
  cases a <;> first | rfl | cases h

theorem Pair.Streams.step {x : Bool × Act} (h : p.Streams C) (ha : x.2.streaming = true)
    (hs : p.step C x = some p') : p'.Streams C := by
  have hinv := h.inv.step (Act.untimed_of_streaming ha) hs
  obtain ⟨k, a⟩ := x
  obtain ⟨s', -, hstep, rfl⟩ := Pair.of_step hs
  refine ⟨hinv, forall_after (P := fun s _ _ _ writes => Streaming s writes)
      ((h.streaming k).step (h.inv.timeless k) ha hstep) ((h.streaming (!k)).deliver _),
    forall_after (P := fun _ _ reads _ _ => ReadsData reads) (fun y hy => ?_) (h.reads (!k))⟩
  rcases List.mem_append.mp hy with hy | hy
  · exact h.reads k y hy
  · exact State.returnsRead_data hstep hy

/-- When every finished call has written its slice, the `k`-th call is the one that was given the
    `k`-th slice. -/
theorem Called.writes_whole (h : Called s calls writes)
    (hok : ∀ r ∈ writes, ∃ q, r.job = .data q q.length) :
    calls.take writes.length = writes.filterMap WriteDone.slice ∧
      calls[writes.length]? = s.writer.slice ∧
      writes.flatMap WriteDone.counted = (calls.take writes.length).flatten ∧
      ∀ (k : Nat) (r : WriteDone), writes[k]? = some r → ∃ q, calls[k]? = some q ∧ r.job = .data q q.length := by
  have hslice : ∀ r ∈ writes, r.slice = some r.counted ∧ r.job = .data r.counted r.counted.length := by
    intro r hr
    obtain ⟨q, hq⟩ := hok r hr
    simp [WriteDone.slice, WriteDone.counted, Job.slice, hq]
  have hmap : writes.filterMap WriteDone.slice = writes.map WriteDone.counted := by
    rw [← List.filterMap_eq_map]
    exact List.filterMap_congr fun r hr => (hslice r hr).1
  rw [Called, hmap] at h
  have hlen : (writes.map WriteDone.counted).length = writes.length := List.length_map _
  have htake : calls.take writes.length = writes.map WriteDone.counted := by
    rw [h, List.take_append_of_le_length hlen.ge, ← hlen, List.take_length]
  refine ⟨htake.trans hmap.symm, ?_, ?_, ?_⟩
  · rw [h, List.getElem?_append_right hlen.le, hlen, Nat.sub_self]
    cases s.writer.slice <;> rfl
  · rw [htake, List.flatMap_def]
  · intro k r hk
    obtain ⟨hlt, -⟩ := List.getElem?_eq_some_iff.mp hk
    refine ⟨r.counted, ?_, (hslice r (List.mem_of_getElem? hk)).2⟩
    rw [h, List.getElem?_append_left (by rwa [hlen]), List.getElem?_map, hk]
    rfl

/-- **A connection is a byte stream.**  Side `i` writes and side `!i` reads, in any interleaving and
    with any chunking.  What has been returned, what is pending, what a running `Read` holds and
    what is in the ring are together the slices that the finished `Write` calls were given and the
    beginning of the slice of the running one; the `k`-th call returns the length of the `k`-th
    slice; every message is data, not empty and within the maximum; and a `Read` into a buffer that
    is not empty returns bytes or an error. -/
theorem stream (h : (pair C).Reach (fun _ x => x.2.streaming = true) p) (i : Bool) :
    (p.side (!i)).returned ++ (p.side (!i)).pending ++ (p.side (!i)).reader.held ++
        bytesOf (p.side (!i)).inbound =
      ((p.calls i).take (p.writes i).length).flatten ++
        (p.side i).writer.bytes (maxMessageSize C) ∧
    (p.side i).writer.bytes (maxMessageSize C) <+: (p.calls i)[(p.writes i).length]?.getD [] ∧
    (p.calls i).length ≤ (p.writes i).length + 1 ∧
    (∀ (k : Nat) (r : WriteDone), (p.writes i)[k]? = some r →
      r.err = none ∧ ∃ q, (p.calls i)[k]? = some q ∧ r.job = .data q q.length) ∧
    (∀ m ∈ (p.side i).outbound, m.typ = typeStreamData ∧ m.payload ≠ [] ∧
      m.payload.length ≤ maxMessageSize C) ∧
    (∀ x ∈ p.reads (!i), 0 < x.1 → x.2.err = none → x.2.data ≠ []) := by
  have hinv : p.Streams C := h.invariant
    ⟨.start, fun _ => .start, fun _ x hx => (List.not_mem_nil hx).elim⟩
    fun _ _ _ hp hok hs => hp.step hok hs
  -- without deadlines and closes a `Write` that returns has sent its slice
  have hwhole : ∀ r ∈ p.writes i, ∃ q, r.job = .data q q.length := by
    intro r hr
    obtain ⟨herr, hjob⟩ := (hinv.streaming i).ok r hr
    have hall := (hinv.inv.sending i).whole r hr herr
    cases hj : r.job with
    | eof => exact absurd hj hjob
    | data q written => exact ⟨q, by rw [hall q written hj]⟩
  have hcalled := hinv.inv.called i
  obtain ⟨htake, hrun, hflat, hcall⟩ := hcalled.writes_whole hwhole
  refine ⟨?_, ?_, ?_, ?_, ?_, hinv.reads (!i)⟩
  · rw [hinv.inv.account i, hflat]
  · rw [hrun]
    exact Writer.bytes_prefix_slice _
  · have hle := List.length_filterMap_le WriteDone.slice (p.writes i)
    rw [hcalled, List.length_append]
    cases (p.side i).writer.slice <;> simp <;> omega
  · exact fun k r hk => ⟨((hinv.streaming i).ok r (List.mem_of_getElem? hk)).1, hcall k r hk⟩
  · intro m hm
    have htyp := (hinv.streaming i).data m hm
    rcases (hinv.inv.sending i).fit m hm with hfit | rfl
    · exact hfit
    · exact absurd htyp (by decide)

/-- Three bytes, written in one call and read through a buffer of two. -/
def split : List (Bool × Act) :=
  [(false, .write [1, 2, 3]), (false, .writeStep), (false, .writeStep), (true, .read 2),
    (false, .sendOk), (true, .readStep), (false, .writeStep), (true, .readStep), (true, .recvOk),
    (false, .writeStep), (true, .readStep), (true, .readStep), (false, .writeStep), (true, .readStep)]

theorem stream_split : ∃ p, (pair .smallest).Reach (fun _ x => x.2.streaming = true) p ∧
    (p.side true).returned = [1, 2] ∧ (p.side true).pending = [3] ∧ p.calls false = [[1, 2, 3]] ∧
    p.writes false = [⟨.data [1, 2, 3] 3, none, [⟨typeStreamData, [1, 2, 3]⟩]⟩] ∧
    (p.side true).returned ++ (p.side true).pending ++ (p.side true).reader.held ++
        bytesOf (p.side true).inbound =
      ((p.calls false).take (p.writes false).length).flatten ++
        (p.side false).writer.bytes (maxMessageSize .smallest) := by
  have hrun : ((pair .smallest).runOk (fun _ x => x.2.streaming) (pair .smallest).init split).map
      (fun p => ((p.side true).returned, (p.side true).pending, p.calls false, p.writes false)) =
      some ([1, 2], [3], [[1, 2, 3]],
        [⟨.data [1, 2, 3] 3, none, [⟨typeStreamData, [1, 2, 3]⟩]⟩]) := by
    decide +kernel
  obtain ⟨p, hp, hobs⟩ := Machine.Reach.exists_of_runOk (fun _ _ h => h) hrun
  simp only [Prod.mk.injEq] at hobs
  obtain ⟨hret, hpend, hcalls, hwrites⟩ := hobs
  exact ⟨p, hp, hret, hpend, hcalls, hwrites, (stream hp false).1⟩

end GoIpc.Conn
