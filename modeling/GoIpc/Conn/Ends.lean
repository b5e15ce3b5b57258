import GoIpc.Conn.Stream

namespace GoIpc.Conn

open GoIpc.Lib
open GoIpc.Ring (Capacity maxMessageSize)

/-!
# The end of a stream

The end of a stream is a message of its own.  `CloseWrite` waits for room and holds `writeMu` while
it sends it; `Close` sends it with `TrySend` and without the mutex.  Two things follow.

* A full ring drops the message of `Close`, and the peer that has read everything is told that the
  other side is gone: `close_full`.  With room for it the peer reads every byte and then the end:
  `close_ends_stream`.
* A `Write` that has begun goes on after `Close` has sent the end, and its messages follow it:
  `write_past_end`.  When `Close` sends the end while no `Write` runs, no data follows it:
  `end_is_last`.
-/

variable {C : Capacity} {limit : Nat} {s s' : State} {a : Act} {p p' : Pair} {i : Bool}
  {taken : List Msg} {reads : List (Nat × ReadDone)}

/-- The list holds the end of the stream. -/
def HasEnd (ms : List Msg) : Prop := ∃ m ∈ ms, m.typ = typeStreamEOF

/-- Behind the end of the stream there is no data. -/
def EndLast (ms : List Msg) : Prop :=
  ∀ before m after, ms = before ++ m :: after → m.typ = typeStreamEOF →
    ∀ x ∈ after, x.typ = typeStreamEOF

theorem HasEnd.append_left {l : List Msg} (h : HasEnd l) (r : List Msg) : HasEnd (l ++ r) := by
  obtain ⟨m, hm, htyp⟩ := h
  exact ⟨m, List.mem_append_left r hm, htyp⟩

theorem hasEnd_append {l r : List Msg} : HasEnd (l ++ r) ↔ HasEnd l ∨ HasEnd r := by
  simp only [HasEnd, List.mem_append, or_and_right, exists_or]

theorem hasEnd_eof (l : List Msg) : HasEnd (l ++ [Job.msg limit .eof]) :=
  ⟨_, List.mem_append_right l (List.mem_singleton_self _), rfl⟩

/-- Another message may follow when it is an end too, or when there is no end yet. -/
theorem EndLast.append {l : List Msg} (h : EndLast l) {x : Msg}
    (hx : x.typ = typeStreamEOF ∨ ¬ HasEnd l) : EndLast (l ++ [x]) := by
  intro before m after heq htyp y hy
  rcases List.eq_nil_or_concat after with rfl | ⟨init, z, rfl⟩
  · cases hy
  · rw [List.concat_eq_append, ← List.cons_append, ← List.append_assoc] at heq
    obtain ⟨rfl, hz⟩ := List.append_inj' heq rfl
    obtain rfl : x = z := by simpa using hz
    have hend : HasEnd (before ++ m :: init) := ⟨m, by simp, htyp⟩
    rw [List.concat_eq_append] at hy
    rcases List.mem_append.mp hy with hy | hy
    · exact h before m init rfl htyp y hy
    · rw [List.mem_singleton.mp hy]
      exact hx.resolve_right (not_not.mpr hend)

/-- Behind the part that holds the end, nothing adds to the stream. -/
theorem EndLast.bytes_right {l r : List Msg} (h : EndLast (l ++ r)) (hl : HasEnd l) :
    bytesOf r = [] := by
  obtain ⟨m, hm, htyp⟩ := hl
  obtain ⟨before, after, rfl⟩ := List.append_of_mem hm
  refine List.flatMap_eq_nil_iff.mpr fun x hx => ?_
  refine if_pos (h before m (after ++ r) (by simp) htyp x ?_)
  exact List.mem_append_right _ hx

/-! ### The reading side -/

/-- The message `Read` holds. -/
def Reader.holds : Reader → List Msg
  | .translate _ _ _ m none | .done _ _ _ m none => [m]
  | _ => []

/-- `Read` is between calls, or at the top of its loop. -/
def Reader.resting : Reader → Bool
  | .idle _ | .loop _ _ => true
  | _ => false

/-- The error `Read` is about to return. -/
def Reader.fault : Reader → Option NetErr
  | .done _ _ _ _ err => err
  | _ => none

/-- What `Read` has seen of the end: before it, only data was taken; after it, nothing is pending
    and nothing is received any more. -/
structure Seen (s : State) (taken : List Msg) (reads : List (Nat × ReadDone)) : Prop where
  before : s.eof = false → ∃ l, taken = l ++ s.reader.holds ∧ ¬ HasEnd l
  after : s.eof = true → HasEnd taken ∧ s.pending = [] ∧ s.reader.resting = true
  reads : ∀ x ∈ reads, x.2.err = some .eof → s.eof = true
  fault : s.reader.fault ≠ some .eof

theorem Seen.start : Seen State.start [] [] where
  before _ := ⟨[], rfl, fun ⟨_, hm, _⟩ => List.not_mem_nil hm⟩
  after h := by cases h
  reads _ hx := (List.not_mem_nil hx).elim
  fault h := by cases h

theorem Seen.deliver (h : Seen s taken reads) (m : Option Msg) : Seen (s.deliver m) taken reads := by
  cases m <;> exact ⟨h.before, h.after, h.reads, h.fault⟩

/-- A step that takes nothing, returns nothing and does not touch `eof`. -/
theorem Seen.move (h : Seen s taken reads) (heof : s'.eof = s.eof) (hp : s'.pending = s.pending)
    (hholds : s'.reader.holds = s.reader.holds) (hfault : s'.reader.fault ≠ some .eof)
    (hrest : s.reader.resting = true → s.eof = true → s'.reader.resting = true) :
    Seen s' taken reads := by
  refine ⟨?_, ?_, ?_, hfault⟩
  · rw [heof, hholds]
    exact h.before
  · intro he
    rw [heof] at he
    obtain ⟨h1, h2, h3⟩ := h.after he
    exact ⟨h1, hp.trans h2, hrest h3 he⟩
  · rw [heof]
    exact h.reads

/-- A `Read` that returns something other than the end, or the end once it has been seen. -/
theorem Seen.return (h : Seen s taken reads) {x : Nat × ReadDone}
    (hx : x.2.err = some .eof → s.eof = true) : Seen s taken (reads ++ [x]) := by
  refine ⟨h.before, h.after, fun y hy => ?_, h.fault⟩
  rcases List.mem_append.mp hy with hy | hy
  · exact h.reads y hy
  · rwa [List.mem_singleton.mp hy]

theorem translate_ne_eof (cause : Option Cause) (err : Option ChanErr) :
    translate cause err ≠ some .eof := by
  unfold translate
  split
  · simp
  · cases err with
    | none => simp
    | some e => cases e <;> simp

/-- Before a receive returns, and until its result is looked at, the end has not been seen. -/
theorem Seen.eof_false (h : Seen s taken reads) (hr : s.reader.resting = false) : s.eof = false := by
  cases he : s.eof with
  | false => rfl
  | true => exact absurd ((h.after he).2.2.symm.trans hr) (by decide)

/-- **Every step keeps what `Read` has seen of the end.** -/
theorem Seen.step (h : Seen s taken reads) (ht : Timeless s) (hr : ReadInv s)
    (hs : s.step limit a = some s') :
    Seen s' (taken ++ (s.takes a).toList) (reads ++ s.returnsRead a s') := by
  have hok := hr.reader
  -- a step that takes no message
  have hnone : ∀ {t : State} {l : List (Nat × ReadDone)}, Seen t taken l →
      Seen t (taken ++ (none : Option Msg).toList) l := by
    intro t l ht
    rwa [Option.toList_none, List.append_nil]
  -- a step of `Read` that does not return
  have hstay : ∀ {t : State}, Seen t taken reads → Seen t (taken ++ []) (reads ++ []) := by
    intro t ht
    rwa [List.append_nil, List.append_nil]
  cases State.step_rule hs with
  | read len hpc =>
    exact hstay (h.move rfl rfl (hpc ▸ rfl) (by simp [Reader.fault]) (fun _ _ => rfl))
  | @readPending len n hpc hp =>
    -- bytes come out of `pending`, so the end has not been seen
    have hkeep : Seen { s with
        pending := s.pending.drop len
        reader := .idle (some ⟨s.pending.take len, none, n⟩)
        returned := s.returned ++ s.pending.take len } taken reads := by
      refine ⟨fun he => ?_, fun he => absurd (h.after he).2.1 hp, h.reads, by simp [Reader.fault]⟩
      have hbefore := h.before he
      rwa [hpc] at hbefore
    exact hnone (hkeep.return (fun he => by cases he))
  | @readAtEnd len n hpc hp heof =>
    have hmove : Seen { s with reader := .idle (some ⟨[], some .eof, n⟩) } taken reads :=
      h.move rfl rfl (hpc ▸ rfl) (by simp [Reader.fault]) (fun _ _ => rfl)
    exact hnone (hmove.return (fun _ => heof))
  | readOn hpc hp heof =>
    exact hstay (h.move rfl rfl (hpc ▸ rfl) (by simp [Reader.fault])
      (fun _ he => absurd (heof.symm.trans he) (by decide)))
  | readExpired _ hb => exact absurd hb ht.read.begin_ne_none
  | readBegin hpc | recvErr hpc =>
    exact hstay (h.move rfl rfl (hpc ▸ rfl) (by simp [Reader.fault])
      (fun hrest => by rw [hpc] at hrest; cases hrest))
  | @readTranslate len n key m err hpc =>
    refine hstay (h.move rfl rfl ?_ (translate_ne_eof _ _)
      (fun hrest => by rw [hpc] at hrest; cases hrest))
    rw [hpc]
    cases err with
    | none =>
      rw [translate_none (ht.read.ctx key)]
      rfl
    | some e =>
      obtain ⟨e', he'⟩ := translate_some (s.readDeadline.ctx key) e
      rw [he']
      rfl
  | @readFailed len n key m e hpc =>
    have hfault := h.fault
    rw [hpc] at hfault
    have hmove : Seen { s with
        readDeadline := s.readDeadline.done key
        reader := .idle (some ⟨[], some e, n⟩) } taken reads :=
      h.move rfl rfl (hpc ▸ rfl) (by simp [Reader.fault]) (fun _ _ => rfl)
    exact hnone (hmove.return (fun he => absurd he hfault))
  | @readEnd len n key m hpc htyp =>
    obtain ⟨l, htaken, -⟩ := h.before (h.eof_false (hpc ▸ rfl))
    rw [hpc] at hok htaken
    refine hnone ⟨nofun, fun _ => ⟨?_, hok.2, rfl⟩, fun _ _ _ => rfl,
      by simp [Reader.fault]⟩
    exact ⟨m, by rw [htaken]; exact List.mem_append_right l (List.mem_singleton_self m), htyp⟩
  | @readData len n key m hpc htyp =>
    have hopen := h.eof_false (hpc ▸ rfl)
    obtain ⟨l, htaken, hl⟩ := h.before hopen
    rw [hpc] at htaken
    refine hstay ⟨fun _ => ⟨taken, (List.append_nil _).symm, ?_⟩,
      fun he => absurd (hopen.symm.trans he) (by decide), h.reads, by simp [Reader.fault]⟩
    rw [htaken, hasEnd_append]
    rintro (hend | ⟨x, hx, hxt⟩)
    · exact hl hend
    · rw [List.mem_singleton.mp hx] at hxt
      exact htyp hxt
  | @recvOk len n key m rest hpc hin =>
    have hopen := h.eof_false (hpc ▸ rfl)
    simp only [State.takes, State.returnsRead, hin, List.head?_cons, Option.toList_some,
      List.append_nil]
    refine ⟨fun he => ?_, fun he => absurd (hopen.symm.trans he) (by decide), h.reads,
      by simp [Reader.fault]⟩
    obtain ⟨l, htaken, hl⟩ := h.before he
    rw [hpc, show (Reader.recv len n key).holds = [] from rfl, List.append_nil] at htaken
    exact ⟨l, htaken ▸ rfl, hl⟩
  | _ => exact hstay (h.move rfl rfl rfl h.fault (fun hrest _ => hrest))

/-! ### The writing side -/

/-- A `Write` runs. -/
def Writer.writing : Writer → Bool
  | .loop j _ | .begin j _ | .send j _ _ | .translate j _ _ _ | .done j _ _ _ => j ≠ .eof
  | .idle _ => false

/-- `CloseWrite` has sent the end and has still to say so. -/
def Writer.ending : Writer → Bool
  | .translate .eof _ _ none | .done .eof _ _ none | .loop .eof _ => true
  | _ => false

/-- Once the end has been sent, no `Write` runs and none starts. -/
structure Ending (s : State) : Prop where
  last : EndLast s.outbound
  ended : HasEnd s.outbound → s.writer.writing = false ∧ (s.eofSent = true ∨ s.writer.ending = true)
  closer : s.closer ≠ .idle → s.eofSent = true

theorem Ending.start : Ending State.start where
  last before m after h := by cases before <;> cases h
  ended := fun ⟨_, hm, _⟩ => (List.not_mem_nil hm).elim
  closer h := absurd rfl h

theorem Ending.deliver (h : Ending s) (m : Option Msg) : Ending (s.deliver m) := by
  cases m <;> exact ⟨h.last, h.ended, h.closer⟩

/-- A step that sends nothing. -/
theorem Ending.move (h : Ending s) (hout : s'.outbound = s.outbound)
    (hclose : s'.closer = s.closer ∨ s'.eofSent = true) (hsent : s.eofSent = true → s'.eofSent = true)
    (hw : HasEnd s.outbound → s.writer.writing = false →
      s'.writer.writing = false ∧ (s.writer.ending = true → s'.eofSent = true ∨ s'.writer.ending = true)) :
    Ending s' := by
  refine ⟨by rw [hout]; exact h.last, ?_, ?_⟩
  · rw [hout]
    intro hend
    obtain ⟨h1, h2⟩ := h.ended hend
    obtain ⟨h3, h4⟩ := hw hend h1
    exact ⟨h3, h2.elim (fun hs => .inl (hsent hs)) h4⟩
  · intro hc
    rcases hclose with hclose | hclose
    · rw [hclose] at hc
      exact hsent (h.closer hc)
    · exact hclose

/-- **Every step keeps the end last**, when `Close` sends it while no `Write` runs. -/
theorem Ending.step (h : Ending s) (ht : Timeless s) (ha : a.untimed = true)
    (halone : ∀ b, a = .closeStep b → s.closer = .trySend → s.writer.writing = false)
    (hs : s.step limit a = some s') : Ending s' := by
  cases State.step_rule hs with
  | setRead | setWrite | fireRead | fireWrite => cases ha
  | writeRefused p hpc | closeWriteRefused hpc | closeWrite hpc =>
    exact h.move rfl (.inl rfl) id (fun _ _ => ⟨rfl, fun he => by rw [hpc] at he; cases he⟩)
  | write p hpc hopen =>
    refine h.move rfl (.inl rfl) id (fun hend _ => ?_)
    have hover := (h.ended hend).2
    rw [hpc, hopen] at hover
    exact hover.elim nofun nofun
  | writeOn hpc | writeAll hpc =>
    -- a `Write` runs, so the end has not been sent
    exact h.move rfl (.inl rfl) id (fun _ hw => by rw [hpc] at hw; cases hw)
  | writeEnd hpc =>
    exact h.move rfl (.inr rfl) (fun _ => rfl) (fun _ _ => ⟨rfl, fun _ => .inl rfl⟩)
  | writeExpired _ hb => exact absurd hb ht.write.begin_ne_none
  | writeBegin hpc | sendErr hpc =>
    refine h.move rfl (.inl rfl) id (fun _ hw => ?_)
    rw [hpc] at hw ⊢
    exact ⟨hw, nofun⟩
  | @writeTranslate j sent key err hpc =>
    refine h.move rfl (.inl rfl) id (fun _ hw => ?_)
    rw [hpc] at hw ⊢
    refine ⟨hw, fun he => .inr ?_⟩
    cases j with
    | data q written => cases he
    | eof =>
      cases err with
      | none =>
        show (Writer.done .eof sent key (translate _ none)).ending = true
        rw [translate_none (ht.write.ctx key)]
        rfl
      | some e => cases he
  | @writeFailed j sent key e hpc =>
    refine h.move rfl (.inl rfl) id (fun _ _ => ⟨rfl, fun he => ?_⟩)
    rw [hpc] at he
    cases j <;> cases he
  | @writeNext j sent key hpc =>
    refine h.move rfl (.inl rfl) id (fun _ hw => ?_)
    rw [hpc] at hw ⊢
    cases j with
    | data q written => cases hw
    | eof => exact ⟨rfl, fun _ => .inr rfl⟩
  | @sendOk j sent key hpc =>
    cases j with
    | data q written =>
      have hno : ¬ HasEnd s.outbound := by
        intro hend
        have hw := (h.ended hend).1
        rw [hpc] at hw
        cases hw
      refine ⟨h.last.append (.inr hno), fun hend => ?_, h.closer⟩
      rcases hasEnd_append.mp hend with hend | ⟨x, hx, htyp⟩
      · exact absurd hend hno
      · rw [List.mem_singleton.mp hx] at htyp
        exact absurd htyp typeStreamData_ne
    | eof => exact ⟨h.last.append (.inl rfl), fun _ => ⟨rfl, .inr rfl⟩, h.closer⟩
  | closeEnded hpc hsent => exact h.move rfl (.inr hsent) id (fun _ hq => ⟨hq, .inr⟩)
  | close => exact h.move rfl (.inr rfl) (fun _ => rfl) (fun _ hq => ⟨hq, .inr⟩)
  | closeSend b hpc =>
    have hsent := h.closer (by rw [hpc]; simp)
    cases b with
    | false => exact h.move rfl (.inr hsent) id (fun _ hq => ⟨hq, .inr⟩)
    | true =>
      exact ⟨h.last.append (.inl rfl), fun _ => ⟨halone true rfl hpc, .inl hsent⟩, fun _ => hsent⟩
  | closeCancel b hpc | closeChannel b hpc =>
    exact h.move rfl (.inr (h.closer (by rw [hpc]; simp))) id (fun _ hq => ⟨hq, .inr⟩)
  | _ => exact h.move rfl (.inl rfl) id (fun _ hq => ⟨hq, .inr⟩)

theorem Writer.bytes_of_not_writing {w : Writer} (h : w.writing = false) : w.bytes limit = [] := by
  cases w with
  | idle r => rfl
  | loop j sent | begin j sent | send j sent key =>
    cases j with
    | data q n => cases h
    | eof => rfl
  | translate j sent key err | done j sent key err =>
    cases j with
    | data q n => cases h
    | eof => cases err <;> rfl

/-! ### No data behind the end -/

/-- `Close` sends the end of the stream while no `Write` runs. -/
def alone (p : Pair) (x : Bool × Act) : Bool :=
  match x.2 with
  | .closeStep _ => (p.side x.1).closer ≠ .trySend ∨ (p.side x.1).writer.writing = false
  | _ => true

theorem alone_closeStep {x : Bool × Act} (h : alone p x = true) (b : Bool) (hx : x.2 = .closeStep b)
    (hc : (p.side x.1).closer = .trySend) : (p.side x.1).writer.writing = false := by
  simp only [alone, hx, decide_eq_true_eq] at h
  exact h.resolve_left (not_not.mpr hc)

/-- Both sides' accounts, with what each has seen of the end. -/
structure Pair.Watched (C : Capacity) (p : Pair) : Prop where
  inv : p.Inv C
  seen : ∀ i, Seen (p.side i) (p.taken i) (p.reads i)

theorem Pair.Watched.start : Pair.Watched C Pair.start := ⟨.start, fun _ => .start⟩

theorem Pair.Watched.step {x : Bool × Act} (h : p.Watched C) (ha : x.2.untimed = true)
    (hs : p.step C x = some p') : p'.Watched C := by
  refine ⟨h.inv.step ha hs, ?_⟩
  obtain ⟨k, a⟩ := x
  obtain ⟨s', -, hstep, rfl⟩ := Pair.of_step hs
  exact forall_after (P := fun s taken reads _ _ => Seen s taken reads)
    ((h.seen k).step (h.inv.timeless k) (h.inv.reading k) hstep) ((h.seen (!k)).deliver _)

/-- A peer that has seen the end has returned every byte that was counted as written. -/
theorem Pair.Watched.all_returned (h : p.Watched C) (hend : Ending (p.side i))
    (heof : (p.side (!i)).eof = true) :
    (p.side (!i)).returned = (p.writes i).flatMap WriteDone.counted := by
  obtain ⟨htaken, hpending, hrest⟩ := (h.seen (!i)).after heof
  have hlink := h.inv.linked i
  have hover := (hend.ended (by rw [hlink]; exact htaken.append_left _)).1
  have hring : bytesOf (p.side (!i)).inbound = [] := by
    have hlast := hend.last
    rw [hlink] at hlast
    exact hlast.bytes_right htaken
  have hheld : (p.side (!i)).reader.held = [] := by
    cases hr : (p.side (!i)).reader with
    | idle r => rfl
    | loop len n => rfl
    | _ =>
      rw [hr] at hrest
      cases hrest
  have haccount := h.inv.account i
  rwa [hpending, hheld, hring, Writer.bytes_of_not_writing hover, List.append_nil, List.append_nil,
    List.append_nil, List.append_nil] at haccount

/-- **No data follows the end of the stream** when `Close` sends it while no `Write` runs.  A peer
    that has read the end has then returned every byte that `Write` counted. -/
theorem end_is_last (h : (pair C).Reach (fun p x => x.2.untimed = true ∧ alone p x = true) p)
    (i : Bool) :
    EndLast (p.side i).outbound ∧
      ∀ x ∈ p.reads (!i), x.2.err = some .eof →
        (p.side (!i)).returned = (p.writes i).flatMap WriteDone.counted := by
  have hinv : p.Watched C ∧ ∀ i, Ending (p.side i) := by
    refine h.invariant (I := fun p => p.Watched C ∧ ∀ i, Ending (p.side i))
      ⟨.start, fun _ => .start⟩ ?_
    rintro p p' ⟨k, a⟩ ⟨hw, hend⟩ ⟨ha, halone⟩ hs
    refine ⟨hw.step ha hs, ?_⟩
    obtain ⟨s', -, hstep, rfl⟩ := Pair.of_step hs
    exact Pair.forall_after (P := fun s _ _ _ _ => Ending s)
      ((hend k).step (hw.inv.timeless k) ha (alone_closeStep halone) hstep) ((hend (!k)).deliver _)
  obtain ⟨hw, hend⟩ := hinv
  exact ⟨(hend i).last, fun x hx herr => hw.all_returned (hend i) ((hw.seen (!i)).reads x hx herr)⟩

/-- Side `false` writes one byte and closes, and side `true` reads the byte and the end. -/
def farewell : List (Bool × Act) :=
  [(false, .write [7]), (false, .writeStep), (false, .writeStep), (false, .sendOk),
    (false, .writeStep), (false, .writeStep), (false, .writeStep), (false, .close),
    (false, .closeStep true), (true, .read 4), (true, .readStep), (true, .readStep), (true, .recvOk),
    (true, .readStep), (true, .readStep), (true, .readStep), (false, .closeStep true),
    (false, .closeStep true), (true, .read 4), (true, .readStep), (true, .readStep), (true, .recvOk),
    (true, .readStep), (true, .readStep)]

theorem end_is_last_farewell :
    ∃ p, (pair .smallest).Reach (fun p x => x.2.untimed = true ∧ alone p x = true) p ∧
      (∃ x ∈ p.reads true, x.2.err = some .eof) ∧ (p.side true).returned = [7] ∧
      EndLast (p.side false).outbound ∧
      (p.side true).returned = (p.writes false).flatMap WriteDone.counted := by
  have hrun : ((pair .smallest).runOk (fun p x => x.2.untimed && alone p x) (pair .smallest).init
      farewell).map (fun p => (p.reads true, (p.side true).returned)) =
      some ([(4, ⟨[7], none, 1⟩), (4, ⟨[], some .eof, 1⟩)], [7]) := by
    decide +kernel
  obtain ⟨p, hp, hobs⟩ := Machine.Reach.exists_of_runOk (fun _ _ h => by simpa using h) hrun
  simp only [Prod.mk.injEq] at hobs
  obtain ⟨hreads, hret⟩ := hobs
  have hx : (4, ⟨[], some .eof, 1⟩) ∈ p.reads true := by rw [hreads]; simp
  obtain ⟨hlast, hall⟩ := end_is_last hp false
  exact ⟨p, hp, ⟨_, hx, rfl⟩, hret, hlast, hall _ hx rfl⟩

/-- Side `false` closes between the context and the send of its own `Write`. -/
def overtaken : List (Bool × Act) :=
  [(false, .write [7]), (false, .writeStep), (false, .writeStep), (false, .close),
    (false, .closeStep true), (false, .sendOk), (false, .writeStep), (false, .writeStep),
    (false, .writeStep), (true, .read 4), (true, .readStep), (true, .readStep), (true, .recvOk),
    (true, .readStep), (true, .readStep)]

/-- **A `Write` in progress goes on past the end.**  It reports its byte as written; the peer reads
    the end and never the byte. -/
theorem write_past_end : ∃ p, (pair .smallest).Reach (fun _ x => x.2.untimed = true) p ∧
    (p.side false).outbound = [⟨typeStreamEOF, []⟩, ⟨typeStreamData, [7]⟩] ∧
    p.writes false = [⟨.data [7] 1, none, [⟨typeStreamData, [7]⟩]⟩] ∧
    p.reads true = [(4, ⟨[], some .eof, 1⟩)] ∧ (p.side true).returned = [] := by
  have hrun : ((pair .smallest).runOk (fun _ x => x.2.untimed) (pair .smallest).init overtaken).map
      (fun p => decide ((p.side false).outbound = [⟨typeStreamEOF, []⟩, ⟨typeStreamData, [7]⟩] ∧
        p.writes false = [⟨.data [7] 1, none, [⟨typeStreamData, [7]⟩]⟩] ∧
        p.reads true = [(4, ⟨[], some .eof, 1⟩)] ∧ (p.side true).returned = [])) = some true := by
    decide +kernel
  obtain ⟨p, hp, hobs⟩ := Machine.Reach.exists_of_runOk (fun _ _ h => h) hrun
  exact ⟨p, hp, of_decide_eq_true hobs⟩

/-! ### The end reaches the peer -/

/-- A side that closes once its calls are over, and finds room for the end. -/
structure Closing (s : State) : Prop where
  sent : s.eofSent = true → HasEnd s.outbound ∨ s.closer = .trySend
  ending : s.writer.ending = true → HasEnd s.outbound
  still : s.closer ≠ .idle → s.writer.writing = false

theorem Closing.start : Closing State.start where
  sent h := by cases h
  ending h := by cases h
  still h := absurd rfl h

theorem Closing.deliver (h : Closing s) (m : Option Msg) : Closing (s.deliver m) := by
  cases m <;> exact ⟨h.sent, h.ending, h.still⟩

/-- A step of the writing side that does not close. -/
theorem Closing.move (h : Closing s) (hout : HasEnd s.outbound → HasEnd s'.outbound)
    (hclose : s'.closer = s.closer)
    (hsent : s'.eofSent = true → s.eofSent = true ∨ HasEnd s'.outbound)
    (hending : s'.writer.ending = true → s.writer.ending = true ∨ HasEnd s'.outbound)
    (hw : s.closer ≠ .idle → s.writer.writing = false → s'.writer.writing = false) : Closing s' := by
  refine ⟨fun he => ?_, fun he => ?_, fun hc => ?_⟩
  · rw [hclose]
    rcases hsent he with he | he
    · exact (h.sent he).imp_left hout
    · exact .inl he
  · rcases hending he with he | he
    · exact hout (h.ending he)
    · exact he
  · rw [hclose] at hc
    exact hw hc (h.still hc)

/-- **Every step keeps the end on its way**, when `Close` is called between calls and finds room. -/
theorem Closing.step (h : Closing s) (he : Ending s) (ha : a.untimed = true)
    (hidle : a = .close → s.writer.writing = false)
    (hroom : ∀ b, a = .closeStep b → s.closer = .trySend → b = true)
    (hs : s.step limit a = some s') : Closing s' := by
  cases State.step_rule hs with
  | setRead | setWrite | fireRead | fireWrite => cases ha
  | writeRefused | closeWriteRefused | closeWrite | writeExpired | writeFailed =>
    exact h.move id rfl .inl nofun (fun _ _ => rfl)
  | write p hpc hopen =>
    refine h.move id rfl .inl nofun (fun hc _ => ?_)
    exact absurd ((he.closer hc).symm.trans hopen) (by decide)
  | writeOn hpc | writeAll hpc =>
    exact h.move id rfl .inl nofun (fun _ hw => by rw [hpc] at hw; cases hw)
  | writeEnd hpc =>
    have hend := h.ending (hpc ▸ rfl)
    exact h.move id rfl (fun _ => .inr hend) nofun (fun _ _ => rfl)
  | writeBegin hpc =>
    exact h.move id rfl .inl nofun (fun _ hw => by rw [hpc] at hw; exact hw)
  | @writeTranslate j sent key err hpc =>
    refine h.move id rfl .inl (fun he => .inl ?_) (fun _ hw => by rw [hpc] at hw; exact hw)
    rw [hpc]
    cases j with
    | data q written => cases he
    | eof =>
      cases err with
      | none => rfl
      | some e =>
        obtain ⟨e', he'⟩ := translate_some (s.writeDeadline.ctx key) e
        simp only [he'] at he
        cases he
  | @writeNext j sent key hpc =>
    refine h.move id rfl .inl (fun he => .inl ?_) (fun _ hw => ?_)
    · rw [hpc]
      cases j with
      | data q written => cases he
      | eof => rfl
    · rw [hpc] at hw
      cases j with
      | data q written => cases hw
      | eof => rfl
  | @sendErr j sent key e hpc =>
    refine h.move id rfl .inl (fun he => ?_) (fun _ hw => by rw [hpc] at hw; exact hw)
    cases j <;> cases he
  | @sendOk j sent key hpc =>
    refine h.move (fun hend => hend.append_left _) rfl .inl (fun he => .inr ?_)
      (fun _ hw => by rw [hpc] at hw; exact hw)
    cases j with
    | data q written => cases he
    | eof => exact hasEnd_eof _
  | closeEnded hpc hsent =>
    -- `CloseWrite` has sent the end
    have hend := (h.sent hsent).resolve_right (by rw [hpc]; simp)
    exact ⟨fun _ => .inl hend, h.ending, fun _ => hidle rfl⟩
  | close => exact ⟨fun _ => .inr rfl, h.ending, fun _ => hidle rfl⟩
  | closeSend b hpc =>
    obtain rfl := hroom b rfl hpc
    exact ⟨fun _ => .inl (hasEnd_eof _), fun _ => hasEnd_eof _,
      fun _ => h.still (by rw [hpc]; simp)⟩
  | closeCancel b hpc | closeChannel b hpc =>
    refine ⟨fun hsent => .inl ?_, h.ending, fun _ => h.still (by rw [hpc]; simp)⟩
    exact (h.sent hsent).resolve_right (by rw [hpc]; simp)
  | _ => exact h.move id rfl .inl .inl (fun _ => id)

/-- Once the channel is closed, the end is in it. -/
theorem Closing.hasEnd (h : Closing s) (he : Ending s) (hc : s.closer = .done) :
    HasEnd s.outbound :=
  (h.sent (he.closer (by rw [hc]; simp))).resolve_right (by rw [hc]; simp)

/-- A side that keeps reading: it does not close, and no `Read` meets an error. -/
structure Awake (s : State) (reads : List (Nat × ReadDone)) : Prop where
  closer : s.closer = .idle
  base : s.base = false
  live : ∀ len n key, s.reader = .recv len n key → s.readDeadline.ctx key = none
  clean : s.reader.fault = none ∧ ∀ len n key m e, s.reader ≠ .translate len n key m (some e)
  reads : ∀ x ∈ reads, x.2.err = none ∨ x.2.err = some .eof

theorem Awake.start : Awake State.start [] where
  closer := rfl
  base := rfl
  live _ _ _ h := by cases h
  clean := ⟨rfl, nofun⟩
  reads _ hx := (List.not_mem_nil hx).elim

theorem Awake.deliver (h : Awake s reads) (m : Option Msg) : Awake (s.deliver m) reads := by
  cases m <;> exact ⟨h.closer, h.base, h.live, h.clean, h.reads⟩

/-- A step that leaves the reading side alone. -/
theorem Awake.same (h : Awake s reads) (hclose : s'.closer = s.closer) (hbase : s'.base = s.base)
    (hd : s'.readDeadline = s.readDeadline) (hr : s'.reader = s.reader) : Awake s' reads := by
  refine ⟨hclose.trans h.closer, hbase.trans h.base, ?_, ?_, h.reads⟩
  · rw [hr, hd]
    exact h.live
  · rw [hr]
    exact h.clean

/-- Between calls, and at the top of the loop, there is nothing to say about the reader. -/
theorem Awake.resting (h : Awake s reads) (hclose : s'.closer = s.closer) (hbase : s'.base = s.base)
    (hrest : s'.reader.resting = true) : Awake s' reads := by
  refine ⟨hclose.trans h.closer, hbase.trans h.base, ?_, ?_, h.reads⟩
  · intro len n key hr
    rw [hr] at hrest
    cases hrest
  · cases hr : s'.reader with
    | idle r => exact ⟨rfl, nofun⟩
    | loop len n => exact ⟨rfl, nofun⟩
    | _ =>
      rw [hr] at hrest
      cases hrest

/-- A `Read` returned. -/
theorem Awake.return (h : Awake s reads) {x : Nat × ReadDone}
    (hx : x.2.err = none ∨ x.2.err = some .eof) : Awake s (reads ++ [x]) := by
  refine ⟨h.closer, h.base, h.live, h.clean, fun y hy => ?_⟩
  rcases List.mem_append.mp hy with hy | hy
  · exact h.reads y hy
  · rwa [List.mem_singleton.mp hy]

/-- **Every step keeps a reading side awake** that does not close and whose receives do not fail. -/
theorem Awake.step (h : Awake s reads) (ht : Timeless s) (ha : a.untimed = true)
    (hclose : a ≠ .close) (hrecv : ∀ e, a ≠ .recvErr e) (hs : s.step limit a = some s') :
    Awake s' (reads ++ s.returnsRead a s') := by
  have hclean := h.clean
  have hstay : ∀ {t : State}, Awake t reads → Awake t (reads ++ []) := by
    intro t ht
    rwa [List.append_nil]
  cases State.step_rule hs with
  | setRead | setWrite | fireRead | fireWrite => cases ha
  | closeEnded | close => exact absurd rfl hclose
  | recvErr => exact absurd rfl (hrecv _)
  | closeSend b hpc | closeCancel b hpc | closeChannel b hpc =>
    exact absurd (h.closer.symm.trans hpc) (by decide)
  | readPending =>
    refine Awake.return ?_ ?_
    · exact h.resting rfl rfl rfl
    · exact .inl rfl
  | readAtEnd | readEnd =>
    refine Awake.return ?_ ?_
    · exact h.resting rfl rfl rfl
    · exact .inr rfl
  | read | readData => exact hstay (h.resting rfl rfl rfl)
  | readOn | recvOk =>
    exact hstay ⟨h.closer, h.base, by simp,
      ⟨rfl, by simp⟩, h.reads⟩
  | readExpired _ hb => exact absurd hb ht.read.begin_ne_none
  | readBegin hpc hb =>
    refine hstay ⟨h.closer, h.base, ?_, ⟨rfl, by simp⟩, h.reads⟩
    intro len' n' key' hr
    cases hr
    simp only [Deadline.begin, ht.read.expired, h.base, Bool.false_eq_true, if_false,
      Option.some.injEq, Prod.mk.injEq] at hb
    obtain ⟨rfl, rfl⟩ := hb
    simp
  -- no deadline and no failing receive: there is nothing to translate
  | @readTranslate len n key m err hpc =>
    obtain rfl : err = none := by
      cases err with
      | none => rfl
      | some e => exact absurd hpc (hclean.2 len n key m e)
    exact hstay ⟨h.closer, h.base, by simp,
      ⟨translate_none (ht.read.ctx key), by simp⟩, h.reads⟩
  | readFailed hpc =>
    rw [hpc] at hclean
    cases hclean.1
  | _ => exact hstay (h.same rfl rfl rfl rfl)

/-- Side `i` calls `Close` once its writes have returned; the other side does not call it. -/
def orderly (i : Bool) (p : Pair) (x : Bool × Act) : Bool :=
  match x.2 with
  | .close => x.1 = i ∧ (p.side i).writer.writing = false
  | _ => true

/-- `Close` of side `i` finds room for the end of the stream. -/
def roomy (C : Capacity) (i : Bool) (p : Pair) (x : Bool × Act) : Bool :=
  match x.2 with
  | .closeStep _ => x.1 ≠ i ∨ (p.side i).closer ≠ .trySend ∨
      p.fits C i (Job.msg (maxMessageSize C) .eof) = true
  | _ => true

/-- The system while side `i` closes in order. -/
structure Pair.Parting (C : Capacity) (i : Bool) (p : Pair) : Prop where
  watched : p.Watched C
  ending : Ending (p.side i)
  closing : Closing (p.side i)
  awake : Awake (p.side (!i)) (p.reads (!i))

/-- While the reader of the peer waits in a receive, the end has not been taken out of the ring. -/
theorem Pair.Parting.inbound_ne (h : p.Parting C i) (hc : (p.side i).closer = .done)
    {len n key : Nat} (hr : (p.side (!i)).reader = .recv len n key) : (p.side (!i)).inbound ≠ [] := by
  have hseen := h.watched.seen (!i)
  have hopen : (p.side (!i)).eof = false := hseen.eof_false (hr ▸ rfl)
  obtain ⟨l, htaken, hl⟩ := hseen.before hopen
  rw [hr, show (Reader.recv len n key).holds = [] from rfl, List.append_nil] at htaken
  have hend := h.closing.hasEnd h.ending hc
  rw [h.watched.inv.linked i, htaken] at hend
  intro hnil
  rw [hnil, List.append_nil] at hend
  exact hl hend

/-- The receives of the peer do not fail. -/
theorem Pair.Parting.no_recvErr (h : p.Parting C i) {e : ChanErr}
    (hal : p.allows C (!i) (.recvErr e) = true) :
    (p.side (!i)).step (maxMessageSize C) (.recvErr e) = none := by
  simp only [State.step]
  split
  · next len n key hr =>
    cases e with
    | canceled => rw [if_neg (by simp [State.mayFail, h.awake.live len n key hr])]
    | closed => simp [Pair.allows, Pair.closed, h.awake.closer] at hal
    | peerGone =>
      simp only [Pair.allows, Pair.peerGone, Bool.not_not, Bool.and_eq_true, decide_eq_true_eq,
        List.isEmpty_iff] at hal
      exact absurd hal.2 (h.inbound_ne hal.1 hr)
    | corrupt | tooManyClaims => cases hal
  · rfl

theorem Pair.Parting.start : Pair.Parting C i Pair.start := ⟨.start, .start, .start, .start⟩

theorem Pair.Parting.step {x : Bool × Act} (h : p.Parting C i) (ha : x.2.untimed = true)
    (ho : orderly i p x = true) (hroom : roomy C i p x = true) (hs : p.step C x = some p') :
    p'.Parting C i := by
  have hw := h.watched.step ha hs
  obtain ⟨k, a⟩ := x
  obtain ⟨s', hal, hstep, rfl⟩ := Pair.of_step hs
  by_cases hk : k = i
  · -- the side that closes
    subst hk
    refine ⟨hw, ?_, ?_, ?_⟩ <;> simp only [after_self, after_other]
    · exact h.ending.step (h.watched.inv.timeless k) ha
        (fun b hb hc => h.closing.still (by rw [hc]; simp)) hstep
    · refine h.closing.step h.ending ha (fun hb => ?_) (fun b hb hc => ?_) hstep
      · subst hb
        simp only [orderly, decide_eq_true_eq] at ho
        exact ho.2
      · -- there is room, and the peer has not closed
        subst hb
        simp only [roomy, decide_eq_true_eq, ne_eq, not_true_eq_false, false_or, hc] at hroom
        simp only [Pair.allows, hc, ne_eq, not_true_eq_false, false_or, decide_eq_true_eq, hroom,
          Pair.peerGone, h.awake.closer, Bool.true_and] at hal
        simpa using hal
    · exact h.awake.deliver _
  · obtain rfl : i = !k := Bool.eq_not.mpr (Ne.symm hk)
    have hawake := h.awake
    have hpeer := fun e => h.no_recvErr (e := e)
    rw [Bool.not_not] at hawake hpeer
    refine ⟨hw, ?_, ?_, ?_⟩ <;> simp only [Bool.not_not, after_self, after_other]
    · exact h.ending.deliver _
    · exact h.closing.deliver _
    · refine hawake.step (h.watched.inv.timeless k) ha ?_ ?_ hstep
      · rintro rfl
        simp [orderly] at ho
      · rintro e rfl
        rw [hpeer e hal] at hstep
        cases hstep

theorem Pair.step_isSome (hal : p.allows C i a = true)
    (hs : ((p.side i).step (maxMessageSize C) a).isSome = true) :
    (p.step C (i, a)).isSome = true := by
  simp only [Pair.step, hal, if_true, Option.isSome_map, hs]

/-- A running `Read` of the peer can go on. -/
theorem Pair.Parting.progress (h : p.Parting C i) (hc : (p.side i).closer = .done)
    (hr : ∀ r, (p.side (!i)).reader ≠ .idle r) :
    (p.step C (!i, .readStep)).isSome = true ∨ (p.step C (!i, .recvOk)).isSome = true := by
  have hread : (p.side (!i)).readStep ≠ none → (p.step C (!i, .readStep)).isSome = true :=
    fun hne => Pair.step_isSome rfl (Option.isSome_iff_ne_none.mpr hne)
  cases hpc : (p.side (!i)).reader with
  | idle r => exact absurd hpc (hr r)
  -- the end of the stream is behind the data, so a receive always finds something
  | recv len n key =>
    right
    obtain ⟨m, rest, hin⟩ := List.exists_cons_of_ne_nil (h.inbound_ne hc hpc)
    exact Pair.step_isSome rfl (by simp [State.step, hpc, hin])
  | loop len n =>
    refine .inl (hread ?_)
    unfold State.readStep
    rw [hpc]
    dsimp only
    split
    · simp
    · split <;> simp
  | begin len n =>
    refine .inl (hread ?_)
    unfold State.readStep
    rw [hpc]
    dsimp only
    split <;> simp
  | translate len n key m err =>
    refine .inl (hread ?_)
    unfold State.readStep
    rw [hpc]
    simp
  | done len n key m err =>
    refine .inl (hread ?_)
    unfold State.readStep
    rw [hpc]
    cases err with
    | some e => simp
    | none =>
      dsimp only
      split <;> simp

theorem WriteDone.flatMap_counted {writes : List WriteDone}
    (h : ∀ r ∈ writes, r.counted = r.slice.getD []) :
    writes.flatMap WriteDone.counted = (writes.filterMap WriteDone.slice).flatten := by
  induction writes with
  | nil => rfl
  | cons r rs ih =>
    rw [List.flatMap_cons, h r List.mem_cons_self, ih fun x hx => h x (List.mem_cons_of_mem r hx)]
    cases hr : r.slice <;> simp [hr]

/-- The calls that succeeded on a side where no `Write` runs have written all their slices. -/
theorem Pair.Inv.counted_eq_calls (h : p.Inv C) (hidle : (p.side i).writer.writing = false)
    (hok : ∀ r ∈ p.writes i, r.err = none) :
    (p.writes i).flatMap WriteDone.counted = (p.calls i).flatten := by
  have hslice : (p.side i).writer.slice = none := by
    cases hw : (p.side i).writer with
    | idle r => rfl
    | loop j _ | begin j _ | send j _ _ | translate j _ _ _ | done j _ _ _ =>
      rw [hw] at hidle
      cases j with
      | data q n => cases hidle
      | eof => rfl
  have hcalled := h.called i
  rw [Called, hslice, Option.toList_none, List.append_nil] at hcalled
  rw [hcalled]
  have hwhole := (h.sending i).whole
  -- a call that succeeded counts the bytes of its slice
  have hone : ∀ r ∈ p.writes i, r.counted = r.slice.getD [] := by
    intro r hr
    cases hj : r.job with
    | data q n => simp [WriteDone.counted, WriteDone.slice, Job.slice, hj, hwhole r hr (hok r hr) q n hj]
    | eof => simp [WriteDone.counted, WriteDone.slice, Job.slice, hj]
  exact WriteDone.flatMap_counted hone

/-- **A closed connection ends in EOF** when `Close` finds room for the end.  Side `i` closes after
    its writes have returned.  Every `Read` of the peer returns bytes or EOF; the bytes are those of
    the writes, in order; EOF comes once all of them have been returned; and no `Read` of the peer
    waits for something that does not come.  The slices the calls of `Write` were given are those
    of the finished calls and the running one, a call that succeeds counts its whole slice, and if
    all have succeeded, the peer that is told the end has returned exactly these slices. -/
theorem close_ends_stream (h : (pair C).Reach (fun p x => x.2.untimed = true ∧
      orderly i p x = true ∧ roomy C i p x = true) p) :
    (∀ x ∈ p.reads (!i), x.2.err = none ∨ x.2.err = some .eof) ∧
    (p.side (!i)).returned ++ (p.side (!i)).pending ++ (p.side (!i)).reader.held ++
        bytesOf (p.side (!i)).inbound =
      (p.writes i).flatMap WriteDone.counted ++ (p.side i).writer.bytes (maxMessageSize C) ∧
    p.calls i = (p.writes i).filterMap WriteDone.slice ++ (p.side i).writer.slice.toList ∧
    (∀ r ∈ p.writes i, r.err = none → ∀ q n, r.job = .data q n → n = q.length) ∧
    (∀ x ∈ p.reads (!i), x.2.err = some .eof →
      (p.side (!i)).returned = (p.writes i).flatMap WriteDone.counted ∧
      ((∀ r ∈ p.writes i, r.err = none) → (p.side (!i)).returned = (p.calls i).flatten)) ∧
    ((p.side i).closer = .done → (∀ r, (p.side (!i)).reader ≠ .idle r) →
      (p.step C (!i, .readStep)).isSome = true ∨ (p.step C (!i, .recvOk)).isSome = true) := by
  have hinv : p.Parting C i := h.invariant .start
    fun _ _ _ hp hok hs => hp.step hok.1 hok.2.1 hok.2.2 hs
  have hseen := hinv.watched.seen (!i)
  refine ⟨hinv.awake.reads, hinv.watched.inv.account i, hinv.watched.inv.called i,
    (hinv.watched.inv.sending i).whole, ?_, hinv.progress⟩
  intro x hx herr
  have heof := hseen.reads x hx herr
  have hall := hinv.watched.all_returned hinv.ending heof
  refine ⟨hall, fun hok => hall.trans ?_⟩
  refine hinv.watched.inv.counted_eq_calls (hinv.ending.ended ?_).1 hok
  rw [hinv.watched.inv.linked i]
  exact (hseen.after heof).1.append_left _

theorem close_ends_stream_farewell :
    ∃ p, (pair .smallest).Reach (fun p x => x.2.untimed = true ∧ orderly false p x = true ∧
        roomy .smallest false p x = true) p ∧
      (p.side false).closer = .done ∧ (∃ x ∈ p.reads true, x.2.err = some .eof) ∧
      p.calls false = [[7]] ∧ (∀ x ∈ p.reads true, x.2.err = none ∨ x.2.err = some .eof) ∧
      (p.side true).returned = (p.calls false).flatten := by
  have hrun : ((pair .smallest).runOk (fun p x => x.2.untimed && (orderly false p x &&
      roomy .smallest false p x)) (pair .smallest).init farewell).map (fun p =>
        decide ((p.side false).closer = .done ∧ (4, ⟨[], some .eof, 1⟩) ∈ p.reads true ∧
          p.calls false = [[7]] ∧ ∀ r ∈ p.writes false, r.err = none)) = some true := by
    decide +kernel
  obtain ⟨p, hp, hobs⟩ := Machine.Reach.exists_of_runOk (fun _ _ h => by simpa using h) hrun
  obtain ⟨hc, hx, hcalls, hok⟩ := of_decide_eq_true hobs
  obtain ⟨hreads, -, -, -, hall, -⟩ := close_ends_stream hp
  exact ⟨p, hp, hc, ⟨_, hx, rfl⟩, hcalls, hreads, (hall _ hx rfl).2 hok⟩

/-- Side `true` reads one message. -/
def readOne : List (Bool × Act) :=
  [(true, .read 4096), (true, .readStep), (true, .readStep), (true, .recvOk), (true, .readStep),
    (true, .readStep), (true, .readStep)]

/-- Two messages fill the ring, `Close` finds no room, and the peer reads on. -/
def brimful : List (Bool × Act) :=
  [(false, Act.write (List.replicate 4080 0)), (false, .writeStep), (false, .writeStep),
    (false, .sendOk), (false, .writeStep), (false, .writeStep), (false, .writeStep),
    (false, .writeStep), (false, .sendOk), (false, .writeStep), (false, .writeStep),
    (false, .writeStep), (false, .close), (false, .closeStep false), (false, .closeStep false),
    (false, .closeStep false)] ++ readOne ++ readOne ++
  [(true, Act.read 4096), (true, .readStep), (true, .readStep), (true, .recvErr .peerGone),
    (true, .readStep), (true, .readStep)]

/-- **A full ring loses the end.**  The write succeeded and the peer has read all of it; its next
    `Read` reports `ErrPeerGone` instead of EOF. -/
theorem close_full : ∃ p, (pair .smallest).Reach (fun p x => x.2.untimed = true ∧
      orderly false p x = true) p ∧
    (∀ r ∈ p.writes false, r.err = none) ∧ (p.side false).closer = .done ∧
    ∃ x ∈ p.reads true, x.2.err = some (.chan .peerGone) := by
  have hrun : ((pair .smallest).runOk (fun p x => x.2.untimed && orderly false p x)
      (pair .smallest).init brimful).map (fun p => decide ((∀ r ∈ p.writes false, r.err = none) ∧
        (p.side false).closer = .done ∧
        ∃ x ∈ p.reads true, x.2.err = some (.chan .peerGone))) = some true := by
    decide +kernel
  obtain ⟨p, hp, hobs⟩ := Machine.Reach.exists_of_runOk (fun _ _ h => by simpa using h) hrun
  exact ⟨p, hp, of_decide_eq_true hobs⟩

end GoIpc.Conn
