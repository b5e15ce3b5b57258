import GoIpc.Ring.Machine

namespace GoIpc.Ring

/-!
# The steps of the ring as rules

`Producer.step` and `Reader.step` as relations, with one rule for each branch of the code.
-/

variable (C : Capacity) (t : Nat) (s : Shared)

/-- The steps of a producer: the memory and the place it leaves behind. -/
inductive Producer.Step : Producer → ProdAct → Shared → Producer → Prop
  | tryClaim {last slot typ length} : Step (.idle last) (.tryClaim slot typ length) s
      (start C slot typ length none)
  | tryWrite {last slot typ payload} : Step (.idle last) (.tryWrite slot typ payload) s
      (start C slot typ payload.length (some payload))
  | loadTail {q} : Step (.loadTail q) .step s (.loadCache q s.tail)
  | cached {q tail} (room : hasRoom tail s.headCache C.size (q.need C tail) = true) :
      Step (.loadCache q tail) .step s (intent q tail)
  | loadCache {q tail} : Step (.loadCache q tail) .step s (.loadHead q tail)
  /-- other producers moved tail and the reader followed -/
  | overtaken {q tail} (head : s.head > tail) : Step (.loadHead q tail) .step s (.loadTail q)
  | room {q tail} (head : ¬ s.head > tail)
      (room : hasRoom tail s.head C.size (q.need C tail) = true) :
      Step (.loadHead q tail) .step s (.storeCache q tail s.head)
  | full {q tail} (head : ¬ s.head > tail)
      (full : ¬ hasRoom tail s.head C.size (q.need C tail) = true) :
      Step (.loadHead q tail) .step s (.giveUp q)
  | storeCache {q tail head} : Step (.storeCache q tail head) .step { s with headCache := head }
      (intent q tail)
  | giveUp {q} : Step (.giveUp q) .step (s.release q.slot) (.idle (some .full))
  | storeSize {q tail i} (slot : q.slot = some i) : Step (.storeSize q tail) .step
      (s.storeSize i (q.need C tail)) (.storeAt q tail)
  | noSize {q tail} (slot : q.slot = none) : Step (.storeSize q tail) .step s (.storeAt q tail)
  | storeAt {q tail i} (slot : q.slot = some i) : Step (.storeAt q tail) .step (s.storeAt i tail)
      (.casTail q tail)
  | noAt {q tail} (slot : q.slot = none) : Step (.storeAt q tail) .step s (.casTail q tail)
  /-- the claim is made, behind padding to the end of the ring -/
  | claimPad {q} (pad : q.need C s.tail ≠ q.aligned) : Step (.casTail q s.tail) .step
      { s with tail := s.tail + q.need C s.tail, log := s.log ++ [q.entry C s.tail t] }
      (.padType q s.tail)
  | claim {q} (fits : q.need C s.tail = q.aligned) : Step (.casTail q s.tail) .step
      { s with tail := s.tail + q.need C s.tail, log := s.log ++ [q.entry C s.tail t] }
      (.recType q ⟨s.tail, s.tail % C.size, q.recordLen, q.slot⟩)
  | lost {q tail} (moved : s.tail ≠ tail) : Step (.casTail q tail) .step s (.loadTail q)
  | padType {q tail} : Step (.padType q tail) .step (s.storeType (tail % C.size) typePadding)
      (.padLen q tail)
  | padLen {q tail} : Step (.padLen q tail) .step (s.storeLength (tail % C.size) (toEnd C tail))
      (.recType q ⟨tail, 0, q.recordLen, q.slot⟩)
  | recType {q c} : Step (.recType q c) .step (s.storeType c.index q.typ) (.recLen q c)
  | recLenWrite {q c p} (payload : q.payload = some p) : Step (.recLen q c) .step
      (s.storeLength c.index (-c.total)) (.copy c 0 p)
  | recLenClaim {q c} (payload : q.payload = none) : Step (.recLen q c) .step
      (s.storeLength c.index (-c.total)) (.held c)
  | copy {c off b rest} : Step (.copy c off (b :: rest)) .step
      ((s.storeByte (c.index + recordHeaderSize + off) b).note c.cursor
        (fun e => { e with payload := e.payload.set off b })) (.copy c (off + 1) rest)
  | written {c off} : Step (.copy c off []) .step
      ((s.storeLength c.index c.total).mark c.cursor .committed) (.release c)
  | put {c off b} (fits : recordHeaderSize + off < c.total) : Step (.held c) (.put off b)
      ((s.storeByte (c.index + recordHeaderSize + off) b).note c.cursor
        (fun e => { e with payload := e.payload.set off b })) (.held c)
  | commit {c} : Step (.held c) .commit
      ((s.storeLength c.index c.total).mark c.cursor .committed) (.release c)
  | abort {c} : Step (.held c) .abort (s.storeType c.index typePadding) (.abortLen c)
  | abortLen {c} : Step (.abortLen c) .step
      ((s.storeLength c.index c.total).mark c.cursor .aborted) (.release c)
  | release {c} : Step (.release c) .step (s.release c.slot) (.idle none)

/-- The steps of `Read`. -/
inductive Reader.Step : Reader → ReadAct → Shared → Reader → Prop
  | readNone {last limit} (none : limit ≤ 0) :
      Step (.idle last) (.read limit) s (.idle (some (0, .none)))
  | read {last limit} (some : 0 < limit) : Step (.idle last) (.read limit) s (.loadHead limit)
  | loadHead {limit} : Step (.loadHead limit) .step s (.loadTail limit s.head)
  | loadTail {limit head} : Step (.loadTail limit head) .step s
      (Loop.next ⟨limit, head, s.tail - head, 0, 0⟩)
  /-- a record that is not complete -/
  | unfinished {r} (length : s.loadLength (r.cursor % C.size) ≤ 0) :
      Step (.loadLen r) .step s r.finish
  | corrupt {r} (length : ¬ s.loadLength (r.cursor % C.size) ≤ 0) :
      Step (.loadLen r) .step s (.idle (some (r.count, some .corrupt)))
  | loadLen {r} (length : ¬ s.loadLength (r.cursor % C.size) ≤ 0) : Step (.loadLen r) .step s
      (.loadType r (s.loadLength (r.cursor % C.size)).toNat)
  | loadType {r len} : Step (.loadType r len) .step s (.pass r len (s.loadType (r.cursor % C.size)))
  | padding {r len} : Step (.pass r len typePadding) .step s (.clear r len)
  | deliver {r len typ} (message : typ ≠ typePadding) : Step (.pass r len typ) .step
      { s with delivered := s.delivered ++ [(typ, Lib.slice s.data
        (r.cursor % C.size + recordHeaderSize) (len - recordHeaderSize))] }
      (.clear { r with count := r.count + 1 } len)
  | clear {r len} : Step (.clear r len) .step { s with
      data := Lib.clear s.data (r.cursor % C.size + 4) (r.cursor % C.size + align len) }
      (.storeLen r len)
  | storeLen {r len} : Step (.storeLen r len) .step (s.storeLength (r.cursor % C.size) 0)
      (Loop.next { r with consumed := r.consumed + align len })
  | storeHead {r} : Step (.storeHead r) .step { s with head := r.cursor }
      (.idle (some (r.count, none)))

variable {C t s}

/-- Every step of a producer is by one of the rules. -/
theorem Producer.step_rule {p p' : Producer} {a : ProdAct} {s' : Shared}
    (h : p.step C t s a = some (s', p')) : Producer.Step C t s p a s' p' := by
  cases p <;> cases a <;> simp only [Producer.step] at h <;>
    first | (cases h; done) | (cases h; constructor) | skip
  case loadCache.step =>
    split at h <;> cases h
    · exact .cached ‹_›
    · exact .loadCache
  case loadHead.step =>
    split at h
    · cases h
      exact .overtaken ‹_›
    · split at h <;> cases h
      · exact .room ‹_› ‹_›
      · exact .full ‹_› ‹_›
  case storeSize.step q tail =>
    cases hslot : q.slot <;> rw [hslot] at h <;> cases h
    · exact .noSize hslot
    · exact .storeSize hslot
  case storeAt.step q tail =>
    cases hslot : q.slot <;> rw [hslot] at h <;> cases h
    · exact .noAt hslot
    · exact .storeAt hslot
  case casTail.step q tail =>
    split at h
    · next htail =>
      subst htail
      split at h <;> cases h
      · exact .claimPad ‹_›
      · exact .claim (not_not.mp ‹_›)
    · cases h
      exact .lost ‹_›
  case recLen.step q c =>
    cases hp : q.payload <;> rw [hp] at h <;> cases h
    · exact .recLenClaim hp
    · exact .recLenWrite hp
  case copy.step c off rest => cases rest <;> cases h <;> constructor
  case held.put =>
    split at h <;> cases h
    exact .put ‹_›

/-- Every step of `Read` is by one of the rules. -/
theorem Reader.step_rule {q q' : Reader} {a : ReadAct} {s' : Shared}
    (h : q.step C s a = some (s', q')) : Reader.Step C s q a s' q' := by
  cases q <;> cases a <;> simp only [Reader.step] at h <;>
    first | (cases h; done) | (cases h; constructor) | skip
  case idle.read =>
    split at h <;> cases h
    · exact .readNone ‹_›
    · exact .read (not_le.mp ‹_›)
  case loadLen.step =>
    split at h
    · cases h
      exact .unfinished ‹_›
    · split at h <;> cases h
      · exact .corrupt ‹_›
      · exact .loadLen ‹_›
  case pass.step =>
    split at h <;> cases h
    · subst ‹_ = typePadding›
      exact .padding
    · exact .deliver ‹_›

end GoIpc.Ring
