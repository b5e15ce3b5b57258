import GoIpc.Lib.Tiling
import GoIpc.Ring.Machine

namespace GoIpc.Ring

open GoIpc.Lib

/-!
# The ring invariant

The global invariant behind exactly-once delivery.  It is stated on the *tape* of the ring, the
data region read as one cell per cursor (`Lib/Tape.lean`), where no cell is ever used twice:

* `Shared.Ok` — the claims tile `[0, tail)`, the window `[head, tail)` is at most one lap, every
  cell from `tail` on is zero, each claim at or above the reader's position `pos` holds the header
  its state calls for, every claim below `pos` is finished, and what was delivered is exactly the
  committed part of those;
* `Producer.Local` — what a producer knows at each program counter: room it has checked, and the
  cells of the claim it holds;
* `Reader.Local` — what the reader knows: the cells it has cleared, and the header it has read.

`mend` is the one exception: the cursor at which the receiver has already stored a length over a
dead claim and not yet the padding type.  `Lost` marks a producer whose claim the receiver took
over in that way; such a producer takes no more steps.
-/

/-! ### The tape -/

/-- The data region read as one cell per cursor. -/
def Shared.tape (C : Capacity) (s : Shared) : Mem := unwrap 0 C.size s.head s.data

/-- The length field of the header at a cursor. -/
def lenAt (T : Mem) (c : Nat) : Int := signed (load32 T c)

/-- The type field of the header at a cursor. -/
def typeAt (T : Mem) (c : Nat) : Word := load32 T (c + 4)

/-- Every cell of `[a, b)` is zero. -/
def Blank (T : Mem) (a b : Nat) : Prop := ∀ c, a ≤ c → c < b → T c = 0

theorem lenAt_congr {T T' : Mem} {c : Nat} (h : ∀ k, k < 4 → T' (c + k) = T (c + k)) :
    lenAt T' c = lenAt T c := by
  unfold lenAt
  rw [load32_congr h]

theorem typeAt_congr {T T' : Mem} {c : Nat} (h : ∀ k, k < 8 → T' (c + k) = T (c + k)) :
    typeAt T' c = typeAt T c := by
  unfold typeAt
  apply load32_congr
  intro k hk
  have := h (4 + k) (by omega)
  rwa [← Nat.add_assoc] at this

theorem Blank.lenAt {T : Mem} {a b : Nat} (h : Blank T a b) (hab : a + 4 ≤ b) :
    lenAt T a = 0 := by
  unfold Ring.lenAt
  rw [load32_zero T (fun k hk => h _ (by omega) (by omega))]
  exact signed_zero

/-! ### Claims -/

/-- What every claim in the history satisfies. -/
structure Entry.Wf (C : Capacity) (e : Entry) : Prop where
  cursor_mod : e.cursor % 8 = 0
  pad_eq : e.pad = padOf C e.cursor (align e.total)
  total_min : 8 ≤ e.total
  total_max : align e.total ≤ C.size / 2
  payload_len : e.payload.length + 8 = e.total
  typ_ne : e.typ ≠ typePadding

variable {e : Entry}

/-- The arithmetic of a claim, in the form `omega` uses. -/
theorem Entry.Wf.arith {C : Capacity} (h : e.Wf C) :
    e.record = e.cursor + e.pad ∧ e.stop = e.record + align e.total ∧ e.total ≤ align e.total ∧
      e.pad % 8 = 0 ∧ e.record % 8 = 0 ∧ align e.total % 8 = 0 ∧ e.pad < align e.total ∧
      8 ≤ e.total := by
  have h0 := h.total_min
  have h1 := h.cursor_mod
  have h2 := padOf_mod_eight C (align e.total) h1
  have h3 : padOf C e.cursor (align e.total) < align e.total := by
    apply padOf_lt
    have := le_align e.total
    omega
  have h4 := align_mod e.total
  have h5 := le_align e.total
  rw [← h.pad_eq] at h2 h3
  unfold Entry.record Entry.stop Entry.size
  omega

/-- The record of a claim does not cross the end of the data region. -/
theorem Entry.Wf.record_fits {C : Capacity} (h : e.Wf C) : e.record % C.size + align e.total ≤ C.size := by
  have := h.total_max
  unfold Entry.record
  rw [h.pad_eq]
  exact Ring.record_fits C (by omega)

/-- Neither does its padding. -/
theorem Entry.Wf.pad_fits {C : Capacity} (h : e.Wf C) : e.cursor % C.size + e.pad ≤ C.size := by
  rw [h.pad_eq]
  exact Ring.pad_fits C _ _

/-- The padding in front of a record: not written yet, or a complete padding record. -/
def Entry.PadOk (T : Mem) (mend : Option Nat) (e : Entry) : Prop :=
  lenAt T e.cursor = 0 ∨
    (lenAt T e.cursor = e.pad ∧ (mend = some e.cursor ∨ typeAt T e.cursor = typePadding))

/-- The record of a claim, by the state of the claim. -/
def Entry.RecordOk (T : Mem) (mend : Option Nat) (e : Entry) : Prop :=
  match e.state with
  | .claimed | .reclaimed false => lenAt T e.record = 0 ∨ lenAt T e.record = -e.total
  | .committed => lenAt T e.record = e.total ∧ typeAt T e.record = e.typ ∧
      slice T (e.record + 8) (e.total - 8) = e.payload
  | .aborted => lenAt T e.record = e.total ∧ typeAt T e.record = typePadding
  | .reclaimed true => lenAt T e.record = align e.total ∧
      (mend = some e.record ∨ typeAt T e.record = typePadding)

/-- A claim the reader cannot pass yet. -/
def Entry.Unfinished (e : Entry) : Prop := e.state = .claimed ∨ e.state = .reclaimed false

instance (e : Entry) : Decidable e.Unfinished :=
  inferInstanceAs (Decidable (e.state = .claimed ∨ e.state = .reclaimed false))

/-- The padding in front of a record, unless the reader has passed it, is written. -/
def Entry.Padded (T : Mem) (pos : Nat) (e : Entry) : Prop :=
  e.pad ≠ 0 → pos ≤ e.cursor → lenAt T e.cursor ≠ 0

/-- The cells of a claim, as far as the reader has not passed them. -/
structure Entry.Content (T : Mem) (mend : Option Nat) (pos : Nat) (e : Entry) : Prop where
  pad : e.pad ≠ 0 → pos ≤ e.cursor → e.PadOk T mend
  record : pos ≤ e.record → e.RecordOk T mend
  done : ¬ e.Unfinished → e.Padded T pos

/-- A claim the receiver has begun to turn into padding. -/
def Entry.Taken (e : Entry) : Prop := ∃ full, e.state = .reclaimed full

/-- A committed claim that was not aborted. -/
def Entry.isCommitted (e : Entry) : Bool := e.state = .committed

/-- The messages of the committed claims of a log, in order. -/
def committedOf (log : List Entry) : List (Word × List UInt8) :=
  (log.filter Entry.isCommitted).map Entry.message

/-! ### The shared part -/

/-- The invariant of the mapped ring and its history, for a reader that stands at `pos`. -/
structure Shared.Ok (C : Capacity) (mend : Option Nat) (pos : Nat) (s : Shared) : Prop where
  tiled : Tiled Entry.cursor Entry.stop 0 s.log s.tail
  wf : ∀ e ∈ s.log, e.Wf C
  window : s.tail ≤ s.head + C.size
  cache : s.headCache ≤ s.head
  head_le : s.head ≤ pos
  bound : pos = s.tail ∨ ∃ e ∈ s.log, pos = e.cursor ∨ pos = e.record
  free : ∀ c, s.tail ≤ c → s.tape C c = 0
  content : ∀ e ∈ s.log, e.Content (s.tape C) mend pos
  passed : ∀ e ∈ s.log, e.stop ≤ pos → ¬ e.Unfinished
  delivered : s.delivered = committedOf (below Entry.stop pos s.log)

namespace Shared.Ok

variable {C : Capacity} {mend : Option Nat} {pos : Nat} {s : Shared}

theorem pos_le (h : s.Ok C mend pos) : pos ≤ s.tail := by
  rcases h.bound with hp | ⟨e, he, hp⟩
  · omega
  · have hb := h.tiled.bounds he
    have ha := (h.wf e he).arith
    omega

/-- The reader never stands strictly inside a record. -/
theorem pos_le_record_or (h : s.Ok C mend pos) (he : e ∈ s.log) : pos ≤ e.record ∨ e.stop ≤ pos := by
  by_contra hc
  have hb := h.tiled.bounds he
  have ha := (h.wf e he).arith
  rcases h.bound with hp | ⟨e', he', hp⟩
  · omega
  · have hb' := h.tiled.bounds he'
    have ha' := (h.wf e' he').arith
    obtain rfl : e = e' :=
      h.tiled.eq_of_overlap he he' (c := pos) (by omega) (by omega) (by omega) (by omega)
    omega

/-- The reader has not passed the record of an unfinished claim. -/
theorem pos_le_record (h : s.Ok C mend pos) (he : e ∈ s.log) (hu : e.Unfinished) : pos ≤ e.record := by
  rcases h.pos_le_record_or he with hp | hp
  · exact hp
  · exact absurd hu (h.passed e he hp)

/-- The cells of a claim above the reader lie in the window. -/
theorem stop_le (h : s.Ok C mend pos) (he : e ∈ s.log) : e.stop ≤ s.head + C.size := by
  have hb := h.tiled.bounds he
  have := h.window
  omega

theorem tail_mod (h : s.Ok C mend pos) : s.tail % 8 = 0 := by
  rcases Nat.eq_zero_or_pos s.tail with h0 | hpos
  · omega
  · obtain ⟨e, he, h1, h2⟩ := h.tiled.cover (c := s.tail - 1) (by omega) (by omega)
    have hb := h.tiled.bounds he
    have ha := (h.wf e he).arith
    have := (h.wf e he).cursor_mod
    omega

theorem pos_mod (h : s.Ok C mend pos) : pos % 8 = 0 := by
  rcases h.bound with hp | ⟨e, he, hp⟩
  · rw [hp]
    exact h.tail_mod
  · have ha := (h.wf e he).arith
    have := (h.wf e he).cursor_mod
    omega

end Shared.Ok

/-! ### The local parts -/

/-- What `tryClaim` has checked about its arguments. -/
structure Req.Ok (C : Capacity) (q : Req) : Prop where
  typ_ne : q.typ ≠ typePadding
  length_le : q.length ≤ maxMessageSize C
  payload_len : ∀ p, q.payload = some p → p.length = q.length

/-- Producer `t` holds claim `c`, whose history is `e`. -/
structure Holds (C : Capacity) (s : Shared) (t : Nat) (c : Claim) (e : Entry) : Prop where
  mem : e ∈ s.log
  owner : e.owner = t
  claimed : e.state = .claimed
  cursor : e.cursor = c.cursor
  index : c.index = e.record % C.size
  total : c.total = e.total

/-- A claim whose padding, if it has any, is written. -/
structure Open (C : Capacity) (s : Shared) (pos t : Nat) (c : Claim) (e : Entry) : Prop
    extends Holds C s t c e where
  padded : e.Padded (s.tape C) pos

/-- The header says "in progress" and the payload cells hold what the producer wrote. -/
structure Written (T : Mem) (e : Entry) : Prop where
  typ : typeAt T e.record = e.typ
  len : lenAt T e.record = -e.total
  payload : slice T (e.record + 8) (e.total - 8) = e.payload

/-- A claim whose record is still to be written by the call `q`. -/
structure Fresh (q : Req) (e : Entry) : Prop where
  total : e.total = q.recordLen
  typ : e.typ = q.typ
  payload : e.payload = List.replicate q.length 0

/-- What a producer knows where it stands. -/
def Producer.Local (C : Capacity) (s : Shared) (pos t : Nat) : Producer → Prop
  | .idle _ | .giveUp _ | .release _ => True
  | .loadTail q => q.Ok C
  | .loadCache q tail | .loadHead q tail => q.Ok C ∧ tail % 8 = 0
  | .storeCache q tail head => q.Ok C ∧ tail % 8 = 0 ∧ head ≤ s.head ∧
      tail + q.need C tail ≤ head + C.size
  | .storeSize q tail | .storeAt q tail | .casTail q tail => q.Ok C ∧ tail % 8 = 0 ∧
      tail + q.need C tail ≤ s.head + C.size
  | .padType q tail => q.Ok C ∧ ∃ e, Holds C s t ⟨tail, 0, q.recordLen, q.slot⟩ e ∧ Fresh q e ∧
      e.pad = toEnd C tail ∧ pos ≤ e.cursor ∧ Blank (s.tape C) e.cursor e.stop
  | .padLen q tail => q.Ok C ∧ ∃ e, Holds C s t ⟨tail, 0, q.recordLen, q.slot⟩ e ∧ Fresh q e ∧
      e.pad = toEnd C tail ∧ pos ≤ e.cursor ∧ typeAt (s.tape C) e.cursor = typePadding ∧
      lenAt (s.tape C) e.cursor = 0 ∧ Blank (s.tape C) e.record e.stop
  | .recType q c => q.Ok C ∧ ∃ e, Open C s pos t c e ∧ Fresh q e ∧
      Blank (s.tape C) e.record e.stop
  | .recLen q c => q.Ok C ∧ ∃ e, Open C s pos t c e ∧ Fresh q e ∧
      typeAt (s.tape C) e.record = e.typ ∧ lenAt (s.tape C) e.record = 0 ∧
      Blank (s.tape C) (e.record + 8) e.stop
  | .copy c off rest => ∃ e, Open C s pos t c e ∧ Written (s.tape C) e ∧
      off + rest.length + 8 = e.total
  | .held c => ∃ e, Open C s pos t c e ∧ Written (s.tape C) e
  | .abortLen c => ∃ e, Open C s pos t c e ∧ typeAt (s.tape C) e.record = typePadding ∧
      lenAt (s.tape C) e.record = -e.total

/-- The cursor of the claim a producer is working on. -/
def Producer.cursor : Producer → Option Nat
  | .padType _ tail | .padLen _ tail => some tail
  | .recType _ c | .recLen _ c | .copy c _ _ | .held c | .abortLen c => some c.cursor
  | _ => none

/-- The claim a producer is working on is open. -/
theorem Producer.Local.claimed {C : Capacity} {s : Shared} {pos t c : Nat} {p : Producer}
    (h : p.Local C s pos t) (hc : p.cursor = some c) :
    ∃ e ∈ s.log, e.cursor = c ∧ e.owner = t ∧ e.state = .claimed := by
  cases p with
  | padType q tail | padLen q tail | recType q cl | recLen q cl =>
    obtain ⟨-, e, hh, -⟩ := h
    cases hc
    exact ⟨e, hh.mem, hh.cursor, hh.owner, hh.claimed⟩
  | copy cl off rest | held cl | abortLen cl =>
    obtain ⟨e, hh, -⟩ := h
    cases hc
    exact ⟨e, hh.mem, hh.cursor, hh.owner, hh.claimed⟩
  | _ => cases hc

/-- The receiver took over the claim producer `t` was working on. -/
def Lost (s : Shared) (t : Nat) (p : Producer) : Prop :=
  ∃ e ∈ s.log, p.cursor = some e.cursor ∧ e.owner = t ∧ e.Taken

/-- The cursor up to which the reader has delivered. -/
def Reader.pos (head : Nat) : Reader → Nat
  | .idle _ | .loadHead _ | .loadTail _ _ => head
  | .loadLen r | .loadType r _ | .pass r _ _ | .storeHead r => r.cursor
  | .clear r len | .storeLen r len => r.cursor + align len

/-- What the loop of `Read` knows. -/
structure Loop.Ok (C : Capacity) (s : Shared) (r : Loop) : Prop where
  head : r.head = s.head
  limit : r.head + r.available = s.tail ∨ ∃ e ∈ s.log, e.cursor = r.head + r.available
  cleared : Blank (s.tape C) s.head r.cursor

/-- What the reader knows where it stands. -/
def Reader.Local (C : Capacity) (s : Shared) : Reader → Prop
  | .idle last => ∀ n, last ≠ some (n, some .corrupt)
  | .loadHead _ => True
  | .loadTail _ head => head = s.head
  | .loadLen r => r.Ok C s ∧ r.consumed < r.available
  | .loadType r len => r.Ok C s ∧ r.consumed < r.available ∧ 0 < len ∧
      lenAt (s.tape C) r.cursor = len
  | .pass r len typ => r.Ok C s ∧ r.consumed < r.available ∧ 0 < len ∧
      lenAt (s.tape C) r.cursor = len ∧ typ = typeAt (s.tape C) r.cursor
  | .clear r len => r.Ok C s ∧ r.consumed + align len ≤ r.available ∧ 8 ≤ len ∧
      r.cursor % C.size + align len ≤ C.size
  | .storeLen r len => r.Ok C s ∧ r.consumed + align len ≤ r.available ∧ 8 ≤ len ∧
      r.cursor % C.size + align len ≤ C.size ∧
      Blank (s.tape C) (r.cursor + 4) (r.cursor + align len)
  | .storeHead r => r.Ok C s ∧ r.consumed ≤ r.available

/-- The reader's position in a system. -/
def Sys.pos (s : Sys) : Nat := s.reader.pos s.sh.head

/-- The invariant of the whole ring. -/
structure Inv (C : Capacity) (mend : Option Nat) (s : Sys) : Prop where
  ok : s.sh.Ok C mend s.pos
  prods : ∀ t, Lost s.sh t (s.prods t) ∨ (s.prods t).Local C s.sh s.pos t
  reader : s.reader.Local C s.sh
  mending : mend ≠ none → ∃ last, s.reader = .idle last

/-- A fresh ring satisfies the invariant. -/
theorem Inv.start (C : Capacity) : Inv C none Sys.start where
  ok :=
    { tiled := rfl
      wf := by intro e he; exact absurd he (by simp [Sys.start, Shared.start])
      window := Nat.zero_le _
      cache := le_refl _
      head_le := le_refl _
      bound := .inl rfl
      free := by intro c _; simp [Shared.tape, unwrap, Sys.start, Shared.start]
      content := by intro e he; exact absurd he (by simp [Sys.start, Shared.start])
      passed := by intro e he; exact absurd he (by simp [Sys.start, Shared.start])
      delivered := rfl }
  prods := fun _ => .inr trivial
  reader := by intro n; simp
  mending := by simp

end GoIpc.Ring
