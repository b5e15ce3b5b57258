import GoIpc.Lib.Machine
import GoIpc.Ring.Layout
import Mathlib.Logic.Function.Basic

namespace GoIpc.Ring

open GoIpc.Lib

/-!
# The ring as a machine

Any number of producers run `tryClaim` and then `Commit` or `Abort` (or `tryWrite`), one reader
runs `Read`, and every atomic access to the shared memory is one step.  A program counter names
the access a party makes next and carries the local variables that are still live, so a list of
actions is an interleaving of those accesses.

The shared memory is what the ring maps: `tail`, `head`, `headCache`, the claim slots and the
bytes of the data region.  Two history fields record what the properties talk about: `log`, the
claims in the order of their successful compare-and-swap on `tail`, and `delivered`, the pairs
`Read` has passed to its callback.  No step reads them.
-/

/-! ### Shared memory -/

/-- A claim slot: the process behind a claim, and the cursor range (`at` and `size` in the
    source) it claims or is about to claim. -/
structure Slot where
  owner : Nat
  cursor : Nat
  size : Nat
deriving DecidableEq

/-- How far a claim has come.  `reclaimed full` is a claim the receiver has begun to turn into
    padding; `full` says that its record part is padding too. -/
inductive ClaimState
  | claimed
  | committed
  | aborted
  | reclaimed (full : Bool)
deriving DecidableEq

/-- History of one claim: the range it took, the record in it, the producer behind it, and the
    payload bytes that producer has written so far. -/
structure Entry where
  cursor : Nat
  pad : Nat
  total : Nat
  typ : Word
  owner : Nat
  slot : Option Nat
  payload : List UInt8
  state : ClaimState
deriving DecidableEq

namespace Entry

/-- Cursor of the record header, after the wrap padding. -/
def record (e : Entry) : Nat := e.cursor + e.pad

/-- Bytes the claim takes. -/
def size (e : Entry) : Nat := e.pad + align e.total

/-- Cursor right after the claim. -/
def stop (e : Entry) : Nat := e.cursor + e.size

/-- What the reader passes to its callback for this claim. -/
def message (e : Entry) : Word × List UInt8 := (e.typ, e.payload)

end Entry

/-- The mapped ring and its history. -/
structure Shared where
  tail : Nat
  head : Nat
  headCache : Nat
  slots : Nat → Slot
  data : Mem
  log : List Entry
  delivered : List (Word × List UInt8)

namespace Shared

variable (s : Shared)

/-- `initRing`: everything is zero and no slot holds an intent. -/
def start : Shared where
  tail := 0
  head := 0
  headCache := 0
  slots := fun _ => ⟨0, noIntent, 0⟩
  data := fun _ => 0
  log := []
  delivered := []

def loadLength (idx : Nat) : Int := signed (load32 s.data idx)

def storeLength (idx : Nat) (v : Int) : Shared :=
  { s with data := store32 s.data idx (BitVec.ofInt 32 v) }

def loadType (idx : Nat) : Word := load32 s.data (idx + 4)

def storeType (idx : Nat) (v : Word) : Shared :=
  { s with data := store32 s.data (idx + 4) v }

/-- Store a payload byte. -/
def storeByte (idx : Nat) (b : UInt8) : Shared :=
  { s with data := store8 s.data idx b }

/-- Store the `at` field of a slot. -/
def storeAt (i v : Nat) : Shared :=
  { s with slots := Function.update s.slots i { s.slots i with cursor := v } }

/-- Store the `size` field of a slot. -/
def storeSize (i v : Nat) : Shared :=
  { s with slots := Function.update s.slots i { s.slots i with size := v } }

/-- `release` clears the intent of a slot whose claim the reader can now pass. -/
def release (slot : Option Nat) : Shared :=
  match slot with
  | some i => s.storeAt i noIntent
  | none => s

/-- Record in the history that the claim at `cursor` changed. -/
def note (cursor : Nat) (f : Entry → Entry) : Shared :=
  { s with log := s.log.map (fun e => if e.cursor = cursor then f e else e) }

/-- The claim at `cursor` is now in state `st`. -/
def mark (cursor : Nat) (st : ClaimState) : Shared :=
  s.note cursor (fun e => { e with state := st })

end Shared

/-! ### Recovery -/

/-- The bytes from `cursor` that `reclaim` turns into padding for a claim that ends at `stop`:
    one lap segment at a time. -/
def lapSegment (C : Capacity) (cursor stop : Nat) : Nat :=
  let size := stop - cursor
  let toEnd := C.size - cursor % C.size
  if size > toEnd then toEnd else size

/-- History of a claim that `reclaim` turns into padding for `size` bytes from `cursor`. -/
def Entry.reclaim (cursor size : Nat) (e : Entry) : Entry :=
  if e.cursor ≤ cursor ∧ cursor < e.stop ∧ (e.state = .claimed ∨ e.state = .reclaimed false) then
    { e with state := .reclaimed (decide (e.stop ≤ cursor + size)) }
  else e

/-- The compare-and-swap of `reclaim` on the length, when it succeeds. -/
def Shared.reclaim (C : Capacity) (s : Shared) (cursor size : Nat) : Shared :=
  { s.storeLength (cursor % C.size) size with log := s.log.map (Entry.reclaim cursor size) }

/-! ### Producers -/

/-- The errors of the ring. -/
inductive Err
  | reservedType
  | messageTooLarge
  | full
  | corrupt
deriving DecidableEq

/-- A call of `tryClaim`, or of `tryWrite` when it carries a payload. -/
structure Req where
  slot : Option Nat
  typ : Word
  length : Nat
  payload : Option (List UInt8)
deriving DecidableEq

namespace Req

variable (C : Capacity) (q : Req) (tail : Nat)

/-- `recordLen`: header and payload. -/
def recordLen : Nat := recordHeaderSize + q.length

/-- `aligned`: the bytes of the record, rounded up. -/
def aligned : Nat := align q.recordLen

/-- `need`: the bytes of the claim at `tail`. -/
def need : Nat := Ring.need C tail q.aligned

/-- The history of a claim at `tail`, just made by producer `t`.  Its payload reads zero: the
    reader clears every byte it consumes. -/
def entry (t : Nat) : Entry where
  cursor := tail
  pad := padOf C tail q.aligned
  total := q.recordLen
  typ := q.typ
  owner := t
  slot := q.slot
  payload := List.replicate q.length 0
  state := .claimed

end Req

/-- A reserved region of the ring (`Claim` in the source), with the cursor it was claimed at. -/
structure Claim where
  cursor : Nat
  index : Nat
  total : Nat
  slot : Option Nat
deriving DecidableEq

/-- Where a producer stands.  Every constructor but `idle` and `held` is the next atomic access
    of `tryClaim`, of the copy of `tryWrite`, of `Commit` or of `Abort`. -/
inductive Producer
  | idle (last : Option Err)
  | loadTail (q : Req)
  | loadCache (q : Req) (tail : Nat)
  | loadHead (q : Req) (tail : Nat)
  | storeCache (q : Req) (tail head : Nat)
  | storeSize (q : Req) (tail : Nat)
  | storeAt (q : Req) (tail : Nat)
  | casTail (q : Req) (tail : Nat)
  | giveUp (q : Req)
  | padType (q : Req) (tail : Nat)
  | padLen (q : Req) (tail : Nat)
  | recType (q : Req) (c : Claim)
  | recLen (q : Req) (c : Claim)
  | copy (c : Claim) (off : Nat) (rest : List UInt8)
  | held (c : Claim)
  | abortLen (c : Claim)
  | release (c : Claim)
deriving DecidableEq

/-- What a producer may do next: start a call, make the next access, or use the claim it
    holds. -/
inductive ProdAct
  | tryClaim (slot : Option Nat) (typ : Word) (length : Int)
  | tryWrite (slot : Option Nat) (typ : Word) (payload : List UInt8)
  | step
  | put (off : Nat) (b : UInt8)
  | commit
  | abort

namespace Producer

/-- The checks at the top of `tryClaim`. -/
def start (C : Capacity) (slot : Option Nat) (typ : Word) (length : Int)
    (payload : Option (List UInt8)) : Producer :=
  if typ = typePadding then .idle (some .reservedType)
  else if length < 0 || length > maxMessageSize C then .idle (some .messageTooLarge)
  else .loadTail ⟨slot, typ, length.toNat, payload⟩

/-- With room at `tail`, an attributed claim first records its intent. -/
def intent (q : Req) (tail : Nat) : Producer :=
  match q.slot with
  | some _ => .storeSize q tail
  | none => .casTail q tail

/-- One atomic step of producer `t`. -/
def step (C : Capacity) (t : Nat) (s : Shared) : Producer → ProdAct → Option (Shared × Producer)
  | .idle _, .tryClaim slot typ length => some (s, start C slot typ length none)
  | .idle _, .tryWrite slot typ payload =>
      some (s, start C slot typ payload.length (some payload))
  | .loadTail q, .step => some (s, .loadCache q s.tail)
  | .loadCache q tail, .step =>
      if hasRoom tail s.headCache C.size (q.need C tail) then some (s, intent q tail)
      else some (s, .loadHead q tail)
  | .loadHead q tail, .step =>
      -- other producers moved tail and the reader followed since this load of tail
      if s.head > tail then some (s, .loadTail q)
      else if hasRoom tail s.head C.size (q.need C tail) then
        some (s, .storeCache q tail s.head)
      else some (s, .giveUp q)
  | .storeCache q tail head, .step => some ({ s with headCache := head }, intent q tail)
  | .giveUp q, .step => some (s.release q.slot, .idle (some .full))
  | .storeSize q tail, .step =>
      some (match q.slot with | some i => s.storeSize i (q.need C tail) | none => s,
        .storeAt q tail)
  | .storeAt q tail, .step =>
      some (match q.slot with | some i => s.storeAt i tail | none => s, .casTail q tail)
  | .casTail q tail, .step =>
      if s.tail = tail then
        some ({ s with tail := tail + q.need C tail, log := s.log ++ [q.entry C tail t] },
          if q.need C tail ≠ q.aligned then .padType q tail
          else .recType q ⟨tail, tail % C.size, q.recordLen, q.slot⟩)
      else some (s, .loadTail q)
  | .padType q tail, .step => some (s.storeType (tail % C.size) typePadding, .padLen q tail)
  | .padLen q tail, .step =>
      some (s.storeLength (tail % C.size) (toEnd C tail), .recType q ⟨tail, 0, q.recordLen, q.slot⟩)
  | .recType q c, .step => some (s.storeType c.index q.typ, .recLen q c)
  | .recLen q c, .step =>
      some (s.storeLength c.index (-c.total),
        match q.payload with | some p => .copy c 0 p | none => .held c)
  | .copy c off (b :: rest), .step =>
      some ((s.storeByte (c.index + recordHeaderSize + off) b).note c.cursor
        (fun e => { e with payload := e.payload.set off b }), .copy c (off + 1) rest)
  | .copy c _ [], .step => some ((s.storeLength c.index c.total).mark c.cursor .committed, .release c)
  | .held c, .put off b =>
      if recordHeaderSize + off < c.total then
        some ((s.storeByte (c.index + recordHeaderSize + off) b).note c.cursor
          (fun e => { e with payload := e.payload.set off b }), .held c)
      else none
  | .held c, .commit => some ((s.storeLength c.index c.total).mark c.cursor .committed, .release c)
  | .held c, .abort => some (s.storeType c.index typePadding, .abortLen c)
  | .abortLen c, .step => some ((s.storeLength c.index c.total).mark c.cursor .aborted, .release c)
  | .release c, .step => some (s.release c.slot, .idle none)
  | _, _ => none

end Producer

/-! ### The reader -/

/-- The local variables of the loop of `Read`. -/
structure Loop where
  limit : Int
  head : Nat
  available : Nat
  consumed : Nat
  count : Nat
deriving DecidableEq

/-- Where the reader stands.  `idle` carries what the last `Read` returned. -/
inductive Reader
  | idle (last : Option (Nat × Option Err))
  | loadHead (limit : Int)
  | loadTail (limit : Int) (head : Nat)
  | loadLen (r : Loop)
  | loadType (r : Loop) (length : Nat)
  | pass (r : Loop) (length : Nat) (typ : Word)
  | clear (r : Loop) (length : Nat)
  | storeLen (r : Loop) (length : Nat)
  | storeHead (r : Loop)
deriving DecidableEq

/-- The reader starts a `Read`, or makes its next access. -/
inductive ReadAct
  | read (limit : Int)
  | step

namespace Loop

variable (r : Loop)

/-- Cursor the loop looks at. -/
def cursor : Nat := r.head + r.consumed

/-- After the loop: publish the new head, if anything was consumed. -/
def finish : Reader := if r.consumed > 0 then .storeHead r else .idle (some (r.count, none))

/-- The loop condition. -/
def next : Reader :=
  if r.count < r.limit ∧ r.consumed < r.available then .loadLen r else r.finish

end Loop

namespace Reader

/-- One atomic step of the reader. -/
def step (C : Capacity) (s : Shared) : Reader → ReadAct → Option (Shared × Reader)
  | .idle _, .read limit =>
      some (s, if limit ≤ 0 then .idle (some (0, none)) else .loadHead limit)
  | .loadHead limit, .step => some (s, .loadTail limit s.head)
  | .loadTail limit head, .step => some (s, Loop.next ⟨limit, head, s.tail - head, 0, 0⟩)
  | .loadLen r, .step =>
      let index := r.cursor % C.size
      let length := s.loadLength index
      if length ≤ 0 then some (s, r.finish)
      else
        let len := length.toNat
        if len < recordHeaderSize ∨ align len > r.available - r.consumed ∨ index + align len > C.size
        then some (s, .idle (some (r.count, some .corrupt)))
        else some (s, .loadType r len)
  | .loadType r len, .step => some (s, .pass r len (s.loadType (r.cursor % C.size)))
  | .pass r len typ, .step =>
      if typ = typePadding then some (s, .clear r len)
      else
        some ({ s with delivered := s.delivered ++
            [(typ, slice s.data (r.cursor % C.size + recordHeaderSize) (len - recordHeaderSize))] },
          .clear { r with count := r.count + 1 } len)
  | .clear r len, .step =>
      let index := r.cursor % C.size
      some ({ s with data := Lib.clear s.data (index + 4) (index + align len) }, .storeLen r len)
  | .storeLen r len, .step =>
      some (s.storeLength (r.cursor % C.size) 0,
        Loop.next { r with consumed := r.consumed + align len })
  | .storeHead r, .step => some ({ s with head := r.cursor }, .idle (some (r.count, none)))
  | _, _ => none

end Reader

/-! ### The system -/

/-- The shared memory, every producer, and the reader. -/
structure Sys where
  sh : Shared
  prods : Nat → Producer
  reader : Reader

/-- A step of producer `t`, or of the reader. -/
inductive Act
  | prod (t : Nat) (a : ProdAct)
  | reader (a : ReadAct)

namespace Sys

def start : Sys := ⟨Shared.start, fun _ => .idle none, .idle none⟩

def step (C : Capacity) (s : Sys) : Act → Option Sys
  | .prod t a => ((s.prods t).step C t s.sh a).map
      (fun r => { s with sh := r.1, prods := Function.update s.prods t r.2 })
  | .reader a => (s.reader.step C s.sh a).map (fun r => { s with sh := r.1, reader := r.2 })

end Sys

/-- The raw ring: every interleaving of producers and reader from a fresh ring. -/
def machine (C : Capacity) : Machine Sys Act := ⟨Sys.start, Sys.step C⟩

end GoIpc.Ring
