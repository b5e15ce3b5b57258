import GoIpc.Seq.Buffer
import Mathlib.Data.Nat.Size

namespace GoIpc.Seq

open GoIpc.Lib
open GoIpc.Ring (Word claimSlots noIntent typePadding recordHeaderSize signed)

/-!
# The C and C++ rings, call by call

`ring.c` and `ring.hpp`, written apart from the Go ring and from each other.  Where they differ:

* the C ring tests for room by a difference of cursors that wraps, and asks its sign whether the
  tail is stale; the Go and C++ rings compare the cursors;
* each rounds a length up, and picks a capacity, by other means;
* the C++ ring publishes the head also when a read throws.
-/

/-! ### C -/

namespace CRing

/-- `__builtin_clzll`. -/
def clz (x : Nat) : Nat := 64 - Nat.size x

/-- `check_buffer`. -/
def checkBuffer (R : Region) : Option Fault :=
  if R.addr = 0 then some .invalid
  else if R.len < headerSize + minCapacity then some .tooSmall
  else if R.addr % 8 ≠ 0 then some .unaligned
  else none

/-- `goipc__ring_init`. -/
def ringInit (R : Region) (consumer : Nat) : Except Fault (Nat × Buf) :=
  match checkBuffer R with
  | some f => .error f
  | none =>
    let capacity := 1 <<< (63 - clz (R.len - headerSize))
    .ok (capacity, (R.held.wiped R.len).formatted capacity consumer)

variable (cap : Nat)

/-- `goipc_ring_max_message_size`. -/
def ringMaxMessageSize : Nat :=
  let limit := cap / 2 - recordHeaderSize
  if limit > 2 ^ 31 - 1 - recordHeaderSize then 2 ^ 31 - 1 - recordHeaderSize else limit

/-- `align8`: the length is first made unsigned, so the sum is taken in 64 bits. -/
def align8 (n : Int) : Nat := add64 (n % 2 ^ 32).toNat 7 / 8 * 8

/-- `(int64_t)used < 0`. -/
def isNegative (used : Nat) : Bool := decide (2 ^ 63 ≤ used)

/-- The loop of `goipc__ring_try_claim`. -/
def claimLoop (slot : Option Nat) (typ : Word) (rec : Nat) :
    Nat → Buf → Option (Buf × Except Fault Claim)
  | 0, _ => none
  | fuel + 1, b =>
    let aligned := align8 rec
    let toEnd := cap - b.tail % cap
    let need := if toEnd < aligned then aligned + toEnd else aligned
    let claimed (b : Buf) :=
      let r := b.take cap slot typ rec aligned need
      some (r.1, .ok ⟨r.2, rec, slot⟩)
    let used := sub64 b.tail b.headCache
    if used > cap ∨ cap - used < need then
      let used := sub64 b.tail b.head
      -- head passed this tail value, so the tail is stale
      if isNegative used then claimLoop slot typ rec fuel b
      else if used > cap ∨ cap - used < need then some (b.release slot, .error .full)
      else claimed { b with headCache := b.head }
    else claimed b

/-- `goipc__ring_try_claim`. -/
def ringTryClaim (fuel : Nat) (slot : Option Nat) (typ : Word) (len : Nat) (b : Buf) :
    Option (Buf × Except Fault Claim) :=
  if typ = typePadding then some (b, .error .reservedType)
  else if len > ringMaxMessageSize cap then some (b, .error .messageTooLarge)
  else claimLoop cap slot typ (recordHeaderSize + len) fuel b

/-- `goipc_claim_commit`. -/
def claimCommit (c : Claim) (b : Buf) : Buf := (b.storeLength c.index c.total).release c.slot

/-- `goipc_claim_abort`. -/
def claimAbort (c : Claim) (b : Buf) : Buf :=
  ((b.storeType c.index typePadding).storeLength c.index c.total).release c.slot

/-- The loop of `goipc__ring_read`.  A payload longer than `maxlen` stays queued and ends it. -/
def readLoop (limit : Int) (maxlen head available : Nat) :
    Nat → Nat → List Message → Mem → Option (Nat × List Message × Mem × Option Fault)
  | 0, _, _, _ => none
  | fuel + 1, consumed, out, data =>
    if out.length < limit ∧ consumed < available then
      let index := add64 head consumed % cap
      let len := signed (load32 data index)
      if len ≤ 0 then some (consumed, out, data, none)
      else
        let step := align8 len
        if len < recordHeaderSize ∨ step > available - consumed ∨ index + step > cap then
          some (consumed, out, data, some .corrupt)
        else
          let typ := load32 data (index + 4)
          let plen := len.toNat - recordHeaderSize
          if typ ≠ typePadding ∧ plen > maxlen then some (consumed, out, data, some .buffer)
          else
            let out := if typ ≠ typePadding then
              out ++ [(typ, slice data (index + recordHeaderSize) plen)] else out
            let data := store32 (clear data (index + 4) (index + 4 + (step - 4))) index 0
            readLoop limit maxlen head available fuel (consumed + step) out data
    else some (consumed, out, data, none)

/-- `goipc__ring_read`: a corrupt length returns before the head is stored, a payload that does
    not fit after. -/
def ringReadInto (fuel : Nat) (limit : Int) (maxlen : Nat) (b : Buf) :
    Option (Buf × List Message × Option Fault) :=
  if limit ≤ 0 then some (b, [], none)
  else
    (readLoop cap limit maxlen b.head (sub64 b.tail b.head) fuel 0 [] b.data).map fun
      | (_, out, data, some .corrupt) => ({ b with data := data }, out, some .corrupt)
      | (consumed, out, data, rc) =>
        ({ b with data := data, head := if consumed > 0 then add64 b.head consumed else b.head },
          out, rc)

/-- `goipc_ring_read`: no payload is too long (`SIZE_MAX`). -/
def ringRead (fuel : Nat) (limit : Int) (b : Buf) : Option (Buf × List Message × Option Fault) :=
  ringReadInto cap fuel limit (2 ^ 64 - 1) b

/-- `goipc__ring_acquire_slot`. -/
def ringAcquireSlot (self : Nat) (dead : Nat → Bool) (b : Buf) : Buf × Except Fault Nat :=
  let free := (List.range claimSlots).find? (fun i => (b.slots i).owner = 0)
  let left := (List.range claimSlots).find? (fun i =>
    let s := b.slots i
    ¬ (s.owner = 0 ∨ s.owner = self) ∧
      ¬ (s.cursor ≠ noIntent ∧ add64 s.cursor s.size > b.head) ∧ dead s.owner)
  b.acquired self (free <|> left)

/-- `goipc__ring_drop_slot`. -/
def ringDropSlot (self slot : Nat) (b : Buf) : Buf :=
  let b := b.storeAt slot noIntent
  if (b.slots slot).owner = self then b.storeOwner slot 0 else b

/-- The C ring. -/
def impl : Impl where
  tryClaim := ringTryClaim cap
  commit := claimCommit
  abort := claimAbort
  read := ringRead cap
  acquireSlot := ringAcquireSlot
  dropSlot := ringDropSlot

/-- The vectors on the C ring. -/
def replay := replayWith ringInit impl

end CRing

/-! ### C++ -/

namespace CppRing

/-- `std::bit_floor`. -/
def bitFloor (x : Nat) : Nat := if x = 0 then 0 else 2 ^ Nat.log2 x

/-- `check_buffer`. -/
def checkBuffer (R : Region) : Option Fault :=
  if R.len < headerSize + minCapacity then some .tooSmall
  else if R.addr % 8 ≠ 0 then some .unaligned
  else none

/-- `Ring::init`. -/
def init (R : Region) (consumer : Nat) : Except Fault (Nat × Buf) :=
  match checkBuffer R with
  | some f => .error f
  | none =>
    let capacity := bitFloor (R.len - headerSize)
    .ok (capacity, (R.held.wiped R.len).formatted capacity consumer)

variable (cap : Nat)

/-- `Ring::max_message_size`. -/
def maxMessageSize : Nat :=
  let limit := cap / 2 - recordHeaderSize
  let most := 2 ^ 31 - 1 - recordHeaderSize
  if limit < most then limit else most

/-- `detail::align8`, on 64 bits. -/
def align8 (n : Nat) : Nat := add64 n 7 / 8 * 8

/-- `Ring::has_room` rejects a cached head that is ahead of tail or more than a lap old. -/
def hasRoom (tail head capacity need : Nat) : Bool :=
  if head > tail ∨ tail - head > capacity then false else capacity - (tail - head) ≥ need

/-- The loop of `Ring::claim_record`. -/
def claimLoop (slot : Option Nat) (typ : Word) (total : Nat) :
    Nat → Buf → Option (Buf × Except Fault Claim)
  | 0, _ => none
  | fuel + 1, b =>
    let aligned := align8 total
    let toEnd := cap - b.tail % cap
    let need := if toEnd < aligned then aligned + toEnd else aligned
    let claimed (b : Buf) :=
      let r := b.take cap slot typ total aligned need
      some (r.1, .ok ⟨r.2, total, slot⟩)
    if hasRoom b.tail b.headCache cap need then claimed b
    else if b.head > b.tail then claimLoop slot typ total fuel b
    else if hasRoom b.tail b.head cap need then claimed { b with headCache := b.head }
    else some (b.release slot, .error .full)

/-- `Ring::claim_record`: `full` is its `false`. -/
def claimRecord (fuel : Nat) (slot : Option Nat) (typ : Word) (len : Nat) (b : Buf) :
    Option (Buf × Except Fault Claim) :=
  if typ = typePadding then some (b, .error .reservedType)
  else if len > maxMessageSize cap then some (b, .error .messageTooLarge)
  else claimLoop cap slot typ (recordHeaderSize + len) fuel b

/-- `Claim::commit` on a raw ring: `commit_record`, then the intent of the slot. -/
def commit (c : Claim) (b : Buf) : Buf := (b.storeLength c.index c.total).release c.slot

/-- `Claim::abort` on a raw ring: `abort_record`, then the intent of the slot. -/
def abort (c : Claim) (b : Buf) : Buf :=
  ((b.storeType c.index typePadding).storeLength c.index c.total).release c.slot

/-- The loop of `Ring::read_accept`.  A record the callback declines stays queued. -/
def readLoop (limit : Nat) (fn : Message → Bool) (head available : Nat) :
    Nat → Nat → List Message → Mem → Option (Nat × List Message × Mem × Option Fault)
  | 0, _, _, _ => none
  | fuel + 1, consumed, out, data =>
    if out.length < limit ∧ consumed < available then
      let index := add64 head consumed % cap
      let len := signed (load32 data index)
      if len ≤ 0 then some (consumed, out, data, none)
      else
        let step := align8 len.toNat
        if len.toNat < recordHeaderSize ∨ step > available - consumed ∨ index + step > cap then
          some (consumed, out, data, some .corrupt)
        else
          let typ := load32 data (index + 4)
          let message : Message :=
            (typ, slice data (index + recordHeaderSize) (len.toNat - recordHeaderSize))
          if typ ≠ typePadding ∧ ¬ fn message then some (consumed, out, data, none)
          else
            let out := if typ ≠ typePadding then out ++ [message] else out
            let data := store32 (clear data (index + 4) (index + 4 + (step - 4))) index 0
            readLoop limit fn head available fuel (consumed + step) out data
    else some (consumed, out, data, none)

/-- `Ring::read_accept`: the head is published on every way out, the throw included. -/
def readAccept (fuel limit : Nat) (fn : Message → Bool) (b : Buf) :
    Option (Buf × List Message × Option Fault) :=
  if limit = 0 then some (b, [], none)
  else
    (readLoop cap limit fn b.head (sub64 b.tail b.head) fuel 0 [] b.data).map fun
      | (consumed, out, data, err) =>
        ({ b with data := data, head := if consumed > 0 then add64 b.head consumed else b.head },
          out, err)

/-- `Ring::read`, with its limit as a `size_t`. -/
def read (fuel : Nat) (limit : Int) (b : Buf) : Option (Buf × List Message × Option Fault) :=
  readAccept cap fuel (limit % 2 ^ 64).toNat (fun _ => true) b

/-- `find_slot` and `Ring::acquire_slot`. -/
def acquireSlot (self : Nat) (dead : Nat → Bool) (b : Buf) : Buf × Except Fault Nat :=
  let free := (List.range claimSlots).find? (fun i => (b.slots i).owner = 0)
  let left := (List.range claimSlots).find? (fun i =>
    let s := b.slots i
    ¬ (s.owner = 0 ∨ s.owner = self) ∧
      ¬ (s.cursor ≠ noIntent ∧ add64 s.cursor s.size > b.head) ∧ dead s.owner)
  b.acquired self (free <|> left)

/-- `Ring::drop_slot`. -/
def dropSlot (self slot : Nat) (b : Buf) : Buf :=
  let b := b.storeAt slot noIntent
  if (b.slots slot).owner = self then b.storeOwner slot 0 else b

/-- The C++ ring. -/
def impl : Impl where
  tryClaim := claimRecord cap
  commit := commit
  abort := abort
  read := read cap
  acquireSlot := acquireSlot
  dropSlot := dropSlot

/-- The vectors on the C++ ring. -/
def replay := replayWith init impl

end CppRing

end GoIpc.Seq
