import GoIpc.Seq.Buffer
import Mathlib.Data.Nat.Size

namespace GoIpc.Seq.GoRing

open GoIpc.Lib
open GoIpc.Ring (Word claimSlots noIntent typePadding recordHeaderSize signed hasRoom)

/-!
# The Go ring, call by call

`initRing`, `tryClaim`, `Commit`, `Abort`, `Read`, `acquireSlot` and `dropSlot` of `ring.go` and
`recover.go`, each as one function.  `cap` is the capacity of the handle: an index is a cursor
masked with `cap - 1`, which for a power of two is the remainder.
-/

/-- `initRing`: the capacity of the handle and the formatted buffer. -/
def initRing (R : Region) (consumer : Nat) : Except Fault (Nat × Buf) :=
  if R.len < headerSize + minCapacity then .error .tooSmall
  else if R.addr % 8 ≠ 0 then .error .unaligned
  else
    -- `uint64(1) << (bits.Len64(room) - 1)`
    let capacity := 1 <<< (Nat.size (R.len - headerSize) - 1)
    .ok (capacity, (R.held.wiped R.len).formatted capacity consumer)

variable (cap : Nat)

def maxMessageSize : Nat :=
  let limit := cap / 2 - recordHeaderSize
  if limit > 2 ^ 31 - 1 - recordHeaderSize then 2 ^ 31 - 1 - recordHeaderSize else limit

/-- `align`: the sum is taken in 32 bits, the result is converted to 64. -/
def align (n : Int) : Nat := (Int.bmod (n + 7) (2 ^ 32) / 8 * 8 % 2 ^ 64).toNat

/-- The loop of `tryClaim`. -/
def claimLoop (slot : Option Nat) (typ : Word) (recordLen : Nat) :
    Nat → Buf → Option (Buf × Except Fault Claim)
  | 0, _ => none
  | fuel + 1, b =>
    let aligned := align recordLen
    let toEnd := cap - b.tail % cap
    let need := if toEnd < aligned then add64 aligned toEnd else aligned
    let claimed (b : Buf) :=
      let r := b.take cap slot typ recordLen aligned need
      some (r.1, .ok ⟨r.2, recordLen, slot⟩)
    if hasRoom b.tail b.headCache cap need then claimed b
    -- another producer moved tail and the reader followed: the claim starts again
    else if b.head > b.tail then claimLoop slot typ recordLen fuel b
    else if hasRoom b.tail b.head cap need then claimed { b with headCache := b.head }
    else some (b.release slot, .error .full)

/-- `tryClaim`. -/
def tryClaim (fuel : Nat) (slot : Option Nat) (typ : Word) (length : Nat) (b : Buf) :
    Option (Buf × Except Fault Claim) :=
  if typ = typePadding then some (b, .error .reservedType)
  else if length > maxMessageSize cap then some (b, .error .messageTooLarge)
  else claimLoop cap slot typ (recordHeaderSize + length) fuel b

/-- `Claim.Commit`. -/
def commit (c : Claim) (b : Buf) : Buf := (b.storeLength c.index c.total).release c.slot

/-- `Claim.Abort`. -/
def abort (c : Claim) (b : Buf) : Buf :=
  ((b.storeType c.index typePadding).storeLength c.index c.total).release c.slot

/-- The loop of `Read`: what it consumed, what it passed to the callback, and the data region it
    leaves.  The count of the source is the number of records passed. -/
def readLoop (limit : Int) (head available : Nat) :
    Nat → Nat → List Message → Mem → Option (Nat × List Message × Mem × Option Fault)
  | 0, _, _, _ => none
  | fuel + 1, consumed, out, data =>
    if out.length < limit ∧ consumed < available then
      let index := add64 head consumed % cap
      let length := signed (load32 data index)
      if length ≤ 0 then some (consumed, out, data, none)
      else
        let step := align length
        if length < recordHeaderSize ∨ step > available - consumed ∨ index + step > cap then
          some (consumed, out, data, some .corrupt)
        else
          let typ := load32 data (index + 4)
          let payload := slice data (index + recordHeaderSize) (length.toNat - recordHeaderSize)
          let out := if typ ≠ typePadding then out ++ [(typ, payload)] else out
          let data := store32 (clear data (index + 4) (index + step)) index 0
          readLoop limit head available fuel (consumed + step) out data
    else some (consumed, out, data, none)

/-- `Read`: an error leaves the head where it was. -/
def read (fuel : Nat) (limit : Int) (b : Buf) : Option (Buf × List Message × Option Fault) :=
  if limit ≤ 0 then some (b, [], none)
  else
    (readLoop cap limit b.head (sub64 b.tail b.head) fuel 0 [] b.data).map fun
      | (_, out, data, some f) => ({ b with data := data }, out, some f)
      | (consumed, out, data, none) =>
        ({ b with data := data, head := if consumed > 0 then add64 b.head consumed else b.head },
          out, none)

/-- `acquireSlot`: a free slot, or else one of a dead owner whose claim the reader has passed. -/
def acquireSlot (self : Nat) (dead : Nat → Bool) (b : Buf) : Buf × Except Fault Nat :=
  let free := (List.range claimSlots).find? (fun i => (b.slots i).owner = 0)
  let left := (List.range claimSlots).find? (fun i =>
    let s := b.slots i
    (s.owner ≠ 0 ∧ s.owner ≠ self) ∧
      ¬ (s.cursor ≠ noIntent ∧ add64 s.cursor s.size > b.head) ∧ dead s.owner)
  b.acquired self (free <|> left)

/-- `dropSlot`. -/
def dropSlot (self slot : Nat) (b : Buf) : Buf :=
  let b := b.storeAt slot noIntent
  if (b.slots slot).owner = self then b.storeOwner slot 0 else b

/-- The Go ring. -/
def impl : Impl where
  tryClaim := tryClaim cap
  commit := commit
  abort := abort
  read := read cap
  acquireSlot := acquireSlot
  dropSlot := dropSlot

/-- The vectors on the Go ring. -/
def replay := replayWith initRing impl

end GoIpc.Seq.GoRing
