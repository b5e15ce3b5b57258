import GoIpc.Ring.Machine

namespace GoIpc.Seq

open GoIpc.Lib
open GoIpc.Ring (Word Slot claimSlots noIntent typePadding recordHeaderSize signed)

/-!
# The mapped buffer, one call at a time

The concurrent model takes the ring apart into atomic accesses.  Here nothing else runs: a call
is one function from buffer to buffer, so that whole calls of the Go ring, of the C ring and of
the C++ ring can be laid side by side.

* `Buf` — every word of the control block, the claim slots and the data region;
* `Region` — the memory a ring is formatted into;
* `Op`, `Impl`, `Impl.run` — the operations of the ring vectors, one implementation of them,
  and what a sequence of them returns and leaves behind.

Cursors and slot fields are 64 bits wide and their sums and differences wrap.  A loop of the
source takes fuel; `none` is a call that has not returned when the fuel is used up.
-/

/-! ### Words -/

/-- The sum of two `uint64`. -/
def add64 (a b : Nat) : Nat := (a + b) % 2 ^ 64

/-- The difference of two `uint64`. -/
def sub64 (a b : Nat) : Nat := (a + 2 ^ 64 - b) % 2 ^ 64

theorem add64_of_lt {a b : Nat} (h : a + b < 2 ^ 64) : add64 a b = a + b := Nat.mod_eq_of_lt h

theorem sub64_of_le {a b : Nat} (h : b ≤ a) (ha : a < 2 ^ 64) : sub64 a b = a - b := by
  unfold sub64
  rw [show a + 2 ^ 64 - b = a - b + 2 ^ 64 by omega, Nat.add_mod_right]
  exact Nat.mod_eq_of_lt (by omega)

/-! ### The buffer -/

/-- Size of the control block and the claim slots in front of the data region. -/
def headerSize : Nat := 4 * 128 + claimSlots * 64

/-- The smallest data region a ring accepts. -/
def minCapacity : Nat := 4096

def ringMagic : Nat := 0x676F2D6970632D31

def ringVersion : Nat := 2

/-- The contents of a mapped buffer.  The bytes between the fields of the control block are
    cleared by the format and used by nobody. -/
structure Buf where
  magic : Nat
  version : Nat
  flags : Nat
  capacity : Nat
  consumer : Nat
  tail : Nat
  head : Nat
  headCache : Nat
  recvWaiters : Int
  sendWaiters : Int
  slots : Nat → Slot
  data : Mem

/-- The memory a ring is formatted into: where it is, how long it is, what it holds. -/
structure Region where
  addr : Nat
  len : Nat
  held : Buf
  mapped : 0 < addr
  bounded : len < 2 ^ 64

namespace Buf

variable (b : Buf)

/-- Every byte of a buffer of `len` bytes set to zero. -/
def wiped (len : Nat) : Buf where
  magic := 0
  version := 0
  flags := 0
  capacity := 0
  consumer := 0
  tail := 0
  head := 0
  headCache := 0
  recvWaiters := 0
  sendWaiters := 0
  slots := fun i => if i < claimSlots then ⟨0, 0, 0⟩ else b.slots i
  data := Lib.clear b.data 0 (len - headerSize)

/-- The fields a format writes after it has cleared the buffer: the capacity, the version, the
    consumer, no intent in any slot, and last the magic. -/
def formatted (capacity consumer : Nat) : Buf :=
  { b with
    capacity := capacity
    version := ringVersion
    consumer := consumer
    slots := fun i => if i < claimSlots then { b.slots i with cursor := noIntent } else b.slots i
    magic := ringMagic }

def loadLength (idx : Nat) : Int := signed (load32 b.data idx)

def storeLength (idx : Nat) (v : Int) : Buf :=
  { b with data := store32 b.data idx (BitVec.ofInt 32 v) }

def storeType (idx : Nat) (v : Word) : Buf := { b with data := store32 b.data (idx + 4) v }

/-- Copy a payload to `idx`. -/
def copy (idx : Nat) (payload : List UInt8) : Buf :=
  { b with data := patch b.data idx payload.length (fun k => payload.getD k 0) }

def storeOwner (i v : Nat) : Buf :=
  { b with slots := Function.update b.slots i { b.slots i with owner := v } }

/-- Store the `at` field of a slot. -/
def storeAt (i v : Nat) : Buf :=
  { b with slots := Function.update b.slots i { b.slots i with cursor := v } }

def storeSize (i v : Nat) : Buf :=
  { b with slots := Function.update b.slots i { b.slots i with size := v } }

/-- `release` clears the intent of a slot whose claim the reader can now pass. -/
def release (slot : Option Nat) : Buf :=
  match slot with
  | some i => b.storeAt i noIntent
  | none => b

/-- The cursor range a producer that owns a slot claims, or is about to. -/
def intend (slot : Option Nat) (need : Nat) : Buf :=
  match slot with
  | some i => (b.storeSize i need).storeAt i b.tail
  | none => b

/-- The header of a record still being written: a negative length. -/
def openRecord (idx : Nat) (typ : Word) (recordLen : Nat) : Buf :=
  (b.storeType idx typ).storeLength idx (-recordLen)

/-- A complete padding record. -/
def padRecord (idx size : Nat) : Buf := (b.storeType idx typePadding).storeLength idx size

/-- What a claim stores once it has room: its intent, the new tail, the padding record in front
    of a wrap, and the header of its record.  It returns the index of the record.  The three rings
    make the same stores here; the compare-and-swap on the tail cannot fail while nothing else
    runs. -/
def take (cap : Nat) (slot : Option Nat) (typ : Word) (recordLen aligned need : Nat) : Buf × Nat :=
  let index := b.tail % cap
  let moved := { b.intend slot need with tail := add64 b.tail need }
  if need ≠ aligned then ((moved.padRecord index (cap - index)).openRecord 0 typ recordLen, 0)
  else (moved.openRecord index typ recordLen, index)

/-- Head, cached head and tail. -/
def cursors : Nat × Nat × Nat := (b.head, b.headCache, b.tail)

@[simp] theorem cursors_storeLength (i : Nat) (v : Int) :
    (b.storeLength i v).cursors = b.cursors := rfl

@[simp] theorem cursors_storeType (i : Nat) (v : Word) : (b.storeType i v).cursors = b.cursors := rfl

@[simp] theorem cursors_copy (i : Nat) (p : List UInt8) : (b.copy i p).cursors = b.cursors := rfl

@[simp] theorem cursors_storeAt (i v : Nat) : (b.storeAt i v).cursors = b.cursors := rfl

@[simp] theorem cursors_storeOwner (i v : Nat) : (b.storeOwner i v).cursors = b.cursors := rfl

@[simp] theorem cursors_release (slot : Option Nat) : (b.release slot).cursors = b.cursors := by
  cases slot <;> rfl

@[simp] theorem cursors_openRecord (i : Nat) (typ : Word) (n : Nat) :
    (b.openRecord i typ n).cursors = b.cursors := rfl

@[simp] theorem cursors_padRecord (i n : Nat) : (b.padRecord i n).cursors = b.cursors := rfl

/-- A claim moves the tail only. -/
theorem cursors_take (cap : Nat) (slot : Option Nat) (typ : Word) (recordLen aligned need : Nat) :
    (b.take cap slot typ recordLen aligned need).1.cursors =
      (b.head, b.headCache, add64 b.tail need) := by
  unfold take
  generalize add64 b.tail need = tail
  have hmoved : ({ b.intend slot need with tail := tail } : Buf).cursors =
      (b.head, b.headCache, tail) := by cases slot <;> rfl
  split <;> simpa using hmoved

end Buf

/-! ### Operations -/

/-- What a call may fail with. -/
inductive Fault
  | tooSmall
  | unaligned
  | invalid
  | reservedType
  | messageTooLarge
  | full
  | corrupt
  | tooManyClaims
  | buffer
  | empty
  | peerGone
deriving DecidableEq

/-- A type and a payload passed to the callback of a read. -/
abbrev Message := Word × List UInt8

/-- A reserved region of the ring (`Claim` in the source). -/
structure Claim where
  index : Nat
  total : Nat
  slot : Option Nat
deriving DecidableEq

/-- What becomes of an open claim. -/
inductive Then
  | commit
  | abort
  | none
deriving DecidableEq

/-- The operations of the ring vectors. -/
inductive Op
  | acquire (owner : Nat)
  | drop (owner : Nat) (slot : Fin claimSlots)
  | write (slot : Option (Fin claimSlots)) (typ : Word) (payload : List UInt8)
  | claim (slot : Option (Fin claimSlots)) (typ : Word) (payload : List UInt8) (t : Then)
  | read (limit : Int)

/-- What an operation returned, with the records it passed to its callback. -/
inductive Outcome
  | done
  | slot (i : Nat)
  | records (out : List Message) (err : Option Fault)
  | failed (f : Fault)
deriving DecidableEq

/-- One implementation of the ring over a data region of a fixed capacity. -/
structure Impl where
  tryClaim : Nat → Option Nat → Word → Nat → Buf → Option (Buf × Except Fault Claim)
  commit : Claim → Buf → Buf
  abort : Claim → Buf → Buf
  read : Nat → Int → Buf → Option (Buf × List Message × Option Fault)
  acquireSlot : Nat → (Nat → Bool) → Buf → Buf × Except Fault Nat
  dropSlot : Nat → Nat → Buf → Buf

/-- The slot a search found goes to `self`; without one every slot is held. -/
def Buf.acquired (b : Buf) (self : Nat) : Option Nat → Buf × Except Fault Nat
  | some i => ((b.storeOwner i self).storeAt i noIntent, .ok i)
  | none => (b, .error .tooManyClaims)

namespace Impl

variable (I : Impl)

/-- What follows the attempt to claim: fill the claim, and go on with `t`. -/
def finish (payload : List UInt8) (t : Then) : Buf × Except Fault Claim → Buf × Outcome
  | (b, .error f) => (b, .failed f)
  | (b, .ok c) =>
    let b := b.copy (c.index + recordHeaderSize) payload
    (match t with
      | .commit => I.commit c b
      | .abort => I.abort c b
      | .none => b, .done)

/-- Open a claim under a slot or none, fill it, and go on with `t`. -/
def claimThen (fuel : Nat) (slot : Option (Fin claimSlots)) (typ : Word) (payload : List UInt8)
    (t : Then) (b : Buf) : Option (Buf × Outcome) :=
  (I.tryClaim fuel (slot.map Fin.val) typ payload.length b).map (I.finish payload t)

/-- One operation.  No owner of a slot is dead. -/
def step (fuel : Nat) (b : Buf) : Op → Option (Buf × Outcome)
  | .acquire owner =>
      let r := I.acquireSlot owner (fun _ => false) b
      some (r.1, match r.2 with | .ok i => .slot i | .error f => .failed f)
  | .drop owner slot => some (I.dropSlot owner slot b, .done)
  | .write slot typ payload => I.claimThen fuel slot typ payload .commit b
  | .claim slot typ payload t => I.claimThen fuel slot typ payload t b
  | .read limit => (I.read fuel limit b).map fun r => (r.1, .records r.2.1 r.2.2)

/-- A sequence of operations, with what each returned. -/
def run (fuel : Nat) : Buf → List Op → Option (Buf × List Outcome)
  | b, [] => some (b, [])
  | b, op :: ops => (I.step fuel b op).bind fun r =>
      (run fuel r.1 ops).map fun rest => (rest.1, r.2 :: rest.2)

end Impl

/-- Format a region and run `ops` on it, with the format and the calls of one implementation. -/
def replayWith (init : Region → Nat → Except Fault (Nat × Buf)) (impl : Nat → Impl) (fuel : Nat)
    (R : Region) (consumer : Nat) (ops : List Op) : Option (Except Fault (Buf × List Outcome)) :=
  match init R consumer with
  | .error f => some (.error f)
  | .ok (cap, b) => ((impl cap).run fuel b ops).map .ok

end GoIpc.Seq
