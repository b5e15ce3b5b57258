import GoIpc.Seq.Sound

namespace GoIpc.Seq

open GoIpc.Lib
open GoIpc.Ring (Word Capacity claimSlots noIntent typePadding recordHeaderSize need_eq)

/-!
# The three rings are one machine

* `CRing.step_eq`, `CppRing.step_eq` — from a sound buffer one operation does the same on the
  three rings;
* `GoRing.step_sound` — it returns, and leaves a sound buffer;
* `rings_agree` — **agreement**: from the format on, every sequence of operations that keeps the
  tail below `2^64` returns the same results and leaves the same buffer;
* `rings_part_after_wrap` — past the end of the 64-bit range they part: the Go ring compares
  the wrapped tail with the head and starts its loop again for ever, the C ring subtracts.
-/

variable {C : Capacity} {b : Buf} {fuel : Nat}

/-! ### One operation -/

/-- Two implementations that agree on the calls an operation makes agree on the operation. -/
theorem Impl.step_congr {I J : Impl} {op : Op}
    (hclaim : ∀ slot typ length, I.tryClaim fuel slot typ length b = J.tryClaim fuel slot typ length b)
    (hcommit : I.commit = J.commit) (habort : I.abort = J.abort)
    (hread : ∀ limit, op = .read limit → I.read fuel limit b = J.read fuel limit b)
    (hacquire : I.acquireSlot = J.acquireSlot) (hdrop : I.dropSlot = J.dropSlot) :
    I.step fuel b op = J.step fuel b op := by
  have hfinish : I.finish = J.finish := by
    funext payload t r
    simp only [Impl.finish, hcommit, habort]
  cases op with
  | acquire owner => simp only [Impl.step, hacquire]
  | drop owner slot => simp only [Impl.step, hdrop]
  | write slot typ payload => simp only [Impl.step, Impl.claimThen, hclaim, hfinish]
  | claim slot typ payload t => simp only [Impl.step, Impl.claimThen, hclaim, hfinish]
  | read limit => simp only [Impl.step, hread limit rfl]

/-- The records of a sound buffer are fewer than its bytes. -/
theorem Standing.length_lt {segs : List Seg} {stop : Nat} (h : Standing C b segs stop)
    (hfuel : C.size ≤ fuel) : segs.length < fuel := by
  have := h.chain.length_le
  have := h.stop_le
  have := h.lap
  have := C.min
  omega

theorem CRing.step_eq (h : Sound C b) (hfuel : C.size ≤ fuel) (op : Op) :
    (CRing.impl C.size).step fuel b op = (GoRing.impl C.size).step fuel b op := by
  obtain ⟨segs, stop, hs⟩ := h.standing
  have hmin := C.min
  refine Impl.step_congr (fun slot typ length => ?_) rfl rfl (fun limit _ => ?_) ?_ rfl
  · exact (CRing.ringTryClaim_eq h.cache hs.head_le (by omega) hs.lap hs.word slot typ length).trans
      (GoRing.tryClaim_eq h.cache hs.head_le (by omega) slot typ length).symm
  · exact (CRing.ringRead_eq hs (hs.length_lt hfuel) limit).trans
      (GoRing.read_eq hs (hs.length_lt hfuel) limit).symm
  · funext self dead b
    simp only [CRing.impl, GoRing.impl, CRing.ringAcquireSlot, GoRing.acquireSlot, not_or, ne_eq]

theorem CppRing.step_eq (h : Sound C b) (hfuel : C.size ≤ fuel) {op : Op} (hop : op.Sized) :
    (CppRing.impl C.size).step fuel b op = (GoRing.impl C.size).step fuel b op := by
  obtain ⟨segs, stop, hs⟩ := h.standing
  have hmin := C.min
  refine Impl.step_congr (fun slot typ length => ?_) rfl rfl (fun limit hread => ?_) ?_ rfl
  · exact (CppRing.claimRecord_eq h.cache hs.head_le (by omega) slot typ length).trans
      (GoRing.tryClaim_eq h.cache hs.head_le (by omega) slot typ length).symm
  · subst hread
    exact (CppRing.read_eq hs (hs.length_lt hfuel) hop.1 hop.2).trans
      (GoRing.read_eq hs (hs.length_lt hfuel) limit).symm
  · funext self dead b
    simp only [CppRing.impl, GoRing.impl, CppRing.acquireSlot, GoRing.acquireSlot, not_or, ne_eq]

/-- A change of the slots only keeps the invariant. -/
theorem Sound.slots {b' : Buf} (h : Sound C b) (hcur : b'.cursors = b.cursors)
    (hdata : b'.data = b.data) : Sound C b' := by
  simp only [Buf.cursors, Prod.mk.injEq] at hcur
  obtain ⟨hhead, hcache, htail⟩ := hcur
  exact h.congr (by rw [hcache, hhead]; exact h.cache) hhead htail hdata

/-- A claim, in whatever way it ends, returns and keeps the invariant. -/
theorem GoRing.claimThen_sound (h : Sound C b) (hfuel : C.size ≤ fuel)
    (slot : Option (Fin claimSlots)) (typ : Word) (payload : List UInt8) (t : Then)
    (hfit : b.tail + Ring.need C b.tail (recordSpan payload) < 2 ^ 64) :
    ∃ r, (GoRing.impl C.size).claimThen fuel slot typ payload t b = some r ∧ Sound C r.1 ∧
      r.1.tail ≤ b.tail + Ring.need C b.tail (recordSpan payload) := by
  have hmin := C.min
  have hr8 : recordHeaderSize = 8 := rfl
  obtain ⟨segs, stop, hs⟩ := h.standing
  refine ⟨_, by
    simp only [Impl.claimThen, GoRing.impl]
    rw [GoRing.tryClaim_eq h.cache hs.head_le (by omega), Option.map_some], ?_⟩
  -- with room, from the buffer itself or from the one with a fresh cached head
  have hroom : ∀ b' : Buf, Sound C b' → b'.head = b.head → b'.tail = b.tail →
      payload.length ≤ C.size / 2 - 8 →
      b.tail + Ring.need C b.tail (recordSpan payload) ≤ b.head + C.size →
      Sound C ((GoRing.impl C.size).finish payload t
        (claimed C (slot.map Fin.val) typ (recordHeaderSize + payload.length) b')).1 ∧
      ((GoRing.impl C.size).finish payload t
        (claimed C (slot.map Fin.val) typ (recordHeaderSize + payload.length) b')).1.tail ≤
          b.tail + Ring.need C b.tail (recordSpan payload) := by
    intro b' h' hhead htail hsmall hlap
    have hroom : Room payload C b' :=
      ⟨hsmall, by rw [htail, hhead, padFor, htail, ← need_eq]; exact hlap,
        by rw [padFor, htail, ← need_eq]; exact hfit⟩
    obtain ⟨_, _, hs'⟩ := h'.standing
    obtain ⟨hidx, hf⟩ := filled_take h'.tail_mod hs'.head_le hroom (slot.map Fin.val) typ
    simp only [claimed, Impl.finish]
    rw [show Ring.align (recordHeaderSize + payload.length) = recordSpan payload from rfl, hidx]
    refine ⟨h'.filled hroom hf _ t, ?_⟩
    refine (congrArg (·.2.2) (filled_cursors hf (slot.map Fin.val) t)).le.trans ?_
    show b'.tail + (padFor payload C b' + recordSpan payload) ≤ _
    rw [padFor, htail, ← need_eq]
  have hcache := h.cache
  unfold claimSpec
  split_ifs with h1 h2
  · exact ⟨h, Nat.le_add_right _ _⟩
  · exact ⟨h, Nat.le_add_right _ _⟩
  · simp only
    split_ifs with h3 h4
    · exact hroom b h rfl rfl (by omega) (h3.trans (by omega))
    · exact hroom _ (h.congr le_rfl rfl rfl rfl) rfl rfl (by omega) h4
    · have hcur := b.cursors_release (slot.map Fin.val)
      exact ⟨h.slots hcur (by cases slot <;> rfl),
        (congrArg (·.2.2) hcur).le.trans (Nat.le_add_right _ _)⟩

/-- One operation of the Go ring returns and keeps the invariant, as long as the bytes it claims
    end below `2^64`; it moves the tail by no more than those. -/
theorem GoRing.step_sound (h : Sound C b) (hfuel : C.size ≤ fuel) (op : Op)
    (hfit : b.tail + op.need C.size b.tail < 2 ^ 64) :
    ∃ r, (GoRing.impl C.size).step fuel b op = some r ∧ Sound C r.1 ∧
      r.1.tail ≤ b.tail + op.need C.size b.tail := by
  have slots : ∀ b' : Buf, b'.cursors = b.cursors → b'.data = b.data →
      Sound C b' ∧ b'.tail ≤ b.tail + 0 := fun b' hcur hdata =>
    ⟨h.slots hcur hdata, (congrArg (·.2.2) hcur).le⟩
  cases op with
  | acquire owner =>
    refine ⟨_, rfl, slots _ ?_ ?_⟩ <;>
      simp only [GoRing.impl, GoRing.acquireSlot, Buf.acquired] <;> split <;> rfl
  | drop owner slot =>
    refine ⟨_, rfl, slots _ ?_ ?_⟩ <;> simp only [GoRing.impl, GoRing.dropSlot] <;> split <;> rfl
  | write slot typ payload => exact GoRing.claimThen_sound h hfuel slot typ payload .commit hfit
  | claim slot typ payload t => exact GoRing.claimThen_sound h hfuel slot typ payload t hfit
  | read limit =>
    obtain ⟨segs, stop, hs⟩ := h.standing
    obtain ⟨rest, _, hrest⟩ := hs.read limit.toNat
    refine ⟨_, by
      simp only [Impl.step, GoRing.impl]
      rw [GoRing.read_eq hs (hs.length_lt hfuel), Option.map_some], ?_, le_rfl⟩
    exact ⟨h.cache.trans (Nat.le_add_right _ _), h.tail_mod, rest, stop, hrest⟩

/-! ### Whole runs -/

/-- Along a run of the Go ring, the bytes every operation claims end below `2^64`. -/
def TailFits (cap fuel : Nat) : Buf → List Op → Prop
  | _, [] => True
  | b, op :: ops => b.tail + op.need cap b.tail < 2 ^ 64 ∧
      ∀ r, (GoRing.impl cap).step fuel b op = some r → TailFits cap fuel r.1 ops

/-- A bound on the bytes an operation claims wherever the tail is. -/
def Op.most : Op → Nat
  | .write _ _ payload | .claim _ _ payload _ => 2 * recordSpan payload
  | _ => 0

theorem Op.need_le_most (op : Op) (cap tail : Nat) : op.need cap tail ≤ op.most := by
  cases op <;> simp only [Op.need, Op.most, recordSpan] <;> first | omega | (split <;> omega)

/-- Operations that claim less than `2^64` bytes between them fit. -/
theorem tailFits_of_total (hfuel : C.size ≤ fuel) (ops : List Op) (h : Sound C b)
    (htotal : b.tail + (ops.map Op.most).sum < 2 ^ 64) : TailFits C.size fuel b ops := by
  induction ops generalizing b with
  | nil => trivial
  | cons op ops ih =>
    rw [List.map_cons, List.sum_cons] at htotal
    have hmost := op.need_le_most C.size b.tail
    have hfit : b.tail + op.need C.size b.tail < 2 ^ 64 := by omega
    obtain ⟨r, hr, hsound, htail⟩ := GoRing.step_sound h hfuel op hfit
    refine ⟨hfit, fun r' hr' => ?_⟩
    obtain rfl : r = r' := Option.some.inj (hr.symm.trans hr')
    exact ih hsound (by omega)

/-- From a sound buffer the three rings return the same, and leave the same buffer. -/
theorem run_agree (hfuel : C.size ≤ fuel) (ops : List Op) (h : Sound C b)
    (hfit : TailFits C.size fuel b ops) :
    ∃ r, (GoRing.impl C.size).run fuel b ops = some r ∧
      (CRing.impl C.size).run fuel b ops = some r ∧
      ((∀ op ∈ ops, op.Sized) → (CppRing.impl C.size).run fuel b ops = some r) := by
  induction ops generalizing b with
  | nil => exact ⟨_, rfl, rfl, fun _ => rfl⟩
  | cons op ops ih =>
    obtain ⟨r, hr, hsound, _⟩ := GoRing.step_sound h hfuel op hfit.1
    obtain ⟨rest, hgo, hc, hcpp⟩ := ih hsound (hfit.2 r hr)
    refine ⟨(rest.1, r.2 :: rest.2), ?_, ?_, fun hops => ?_⟩
    · rw [Impl.run, hr, Option.bind_some, hgo, Option.map_some]
    · rw [Impl.run, CRing.step_eq h hfuel, hr, Option.bind_some, hc, Option.map_some]
    · obtain ⟨hop, hops⟩ := List.forall_mem_cons.mp hops
      rw [Impl.run, CppRing.step_eq h hfuel hop, hr, Option.bind_some, hcpp hops, Option.map_some]

/-! ### The format -/

theorem size_eq_log2 {n : Nat} (h : n ≠ 0) : Nat.size n = Nat.log2 n + 1 := by
  apply Nat.le_antisymm
  · exact Nat.size_le.mpr Nat.lt_log2_self
  · exact Nat.lt_size.mpr (Nat.log2_self_le h)

/-- The three formats accept the same regions and write the same buffer. -/
theorem init_agree (R : Region) (consumer : Nat) :
    CRing.ringInit R consumer = GoRing.initRing R consumer ∧
      CppRing.init R consumer = GoRing.initRing R consumer := by
  have hpos := R.mapped
  have hlen := R.bounded
  unfold CRing.ringInit CRing.checkBuffer CppRing.init CppRing.checkBuffer GoRing.initRing
  rw [if_neg (by omega)]
  by_cases hsmall : R.len < headerSize + minCapacity
  · simp [hsmall]
  · by_cases halign : R.addr % 8 = 0
    · have hroom : R.len - headerSize ≠ 0 := by unfold minCapacity at hsmall; omega
      have hsize := size_eq_log2 hroom
      have hle : Nat.size (R.len - headerSize) ≤ 64 := Nat.size_le.mpr (by omega)
      have hclz : 63 - CRing.clz (R.len - headerSize) = Nat.size (R.len - headerSize) - 1 := by
        unfold CRing.clz
        omega
      have hfloor : CppRing.bitFloor (R.len - headerSize) =
          1 <<< (Nat.size (R.len - headerSize) - 1) := by
        rw [CppRing.bitFloor, if_neg hroom, Nat.one_shiftLeft, hsize, Nat.add_sub_cancel]
      simp only [hsmall, halign, hclz, hfloor, if_false, ne_eq, not_true_eq_false, and_self]
    · simp [hsmall, halign]

/-- A formatted buffer is sound, and its capacity is the largest power of two that fits. -/
theorem init_sound {R : Region} {consumer cap : Nat}
    (h : GoRing.initRing R consumer = .ok (cap, b)) (hlen : R.len < headerSize + 2 ^ 32) :
    ∃ C : Capacity, C.size = cap ∧ Sound C b := by
  unfold GoRing.initRing at h
  split_ifs at h with hsmall halign
  simp only [Except.ok.injEq, Prod.mk.injEq, Nat.one_shiftLeft] at h
  obtain ⟨hcap, rfl⟩ := h
  have hroom : 2 ^ 12 ≤ R.len - headerSize := by unfold minCapacity at hsmall; omega
  have hlo : 12 < Nat.size (R.len - headerSize) := Nat.lt_size.mpr hroom
  have hhi : Nat.size (R.len - headerSize) ≤ 32 := Nat.size_le.mpr (by omega)
  refine ⟨⟨cap, ⟨_, hcap.symm⟩, ?_, ?_⟩, rfl, le_rfl, rfl, [], 0, le_rfl, Nat.zero_le _,
    show 0 < 2 ^ 64 by decide, rfl, rfl, le_rfl, .inl rfl⟩
  · rw [← hcap]
    exact Nat.pow_le_pow_right (show 0 < 2 by omega)
      (show 12 ≤ Nat.size (R.len - headerSize) - 1 by omega)
  · rw [← hcap]
    exact Nat.pow_le_pow_right (by omega) (by omega)

/-! ### Agreement -/

/-- In the run of the Go ring over a region, the bytes every operation claims end below
    `2^64`. -/
def Fits (fuel : Nat) (R : Region) (consumer : Nat) (ops : List Op) : Prop :=
  ∀ cap b, GoRing.initRing R consumer = .ok (cap, b) → TailFits cap fuel b ops

/-- **Agreement.** Over every region with a capacity of at most `2^31`, every sequence of
    operations whose claims end below `2^64` returns, and does the same on the three rings: the
    same results, and the same buffer.  The C++ ring takes its limits as a `size_t`. -/
theorem rings_agree (R : Region) (consumer : Nat) (ops : List Op) (fuel : Nat)
    (hlen : R.len < headerSize + 2 ^ 32) (hfuel : 2 ^ 31 ≤ fuel)
    (hfit : Fits fuel R consumer ops) :
    ∃ r, GoRing.replay fuel R consumer ops = some r ∧ CRing.replay fuel R consumer ops = some r ∧
      ((∀ op ∈ ops, op.Sized) → CppRing.replay fuel R consumer ops = some r) := by
  obtain ⟨hc, hcpp⟩ := init_agree R consumer
  unfold GoRing.replay CRing.replay CppRing.replay replayWith
  rw [hc, hcpp]
  match h : GoRing.initRing R consumer with
  | .error f => exact ⟨_, rfl, rfl, fun _ => rfl⟩
  | .ok (cap, b) =>
    obtain ⟨C, rfl, hsound⟩ := init_sound h hlen
    obtain ⟨r, hgo, hcr, hcppr⟩ := run_agree (C.max.trans hfuel) ops hsound (hfit _ _ h)
    exact ⟨.ok r, by simp only [hgo, Option.map_some], by simp only [hcr, Option.map_some],
      fun hops => by simp only [hcppr hops, Option.map_some]⟩

/-- A region for the smallest ring. -/
def smallRegion : Region where
  addr := 4096
  len := headerSize + 4096
  held := ⟨0, 0, 0, 0, 0, 0, 0, 0, 0, 0, fun _ => ⟨0, 0, 0⟩, fun _ => 0⟩
  mapped := by decide
  bounded := by decide

/-- A claim committed under a slot, one aborted without, and a read. -/
def sample : List Op :=
  [.acquire 9, .write (some ⟨0, by decide⟩) 7 [1, 2, 3], .claim none 8 [4] .abort, .read 4]

theorem rings_agree_sample : ∃ r, GoRing.replay (2 ^ 31) smallRegion 5 sample = some r ∧
    CRing.replay (2 ^ 31) smallRegion 5 sample = some r ∧
    ((∀ op ∈ sample, op.Sized) → CppRing.replay (2 ^ 31) smallRegion 5 sample = some r) :=
  rings_agree smallRegion 5 sample (2 ^ 31) (by decide) le_rfl fun cap b h => by
    obtain ⟨C, rfl, hsound⟩ := init_sound h (by decide)
    have hstart : b.tail = 0 := by
      unfold GoRing.initRing at h
      split_ifs at h
      simp only [Except.ok.injEq, Prod.mk.injEq] at h
      rw [← h.2]
      rfl
    exact tailFits_of_total C.max _ hsound (by rw [hstart]; decide)

/-! ### Past the end of the range -/

theorem Impl.run_append (I : Impl) (ops ops' : List Op) :
    I.run fuel b (ops ++ ops') = (I.run fuel b ops).bind fun r =>
      (I.run fuel r.1 ops').map fun s => (s.1, r.2 ++ s.2) := by
  induction ops generalizing b with
  | nil => simp [Impl.run]
  | cons op ops ih =>
    simp only [List.cons_append, Impl.run]
    cases I.step fuel b op with
    | none => rfl
    | some r =>
      simp only [Option.bind_some, ih]
      cases I.run fuel r.1 ops with
      | none => rfl
      | some s => simp [Function.comp_def]

/-- A record committed behind a chain that reaches the tail: the chain reaches the new tail. -/
theorem Standing.commit {segs : List Seg} {payload : List UInt8} (h : Standing C b segs b.tail)
    (hmod : b.tail % 8 = 0) (hroom : Room payload C b) (slot : Option Nat) (typ : Word) :
    ((GoRing.impl C.size).finish payload .commit
        (claimed C slot typ (recordHeaderSize + payload.length) b)).1.cursors =
          (b.head, b.headCache, b.tail + (padFor payload C b + recordSpan payload)) ∧
      ∃ segs, Standing C ((GoRing.impl C.size).finish payload .commit
        (claimed C slot typ (recordHeaderSize + payload.length) b)).1 segs
          (b.tail + (padFor payload C b + recordSpan payload)) := by
  obtain ⟨hidx, hf⟩ := filled_take hmod h.head_le hroom slot typ
  obtain ⟨ho, hstored⟩ := hf.commit hroom hmod h.head_le slot
  obtain ⟨_, _, _, hmax, _, _⟩ := recordSpan_facts (b := b) hroom.small
  have hlap := hroom.lap
  have hword := hroom.word
  have hcur := filled_cursors hf slot .commit
  simp only [claimed, Impl.finish]
  rw [show Ring.align (recordHeaderSize + payload.length) = recordSpan payload from rfl, hidx]
  refine ⟨hcur, ?_⟩
  simp only [Buf.cursors, Prod.mk.injEq] at hcur
  obtain ⟨hh, _, ht⟩ := hcur
  rw [← ht]
  exact h.extend_record hmod hh ht (ht.le.trans hlap) (lt_of_eq_of_lt ht hword) hmax ho hstored rfl

/-- A payload whose record is half the smallest ring, written and read. -/
def turn (payload : List UInt8) : List Op := [.write none 0 payload, .read 256]

/-- After `n` turns the ring is empty and both cursors are at `2048 n`. -/
structure Turned (n : Nat) (b : Buf) : Prop where
  cache : b.headCache ≤ b.head
  tail : b.tail = 2048 * n
  standing : Standing .smallest b [] b.tail

namespace Turned

variable {n : Nat} {payload : List UInt8} (h : Turned n b) (hp : payload.length = 2040)
include h

theorem head : b.head = 2048 * n := h.standing.chain.trans h.tail

theorem sound : Sound .smallest b :=
  ⟨h.cache, by rw [h.tail]; omega, _, _, h.standing⟩

include hp

theorem need : Ring.need .smallest b.tail (recordSpan payload) = 2048 := by
  have hspan : recordSpan payload = 2048 := by
    unfold recordSpan
    rw [hp]
    rfl
  have hmod : 2048 * n % 4096 ≤ 2048 := by omega
  rw [h.tail, hspan]
  exact if_neg (show ¬ 4096 - 2048 * n % 4096 < 2048 by omega)

/-- With the ring empty half of it has room; the cached head is then less than a lap behind. -/
theorem claimSpec_eq : ∃ b', Turned n b' ∧ b.tail + 2048 ≤ b'.headCache + 4096 ∧
    claimSpec .smallest none 0 payload.length b =
      claimed .smallest none 0 (recordHeaderSize + payload.length) b' := by
  have hneed : Ring.need .smallest b.tail (Ring.align (recordHeaderSize + payload.length)) = 2048 :=
    h.need hp
  have hhead : b.head = b.tail := h.standing.chain
  unfold claimSpec
  rw [if_neg (by decide), if_neg (by rw [hp]; decide)]
  simp only [hneed]
  by_cases hroom : b.tail + 2048 ≤ b.headCache + 4096
  · exact ⟨b, h, hroom, if_pos hroom⟩
  · refine ⟨{ b with headCache := b.head }, ⟨le_rfl, h.tail, ?_⟩, ?_, ?_⟩
    · exact ⟨h.standing.head_le, h.standing.lap, h.standing.word, h.standing.head_mod,
        h.standing.chain, h.standing.stop_le, h.standing.blocked⟩
    · show b.tail + 2048 ≤ b.head + 4096
      omega
    · exact (if_neg hroom).trans (if_pos (show b.tail + 2048 ≤ b.head + 4096 by omega))

/-- The write of a turn, on both rings. -/
theorem write (hfuel : 4096 ≤ fuel) : ∃ b', Turned n b' ∧ b.tail + 2048 ≤ b'.headCache + 4096 ∧
    (GoRing.impl 4096).step fuel b (.write none 0 payload) =
      some ((GoRing.impl 4096).finish payload .commit
        (claimed .smallest none 0 (recordHeaderSize + payload.length) b')) ∧
    (CRing.impl 4096).step fuel b (.write none 0 payload) =
      some ((GoRing.impl 4096).finish payload .commit
        (claimed .smallest none 0 (recordHeaderSize + payload.length) b')) := by
  obtain ⟨b', h', hroom, heq⟩ := h.claimSpec_eq hp
  have hgo : (GoRing.impl 4096).step fuel b (.write none 0 payload) =
      some ((GoRing.impl 4096).finish payload .commit
        (claimed .smallest none 0 (recordHeaderSize + payload.length) b')) := by
    have hclaim : GoRing.tryClaim 4096 fuel none 0 payload.length b = _ :=
      GoRing.tryClaim_eq (C := .smallest) h.cache h.standing.head_le (by omega) none 0 _
    simp only [Impl.step, Impl.claimThen, Option.map_none]
    rw [show (GoRing.impl 4096).tryClaim fuel none 0 payload.length b = _ from hclaim, heq]
    rfl
  exact ⟨b', h', hroom, hgo, (CRing.step_eq h.sound hfuel _).trans hgo⟩

/-- One turn, on both rings. -/
theorem turn (hfuel : 4096 ≤ fuel) (hword : 2048 * (n + 1) < 2 ^ 64) :
    ∃ r, (GoRing.impl 4096).run fuel b (turn payload) = some r ∧
      (CRing.impl 4096).run fuel b (turn payload) = some r ∧ Turned (n + 1) r.1 := by
  obtain ⟨b', h', _, hgo, hc⟩ := h.write hp hfuel
  have htail := h'.tail
  have hhead := h'.head
  have hpad : padFor payload .smallest b' + recordSpan payload = 2048 := by
    rw [padFor, ← need_eq, h'.need hp]
  have hroom : Room payload .smallest b' :=
    ⟨by rw [hp]; decide, by rw [hpad]; show _ ≤ _ + 4096; omega, by rw [hpad]; omega⟩
  obtain ⟨hcur, segs, hs⟩ := h'.standing.commit h'.sound.tail_mod hroom none 0
  rw [hpad] at hcur hs
  change ((GoRing.impl 4096).finish _ _ _).1.cursors = _ at hcur
  change Standing _ ((GoRing.impl 4096).finish _ _ _).1 _ _ at hs
  generalize (GoRing.impl 4096).finish payload .commit
    (claimed .smallest none 0 (recordHeaderSize + payload.length) b') = w at hgo hc hcur hs
  simp only [Buf.cursors, Prod.mk.injEq] at hcur
  obtain ⟨hh, hca, ht⟩ := hcur
  have hlen : segs.length ≤ 256 := by
    have := hs.chain.length_le
    omega
  have hsound : Sound .smallest w.1 := ⟨by rw [hca, hh]; exact h'.cache, by omega, _, _, hs⟩
  -- every record is read, so the head comes to the tail again
  have hread : (GoRing.impl 4096).step fuel w.1 (.read 256) =
      some ((readSpec .smallest 256 segs w.1).1, .records (readSpec .smallest 256 segs w.1).2.1
        (readSpec .smallest 256 segs w.1).2.2) := by
    have := GoRing.read_eq hs (hs.length_lt hfuel) 256
    simp only [Impl.step]
    rw [show (GoRing.impl 4096).read fuel 256 w.1 = _ from this]
    rfl
  obtain ⟨rest, hrest, hstand⟩ := hs.read 256
  rw [readable_of_length_le hlen, List.self_eq_append_right] at hrest
  subst hrest
  refine ⟨((readSpec .smallest 256 segs w.1).1, [w.2, .records (readSpec .smallest 256 segs w.1).2.1
    (readSpec .smallest 256 segs w.1).2.2]), ?_, ?_, ?_, ?_, ?_⟩
  · simp only [Seq.turn, Impl.run, hgo, hread, Option.bind_some, Option.map_some]
  · simp only [Seq.turn, Impl.run, hc]
    rw [Option.bind_some, show (CRing.impl 4096).step fuel w.1 (.read 256) = _ from
      (CRing.step_eq hsound hfuel _).trans hread]
    rfl
  · exact hsound.cache.trans (Nat.le_add_right _ _)
  · exact ht.trans (by omega)
  · exact ht ▸ hstand

/-- Any number of turns below the end of the range. -/
theorem turns (hfuel : 4096 ≤ fuel) (k : Nat) (hword : 2048 * (n + k) < 2 ^ 64) :
    ∃ r, (GoRing.impl 4096).run fuel b (List.replicate k (Seq.turn payload)).flatten = some r ∧
      (CRing.impl 4096).run fuel b (List.replicate k (Seq.turn payload)).flatten = some r ∧
      Turned (n + k) r.1 := by
  induction k generalizing n b with
  | zero => exact ⟨(b, []), rfl, rfl, h⟩
  | succ k ih =>
    obtain ⟨r, hgo, hc, hr⟩ := h.turn hp hfuel (by omega)
    obtain ⟨r', hgo', hc', hr'⟩ := ih hr (by omega)
    refine ⟨(r'.1, r.2 ++ r'.2), ?_, ?_, by rwa [Nat.add_right_comm] at hr'⟩
    · rw [List.replicate_succ, List.flatten_cons, Impl.run_append, hgo, Option.bind_some, hgo',
        Option.map_some]
    · rw [List.replicate_succ, List.flatten_cons, Impl.run_append, hc, Option.bind_some, hc',
        Option.map_some]

end Turned

section Wrapped

variable {cap : Nat} {slot : Option (Fin claimSlots)} {typ : Word} {payload : List UInt8}

/-- Behind a wrapped tail the loop of the Go ring starts again and again. -/
theorem GoRing.claimLoop_wrapped {slot : Option Nat} {recordLen : Nat}
    (hcache : b.tail < b.headCache) (hhead : b.tail < b.head) (fuel : Nat) :
    GoRing.claimLoop cap slot typ recordLen fuel b = none := by
  induction fuel with
  | zero => rfl
  | succ fuel ih =>
    have hroom : ∀ need, Ring.hasRoom b.tail b.headCache cap need = false := by
      intro need
      simp [Ring.hasRoom, hcache]
    rw [GoRing.claimLoop]
    simp only [hroom, Bool.false_eq_true, if_false]
    rw [if_pos hhead, ih]

theorem GoRing.write_wrapped (hcache : b.tail < b.headCache) (hhead : b.tail < b.head)
    (htyp : typ ≠ typePadding) (hlen : payload.length ≤ GoRing.maxMessageSize cap) (fuel : Nat) :
    (GoRing.impl cap).step fuel b (.write slot typ payload) = none := by
  simp only [Impl.step, Impl.claimThen, GoRing.impl, GoRing.tryClaim, if_neg htyp,
    if_neg (Nat.not_lt.mpr hlen), GoRing.claimLoop_wrapped hcache hhead, Option.map_none]

/-- The C ring takes the difference to a head less than `2^63` behind, and returns. -/
theorem CRing.claimLoop_wrapped {slot : Option Nat} {recordLen : Nat}
    (hused : sub64 b.tail b.head < 2 ^ 63) (hfuel : 0 < fuel) :
    ∃ r, CRing.claimLoop cap slot typ recordLen fuel b = some r := by
  obtain ⟨fuel, rfl⟩ : ∃ n, fuel = n + 1 := ⟨fuel - 1, by omega⟩
  have hsign : CRing.isNegative (sub64 b.tail b.head) = false :=
    decide_eq_false (by omega)
  rw [CRing.claimLoop]
  simp only [hsign, Bool.false_eq_true, if_false]
  split_ifs <;> exact ⟨_, rfl⟩

theorem CRing.write_wrapped (hused : sub64 b.tail b.head < 2 ^ 63) (hfuel : 0 < fuel)
    (htyp : typ ≠ typePadding) (hlen : payload.length ≤ CRing.ringMaxMessageSize cap) :
    ∃ r, (CRing.impl cap).step fuel b (.write slot typ payload) = some r := by
  obtain ⟨r, hr⟩ : ∃ r, CRing.claimLoop cap (slot.map Fin.val) typ
    (recordHeaderSize + payload.length) fuel b = some r := CRing.claimLoop_wrapped hused hfuel
  refine ⟨(CRing.impl cap).finish payload .commit r, ?_⟩
  simp only [Impl.step, Impl.claimThen, CRing.impl, CRing.ringTryClaim, if_neg htyp,
    if_neg (Nat.not_lt.mpr hlen), hr, Option.map_some]

end Wrapped

/-- The cursors after a claim, whether or not the tail wraps. -/
theorem claimed_cursors (slot : Option Nat) (typ : Word) (payload : List UInt8) :
    ((GoRing.impl C.size).finish payload .commit
      (claimed C slot typ (recordHeaderSize + payload.length) b)).1.cursors =
        (b.head, b.headCache, add64 b.tail (Ring.need C b.tail (recordSpan payload))) := by
  rw [← b.cursors_take C.size slot typ (recordHeaderSize + payload.length) (recordSpan payload)]
  exact ((Buf.cursors_release _ _).trans (Buf.cursors_storeLength _ _ _)).trans
    (Buf.cursors_copy _ _ _)

/-- The payload and the operations that take the smallest ring to the end of the range: all
    turns but the last, a record that ends there, and one more. -/
def wrapOps : List Op :=
  (List.replicate (2 ^ 53 - 1) (turn (List.replicate 2040 0))).flatten ++
    [Op.write none 0 (List.replicate 2040 0), .write none 0 (List.replicate 2040 0)]

/-- **The rings part past the end of the range.**  After `2^53 - 1` records of half the ring, each
    read at once, the next one wraps the tail; then the Go ring never returns from a claim, which
    the C ring grants. -/
theorem rings_part_after_wrap :
    (∀ fuel, 4096 ≤ fuel → GoRing.replay fuel smallRegion 0 wrapOps = none) ∧
      ∀ fuel, 4096 ≤ fuel → ∃ r, CRing.replay fuel smallRegion 0 wrapOps = some (.ok r) := by
  refine forall₂_and.mp fun fuel hfuel => ?_
  unfold wrapOps
  have hp : (List.replicate 2040 (0 : UInt8)).length = 2040 := List.length_replicate
  generalize List.replicate 2040 (0 : UInt8) = payload at hp
  -- the formatted ring, and the ring after the turns
  have hinit : GoRing.initRing smallRegion 0 = .ok (4096,
      (smallRegion.held.wiped smallRegion.len).formatted 4096 0) := rfl
  have hstart : Turned 0 ((smallRegion.held.wiped smallRegion.len).formatted 4096 0) :=
    ⟨le_rfl, rfl, le_rfl, Nat.zero_le _, show 0 < 2 ^ 64 by decide, rfl, rfl, le_rfl, .inl rfl⟩
  generalize (smallRegion.held.wiped smallRegion.len).formatted 4096 0 = b at hinit hstart
  obtain ⟨r, hgo, hc, hr⟩ := hstart.turns hp hfuel (2 ^ 53 - 1) (by omega)
  -- the record that ends at the end of the range
  obtain ⟨b', h', hcache, hgow, hcw⟩ := hr.write hp hfuel
  have hcur := claimed_cursors (b := b') (C := .smallest) none 0 payload
  change ((GoRing.impl 4096).finish _ _ _).1.cursors = _ at hcur
  generalize (GoRing.impl 4096).finish payload .commit
    (claimed .smallest none 0 (recordHeaderSize + payload.length) b') = w at hgow hcw hcur
  have htail := h'.tail
  have hhead := h'.head
  have htail' := hr.tail
  rw [h'.need hp, h'.tail, h'.head, show add64 (2048 * (0 + (2 ^ 53 - 1))) 2048 = 0 from rfl] at hcur
  simp only [Buf.cursors, Prod.mk.injEq] at hcur
  obtain ⟨hh, hca, ht⟩ := hcur
  -- the claim behind it
  have hused : sub64 w.1.tail w.1.head < 2 ^ 63 := by
    rw [ht, hh]
    decide
  have hgo2 : (GoRing.impl 4096).step fuel w.1 (.write none 0 payload) = none :=
    GoRing.write_wrapped (by omega) (by omega) (by decide) (by rw [hp]; decide) fuel
  obtain ⟨r2, hc2⟩ : ∃ r, (CRing.impl 4096).step fuel w.1 (.write none 0 payload) = some r :=
    CRing.write_wrapped hused (by omega) (by decide) (by rw [hp]; decide)
  unfold GoRing.replay CRing.replay replayWith
  rw [(init_agree smallRegion 0).1, hinit]
  refine ⟨?_, (r2.1, r.2 ++ [w.2, r2.2]), ?_⟩
  · simp only [Impl.run_append, hgo, Option.bind_some, Impl.run, hgow, hgo2, Option.bind_none,
      Option.map_none]
  · simp only [Impl.run_append, hc, Option.bind_some, Impl.run, hcw, hc2, Option.map_some]

end GoIpc.Seq
