import GoIpc.Seq.Scan

namespace GoIpc.Seq

open GoIpc.Lib
open GoIpc.Ring (Word Capacity typePadding recordHeaderSize signed)

/-!
# What a read leaves behind

* `reads_consistent` — the head and the cleared bytes after a read of each ring.  The Go and the C ring
  return a corrupt length without storing the head, also when they have cleared records before it
  (`corrupt_then_empty`); the C++ ring stores it on every way out;
* `GoRing.read_safe` — `Read` of the Go ring is safe on every content of the data region.
-/

/-- A read with no limit to reach returns nothing. -/
theorem not_badBehind_of_le {step : Int → Nat} {limit : Int} {refuse : Seg → Option (Option Fault)}
    {cap : Nat} {b : Buf} (h : limit ≤ 0) : ¬ BadBehind step limit refuse cap b := by
  rintro ⟨segs, -, -, -, -, hcount, -⟩
  omega

theorem CRing.refuse_ne {maxlen : Nat} (s : Seg) : CRing.refuse maxlen s ≠ some (some .corrupt) := by
  unfold CRing.refuse
  split_ifs <;> simp

theorem CppRing.refuse_ne {fn : Message → Bool} (s : Seg) :
    CppRing.refuse fn s ≠ some (some .corrupt) := by
  unfold CppRing.refuse
  split_ifs <;> simp

section

variable {cap fuel : Nat} {b : Buf} (hcap : Pow cap)
include hcap

/-! ### A bad header at the head -/

theorem GoRing.read_bad {limit : Int} (hfuel : 0 < fuel) (hlimit : 0 < limit)
    (h : Bad GoRing.align cap b.data (b.head % cap) (sub64 b.tail b.head)) :
    GoRing.read cap fuel limit b = some (b, [], some .corrupt) := by
  rw [GoRing.read, if_neg (by omega), (GoRing.scans hcap).bad hfuel hlimit h]
  rfl

theorem CRing.ringReadInto_bad {limit : Int} {maxlen : Nat} (hfuel : 0 < fuel) (hlimit : 0 < limit)
    (h : Bad CRing.align8 cap b.data (b.head % cap) (sub64 b.tail b.head)) :
    CRing.ringReadInto cap fuel limit maxlen b = some (b, [], some .corrupt) := by
  rw [CRing.ringReadInto, if_neg (by omega), (CRing.scans hcap).bad hfuel hlimit h]
  rfl

theorem CppRing.readAccept_bad {limit : Nat} {fn : Message → Bool} (hfuel : 0 < fuel) (hlimit : 0 < limit)
    (h : Bad (fun n => CppRing.align8 n.toNat) cap b.data (b.head % cap) (sub64 b.tail b.head)) :
    CppRing.readAccept cap fuel limit fn b = some (b, [], some .corrupt) := by
  rw [CppRing.readAccept, if_neg (by omega), (CppRing.scans hcap).bad hfuel (Int.ofNat_lt.mpr hlimit) h]
  rfl

/-! ### The result of each read -/

variable (hb : Window cap b)
include hb

/-- `Read`: the records it stepped over, and the head where it returns no error. -/
theorem GoRing.readTrace_result {limit : Int} {r : Buf × List Slice × Option Fault}
    (h : GoRing.readTrace cap fuel limit b = some r) :
    ∃ segs, Row cap b.data b.head segs ∧ spans segs ≤ sub64 b.tail b.head ∧
      r.2.1 = emitted (GoRing.emit cap) b.head segs ∧
      r.1.data = wipe cap b.data b.head segs ∧ (r.2.2 = none → r.1 = b.passed cap segs) := by
  unfold GoRing.readTrace at h
  split_ifs at h
  · cases h
    exact ⟨[], trivial, Nat.zero_le _, rfl, rfl, fun _ => hb.passed_nil.symm⟩
  · obtain ⟨⟨n, out, data, err⟩, hloop, rfl⟩ := Option.map_eq_some_iff.mp h
    obtain ⟨segs, hrow, hn, hle, -, hout, hdata, -⟩ :=
      (GoRing.scans_trace hcap limit b.head _).result hb.lap (Nat.zero_le _) hloop
    rw [Nat.zero_add] at hn
    subst hn hdata
    refine ⟨segs, hrow, hle, ?_⟩
    cases err with
    | none =>
      refine ⟨hout, rfl, fun _ => ?_⟩
      simp only [hb.stored_head, Nat.add_zero]
      rfl
    | some e => exact ⟨hout, rfl, nofun⟩

/-- The loop of `Read` returns no other error. -/
theorem GoRing.readLoop_error {limit : Int} {n : Nat} {out : List Message} {data : Mem} {e : Fault}
    (h : GoRing.readLoop cap limit b.head (sub64 b.tail b.head) fuel 0 [] b.data =
      some (n, out, data, some e)) : e = .corrupt := by
  obtain ⟨-, -, -, -, -, -, -, hwhy⟩ := (GoRing.scans hcap).result hb.lap (Nat.zero_le _) h
  rcases hwhy with hnone | ⟨hsome, -⟩ | ⟨-, hrefuse⟩
  · cases hnone
  · exact Option.some_inj.mp hsome
  · cases hrefuse

section Loop

variable {step : Int → Nat} {limit : Int} {refuse : Seg → Option (Option Fault)}
  {f : Nat → Nat → List Message → Mem → Scanned Message} {n : Nat} {out : List Message} {data : Mem}
  {err : Option Fault}
  (hf : Scans step limit refuse cap b.head (sub64 b.tail b.head) (fun _ s => s.messages) f)
  (hcorrupt : ∀ s, refuse s ≠ some (some .corrupt))
  (h : f fuel 0 [] b.data = some (n, out, data, err))
include hf hcorrupt h

/-- A loop from the head of the buffer. -/
theorem Window.looped :
    ∃ segs, Row cap b.data b.head segs ∧ n = spans segs ∧ spans segs ≤ sub64 b.tail b.head ∧
      (∀ s ∈ segs, step s.len = s.span ∧ refuse s = none) ∧ out = messages segs ∧
      data = wipe cap b.data b.head segs ∧
      (err = some .corrupt → (messages segs).length < limit ∧
        Bad step cap b.data ((b.head + spans segs) % cap) (sub64 b.tail b.head - spans segs)) := by
  obtain ⟨segs, hrow, hn, hle, htake, hout, hdata, hwhy⟩ := hf.result hb.lap (Nat.zero_le _) h
  rw [Nat.zero_add] at hn
  rw [List.nil_append, emitted_messages] at hout
  subst hn hdata hout
  refine ⟨segs, hrow, rfl, hle, htake, rfl, rfl, fun herr => ?_⟩
  rcases hwhy with hnone | ⟨-, hcount, hbad⟩ | ⟨s, hrefuse⟩
  · rw [hnone] at herr
    cases herr
  · exact ⟨hcount, (hb.bad_wipe hcap hrow).mp hbad⟩
  · exact absurd (herr ▸ hrefuse) (hcorrupt s)

/-- A loop has cleared records and returns a corrupt length just where one stands behind records. -/
theorem Window.corrupt_iff : err = some .corrupt ∧ n ≠ 0 ↔ BadBehind step limit refuse cap b := by
  constructor
  · rintro ⟨herr, hn⟩
    obtain ⟨segs, hrow, rfl, hle, htake, -, -, hbad⟩ := hb.looped hcap hf hcorrupt h
    refine ⟨segs, ?_, hrow, hle, htake, hbad herr⟩
    rintro rfl
    exact hn rfl
  · rintro ⟨segs, hne, hrow, hle, htake, hcount, hbad⟩
    rw [← hb.bad_wipe hcap hrow] at hbad
    have hrow0 : Row cap b.data (b.head + 0) segs := hrow
    obtain ⟨hn, herr⟩ := hf.reaches hb.lap hrow0 (by omega) htake
      (by rwa [List.nil_append, emitted_messages])
      (by rwa [Nat.zero_add]) h
    refine ⟨herr, ?_⟩
    obtain ⟨s, segs, rfl⟩ := List.exists_cons_of_ne_nil hne
    have h8 := s.eight_le_span
    rw [hn, spans_cons]
    omega

/-- A read that stores the head on every way out but that of a corrupt length. -/
theorem Window.consistent_iff (again : Buf → Prop) {r : Buf × List Message × Option Fault}
    (hr : r = (if err = some .corrupt then { b with data := data }
      else { b with data := data, head := add64 b.head n }, out, err))
    (hagain : Bad step cap b.data (b.head % cap) (sub64 b.tail b.head) → again b) :
    (Consistent cap b r ∧ (r.2.2 = some .corrupt → again r.1)) ↔ ¬ BadBehind step limit refuse cap b := by
  rw [← hb.corrupt_iff hcap hf hcorrupt h]
  obtain ⟨segs, hrow, rfl, hle, -, rfl, rfl, hbad⟩ := hb.looped hcap hf hcorrupt h
  subst hr
  by_cases herr : err = some .corrupt
  · simp only [if_pos herr]
    cases segs with
    | nil =>
      -- nothing was cleared, and the next read finds the same header
      rw [spans_nil, Nat.add_zero, Nat.sub_zero] at hbad
      exact ⟨fun _ hn => hn.2 rfl, fun _ =>
        ⟨⟨[], trivial, Nat.zero_le _, rfl, hb.passed_nil.symm⟩, fun _ => hagain (hbad herr).2⟩⟩
    | cons s segs =>
      -- the records are gone and the head is where it was
      refine iff_of_false ?_ fun hn => hn ⟨herr, ?_⟩
      · rintro ⟨⟨segs', hrow', hle', -, hpassed⟩, -⟩
        have hhead : b.head = add64 b.head (spans segs') := congrArg Buf.head hpassed
        have hdata : wipe cap b.data b.head (s :: segs) = wipe cap b.data b.head segs' :=
          congrArg Buf.data hpassed
        have hlap := hb.lap
        have hmax := hcap.le.2
        have hzero : spans segs' = 0 := by
          unfold add64 at hhead
          omega
        cases segs' with
        | nil => exact hb.wipe_ne hrow hle hdata
        | cons s' segs' =>
          have h8 := s'.eight_le_span
          rw [spans_cons] at hzero
          omega
      · have h8 := s.eight_le_span
        rw [spans_cons]
        omega
  · simp only [if_neg herr]
    exact iff_of_true ⟨⟨segs, hrow, hle, rfl, rfl⟩, fun h => absurd h herr⟩ fun hn => herr hn.1

end Loop

/-! ### Consistency -/

theorem GoRing.read_consistent {limit : Int} {r : Buf × List Message × Option Fault}
    (h : GoRing.read cap fuel limit b = some r) :
    (Consistent cap b r ∧ (r.2.2 = some .corrupt → ∀ fuel limit, 0 < fuel → 0 < limit →
      GoRing.read cap fuel limit r.1 = some (r.1, [], some .corrupt))) ↔
    ¬ BadBehind GoRing.align limit (fun _ => none) cap b := by
  unfold GoRing.read at h
  split_ifs at h with hlimit
  · cases h
    exact iff_of_true ⟨⟨[], trivial, Nat.zero_le _, rfl, hb.passed_nil.symm⟩, nofun⟩
      (not_badBehind_of_le hlimit)
  · obtain ⟨⟨n, out, data, err⟩, hloop, rfl⟩ := Option.map_eq_some_iff.mp h
    refine hb.consistent_iff hcap (GoRing.scans hcap) nofun hloop
      (fun b => ∀ fuel limit, 0 < fuel → 0 < limit →
        GoRing.read cap fuel limit b = some (b, [], some .corrupt)) ?_
      fun hbad fuel limit hfuel hlimit => GoRing.read_bad hcap hfuel hlimit hbad
    cases err with
    | none => simp only [hb.stored_head, reduceCtorEq, if_false]
    | some e =>
      obtain rfl := GoRing.readLoop_error hcap hb hloop
      rfl

theorem CRing.read_consistent {limit : Int} {maxlen : Nat} {r : Buf × List Message × Option Fault}
    (h : CRing.ringReadInto cap fuel limit maxlen b = some r) :
    (Consistent cap b r ∧ (r.2.2 = some .corrupt → ∀ fuel limit, 0 < fuel → 0 < limit →
      CRing.ringReadInto cap fuel limit maxlen r.1 = some (r.1, [], some .corrupt))) ↔
    ¬ BadBehind CRing.align8 limit (CRing.refuse maxlen) cap b := by
  unfold CRing.ringReadInto at h
  split_ifs at h with hlimit
  · cases h
    exact iff_of_true ⟨⟨[], trivial, Nat.zero_le _, rfl, hb.passed_nil.symm⟩, nofun⟩
      (not_badBehind_of_le hlimit)
  · obtain ⟨⟨n, out, data, err⟩, hloop, rfl⟩ := Option.map_eq_some_iff.mp h
    refine hb.consistent_iff hcap (CRing.scans hcap) CRing.refuse_ne hloop
      (fun b => ∀ fuel limit, 0 < fuel → 0 < limit →
        CRing.ringReadInto cap fuel limit maxlen b = some (b, [], some .corrupt)) ?_
      fun hbad fuel limit hfuel hlimit => CRing.ringReadInto_bad hcap hfuel hlimit hbad
    by_cases herr : err = some .corrupt
    · subst herr
      rfl
    · rw [if_neg herr]
      split
      next heq =>
        cases heq
        exact absurd rfl herr
      next heq =>
        cases heq
        rw [hb.stored_head]

theorem CppRing.read_consistent {limit : Nat} {fn : Message → Bool}
    {r : Buf × List Message × Option Fault} (h : CppRing.readAccept cap fuel limit fn b = some r) :
    Consistent cap b r ∧ (r.2.2 = some .corrupt → ∀ fuel limit, 0 < fuel → 0 < limit →
      CppRing.readAccept cap fuel limit fn r.1 = some (r.1, [], some .corrupt)) := by
  unfold CppRing.readAccept at h
  split_ifs at h
  · cases h
    exact ⟨⟨[], trivial, Nat.zero_le _, rfl, hb.passed_nil.symm⟩, nofun⟩
  · obtain ⟨⟨n, out, data, err⟩, hloop, rfl⟩ := Option.map_eq_some_iff.mp h
    obtain ⟨segs, hrow, rfl, hle, -, hout, rfl, hbad⟩ :=
      hb.looped hcap (CppRing.scans hcap) CppRing.refuse_ne hloop
    simp only [hb.stored_head]
    refine ⟨⟨segs, hrow, hle, hout, rfl⟩, fun herr fuel limit hfuel hlimit => ?_⟩
    have hbad := (hb.bad_wipe hcap hrow).mpr (hbad herr).2
    exact CppRing.readAccept_bad hcap hfuel hlimit (hb.bad_passed hcap hle hbad)

/-- **Head and cleared bytes**, for the three rings.  The head has moved by the records that the call has
    cleared, these are the records it delivered and padding, and a corrupt length is reported again by
    the next read.  The Go and the C ring do so just if no corrupt length stands behind records that the
    call takes first. -/
theorem reads_consistent :
    (∀ fuel limit r, GoRing.read cap fuel limit b = some r →
      ((Consistent cap b r ∧ (r.2.2 = some .corrupt → ∀ fuel limit, 0 < fuel → 0 < limit →
        GoRing.read cap fuel limit r.1 = some (r.1, [], some .corrupt))) ↔
      ¬ BadBehind GoRing.align limit (fun _ => none) cap b)) ∧
    (∀ fuel limit maxlen r, CRing.ringReadInto cap fuel limit maxlen b = some r →
      ((Consistent cap b r ∧ (r.2.2 = some .corrupt → ∀ fuel limit, 0 < fuel → 0 < limit →
        CRing.ringReadInto cap fuel limit maxlen r.1 = some (r.1, [], some .corrupt))) ↔
      ¬ BadBehind CRing.align8 limit (CRing.refuse maxlen) cap b)) ∧
    (∀ fuel limit fn r, CppRing.readAccept cap fuel limit fn b = some r →
      Consistent cap b r ∧ (r.2.2 = some .corrupt → ∀ fuel limit, 0 < fuel → 0 < limit →
        CppRing.readAccept cap fuel limit fn r.1 = some (r.1, [], some .corrupt))) :=
  ⟨fun _ _ _ h => GoRing.read_consistent hcap hb h,
    fun _ _ _ _ h => CRing.read_consistent hcap hb h,
    fun _ _ _ _ h => CppRing.read_consistent hcap hb h⟩

end

/-- A message of type 1 with an empty payload at index 0, and behind it a header of length `n`. -/
def damaged (n : Int) : Buf where
  magic := ringMagic
  version := ringVersion
  flags := 0
  capacity := 4096
  consumer := 0
  tail := 16
  head := 0
  headCache := 0
  recvWaiters := 0
  sendWaiters := 0
  slots := fun _ => ⟨0, 0, 0⟩
  data := store32 (store32 (store32 (fun _ => 0) 0 8) 4 1) 8 (BitVec.ofInt 32 n)

theorem damaged_window (n : Int) : Window 4096 (damaged n) where
  head_lt := show 0 < 2 ^ 64 by decide
  tail_lt := show 16 < 2 ^ 64 by decide
  head_mod := show 0 % 8 = 0 by decide
  tail_mod := show 16 % 8 = 0 by decide
  lap := show sub64 16 0 ≤ 4096 by decide

/-- The first read delivers the message, finds the length 100 corrupt and leaves the head at 0, where the
    header is cleared now; the second read finds the ring empty.  The C++ ring reports the corrupt length
    again. -/
theorem corrupt_then_empty : Window 4096 (damaged 100) ∧
    (GoRing.read 4096 3 2 (damaged 100)).map (fun r => (r.1.head, r.2)) =
      some (0, [(1, [])], some .corrupt) ∧
    ((GoRing.read 4096 3 2 (damaged 100)).bind fun r => GoRing.read 4096 3 2 r.1).map Prod.snd =
      some ([], none) ∧
    (CRing.ringRead 4096 3 2 (damaged 100)).map (fun r => (r.1.head, r.2)) =
      some (0, [(1, [])], some .corrupt) ∧
    ((CRing.ringRead 4096 3 2 (damaged 100)).bind fun r => CRing.ringRead 4096 3 2 r.1).map Prod.snd =
      some ([], none) ∧
    ((CppRing.read 4096 3 2 (damaged 100)).bind fun r => CppRing.read 4096 3 2 r.1).map Prod.snd =
      some ([], some .corrupt) := by
  refine ⟨damaged_window 100, ?_, ?_, ?_, ?_, ?_⟩ <;> decide +kernel

/-- With no record in front of the corrupt one a read of the Go ring reports it again and again; with one
    in front it does not. -/
theorem reads_consistent_damaged :
    (∃ r, GoRing.read 4096 3 2 { damaged 100 with head := 8 } = some r ∧
      r.2.2 = some .corrupt ∧ GoRing.read 4096 3 2 r.1 = some (r.1, [], some .corrupt)) ∧
    BadBehind GoRing.align 2 (fun _ => none) 4096 (damaged 100) := by
  have hpow : Pow 4096 := ⟨12, by decide, by decide, rfl⟩
  have hb : Window 4096 { damaged 100 with head := 8 } := ⟨by decide, by decide, rfl, rfl, by decide⟩
  have hread : GoRing.read 4096 3 2 { damaged 100 with head := 8 } =
      some ({ damaged 100 with head := 8 }, [], some .corrupt) := by
    refine GoRing.read_bad hpow (by decide) (by decide) ?_
    decide +kernel
  refine ⟨⟨_, hread, rfl, ?_⟩, ?_⟩
  · -- the header at the head is the corrupt one, so no record stands in front of it
    refine (((reads_consistent hpow hb).1 3 2 _ hread).mpr ?_).2 rfl 3 2 (by decide) (by decide)
    rintro ⟨segs, hne, hrow, hle, -⟩
    obtain ⟨s, segs, rfl⟩ := List.exists_cons_of_ne_nil hne
    have hlen : (s.len : Int) = 100 := hrow.1.length.symm.trans (by decide +kernel)
    have hspan := s.len_le_span
    have hroom : sub64 16 8 = 8 := by decide
    rw [spans_cons] at hle
    change _ ≤ sub64 16 8 at hle
    omega
  · refine ⟨[⟨1, []⟩], List.cons_ne_nil _ _, ⟨⟨?_, ?_, rfl⟩, by decide, trivial⟩, by decide, ?_, by decide, ?_⟩
    · decide +kernel
    · decide +kernel
    · exact fun s hs => List.mem_singleton.mp hs ▸ ⟨by decide, rfl⟩
    · decide +kernel

/-! ### Safety of `Read` -/

/-- The cursor behind the last byte of a slice. -/
def Slice.stop (p : Slice) : Nat := p.cursor + recordHeaderSize + (p.hi - p.lo)

/-- The slice has the bytes of the region behind the header of its record, in one piece and in the window
    from `head` to `tail`. -/
structure Slice.Inside (cap head tail : Nat) (data : Mem) (p : Slice) : Prop where
  lo_eq : p.lo = p.cursor % cap + recordHeaderSize
  lo_le : p.lo ≤ p.hi
  hi_le : p.hi ≤ cap
  head_le : head ≤ p.cursor
  stop_le : p.stop ≤ tail
  bytes_eq : p.bytes = slice data p.lo (p.hi - p.lo)

theorem GoRing.emit_inside {cap c : Nat} {data : Mem} {s : Seg} (hs : s.At data (c % cap))
    (hend : c % cap + s.span ≤ cap) {p : Slice} (hp : p ∈ GoRing.emit cap c s) :
    p.Inside cap c (c + s.span) data := by
  have hle := s.len_le_span
  have hlen : s.len = recordHeaderSize + s.payload.length := rfl
  unfold GoRing.emit at hp
  split_ifs at hp
  · cases List.mem_singleton.mp hp
    have hsize : c % cap + s.len - (c % cap + recordHeaderSize) = s.payload.length := by omega
    refine ⟨rfl, by simp only; omega, by simp only; omega, le_rfl, ?_, ?_⟩
    · simp only [Slice.stop, hsize]
      omega
    · simp only [hsize]
      exact hs.payload.symm
  · cases hp

/-- What a read passes to `fn`: slices inside the window, one behind the other. -/
theorem GoRing.emitted_inside {cap c tail : Nat} {data : Mem} {segs : List Seg}
    (hrow : Row cap data c segs) (htail : c + spans segs ≤ tail) :
    (∀ p ∈ emitted (GoRing.emit cap) c segs, p.Inside cap c tail data) ∧
    (emitted (GoRing.emit cap) c segs).Pairwise (fun p q => p.stop ≤ q.cursor) := by
  induction segs generalizing c with
  | nil => exact ⟨nofun, List.Pairwise.nil⟩
  | cons s segs ih =>
    obtain ⟨hs, hend, hrest⟩ := hrow
    rw [spans_cons] at htail
    obtain ⟨hinside, hordered⟩ := ih hrest (by omega)
    refine ⟨fun p hp => ?_, List.pairwise_append.mpr ⟨?_, hordered, fun p hp q hq => ?_⟩⟩
    · rcases List.mem_append.mp hp with hp | hp
      · have h := GoRing.emit_inside hs hend hp
        exact ⟨h.lo_eq, h.lo_le, h.hi_le, h.head_le, h.stop_le.trans (by omega), h.bytes_eq⟩
      · have h := hinside p hp
        exact ⟨h.lo_eq, h.lo_le, h.hi_le, le_trans (by omega) h.head_le, h.stop_le, h.bytes_eq⟩
    · -- a record passes at most one slice
      unfold GoRing.emit
      split_ifs
      · exact List.pairwise_singleton _ _
      · exact List.Pairwise.nil
    · exact (GoRing.emit_inside hs hend hp).stop_le.trans (hinside q hq).head_le

/-- Slices one behind the other in one lap share no index. -/
theorem Slice.Inside.disjoint {cap head tail : Nat} {data : Mem} {p q : Slice}
    (hp : p.Inside cap head tail data) (hq : q.Inside cap head tail data) (hlap : tail ≤ head + cap)
    (hpq : p.stop ≤ q.cursor) : p.hi ≤ q.lo ∨ q.hi ≤ p.lo := by
  obtain ⟨hplo, hple, hphi, hphead, hpstop, -⟩ := hp
  obtain ⟨hqlo, hqle, hqhi, hqhead, hqstop, -⟩ := hq
  unfold Slice.stop recordHeaderSize at *
  have hin : (p.cursor % cap ≤ q.cursor % cap ∧ q.cursor % cap < p.cursor % cap + (8 + (p.hi - p.lo))) ↔
      (p.cursor ≤ q.cursor ∧ q.cursor < p.cursor + (8 + (p.hi - p.lo))) :=
    mod_mem_span hphead (by omega) (by omega) hqhead (by omega)
  have hin' : (q.cursor % cap ≤ p.cursor % cap ∧ p.cursor % cap < q.cursor % cap + (8 + (q.hi - q.lo))) ↔
      (q.cursor ≤ p.cursor ∧ p.cursor < q.cursor + (8 + (q.hi - q.lo))) :=
    mod_mem_span hqhead (by omega) (by omega) hphead (by omega)
  omega

theorem sub64_add64_self {head n : Nat} (hhead : head < 2 ^ 64) (hn : n < 2 ^ 64) :
    sub64 (add64 head n) head = n := by
  unfold sub64 add64
  omega

/-- Every index of the region is the index of a cursor in the lap from `head` on. -/
theorem exists_cursor {cap i : Nat} (head : Nat) (hi : i < cap) :
    ∃ c, head ≤ c ∧ c < head + cap ∧ c % cap = i := by
  have hmod := Nat.mod_lt head (show 0 < cap by omega)
  have hdiv := Nat.div_add_mod head cap
  by_cases hle : head % cap ≤ i
  · refine ⟨cap * (head / cap) + i, by omega, by omega, ?_⟩
    rw [Nat.mul_add_mod, Nat.mod_eq_of_lt hi]
  · refine ⟨cap * (head / cap + 1) + i, ?_, ?_, ?_⟩
    · rw [Nat.mul_add, Nat.mul_one]
      omega
    · rw [Nat.mul_add, Nat.mul_one]
      omega
    · rw [Nat.mul_add_mod, Nat.mod_eq_of_lt hi]

/-- **`Read` is safe**: for every content of the region it returns; the slices it passes lie in the region
    in one piece and in the window, disjoint and in the order of their cursors; it clears the records it
    stepped over and changes nothing else; and without an error the new head is 8-aligned, from the old
    head to the tail. -/
theorem GoRing.read_safe (C : Capacity) {b : Buf} (hb : Window C.size b) (limit : Int) {fuel : Nat}
    (hfuel : C.size < 8 * fuel) :
    ∃ r, GoRing.readTrace C.size fuel limit b = some r ∧
      GoRing.read C.size fuel limit b = some (r.1, r.2.1.map Slice.message, r.2.2) ∧
      (∀ p ∈ r.2.1, p.Inside C.size b.head (b.head + sub64 b.tail b.head) b.data) ∧
      r.2.1.Pairwise (fun p q => p.stop ≤ q.cursor ∧ (p.hi ≤ q.lo ∨ q.hi ≤ p.lo)) ∧
      (∃ segs, Row C.size b.data b.head segs ∧ spans segs ≤ sub64 b.tail b.head ∧
        r.2.1 = emitted (GoRing.emit C.size) b.head segs ∧
        (∀ c, b.head ≤ c → c < b.head + spans segs → r.1.data (c % C.size) = 0) ∧
        (∀ i, (∀ c, b.head ≤ c → c < b.head + spans segs → c % C.size ≠ i) →
          r.1.data i = b.data i)) ∧
      (r.2.2 = none → r.1.head % 8 = 0 ∧ sub64 r.1.head b.head ≤ sub64 b.tail b.head) := by
  have hcap := Capacity.pow_cap C
  obtain ⟨r, hr⟩ : ∃ r, GoRing.readTrace C.size fuel limit b = some r := by
    unfold GoRing.readTrace
    split_ifs
    · exact ⟨_, rfl⟩
    · obtain ⟨r, hr⟩ := (GoRing.scans_trace hcap limit b.head (sub64 b.tail b.head)).total [] b.data
        (Nat.zero_le _) (show _ < 8 * fuel by have := hb.lap; omega)
      rw [hr]
      exact ⟨_, rfl⟩
  obtain ⟨segs, hrow, hle, hout, hdata, hnone⟩ := GoRing.readTrace_result hcap hb hr
  have hlap := hb.lap
  obtain ⟨hinside, hordered⟩ := GoRing.emitted_inside hrow
    (show b.head + spans segs ≤ b.head + sub64 b.tail b.head by omega)
  refine ⟨r, hr, by rw [GoRing.read_eq_trace, hr]; rfl, by rwa [hout], ?_,
    ⟨segs, hrow, hle, hout, ?_, ?_⟩, ?_⟩
  · rw [hout]
    refine hordered.imp_of_mem fun {p q} hp hq hpq => ⟨hpq, ?_⟩
    exact (hinside p hp).disjoint (hinside q hq) (by omega) hpq
  · intro c h1 h2
    rw [hdata]
    exact wipe_of_mem hrow (le_refl b.head) (by omega) h1 h2
  · intro i hi
    rw [hdata]
    -- a byte of the ring has one cursor in this lap
    by_cases hin : i < C.size
    · obtain ⟨c, h1, h2, rfl⟩ := exists_cursor b.head hin
      refine wipe_of_not_mem hrow le_rfl (by omega) h1 h2 (.inr ?_)
      by_contra hlt
      exact hi c h1 (by omega) rfl
    · exact wipe_of_le hrow (by omega)
  · intro herr
    have hmod := spans_mod segs
    have hhead := hb.head_mod
    have hlt : spans segs < 2 ^ 64 := by have := C.max; omega
    rw [hnone herr]
    refine ⟨?_, ?_⟩
    · show add64 b.head (spans segs) % 8 = 0
      rw [add64, Nat.mod_mod_of_dvd _ (by decide)]
      omega
    · show sub64 (add64 b.head (spans segs)) b.head ≤ _
      rwa [sub64_add64_self hb.head_lt hlt]

theorem GoRing.read_safe_damaged : ∃ r, GoRing.readTrace 4096 513 7 (damaged 8) = some r ∧
    ∀ p ∈ r.2.1, p.Inside 4096 0 16 (damaged 8).data := by
  obtain ⟨r, hr, -, hinside, -⟩ :=
    GoRing.read_safe Capacity.smallest (damaged_window 8) 7 (show 4096 < 8 * 513 by decide)
  exact ⟨r, hr, hinside⟩

end GoIpc.Seq
