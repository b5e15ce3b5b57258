import GoIpc.Lib.Bytes
import Mathlib.Data.List.FinRange

namespace GoIpc.Lib

/-!
# Stores into a buffer

A buffer is a list of bytes of fixed length.

* `writes` — single-byte stores, one after another; `Within` says that they go up inside a range, so
  that each byte is stored once;
* `Zero` — a range of a buffer that holds zeros.
-/

/-! ### Little-endian numbers -/

theorem forall_byte {p : UInt8 → Prop} (h : ∀ i : Fin 256, p (UInt8.ofNat i)) (c : UInt8) : p c := by
  have := h ⟨c.toNat, c.toNat_lt⟩
  rwa [UInt8.ofNat_toNat] at this

variable {b : List UInt8} {ws : List Store}

theorem take_one_drop {p : Nat} (h : p < b.length) : (b.drop p).take 1 = [b[p]] := by
  rw [List.drop_eq_getElem_cons h]
  rfl

/-- A slot of an array ends inside it, or before a later one. -/
theorem slot_end_le {i n : Nat} (h : i < n) (size : Nat) : i * size + size ≤ n * size := by
  rw [← Nat.succ_mul]
  exact Nat.mul_le_mul_right size h

theorem leNat_lt (bs : List UInt8) : leNat bs < 256 ^ bs.length := by
  induction bs with
  | nil => simp [leNat]
  | cons b bs ih =>
    have hb := b.toNat_lt
    rw [leNat, List.length_cons, Nat.pow_succ]
    omega

theorem leBytes_leNat (bs : List UInt8) : leBytes bs.length (leNat bs) = bs := by
  induction bs with
  | nil => rfl
  | cons b bs ih =>
    have hb := b.toNat_lt
    have hdiv : (b.toNat + 256 * leNat bs) / 256 = leNat bs := by omega
    have hmod : UInt8.ofNat (b.toNat + 256 * leNat bs) = b := by
      rw [← UInt8.toNat_inj, UInt8.toNat_ofNat']
      omega
    rw [List.length_cons, leNat, leBytes, hdiv, ih, hmod]

theorem leBytes_add (m n v : Nat) : leBytes (m + n) v = leBytes m v ++ leBytes n (v / 256 ^ m) := by
  induction m generalizing v with
  | zero => rw [Nat.zero_add, Nat.pow_zero, Nat.div_one]; rfl
  | succ m ih =>
    rw [Nat.succ_add, leBytes, ih, leBytes, List.cons_append, Nat.div_div_eq_div_mul, Nat.pow_succ,
      Nat.mul_comm 256]

theorem leBytes_mod (n v : Nat) : leBytes n (v % 256 ^ n) = leBytes n v := by
  induction n generalizing v with
  | zero => rfl
  | succ n ih =>
    have hdiv : v % 256 ^ (n + 1) / 256 = v / 256 % 256 ^ n := by
      rw [Nat.pow_succ, Nat.mul_comm, Nat.mod_mul_right_div_self]
    have hbyte : UInt8.ofNat (v % 256 ^ (n + 1)) = UInt8.ofNat v := by
      rw [← UInt8.toNat_inj, UInt8.toNat_ofNat', UInt8.toNat_ofNat', Nat.pow_succ, Nat.mul_comm]
      exact Nat.mod_mul_right_mod v 256 (256 ^ n)
    rw [leBytes, leBytes, hdiv, ih, hbyte]

theorem leNat_append (bs cs : List UInt8) : leNat (bs ++ cs) = leNat bs + 256 ^ bs.length * leNat cs := by
  induction bs with
  | nil => simp [leNat]
  | cons b bs ih =>
    rw [List.cons_append, leNat, leNat, ih, List.length_cons]
    ring

/-! ### Stores -/

abbrev Store := Nat × UInt8

/-- Single-byte stores, in order. -/
def writes (ws : List Store) (b : List UInt8) : List UInt8 := ws.foldl (fun b w => b.set w.1 w.2) b

/-- The stores of `xs` from `p` on. -/
def storesAt : Nat → List UInt8 → List Store
  | _, [] => []
  | p, x :: xs => (p, x) :: storesAt (p + 1) xs

/-- A store of one byte, or what an access outside of the buffer gives. -/
def setByte {f : Type → Type} [Pure f] (outside : f (List UInt8)) (b : List UInt8) (p : Nat) (x : UInt8) :
    f (List UInt8) :=
  if p < b.length then pure (b.set p x) else outside

/-- The slice of a buffer from `p` on. -/
def sliceFrom {f : Type → Type} [Pure f] (outside : f Unit) (p : Nat) (b : List UInt8) : f Unit :=
  if p ≤ b.length then pure () else outside

theorem writes_append (ws us : List Store) (b : List UInt8) :
    writes (ws ++ us) b = writes us (writes ws b) := List.foldl_append

@[simp] theorem length_writes (ws : List Store) (b : List UInt8) : (writes ws b).length = b.length := by
  induction ws generalizing b with
  | nil => rfl
  | cons w ws ih => exact (ih _).trans List.length_set

/-- A byte that is not stored to stays. -/
theorem getElem?_writes_of_ne {q : Nat} (h : ∀ w ∈ ws, w.1 ≠ q) (b : List UInt8) :
    (writes ws b)[q]? = b[q]? := by
  induction ws generalizing b with
  | nil => rfl
  | cons w ws ih =>
    rw [writes, List.foldl_cons]
    exact (ih (fun u hu => h u (List.mem_cons_of_mem _ hu)) _).trans
      (List.getElem?_set_ne (h w List.mem_cons_self))

/-- A byte that is stored once has the value stored. -/
theorem getElem?_writes_of_mem {q : Nat} {x : UInt8} (hws : ws.Pairwise (fun w u => w.1 < u.1))
    (h : (q, x) ∈ ws) (hq : q < b.length) : (writes ws b)[q]? = some x := by
  induction ws generalizing b with
  | nil => cases h
  | cons w ws ih =>
    obtain ⟨hw, hrest⟩ := List.pairwise_cons.mp hws
    rw [writes, List.foldl_cons]
    rcases List.mem_cons.mp h with rfl | h
    · refine (getElem?_writes_of_ne (fun u hu => ?_) _).trans (List.getElem?_set_self hq)
      have := hw u hu
      omega
    · exact ih hrest h (by rwa [List.length_set])

/-- Stores into the first part of a buffer. -/
theorem writes_append_left {a : List UInt8} (h : ∀ w ∈ ws, w.1 < a.length) (c : List UInt8) :
    writes ws (a ++ c) = writes ws a ++ c := by
  induction ws generalizing a with
  | nil => rfl
  | cons w ws ih =>
    have hw := h w List.mem_cons_self
    rw [writes, List.foldl_cons, List.set_append_left _ _ hw]
    exact ih (fun u hu => by rw [List.length_set]; exact h u (List.mem_cons_of_mem _ hu))

theorem setByte_eq {f : Type → Type} [Pure f] {outside : f (List UInt8)} {p : Nat} (h : p < b.length)
    (x : UInt8) : setByte outside b p x = pure (writes (storesAt p [x]) b) := if_pos h

theorem sliceFrom_eq {f : Type → Type} [Pure f] {outside : f Unit} {p : Nat} (h : p ≤ b.length) :
    sliceFrom outside p b = pure () := if_pos h

theorem storesAt_append (p : Nat) (xs ys : List UInt8) :
    storesAt p (xs ++ ys) = storesAt p xs ++ storesAt (p + xs.length) ys := by
  induction xs generalizing p with
  | nil => rfl
  | cons x xs ih =>
    rw [List.cons_append, storesAt, storesAt, ih, List.cons_append, List.length_cons]
    congr 3
    omega

/-- Stores of a run of bytes replace it. -/
theorem writes_storesAt_append {xs ys : List UInt8} (pre post : List UInt8) (h : ys.length = xs.length) :
    writes (storesAt pre.length xs) (pre ++ ys ++ post) = pre ++ xs ++ post := by
  induction xs generalizing pre ys with
  | nil =>
    rw [List.eq_nil_of_length_eq_zero h]
    rfl
  | cons x xs ih =>
    cases ys with
    | nil => cases h
    | cons y ys =>
      have hset : (pre ++ y :: ys ++ post).set pre.length x = (pre ++ [x]) ++ ys ++ post := by
        simp
      rw [storesAt, writes, List.foldl_cons, hset]
      have := ih (pre ++ [x]) (Nat.succ.inj h)
      rw [List.length_append, List.length_singleton] at this
      exact this.trans (by simp)

theorem writes_storesAt {p : Nat} {xs : List UInt8} (h : p + xs.length ≤ b.length) :
    writes (storesAt p xs) b = b.take p ++ xs ++ b.drop (p + xs.length) := by
  have hp : (b.take p).length = p := by rw [List.length_take]; omega
  have hmid : ((b.drop p).take xs.length).length = xs.length := by
    rw [List.length_take, List.length_drop]
    omega
  have hb : b = b.take p ++ (b.drop p).take xs.length ++ b.drop (p + xs.length) := by
    rw [List.append_assoc, ← List.drop_drop, List.take_append_drop, List.take_append_drop]
  conv_lhs => rw [hb]
  have := writes_storesAt_append (b.take p) (b.drop (p + xs.length)) hmid
  rwa [hp] at this

/-! ### Ranges -/

/-- The stores go up, from `lo` on and below `hi`. -/
def Within (lo hi : Nat) (ws : List Store) : Prop :=
  ws.Pairwise (fun w u => w.1 < u.1) ∧ ∀ w ∈ ws, lo ≤ w.1 ∧ w.1 < hi

theorem Within.nil (lo hi : Nat) : Within lo hi [] :=
  ⟨.nil, fun _ h => absurd h List.not_mem_nil⟩

theorem Within.mono {lo hi lo' hi' : Nat} (h : Within lo hi ws) (hlo : lo' ≤ lo) (hhi : hi ≤ hi') :
    Within lo' hi' ws :=
  ⟨h.1, fun w hw => ⟨hlo.trans (h.2 w hw).1, (h.2 w hw).2.trans_le hhi⟩⟩

theorem Within.append {lo mid mid' hi : Nat} {us : List Store} (h : Within lo mid ws)
    (h' : Within mid' hi us) (hmid : mid ≤ mid') (hlo : lo ≤ mid') (hhi : mid ≤ hi) :
    Within lo hi (ws ++ us) := by
  refine ⟨List.pairwise_append.mpr ⟨h.1, h'.1, fun w hw u hu => ?_⟩, fun w hw => ?_⟩
  · exact (h.2 w hw).2.trans_le (hmid.trans (h'.2 u hu).1)
  · rcases List.mem_append.mp hw with hw | hw
    · exact ⟨(h.2 w hw).1, (h.2 w hw).2.trans_le hhi⟩
    · exact ⟨hlo.trans (h'.2 w hw).1, (h'.2 w hw).2⟩

theorem within_storesAt (p : Nat) (xs : List UInt8) : Within p (p + xs.length) (storesAt p xs) := by
  induction xs generalizing p with
  | nil => exact .nil _ _
  | cons x xs ih =>
    obtain ⟨hsorted, hrange⟩ := ih (p + 1)
    rw [List.length_cons]
    refine ⟨List.pairwise_cons.mpr ⟨fun u hu => (hrange u hu).1, hsorted⟩, fun w hw => ?_⟩
    rcases List.mem_cons.mp hw with rfl | hw
    · exact ⟨le_rfl, by simp⟩
    · have := hrange w hw
      exact ⟨by omega, by omega⟩

/-- Equal pieces one after another. -/
theorem Within.flatMap_finRange {n size base : Nat} {f : Fin n → List Store}
    (h : ∀ i : Fin n, Within (base + i * size) (base + i * size + size) (f i)) :
    Within base (base + n * size) ((List.finRange n).flatMap f) := by
  refine ⟨List.pairwise_flatMap.mpr ⟨fun i _ => (h i).1, ?_⟩, fun w hw => ?_⟩
  · refine (List.pairwise_lt_finRange n).imp fun {i j} hij w hw u hu => ?_
    have hstep := slot_end_le (Fin.lt_def.mp hij) size
    have := ((h i).2 w hw).2
    have := ((h j).2 u hu).1
    omega
  · obtain ⟨i, -, hw⟩ := List.mem_flatMap.mp hw
    have hstep := slot_end_le i.isLt size
    have := (h i).2 w hw
    exact ⟨by have := this.1; omega, by omega⟩

/-- `n` zeros from `p` on. -/
def Zero (b : List UInt8) (p n : Nat) : Prop := ∀ q, p ≤ q → q < p + n → b[q]? = some 0

theorem Zero.mono {p n p' n' : Nat} (h : Zero b p n) (hp : p ≤ p') (hn : p' + n' ≤ p + n) : Zero b p' n' :=
  fun q hq hlt => h q (hp.trans hq) (hlt.trans_le hn)

theorem zero_replicate (n : Nat) (tail : List UInt8) : Zero (List.replicate n 0 ++ tail) 0 n := by
  intro q _ hq
  rw [List.getElem?_append_left (by rw [List.length_replicate]; omega), List.getElem?_replicate,
    if_pos (by omega)]

/-- Stores below a range leave it alone. -/
theorem Zero.writes_below {p n lo hi : Nat} (h : Zero b p n) (hws : Within lo hi ws) (hhi : hi ≤ p) :
    Zero (writes ws b) p n := by
  intro q hq hlt
  rw [getElem?_writes_of_ne (fun w hw => ?_)]
  · exact h q hq hlt
  · have := (hws.2 w hw).2
    omega

end GoIpc.Lib
