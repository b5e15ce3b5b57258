import GoIpc.Lib.Bytes

namespace GoIpc.Lib

/-!
# A circular memory read as an endless tape

A ring addresses its memory by cursors that only grow; cursor `c` lives at index `c % cap`.
While all live cursors lie in one window `[head, head + cap)` no two of them share an index,
so the memory can be read as a tape with one cell per cursor:

* `unwrap z cap head data` — the tape: the cells of the window, `z` everywhere else;
* `unwrap_patch` — a store at the index of a window cursor is the same store on the tape;
* `unwrap_advance` — moving the window over cells that hold `z` does not change the tape.

So a proof about a ring that clears what it consumes may reason about the tape, where no cell
is ever used twice.
-/

variable {β : Type}

/-- The tape behind a circular memory: window cells read their index, all others read `z`. -/
def unwrap (z : β) (cap head : Nat) (data : Nat → β) : Nat → β :=
  fun c => if head ≤ c ∧ c < head + cap then data (c % cap) else z

variable {z : β} {cap head : Nat} {data : Nat → β}

theorem unwrap_of_mem {c : Nat} (h1 : head ≤ c) (h2 : c < head + cap) :
    unwrap z cap head data c = data (c % cap) := if_pos ⟨h1, h2⟩

theorem unwrap_of_not_mem {c : Nat} (h : c < head ∨ head + cap ≤ c) :
    unwrap z cap head data c = z := if_neg (by omega)

/-- Two cursors less than one lap apart that share an index are equal. -/
theorem eq_of_mod_eq {a b : Nat} (hab : a ≤ b) (hlap : b < a + cap) (h : a % cap = b % cap) :
    a = b := by
  have hz : (b - a) % cap = 0 := Nat.sub_mod_eq_zero_of_mod_eq h.symm
  rw [Nat.mod_eq_of_lt (by omega)] at hz
  omega

/-- Within a span that does not cross the end of the memory, indices grow with cursors. -/
theorem add_mod_of_lt {c k : Nat} (h : c % cap + k < cap) : (c + k) % cap = c % cap + k := by
  rw [← Nat.mod_add_mod]
  exact Nat.mod_eq_of_lt h

/-- Inside one window, a span that does not cross the end of the memory occupies the same
    cells on the tape as in the memory. -/
theorem mod_mem_span {c n x : Nat} (hlo : head ≤ c) (hhi : c + n ≤ head + cap)
    (hend : c % cap + n ≤ cap) (hx1 : head ≤ x) (hx2 : x < head + cap) :
    (c % cap ≤ x % cap ∧ x % cap < c % cap + n) ↔ (c ≤ x ∧ x < c + n) := by
  constructor
  · rintro ⟨h1, h2⟩
    have hk : (c + (x % cap - c % cap)) % cap = x % cap := by
      rw [add_mod_of_lt (by omega)]; omega
    have hx : c + (x % cap - c % cap) = x := by
      rcases le_total (c + (x % cap - c % cap)) x with hle | hle
      · exact eq_of_mod_eq hle (by omega) hk
      · exact (eq_of_mod_eq hle (by omega) hk.symm).symm
    omega
  · rintro ⟨h1, h2⟩
    have hk : (c + (x - c)) % cap = c % cap + (x - c) := add_mod_of_lt (by omega)
    rw [show c + (x - c) = x by omega] at hk
    omega

/-- **Stores.** A patch at the index of a window cursor is the same patch on the tape. -/
theorem unwrap_patch {c n : Nat} (g : Nat → β) (hlo : head ≤ c) (hhi : c + n ≤ head + cap)
    (hend : c % cap + n ≤ cap) :
    unwrap z cap head (patch data (c % cap) n g) = patch (unwrap z cap head data) c n g := by
  funext x
  by_cases hx : head ≤ x ∧ x < head + cap
  · have hiff := mod_mem_span hlo hhi hend hx.1 hx.2
    rw [unwrap_of_mem hx.1 hx.2]
    by_cases hin : c ≤ x ∧ x < c + n
    · obtain ⟨h1, h2⟩ := hiff.mpr hin
      have hsub : x % cap - c % cap = x - c := by
        have hk : (c + (x - c)) % cap = c % cap + (x - c) := add_mod_of_lt (by omega)
        rw [show c + (x - c) = x by omega] at hk
        omega
      rw [patch_of_mem _ _ h1 h2, patch_of_mem _ _ hin.1 hin.2, hsub]
    · rw [patch_of_not_mem _ _ (by omega), patch_of_not_mem _ _ (by omega),
        unwrap_of_mem hx.1 hx.2]
  · rw [unwrap_of_not_mem (by omega), patch_of_not_mem _ _ (by omega),
      unwrap_of_not_mem (by omega)]

/-- The same for a patch that starts `d` cells after a window cursor. -/
theorem unwrap_patch_add {c d n : Nat} (g : Nat → β) (hlo : head ≤ c)
    (hhi : c + d + n ≤ head + cap) (hend : c % cap + d + n ≤ cap) :
    unwrap z cap head (patch data (c % cap + d) n g) =
      patch (unwrap z cap head data) (c + d) n g := by
  rcases Nat.eq_zero_or_pos n with rfl | hn
  · have hnone : ∀ (m : Nat → β) (i : Nat), patch m i 0 g = m := fun m i =>
      funext fun j => patch_of_not_mem _ _ (by omega)
    rw [hnone, hnone]
  · rw [← add_mod_of_lt (by omega)]
    exact unwrap_patch g (by omega) hhi (by rw [add_mod_of_lt (by omega)]; exact hend)

/-- **Moving the window.** The window may move over cells that hold `z`: the cells it gains
    are the same indices one lap later, and read `z` before and after. -/
theorem unwrap_advance {head' : Nat} (hle : head ≤ head') (hlap : head' ≤ head + cap)
    (hz : ∀ c, head ≤ c → c < head' → unwrap z cap head data c = z) :
    unwrap z cap head' data = unwrap z cap head data := by
  funext x
  by_cases h1 : x < head'
  · rw [unwrap_of_not_mem (by omega)]
    by_cases h0 : x < head
    · rw [unwrap_of_not_mem (by omega)]
    · exact (hz x (by omega) h1).symm
  · by_cases h2 : x < head + cap
    · rw [unwrap_of_mem (by omega) (by omega), unwrap_of_mem (by omega) h2]
    · have hout : unwrap z cap head data x = z := unwrap_of_not_mem (by omega)
      rw [hout]
      by_cases h3 : x < head' + cap
      · -- `x` is one lap above the consumed cell `x - cap`
        have hold := hz (x - cap) (by omega) (by omega)
        rw [unwrap_of_mem (by omega) (by omega)] at hold
        rw [unwrap_of_mem (by omega) h3, Nat.mod_eq_sub_mod (by omega), hold]
      · exact unwrap_of_not_mem (by omega)

/-- A load at the index of a window cursor is a load from the tape. -/
theorem load32_unwrap {cap head c : Nat} {data : Mem} (hlo : head ≤ c)
    (hhi : c + 4 ≤ head + cap) (hend : c % cap + 4 ≤ cap) :
    load32 data (c % cap) = load32 (unwrap 0 cap head data) c := by
  apply load32_congr
  intro k hk
  rw [unwrap_of_mem (by omega) (by omega), add_mod_of_lt (by omega)]

/-- A slice `d` cells after the index of a window cursor is a slice of the tape. -/
theorem slice_unwrap {cap head c d n : Nat} {data : Mem} (hlo : head ≤ c)
    (hhi : c + d + n ≤ head + cap) (hend : c % cap + d + n ≤ cap) :
    slice data (c % cap + d) n = slice (unwrap 0 cap head data) (c + d) n := by
  apply slice_congr
  intro k hk
  rw [Nat.add_assoc, Nat.add_assoc, unwrap_of_mem (by omega) (by omega), add_mod_of_lt (by omega)]

end GoIpc.Lib
