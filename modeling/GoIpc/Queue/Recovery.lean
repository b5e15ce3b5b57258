import GoIpc.Queue.Receiver

namespace GoIpc.Queue

open GoIpc.Lib
open GoIpc.Ring (Entry claimSlots committedOf)

/-!
# Attribution and safe recovery

The two guarantees recovery rests on, in every run that meets `passed` and `clearOk`:

* `unfinished_attributed` — an unfinished claim above `head` stands in a slot of its process;
* `recovery_safe` — only claims of dead processes are padded, and every committed record below
  `head` was delivered.

Without `clearOk` both fail.  `staleClear` is a run where `reclaim` clears a slot whose goroutine,
after losing a compare-and-swap, claimed again behind the claim that is reclaimed; the receiver
then trusts another dead process' stale intent and pads over a committed record.
-/

variable {K : Config} {s : Sys}

/-! ### Runs to show -/

/-- The identifier of a process with a life socket. -/
def life (n : Nat) : Nat := 2 ^ 63 + n

/-- One handle for each goroutine; goroutines 0 and 1 belong to the same process. -/
def pair : Config where
  cap := Ring.Capacity.smallest
  home := id
  self := fun h => life (if h = 1 then 0 else h)
  me := life 9
  self_ne := fun h => by unfold life noProc; omega

/-- `n` steps of goroutine `t`. -/
def steps (t n : Nat) : List Act := List.replicate n (.send t .step)

/-- `n` steps of the receiver. -/
def recvs (n : Nat) : List Act := List.replicate n (.recv .step)

/-- Goroutine 0 claims and dies with its process, goroutine 2 sends, the receiver recovers. -/
def deadClaim : List Act :=
  [Act.send 0 (.claim 1 8)] ++ steps 0 11 ++ [Act.die (life 0)] ++
  [Act.send 2 (.trySend 2 [5])] ++ steps 2 20 ++ [Act.recv .tryRecv]

/-- The receiver has loaded the slots of goroutines 0 and 1, which both cover `head`; goroutine 0
    lost the compare-and-swap to goroutine 1.  Before the liveness check, goroutine 0 claims
    again, goroutine 2 of another process loses to it, and goroutine 3 sends a message; then the
    first two processes die, and `reclaim` clears both slots. -/
def staleClear : List Act :=
  [Act.send 0 (.claim 1 8)] ++ steps 0 10 ++ [Act.send 1 (.claim 1 8)] ++ steps 1 12 ++ steps 0 1 ++
  [Act.send 2 (.claim 1 24)] ++ steps 2 12 ++ [Act.recv .tryRecv] ++ recvs 270 ++
  steps 0 5 ++ steps 2 1 ++ [Act.send 3 (.trySend 2 [1, 2, 3, 4, 5, 6, 7, 8])] ++ steps 3 29 ++
  [Act.die (life 0), .die (life 2)] ++ recvs 9

/-! ### Attribution -/

/-- **Attribution.** In every run that meets the two conditions, a claim that is not finished, not
    padded in full and not passed by the reader stands in a slot: with its cursor, its size, and
    its process as the owner. -/
theorem unfinished_attributed
    (h : (machine K).Reach (fun s a => passed s a = true ∧ clearOk s a = true) s) {e : Entry}
    (he : e ∈ s.world.sh.log) (hu : e.Unfinished) (hlt : s.world.sh.head < e.stop) :
    ∃ i < claimSlots, (s.world.sh.slots i).cursor = e.cursor ∧
      (s.world.sh.slots i).size = e.size ∧ (s.world.sh.slots i).owner = K.proc e.owner := by
  obtain ⟨i, -, hi, hslot⟩ := (inv_of_reach h).attributed e he hu hlt
  exact ⟨i, hi, by rw [hslot], by rw [hslot], by rw [hslot]⟩

/-- While its process is dead and nobody has recovered it, the claim of `deadClaim` stands in its
    slot. -/
theorem deadClaim_attributed :
    ∃ s, (machine pair).Reach (fun s a => passed s a = true ∧ clearOk s a = true) s ∧
      ∃ e ∈ s.world.sh.log, e.cursor = 0 ∧ pair.proc e.owner ∈ s.world.dead ∧
        ∃ i < claimSlots, (s.world.sh.slots i).cursor = e.cursor ∧
          (s.world.sh.slots i).size = e.size ∧ (s.world.sh.slots i).owner = pair.proc e.owner := by
  have hrun : ((machine pair).runOk (fun s a => passed s a && clearOk s a) Sys.start deadClaim).map
      (fun s => decide (∃ e ∈ s.world.sh.log, e.cursor = 0 ∧ pair.proc e.owner ∈ s.world.dead ∧
        e.Unfinished ∧ s.world.sh.head < e.stop)) = some true := by decide +kernel
  obtain ⟨s, hreach, hs⟩ := Machine.Reach.exists_of_runOk (fun s a h => Bool.and_eq_true_iff.mp h) hrun
  obtain ⟨e, he, hc, hd, hu, hlt⟩ := of_decide_eq_true hs
  exact ⟨s, hreach, e, he, hc, hd, unfinished_attributed hreach he hu hlt⟩

/-- **A clear on stale loads loses the attribution.** -/
theorem staleClear_unattributed :
    ∃ s, (machine pair).Reach (fun _ _ => True) s ∧
      ∃ e ∈ s.world.sh.log, e.Unfinished ∧ s.world.sh.head < e.stop ∧
        ∀ i < claimSlots, ¬ ((s.world.sh.slots i).cursor = e.cursor ∧
          (s.world.sh.slots i).size = e.size ∧ (s.world.sh.slots i).owner = pair.proc e.owner) := by
  have hrun : ((machine pair).run Sys.start staleClear).map
      (fun s => decide (∃ e ∈ s.world.sh.log, e.Unfinished ∧ s.world.sh.head < e.stop ∧
        ∀ i < claimSlots, ¬ ((s.world.sh.slots i).cursor = e.cursor ∧
          (s.world.sh.slots i).size = e.size ∧ (s.world.sh.slots i).owner = pair.proc e.owner)))
      = some true := by decide +kernel
  obtain ⟨s, hreach, hs⟩ := Machine.Reach.exists_of_run hrun
  exact ⟨s, hreach, of_decide_eq_true hs⟩

/-! ### Recovery -/

/-- A claim the reader has passed is committed, aborted, or padded in full. -/
theorem passed_state (hq : QInv K s) {e : Entry} (he : e ∈ s.world.sh.log)
    (hlt : e.stop ≤ s.world.sh.head) :
    e.state = .committed ∨ e.state = .aborted ∨ e.state = .reclaimed true := by
  have hfin := hq.ring.ok.passed e he (le_trans hlt hq.ring.ok.head_le)
  unfold Entry.Unfinished at hfin
  cases hst : e.state with
  | claimed => exact absurd (.inl hst) hfin
  | committed => exact .inl rfl
  | aborted => exact .inr (.inl rfl)
  | reclaimed full =>
    cases full with
    | false => exact absurd (.inr hst) hfin
    | true => exact .inr (.inr rfl)

/-- **Safe recovery.** In every run that meets the two conditions:

    * a claim that `reclaim` has begun to pad belongs to a dead process;
    * a committed record the reader has not reached stands in the ring as it was written;
    * what was delivered is a prefix of the committed records in claim order, and contains every
      one below `head`: each exactly once;
    * a claim below `head` was committed, aborted, or padded after its process died. -/
theorem recovery_safe
    (h : (machine K).Reach (fun s a => passed s a = true ∧ clearOk s a = true) s) :
    (∀ e ∈ s.world.sh.log, e.Taken → K.proc e.owner ∈ s.world.dead) ∧
      (∀ e ∈ s.world.sh.log, e.state = .committed → s.world.ring.pos ≤ e.record →
        Ring.lenAt (s.world.sh.tape K.cap) e.record = e.total ∧
        Ring.typeAt (s.world.sh.tape K.cap) e.record = e.typ ∧
        slice (s.world.sh.tape K.cap) (e.record + 8) (e.total - 8) = e.payload) ∧
      committedOf (below Entry.stop s.world.sh.head s.world.sh.log) <+: s.world.sh.delivered ∧
      s.world.sh.delivered <+: committedOf s.world.sh.log ∧
      ∀ e ∈ s.world.sh.log, e.stop ≤ s.world.sh.head → e.state = .committed ∨
        e.state = .aborted ∨ (e.state = .reclaimed true ∧ K.proc e.owner ∈ s.world.dead) := by
  have hq := inv_of_reach h
  have hok : s.world.sh.Ok K.cap s.recv.mend s.world.ring.pos := hq.ring.ok
  refine ⟨hq.taken, ?_, ?_, ?_, ?_⟩
  · intro e he hst hpos
    have hrec := (hok.content e he).record hpos
    unfold Entry.RecordOk at hrec
    rwa [hst] at hrec
  · rw [hok.delivered]
    exact ((below_mono hok.tiled hok.head_le).filter _).map _
  · rw [hok.delivered]
    exact ((below_isPrefix hok.tiled _).filter _).map _
  · intro e he hlt
    refine (passed_state hq he hlt).imp_right (fun hst => hst.imp_right (fun hst => ⟨hst, ?_⟩))
    exact hq.taken e he ⟨_, hst⟩

/-- The receiver of `deadClaim` pads the dead claim and delivers the message behind it. -/
theorem deadClaim_safe :
    ∃ s, (machine pair).Reach (fun s a => passed s a = true ∧ clearOk s a = true) s ∧
      s.recv = .idle (some (1, none)) ∧ s.world.sh.delivered = [(2, [5])] ∧
      (∃ e ∈ s.world.sh.log, e.state = .reclaimed true) ∧
      (∀ e ∈ s.world.sh.log, e.Taken → pair.proc e.owner ∈ s.world.dead) ∧
      committedOf (below Entry.stop s.world.sh.head s.world.sh.log) <+: s.world.sh.delivered := by
  have hrun : ((machine pair).runOk (fun s a => passed s a && clearOk s a) Sys.start
      (deadClaim ++ recvs 290)).map
      (fun s => decide (s.recv = .idle (some (1, none)) ∧ s.world.sh.delivered = [(2, [5])] ∧
        ∃ e ∈ s.world.sh.log, e.state = .reclaimed true)) = some true := by decide +kernel
  obtain ⟨s, hreach, hs⟩ := Machine.Reach.exists_of_runOk (fun s a h => Bool.and_eq_true_iff.mp h) hrun
  obtain ⟨hidle, hdel, htaken⟩ := of_decide_eq_true hs
  obtain ⟨hdead, -, hall, -, -⟩ := recovery_safe hreach
  exact ⟨s, hreach, hidle, hdel, htaken, hdead, hall⟩

/-- **Without attribution a committed record is skipped.**  `TryRecv` returns `ErrEmpty` with the
    committed record of goroutine 3 below `head` and nothing delivered. -/
theorem staleClear_skips_committed :
    ∃ s, (machine pair).Reach (fun _ _ => True) s ∧
      s.recv = .idle (some (0, some .empty)) ∧ s.world.sh.delivered = [] ∧
      ∃ e ∈ s.world.sh.log, e.state = .committed ∧ e.stop ≤ s.world.sh.head := by
  have hrun : ((machine pair).run Sys.start (staleClear ++ recvs 294)).map
      (fun s => decide (s.recv = .idle (some (0, some .empty)) ∧ s.world.sh.delivered = [] ∧
        ∃ e ∈ s.world.sh.log, e.state = .committed ∧ e.stop ≤ s.world.sh.head))
      = some true := by decide +kernel
  obtain ⟨s, hreach, hs⟩ := Machine.Reach.exists_of_run hrun
  exact ⟨s, hreach, of_decide_eq_true hs⟩

end GoIpc.Queue
