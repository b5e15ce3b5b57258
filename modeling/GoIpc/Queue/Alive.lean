import GoIpc.Queue.Frames
import GoIpc.Queue.Receiver

namespace GoIpc.Queue

/-!
# Runs in which nobody dies

Without a death no slot is taken over and no claim is reclaimed: `unstall` gives up at the first live
slot it finds.  The two conditions of the queue's invariant then hold by themselves, and `Alive` holds
along every run.
-/

variable {K : Config} {s s' : Sys} {w : World}

/-- The receiver has judged nobody dead. -/
def Recv.Spares : Recv → Prop
  | .loadOwner _ _ _ j _ _ | .loadAt _ _ _ j _ _ _ | .loadSize _ _ _ j _ _ _ _
  | .judge _ _ _ j _ _ _ _ _ => j.dead = []
  | .casLength .. | .padType .. | .clearAt .. => False
  | _ => True

namespace Recv

theorem spares_finish (l : Int) (k : Try) (n : Nat) (err : Option QErr) :
    (Recv.finish l k n err).Spares := by
  cases k <;> trivial

theorem spares_empty (l : Int) (k : Try) : (Recv.empty l k).Spares := by
  cases k <;> trivial

theorem spares_afterRead (l : Int) (k : Try) (n : Nat) (err : Option Ring.Err) :
    (Recv.afterRead l k n err).Spares := by
  unfold Recv.afterRead
  split
  · exact spares_finish ..
  · trivial

theorem spares_nextJudge (l : Int) (k : Try) (st : Stall) {j : Judged} (rest : List Nat)
    (h : j.dead = []) : (Recv.nextJudge l k st j rest).Spares := by
  cases rest with
  | cons i rest => exact h
  | nil =>
    rw [Recv.nextJudge, if_pos h]
    exact spares_empty ..

theorem spares_nextSlot (l : Int) (k : Try) (st : Stall) (i : Nat) :
    (Recv.nextSlot l k st i).Spares := by
  unfold Recv.nextSlot
  split
  · trivial
  · exact spares_nextJudge _ _ _ _ rfl

/-- **A step of the receiver while everyone lives.** -/
theorem Spares.step {r r' : Recv} {a : RecvAct} {x : Access} (h : r.Spares) (hdead : w.dead = [])
    (hr : r.step K w a = some (r', x)) : r'.Spares ∧ ∀ c n, x ≠ .casLength c n := by
  cases Recv.step_rule hr with
  | still | noWaiters | signal => exact ⟨spares_afterRead .., by simp⟩
  | drained | readable | spared | watch => exact ⟨spares_empty .., by simp⟩
  | skipSlot | covers | short => exact ⟨spares_nextSlot .., by simp⟩
  | changed => exact ⟨spares_nextJudge _ _ _ _ h, by simp⟩
  | loadOwner | loadAt | loadSize => exact ⟨h, by simp⟩
  -- nobody is judged dead
  | disagree dead | dead dead => simp [World.isDead, hdead] at dead
  | reclaim | raced | padType | clearAt => exact h.elim
  | _ => exact ⟨trivial, by simp⟩

end Recv

/-- Nobody has died, and nobody is taken for dead. -/
structure Alive (K : Config) (s : Sys) : Prop where
  inv : QInv K s
  lives : s.world.dead = []
  spares : s.recv.Spares

namespace Alive

theorem start : Alive K Sys.start := ⟨QInv.start, rfl, trivial⟩

/-- The conditions of the queue's invariant hold by themselves. -/
theorem conditions (h : Alive K s) (a : Act) : passed s a = true ∧ clearOk s a = true := by
  constructor
  · unfold passed
    split
    · next t =>
      split
      · next c k known head i owner hpc =>
        have hok := h.inv.search t
        rw [hpc] at hok
        obtain ⟨-, -, -, -, hdead⟩ := hok
        rw [h.lives] at hdead
        cases hdead
      · rfl
    · rfl
  · unfold clearOk
    split
    · split
      · next hpc =>
        have hsp := h.spares
        rw [hpc] at hsp
        exact hsp.elim
      · rfl
    · rfl

/-- **Every step but a death keeps it.** -/
theorem step (h : Alive K s) {a : Act} (ha : ∀ id, a ≠ .die id) (hs : s.step K a = some s') :
    Alive K s' := by
  have hlives := Sys.step_dead_eq ha hs
  refine ⟨h.inv.step (h.conditions a) hs, hlives.trans h.lives, ?_⟩
  rcases Sys.step_recv_or hs with ⟨b, x, -, hr, -⟩ | ⟨-, heq⟩
  · exact (h.spares.step h.lives hr).1
  · rw [heq]
    exact h.spares

/-- The claim of a goroutine is still its own. -/
theorem local_prod (h : Alive K s) (t : Nat) :
    (s.world.ring.prods t).Local K.cap s.world.sh s.world.ring.pos t :=
  (h.inv.ring.prods t).resolve_left (h.inv.not_lost (h.lives ▸ List.not_mem_nil))

/-- The history changes only in the ring operation of a goroutine, whose claim is still its own. -/
theorem step_log (h : Alive K s) {a : Act} (ha : ∀ id, a ≠ .die id) (hs : s.step K a = some s') :
    (s'.world.sh.log = s.world.sh.log ∧ s'.world.sh.tail = s.world.sh.tail) ∨
      ∃ t b q, (s.world.ring.prods t).Local K.cap s.world.sh s.world.ring.pos t ∧
        (s.world.ring.prods t).step K.cap t s.world.sh b = some (s'.world.sh, q) := by
  have hany : ∀ {x : Access}, (∀ c n, x ≠ .casLength c n) → s.world.apply K x = some s'.world →
      (s'.world.sh.log = s.world.sh.log ∧ s'.world.sh.tail = s.world.sh.tail) ∨
        ∃ t b q, (s.world.ring.prods t).Local K.cap s.world.sh s.world.ring.pos t ∧
          (s.world.ring.prods t).step K.cap t s.world.sh b = some (s'.world.sh, q) := by
    intro x hc hx
    refine (World.apply_log hc hx).imp_right ?_
    rintro ⟨t, b, q, -, hst⟩
    exact ⟨t, b, q, h.local_prod t, hst⟩
  cases a with
  | recv b =>
    obtain ⟨r, x, w, hr, hx, rfl⟩ := Sys.step_recv_eq hs
    exact hany (h.spares.step h.lives hr).2 hx
  | send t b =>
    obtain ⟨-, u, x, w, hu, hx, rfl⟩ := Sys.step_send_eq hs
    exact hany (Sender.step_access hu).2.2 hx
  | drop hd =>
    obtain ⟨-, c, x, w, hc, hx, rfl⟩ := Sys.step_drop_eq hs
    exact hany (Closer.step_access hc).2 hx
  | close hd =>
    simp only [Sys.step] at hs
    split at hs <;> cases hs
    exact .inl ⟨rfl, rfl⟩
  | die id => exact absurd rfl (ha id)

end Alive

end GoIpc.Queue
