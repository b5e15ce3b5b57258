import GoIpc.Queue.Steps

namespace GoIpc.Queue

open GoIpc.Ring (Producer ProdAct Shared Reader)
open Function (update update_self update_of_ne)

/-!
# What an access leaves alone

Frame lemmas for the one access a step makes: who may move a cursor, a ring operation, `Read`, the
waiter counts and the tokens, and which accesses a sender and the receiver make.
-/

variable {K : Config} {s s' : Sys} {w w' : World} {t : Nat}

/-! ### Ring operations -/

variable {C : Ring.Capacity} {sh sh' : Shared} {x : Access}

/-- A producer leaves `head` alone. -/
theorem Producer.step_head {q q' : Producer} {a : ProdAct} (h : q.step C t sh a = some (sh', q')) :
    sh'.head = sh.head := by
  cases Producer.step_rule h with
  | giveUp | release =>
    obtain ⟨f, hf⟩ := Ring.release_eq sh _
    rw [hf]
  | _ => rfl

/-- A producer does not move `tail` back. -/
theorem Producer.step_tail {q q' : Producer} {a : ProdAct} (h : q.step C t sh a = some (sh', q')) :
    sh.tail ≤ sh'.tail := by
  cases Producer.step_log h with
  | claim _ _ _ tail _ _ => rw [tail]; exact Nat.le_add_right _ _
  | same _ tail _ | payload _ _ _ _ _ tail _ | finish _ _ _ _ tail _ _ => exact tail.ge

/-- `Read` leaves the slots alone. -/
theorem Reader.step_slots {q q' : Reader} {a : Ring.ReadAct} (h : q.step C sh a = some (sh', q')) :
    sh'.slots = sh.slots := by
  cases Reader.step_rule h <;> rfl

/-- `Read` leaves the history and `tail` alone. -/
theorem Reader.step_log {q q' : Reader} {a : Ring.ReadAct} (h : q.step C sh a = some (sh', q')) :
    sh'.log = sh.log ∧ sh'.tail = sh.tail := by
  cases Reader.step_rule h <;> exact ⟨rfl, rfl⟩

/-- What an access of a ring operation does. -/
theorem World.apply_prod {a : ProdAct} (hx : w.apply K (.prod t a) = some w') :
    ∃ q sh, (w.ring.prods t).step K.cap t w.sh a = some (sh, q) ∧ w'.ring.prods t = q ∧
      w'.sh = sh := by
  obtain ⟨r, hr, rfl⟩ := Option.map_eq_some_iff.mp hx
  obtain ⟨⟨sh, q⟩, hst, rfl⟩ := Option.map_eq_some_iff.mp hr
  exact ⟨q, sh, hst, update_self .., rfl⟩

/-- What an access of `Read` does. -/
theorem World.apply_read {a : Ring.ReadAct} (hx : w.apply K (.reader a) = some w') :
    ∃ q sh, w.ring.reader.step K.cap w.sh a = some (sh, q) ∧ w'.ring.reader = q ∧ w'.sh = sh ∧
      w'.wake = w.wake := by
  obtain ⟨r, hr, rfl⟩ := Option.map_eq_some_iff.mp hx
  obtain ⟨⟨sh, q⟩, hst, rfl⟩ := Option.map_eq_some_iff.mp hr
  exact ⟨q, sh, hst, rfl, rfl, rfl⟩

/-! ### Frames -/

/-- A watch adds a token at most. -/
theorem World.watchProducer_eq (w : World) (id : Nat) : ∃ n watches, w.wake.notEmpty ≤ n ∧
    w.watchProducer id = { w with wake := { w.wake with notEmpty := n }, watches := watches } := by
  unfold World.watchProducer
  split
  · exact ⟨_, _, le_rfl, rfl⟩
  · split
    · exact ⟨_, _, Nat.le_succ _, rfl⟩
    · exact ⟨_, _, le_rfl, rfl⟩

/-- Only `Read` moves `head`, and only forward goes `tail`. -/
theorem World.apply_cursors (hr : ∀ a, x ≠ .reader a) (hx : w.apply K x = some w') :
    w'.sh.head = w.sh.head ∧ w.sh.tail ≤ w'.sh.tail := by
  cases x with
  | prod u a =>
    obtain ⟨q, sh, hst, -, hsh⟩ := World.apply_prod hx
    rw [hsh]
    exact ⟨Producer.step_head hst, Producer.step_tail hst⟩
  | reader a => exact absurd rfl (hr a)
  | watch id =>
    cases hx
    obtain ⟨n, watches, -, heq⟩ := w.watchProducer_eq id
    rw [heq]
    exact ⟨rfl, le_rfl⟩
  | _ =>
    cases hx
    exact ⟨rfl, le_rfl⟩

theorem World.apply_prods {u : Nat} (hu : ∀ a, x ≠ .prod u a) (hx : w.apply K x = some w') :
    w'.ring.prods u = w.ring.prods u := by
  cases x with
  | prod v a =>
    obtain ⟨r, hr, rfl⟩ := Option.map_eq_some_iff.mp hx
    obtain ⟨⟨sh, q⟩, -, rfl⟩ := Option.map_eq_some_iff.mp hr
    exact update_of_ne (fun huv => hu a (by rw [huv])) ..
  | reader a =>
    obtain ⟨r, hr, rfl⟩ := Option.map_eq_some_iff.mp hx
    obtain ⟨⟨sh, q⟩, -, rfl⟩ := Option.map_eq_some_iff.mp hr
    rfl
  | watch id =>
    cases hx
    obtain ⟨n, watches, -, heq⟩ := w.watchProducer_eq id
    rw [heq]
  | _ =>
    cases hx
    rfl

theorem World.apply_reader (hr : ∀ a, x ≠ .reader a) (hx : w.apply K x = some w') :
    w'.ring.reader = w.ring.reader := by
  cases x with
  | prod v a =>
    obtain ⟨r, hr, rfl⟩ := Option.map_eq_some_iff.mp hx
    obtain ⟨⟨sh, q⟩, -, rfl⟩ := Option.map_eq_some_iff.mp hr
    rfl
  | reader a => exact absurd rfl (hr a)
  | watch id =>
    cases hx
    obtain ⟨n, watches, -, heq⟩ := w.watchProducer_eq id
    rw [heq]
  | _ =>
    cases hx
    rfl

/-- The waiters and the tokens for senders change only with an access of their own. -/
theorem World.apply_wake (hv : ∀ v, x ≠ .wake v) (hx : w.apply K x = some w') :
    w'.wake.sendWaiters = w.wake.sendWaiters ∧ w'.wake.notFull = w.wake.notFull := by
  cases x with
  | prod v a | reader a =>
    obtain ⟨r, hr, rfl⟩ := Option.map_eq_some_iff.mp hx
    exact ⟨rfl, rfl⟩
  | wake v => exact absurd rfl (hv v)
  | watch id =>
    cases hx
    obtain ⟨n, watches, -, heq⟩ := w.watchProducer_eq id
    rw [heq]
    exact ⟨rfl, rfl⟩
  | _ =>
    cases hx
    exact ⟨rfl, rfl⟩

/-- An owner changes only in a compare-and-swap on it. -/
theorem World.apply_owner (hx : w.apply K x = some w') (i : Nat) :
    (w'.sh.slots i).owner = (w.sh.slots i).owner ∨
      ∃ p, x = .setOwner i p ∧ (w'.sh.slots i).owner = p := by
  cases x with
  | prod u a =>
    obtain ⟨q, sh, hst, -, hsh⟩ := World.apply_prod hx
    rw [hsh]
    exact .inl (prod_owner hst i)
  | reader a =>
    obtain ⟨q, sh, hst, -, hsh, -⟩ := World.apply_read hx
    rw [hsh, Reader.step_slots hst]
    exact .inl rfl
  | setOwner j p =>
    cases hx
    show (update w.sh.slots j _ i).owner = _ ∨
      ∃ p', _ ∧ (update w.sh.slots j _ i).owner = p'
    by_cases hij : i = j
    · subst hij
      exact .inr ⟨p, rfl, by rw [update_self]⟩
    · rw [update_of_ne hij]
      exact .inl rfl
  | clearAt j =>
    cases hx
    exact .inl (storeAt_owner _ _ _ _)
  | watch id =>
    cases hx
    obtain ⟨n, watches, -, heq⟩ := w.watchProducer_eq id
    rw [heq]
    exact .inl rfl
  | _ =>
    cases hx
    exact .inl rfl

/-- Waiters and tokens of the receiver change only with an access of their own; a watch may add a
    token. -/
theorem World.apply_notEmpty (hv : ∀ v, x ≠ .wake v) (hx : w.apply K x = some w') :
    w.wake.notEmpty ≤ w'.wake.notEmpty ∧ w'.wake.recvWaiters = w.wake.recvWaiters := by
  cases x with
  | prod v a | reader a =>
    obtain ⟨r, hr, rfl⟩ := Option.map_eq_some_iff.mp hx
    exact ⟨le_rfl, rfl⟩
  | wake v => exact absurd rfl (hv v)
  | watch id =>
    cases hx
    obtain ⟨n, watches, hle, heq⟩ := w.watchProducer_eq id
    rw [heq]
    exact ⟨hle, rfl⟩
  | _ =>
    cases hx
    exact ⟨le_rfl, rfl⟩

/-- The history changes in ring operations and in `reclaim`. -/
theorem World.apply_log (hc : ∀ c n, x ≠ .casLength c n) (hx : w.apply K x = some w') :
    (w'.sh.log = w.sh.log ∧ w'.sh.tail = w.sh.tail) ∨
      ∃ t a q, x = .prod t a ∧ (w.ring.prods t).step K.cap t w.sh a = some (w'.sh, q) := by
  cases x with
  | prod u a =>
    obtain ⟨q, sh, hst, -, rfl⟩ := World.apply_prod hx
    exact .inr ⟨u, a, q, rfl, hst⟩
  | reader a =>
    obtain ⟨q, sh, hst, -, rfl, -⟩ := World.apply_read hx
    exact .inl (Reader.step_log hst)
  | casLength c n => exact absurd rfl (hc c n)
  | watch id =>
    cases hx
    obtain ⟨n, watches, -, heq⟩ := w.watchProducer_eq id
    rw [heq]
    exact .inl ⟨rfl, rfl⟩
  | _ =>
    cases hx
    exact .inl ⟨rfl, rfl⟩

/-- No access kills. -/
theorem World.apply_dead (hx : w.apply K x = some w') : w'.dead = w.dead := by
  cases x with
  | prod v a | reader a =>
    obtain ⟨r, hr, rfl⟩ := Option.map_eq_some_iff.mp hx
    rfl
  | watch id =>
    cases hx
    obtain ⟨n, watches, -, heq⟩ := w.watchProducer_eq id
    rw [heq]
  | _ =>
    cases hx
    rfl

/-! ### Which accesses a party makes -/

/-- A sender makes no access of `Read`, of another goroutine or of `reclaim`. -/
theorem Sender.step_access {p p' : Sender} {a : SendAct} (h : p.step K t w a = some (p', x)) :
    (∀ b, x ≠ .reader b) ∧ (∀ u b, u ≠ t → x ≠ .prod u b) ∧ ∀ c n, x ≠ .casLength c n := by
  cases Sender.step_rule h <;>
    exact ⟨nofun, fun u b hu hx => by cases hx <;> exact hu rfl, nofun⟩

theorem Closer.step_access {h : Nat} {c c' : Closer} (hc : c.step K h w = some (c', x)) :
    (∀ b, x ≠ .reader b) ∧ ∀ c n, x ≠ .casLength c n := by
  unfold Closer.step at hc
  split at hc
  · cases hc
    exact ⟨nofun, nofun⟩
  · split at hc <;> cases hc <;> exact ⟨nofun, nofun⟩
  · cases hc

/-- A sender takes slots for its own process only. -/
theorem Sender.step_setOwner {p p' : Sender} {a : SendAct} {i owner : Nat}
    (h : p.step K t w a = some (p', .setOwner i owner)) : owner = K.proc t := by
  cases Sender.step_rule h <;> rfl

/-- The receiver runs no producer. -/
theorem Recv.step_access {r r' : Recv} {a : RecvAct} (h : r.step K w a = some (r', x)) (u : Nat)
    (b : ProdAct) : x ≠ .prod u b := by
  cases Recv.step_rule h <;> nofun

/-- The receiver takes no slot. -/
theorem Recv.step_setOwner {r r' : Recv} {a : RecvAct} (h : r.step K w a = some (r', x)) (i owner : Nat) :
    x ≠ .setOwner i owner := by
  cases Recv.step_rule h <;> nofun

/-! ### Steps of the queue -/

/-- Nobody dies in a step that is no death. -/
theorem Sys.step_dead_eq {a : Act} (ha : ∀ id, a ≠ .die id) (hs : s.step K a = some s') :
    s'.world.dead = s.world.dead := by
  cases a with
  | recv b =>
    obtain ⟨r, x, w, -, hx, rfl⟩ := Sys.step_recv_eq hs
    exact World.apply_dead hx
  | send t b =>
    obtain ⟨-, u, x, w, -, hx, rfl⟩ := Sys.step_send_eq hs
    exact World.apply_dead hx
  | drop h =>
    obtain ⟨-, c, x, w, -, hx, rfl⟩ := Sys.step_drop_eq hs
    exact World.apply_dead hx
  | close h =>
    simp only [Sys.step] at hs
    split at hs <;> cases hs
    rfl
  | die id => exact absurd rfl (ha id)

/-- A dead process stays dead. -/
theorem Sys.step_dead {a : Act} {p : Nat} (hs : s.step K a = some s') (hp : p ∈ s.world.dead) :
    p ∈ s'.world.dead := by
  by_cases ha : ∃ id, a = .die id
  · obtain ⟨id, rfl⟩ := ha
    simp only [Sys.step] at hs
    split at hs <;> cases hs
    exact List.mem_cons_of_mem _ hp
  · rwa [Sys.step_dead_eq (fun id hid => ha ⟨id, hid⟩) hs]

/-- Only the receiver runs `Read`. -/
theorem Sys.step_reader {a : Act} (ha : ∀ b, a ≠ .recv b) (hs : s.step K a = some s') :
    s'.world.ring.reader = s.world.ring.reader := by
  cases a with
  | recv b => exact absurd rfl (ha b)
  | send t b =>
    obtain ⟨-, u, x, w, hu, hx, rfl⟩ := Sys.step_send_eq hs
    exact World.apply_reader (Sender.step_access hu).1 hx
  | drop h =>
    obtain ⟨-, c, x, w, hc, hx, rfl⟩ := Sys.step_drop_eq hs
    exact World.apply_reader (Closer.step_access hc).1 hx
  | close h | die id =>
    simp only [Sys.step] at hs
    split at hs <;> cases hs
    rfl

/-- Only the receiver moves `head`. -/
theorem Sys.step_head {a : Act} (ha : ∀ b, a ≠ .recv b) (hs : s.step K a = some s') :
    s'.world.sh.head = s.world.sh.head := by
  cases a with
  | recv b => exact absurd rfl (ha b)
  | send t b =>
    obtain ⟨-, u, x, w, hu, hx, rfl⟩ := Sys.step_send_eq hs
    exact (World.apply_cursors (Sender.step_access hu).1 hx).1
  | drop h =>
    obtain ⟨-, c, x, w, hc, hx, rfl⟩ := Sys.step_drop_eq hs
    exact (World.apply_cursors (Closer.step_access hc).1 hx).1
  | close h | die id =>
    simp only [Sys.step] at hs
    split at hs <;> cases hs
    rfl

/-- A step of the queue is one of the receiver, or leaves it where it is. -/
theorem Sys.step_recv_or {a : Act} (hs : s.step K a = some s') :
    (∃ b x, a = .recv b ∧ s.recv.step K s.world b = some (s'.recv, x) ∧
      s.world.apply K x = some s'.world) ∨ ((∀ b, a ≠ .recv b) ∧ s'.recv = s.recv) := by
  cases a with
  | recv b =>
    obtain ⟨r, x, w, hr, hx, rfl⟩ := Sys.step_recv_eq hs
    exact .inl ⟨b, x, rfl, hr, hx⟩
  | send t b =>
    obtain ⟨-, u, x, w, -, -, rfl⟩ := Sys.step_send_eq hs
    exact .inr ⟨by simp, rfl⟩
  | drop h =>
    obtain ⟨-, c, x, w, -, -, rfl⟩ := Sys.step_drop_eq hs
    exact .inr ⟨by simp, rfl⟩
  | close h | die id =>
    simp only [Sys.step] at hs
    split at hs <;> cases hs
    exact .inr ⟨by simp, rfl⟩

end GoIpc.Queue
