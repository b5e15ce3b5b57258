import GoIpc.Queue.Frames
import GoIpc.Queue.Recovery

namespace GoIpc.Queue

open GoIpc.Lib
open GoIpc.Ring (SlotStep claimSlots noIntent)

/-!
# When the death of a process wedges the receiver

`unstall` takes two dead slots over `head` that name different ends for a corrupt ring.  A process
with two goroutines can leave such slots: one goroutine has won the tail, the other has recorded an
intent of another size for the same cursor and died before its compare-and-swap failed.

* `DeadOver` — a slot of a dead process that covers a cursor;
* `Changed` — what a step of a live party can do to a slot: it was no dead slot over `head` before,
  and it is none afterwards;
* `Agree` — the dead slots over a cursor that is not read yet name the same end;
* `Recv.Verdicts` — the slots `unstall` has judged are dead slots over `head`, with the agreed end;
* `death_never_corrupts` — while every death leaves agreeing slots and `unstall` judges slots as it
  loaded them, no receive returns `ErrCorrupt`;
* `one_death_corrupts` — a run with one death in which a receive does.
-/

variable {K : Config} {s s' : Sys} {w w' : World} {t h i c : Nat}

/-! ### Dead slots -/

/-- The cursor behind the intent of slot `i`. -/
def World.stop (w : World) (i : Nat) : Nat := (w.sh.slots i).cursor + (w.sh.slots i).size

/-- Slot `i` belongs to a dead process, and its intent covers cursor `c`. -/
structure DeadOver (w : World) (c i : Nat) : Prop where
  bound : i < claimSlots
  dead : w.isDead (w.sh.slots i).owner = true
  intent : (w.sh.slots i).cursor ≠ noIntent
  le : (w.sh.slots i).cursor ≤ c
  lt : c < w.stop i

/-- The dead slots over a cursor that is not read yet name the same end. -/
def Agree (w : World) : Prop :=
  ∀ c i j, w.sh.head ≤ c → DeadOver w c i → DeadOver w c j → w.stop i = w.stop j

theorem isDead_iff {p : Nat} : w.isDead p = true ↔ watchable p = true ∧ p ∈ w.dead := by
  unfold World.isDead
  rw [Bool.and_eq_true, decide_eq_true_eq]

theorem DeadOver.congr (hd : DeadOver w c i) (hslot : w'.sh.slots i = w.sh.slots i)
    (hdead : ∀ p ∈ w.dead, p ∈ w'.dead) : DeadOver w' c i ∧ w'.stop i = w.stop i := by
  have hstop : w'.stop i = w.stop i := by rw [World.stop, hslot, World.stop]
  obtain ⟨hwatch, hmem⟩ := isDead_iff.mp hd.dead
  refine ⟨⟨hd.bound, ?_, ?_, ?_, ?_⟩, hstop⟩
  · rw [hslot]
    exact isDead_iff.mpr ⟨hwatch, hdead _ hmem⟩
  · rw [hslot]
    exact hd.intent
  · rw [hslot]
    exact hd.le
  · rw [hstop]
    exact hd.lt

/-! ### What a step does to a slot -/

/-- A slot that changed was no dead slot over a cursor from `head` on, and is none afterwards. -/
structure Changed (w w' : World) (i : Nat) : Prop where
  before : w.isDead (w.sh.slots i).owner = false ∨ (w.sh.slots i).cursor = noIntent ∨
    w.stop i ≤ w.sh.head
  after : w.isDead (w'.sh.slots i).owner = false ∨ (w'.sh.slots i).cursor = noIntent

/-- Whom an access to slot `i` comes from. -/
inductive Touches (K : Config) (w w' : World) (i : Nat) : Access → Prop
  | prod (t : Nat) (a : Ring.ProdAct) (slot : (w.ring.prods t).slot = some i)
      (owner : (w'.sh.slots i).owner = (w.sh.slots i).owner) : Touches K w w' i (.prod t a)
  | owner (p : Nat) (owner : (w'.sh.slots i).owner = p) : Touches K w w' i (.setOwner i p)
  | clear (cleared : (w'.sh.slots i).cursor = noIntent) : Touches K w w' i (.clearAt i)

theorem World.apply_slot {x : Access} (hx : w.apply K x = some w') (i : Nat) :
    w'.sh.slots i = w.sh.slots i ∨ Touches K w w' i x := by
  cases x with
  | prod u a =>
    obtain ⟨q, sh, hst, -, hsh⟩ := World.apply_prod hx
    by_cases hslot : (w.ring.prods u).slot = some i
    · exact .inr (.prod u a hslot (by rw [hsh]; exact prod_owner hst i))
    · rw [hsh]
      exact .inl ((Ring.Producer.step_slots hst).elsewhere fun h => absurd h hslot)
  | reader a =>
    obtain ⟨q, sh, hst, -, hsh, -⟩ := World.apply_read hx
    rw [hsh, Reader.step_slots hst]
    exact .inl rfl
  | setOwner j p =>
    cases hx
    by_cases hij : i = j
    · subst hij
      exact .inr (.owner p (congrArg Ring.Slot.owner (Function.update_self i _ w.sh.slots)))
    · exact .inl (Function.update_of_ne hij _ _)
  | clearAt j =>
    cases hx
    by_cases hij : i = j
    · subst hij
      exact .inr (.clear (congrArg Ring.Slot.cursor (Function.update_self i _ w.sh.slots)))
    · exact .inl (Function.update_of_ne hij _ _)
  | watch id =>
    cases hx
    unfold World.watchProducer
    split
    · exact .inl rfl
    · split <;> exact .inl rfl
  | _ =>
    cases hx
    exact .inl rfl

theorem isDead_of_live {p : Nat} (h : p ∉ w.dead) : w.isDead p = false := by
  rw [Bool.eq_false_iff]
  exact fun hd => h (isDead_iff.mp hd).2

theorem isDead_noProc : w.isDead noProc = false := rfl

/-- A party of a live process changes a slot it keeps. -/
theorem QInv.keeper_changed (hq : QInv K s) {k : Keeper} (hk : s.Keeps k i)
    (hl : K.procOf k ∉ s.world.dead)
    (hafter : (w'.sh.slots i).owner = (s.world.sh.slots i).owner ∨
      (w'.sh.slots i).owner = noProc ∨ (w'.sh.slots i).cursor = noIntent) :
    Changed s.world w' i := by
  have hlive : s.world.isDead (s.world.sh.slots i).owner = false := by
    rw [hq.slots.live k i hk hl]
    exact isDead_of_live hl
  refine ⟨.inl hlive, ?_⟩
  rcases hafter with howner | howner | hcursor
  · rw [howner]
    exact .inl hlive
  · rw [howner]
    exact .inl isDead_noProc
  · exact .inr hcursor

/-- **A sender leaves the dead slots over `head` alone.** -/
theorem QInv.send_slot (hq : QInv K s) {a : SendAct} (hp : passed s (.send t a) = true)
    (hs : s.step K (.send t a) = some s') (i : Nat) :
    s'.world.sh.slots i = s.world.sh.slots i ∨ Changed s.world s'.world i := by
  obtain ⟨hl, u, x, w, hu, hx, rfl⟩ := Sys.step_send_eq hs
  refine (World.apply_slot hx i).imp_right fun htouch => ?_
  have hm := Sender.step_move (hq.search t) hu
  cases htouch with
  | prod t' b slot owner =>
    obtain rfl : t' = t := by
      by_contra hne
      exact (Sender.step_access hu).2.1 t' b hne rfl
    exact hq.keeper_changed (k := .sender t') ((hq.runs t').keeps slot) hl (.inl owner)
  | owner p howner =>
    obtain rfl := Sender.step_setOwner hu
    refine ⟨?_, .inl (by rw [howner]; exact isDead_of_live hl)⟩
    cases hm with
    | plain _ acc _ => exact acc.elim
    | acquire _ c k pc' _ _ owner =>
      rcases owner with h0 | ⟨-, -, known, head, hpc⟩
      · rw [h0]
        exact .inl isDead_noProc
      · -- a takeover finds the intent passed
        rw [hpc] at hu
        cases a with
        | step =>
          have hpassed : (s.world.sh.slots i).cursor = noIntent ∨
              (s.world.sh.slots i).cursor + (s.world.sh.slots i).size ≤ s.world.sh.head := by
            simpa [passed, hpc] using hp
          exact .inr hpassed
        | _ => simp [Sender.step] at hu
  | clear cleared =>
    cases hm with
    | plain _ acc _ => exact acc.elim
    | wipe _ c k pc pc' =>
      exact hq.keeper_changed (k := .sender t) (by rw [Sys.Keeps, pc]; rfl) hl
        (.inr (.inr cleared))

/-- **A handle that closes leaves them alone.** -/
theorem QInv.drop_slot (hq : QInv K s) (hs : s.step K (.drop h) = some s') (i : Nat) :
    s'.world.sh.slots i = s.world.sh.slots i ∨ Changed s.world s'.world i := by
  obtain ⟨hl, c, x, w, hc, hx, rfl⟩ := Sys.step_drop_eq hs
  refine (World.apply_slot hx i).imp_right fun htouch => ?_
  cases hpc : s.closers h with
  | idle =>
    rw [hpc] at hc
    cases hc
  | wipe j rest =>
    rw [hpc] at hc
    cases hc
    cases htouch with
    | clear cleared =>
      exact hq.keeper_changed (k := .closer h)
        (by rw [Sys.Keeps, hpc]; exact List.mem_cons_self) hl (.inr (.inr cleared))
  | disown j rest =>
    rw [hpc] at hc
    simp only [Closer.step] at hc
    split at hc <;> cases hc
    · cases htouch with
      | owner p howner =>
        exact hq.keeper_changed (k := .closer h)
          (by rw [Sys.Keeps, hpc]; exact List.mem_cons_self) hl (.inr (.inl howner))
    · cases htouch

/-- **A step of another party than the receiver**, other than a death. -/
theorem QInv.other_slot (hq : QInv K s) {a : Act} (hp : passed s a = true)
    (hr : ∀ b, a ≠ .recv b) (hd : ∀ id, a ≠ .die id) (hs : s.step K a = some s') (i : Nat) :
    s'.world.sh.slots i = s.world.sh.slots i ∨ Changed s.world s'.world i := by
  cases a with
  | send t b => exact hq.send_slot hp hs i
  | drop h => exact hq.drop_slot hs i
  | recv b => exact absurd rfl (hr b)
  | die id => exact absurd rfl (hd id)
  | close h =>
    simp only [Sys.step] at hs
    split at hs <;> cases hs
    exact .inl rfl

/-! ### The agreement -/

/-- A step that kills nobody brings no dead slot over a cursor from `head` on. -/
theorem Agree.step (hagree : Agree w) (hdead : w'.dead = w.dead) (hhead : w.sh.head ≤ w'.sh.head)
    (hslots : ∀ i, w'.sh.slots i = w.sh.slots i ∨ w.isDead (w'.sh.slots i).owner = false ∨
      (w'.sh.slots i).cursor = noIntent) : Agree w' := by
  have hback : ∀ c i, DeadOver w' c i → DeadOver w c i ∧ w.stop i = w'.stop i := by
    intro c i hd
    rcases hslots i with hsame | hlive | hclear
    · exact hd.congr hsame.symm fun p hp => hdead ▸ hp
    · obtain ⟨hwatch, hmem⟩ := isDead_iff.mp hd.dead
      rw [isDead_iff.mpr ⟨hwatch, hdead ▸ hmem⟩] at hlive
      cases hlive
    · exact absurd hclear hd.intent
  intro c i j hc hi hj
  obtain ⟨hi, hstopi⟩ := hback c i hi
  obtain ⟨hj, hstopj⟩ := hback c j hj
  rw [← hstopi, ← hstopj]
  exact hagree c i j (le_trans hhead hc) hi hj

/-- The dead slots agree wherever two of them overlap from `head` on. -/
def World.agree (w : World) : Bool :=
  let dead := (List.range claimSlots).filter fun i =>
    w.isDead (w.sh.slots i).owner && (w.sh.slots i).cursor ≠ noIntent
  dead.all fun i => dead.all fun j =>
    let c := max w.sh.head (max (w.sh.slots i).cursor (w.sh.slots j).cursor)
    decide (c < w.stop i ∧ c < w.stop j → w.stop i = w.stop j)

theorem agree_of_agree (h : w.agree = true) : Agree w := by
  intro c i j hc hi hj
  have hmem : ∀ k, DeadOver w c k → k ∈ (List.range claimSlots).filter fun i =>
      w.isDead (w.sh.slots i).owner && (w.sh.slots i).cursor ≠ noIntent := by
    intro k hk
    refine List.mem_filter.mpr ⟨List.mem_range.mpr hk.bound, ?_⟩
    rw [hk.dead, Bool.true_and]
    exact decide_eq_true hk.intent
  have hall := List.all_eq_true.mp (List.all_eq_true.mp h i (hmem i hi)) j (hmem j hj)
  have hci := hi.le
  have hcj := hj.le
  have hlti := hi.lt
  have hltj := hj.lt
  exact of_decide_eq_true hall ⟨by omega, by omega⟩

/-! ### The verdicts of the receiver -/

/-- Where `unstall` stands: the slots it has judged are dead slots over the stall, with the agreed
    end. -/
structure Judges (w : World) (st : Stall) (j : Judged) (todo : List Nat) : Prop where
  bound : ∀ k ∈ todo, k < claimSlots
  dead : ∀ k ∈ j.dead, DeadOver w st.cursor k ∧ w.stop k = j.stop

/-- No receive reports a corrupt ring, and the verdicts so far agree. -/
def Recv.Verdicts (w : World) : Recv → Prop
  | .idle last | .subWaiter _ last _ => ∀ n, last ≠ some (n, some (.ring .corrupt))
  | .after _ _ _ _ err | .wakeLoad _ _ _ err | .wakeSignal _ _ _ err _ => err ≠ some .corrupt
  | .slotAt _ _ st i | .slotSize _ _ st i _ => i < claimSlots ∧ ∀ k ∈ st.slots, k < claimSlots
  | .loadOwner _ _ st j i rest | .loadAt _ _ st j i rest _ | .loadSize _ _ st j i rest _ _ =>
      Judges w st j (i :: rest)
  | .judge _ _ st j i rest _ cursor size => Judges w st j (i :: rest) ∧ cursor ≠ noIntent ∧
      cursor ≤ st.cursor ∧ st.cursor < cursor + size
  | _ => True

section Verdicts

theorem verdicts_finish (l : Int) (k : Try) (n : Nat) {err : Option QErr}
    (h : err ≠ some (.ring .corrupt)) : (Recv.finish l k n err).Verdicts w := by
  have hne : ∀ m, some (n, err) ≠ some (m, some (.ring .corrupt)) :=
    fun m heq => h (congrArg Prod.snd (Option.some.inj heq))
  cases k <;> exact hne

theorem verdicts_empty (l : Int) (k : Try) : (Recv.empty l k).Verdicts w := by
  cases k with
  | once => exact nofun
  | last => exact nofun
  | _ => trivial

theorem verdicts_afterRead (l : Int) (k : Try) (n : Nat) {err : Option Ring.Err}
    (h : err ≠ some .corrupt) : (Recv.afterRead l k n err).Verdicts w := by
  unfold Recv.afterRead
  split
  · refine verdicts_finish l k n fun he => ?_
    obtain ⟨e, rfl, heq⟩ := Option.map_eq_some_iff.mp he
    cases heq
    exact h rfl
  · trivial

theorem verdicts_nextJudge (l : Int) (k : Try) {st : Stall} {j : Judged} {rest : List Nat}
    (h : Judges w st j rest) : (Recv.nextJudge l k st j rest).Verdicts w := by
  cases rest with
  | cons i rest => exact h
  | nil =>
    simp only [Recv.nextJudge]
    split
    · exact verdicts_empty ..
    · trivial

theorem verdicts_nextSlot (l : Int) (k : Try) {st : Stall} (i : Nat)
    (h : ∀ k ∈ st.slots, k < claimSlots) : (Recv.nextSlot l k st i).Verdicts w := by
  unfold Recv.nextSlot
  split
  · next hi => exact ⟨hi, h⟩
  · refine verdicts_nextJudge l k ⟨h, fun k hk => ?_⟩
    cases hk

/-- What the receiver has found out survives a step of the others. -/
theorem Recv.Verdicts.stable {r : Recv} (h : r.Verdicts w) (hloc : r.Local K w)
    (hdead : ∀ p ∈ w.dead, p ∈ w'.dead)
    (hslots : ∀ i, w'.sh.slots i = w.sh.slots i ∨ Changed w w' i) : r.Verdicts w' := by
  -- a dead slot over `head` is not one that changed
  have hkeep : ∀ st : Stall, st.At w → ∀ j todo, Judges w st j todo → Judges w' st j todo := by
    intro st hat j todo hj
    refine ⟨hj.bound, fun k hk => ?_⟩
    obtain ⟨hover, hstop⟩ := hj.dead k hk
    rcases hslots k with hsame | hchanged
    · obtain ⟨hover', hstop'⟩ := hover.congr hsame hdead
      exact ⟨hover', hstop'.trans hstop⟩
    · have hhead := hat.head
      have hlt := hover.lt
      rcases hchanged.before with hlive | hnone | hpassed
      · rw [hover.dead] at hlive
        cases hlive
      · exact absurd hnone hover.intent
      · omega
  cases r with
  | loadOwner l k st j i rest => exact hkeep st hloc.1 j _ h
  | loadAt l k st j i rest owner => exact hkeep st hloc.1 j _ h
  | loadSize l k st j i rest owner cursor => exact hkeep st hloc.1 j _ h
  | judge l k st j i rest owner cursor size => exact ⟨hkeep st hloc.1 j _ h.1, h.2⟩
  | _ => exact h

/-- `unstall` judges a slot that is as it was loaded. -/
theorem verdicts_judge {l : Int} {k : Try} {st : Stall} {j : Judged} {rest : List Nat}
    {owner cursor size : Nat} (hagree : Agree w) (hat : st.At w) (hj : Judges w st j (i :: rest))
    (hcover : cursor ≠ noIntent ∧ cursor ≤ st.cursor ∧ st.cursor < cursor + size)
    (hdead : w.isDead owner = true) (hslot : w.sh.slots i = ⟨owner, cursor, size⟩) :
    ¬ (j.dead ≠ [] ∧ cursor + size ≠ j.stop) ∧
      (Recv.nextJudge l k st ⟨j.dead ++ [i], cursor + size⟩ rest).Verdicts w := by
  have hstop : w.stop i = cursor + size := by rw [World.stop, hslot]
  have hover : DeadOver w st.cursor i := by
    refine ⟨hj.bound i List.mem_cons_self, by rw [hslot]; exact hdead, ?_, ?_, ?_⟩
    · rw [hslot]
      exact hcover.1
    · rw [hslot]
      exact hcover.2.1
    · rw [hstop]
      exact hcover.2.2
  have hsame : ∀ k ∈ j.dead, w.stop k = cursor + size := by
    intro k hk
    rw [hagree st.cursor k i hat.head.ge (hj.dead k hk).1 hover, hstop]
  constructor
  · rintro ⟨hne, hother⟩
    obtain ⟨k, hk⟩ := List.exists_mem_of_ne_nil _ hne
    exact hother ((hsame k hk).symm.trans (hj.dead k hk).2)
  · refine verdicts_nextJudge l k ⟨fun m hm => hj.bound m (List.mem_cons_of_mem i hm), ?_⟩
    intro m hm
    rcases List.mem_append.mp hm with hm | hm
    · exact ⟨(hj.dead m hm).1, hsame m hm⟩
    · rw [List.mem_singleton.mp hm]
      exact ⟨hover, hstop⟩

/-- **A step of the receiver.** -/
theorem Recv.Verdicts.step {r r' : Recv} {a : RecvAct} {x : Access} (h : r.Verdicts w)
    (hloc : r.Local K w) (hagree : Agree w) (hreader : w.ring.reader.Local K.cap w.sh)
    (hset : ∀ l k st j i rest owner cursor size, r = .judge l k st j i rest owner cursor size →
      w.isDead owner = true → w.sh.slots i = ⟨owner, cursor, size⟩)
    (hr : r.step K w a = some (r', x)) (hx : w.apply K x = some w') : r'.Verdicts w' := by
  cases Recv.step_rule hr with
  | readDone done =>
    rw [done] at hreader
    exact fun he => hreader _ (by rw [he])
  | freed | waiters => exact h
  | still | noWaiters | signal => exact verdicts_afterRead _ _ _ h
  | drained | readable | spared | watch | raced => exact verdicts_empty ..
  | stallLen => exact ⟨by decide, nofun⟩
  | slotAt => exact h
  | skipSlot | short => exact verdicts_nextSlot _ _ _ h.2
  | covers =>
    refine verdicts_nextSlot _ _ _ fun m hm => ?_
    rcases List.mem_append.mp hm with hm | hm
    · exact h.2 m hm
    · rw [List.mem_singleton.mp hm]
      exact h.1
  | loadOwner | loadAt =>
    cases hx
    exact h
  | changed =>
    cases hx
    exact verdicts_nextJudge _ _ ⟨fun m hm => h.bound m (List.mem_cons_of_mem _ hm), h.dead⟩
  | loadSize cover =>
    cases hx
    exact ⟨h, by omega, by omega, by omega⟩
  -- two dead slots that cover the head say the same by `hagree`
  | disagree dead other =>
    exact absurd other (verdicts_judge (l := 0) (k := .once) hagree hloc.1 h.1 h.2 dead
      (hset _ _ _ _ _ _ _ _ _ rfl dead)).1
  | dead dead =>
    cases hx
    exact (verdicts_judge hagree hloc.1 h.1 h.2 dead (hset _ _ _ _ _ _ _ _ _ rfl dead)).2
  | @padType l k st j size =>
    split
    · cases j.dead <;> trivial
    · trivial
  | @clearAt l k st j i rest => cases rest <;> trivial
  | result => exact h
  | token | cancel | waitGone => exact nofun
  | _ => trivial

end Verdicts

/-! ### Runs -/

/-- `unstall` judges a slot of a dead process as it loaded it. -/
def settled (s : Sys) : Act → Bool
  | .recv .step =>
      match s.recv with
      | .judge _ _ _ _ i _ owner cursor size =>
          !s.world.isDead owner || s.world.sh.slots i = ⟨owner, cursor, size⟩
      | _ => true
  | _ => true

/-- A death leaves dead slots that agree. -/
def agreeing (s : Sys) : Act → Bool
  | .die id => (s.world.die id).agree
  | _ => true

/-- The queue while the dead agree. -/
structure Agreed (K : Config) (s : Sys) : Prop where
  inv : QInv K s
  agree : Agree s.world
  recv : s.recv.Verdicts s.world

theorem Agreed.start : Agreed K Sys.start where
  inv := QInv.start
  agree _ _ _ _ hi := absurd hi.dead (by simp [Sys.start, World.start, World.isDead])
  recv n heq := by cases heq

/-- `Read` moves `head` forward only. -/
theorem read_head_le {C : Ring.Capacity} {sh sh' : Ring.Shared} {q q' : Ring.Reader}
    {a : Ring.ReadAct} (hl : q.Local C sh) (hs : q.step C sh a = some (sh', q')) :
    sh.head ≤ sh'.head := by
  cases Ring.Reader.step_rule hs with
  | @storeHead r =>
    have hhead := hl.1.head
    show sh.head ≤ r.head + r.consumed
    omega
  | _ => exact le_rfl

theorem Agreed.step (h : Agreed K s) {a : Act} (hp : passed s a = true) (hc : clearOk s a = true)
    (hset : settled s a = true) (hdie : agreeing s a = true) (hs : s.step K a = some s') :
    Agreed K s' := by
  have hq := h.inv.step ⟨hp, hc⟩ hs
  rcases Sys.step_recv_or hs with ⟨b, x, rfl, hr, hx⟩ | ⟨hother, hrecv⟩
  · have hslots : ∀ i, s'.world.sh.slots i = s.world.sh.slots i ∨
        s.world.isDead (s'.world.sh.slots i).owner = false ∨
        (s'.world.sh.slots i).cursor = noIntent := by
      intro i
      refine (World.apply_slot hx i).imp_right fun htouch => .inr ?_
      cases htouch with
      | prod t a slot owner => exact absurd rfl (Recv.step_access hr t a)
      | owner p howner => exact absurd rfl (Recv.step_setOwner hr i p)
      | clear cleared => exact cleared
    -- only `Read` moves the head
    have hhead : s.world.sh.head ≤ s'.world.sh.head := by
      by_cases hread : ∃ d, x = .reader d
      · obtain ⟨d, rfl⟩ := hread
        obtain ⟨q, sh, hst, -, hsh, -⟩ := World.apply_read hx
        rw [hsh]
        exact read_head_le h.inv.ring.reader hst
      · exact (World.apply_cursors (fun d hd => hread ⟨d, hd⟩) hx).1.ge
    refine ⟨hq, h.agree.step (World.apply_dead hx) hhead hslots,
      h.recv.step h.inv.recv h.agree h.inv.ring.reader ?_ hr hx⟩
    intro l k st j i rest owner cursor size hpc hdead
    rw [hpc] at hr
    cases b with
    | step => simpa [settled, hpc, hdead] using hset
    | _ => simp [Recv.step] at hr
  · by_cases hd : ∃ id, a = .die id
    · obtain ⟨id, rfl⟩ := hd
      simp only [Sys.step] at hs
      split at hs <;> cases hs
      exact ⟨hq, agree_of_agree hdie,
        h.recv.stable h.inv.recv (fun p hp => List.mem_cons_of_mem id hp) fun i => .inl rfl⟩
    · have hnone : ∀ id, a ≠ .die id := fun id hid => hd ⟨id, hid⟩
      have hslots := h.inv.other_slot hp hother hnone hs
      have hdead := Sys.step_dead_eq hnone hs
      refine ⟨hq, h.agree.step hdead (Sys.step_head hother hs).ge
        (fun i => (hslots i).imp_right Changed.after), ?_⟩
      rw [hrecv]
      exact h.recv.stable h.inv.recv (fun p hp => hdead ▸ hp) hslots

/-- **No death wedges the receiver while the dead agree.**  In every run in which a death leaves
    agreeing slots, no receive returns `ErrCorrupt`. -/
theorem death_never_corrupts
    (h : (machine K).Reach (fun s a => (passed s a = true ∧ clearOk s a = true) ∧
      settled s a = true ∧ agreeing s a = true) s) (n : Nat) :
    s.recv ≠ .idle (some (n, some (.ring .corrupt))) ∧
      ∀ l k, s.recv ≠ .subWaiter l (some (n, some (.ring .corrupt))) k := by
  have hinv : Agreed K s := h.invariant Agreed.start fun _ _ _ hi hok hs =>
    hi.step hok.1.1 hok.1.2 hok.2.1 hok.2.2 hs
  have hv := hinv.recv
  refine ⟨fun hpc => ?_, fun l k hpc => ?_⟩ <;>
  · rw [hpc] at hv
    exact hv n rfl

/-- The dead claim of `deadClaim` is recovered, and the message behind it is delivered. -/
theorem death_never_corrupts_recovered :
    ∃ s, (machine pair).Reach (fun s a => (passed s a = true ∧ clearOk s a = true) ∧
      settled s a = true ∧ agreeing s a = true) s ∧ s.world.dead = [life 0] ∧
      s.world.sh.delivered = [(2, [5])] ∧ ∀ n, s.recv ≠ .idle (some (n, some (.ring .corrupt))) := by
  have hrun : ((machine pair).runOk (fun s a => (passed s a && clearOk s a) &&
      (settled s a && agreeing s a)) Sys.start (deadClaim ++ recvs 290)).map
      (fun s => (s.world.dead, s.world.sh.delivered)) = some ([life 0], [(2, [5])]) := by
    decide +kernel
  have hok : ∀ s a, ((passed s a && clearOk s a) && (settled s a && agreeing s a)) = true →
      (passed s a = true ∧ clearOk s a = true) ∧ settled s a = true ∧ agreeing s a = true := by
    intro s a h
    simpa only [Bool.and_eq_true] using h
  obtain ⟨s, hreach, hs⟩ := Machine.Reach.exists_of_runOk hok hrun
  obtain ⟨hdead, hdelivered⟩ := Prod.mk.inj hs
  exact ⟨s, hreach, hdead, hdelivered, fun n => (death_never_corrupts hreach n).1⟩

/-- Goroutine 0 has recorded its intent for 16 bytes, goroutine 1 of the same process claims 24
    bytes at the same cursor, and the process dies before goroutine 0 learns that it lost. -/
def twoEnds : List Act :=
  [Act.send 0 (.claim 1 8)] ++ steps 0 10 ++ [Act.send 1 (.claim 1 16)] ++ steps 1 12 ++
  [Act.die (life 0), .recv .tryRecv] ++ recvs 275

/-- **One death wedges the receiver.**  The two slots of the dead process name different ends, and
    the receive returns `ErrCorrupt`. -/
theorem one_death_corrupts :
    ∃ s, (machine pair).Reach (fun s a => (passed s a = true ∧ clearOk s a = true) ∧
      settled s a = true) s ∧ s.world.dead = [life 0] ∧
      s.recv = .idle (some (0, some (.ring .corrupt))) := by
  have hrun : ((machine pair).runOk (fun s a => (passed s a && clearOk s a) && settled s a)
      Sys.start twoEnds).map (fun s => (s.world.dead, s.recv)) =
      some ([life 0], .idle (some (0, some (.ring .corrupt)))) := by decide +kernel
  have hok : ∀ s a, ((passed s a && clearOk s a) && settled s a) = true →
      (passed s a = true ∧ clearOk s a = true) ∧ settled s a = true := by
    intro s a h
    simpa only [Bool.and_eq_true] using h
  obtain ⟨s, hreach, hs⟩ := Machine.Reach.exists_of_runOk hok hrun
  obtain ⟨hdead, hrecv⟩ := Prod.mk.inj hs
  exact ⟨s, hreach, hdead, hrecv⟩

end GoIpc.Queue
