import GoIpc.Lib.Simulation
import GoIpc.Ring.Delivery

namespace GoIpc.Ring

open GoIpc.Lib

/-!
# Claiming is lock-free

`tryClaim` loops: a failed compare-and-swap on `tail`, and a `head` that has passed the loaded `tail`,
send a producer back to the load of `tail`.  Either way some other producer has claimed in between.
`Producer.rank` bounds the accesses up to the end of the current round, and every round after the
first is paid for by a claim of another producer:

* `claim_lock_free` — in every interleaving a producer makes at most seven accesses in the loop for
  each call it started, and seven more for each claim of the others.
-/

variable {C : Capacity} {t u : Nat} {s s' : Shared} {p p' : Producer} {a : ProdAct}

/-! ### The loop of `tryClaim` -/

/-- The `tail` a producer has loaded in the current round. -/
def Producer.loaded : Producer → Option Nat
  | .loadCache _ tail | .loadHead _ tail | .storeCache _ tail _ | .storeSize _ tail
  | .storeAt _ tail | .casTail _ tail => some tail
  | _ => none

/-- How many accesses the current round can still take. -/
def Producer.rank : Producer → Nat
  | .loadTail _ => 7
  | .loadCache _ _ => 6
  | .loadHead _ _ => 5
  | .storeCache _ _ _ => 4
  | .storeSize _ _ => 3
  | .storeAt _ _ => 2
  | .casTail _ _ | .giveUp _ => 1
  | _ => 0

/-- A call that starts, or an access in the loop. -/
inductive Tick
  | call
  | access
deriving DecidableEq

/-- What a producer does about its claim in a step. -/
def Producer.ticks (p : Producer) : ProdAct → List Tick
  | .step => if 0 < p.rank then [.access] else []
  | .tryClaim _ _ _ | .tryWrite _ _ _ => [.call]
  | .put _ _ | .commit | .abort => []

/-- What producer `t` does about its claim in a step of the ring. -/
def Sys.ticks (t : Nat) (s : Sys) : Act → List Tick
  | .prod u a => if u = t then (s.prods t).ticks a else []
  | .reader _ => []

/-! ### The claims of the others -/

/-- How many claims of a history are not of producer `t`. -/
def others (t : Nat) (log : List Entry) : Nat := log.countP (fun e => e.owner ≠ t)

theorem others_below (t v : Nat) (log : List Entry) :
    others t (below Entry.stop v log) ≤ others t log :=
  List.Sublist.countP_le List.filter_sublist

/-- A claim of another producer that the loaded `tail` does not cover. -/
theorem others_below_lt {v : Nat} {log : List Entry} {e : Entry} (he : e ∈ log) (hne : e.owner ≠ t)
    (hv : v < e.stop) : others t (below Entry.stop v log) < others t log := by
  induction log with
  | nil => cases he
  | cons x xs ih =>
    have hle := others_below t v xs
    unfold others below at hle ih ⊢
    grind

theorem others_map (g : Entry → Entry) (hg : ∀ e, (g e).owner = e.owner) (log : List Entry) :
    others t (log.map g) = others t log := by
  unfold others
  rw [List.countP_map]
  congr 1
  funext e
  simp [hg]

/-- No step takes a claim of the others back. -/
theorem LogStep.others_le (h : LogStep C u p p' s s') (t : Nat) :
    others t s.log ≤ others t s'.log ∧
      ∀ v, others t (below Entry.stop v s.log) ≤ others t (below Entry.stop v s'.log) := by
  cases h with
  | same log _ _ =>
    rw [log]
    exact ⟨le_rfl, fun _ => le_rfl⟩
  | claim q _ log _ _ _ =>
    rw [log]
    refine ⟨?_, fun v => ?_⟩
    · unfold others
      rw [List.countP_append]
      exact Nat.le_add_right _ _
    · unfold others below
      rw [List.filter_append, List.countP_append]
      exact Nat.le_add_right _ _
  | payload _ _ _ _ log _ _ | finish _ _ _ log _ _ _ =>
    rw [log]
    refine ⟨(others_map _ (fun e => by split <;> rfl) _).ge, fun v => ?_⟩
    show _ ≤ others t (below Entry.stop v (List.map _ s.log))
    rw [below_map fun e => by split <;> rfl]
    exact (others_map _ (fun e => by split <;> rfl) _).ge

/-! ### Paying for a round -/

/-- The claims of the others that a producer's rounds so far are paid with: while it works with a
    loaded `tail`, those below it. -/
def Producer.credit (t : Nat) (log : List Entry) (p : Producer) : Nat :=
  match p.loaded with
  | some v => others t (below Entry.stop v log)
  | none => others t log

theorem Producer.credit_le (log : List Entry) (p : Producer) : p.credit t log ≤ others t log := by
  unfold Producer.credit
  split
  · exact others_below t _ _
  · exact le_rfl

/-- The loaded `tail` was the tail once, and the producer has not claimed since. -/
def Producer.Behind (t : Nat) (s : Shared) (p : Producer) : Prop :=
  ∀ v, p.loaded = some v → v ≤ s.tail ∧ ∀ e ∈ s.log, e.owner = t → e.stop ≤ v

/-- A loaded `tail` that is no longer the tail: another producer has claimed. -/
theorem Producer.Behind.overtaken {pos v : Nat} {mend : Option Nat} (hb : p.Behind t s)
    (hok : s.Ok C mend pos) (hv : p.loaded = some v) (hlt : v < s.tail) :
    others t (below Entry.stop v s.log) < others t s.log := by
  obtain ⟨e, he, -, h2⟩ := hok.tiled.cover (Nat.zero_le v) hlt
  refine others_below_lt he (fun howner => ?_) h2
  have := (hb v hv).2 e he howner
  omega

theorem Producer.rank_start (slot : Option Nat) (typ : Word) (length : Int)
    (payload : Option (List UInt8)) : (Producer.start C slot typ length payload).rank ≤ 7 ∧
      (Producer.start C slot typ length payload).loaded = none := by
  unfold Producer.start
  split
  · exact ⟨Nat.zero_le _, rfl⟩
  · split
    · exact ⟨Nat.zero_le _, rfl⟩
    · exact ⟨le_rfl, rfl⟩

theorem Producer.rank_intent (q : Req) (tail : Nat) :
    (Producer.intent q tail).rank ≤ 3 ∧ (Producer.intent q tail).loaded = some tail := by
  unfold Producer.intent
  split
  · exact ⟨le_rfl, rfl⟩
  · exact ⟨by simp [Producer.rank], rfl⟩

/-- A step that costs what the rank and the credit of a producer allow. -/
def Pays (t : Nat) (s s' : Shared) (p p' : Producer) (a : ProdAct) : Prop :=
  (p.ticks a).count .access + p'.rank + 7 * p.credit t s.log ≤
    p.rank + 7 * ((p.ticks a).count .call + p'.credit t s'.log) ∧ p'.Behind t s'

/-- **Every step of a producer is paid for.** -/
theorem Producer.step_paid {pos : Nat} {mend : Option Nat} (hok : s.Ok C mend pos)
    (hb : p.Behind t s) (h : p.step C t s a = some (s', p')) : Pays t s s' p p' a := by
  have hgrow := ((Producer.step_log h).others_le t).1
  have hcredit := p.credit_le (t := t) s.log
  -- outside of a round all claims of the others count
  have out : ∀ (sh : Shared) {q : Producer}, q.loaded = none →
      q.credit t sh.log = others t sh.log ∧ q.Behind t sh := by
    intro sh q hq
    refine ⟨?_, fun v hv => ?_⟩
    · unfold Producer.credit
      rw [hq]
    · rw [hq] at hv
      cases hv
  -- the round goes on
  have goes_on : ∀ {v : Nat}, p.loaded = some v → p'.loaded = some v → s'.log = s.log →
      s'.tail = s.tail → p.ticks a = [.access] → p'.rank < p.rank → Pays t s s' p p' a := by
    intro v hv hv' hlog htail hticks hrank
    have hc : p'.credit t s'.log = p.credit t s.log := by
      unfold Producer.credit
      rw [hv, hv', hlog]
    refine ⟨?_, fun w hw => ?_⟩
    · rw [hticks, hc, List.count_singleton_self, List.count_eq_zero_of_not_mem (by simp)]
      omega
    · rw [hlog, htail]
      exact hb w (hv.trans (hv'.symm.trans hw))
  -- the call starts or ends, or goes on behind the claim
  have leaves : p'.loaded = none →
      (p.ticks a).count .access + p'.rank ≤ p.rank + 7 * (p.ticks a).count .call →
      Pays t s s' p p' a := by
    intro hnone hrank
    obtain ⟨hc, hbehind⟩ := out s' hnone
    refine ⟨?_, hbehind⟩
    rw [hc]
    omega
  -- another producer has claimed, and the next round begins
  have again : ∀ {v : Nat} {q : Req}, p.loaded = some v → v < s.tail → p' = .loadTail q → s' = s →
      p.ticks a = [.access] → 0 < p.rank → Pays t s s' p p' a := by
    rintro v q hv hlt rfl rfl hticks hrank
    have hpaid := hb.overtaken hok hv hlt
    obtain ⟨hc, hbehind⟩ := out s' (q := .loadTail q) rfl
    refine ⟨?_, hbehind⟩
    rw [hticks, hc, List.count_singleton_self, List.count_eq_zero_of_not_mem (by simp)]
    unfold Producer.credit
    rw [hv]
    show 1 + 7 + _ ≤ _
    dsimp only
    omega
  cases Producer.step_rule h with
  | tryClaim | tryWrite =>
    obtain ⟨hrank, hloaded⟩ := Producer.rank_start (C := C) _ _ _ _
    exact leaves hloaded (by simpa [Producer.ticks] using Nat.le_add_left_of_le hrank)
  | loadTail =>
    have hall : others t (below Entry.stop s.tail s.log) = others t s.log := by
      unfold below
      rw [List.filter_eq_self.mpr fun e he => by simpa using (hok.tiled.bounds he).2.2]
    refine ⟨?_, fun v hv => ?_⟩
    · simp [Producer.ticks, Producer.rank, Producer.credit, Producer.loaded, hall]
    · cases hv
      exact ⟨le_rfl, fun e he _ => (hok.tiled.bounds he).2.2⟩
  | cached | storeCache =>
    obtain ⟨hrank, hloaded⟩ := Producer.rank_intent _ _
    exact goes_on rfl hloaded rfl rfl rfl (lt_of_le_of_lt hrank (by simp [Producer.rank]))
  | loadCache | room | storeSize | noSize | storeAt | noAt =>
    exact goes_on rfl rfl rfl rfl rfl (by simp [Producer.rank])
  | overtaken head =>
    exact again rfl (lt_of_lt_of_le head (le_trans hok.head_le hok.pos_le)) rfl rfl rfl
      (by simp [Producer.rank])
  | @lost q tail moved =>
    exact again rfl (lt_of_le_of_ne (hb tail rfl).1 (Ne.symm moved)) rfl rfl rfl
      (by simp [Producer.rank])
  | _ => exact leaves rfl (by simp [Producer.ticks, Producer.rank])

/-! ### Whole runs -/

/-- The accesses of producer `t` so far are paid for. -/
structure Paid (t : Nat) (ticks : List Tick) (s : Sys) : Prop where
  bound : ticks.count .access + (s.prods t).rank ≤
    7 * (ticks.count .call + (s.prods t).credit t s.sh.log)
  behind : (s.prods t).Behind t s.sh

/-- A step of another party, whose effect on the history is that of producer `u`. -/
theorem Paid.other {s s' : Sys} {ticks : List Tick} (h : Paid t ticks s) (hu : u ≠ t)
    (hprod : s'.prods t = s.prods t) (hlog : LogStep C u p p' s.sh s'.sh) : Paid t ticks s' := by
  obtain ⟨hall, hbelow⟩ := hlog.others_le t
  have hbound := h.bound
  have hcredit : (s.prods t).credit t s.sh.log ≤ (s.prods t).credit t s'.sh.log := by
    unfold Producer.credit
    split
    · exact hbelow _
    · exact hall
  have htail : s.sh.tail ≤ s'.sh.tail := by
    cases hlog with
    | claim _ _ _ tail _ _ => exact tail ▸ Nat.le_add_right _ _
    | same _ tail _ | payload _ _ _ _ _ tail _ | finish _ _ _ _ tail _ _ => exact tail.ge
  refine ⟨by rw [hprod]; omega, fun v hv => ?_⟩
  obtain ⟨hle, hstop⟩ := h.behind v (hprod ▸ hv)
  refine ⟨le_trans hle htail, fun e' he' howner => ?_⟩
  rcases hlog.was he' with ⟨e, he, hwas⟩ | ⟨q, -, rfl, -⟩
  · exact hwas.stop ▸ hstop e he (hwas.owner.trans howner)
  · exact absurd howner hu

theorem Paid.step {s s' : Sys} {ticks : List Tick} (h : Paid t ticks s)
    (hreach : (machine C).Reach (fun _ _ => True) s) {a : Act} (hs : s.step C a = some s') :
    Paid t (ticks ++ s.ticks t a) s' := by
  obtain ⟨hinv, -⟩ := inv_of_reach hreach
  cases a with
  | reader a =>
    obtain ⟨sh, rd, hr, rfl⟩ := Sys.step_reader_eq hs
    obtain ⟨hadv, -⟩ := Reader.step_inv hinv.ok hinv.reader hr
    rw [Sys.ticks, List.append_nil]
    exact h.other (C := C) (u := t + 1) (p := s.prods t) (Nat.succ_ne_self t) rfl
      (.same hadv.log hadv.tail rfl)
  | prod u a =>
    obtain ⟨sh, p, hp, rfl⟩ := Sys.step_prod_eq hs
    by_cases hu : u = t
    · subst hu
      obtain ⟨hpaid, hbehind⟩ := Producer.step_paid hinv.ok h.behind hp
      have hbound := h.bound
      simp only [Sys.ticks, if_true]
      refine ⟨?_, ?_⟩
      · rw [List.count_append, List.count_append]
        dsimp only
        rw [Function.update_self]
        omega
      · dsimp only
        rwa [Function.update_self]
    · rw [Sys.ticks, if_neg hu, List.append_nil]
      exact h.other hu (Function.update_of_ne (Ne.symm hu) _ _) (Producer.step_log hp)

/-- **Claiming is lock-free.** In every interleaving of any number of producers and one reader, the
    accesses producer `t` makes in the loop of `tryClaim` are at most seven for each call it started
    and seven for each claim that other producers made: it goes round again only because somebody
    else's claim went through. -/
theorem claim_lock_free (t : Nat) {as : List Act} {s : Sys}
    (h : (machine C).run Sys.start as = some s) :
    ((machine C).observe (Sys.ticks t) Sys.start as).count .access ≤
      7 * (((machine C).observe (Sys.ticks t) Sys.start as).count .call + others t s.sh.log) := by
  have hpaid : Paid t ((machine C).observe (Sys.ticks t) Sys.start as) s := by
    refine Machine.observe_invariant (m := machine C) (J := Paid t) ⟨?_, ?_⟩
      (fun _ _ _ _ hs hJ ht => hJ.step hs ht) h
    · exact Nat.zero_le _
    · nofun
  have hbound := hpaid.bound
  have hcredit := (s.prods t).credit_le (t := t) s.sh.log
  omega

/-- Producers 0 and 1 load the same `tail`; producer 1 claims first, and producer 0 goes round once
    more. -/
def contended : List Act :=
  [.prod 0 (.tryClaim none 1 2), .prod 0 .step, .prod 0 .step,
   .prod 1 (.tryClaim none 1 2), .prod 1 .step, .prod 1 .step, .prod 1 .step,
   .prod 0 .step, .prod 0 .step, .prod 0 .step, .prod 0 .step]

/-- Producer 0 makes six accesses for one call, where it could have made fourteen. -/
theorem contended_lock_free :
    ∃ s, (machine Capacity.smallest).run Sys.start contended = some s ∧
      others 0 s.sh.log = 1 ∧
      ((machine Capacity.smallest).observe (Sys.ticks 0) Sys.start contended).count .access = 6 ∧
      6 ≤ 7 * (((machine Capacity.smallest).observe (Sys.ticks 0) Sys.start contended).count .call +
        others 0 s.sh.log) := by
  have hrun : ((machine Capacity.smallest).run Sys.start contended).map
      (fun s => others 0 s.sh.log) = some 1 := by decide +kernel
  have hcount : ((machine Capacity.smallest).observe (Sys.ticks 0) Sys.start contended).count
      .access = 6 := by decide +kernel
  obtain ⟨s, hs, hothers⟩ := Option.map_eq_some_iff.mp hrun
  have hfree := claim_lock_free 0 hs
  rw [hcount] at hfree
  exact ⟨s, hs, hothers, hcount, hfree⟩

end GoIpc.Ring
