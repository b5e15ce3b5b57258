import GoIpc.Ring.History
import GoIpc.Ring.ProducerSteps
import GoIpc.Ring.ReaderSteps

namespace GoIpc.Ring

open GoIpc.Lib

/-!
# Exactly-once FIFO delivery

Every step of every party keeps the ring invariant (`Inv.step_prod`, `Inv.step_reader`), so it
holds along every interleaving.  What `Read` has passed to its callback is then always a prefix
of the committed claims in the order of their compare-and-swap, and exactly the committed claims
below `head` whenever `Read` is not running.
-/

variable {C : Capacity} {mend : Option Nat} {s s' : Sys}

/-! ### The whole system -/

theorem Sys.step_prod_eq {t : Nat} {a : ProdAct} (h : s.step C (.prod t a) = some s') :
    ∃ sh p, (s.prods t).step C t s.sh a = some (sh, p) ∧
      s' = { s with sh := sh, prods := Function.update s.prods t p } := by
  obtain ⟨⟨sh, p⟩, hp, rfl⟩ := Option.map_eq_some_iff.mp h
  exact ⟨sh, p, hp, rfl⟩

theorem Sys.step_reader_eq {a : ReadAct} (h : s.step C (.reader a) = some s') :
    ∃ sh rd, s.reader.step C s.sh a = some (sh, rd) ∧ s' = { s with sh := sh, reader := rd } := by
  obtain ⟨⟨sh, rd⟩, hr, rfl⟩ := Option.map_eq_some_iff.mp h
  exact ⟨sh, rd, hr, rfl⟩

/-- **A producer's step keeps the invariant**, unless its claim was taken over. -/
theorem Inv.step_prod (h : Inv C mend s) {t : Nat} {a : ProdAct}
    (hlost : ¬ Lost s.sh t (s.prods t)) (hs : s.step C (.prod t a) = some s') : Inv C mend s' := by
  obtain ⟨sh, p, hp, rfl⟩ := Sys.step_prod_eq hs
  have hl := (h.prods t).resolve_left hlost
  obtain ⟨hg, hl'⟩ := Producer.step_inv h.ok hl hp
  have hpos : Sys.pos { s with sh := sh, prods := Function.update s.prods t p } = s.pos := by
    show s.reader.pos sh.head = s.reader.pos s.sh.head
    rw [hg.head]
  refine ⟨?_, ?_, ?_, h.mending⟩
  · rw [hpos]
    exact hg.ok
  · intro t'
    rw [hpos]
    by_cases ht : t' = t
    · subst ht
      dsimp only
      rw [Function.update_self]
      exact .inr hl'
    · dsimp only
      rw [Function.update_of_ne ht]
      refine (h.prods t').imp (fun hx => hx.stable hg.grows) (fun hx => ?_)
      refine hx.stable h.ok (le_of_eq hg.head.symm) (le_refl _) ?_
      intro e he howner hst _
      exact hg.others e he (by omega) hst
  · exact h.reader.stable hg.grows hg.head hg.low hg.header

/-- **A reader's step keeps the invariant.** -/
theorem Inv.step_reader (h : Inv C none s) {a : ReadAct} (hs : s.step C (.reader a) = some s') :
    Inv C none s' := by
  obtain ⟨sh, rd, hr, rfl⟩ := Sys.step_reader_eq hs
  obtain ⟨hadv, hl⟩ := Reader.step_inv h.ok h.reader hr
  refine ⟨hadv.ok, ?_, hl, fun hm => absurd rfl hm⟩
  intro t
  refine (h.prods t).imp (fun hx => hx.stable (.of_eq hadv.log hadv.tail)) (fun hx => ?_)
  exact hx.stable h.ok hadv.head hadv.moved (fun e he _ hst _ => hadv.claims e he hst)

/-- Without a receiver that recovers, no claim is ever taken over. -/
theorem inv_of_reach (h : (machine C).Reach (fun _ _ => True) s) :
    Inv C none s ∧ ∀ e ∈ s.sh.log, ¬ e.Taken := by
  refine Machine.Reach.invariant (I := fun s => Inv C none s ∧ ∀ e ∈ s.sh.log, ¬ e.Taken)
    ⟨Inv.start C, by simp [machine, Sys.start, Shared.start]⟩ ?_ h
  rintro s t a ⟨hinv, hnot⟩ - hs
  cases a with
  | prod i a =>
    have hlost : ¬ Lost s.sh i (s.prods i) := by
      rintro ⟨e, he, -, -, ht⟩
      exact hnot e he ht
    refine ⟨hinv.step_prod hlost hs, ?_⟩
    obtain ⟨sh, p, hp, rfl⟩ := Sys.step_prod_eq hs
    intro e he ht
    obtain ⟨x, hx, hxt⟩ := (Producer.step_log hp).taken he ht
    exact hnot x hx hxt
  | reader a =>
    refine ⟨hinv.step_reader hs, ?_⟩
    obtain ⟨sh, rd, hr, rfl⟩ := Sys.step_reader_eq hs
    obtain ⟨hadv, -⟩ := Reader.step_inv hinv.ok hinv.reader hr
    rwa [show ({ s with sh := sh, reader := rd } : Sys).sh.log = s.sh.log from hadv.log]

/-- **Exactly-once FIFO delivery.** In every interleaving of any number of producers and one
    reader, what `Read` has passed on is a prefix of the committed claims in the order of their
    compare-and-swap on `tail`, with the type and the bytes their producers wrote; whenever no
    `Read` is running it is exactly the committed claims that end below `head`; and no `Read`
    ever returned `ErrCorrupt`. -/
theorem read_exactly_once (h : (machine C).Reach (fun _ _ => True) s) :
    s.sh.delivered <+: committedOf s.sh.log ∧
      (∀ last, s.reader = .idle last →
        s.sh.delivered = committedOf (below Entry.stop s.sh.head s.sh.log)) ∧
      ∀ n, s.reader ≠ .idle (some (n, some .corrupt)) := by
  obtain ⟨hinv, -⟩ := inv_of_reach h
  refine ⟨?_, ?_, ?_⟩
  · rw [hinv.ok.delivered]
    exact ((below_isPrefix hinv.ok.tiled _).filter _).map _
  · intro last hidle
    rw [hinv.ok.delivered]
    show committedOf (below Entry.stop (s.reader.pos s.sh.head) s.sh.log) = _
    rw [hidle]
    rfl
  · intro n hidle
    have hl := hinv.reader
    rw [hidle] at hl
    exact hl n rfl

/-- Producer 1 claims behind producer 0 and commits first, so the first `Read` finds nothing;
    once producer 0 has committed too, the second `Read` delivers both in claim order. -/
def outOfOrder : List Act :=
  [.prod 0 (.tryClaim none 1 2), .prod 0 .step, .prod 0 .step, .prod 0 .step,
   .prod 1 (.tryWrite none 2 [9]), .prod 1 .step, .prod 1 .step, .prod 1 .step, .prod 1 .step,
   .prod 1 .step, .prod 1 .step, .prod 1 .step,
   .reader (.read 5), .reader .step, .reader .step, .reader .step,
   .prod 0 .step, .prod 0 .step, .prod 0 (.put 0 7), .prod 0 (.put 1 8), .prod 0 .commit,
   .reader (.read 5), .reader .step, .reader .step,
   .reader .step, .reader .step, .reader .step, .reader .step, .reader .step,
   .reader .step, .reader .step, .reader .step, .reader .step, .reader .step, .reader .step]

theorem outOfOrder_run :
    ((machine Capacity.smallest).run Sys.start outOfOrder).map
        (fun s => (s.reader, s.sh.delivered, s.sh.head))
      = some (.idle (some (2, none)), [(1, [7, 8]), (2, [9])], 32) := by
  decide +kernel

theorem outOfOrder_exactly_once :
    ∃ s : Sys, (machine Capacity.smallest).Reach (fun _ _ => True) s ∧
      s.reader = .idle (some (2, none)) ∧ s.sh.delivered = [(1, [7, 8]), (2, [9])] ∧
      s.sh.delivered <+: committedOf s.sh.log ∧
      s.sh.delivered = committedOf (below Entry.stop s.sh.head s.sh.log) := by
  obtain ⟨s, hreach, heq⟩ := Machine.Reach.exists_of_run outOfOrder_run
  simp only [Prod.mk.injEq] at heq
  obtain ⟨hidle, hdel, -⟩ := heq
  obtain ⟨h1, h2, -⟩ := read_exactly_once hreach
  exact ⟨s, hreach, hidle, hdel, h1, h2 _ hidle⟩

end GoIpc.Ring
