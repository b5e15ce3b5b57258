import GoIpc.Lib.Machine

namespace GoIpc.Lib

/-!
# A line of tickets

What a queue with reservations is for, without a buffer, cursors or concurrency.  Owners draw
numbered tickets, fill or void them in any order, and a single server serves the tickets strictly in
order: it hands on what is in a filled one, skips a void one, and waits at one that is neither.  An
owner that leaves does nothing any more; its unfinished tickets may be forfeited.
-/

/-- What has become of a ticket. -/
inductive Mark (μ : Type)
  | waiting
  | filled (m : μ)
  | void
deriving DecidableEq

/-- The tickets in the order they were drawn, how many are served, what was handed on, and who has
    left. -/
structure Line (ι μ : Type) where
  tickets : List (ι × Mark μ)
  served : Nat
  out : List μ
  gone : List ι
deriving DecidableEq

/-- What can happen to a line. -/
inductive Deed (ι μ : Type)
  | draw (o : ι)
  | fill (k : Nat) (m : μ)
  | void (k : Nat)
  | forfeit (k : Nat)
  | serve
  | leave (o : ι)
deriving DecidableEq

namespace Line

variable {ι μ : Type}

def start : Line ι μ := ⟨[], 0, [], []⟩

/-- Finish ticket `k`, which must be waiting and whose owner must meet `allowed`. -/
def finish (l : Line ι μ) (k : Nat) (mark : Mark μ) (allowed : ι → Bool) : Option (Line ι μ) :=
  match l.tickets[k]? with
  | some (o, .waiting) =>
      if allowed o then some { l with tickets := l.tickets.set k (o, mark) } else none
  | _ => none

theorem finish_eq {l : Line ι μ} {k : Nat} {mark : Mark μ} {allowed : ι → Bool} {o : ι}
    (hk : l.tickets[k]? = some (o, .waiting)) (ho : allowed o = true) :
    l.finish k mark allowed = some { l with tickets := l.tickets.set k (o, mark) } := by
  unfold finish
  rw [hk]
  dsimp only
  rw [if_pos ho]

variable [DecidableEq ι]

def step (l : Line ι μ) : Deed ι μ → Option (Line ι μ)
  | .draw o => if o ∈ l.gone then none else some { l with tickets := l.tickets ++ [(o, .waiting)] }
  | .fill k m => l.finish k (.filled m) (fun o => o ∉ l.gone)
  | .void k => l.finish k .void (fun o => o ∉ l.gone)
  | .forfeit k => l.finish k .void (fun o => o ∈ l.gone)
  | .serve =>
      match l.tickets[l.served]? with
      | some (_, .filled m) => some { l with served := l.served + 1, out := l.out ++ [m] }
      | some (_, .void) => some { l with served := l.served + 1 }
      | _ => none
  | .leave o => some { l with gone := o :: l.gone }

/-- Every history of a line. -/
def machine (ι μ : Type) [DecidableEq ι] : Machine (Line ι μ) (Deed ι μ) := ⟨start, step⟩

/-- The line after a history. -/
abbrev after (l : Line ι μ) (ds : List (Deed ι μ)) : Option (Line ι μ) := (machine ι μ).run l ds

theorem run_one {l l' : Line ι μ} {d : Deed ι μ} (h : l.step d = some l') : l.after [d] = some l' :=
  Machine.run_cons h []

end Line

end GoIpc.Lib
