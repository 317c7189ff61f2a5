import Lsf.Lib.Maps
import Mathlib.Data.List.MinMax
import Mathlib.Order.Basic

/-!
# Keyed priority queues

A queue of items with priorities in which an item occurs once. The operations are a class, so that a development can
be carried out over any implementation, and `LawfulPriorityQueue` says what they do to the priorities: in particular
`pop` hands out some item of greatest priority, and which one of several is left open. `ListQueue` is an
implementation.
-/

namespace Lsf.Lib

/-- The operations of a keyed priority queue `Q` with items `I` and priorities `P`. -/
class PriorityQueue (Q : Type) (I P : outParam Type) where
  empty : Q
  /-- Insert an item, or set the priority of an item that is there. -/
  push : Q → I → P → Q
  /-- Take out an item of greatest priority. -/
  pop : Q → Option ((I × P) × Q)
  /-- Set the priority of an item that is there. -/
  changePriority : Q → I → P → Q
  /-- Insert an item, or raise the priority of an item that is there. -/
  pushIncrease : Q → I → P → Q
  getPriority : Q → I → Option P

namespace PriorityQueue

/-- The keyed max-priority queue: every operation through the priorities it leaves behind. -/
class LawfulPriorityQueue (Q : Type) {I P : Type} [DecidableEq I] [LinearOrder P] [PriorityQueue Q I P] : Prop where
  getPriority_empty : ∀ i, getPriority (empty : Q) i = none
  getPriority_push : ∀ (q : Q) i p j, getPriority (push q i p) j = if j = i then some p else getPriority q j
  getPriority_changePriority : ∀ (q : Q) i p j,
    getPriority (changePriority q i p) j = if j = i then (getPriority q i).map fun _ => p else getPriority q j
  getPriority_pushIncrease : ∀ (q : Q) i p j, getPriority (pushIncrease q i p) j =
    if j = i then some ((getPriority q i).elim p (max p)) else getPriority q j
  pop_none : ∀ q : Q, pop q = none → ∀ i, getPriority q i = none
  pop_mem : ∀ (q : Q) i p q', pop q = some ((i, p), q') → getPriority q i = some p
  pop_max : ∀ (q : Q) i p q', pop q = some ((i, p), q') → ∀ j r, getPriority q j = some r → r ≤ p
  getPriority_pop : ∀ (q : Q) i p q', pop q = some ((i, p), q') →
    ∀ j, getPriority q' j = if j = i then none else getPriority q j

export LawfulPriorityQueue (getPriority_empty getPriority_push getPriority_changePriority getPriority_pushIncrease
  pop_none pop_mem pop_max getPriority_pop)

section Laws

variable {Q I P : Type} [DecidableEq I] [LinearOrder P] [PriorityQueue Q I P] [LawfulPriorityQueue Q]

/-- A queue that holds an item can be popped. -/
theorem exists_pop {q : Q} {i : I} (h : (getPriority q i).isSome) : ∃ j p q', pop q = some ((j, p), q') := by
  cases hpop : pop q with
  | none => rw [pop_none q hpop i] at h; cases h
  | some r => exact ⟨r.1.1, r.1.2, r.2, rfl⟩

/-- Putting back what was popped restores the priorities. -/
theorem getPriority_pushIncrease_pop {q q' : Q} {i : I} {p : P} (h : pop q = some ((i, p), q')) (j : I) :
    getPriority (pushIncrease q' i p) j = getPriority q j := by
  rw [getPriority_pushIncrease, getPriority_pop q i p q' h, getPriority_pop q i p q' h]
  by_cases hj : j = i
  · simp [hj, pop_mem q i p q' h]
  · simp [hj]

end Laws

end PriorityQueue

/-! ## An implementation -/

/-- A queue as a map from items to priorities. -/
structure ListQueue (I P : Type) where
  items : HashMap I P

namespace ListQueue

variable {I P : Type} [DecidableEq I] [LinearOrder P]

open PriorityQueue

/-- The first entry of greatest priority, and the queue without it. -/
def pop (q : ListQueue I P) : Option ((I × P) × ListQueue I P) :=
  (q.items.entries.argmax fun e => e.2).map fun e => ((e.1, e.2), ⟨q.items.erase e.1⟩)

instance : PriorityQueue (ListQueue I P) I P where
  empty := ⟨∅⟩
  push q i p := ⟨q.items.insert i p⟩
  pop := pop
  changePriority q i p := ⟨HashMap.modify q.items i fun _ => p⟩
  pushIncrease q i p := ⟨q.items.insert i ((q.items.lookup i).elim p (max p))⟩
  getPriority q i := q.items.lookup i

theorem pop_spec {q q' : ListQueue I P} {i : I} {p : P} (h : pop q = some ((i, p), q')) :
    ⟨i, p⟩ ∈ q.items.entries.argmax (fun e : Sigma fun _ : I => P => e.2) ∧ q' = ⟨q.items.erase i⟩ := by
  obtain ⟨e, he, heq⟩ := Option.map_eq_some_iff.1 h
  obtain ⟨hip, rfl⟩ := Prod.mk.inj heq
  obtain ⟨rfl, rfl⟩ := Prod.mk.inj hip
  exact ⟨he, rfl⟩

instance : LawfulPriorityQueue (ListQueue I P) where
  getPriority_empty i := AList.lookup_empty i
  getPriority_push q i p j := HashMap.lookup_insert_iff q.items i j p
  getPriority_changePriority q i p j := HashMap.lookup_modify q.items i j _
  getPriority_pushIncrease q i p j := HashMap.lookup_insert_iff q.items i j _
  pop_none q h i := by
    have hnil : q.items.entries = [] := List.argmax_eq_none.1 (Option.map_eq_none_iff.1 h)
    refine AList.lookup_eq_none.2 fun hi => ?_
    rw [AList.mem_keys, AList.keys, hnil] at hi
    cases hi
  pop_mem q i p q' h := AList.mem_lookup_iff.2 (List.argmax_mem (pop_spec h).1)
  pop_max q i p q' h j r hj := List.le_of_mem_argmax (AList.mem_lookup_iff.1 hj) (pop_spec h).1
  getPriority_pop q i p q' h j := by
    obtain ⟨-, rfl⟩ := pop_spec h
    exact HashMap.lookup_erase_iff q.items i j

end ListQueue

end Lsf.Lib
