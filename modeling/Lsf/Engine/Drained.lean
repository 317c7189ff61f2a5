import Lsf.Engine.Batching
import Lsf.Engine.Exact
import Lsf.Engine.MabScheduler

/-!
# Nothing to draw from

A run of any scheduler with the ids that are live, and what `next_batch` does when there are none and the corpus is empty
too. The schedulers that look at the size of the corpus, and the heap, return an empty batch; the others do so only where
nothing is asked for, or, with a table of slots, before the first slot is made (`yieldsEmpty_iff`).
-/

namespace Lsf.Engine

open Lsf.Core Lsf.Lib Lsf.Feedback

/-- A scheduler with the ids that were added and neither removed nor reset away. -/
structure ScheduleRun (S : Type) where
  scheduler : S
  live : Finset ID

/-- The calls; corpora and bandits may have changed in between in any way. -/
inductive ScheduleOp (C Stmt : Type) where
  | onAdd (entry : CorpusEntry Stmt) (h : Bandits)
  | onRemove (id : ID)
  | nextBatch (c : C) (size : Nat) (h : Bandits) (order : HashOrder ID) (draws : List Draw)
  | reset (h : Bandits)

namespace ScheduleRun

variable {S C Stmt : Type} [CorpusHandler C Stmt]

def step [Schedule S Stmt] (s : ScheduleRun S) : ScheduleOp C Stmt → Option (ScheduleRun S)
  | .onAdd entry h => do
    let (_, scheduler, _) ← Schedule.onAdd s.scheduler h entry
    some ⟨scheduler, insert entry.id s.live⟩
  | .onRemove id => do
    let scheduler ← Schedule.onRemove Stmt s.scheduler id
    some ⟨scheduler, s.live.erase id⟩
  | .nextBatch c size h order draws => do
    let b : Batch S C Stmt ← Schedule.nextBatch s.scheduler c size h order draws
    some { s with scheduler := b.scheduler }
  | .reset h => some ⟨(Schedule.reset Stmt s.scheduler h).1, ∅⟩

/-- From the new scheduler `start` one comes to `s`, with all the entries that were added removed again. -/
def Drains (C Stmt : Type) [CorpusHandler C Stmt] [Schedule S Stmt] (start s : S) : Prop :=
  ∃ ops : List (ScheduleOp C Stmt), run step ⟨start, ∅⟩ ops = some ⟨s, ∅⟩

/-- `next_batch` returns an empty batch. -/
def YieldsEmpty [Schedule S Stmt] (s : S) (c : C) (size : Nat) (h : Bandits) (order : HashOrder ID)
    (draws : List Draw) : Prop :=
  ∃ b : Batch S C Stmt, Schedule.nextBatch s c size h order draws = some b ∧ b.members = []

/-! ## One scheduler after the other -/

section Each

variable [CountedCorpus C] {c : C} {size : Nat} {h : Bandits} {order : HashOrder ID} {draws : List Draw}

theorem size_of_empty (hc : CorpusHandler.ids c = ∅) : CorpusHandler.size c = 0 := by
  rw [CountedCorpus.size_eq, hc]
  rfl

theorem get_of_empty (hc : CorpusHandler.ids c = ∅) (id : ID) :
    (CorpusHandler.get c id).1 = none ∧ CorpusHandler.ids (CorpusHandler.get c id).2 = ∅ := by
  refine ⟨CountedCorpus.get_eq_none c id (by simp [hc]), ?_⟩
  rw [LawfulCorpus.ids_get, hc]

theorem yieldsEmpty_weightedRandom (s : WeightedRandomScheduler) (hc : CorpusHandler.ids c = ∅) :
    YieldsEmpty s c size h order draws :=
  ⟨_, if_pos (size_of_empty hc), rfl⟩

variable [FloatFns ℚ]

theorem yieldsEmpty_adaptive (s : AdaptiveWeightedRandomScheduler) (hc : CorpusHandler.ids c = ∅) :
    YieldsEmpty s c size h order draws :=
  ⟨_, if_pos (size_of_empty hc), rfl⟩

/-- The heap runs dry. -/
theorem yieldsEmpty_mab {H : Type} [BinaryHeap H (SchedueldItem ID)]
    [BinaryHeap.LawfulBinaryHeap H (SchedueldItem.score (T := ID))] (s : MABScheduler H)
    (hc : CorpusHandler.ids c = ∅) : YieldsEmpty s c size h order draws := by
  obtain ⟨b, hb⟩ := Option.isSome_iff_exists.1 (s.nextBatch_isSome c size h order draws)
  refine ⟨b, hb, ?_⟩
  obtain ⟨⟨parents, v, draws'⟩, hloop, hb⟩ := Option.bind_eq_some_iff.1 hb
  cases hb
  have hnone := (whileShort_spec (I := fun v : MABScheduler.Visit H C => CorpusHandler.ids v.2.2.1 = ∅)
    (Q := fun _ => False) ?_ hc (by simp) hloop).2
  · exact List.eq_nil_iff_forall_not_mem.2 hnone
  · rintro ⟨queue, acc, c, h⟩ draws r hempty hr
    simp only [MABScheduler.round] at hr
    split at hr
    · cases hr
      exact ⟨hempty, fun x hx => by cases hx⟩
    · rename_i top queue' hpop
      obtain ⟨hget, hids⟩ := get_of_empty hempty top.item
      split at hr
      · cases hr
        exact ⟨hempty, fun x hx => by cases hx⟩
      · split at hr
        · rename_i c' heq
          rw [heq] at hids
          cases hr
          exact ⟨hids, fun x hx => by cases hx⟩
        · rename_i parent c' heq
          rw [heq] at hget
          cases hget

/-- Once there are slots, none of them leads to an entry, and the sampling goes on. -/
theorem probabilistic_round_of_empty [Rounding ℚ] [Hasher ID] {currentEpoch : UInt32} {s : ProbabilisticMABScheduler}
    {r : Round (ProbabilisticMABScheduler.Visit C) (TestableEntry (RawEntry Stmt))} (hleaves : s.queue.leaves ≠ [])
    (hc : CorpusHandler.ids c = ∅) (hr : ProbabilisticMABScheduler.round currentEpoch (s, c, h) draws = some r) :
    ∃ v draws', r = .go none v draws' ∧ v.1.queue.leaves ≠ [] ∧ CorpusHandler.ids v.2.1 = ∅ := by
  obtain ⟨⟨top, queue, draws₁⟩, hsample, hr⟩ := Option.bind_eq_some_iff.1 hr
  obtain ⟨⟨i, rfl⟩, hqueue⟩ : (∃ i, top = some i) ∧ queue.leaves = s.queue.leaves := by
    unfold BlockSumTable.sample at hsample
    rw [if_neg (by simpa using hleaves)] at hsample
    obtain ⟨⟨u, rest⟩, -, hsample⟩ := Option.bind_eq_some_iff.1 hsample
    obtain ⟨target, -, hsample⟩ := Option.bind_eq_some_iff.1 hsample
    split at hsample <;> (cases hsample; exact ⟨⟨_, rfl⟩, rfl⟩)
  obtain ⟨⟨parent, v⟩, hvisit, hr⟩ := Option.bind_eq_some_iff.1 hr
  cases hr
  rw [← hqueue] at hleaves
  simp only [ProbabilisticMABScheduler.visit] at hvisit
  split at hvisit
  · cases hvisit
    exact ⟨_, _, rfl, hleaves, hc⟩
  · rename_i b hb
    split at hvisit
    · obtain ⟨queue', hupdate, hvisit⟩ := Option.bind_eq_some_iff.1 hvisit
      cases hvisit
      refine ⟨_, _, rfl, ?_, hc⟩
      obtain ⟨old, -, hupdate⟩ := Option.bind_eq_some_iff.1 hupdate
      obtain ⟨sum, -, hupdate⟩ := Option.bind_eq_some_iff.1 hupdate
      cases hupdate
      simpa using hleaves
    · cases hvisit
      obtain ⟨hget, hids⟩ := get_of_empty hc b.key
      refine ⟨({ s with queue := queue }, (CorpusHandler.get c b.key).2, h), draws₁, ?_, hleaves, hids⟩
      rw [hget]
      rfl

theorem yieldsEmpty_probabilistic_iff [Rounding ℚ] [Hasher ID] (s : ProbabilisticMABScheduler)
    (hc : CorpusHandler.ids c = ∅) : YieldsEmpty s c size h order draws ↔ size = 0 ∨ s.queue.leaves = [] := by
  constructor
  · rintro ⟨b, hb, -⟩
    by_contra hno
    obtain ⟨hsize, hleaves⟩ := not_or.1 hno
    obtain ⟨r, hloop, -⟩ := Option.bind_eq_some_iff.1 hb
    rw [whileShort_eq_none (I := fun v : ProbabilisticMABScheduler.Visit C =>
      v.1.queue.leaves ≠ [] ∧ CorpusHandler.ids v.2.1 = ∅) ?_ (Nat.pos_of_ne_zero hsize) ⟨hleaves, hc⟩] at hloop
    · cases hloop
    · rintro ⟨s, c, h⟩ draws r ⟨hleaves, hc⟩ hr
      exact probabilistic_round_of_empty hleaves hc hr
  · rintro (rfl | hleaves)
    · exact ⟨_, rfl, rfl⟩
    · cases size with
      | zero => exact ⟨_, rfl, rfl⟩
      | succ size =>
        refine ⟨⟨[], s, c, h, draws⟩, ?_, rfl⟩
        have hround : ProbabilisticMABScheduler.round (h.epoch s.mab) (s, c, h) draws =
            some (.stop (s, c, h) draws : Round (ProbabilisticMABScheduler.Visit C) (TestableEntry (RawEntry Stmt))) := by
          simp [ProbabilisticMABScheduler.round, BlockSumTable.sample, hleaves]
        show ProbabilisticMABScheduler.nextBatch s c (size + 1) h order draws = _
        simp [ProbabilisticMABScheduler.nextBatch, whileShort, hround]

omit [CountedCorpus C] in
/-- Without keys there is no index to draw. -/
theorem yieldsEmpty_fast_iff {s : FastProbabilisticMABScheduler} (hkeys : s.entries.keys = []) :
    YieldsEmpty s c size h order draws ↔ size = 0 := by
  constructor
  · rintro ⟨b, hb, -⟩
    by_contra hsize
    have hlen : s.entries.len = 0 := by
      rw [IndexMap.len, List.map_eq_nil_iff.1 hkeys]
      rfl
    obtain ⟨r, hloop, -⟩ := Option.bind_eq_some_iff.1 hb
    rw [whileShort_eq_none (I := fun v : FastProbabilisticMABScheduler.Visit C => v.1.entries.len = 0) ?_
      (Nat.pos_of_ne_zero hsize) hlen] at hloop
    · cases hloop
    · rintro ⟨s, c, h⟩ draws r hlen hr
      obtain ⟨⟨u, rest⟩, -, hr⟩ := Option.bind_eq_some_iff.1 hr
      obtain ⟨rdIdx, hu, -⟩ := Option.bind_eq_some_iff.1 hr
      rw [Draw.randomRange_eq_none (Nat.le_of_eq hlen)] at hu
      cases hu
  · rintro rfl
    exact ⟨_, rfl, rfl⟩

omit [CountedCorpus C] in
/-- A batcher returns as many entries as it is asked for, or does not return. -/
theorem yieldsEmpty_batcher_iff [Schedule S Stmt] (s : SchedulerBatcher S Stmt) :
    YieldsEmpty s c size h order draws ↔ size = 0 := by
  constructor
  · rintro ⟨b, hb, hnil⟩
    rw [← SchedulerBatcher.length_nextBatch hb, hnil]
    rfl
  · rintro rfl
    exact ⟨⟨[], s, c, h, draws⟩, rfl, rfl⟩

end Each

/-! ## Every run -/

/-- The keys of an exact scheduler are the ids that are live. -/
theorem keys_of_run [Schedule S Stmt] [ExactSchedule S Stmt] {s s' : ScheduleRun S} {ops : List (ScheduleOp C Stmt)}
    (h : ExactSchedule.keys Stmt s.scheduler = s.live) (hrun : run step s ops = some s') :
    ExactSchedule.keys Stmt s'.scheduler = s'.live := by
  refine run_invariant_of_forall (I := fun s : ScheduleRun S => ExactSchedule.keys Stmt s.scheduler = s.live) ?_ h hrun
  intro s op s' h hs
  cases op with
  | onAdd entry bandits =>
    obtain ⟨⟨score, scheduler, h'⟩, hadd, hs⟩ := Option.bind_eq_some_iff.1 hs
    cases hs
    exact (ExactSchedule.keys_onAdd _ _ _ _ _ _ hadd).trans (congrArg (insert entry.id) h)
  | onRemove id =>
    obtain ⟨scheduler, hremove, hs⟩ := Option.bind_eq_some_iff.1 hs
    cases hs
    exact (ExactSchedule.keys_onRemove _ _ _ hremove).trans (congrArg (Finset.erase · id) h)
  | nextBatch c size bandits order draws =>
    obtain ⟨b, hb, hs⟩ := Option.bind_eq_some_iff.1 hs
    cases hs
    exact (ExactSchedule.keys_nextBatch _ _ _ _ _ _ _ hb).trans h
  | reset bandits =>
    cases hs
    exact ExactSchedule.keys_reset _ _

variable [CountedCorpus C] [FloatFns ℚ] [Rounding ℚ] [Hasher ID]

/-- **What `next_batch` does with nothing to draw from**, for each scheduler, from every state in which all entries were
removed, and for every empty corpus. -/
theorem yieldsEmpty_iff {H : Type} [BinaryHeap H (SchedueldItem ID)]
    [BinaryHeap.LawfulBinaryHeap H (SchedueldItem.score (T := ID))] (body : BodyRef) {c : C}
    (hc : CorpusHandler.ids c = ∅) (size : Nat) (h : Bandits) (order : HashOrder ID) (draws : List Draw) :
    (∀ s, Drains C Stmt WeightedRandomScheduler.mk s → YieldsEmpty s c size h order draws) ∧
    (∀ s, Drains C Stmt (AdaptiveWeightedRandomScheduler.new body) s → YieldsEmpty s c size h order draws) ∧
    (∀ s, Drains C Stmt (MABScheduler.new body : MABScheduler H) s → YieldsEmpty s c size h order draws) ∧
    (∀ s, Drains C Stmt (ProbabilisticMABScheduler.new body) s →
      (YieldsEmpty s c size h order draws ↔ size = 0 ∨ s.queue.leaves = [])) ∧
    (∀ s, Drains C Stmt (FastProbabilisticMABScheduler.new body) s →
      (YieldsEmpty s c size h order draws ↔ size = 0)) ∧
    ∀ (S : Type) [Schedule S Stmt] (inner : S) (s : SchedulerBatcher S Stmt), Drains C Stmt ⟨inner, []⟩ s →
      (YieldsEmpty s c size h order draws ↔ size = 0) := by
  refine ⟨fun s _ => yieldsEmpty_weightedRandom s hc, fun s _ => yieldsEmpty_adaptive s hc,
    fun s _ => yieldsEmpty_mab s hc, fun s _ => yieldsEmpty_probabilistic_iff s hc, ?_,
    fun S _ inner s _ => yieldsEmpty_batcher_iff s⟩
  rintro s ⟨ops, hrun⟩
  have hkeys : s.entries.keys.toFinset = ∅ := keys_of_run rfl hrun
  exact yieldsEmpty_fast_iff (List.toFinset_eq_empty_iff _ |>.1 hkeys)

end ScheduleRun

/-! ## New schedulers -/

namespace ScheduleRun

attribute [local instance] FloatFns.tangent Rounding.binary64

/-- The multiplication in the hash of a number. -/
local instance hasherId : Hasher ID where
  hash id := id.raw.toUInt64 * 0xf1357aea2e62a9c5

abbrev NatCorpus := InMemory (CorpusEntry Nat)

abbrev NatHeap := ListHeap (SchedueldItem.score (T := ID))

/-- A `FastProbabilisticMABScheduler` that was never filled panics. -/
theorem not_yieldsEmpty_fast :
    Drains NatCorpus Nat (FastProbabilisticMABScheduler.new 0) (.new 0) ∧
      CorpusHandler.ids (InMemory.new : NatCorpus) = ∅ ∧
      ¬YieldsEmpty (FastProbabilisticMABScheduler.new 0) (InMemory.new : NatCorpus) 1 .new (.sorted ID)
        [⟨0, le_rfl, one_pos⟩] := by
  refine ⟨⟨[], rfl⟩, rfl, ?_⟩
  rintro ⟨b, hb, -⟩
  cases hb

/-- Two entries are added, and removed again. -/
def fillAndEmpty : List (ScheduleOp NatCorpus Nat) :=
  [.onAdd ⟨⟨⟨1⟩, [], [7]⟩, .default⟩ .new, .onAdd ⟨⟨⟨2⟩, [], [8]⟩, .default⟩ .new, .onRemove ⟨2⟩, .onRemove ⟨1⟩]

theorem exists_drained {S : Type} [Schedule S Nat] (start : S) (p : S → Bool) (ops : List (ScheduleOp NatCorpus Nat))
    (h : (run step ⟨start, ∅⟩ ops).map (fun s => (s.live, p s.scheduler)) = some (∅, true)) :
    ∃ s, run step ⟨start, ∅⟩ ops = some ⟨s, ∅⟩ ∧ p s := by
  obtain ⟨⟨s, live⟩, hrun, heq⟩ := Option.map_eq_some_iff.1 h
  obtain ⟨hlive, hp⟩ := Prod.mk.inj heq
  cases hlive
  exact ⟨s, hrun, hp⟩

/-- The schedulers one after the other, filled and emptied. -/
theorem yieldsEmpty_fillAndEmpty :
    (∃ s, run step ⟨WeightedRandomScheduler.mk, ∅⟩ fillAndEmpty = some ⟨s, ∅⟩ ∧
      YieldsEmpty s (InMemory.new : NatCorpus) 1 .new (.sorted ID) []) ∧
    (∃ s, run step ⟨AdaptiveWeightedRandomScheduler.new 0, ∅⟩ fillAndEmpty = some ⟨s, ∅⟩ ∧
      YieldsEmpty s (InMemory.new : NatCorpus) 1 .new (.sorted ID) []) ∧
    (∃ s, run step ⟨(MABScheduler.new 0 : MABScheduler NatHeap), ∅⟩ fillAndEmpty = some ⟨s, ∅⟩ ∧
      YieldsEmpty s (InMemory.new : NatCorpus) 1 .new (.sorted ID) []) ∧
    (∃ s, run step ⟨ProbabilisticMABScheduler.new 0, ∅⟩ fillAndEmpty = some ⟨s, ∅⟩ ∧
      ¬YieldsEmpty s (InMemory.new : NatCorpus) 1 .new (.sorted ID) []) ∧
    (∃ s, run step ⟨FastProbabilisticMABScheduler.new 0, ∅⟩ fillAndEmpty = some ⟨s, ∅⟩ ∧
      ¬YieldsEmpty s (InMemory.new : NatCorpus) 1 .new (.sorted ID) []) ∧
    ∃ s : SchedulerBatcher FastProbabilisticMABScheduler Nat, run step ⟨⟨.new 0, []⟩, ∅⟩ fillAndEmpty = some ⟨s, ∅⟩ ∧
      ¬YieldsEmpty s (InMemory.new : NatCorpus) 1 .new (.sorted ID) [] := by
  obtain ⟨hweighted, hadaptive, hmab, hprobabilistic, hfast, hbatcher⟩ :=
    yieldsEmpty_iff (C := NatCorpus) (H := NatHeap) 0 (c := .new) rfl 1 .new (.sorted ID) []
  refine ⟨?_, ?_, ?_, ?_, ?_, ?_⟩
  · obtain ⟨s, hrun, -⟩ := exists_drained WeightedRandomScheduler.mk (fun _ => true) fillAndEmpty
      (by decide +kernel)
    exact ⟨s, hrun, hweighted s ⟨_, hrun⟩⟩
  · obtain ⟨s, hrun, -⟩ := exists_drained (AdaptiveWeightedRandomScheduler.new 0) (fun _ => true) fillAndEmpty
      (by decide +kernel)
    exact ⟨s, hrun, hadaptive s ⟨_, hrun⟩⟩
  · obtain ⟨s, hrun, -⟩ := exists_drained (MABScheduler.new 0 : MABScheduler NatHeap) (fun _ => true)
      fillAndEmpty (by decide +kernel)
    exact ⟨s, hrun, hmab s ⟨_, hrun⟩⟩
  · -- the slots are still there
    obtain ⟨s, hrun, hleaves⟩ := exists_drained (ProbabilisticMABScheduler.new 0) (fun s => s.queue.leaves.length == 2)
      fillAndEmpty (by decide +kernel)
    have hne : s.queue.leaves ≠ [] := by
      rintro hnil
      simp [hnil] at hleaves
    exact ⟨s, hrun, (hprobabilistic s ⟨_, hrun⟩).not.2 (by simp [hne])⟩
  · obtain ⟨s, hrun, -⟩ := exists_drained (FastProbabilisticMABScheduler.new 0) (fun _ => true) fillAndEmpty
      (by decide +kernel)
    exact ⟨s, hrun, (hfast s ⟨_, hrun⟩).not.2 one_ne_zero⟩
  · obtain ⟨s, hrun, -⟩ := exists_drained (⟨.new 0, []⟩ : SchedulerBatcher FastProbabilisticMABScheduler Nat)
      (fun _ => true) fillAndEmpty (by decide +kernel)
    exact ⟨s, hrun, (hbatcher _ _ s ⟨_, hrun⟩).not.2 one_ne_zero⟩

end ScheduleRun

end Lsf.Engine
