import Lsf.Tester.Evaluation

/-!
# The bottom of the stash

The loop appends to its stash and takes from the same end, and it refills the stash when half of it is gone. One pass takes
at most `CONCURRENCY_LIMIT` queries, so that a run in which the engine always fills at least half of the stash never gets
to the bottom: the oldest queries are never executed (`starvation`).
-/

namespace Lsf.Tester

open Lsf.Lib

variable {E C : Type}

/-- How many queries lie below those that a pass can take. -/
def outOfReach : Nat := queryStash / 2 - concurrencyLimit

namespace FuzzingLoop

variable {args : EvalArgs} {s s' : FuzzingLoop E C}

/-- The engine fills at least half of the stash. -/
def FillsHalf (s : FuzzingLoop E C) : LoopStep E C → Prop
  | .iterate batch => queryStash / 2 ≤ s.testableQueries.length + batch.length
  | _ => True

instance FillsHalf.decidable (s : FuzzingLoop E C) : (a : LoopStep E C) → Decidable (FillsHalf s a)
  | .iterate _ => inferInstanceAs (Decidable (_ ≤ _))
  | .resume _ | .recv _ | .execute _ _ | .put _ | .get _ | .taskDone _ | .gather | .join => isTrue trivial

/-- The oldest queries are still at the bottom, or none has come yet. -/
def Bottomed (s : FuzzingLoop E C) : Prop :=
  (s.fetched = [] ∧ s.testableQueries = []) ∨
    ∃ oldest : List E, oldest.length = outOfReach ∧ oldest <+: s.testableQueries ∧ oldest <+: s.fetched

/-- A pass takes one query for each task that there is room for. -/
theorem length_spawn (args : EvalArgs) (n : Nat) (s : FuzzingLoop E C) :
    s.testableQueries.length ≤ (spawn args n s).testableQueries.length + n := by
  induction n generalizing s with
  | zero => exact le_rfl
  | succ n ih =>
    have hnext : ∀ (t : FuzzingLoop E C) (entry : E), t.testableQueries = s.testableQueries.dropLast →
        s.testableQueries.length ≤
          (spawn args n (if t.isDone then t else t.createTask entry)).testableQueries.length + (n + 1) := by
      intro t entry ht
      have hrest : t.testableQueries.length ≤
          (spawn args n (if t.isDone then t else t.createTask entry)).testableQueries.length + n := by
        split
        · exact ih t
        · exact ih (t.createTask entry)
      rw [ht, List.length_dropLast] at hrest
      omega
    unfold spawn
    cases s.testableQueries.getLast? with
    | none => exact Nat.le_add_right _ _
    | some entry =>
      dsimp only
      split
      · exact hnext { s with testableQueries := s.testableQueries.dropLast, total := s.total + 1
                             saved := s.saved ++ [(s.total + 1, entry)] } entry rfl
      · split
        · rw [List.length_dropLast]
          omega
        · exact hnext { s with testableQueries := s.testableQueries.dropLast, total := s.total + 1 } entry rfl

theorem Bottomed.iterate {batch : List E} (h : Bottomed s) (hfull : FillsHalf s (.iterate batch : LoopStep E C))
    (hs : step args s (.iterate batch) = some s') : Bottomed s' := by
  obtain ⟨-, t, hrefill, rfl⟩ := iterate_eq_some.1 hs
  obtain ⟨-, rfl⟩ := refill_eq_some hrefill
  change queryStash / 2 ≤ _ at hfull
  rw [← List.length_append] at hfull
  -- after the refill the stash is half full, and its bottom is that of what was fetched
  obtain ⟨oldest, hlength, hstash, hfetched⟩ : ∃ oldest : List E, oldest.length = outOfReach ∧
      oldest <+: s.testableQueries ++ batch ∧ oldest <+: s.fetched ++ batch := by
    rcases h with ⟨hfetched, hstash⟩ | ⟨oldest, hlength, hstash, hfetched⟩
    · rw [hstash] at hfull ⊢
      rw [hfetched]
      refine ⟨batch.take outOfReach, ?_, List.take_prefix _ _, List.take_prefix _ _⟩
      rw [List.length_take]
      exact Nat.min_eq_left ((Nat.sub_le _ _).trans hfull)
    · exact ⟨oldest, hlength, hstash.trans (List.prefix_append _ _), hfetched.trans (List.prefix_append _ _)⟩
  generalize hrefilled : ({ s with testableQueries := s.testableQueries ++ batch, fetched := s.fetched ++ batch } :
    FuzzingLoop E C) = t
  obtain ⟨k, -, isDone, saved, spawned, stash, total, hprefix, heq⟩ := spawn_eq args t.toSpawn t
  have hleft := length_spawn args t.toSpawn t
  have hspawn : t.toSpawn ≤ concurrencyLimit := (Nat.min_le_left _ _).trans (Nat.sub_le _ _)
  rw [heq] at hleft ⊢
  subst hrefilled
  refine .inr ⟨oldest, hlength, List.prefix_of_prefix_length_le hstash hprefix ?_, hfetched⟩
  change (s.testableQueries ++ batch).length ≤ stash.length + _ at hleft
  have hreach : outOfReach ≤ stash.length := by
    unfold outOfReach
    omega
  exact hlength.trans_le hreach

theorem Bottomed.step {a : LoopStep E C} (h : Bottomed s) (hfull : FillsHalf s a) (hs : step args s a = some s') :
    Bottomed s' := by
  cases a with
  | iterate batch => exact h.iterate hfull hs
  | resume stop =>
    obtain ⟨-, -, rfl⟩ := resume_eq_some.1 hs
    exact h
  | recv i =>
    obtain ⟨-, -, rfl⟩ := recv_eq_some.1 hs
    exact h
  | execute i capture =>
    obtain ⟨-, rfl⟩ := execute_eq_some.1 hs
    exact h
  | put i =>
    obtain ⟨capture, q, -, -, rfl⟩ := put_eq_some.1 hs
    exact h
  | get j =>
    obtain ⟨-, ⟨item, q, -, rfl⟩ | ⟨q, q', -, -, rfl⟩⟩ := get_eq_some.1 hs
    · exact h
    · exact h
  | taskDone j =>
    obtain ⟨item, q, -, -, rfl⟩ := taskDone_eq_some.1 hs
    exact h
  | gather =>
    obtain ⟨-, -, rfl⟩ := gather_eq_some.1 hs
    exact h
  | join =>
    obtain ⟨-, -, q, -, rfl⟩ := join_eq_some.1 hs
    exact h

/-- **The oldest queries starve.** In a run in which the engine always fills half of the stash, the first queries that it
gave stay at the bottom of the stash, and everything that is executed came after them. -/
theorem starvation {queued : List C} {as : List (LoopStep E C)}
    (hfull : AllSteps (FuzzingLoop.step args) FillsHalf (start queued) as)
    (hrun : Lib.run (FuzzingLoop.step args) (start queued) as = some s) :
    s.fetched.take outOfReach <+: s.testableQueries ∧ (s.spawned : Multiset E) ≤ s.fetched.drop outOfReach := by
  have hbottomed : Bottomed s :=
    run_invariant (fun _ _ _ h hfull hs => h.step hfull hs) (.inl ⟨rfl, rfl⟩) hfull hrun
  have hbooked : Booked args s :=
    run_invariant_of_forall (fun _ _ _ h hs => h.step hs) (booked_start args queued) hrun
  obtain ⟨dropped, -, hbooks⟩ := hbooked.accounted.fetched
  rcases hbottomed with ⟨hfetched, hstash⟩ | ⟨oldest, hlength, ⟨top, hstash⟩, later, hfetched⟩
  · rw [hfetched, hstash, Multiset.coe_nil, zero_add] at hbooks
    rw [hfetched, List.take_nil, List.drop_nil, Multiset.coe_nil, hbooks]
    exact ⟨List.nil_prefix, Multiset.le_add_right _ _⟩
  · rw [← hfetched, ← hstash, List.take_left' hlength, List.drop_left' hlength]
    refine ⟨List.prefix_append _ _, ?_⟩
    rw [← hfetched, ← hstash, ← Multiset.coe_add, ← Multiset.coe_add, add_assoc, add_assoc, add_right_inj] at hbooks
    rw [hbooks, add_left_comm]
    exact Multiset.le_add_right _ _

/-- Half of the stash comes, and one task after the other is done before the rest does. -/
def twoPasses : List (LoopStep Nat Nat) :=
  [.iterate (List.range 64), .recv 0, .execute 0 none, .resume false, .iterate (List.range' 64 80)]

theorem starvation_twoPasses : ∃ s : FuzzingLoop Nat Nat,
    s.spawned.take 3 = [63, 62, 61] ∧ s.fetched.take outOfReach <+: s.testableQueries ∧
      (s.spawned : Multiset Nat) ≤ s.fetched.drop outOfReach := by
  have hspawned : (Lib.run (FuzzingLoop.step ⟨false, false⟩) (start []) twoPasses).map (fun s => s.spawned.take 3) =
      some [63, 62, 61] := rfl
  obtain ⟨s, hrun, hs⟩ := Option.map_eq_some_iff.1 hspawned
  have hfull : AllSteps (FuzzingLoop.step ⟨false, false⟩) FillsHalf (start [] : FuzzingLoop Nat Nat) twoPasses := by
    decide +kernel
  exact ⟨s, hs, starvation hfull hrun⟩

end FuzzingLoop

end Lsf.Tester
