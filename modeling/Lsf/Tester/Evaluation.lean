import Mathlib.Algebra.Order.Group.Multiset
import Mathlib.Tactic.Abel
import Lsf.Tester.EventLoop

/-!
# Evaluation runs

With `eval_requirement` and `save_to` the first ten thousand queries are saved under their numbers and the loop ends
with the next one. What the loop takes from its stash is executed, and saved in that order; the one query that tells it to
end is dropped. Without `save_to` the quota is zero: no query is executed at all.
-/

namespace Lsf.Tester

open Lsf.Lib

variable {E C : Type}

/-- How many queries an evaluation executes. -/
def EvalArgs.quota (args : EvalArgs) : Nat := if args.saveTo then savedQueries else 0

/-- The queries with the numbers of their files. -/
def fromOne (queries : List E) : List (Nat × E) := (queries.zipIdx 1).map Prod.swap

theorem fromOne_concat (queries : List E) (query : E) :
    fromOne (queries ++ [query]) = fromOne queries ++ [(queries.length + 1, query)] := by
  simp [fromOne, List.zipIdx_append, Nat.add_comm]

namespace FuzzingLoop

/-- The books of the loop. -/
structure Accounted (args : EvalArgs) (s : FuzzingLoop E C) : Prop where
  fetched : ∃ dropped : List E, dropped.length = s.isDone.toNat ∧
    (s.fetched : Multiset E) = s.testableQueries + s.spawned + dropped
  total : s.total = s.spawned.length + s.isDone.toNat
  saved : s.saved = if args.evalRequirement && args.saveTo then fromOne s.spawned else []
  quota : args.evalRequirement → s.spawned.length ≤ args.quota ∧ (s.isDone → s.spawned.length = args.quota)
  unlimited : args.evalRequirement = false → s.isDone = false

variable {args : EvalArgs} {s s' : FuzzingLoop E C}

/-- A query is taken from the stash and a task is created for it. -/
theorem Accounted.createTask {entry : E} {saved : List (Nat × E)} (h : Accounted args s) (hdone : s.isDone = false)
    (hlast : s.testableQueries.getLast? = some entry)
    (hsaved : saved = if args.evalRequirement && args.saveTo then s.saved ++ [(s.total + 1, entry)] else s.saved)
    (hquota : args.evalRequirement → s.total + 1 ≤ args.quota) :
    Accounted args (FuzzingLoop.createTask
      { s with testableQueries := s.testableQueries.dropLast, total := s.total + 1, saved := saved } entry) := by
  obtain ⟨dropped, hlength, hfetched⟩ := h.fetched
  have htotal := h.total
  rw [hdone, Bool.toNat_false, Nat.add_zero] at htotal
  refine ⟨⟨dropped, hlength, hfetched.trans ?_⟩, ?_, ?_, fun heval => ⟨?_, ?_⟩, h.unlimited⟩
  · rw [← List.dropLast_append_getLast? entry hlast]
    dsimp only [FuzzingLoop.createTask]
    rw [List.dropLast_concat, ← Multiset.coe_add, ← Multiset.coe_add]
    abel
  · simp [FuzzingLoop.createTask, hdone, htotal]
  · dsimp only [FuzzingLoop.createTask]
    rw [hsaved, h.saved, fromOne_concat, htotal]
    split <;> rfl
  · have hle := hquota heval
    simpa [FuzzingLoop.createTask, ← htotal] using hle
  · intro htrue
    cases hdone.symm.trans htrue

/-- The query that tells the loop to end is dropped. -/
theorem Accounted.hit {entry : E} (h : Accounted args s) (hdone : s.isDone = false)
    (hlast : s.testableQueries.getLast? = some entry) (heval : args.evalRequirement = true)
    (hquota : args.quota ≤ s.total) : Accounted args
      { s with testableQueries := s.testableQueries.dropLast, total := s.total + 1, isDone := true } := by
  obtain ⟨dropped, hlength, hfetched⟩ := h.fetched
  have htotal := h.total
  rw [hdone, Bool.toNat_false] at htotal hlength
  obtain rfl := List.eq_nil_of_length_eq_zero hlength
  have hle := (h.quota heval).1
  refine ⟨⟨[entry], rfl, hfetched.trans ?_⟩, ?_, h.saved,
    fun _ => ⟨hle, fun _ => hle.antisymm (by rwa [htotal] at hquota)⟩, fun hnot => ?_⟩
  · rw [← List.dropLast_append_getLast? entry hlast]
    dsimp only
    rw [List.dropLast_concat, ← Multiset.coe_add, Multiset.coe_nil]
    abel
  · dsimp only
    rw [htotal, Bool.toNat_true]
  · cases heval.symm.trans hnot

/-- The books while the queries are taken one after the other. -/
theorem Accounted.spawn (n : Nat) (h : Accounted args s) (hdone : s.isDone = false) :
    Accounted args (FuzzingLoop.spawn args n s) := by
  induction n generalizing s with
  | zero => exact h
  | succ n ih =>
    unfold FuzzingLoop.spawn
    have htotal := h.total
    rw [hdone, Bool.toNat_false, Nat.add_zero] at htotal
    cases hlast : s.testableQueries.getLast? with
    | none => exact h
    | some entry =>
      dsimp only
      split
      · rename_i hsave
        rw [if_neg (by rw [hdone]; exact Bool.false_ne_true)]
        simp only [Bool.and_eq_true, decide_eq_true_eq] at hsave
        obtain ⟨⟨heval, hle⟩, hsaveTo⟩ := hsave
        refine ih (h.createTask hdone hlast ?_ fun _ => ?_) hdone
        · rw [heval, hsaveTo]
          rfl
        · rw [EvalArgs.quota, if_pos hsaveTo]
          exact hle
      · rename_i hsave
        split
        · rename_i hhit
          have heval := (Bool.and_eq_true_iff.1 hhit).1
          refine h.hit hdone hlast heval ?_
          simp only [heval, Bool.true_and, Bool.and_eq_true, decide_eq_true_eq, not_and] at hsave
          unfold EvalArgs.quota
          split
          · rename_i hsaveTo
            by_contra hlt
            exact hsave (by omega) hsaveTo
          · exact Nat.zero_le _
        · rename_i hhit
          have heval : args.evalRequirement = false := by simpa [hdone] using hhit
          rw [if_neg (by rw [hdone]; exact Bool.false_ne_true)]
          refine ih (h.createTask hdone hlast (by simp [heval]) fun htrue => ?_) hdone
          exact absurd (heval.symm.trans htrue) Bool.false_ne_true

/-- The books, and what the loop does once it is done. -/
structure Booked (args : EvalArgs) (s : FuzzingLoop E C) : Prop where
  accounted : Accounted args s
  spawning : s.phase = .spawning → s.isDone = false

/-- Nothing else is in the books. -/
theorem Accounted.keep {phase : LoopPhase} {activeTasks : List (Task C)} {tokens : Nat}
    {oracleQueue : WorkQueue (Option C)} {oracles : List (OracleWorker C)} {captured handled : List C}
    (h : Accounted args s) : Accounted args { s with
      phase := phase
      activeTasks := activeTasks
      tokens := tokens
      oracleQueue := oracleQueue
      oracles := oracles
      captured := captured
      handled := handled } :=
  ⟨h.fetched, h.total, h.saved, h.quota, h.unlimited⟩

theorem Booked.step {a : LoopStep E C} (h : Booked args s) (hstep : step args s a = some s') : Booked args s' := by
  cases a with
  | iterate batch =>
    obtain ⟨hphase, t, hrefill, rfl⟩ := iterate_eq_some.1 hstep
    obtain ⟨-, rfl⟩ := refill_eq_some hrefill
    obtain ⟨dropped, hlength, hfetched⟩ := h.accounted.fetched
    have hrefilled : Accounted args
        { s with testableQueries := s.testableQueries ++ batch, fetched := s.fetched ++ batch } := by
      refine ⟨⟨dropped, hlength, ?_⟩, h.accounted.total, h.accounted.saved, h.accounted.quota, h.accounted.unlimited⟩
      dsimp only
      rw [← Multiset.coe_add, ← Multiset.coe_add, hfetched]
      abel
    have hspawned := hrefilled.spawn
      (toSpawn { s with testableQueries := s.testableQueries ++ batch, fetched := s.fetched ++ batch })
      (h.spawning hphase)
    exact ⟨hspawned.keep, fun hnot => nomatch hnot⟩
  | resume stop =>
    obtain ⟨-, -, rfl⟩ := resume_eq_some.1 hstep
    refine ⟨h.accounted.keep, fun hphase => ?_⟩
    cases hdone : s.isDone with
    | false => rfl
    | true => simp [hdone] at hphase
  | recv i =>
    obtain ⟨-, -, rfl⟩ := recv_eq_some.1 hstep
    exact ⟨h.accounted.keep, h.spawning⟩
  | execute i capture =>
    obtain ⟨-, rfl⟩ := execute_eq_some.1 hstep
    exact ⟨h.accounted.keep, h.spawning⟩
  | put i =>
    obtain ⟨capture, q, -, -, rfl⟩ := put_eq_some.1 hstep
    exact ⟨h.accounted.keep, h.spawning⟩
  | get j =>
    obtain ⟨-, ⟨item, q, -, rfl⟩ | ⟨q, q', -, -, rfl⟩⟩ := get_eq_some.1 hstep
    · exact ⟨h.accounted.keep, h.spawning⟩
    · exact ⟨h.accounted.keep, h.spawning⟩
  | taskDone j =>
    obtain ⟨item, q, -, -, rfl⟩ := taskDone_eq_some.1 hstep
    exact ⟨h.accounted.keep, h.spawning⟩
  | gather =>
    obtain ⟨-, -, rfl⟩ := gather_eq_some.1 hstep
    exact ⟨h.accounted.keep, fun hnot => nomatch hnot⟩
  | join =>
    obtain ⟨-, -, q, -, rfl⟩ := join_eq_some.1 hstep
    exact ⟨h.accounted.keep, fun hnot => nomatch hnot⟩

theorem booked_start (args : EvalArgs) (queued : List C) : Booked args (start queued : FuzzingLoop E C) :=
  ⟨⟨⟨[], rfl, rfl⟩, rfl, by simp [start, fromOne], fun _ => ⟨Nat.zero_le _, fun hnot => nomatch hnot⟩, fun _ => rfl⟩,
    fun _ => rfl⟩

/-- **The books of a run.** Whatever the engine gave is in the stash, was executed or is the one query that ended the
run. An evaluation saves exactly what it executes, numbered from one in that order, and it is done exactly when one
query more than its quota was taken. -/
theorem evaluation {queued : List C} {as : List (LoopStep E C)}
    (hrun : Lib.run (FuzzingLoop.step args) (start queued) as = some s) :
    (∃ dropped : List E, dropped.length = s.isDone.toNat ∧
        s.fetched.Perm (s.testableQueries ++ s.spawned ++ dropped)) ∧
      s.saved = (if args.evalRequirement && args.saveTo then fromOne s.spawned else []) ∧
      (args.evalRequirement = true → s.spawned.length ≤ args.quota ∧ (s.isDone = true ↔ s.total = args.quota + 1) ∧
        (s.isDone = true → s.spawned.length = args.quota)) ∧
      (args.evalRequirement = false → s.isDone = false ∧ s.total = s.spawned.length) := by
  have hbooked : Booked args s :=
    run_invariant_of_forall (fun _ _ _ hs hstep => hs.step hstep) (booked_start args queued) hrun
  obtain ⟨⟨⟨dropped, hlength, hfetched⟩, htotal, hsaved, hquota, hunlimited⟩, -⟩ := hbooked
  simp only [Multiset.coe_add, Multiset.coe_eq_coe] at hfetched
  refine ⟨⟨dropped, hlength, hfetched⟩, hsaved, fun heval => ?_, fun hnot => ?_⟩
  · obtain ⟨hle, hfull⟩ := hquota heval
    refine ⟨hle, ?_, hfull⟩
    cases hdone : s.isDone with
    | false =>
      rw [hdone, Bool.toNat_false] at htotal
      exact iff_of_false Bool.false_ne_true (by omega)
    | true =>
      rw [hdone, Bool.toNat_true, hfull hdone] at htotal
      exact iff_of_true rfl htotal
  · have hdone := hunlimited hnot
    rw [hdone] at htotal
    exact ⟨hdone, htotal⟩

theorem evaluation_two : ∃ s : FuzzingLoop Nat Nat, s.saved = [(1, 6), (2, 5)] ∧ s.spawned.length ≤ savedQueries :=
  have hrun : Lib.run (FuzzingLoop.step ⟨true, true⟩) (start []) [.iterate [5, 6]] = some _ := rfl
  have hbooks := evaluation hrun
  ⟨_, hbooks.2.1, (hbooks.2.2.1 rfl).1⟩

/-- Without a directory for the queries, an evaluation executes none. -/
example : (Lib.run (FuzzingLoop.step ⟨true, false⟩) (start ([] : List Nat)) [.iterate [5, 6]]).map
    (fun s => (s.isDone, s.spawned)) = some (true, []) := rfl

end FuzzingLoop

end Lsf.Tester
