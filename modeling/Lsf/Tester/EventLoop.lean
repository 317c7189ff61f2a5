import Mathlib.Data.Multiset.Basic
import Lsf.Lib.Run
import Lsf.Lib.WorkQueue

/-!
# The event loop

`fuzzing_loop` of `tester/event_loop.py` with the tasks it spawns and the oracles of `tester/oracle.py`, as a system of
coroutines in which any may go on that does not wait. The loop keeps a stash of queries and up to `CONCURRENCY_LIMIT`
tasks; a task takes a token, has its query executed and puts the capture to the queue of the oracles, which is bounded.
To stop, the loop waits for its tasks, joins the queue and puts one `None` for each oracle.
-/

namespace Lsf.Tester

open Lsf.Lib

def concurrencyLimit : Nat := 16

def queryStash : Nat := concurrencyLimit * 8

def nOracles : Nat := 8

/-- `asyncio.Queue(4096)`. -/
def oracleQueueSize : Nat := 4096

/-- How many queries an evaluation saves. -/
def savedQueries : Nat := 10000

/-- How far a `run_single_mutation` is. -/
inductive Task (C : Type) where
  /-- `await ipc_queue.recv()` -/
  | receiving
  /-- `await worker.execute(...)` -/
  | executing
  /-- `await oracle_queue.put(capture)`; the token is back -/
  | putting (capture : C)
  | done

def Task.isDone {C : Type} : Task C → Bool
  | .done => true
  | _ => false

/-- How far an `oracle_worker` is. -/
inductive OracleWorker (C : Type) where
  /-- `await incoming.get()` -/
  | getting
  | handling (item : C)
  | returned

/-- Where the loop stands. -/
inductive LoopPhase where
  /-- at the head of `while True` -/
  | spawning
  /-- `await asyncio.wait(active_tasks, ...)` -/
  | waiting
  /-- `await asyncio.gather(*active_tasks, ...)` -/
  | gathering
  /-- `await oracle_queue.join()` -/
  | joining
  | returned
deriving DecidableEq

/-- `eval_requirement`, and whether `save_to` is given. -/
structure EvalArgs where
  evalRequirement : Bool
  saveTo : Bool
deriving DecidableEq

/-- The loop over queries `E`, its tasks and the oracles. The last four are logs: the queries that the engine gave,
those that tasks were created for, the captures of the tasks and those that an oracle is done with. -/
structure FuzzingLoop (E C : Type) where
  phase : LoopPhase
  testableQueries : List E
  total : Nat
  isDone : Bool
  saved : List (Nat × E)
  activeTasks : List (Task C)
  tokens : Nat
  oracleQueue : WorkQueue (Option C)
  oracles : List (OracleWorker C)
  fetched : List E
  spawned : List E
  captured : List C
  handled : List C

/-- What happens next. -/
inductive LoopStep (E C : Type) where
  /-- one pass from the head of the loop to `asyncio.wait`; the engine has given these queries -/
  | iterate (batch : List E)
  /-- `asyncio.wait` returns; whether the corpus is large enough, or the time is up -/
  | resume (stop : Bool)
  | recv (i : Nat)
  /-- task `i` leaves the worker, with a capture for the oracles or without -/
  | execute (i : Nat) (capture : Option C)
  | put (i : Nat)
  | get (j : Nat)
  | taskDone (j : Nat)
  | gather
  | join

/-- The steps of the tasks. -/
def LoopStep.IsTask {E C : Type} : LoopStep E C → Prop
  | .recv _ | .execute _ _ | .put _ => True
  | _ => False

namespace FuzzingLoop

variable {E C : Type}

/-! ## The loop -/

/-- The engine is asked when half of the stash is gone, and gives as many queries as it is asked for at most. -/
def refill (s : FuzzingLoop E C) (batch : List E) : Option (FuzzingLoop E C) :=
  if s.testableQueries.length < queryStash / 2 then
    if batch.length ≤ queryStash - s.testableQueries.length then
      some { s with testableQueries := s.testableQueries ++ batch, fetched := s.fetched ++ batch }
    else none
  else if batch.isEmpty then some s else none

/-- `asyncio.create_task(run_single_mutation(entry, ...))`. -/
def createTask (s : FuzzingLoop E C) (entry : E) : FuzzingLoop E C :=
  { s with activeTasks := s.activeTasks ++ [.receiving], spawned := s.spawned ++ [entry] }

/-- The loop over `to_spawn`. -/
def spawn (args : EvalArgs) : Nat → FuzzingLoop E C → FuzzingLoop E C
  | 0, s => s
  | n + 1, s =>
    match s.testableQueries.getLast? with
    | none => s
    | some entry =>
      let s := { s with testableQueries := s.testableQueries.dropLast, total := s.total + 1 }
      if args.evalRequirement && s.total ≤ savedQueries && args.saveTo then
        let s := { s with saved := s.saved ++ [(s.total, entry)] }
        spawn args n (if s.isDone then s else s.createTask entry)
      else if args.evalRequirement && !s.isDone then { s with isDone := true }
      else spawn args n (if s.isDone then s else s.createTask entry)

/-- `min(CONCURRENCY_LIMIT - len(active_tasks), len(testable_queries))`. -/
def toSpawn (s : FuzzingLoop E C) : Nat := min (concurrencyLimit - s.activeTasks.length) s.testableQueries.length

/-- Task `i` is replaced. -/
def setTask (s : FuzzingLoop E C) (i : Nat) (task : Task C) : FuzzingLoop E C :=
  { s with activeTasks := s.activeTasks.set i task }

/-- Oracle `j` is replaced. -/
def setOracle (s : FuzzingLoop E C) (j : Nat) (oracle : OracleWorker C) : FuzzingLoop E C :=
  { s with oracles := s.oracles.set j oracle }

/-- One step, if it can be taken. -/
def step (args : EvalArgs) (s : FuzzingLoop E C) : LoopStep E C → Option (FuzzingLoop E C)
  | .iterate batch =>
    if s.phase = .spawning then
      (s.refill batch).map fun s => { spawn args s.toSpawn s with phase := .waiting }
    else none
  | .resume stop =>
    -- without tasks `asyncio.wait` raises an exception at once, which is caught
    if s.phase = .waiting ∧ (s.activeTasks.isEmpty || s.activeTasks.any Task.isDone) then
      some { s with
        activeTasks := s.activeTasks.filter fun task => !task.isDone
        phase := if s.isDone || stop then .gathering else .spawning }
    else none
  | .recv i =>
    match s.activeTasks[i]?, s.tokens with
    | some .receiving, tokens + 1 => some { s.setTask i .executing with tokens := tokens }
    | _, _ => none
  | .execute i capture =>
    match s.activeTasks[i]? with
    | some .executing =>
      some { s.setTask i (capture.elim .done .putting) with
        tokens := s.tokens + 1
        captured := s.captured ++ capture.toList }
    | _ => none
  | .put i =>
    match s.activeTasks[i]? with
    | some (.putting capture) =>
      (s.oracleQueue.put (some capture)).map fun q => { s.setTask i .done with oracleQueue := q }
    | _ => none
  | .get j =>
    match s.oracles[j]? with
    | some .getting =>
      s.oracleQueue.get.bind fun
        | (some item, q) => some { s.setOracle j (.handling item) with oracleQueue := q }
        | (none, q) => q.taskDone.map fun q => { s.setOracle j .returned with oracleQueue := q }
    | _ => none
  | .taskDone j =>
    match s.oracles[j]? with
    | some (.handling item) =>
      s.oracleQueue.taskDone.map fun q =>
        { s.setOracle j .getting with oracleQueue := q, handled := s.handled ++ [item] }
    | _ => none
  | .gather =>
    if s.phase = .gathering ∧ s.activeTasks.all Task.isDone then some { s with phase := .joining } else none
  | .join =>
    if s.phase = .joining ∧ s.oracleQueue.unfinishedTasks = 0 then
      (s.oracleQueue.putAll (List.replicate nOracles none)).map fun q =>
        { s with oracleQueue := q, phase := .returned }
    else none

/-- The loop begins, with the captures of the seeds in the queue. -/
def start (queued : List C) : FuzzingLoop E C where
  phase := .spawning
  testableQueries := []
  total := 0
  isDone := false
  saved := []
  activeTasks := []
  tokens := concurrencyLimit
  oracleQueue := ⟨oracleQueueSize, queued.map some, queued.length⟩
  oracles := List.replicate nOracles .getting
  fetched := []
  spawned := []
  captured := queued
  handled := []

/-- `main` while the seeds are executed, which is before any oracle runs; the queue may hold captures already. -/
def seeding (queued : List C) (seeds : Nat) : FuzzingLoop E C :=
  { start queued with phase := .gathering, activeTasks := List.replicate seeds .receiving, oracles := [] }

/-! ## What a step does -/

variable {args : EvalArgs} {s s' : FuzzingLoop E C}

theorem refill_eq_some {batch : List E} (h : s.refill batch = some s') :
    s.testableQueries.length + batch.length ≤ max queryStash s.testableQueries.length ∧
      s' = { s with testableQueries := s.testableQueries ++ batch, fetched := s.fetched ++ batch } := by
  unfold refill at h
  split at h
  · split at h
    · cases h
      exact ⟨by omega, rfl⟩
    · cases h
  · split at h
    · rename_i hempty
      obtain rfl := List.isEmpty_iff.1 hempty
      cases h
      exact ⟨le_max_right _ _, by simp⟩
    · cases h

/-- What the loop over `to_spawn` leaves alone, and what it makes of the rest. -/
theorem spawn_eq (args : EvalArgs) (n : Nat) (s : FuzzingLoop E C) : ∃ k ≤ n, ∃ isDone saved spawned stash total,
    stash <+: s.testableQueries ∧ spawn args n s = { s with
      activeTasks := s.activeTasks ++ List.replicate k .receiving
      isDone := isDone
      saved := saved
      spawned := spawned
      testableQueries := stash
      total := total } := by
  have hcreate : ∀ (s : FuzzingLoop E C) (entry : E), ∃ k ≤ 1, ∃ spawned, (if s.isDone then s else s.createTask entry) =
      { s with activeTasks := s.activeTasks ++ List.replicate k .receiving, spawned := spawned } := by
    intro s entry
    split
    · exact ⟨0, Nat.zero_le _, s.spawned, by simp⟩
    · exact ⟨1, le_rfl, s.spawned ++ [entry], rfl⟩
  induction n generalizing s with
  | zero =>
    exact ⟨0, le_rfl, s.isDone, s.saved, s.spawned, s.testableQueries, s.total, List.prefix_rfl, by simp [spawn]⟩
  | succ n ih =>
    have hdrop := List.dropLast_prefix s.testableQueries
    unfold spawn
    cases s.testableQueries.getLast? with
    | none =>
      exact ⟨0, Nat.zero_le _, s.isDone, s.saved, s.spawned, s.testableQueries, s.total, List.prefix_rfl, by simp⟩
    | some entry =>
      dsimp only
      split
      · obtain ⟨j, hj, spawned, hcreated⟩ := hcreate { s with
          testableQueries := s.testableQueries.dropLast, total := s.total + 1
          saved := s.saved ++ [(s.total + 1, entry)] } entry
        rw [hcreated]
        obtain ⟨k, hk, isDone, saved, spawned, stash, total, hstash, heq⟩ := ih _
        refine ⟨j + k, by omega, isDone, saved, spawned, stash, total, hstash.trans hdrop, heq.trans ?_⟩
        rw [← List.replicate_append_replicate, List.append_assoc]
      · split
        · exact ⟨0, Nat.zero_le _, true, s.saved, s.spawned, s.testableQueries.dropLast, s.total + 1, hdrop, by simp⟩
        · obtain ⟨j, hj, spawned, hcreated⟩ := hcreate { s with
            testableQueries := s.testableQueries.dropLast, total := s.total + 1 } entry
          rw [hcreated]
          obtain ⟨k, hk, isDone, saved, spawned, stash, total, hstash, heq⟩ := ih _
          refine ⟨j + k, by omega, isDone, saved, spawned, stash, total, hstash.trans hdrop, heq.trans ?_⟩
          rw [← List.replicate_append_replicate, List.append_assoc]

theorem recv_eq_some {i : Nat} : step args s (.recv i) = some s' ↔ s.activeTasks[i]? = some .receiving ∧
    0 < s.tokens ∧ s' = { s.setTask i .executing with tokens := s.tokens - 1 } := by
  unfold step
  dsimp only
  split
  · rename_i tokens htask htokens
    simp [htask, htokens, eq_comm]
  · rename_i hnot
    refine iff_of_false (fun h => nomatch h) fun ⟨htask, hpos, _⟩ => ?_
    obtain ⟨tokens, htokens⟩ := Nat.exists_eq_succ_of_ne_zero hpos.ne'
    exact hnot tokens htask htokens

theorem execute_eq_some {i : Nat} {capture : Option C} :
    step args s (.execute i capture) = some s' ↔ s.activeTasks[i]? = some .executing ∧
      s' = { s.setTask i (capture.elim .done .putting) with
        tokens := s.tokens + 1, captured := s.captured ++ capture.toList } := by
  unfold step
  dsimp only
  split
  · rename_i htask
    simp [htask, eq_comm]
  · rename_i hnot
    exact iff_of_false (fun h => nomatch h) fun h => hnot h.1

theorem put_eq_some {i : Nat} : step args s (.put i) = some s' ↔ ∃ capture q,
    s.activeTasks[i]? = some (.putting capture) ∧ s.oracleQueue.put (some capture) = some q ∧
      s' = { s.setTask i .done with oracleQueue := q } := by
  unfold step
  dsimp only
  split
  · rename_i capture htask
    rw [Option.map_eq_some_iff]
    constructor
    · rintro ⟨q, hput, rfl⟩
      exact ⟨capture, q, htask, hput, rfl⟩
    · rintro ⟨capture', q, htask', hput, rfl⟩
      obtain rfl : capture = capture' := by simpa [htask] using htask'
      exact ⟨q, hput, rfl⟩
  · rename_i hnot
    exact iff_of_false (fun h => nomatch h) fun ⟨capture, _, htask, _⟩ => hnot capture htask

theorem get_eq_some {j : Nat} : step args s (.get j) = some s' ↔ s.oracles[j]? = some .getting ∧
    ((∃ item q, s.oracleQueue.get = some (some item, q) ∧
        s' = { s.setOracle j (.handling item) with oracleQueue := q }) ∨
      ∃ q q', s.oracleQueue.get = some (none, q) ∧ q.taskDone = some q' ∧
        s' = { s.setOracle j .returned with oracleQueue := q' }) := by
  unfold step
  dsimp only
  split
  · rename_i horacle
    rw [Option.bind_eq_some_iff]
    refine Iff.trans ?_ (and_iff_right horacle).symm
    constructor
    · rintro ⟨⟨item, q⟩, hget, h⟩
      cases item with
      | some item => exact .inl ⟨item, q, hget, (Option.some.inj h).symm⟩
      | none =>
        obtain ⟨q', hdone, heq⟩ := Option.map_eq_some_iff.1 h
        exact .inr ⟨q, q', hget, hdone, heq.symm⟩
    · rintro (⟨item, q, hget, rfl⟩ | ⟨q, q', hget, hdone, rfl⟩)
      · exact ⟨_, hget, rfl⟩
      · exact ⟨_, hget, Option.map_eq_some_iff.2 ⟨q', hdone, rfl⟩⟩
  · rename_i hnot
    exact iff_of_false (fun h => nomatch h) fun h => hnot h.1

theorem taskDone_eq_some {j : Nat} : step args s (.taskDone j) = some s' ↔ ∃ item q,
    s.oracles[j]? = some (.handling item) ∧ s.oracleQueue.taskDone = some q ∧
      s' = { s.setOracle j .getting with oracleQueue := q, handled := s.handled ++ [item] } := by
  unfold step
  dsimp only
  split
  · rename_i item horacle
    rw [Option.map_eq_some_iff]
    constructor
    · rintro ⟨q, hdone, rfl⟩
      exact ⟨item, q, horacle, hdone, rfl⟩
    · rintro ⟨item', q, horacle', hdone, rfl⟩
      obtain rfl : item = item' := by simpa [horacle] using horacle'
      exact ⟨q, hdone, rfl⟩
  · rename_i hnot
    exact iff_of_false (fun h => nomatch h) fun ⟨item, _, horacle, _⟩ => hnot item horacle

theorem iterate_eq_some {batch : List E} : step args s (.iterate batch) = some s' ↔ s.phase = .spawning ∧
    ∃ t, s.refill batch = some t ∧ s' = { spawn args t.toSpawn t with phase := .waiting } := by
  unfold step
  rw [Option.ite_none_right_eq_some, Option.map_eq_some_iff]
  simp only [eq_comm (b := s')]

/-- An iteration fills the stash and creates tasks as far as the limits go, and leaves the rest alone. -/
theorem exists_of_iterate {batch : List E} (h : step args s (.iterate batch) = some s') : s.phase = .spawning ∧
    ∃ k ≤ concurrencyLimit - s.activeTasks.length, ∃ isDone saved fetched spawned stash total,
      stash.length ≤ max queryStash s.testableQueries.length ∧ s' = { s with
        phase := .waiting
        activeTasks := s.activeTasks ++ List.replicate k .receiving
        testableQueries := stash
        isDone := isDone
        saved := saved
        fetched := fetched
        spawned := spawned
        total := total } := by
  obtain ⟨hphase, t, hrefill, rfl⟩ := iterate_eq_some.1 h
  obtain ⟨hlen, rfl⟩ := refill_eq_some hrefill
  obtain ⟨k, hk, isDone, saved, spawned, stash, total, hstash, heq⟩ := spawn_eq args
    (toSpawn { s with testableQueries := s.testableQueries ++ batch, fetched := s.fetched ++ batch })
    { s with testableQueries := s.testableQueries ++ batch, fetched := s.fetched ++ batch }
  refine ⟨hphase, k, hk.trans (Nat.min_le_left _ _), isDone, saved, s.fetched ++ batch, spawned, stash, total,
    hstash.length_le.trans ?_, ?_⟩
  · rw [List.length_append]
    exact hlen
  · rw [heq]

theorem resume_eq_some {stop : Bool} : step args s (.resume stop) = some s' ↔
    s.phase = .waiting ∧ (s.activeTasks = [] ∨ ∃ task ∈ s.activeTasks, task.isDone) ∧
      s' = { s with
        activeTasks := s.activeTasks.filter fun task => !task.isDone
        phase := if s.isDone || stop then .gathering else .spawning } := by
  unfold step
  rw [Option.ite_none_right_eq_some, Bool.or_eq_true, List.isEmpty_iff, List.any_eq_true, and_assoc, Option.some.injEq,
    eq_comm (b := s')]

theorem gather_eq_some : step args s .gather = some s' ↔
    s.phase = .gathering ∧ (∀ task ∈ s.activeTasks, task.isDone) ∧ s' = { s with phase := .joining } := by
  unfold step
  rw [Option.ite_none_right_eq_some, List.all_eq_true, and_assoc, Option.some.injEq, eq_comm (b := s')]

theorem join_eq_some : step args s .join = some s' ↔ s.phase = .joining ∧ s.oracleQueue.unfinishedTasks = 0 ∧
    ∃ q, s.oracleQueue.putAll (List.replicate nOracles none) = some q ∧
      s' = { s with oracleQueue := q, phase := .returned } := by
  unfold step
  rw [Option.ite_none_right_eq_some, and_assoc, Option.map_eq_some_iff]
  simp only [eq_comm (b := s')]

end FuzzingLoop

end Lsf.Tester
