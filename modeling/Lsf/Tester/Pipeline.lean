import Mathlib.Algebra.Order.Group.Multiset
import Mathlib.Tactic.Abel
import Lsf.Tester.EventLoop

/-!
# The way of the captures

Every capture is in one place at any time: with the task that wants to put it, in the queue, in the hands of an oracle,
or handled (`Flowing`). The loop and its tasks keep to their limits (`Limited`), and the phases of the loop say what is
over (`Phased`). When all have returned, each capture was handled once, whatever the order of the steps (`delivered`).
-/

namespace Lsf.Tester

open Lsf.Lib

variable {E C : Type}

def Task.capture? : Task C → Option C
  | .putting capture => some capture
  | _ => none

def Task.isExecuting : Task C → Bool
  | .executing => true
  | _ => false

def OracleWorker.item? : OracleWorker C → Option C
  | .handling item => some item
  | _ => none

def OracleWorker.isReturned : OracleWorker C → Bool
  | .returned => true
  | _ => false

namespace FuzzingLoop

/-- Where the captures are. -/
structure Flowing (s : FuzzingLoop E C) : Prop where
  counted : s.oracleQueue.Counted (s.oracles.filterMap OracleWorker.item?).length
  maxsize : s.oracleQueue.maxsize = oracleQueueSize
  bounded : s.oracleQueue.items.length ≤ oracleQueueSize
  captured : (s.captured : Multiset C) =
    s.handled + s.oracles.filterMap OracleWorker.item? + s.oracleQueue.items.filterMap id +
      s.activeTasks.filterMap Task.capture?

/-- The limits of the loop: of the tasks, of the stash and of the tokens, each of which is in the channel or with a task
that executes. -/
structure Limited (s : FuzzingLoop E C) : Prop where
  tasks : s.activeTasks.length ≤ concurrencyLimit
  stash : s.testableQueries.length ≤ queryStash
  tokens : s.tokens + s.activeTasks.countP Task.isExecuting = concurrencyLimit

/-- What is over in which phase. -/
structure Phased (s : FuzzingLoop E C) : Prop where
  oracles : s.oracles.length = nOracles
  running : s.phase ≠ .returned → none ∉ s.oracleQueue.items ∧ s.oracles.countP OracleWorker.isReturned = 0
  gathered : s.phase = .joining ∨ s.phase = .returned → ∀ task ∈ s.activeTasks, task.isDone
  joined : s.phase = .returned → s.oracleQueue.items.filterMap id = [] ∧
    s.oracles.filterMap OracleWorker.item? = [] ∧
    s.oracleQueue.items.length + s.oracles.countP OracleWorker.isReturned = nOracles

/-- The loop and all oracles have returned. -/
def Finished (s : FuzzingLoop E C) : Prop :=
  s.phase = .returned ∧ s.oracles.countP OracleWorker.isReturned = nOracles

variable {args : EvalArgs} {s s' : FuzzingLoop E C}

/-! ## Captures -/

theorem filterMap_filter_isDone (tasks : List (Task C)) :
    (tasks.filter fun task => !task.isDone).filterMap Task.capture? = tasks.filterMap Task.capture? := by
  rw [List.filterMap_filter]
  refine List.filterMap_congr fun task _ => ?_
  cases task <;> rfl

theorem filterMap_replicate_receiving (k : Nat) :
    (List.replicate k (Task.receiving : Task C)).filterMap Task.capture? = [] := by
  rw [List.filterMap_eq_nil_iff]
  intro task htask
  rw [List.eq_of_mem_replicate htask]
  rfl

theorem length_filterMap_set {oracles : List (OracleWorker C)} {j : Nat} {oracle oracle' : OracleWorker C}
    (h : oracles[j]? = some oracle) :
    ((oracles.set j oracle').filterMap OracleWorker.item?).length + oracle.item?.toList.length =
      (oracles.filterMap OracleWorker.item?).length + oracle'.item?.toList.length := by
  obtain ⟨rest, hold, hnew⟩ := exists_filterMap_rest OracleWorker.item? h
  have hlen := congrArg Multiset.card hold
  have hlen' := congrArg Multiset.card (hnew oracle')
  rw [Multiset.card_add, Multiset.coe_card, Multiset.coe_card] at hlen hlen'
  omega

theorem Flowing.get {j : Nat} (h : Flowing s) (hstep : step args s (.get j) = some s') : Flowing s' := by
  obtain ⟨horacle, ⟨item, q, hget, rfl⟩ | ⟨q, q', hget, hdone, rfl⟩⟩ := get_eq_some.1 hstep
  · have hcounted := h.counted.get hget
    obtain ⟨hitems, hq⟩ := WorkQueue.get_eq_some.1 hget
    obtain ⟨rest, hold, hnew⟩ := exists_filterMap_rest OracleWorker.item? horacle
    have hlen : ((s.oracles.set j (.handling item)).filterMap OracleWorker.item?).length =
        (s.oracles.filterMap OracleWorker.item?).length + 1 := length_filterMap_set horacle
    have hbounded := h.bounded
    rw [hitems, List.length_cons] at hbounded
    refine ⟨by simpa only [setOracle, hlen] using hcounted, ?_, (Nat.le_succ _).trans hbounded, ?_⟩
    · exact (congrArg WorkQueue.maxsize hq).trans h.maxsize
    · dsimp only [setOracle]
      rw [h.captured, hold, hnew, hitems, List.filterMap_cons_some (f := id) rfl, ← Multiset.cons_coe,
        ← Multiset.singleton_add]
      simp only [OracleWorker.item?, Option.toList_none, Option.toList_some, Multiset.coe_nil, Multiset.coe_singleton]
      abel
  · have hcounted := (h.counted.get hget).taskDone hdone
    obtain ⟨hitems, hq⟩ := WorkQueue.get_eq_some.1 hget
    obtain ⟨-, rfl⟩ := WorkQueue.taskDone_eq_some.1 hdone
    obtain ⟨rest, hold, hnew⟩ := exists_filterMap_rest OracleWorker.item? horacle
    have hlen : ((s.oracles.set j .returned).filterMap OracleWorker.item?).length =
        (s.oracles.filterMap OracleWorker.item?).length := length_filterMap_set horacle
    have hbounded := h.bounded
    rw [hitems, List.length_cons] at hbounded
    refine ⟨by simpa only [setOracle, hlen] using hcounted, ?_, (Nat.le_succ _).trans hbounded, ?_⟩
    · exact (congrArg WorkQueue.maxsize hq).trans h.maxsize
    · dsimp only [setOracle]
      rw [h.captured, hold, hnew, hitems, List.filterMap_cons_none rfl]
      rfl

theorem Flowing.taskDone {j : Nat} (h : Flowing s) (hstep : step args s (.taskDone j) = some s') : Flowing s' := by
  obtain ⟨item, q, horacle, hdone, rfl⟩ := taskDone_eq_some.1 hstep
  obtain ⟨rest, hold, hnew⟩ := exists_filterMap_rest OracleWorker.item? horacle
  have hlen : ((s.oracles.set j .getting).filterMap OracleWorker.item?).length + 1 =
      (s.oracles.filterMap OracleWorker.item?).length := length_filterMap_set horacle
  have hcounted := h.counted
  rw [← hlen] at hcounted
  have hcounted := hcounted.taskDone hdone
  obtain ⟨-, rfl⟩ := WorkQueue.taskDone_eq_some.1 hdone
  refine ⟨hcounted, h.maxsize, h.bounded, ?_⟩
  dsimp only [setOracle]
  rw [h.captured, hold, hnew, ← Multiset.coe_add]
  simp only [OracleWorker.item?, Option.toList_none, Option.toList_some, Multiset.coe_nil, zero_add]
  abel

theorem Flowing.join (h : Flowing s) (hstep : step args s .join = some s') : Flowing s' := by
  obtain ⟨-, hzero, q, hput, rfl⟩ := join_eq_some.1 hstep
  obtain ⟨hitems, hhand⟩ := h.counted.eq_zero_iff.1 hzero
  have hroom : nOracles ≤ oracleQueueSize := by decide
  have hmaxsize := h.maxsize
  have hall := WorkQueue.putAll_eq_some (q := s.oracleQueue) (List.replicate nOracles none) (by
    rw [hitems, List.length_nil, List.length_replicate]
    omega)
  obtain rfl := Option.some.inj (hput.symm.trans hall)
  refine ⟨?_, h.maxsize, ?_, h.captured.trans ?_⟩
  · simp [WorkQueue.Counted, hzero, hitems, hhand]
  · simpa [hitems] using hroom
  · simp [hitems]

/-- Every step moves captures along the way. -/
theorem Flowing.step {a : LoopStep E C} (h : Flowing s) (hstep : step args s a = some s') : Flowing s' := by
  cases a with
  | iterate batch =>
    obtain ⟨-, k, -, isDone, saved, fetched, spawned, stash, total, -, rfl⟩ := exists_of_iterate hstep
    refine ⟨h.counted, h.maxsize, h.bounded, h.captured.trans ?_⟩
    dsimp only
    rw [List.filterMap_append, filterMap_replicate_receiving, List.append_nil]
  | resume stop =>
    obtain ⟨-, -, rfl⟩ := resume_eq_some.1 hstep
    refine ⟨h.counted, h.maxsize, h.bounded, h.captured.trans ?_⟩
    dsimp only
    rw [filterMap_filter_isDone]
  | recv i =>
    obtain ⟨htask, -, rfl⟩ := recv_eq_some.1 hstep
    obtain ⟨rest, hold, hnew⟩ := exists_filterMap_rest Task.capture? htask
    refine ⟨h.counted, h.maxsize, h.bounded, h.captured.trans ?_⟩
    dsimp only [setTask]
    rw [hold, hnew]
    rfl
  | execute i capture =>
    obtain ⟨htask, rfl⟩ := execute_eq_some.1 hstep
    obtain ⟨rest, hold, hnew⟩ := exists_filterMap_rest Task.capture? htask
    refine ⟨h.counted, h.maxsize, h.bounded, ?_⟩
    dsimp only [setTask]
    have hcapture : (capture.elim Task.done Task.putting).capture? = capture := by cases capture <;> rfl
    rw [← Multiset.coe_add, h.captured, hold, hnew, hcapture]
    simp only [Task.capture?, Option.toList_none, Multiset.coe_nil, zero_add]
    abel
  | put i =>
    obtain ⟨capture, q, htask, hput, rfl⟩ := put_eq_some.1 hstep
    obtain ⟨rest, hold, hnew⟩ := exists_filterMap_rest Task.capture? htask
    have hcounted := h.counted.put hput
    obtain ⟨hroom, rfl⟩ := WorkQueue.put_eq_some.1 hput
    refine ⟨hcounted, h.maxsize, ?_, ?_⟩
    · have hfull := WorkQueue.full_iff.not.1 (Bool.eq_false_iff.1 hroom)
      have hmaxsize := h.maxsize
      have hpos : 0 < oracleQueueSize := by decide
      dsimp only [setTask]
      rw [List.length_append, List.length_singleton]
      omega
    · dsimp only [setTask]
      rw [h.captured, hold, hnew, List.filterMap_append, ← Multiset.coe_add]
      simp only [Task.capture?, Option.toList_none, Option.toList_some, Multiset.coe_nil, zero_add]
      rw [← add_assoc, ← add_assoc]
      rfl
  | get j => exact h.get hstep
  | taskDone j => exact h.taskDone hstep
  | gather =>
    obtain ⟨-, -, rfl⟩ := gather_eq_some.1 hstep
    exact ⟨h.counted, h.maxsize, h.bounded, h.captured⟩
  | join => exact h.join hstep

/-! ## Limits -/

theorem countP_replicate_receiving (k : Nat) :
    (List.replicate k (Task.receiving : Task C)).countP Task.isExecuting = 0 := by
  rw [List.countP_eq_zero]
  intro task htask
  rw [List.eq_of_mem_replicate htask]
  exact Bool.false_ne_true

theorem countP_filter_isDone (tasks : List (Task C)) :
    (tasks.filter fun task => !task.isDone).countP Task.isExecuting = tasks.countP Task.isExecuting := by
  rw [List.countP_filter]
  refine List.countP_congr fun task _ => ?_
  cases task <;> simp [Task.isExecuting, Task.isDone]

/-- A token is in the channel or with a task that executes. -/
theorem tokens_step {a : LoopStep E C} (h : s.tokens + s.activeTasks.countP Task.isExecuting = concurrencyLimit)
    (hstep : step args s a = some s') : s'.tokens + s'.activeTasks.countP Task.isExecuting = concurrencyLimit := by
  cases a with
  | iterate batch =>
    obtain ⟨-, k, hk, isDone, saved, fetched, spawned, stash, total, hstash, rfl⟩ := exists_of_iterate hstep
    dsimp only
    rw [List.countP_append, countP_replicate_receiving]
    exact h
  | resume stop =>
    obtain ⟨-, -, rfl⟩ := resume_eq_some.1 hstep
    simpa only [countP_filter_isDone] using h
  | recv i =>
    obtain ⟨htask, hpos, rfl⟩ := recv_eq_some.1 hstep
    have hcount : (s.activeTasks.set i .executing).countP Task.isExecuting =
        s.activeTasks.countP Task.isExecuting + 1 := countP_set Task.isExecuting .executing htask
    dsimp only [setTask]
    omega
  | execute i capture =>
    obtain ⟨htask, rfl⟩ := execute_eq_some.1 hstep
    have hcount : (s.activeTasks.set i (capture.elim .done .putting)).countP Task.isExecuting + 1 =
        s.activeTasks.countP Task.isExecuting := by
      cases capture <;> exact countP_set Task.isExecuting _ htask
    dsimp only [setTask]
    omega
  | put i =>
    obtain ⟨capture, q, htask, -, rfl⟩ := put_eq_some.1 hstep
    have hcount : (s.activeTasks.set i .done).countP Task.isExecuting = s.activeTasks.countP Task.isExecuting :=
      countP_set Task.isExecuting .done htask
    simpa only [setTask, hcount] using h
  | get j =>
    obtain ⟨-, ⟨item, q, -, rfl⟩ | ⟨q, q', -, -, rfl⟩⟩ := get_eq_some.1 hstep
    · exact h
    · exact h
  | taskDone j =>
    obtain ⟨item, q, -, -, rfl⟩ := taskDone_eq_some.1 hstep
    exact h
  | gather =>
    obtain ⟨-, -, rfl⟩ := gather_eq_some.1 hstep
    exact h
  | join =>
    obtain ⟨-, -, q, -, rfl⟩ := join_eq_some.1 hstep
    exact h

theorem Limited.step {a : LoopStep E C} (h : Limited s) (hstep : step args s a = some s') : Limited s' := by
  have htokens := tokens_step h.tokens hstep
  have htasks := h.tasks
  cases a with
  | iterate batch =>
    obtain ⟨-, k, hk, isDone, saved, fetched, spawned, stash, total, hstash, rfl⟩ := exists_of_iterate hstep
    refine ⟨?_, hstash.trans (max_le le_rfl h.stash), htokens⟩
    dsimp only
    rw [List.length_append, List.length_replicate]
    omega
  | resume stop =>
    obtain ⟨-, -, rfl⟩ := resume_eq_some.1 hstep
    exact ⟨(List.length_filter_le _ _).trans htasks, h.stash, htokens⟩
  | recv i =>
    obtain ⟨-, -, rfl⟩ := recv_eq_some.1 hstep
    exact ⟨List.length_set.trans_le htasks, h.stash, htokens⟩
  | execute i capture =>
    obtain ⟨-, rfl⟩ := execute_eq_some.1 hstep
    exact ⟨List.length_set.trans_le htasks, h.stash, htokens⟩
  | put i =>
    obtain ⟨capture, q, -, -, rfl⟩ := put_eq_some.1 hstep
    exact ⟨List.length_set.trans_le htasks, h.stash, htokens⟩
  | get j =>
    obtain ⟨-, ⟨item, q, -, rfl⟩ | ⟨q, q', -, -, rfl⟩⟩ := get_eq_some.1 hstep
    · exact ⟨htasks, h.stash, htokens⟩
    · exact ⟨htasks, h.stash, htokens⟩
  | taskDone j =>
    obtain ⟨item, q, -, -, rfl⟩ := taskDone_eq_some.1 hstep
    exact ⟨htasks, h.stash, htokens⟩
  | gather =>
    obtain ⟨-, -, rfl⟩ := gather_eq_some.1 hstep
    exact ⟨htasks, h.stash, htokens⟩
  | join =>
    obtain ⟨-, -, q, -, rfl⟩ := join_eq_some.1 hstep
    exact ⟨htasks, h.stash, htokens⟩

/-- A task that waits for a token finds one: there are as many tokens as there may be tasks. -/
theorem Limited.tokens_pos {i : Nat} (h : Limited s) (htask : s.activeTasks[i]? = some .receiving) : 0 < s.tokens := by
  have hlt : s.activeTasks.countP Task.isExecuting < s.activeTasks.length := by
    rw [List.countP_lt_length_iff]
    exact ⟨.receiving, List.mem_of_getElem? htask, rfl⟩
  have htasks := h.tasks
  have htokens := h.tokens
  omega

/-! ## Phases -/

/-- A task that is not done tells that the loop has not gathered yet. -/
theorem Phased.not_gathered {i : Nat} {task : Task C} (h : Phased s) (htask : s.activeTasks[i]? = some task)
    (hdone : task.isDone = false) : ¬(s.phase = .joining ∨ s.phase = .returned) := by
  intro hphase
  have htrue := h.gathered hphase task (List.mem_of_getElem? htask)
  rw [hdone] at htrue
  cases htrue

/-- Steps of the tasks. -/
theorem Phased.of_task {i : Nat} {task : Task C} (h : Phased s) (htask : s.activeTasks[i]? = some task)
    (hdone : task.isDone = false) (hphase : s'.phase = s.phase) (horacles : s'.oracles = s.oracles)
    (hitems : none ∉ s.oracleQueue.items → none ∉ s'.oracleQueue.items) : Phased s' := by
  have hnot := h.not_gathered htask hdone
  refine ⟨horacles ▸ h.oracles, fun hrunning => ?_, fun hgathered => ?_, fun hreturned => ?_⟩
  · rw [hphase] at hrunning
    rw [horacles]
    exact ⟨hitems (h.running hrunning).1, (h.running hrunning).2⟩
  · rw [hphase] at hgathered
    exact absurd hgathered hnot
  · rw [hphase] at hreturned
    exact absurd (.inr hreturned) hnot

theorem Phased.get {j : Nat} (h : Phased s) (hstep : step args s (.get j) = some s') : Phased s' := by
  obtain ⟨horacle, ⟨item, q, hget, rfl⟩ | ⟨q, q', hget, hdone, rfl⟩⟩ := get_eq_some.1 hstep
  · obtain ⟨hitems, -⟩ := WorkQueue.get_eq_some.1 hget
    have hcount : (s.oracles.set j (.handling item)).countP OracleWorker.isReturned =
        s.oracles.countP OracleWorker.isReturned := countP_set OracleWorker.isReturned (.handling item) horacle
    refine ⟨List.length_set.trans h.oracles, fun hrunning => ?_, h.gathered, fun hreturned => ?_⟩
    · obtain ⟨hnone, hzero⟩ := h.running hrunning
      rw [hitems] at hnone
      exact ⟨fun hmem => hnone (List.mem_cons_of_mem _ hmem), hcount.trans hzero⟩
    · have hnil := (h.joined hreturned).1
      rw [hitems, List.filterMap_cons_some (f := id) rfl] at hnil
      cases hnil
  · obtain ⟨hitems, -⟩ := WorkQueue.get_eq_some.1 hget
    obtain ⟨-, rfl⟩ := WorkQueue.taskDone_eq_some.1 hdone
    have hcount : (s.oracles.set j .returned).countP OracleWorker.isReturned =
        s.oracles.countP OracleWorker.isReturned + 1 := countP_set OracleWorker.isReturned .returned horacle
    refine ⟨List.length_set.trans h.oracles, fun hrunning => ?_, h.gathered, fun hreturned => ?_⟩
    · obtain ⟨hnone, -⟩ := h.running hrunning
      rw [hitems] at hnone
      exact absurd List.mem_cons_self hnone
    · obtain ⟨hnil, hhand, hall⟩ := h.joined hreturned
      rw [hitems, List.filterMap_cons_none rfl] at hnil
      rw [hitems, List.length_cons] at hall
      have hlen : ((s.oracles.set j .returned).filterMap OracleWorker.item?).length =
          (s.oracles.filterMap OracleWorker.item?).length := length_filterMap_set horacle
      rw [hhand] at hlen
      refine ⟨hnil, List.eq_nil_of_length_eq_zero hlen, ?_⟩
      dsimp only [setOracle]
      omega

theorem Phased.taskDone {j : Nat} (h : Phased s) (hstep : step args s (.taskDone j) = some s') : Phased s' := by
  obtain ⟨item, q, horacle, hdone, rfl⟩ := taskDone_eq_some.1 hstep
  obtain ⟨-, rfl⟩ := WorkQueue.taskDone_eq_some.1 hdone
  have hcount : (s.oracles.set j .getting).countP OracleWorker.isReturned =
      s.oracles.countP OracleWorker.isReturned := countP_set OracleWorker.isReturned .getting horacle
  refine ⟨List.length_set.trans h.oracles, fun hrunning => ?_, h.gathered, fun hreturned => ?_⟩
  · exact ⟨(h.running hrunning).1, hcount.trans (h.running hrunning).2⟩
  · have hmem : item ∈ s.oracles.filterMap OracleWorker.item? :=
      List.mem_filterMap.2 ⟨.handling item, List.mem_of_getElem? horacle, rfl⟩
    rw [(h.joined hreturned).2.1] at hmem
    cases hmem

theorem Phased.join (h : Phased s) (hflow : Flowing s) (hstep : step args s .join = some s') : Phased s' := by
  obtain ⟨hphase, hzero, q, hput, rfl⟩ := join_eq_some.1 hstep
  obtain ⟨hitems, hhand⟩ := hflow.counted.eq_zero_iff.1 hzero
  have hmaxsize := hflow.maxsize
  have hroom : nOracles ≤ oracleQueueSize := by decide
  have hall := WorkQueue.putAll_eq_some (q := s.oracleQueue) (List.replicate nOracles none) (by
    rw [hitems, List.length_nil, List.length_replicate]
    omega)
  obtain rfl := Option.some.inj (hput.symm.trans hall)
  have hrunning := h.running (by rw [hphase]; decide)
  refine ⟨h.oracles, fun hne => absurd rfl hne, fun _ => h.gathered (.inl hphase), fun _ => ⟨?_, ?_, ?_⟩⟩
  · simp [hitems]
  · exact List.eq_nil_of_length_eq_zero hhand
  · simp [hitems, hrunning.2]

theorem Phased.step {a : LoopStep E C} (h : Phased s) (hflow : Flowing s) (hstep : step args s a = some s') :
    Phased s' := by
  cases a with
  | iterate batch =>
    obtain ⟨hphase, k, -, isDone, saved, fetched, spawned, stash, total, -, rfl⟩ := exists_of_iterate hstep
    exact ⟨h.oracles, fun _ => h.running (by rw [hphase]; decide), fun hnot => by simp at hnot,
      fun hnot => nomatch hnot⟩
  | resume stop =>
    obtain ⟨hphase, -, rfl⟩ := resume_eq_some.1 hstep
    have hrunning := h.running (by rw [hphase]; decide)
    refine ⟨h.oracles, fun _ => hrunning, fun hnot => ?_, fun hnot => ?_⟩
    · dsimp only at hnot
      split at hnot <;> simp at hnot
    · dsimp only at hnot
      split at hnot <;> simp at hnot
  | recv i =>
    obtain ⟨htask, -, rfl⟩ := recv_eq_some.1 hstep
    exact h.of_task htask rfl rfl rfl id
  | execute i capture =>
    obtain ⟨htask, rfl⟩ := execute_eq_some.1 hstep
    exact h.of_task htask rfl rfl rfl id
  | put i =>
    obtain ⟨capture, q, htask, hput, rfl⟩ := put_eq_some.1 hstep
    obtain ⟨-, rfl⟩ := WorkQueue.put_eq_some.1 hput
    refine h.of_task htask rfl rfl rfl fun hnone => ?_
    simpa [setTask] using hnone
  | get j => exact h.get hstep
  | taskDone j => exact h.taskDone hstep
  | gather =>
    obtain ⟨hphase, hall, rfl⟩ := gather_eq_some.1 hstep
    exact ⟨h.oracles, fun _ => h.running (by rw [hphase]; decide), fun _ => hall, fun hnot => nomatch hnot⟩
  | join => exact h.join hflow hstep

/-! ## Runs -/

/-- What holds at any time. -/
structure Sound (s : FuzzingLoop E C) : Prop where
  flowing : Flowing s
  limited : Limited s
  phased : Phased s

theorem Sound.step {a : LoopStep E C} (h : Sound s) (hstep : FuzzingLoop.step args s a = some s') : Sound s' :=
  ⟨h.flowing.step hstep, h.limited.step hstep, h.phased.step h.flowing hstep⟩

theorem filterMap_replicate_getting (n : Nat) :
    (List.replicate n (OracleWorker.getting : OracleWorker C)).filterMap OracleWorker.item? = [] := by
  rw [List.filterMap_eq_nil_iff]
  intro oracle horacle
  rw [List.eq_of_mem_replicate horacle]
  rfl

theorem sound_start {queued : List C} (h : queued.length ≤ oracleQueueSize) :
    Sound (start queued : FuzzingLoop E C) := by
  refine ⟨⟨?_, rfl, ?_, ?_⟩, ⟨Nat.zero_le _, Nat.zero_le _, rfl⟩, ⟨rfl, fun _ => ⟨?_, rfl⟩, ?_, ?_⟩⟩
  · simp [WorkQueue.Counted, start, filterMap_replicate_getting]
  · simpa [start] using h
  · simp [start, filterMap_replicate_getting]
  · simp [start]
  · simp [start]
  · simp [start]

theorem Sound.run {as : List (LoopStep E C)} (h : Sound s) (hrun : Lib.run (FuzzingLoop.step args) s as = some s') :
    Sound s' :=
  run_invariant_of_forall (fun _ _ _ hs hstep => hs.step hstep) h hrun

/-- **No capture is lost or handled twice, in whatever order the steps come.** At any time the captures are those that
are handled, in hand, in the queue or waiting for it; when the loop and the oracles have returned, all are handled, the
queue is empty and joined, and the tokens are back. -/
theorem delivered {queued : List C} {as : List (LoopStep E C)} (hqueued : queued.length ≤ oracleQueueSize)
    (hrun : Lib.run (FuzzingLoop.step args) (start queued) as = some s) :
    s.captured.Perm (s.handled ++ s.oracles.filterMap OracleWorker.item? ++ s.oracleQueue.items.filterMap id ++
        s.activeTasks.filterMap Task.capture?) ∧
      (Finished s → s.handled.Perm s.captured ∧ s.oracleQueue.items = [] ∧ s.oracleQueue.unfinishedTasks = 0 ∧
        s.tokens = concurrencyLimit) := by
  have hsound := (sound_start hqueued).run hrun
  have hcaptured := hsound.flowing.captured
  simp only [Multiset.coe_add, Multiset.coe_eq_coe] at hcaptured
  refine ⟨hcaptured, fun ⟨hphase, hall⟩ => ?_⟩
  obtain ⟨hqueue, hhand, hcount⟩ := hsound.phased.joined hphase
  have hdone := hsound.phased.gathered (.inr hphase)
  have htasks : s.activeTasks.filterMap Task.capture? = [] := by
    rw [List.filterMap_eq_nil_iff]
    intro task htask
    have hisDone := hdone task htask
    cases task <;> first | rfl | cases hisDone
  have hexecuting : s.activeTasks.countP Task.isExecuting = 0 := by
    rw [List.countP_eq_zero]
    intro task htask
    have hisDone := hdone task htask
    cases task <;> first | exact Bool.false_ne_true | cases hisDone
  have hitems : s.oracleQueue.items = [] := List.eq_nil_of_length_eq_zero (by omega)
  rw [hqueue, hhand, htasks, List.append_nil, List.append_nil, List.append_nil] at hcaptured
  have hcounted := hsound.flowing.counted.eq_zero_iff.2 ⟨hitems, by rw [hhand, List.length_nil]⟩
  have htokens := hsound.limited.tokens
  exact ⟨hcaptured.symm, hitems, hcounted, by omega⟩

/-- One query, with the capture of a seed before it. -/
def shortRun : List (LoopStep Nat Nat) :=
  [.iterate [5], .recv 0, .get 3, .execute 0 (some 7), .put 0, .resume true, .gather, .get 1, .taskDone 1, .taskDone 3,
    .join] ++ (List.range nOracles).map .get

theorem delivered_shortRun : ∃ s : FuzzingLoop Nat Nat, Finished s ∧ s.handled = [7, 6] ∧ s.handled.Perm s.captured :=
  have hrun : Lib.run (FuzzingLoop.step ⟨false, false⟩) (start [6]) shortRun = some _ := rfl
  have hfinished := ⟨rfl, rfl⟩
  ⟨_, hfinished, rfl, ((delivered (by decide) hrun).2 hfinished).1⟩

/-- **The limits hold at any time**: those of the tasks, of the stash and of the queue; a token is in the channel or
with a task that executes; and a task that waits for a token can go on. -/
theorem limits {queued : List C} {as : List (LoopStep E C)} (hqueued : queued.length ≤ oracleQueueSize)
    (hrun : Lib.run (FuzzingLoop.step args) (start queued) as = some s) :
    s.activeTasks.length ≤ concurrencyLimit ∧ s.testableQueries.length ≤ queryStash ∧
      s.oracleQueue.items.length ≤ oracleQueueSize ∧
      s.tokens + s.activeTasks.countP Task.isExecuting = concurrencyLimit ∧
      ∀ i, s.activeTasks[i]? = some .receiving → ∃ s', FuzzingLoop.step args s (.recv i) = some s' := by
  have hsound := (sound_start hqueued).run hrun
  refine ⟨hsound.limited.tasks, hsound.limited.stash, hsound.flowing.bounded, hsound.limited.tokens, fun i htask => ?_⟩
  exact ⟨_, recv_eq_some.2 ⟨htask, hsound.limited.tokens_pos htask, rfl⟩⟩

theorem limits_shortRun : ∃ s : FuzzingLoop Nat Nat, s.oracleQueue.items.length ≤ oracleQueueSize ∧
    s.tokens + s.activeTasks.countP Task.isExecuting = concurrencyLimit :=
  have hrun : Lib.run (FuzzingLoop.step ⟨false, false⟩) (start [6]) (shortRun.take 3) = some _ := rfl
  have hlimits := limits (by decide) hrun
  ⟨_, hlimits.2.2.1, hlimits.2.2.2.1⟩

end FuzzingLoop

end Lsf.Tester
