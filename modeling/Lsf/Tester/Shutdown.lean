import Mathlib.Algebra.Order.BigOperators.Group.List
import Mathlib.Algebra.Order.Ring.Nat
import Mathlib.Algebra.Group.Action.Defs
import Lsf.Tester.Pipeline

/-!
# The end of the loop

As long as not all have returned, something can go on (`exists_step`). Once the loop only waits, every step brings a
capture or a `None` further on its way (`weight`), so that all return after finitely many steps, in whatever order these
come (`shutdown`). The captures of the seeds are put to the queue before anyone takes from it: the setup ends exactly if
all of them find room (`setup_completes_iff`).
-/

namespace Lsf.Tester

open Lsf.Lib

variable {E C : Type}

/-- How many steps a task is away from its end, with those that the oracles take for its capture. -/
def Task.weight : Task C → Nat
  | .receiving => 5
  | .executing => 4
  | .putting _ => 3
  | .done => 0

def OracleWorker.weight : OracleWorker C → Nat
  | .handling _ => 1
  | _ => 0

def itemWeight : Option C → Nat
  | some _ => 2
  | none => 1

def LoopPhase.weight : LoopPhase → Nat
  | .joining => nOracles + 1
  | .returned => 0
  | _ => nOracles + 2

namespace FuzzingLoop

/-- How many steps are left at most when no task is created any more. -/
def weight (s : FuzzingLoop E C) : Nat :=
  s.phase.weight + (s.activeTasks.map Task.weight).sum + (s.oracleQueue.items.map itemWeight).sum +
    (s.oracles.map OracleWorker.weight).sum

/-- The loop is over and waits only. -/
def Ending (s : FuzzingLoop E C) : Prop := s.phase = .gathering ∨ s.phase = .joining ∨ s.phase = .returned

/-- Nothing can go on. -/
def Stuck (args : EvalArgs) (s : FuzzingLoop E C) : Prop := ∀ a, step args s a = none

variable {args : EvalArgs} {s s' : FuzzingLoop E C}

/-! ## Something can go on -/

/-- As long as something is not done with, an oracle that has not returned can go on. -/
theorem exists_step_of_unfinished (h : Sound s) (hpos : 0 < s.oracleQueue.unfinishedTasks)
    (horacle : s.oracles.countP OracleWorker.isReturned < nOracles) : ∃ a s', step args s a = some s' := by
  by_cases hhand : ∃ (j : Nat) (item : C), s.oracles[j]? = some (.handling item)
  · obtain ⟨j, item, hj⟩ := hhand
    exact ⟨.taskDone j, _, taskDone_eq_some.2 ⟨item, _, hj, WorkQueue.taskDone_eq_some.2 ⟨hpos, rfl⟩, rfl⟩⟩
  · -- nothing is in hand, so that something is in the queue and an oracle waits for it
    have hnil : s.oracles.filterMap OracleWorker.item? = [] := by
      rw [List.filterMap_eq_nil_iff]
      intro oracle hmem
      cases oracle with
      | handling item =>
        obtain ⟨j, hj⟩ := List.mem_iff_getElem?.1 hmem
        exact absurd ⟨j, item, hj⟩ hhand
      | getting | returned => rfl
    have hcounted := h.flowing.counted
    unfold WorkQueue.Counted at hcounted
    rw [hnil, List.length_nil] at hcounted
    obtain ⟨item, items, hitems⟩ := List.exists_cons_of_ne_nil (l := s.oracleQueue.items) (by
      rintro hempty
      rw [hempty, List.length_nil] at hcounted
      omega)
    rw [← h.phased.oracles, List.countP_lt_length_iff] at horacle
    obtain ⟨oracle, hmem, hnot⟩ := horacle
    obtain ⟨j, hj⟩ := List.mem_iff_getElem?.1 hmem
    cases oracle with
    | getting =>
      have hget : s.oracleQueue.get = some (item, ⟨s.oracleQueue.maxsize, items, s.oracleQueue.unfinishedTasks⟩) :=
        WorkQueue.get_eq_some.2 ⟨hitems, rfl⟩
      cases item with
      | some item => exact ⟨.get j, _, get_eq_some.2 ⟨hj, .inl ⟨item, _, hget, rfl⟩⟩⟩
      | none =>
        exact ⟨.get j, _, get_eq_some.2 ⟨hj, .inr ⟨_, _, hget, WorkQueue.taskDone_eq_some.2 ⟨hpos, rfl⟩, rfl⟩⟩⟩
    | handling item => exact absurd ⟨j, item, hj⟩ hhand
    | returned => cases hnot

/-- Before the loop has returned, every oracle works. -/
theorem countP_lt_of_ne (h : Sound s) (hphase : s.phase ≠ .returned) :
    s.oracles.countP OracleWorker.isReturned < nOracles := by
  rw [(h.phased.running hphase).2]
  decide

/-- A task that is not done can go on, or an oracle can. -/
theorem exists_step_of_task (h : Sound s) {task : Task C} (htask : task ∈ s.activeTasks) (hdone : task.isDone = false) :
    ∃ a s', step args s a = some s' := by
  obtain ⟨i, hi⟩ := List.mem_iff_getElem?.1 htask
  cases task with
  | receiving => exact ⟨.recv i, _, recv_eq_some.2 ⟨hi, h.limited.tokens_pos hi, rfl⟩⟩
  | executing => exact ⟨.execute i none, _, execute_eq_some.2 ⟨hi, rfl⟩⟩
  | putting capture =>
    by_cases hroom : s.oracleQueue.full = false
    · exact ⟨.put i, _, put_eq_some.2 ⟨capture, _, hi, WorkQueue.put_eq_some.2 ⟨hroom, rfl⟩, rfl⟩⟩
    · -- the queue is full, so that an oracle has something to do
      have hfull := WorkQueue.full_iff.1 (Bool.not_eq_false _ ▸ hroom)
      have hcounted := h.flowing.counted
      unfold WorkQueue.Counted at hcounted
      have hphase : s.phase ≠ .returned := fun hphase => h.phased.not_gathered hi rfl (.inr hphase)
      exact exists_step_of_unfinished h (by omega) (countP_lt_of_ne h hphase)
  | done => cases hdone

/-- **Nobody waits for ever**: as long as not all have returned, something can go on. -/
theorem exists_step (h : Sound s) (hnot : ¬Finished s) : ∃ a s', step args s a = some s' := by
  by_cases htasks : ∃ task ∈ s.activeTasks, task.isDone = false
  · obtain ⟨task, htask, hdone⟩ := htasks
    exact exists_step_of_task h htask hdone
  · have hall : ∀ task ∈ s.activeTasks, task.isDone = true := by
      intro task htask
      by_contra hdone
      exact htasks ⟨task, htask, Bool.eq_false_iff.2 hdone⟩
    cases hphase : s.phase with
    | spawning =>
      have hrefill : s.refill [] =
          some { s with testableQueries := s.testableQueries ++ [], fetched := s.fetched ++ [] } := by
        unfold refill
        split <;> simp
      exact ⟨.iterate [], _, iterate_eq_some.2 ⟨hphase, _, hrefill, rfl⟩⟩
    | waiting =>
      refine ⟨.resume true, _, resume_eq_some.2 ⟨hphase, ?_, rfl⟩⟩
      cases hactive : s.activeTasks with
      | nil => exact .inl rfl
      | cons task tasks => exact .inr ⟨task, List.mem_cons_self, hall task (by rw [hactive]; exact List.mem_cons_self)⟩
    | gathering => exact ⟨.gather, _, gather_eq_some.2 ⟨hphase, hall, rfl⟩⟩
    | joining =>
      by_cases hzero : s.oracleQueue.unfinishedTasks = 0
      · obtain ⟨hitems, -⟩ := h.flowing.counted.eq_zero_iff.1 hzero
        have hmaxsize := h.flowing.maxsize
        have hroom : nOracles ≤ oracleQueueSize := by decide
        have hput := WorkQueue.putAll_eq_some (q := s.oracleQueue) (List.replicate nOracles none) (by
          rw [hitems, List.length_nil, List.length_replicate]
          omega)
        exact ⟨.join, _, join_eq_some.2 ⟨hphase, hzero, _, hput, rfl⟩⟩
      · exact exists_step_of_unfinished h (by omega) (countP_lt_of_ne h (by rw [hphase]; decide))
    | returned =>
      obtain ⟨-, -, hcount⟩ := h.phased.joined hphase
      have hle : s.oracles.countP OracleWorker.isReturned ≤ nOracles := by omega
      have hlt : s.oracles.countP OracleWorker.isReturned < nOracles :=
        lt_of_le_of_ne hle fun heq => hnot ⟨hphase, heq⟩
      have hcounted := h.flowing.counted
      unfold WorkQueue.Counted at hcounted
      exact exists_step_of_unfinished h (by omega) hlt

/-! ## The end comes -/

/-- When the loop only waits, each step takes off some weight. -/
theorem weight_step {a : LoopStep E C} (hending : Ending s) (h : Sound s) (hstep : step args s a = some s') :
    Ending s' ∧ s'.weight + 1 ≤ s.weight := by
  cases a with
  | iterate batch =>
    obtain ⟨hphase, -⟩ := iterate_eq_some.1 hstep
    simp [Ending, hphase] at hending
  | resume stop =>
    obtain ⟨hphase, -⟩ := resume_eq_some.1 hstep
    simp [Ending, hphase] at hending
  | recv i =>
    obtain ⟨htask, -, rfl⟩ := recv_eq_some.1 hstep
    have hless := sum_map_set_lt .executing (f := Task.weight) htask (n := 1) le_rfl
    refine ⟨hending, ?_⟩
    dsimp only [weight, setTask]
    omega
  | execute i capture =>
    obtain ⟨htask, rfl⟩ := execute_eq_some.1 hstep
    have hless := sum_map_set_lt (capture.elim .done .putting) (f := Task.weight) htask (n := 1) (by
      cases capture <;> simp [Task.weight])
    refine ⟨hending, ?_⟩
    dsimp only [weight, setTask]
    omega
  | put i =>
    obtain ⟨capture, q, htask, hput, rfl⟩ := put_eq_some.1 hstep
    obtain ⟨-, rfl⟩ := WorkQueue.put_eq_some.1 hput
    have hless := sum_map_set_lt .done (f := Task.weight) htask (n := 3) le_rfl
    refine ⟨hending, ?_⟩
    dsimp only [weight, setTask]
    rw [List.map_append, List.sum_append, List.map_singleton, List.sum_singleton, itemWeight]
    omega
  | get j =>
    obtain ⟨horacle, ⟨item, q, hget, rfl⟩ | ⟨q, q', hget, hdone, rfl⟩⟩ := get_eq_some.1 hstep
    · obtain ⟨hitems, -⟩ := WorkQueue.get_eq_some.1 hget
      obtain ⟨rest, hold, hnew⟩ := exists_rest horacle
      refine ⟨hending, ?_⟩
      dsimp only [weight, setOracle]
      rw [hitems, (hold.map _).sum_eq, ((hnew _).map _).sum_eq]
      simp only [List.map_cons, List.sum_cons, itemWeight, OracleWorker.weight]
      omega
    · obtain ⟨hitems, -⟩ := WorkQueue.get_eq_some.1 hget
      obtain ⟨-, rfl⟩ := WorkQueue.taskDone_eq_some.1 hdone
      obtain ⟨rest, hold, hnew⟩ := exists_rest horacle
      refine ⟨hending, ?_⟩
      dsimp only [weight, setOracle]
      rw [hitems, (hold.map _).sum_eq, ((hnew _).map _).sum_eq]
      simp only [List.map_cons, List.sum_cons, itemWeight, OracleWorker.weight]
      omega
  | taskDone j =>
    obtain ⟨item, q, horacle, hdone, rfl⟩ := taskDone_eq_some.1 hstep
    obtain ⟨-, rfl⟩ := WorkQueue.taskDone_eq_some.1 hdone
    have hless := sum_map_set_lt .getting (f := OracleWorker.weight) horacle (n := 1) le_rfl
    refine ⟨hending, ?_⟩
    dsimp only [weight, setOracle]
    omega
  | gather =>
    obtain ⟨hphase, -, rfl⟩ := gather_eq_some.1 hstep
    refine ⟨.inr (.inl rfl), ?_⟩
    dsimp only [weight]
    simp only [hphase, LoopPhase.weight]
    omega
  | join =>
    obtain ⟨hphase, hzero, q, hput, rfl⟩ := join_eq_some.1 hstep
    obtain ⟨hitems, -⟩ := h.flowing.counted.eq_zero_iff.1 hzero
    have hmaxsize := h.flowing.maxsize
    have hroom : nOracles ≤ oracleQueueSize := by decide
    have hall := WorkQueue.putAll_eq_some (q := s.oracleQueue) (List.replicate nOracles none) (by
      rw [hitems, List.length_nil, List.length_replicate]
      omega)
    obtain rfl := Option.some.inj (hput.symm.trans hall)
    refine ⟨.inr (.inr rfl), ?_⟩
    dsimp only [weight]
    rw [hphase, hitems, List.nil_append, List.map_replicate, List.sum_replicate, LoopPhase.weight, LoopPhase.weight,
      itemWeight, List.map_nil, List.sum_nil, smul_eq_mul]
    omega

/-- The weights of many, each of which is bounded. -/
theorem sum_map_le {W : Type} {f : W → Nat} {n : Nat} (h : ∀ w, f w ≤ n) (l : List W) :
    (l.map f).sum ≤ l.length * n := by
  have hle := List.sum_le_card_nsmul (l.map f) n (List.forall_mem_map.2 fun w _ => h w)
  rwa [List.length_map, smul_eq_mul] at hle

theorem weight_le (h : Sound s) : s.weight ≤
    nOracles + 2 + 5 * concurrencyLimit + 2 * oracleQueueSize + nOracles := by
  have hphase : s.phase.weight ≤ nOracles + 2 := by cases s.phase <;> decide
  have htasks := sum_map_le (f := Task.weight) (n := 5) (by rintro (_ | _ | _ | _) <;> simp [Task.weight]) s.activeTasks
  have hitems := sum_map_le (f := itemWeight) (n := 2) (by rintro (_ | _) <;> simp [itemWeight]) s.oracleQueue.items
  have horacles := sum_map_le (f := OracleWorker.weight) (n := 1)
    (by rintro (_ | _ | _) <;> simp [OracleWorker.weight]) s.oracles
  have hlimit := h.limited.tasks
  have hbounded := h.flowing.bounded
  have hlen := h.phased.oracles
  unfold weight
  omega

/-- Tasks that are done do nothing. -/
theorem step_of_done {a : LoopStep E C} (h : ∀ task ∈ s.activeTasks, task.isDone) (htask : a.IsTask) :
    step args s a = none := by
  refine Option.eq_none_iff_forall_ne_some.2 fun s' hstep => ?_
  have hdone : ∀ {i : Nat} {task : Task C}, s.activeTasks[i]? = some task → task.isDone = true :=
    fun hi => h _ (List.mem_of_getElem? hi)
  cases a with
  | recv i => cases hdone (recv_eq_some.1 hstep).1
  | execute i capture => cases hdone (execute_eq_some.1 hstep).1
  | put i =>
    obtain ⟨capture, q, hputting, -⟩ := put_eq_some.1 hstep
    cases hdone hputting
  | iterate | resume | get | taskDone | gather | join => cases htask

/-- Who has returned does nothing. -/
theorem Finished.stuck (hfinished : Finished s) (h : Sound s) : Stuck args s := by
  intro a
  obtain ⟨hphase, hall⟩ := hfinished
  by_cases htask : a.IsTask
  · exact step_of_done (h.phased.gathered (.inr hphase)) htask
  · have hreturned : ∀ oracle ∈ s.oracles, oracle.isReturned = true := by
      rwa [← h.phased.oracles, List.countP_eq_length] at hall
    refine Option.eq_none_iff_forall_ne_some.2 fun s' hstep => ?_
    cases a with
    | iterate batch => simp [(iterate_eq_some.1 hstep).1] at hphase
    | resume stop => simp [(resume_eq_some.1 hstep).1] at hphase
    | get j => cases hreturned _ (List.mem_of_getElem? (get_eq_some.1 hstep).1)
    | taskDone j =>
      obtain ⟨item, q, horacle, -⟩ := taskDone_eq_some.1 hstep
      cases hreturned _ (List.mem_of_getElem? horacle)
    | gather => simp [(gather_eq_some.1 hstep).1] at hphase
    | join => simp [(join_eq_some.1 hstep).1] at hphase
    | recv | execute | put => exact htask trivial

theorem weight_run {as : List (LoopStep E C)} (hending : Ending s) (h : Sound s)
    (hrun : Lib.run (step args) s as = some s') : Ending s' ∧ Sound s' ∧ s'.weight + as.length ≤ s.weight := by
  induction as generalizing s with
  | nil =>
    cases hrun
    exact ⟨hending, h, le_rfl⟩
  | cons a as ih =>
    obtain ⟨t, hstep, hrun⟩ := run_cons_eq_some.1 hrun
    obtain ⟨hending', hless⟩ := weight_step hending h hstep
    obtain ⟨hending'', hsound, hle⟩ := ih hending' (h.step hstep) hrun
    refine ⟨hending'', hsound, ?_⟩
    rw [List.length_cons]
    omega

/-- **The loop never hangs, and its end comes in whatever order the steps are taken.** As long as not all have returned,
something can go on; and after the loop has decided to stop, there are 8290 steps at most, after which all have
returned. -/
theorem shutdown {queued : List C} {as bs : List (LoopStep E C)} {t : FuzzingLoop E C}
    (hqueued : queued.length ≤ oracleQueueSize) (hrun : Lib.run (step args) (start queued) as = some s)
    (hend : Lib.run (step args) s bs = some t) :
    (Stuck args s ↔ Finished s) ∧ (Ending s → bs.length ≤ 8290 ∧ (Stuck args t ↔ Finished t)) := by
  have hsound := (sound_start hqueued).run hrun
  have hstuck : ∀ {s : FuzzingLoop E C}, Sound s → (Stuck args s ↔ Finished s) := by
    intro s hs
    refine ⟨fun hstuck => ?_, fun hfinished => hfinished.stuck hs⟩
    by_contra hnot
    obtain ⟨a, s', hstep⟩ : ∃ a s', step args s a = some s' := exists_step hs hnot
    rw [hstuck a] at hstep
    cases hstep
  refine ⟨hstuck hsound, fun hending => ?_⟩
  obtain ⟨-, hsound', hle⟩ := weight_run hending hsound hend
  have hbound : s.weight ≤ 8290 := weight_le hsound
  exact ⟨by omega, hstuck hsound'⟩

theorem shutdown_shortRun : ∃ s t : FuzzingLoop Nat Nat, Ending s ∧ Stuck ⟨false, false⟩ t :=
  have hrun : Lib.run (FuzzingLoop.step ⟨false, false⟩) (start [6]) (shortRun.take 6) = some _ := rfl
  have hend : Lib.run (FuzzingLoop.step ⟨false, false⟩) _ (shortRun.drop 6) = some _ := rfl
  have hending := .inl rfl
  ⟨_, _, hending, ((shutdown (by decide) hrun hend).2 hending).2.2 ⟨rfl, rfl⟩⟩

/-! ## The seeds -/

/-- Where the captures are while no oracle runs. -/
structure Setup (s : FuzzingLoop E C) : Prop where
  flowing : Flowing s
  tokens : s.tokens + s.activeTasks.countP Task.isExecuting = concurrencyLimit
  oracles : s.oracles = []
  handled : s.handled = []
  items : none ∉ s.oracleQueue.items

theorem Setup.step {a : LoopStep E C} (h : Setup s) (htask : a.IsTask) (hstep : step args s a = some s') :
    Setup s' := by
  have hflowing := h.flowing.step hstep
  have htokens := tokens_step h.tokens hstep
  cases a with
  | recv i =>
    obtain ⟨-, -, rfl⟩ := recv_eq_some.1 hstep
    exact ⟨hflowing, htokens, h.oracles, h.handled, h.items⟩
  | execute i capture =>
    obtain ⟨-, rfl⟩ := execute_eq_some.1 hstep
    exact ⟨hflowing, htokens, h.oracles, h.handled, h.items⟩
  | put i =>
    obtain ⟨capture, q, -, hput, rfl⟩ := put_eq_some.1 hstep
    obtain ⟨-, rfl⟩ := WorkQueue.put_eq_some.1 hput
    exact ⟨hflowing, htokens, h.oracles, h.handled, by simpa [setTask] using h.items⟩
  | iterate | resume | get | taskDone | gather | join => cases htask

theorem setup_seeding {queued : List C} {seeds : Nat} (h : queued.length ≤ oracleQueueSize) :
    Setup (seeding queued seeds : FuzzingLoop E C) := by
  refine ⟨⟨?_, rfl, by simpa [seeding, start] using h, ?_⟩, ?_, rfl, rfl, by simp [seeding, start]⟩
  · simp [WorkQueue.Counted, seeding, start]
  · simp [seeding, start, filterMap_replicate_receiving]
  · simp [seeding, start, countP_replicate_receiving]

/-- What is captured is in the queue or waits for it. -/
theorem Setup.length_captured (h : Setup s) : s.captured.length =
    s.oracleQueue.items.length + (s.activeTasks.filterMap Task.capture?).length := by
  have hcaptured := congrArg Multiset.card h.flowing.captured
  rw [h.oracles, h.handled] at hcaptured
  have hitems : (s.oracleQueue.items.filterMap id).length = s.oracleQueue.items.length := by
    rw [List.length_filterMap_eq_countP, List.countP_eq_length]
    intro item hitem
    cases item with
    | some capture => rfl
    | none => exact absurd hitem h.items
  simpa only [Multiset.card_add, Multiset.coe_card, List.filterMap_nil, List.length_nil, hitems, Nat.zero_add] using
    hcaptured

/-- **The setup ends exactly if the captures of the seeds find room in the queue**: when no task can go on, all of them
are done if there are 4096 captures at most, and otherwise some wait for ever. -/
theorem setup_completes_iff {queued : List C} {seeds : Nat} {as : List (LoopStep E C)}
    (hqueued : queued.length ≤ oracleQueueSize) (htasks : ∀ a ∈ as, a.IsTask)
    (hrun : Lib.run (FuzzingLoop.step args) (seeding queued seeds) as = some s)
    (hstuck : ∀ a : LoopStep E C, a.IsTask → FuzzingLoop.step args s a = none) :
    (∀ task ∈ s.activeTasks, task.isDone) ↔ s.captured.length ≤ oracleQueueSize := by
  have hsetup : Setup s := run_invariant (fun _ _ _ hs ha hstep => hs.step ha hstep) (setup_seeding hqueued)
    (allSteps_of_forall fun _ a ha => htasks a ha) hrun
  have hlength := hsetup.length_captured
  have hbounded := hsetup.flowing.bounded
  constructor
  · intro hdone
    have hnil : s.activeTasks.filterMap Task.capture? = [] := by
      rw [List.filterMap_eq_nil_iff]
      intro task htask
      have hisDone := hdone task htask
      cases task <;> first | rfl | cases hisDone
    rw [hnil, List.length_nil] at hlength
    omega
  · intro hle task htask
    obtain ⟨i, hi⟩ := List.mem_iff_getElem?.1 htask
    have hexecuting : s.activeTasks.countP Task.isExecuting = 0 := by
      rw [List.countP_eq_zero]
      intro task htask
      obtain ⟨i, hi⟩ := List.mem_iff_getElem?.1 htask
      cases task with
      | executing =>
        have hnone := hstuck (.execute i none) trivial
        rw [execute_eq_some.2 ⟨hi, rfl⟩] at hnone
        cases hnone
      | receiving | putting | done => exact Bool.false_ne_true
    have htokens := hsetup.tokens
    cases task with
    | receiving =>
      have hnone := hstuck (.recv i) trivial
      have hpos : 0 < concurrencyLimit := by decide
      rw [recv_eq_some.2 ⟨hi, by omega, rfl⟩] at hnone
      cases hnone
    | executing =>
      have hnone := hstuck (.execute i none) trivial
      rw [execute_eq_some.2 ⟨hi, rfl⟩] at hnone
      cases hnone
    | putting capture =>
      -- a task that waits finds the queue full, so that there are more captures than fit
      have hfull : s.oracleQueue.full = true := by
        by_contra hroom
        have hnone := hstuck (.put i) trivial
        rw [put_eq_some.2 ⟨capture, _, hi, WorkQueue.put_eq_some.2 ⟨Bool.eq_false_iff.2 hroom, rfl⟩, rfl⟩] at hnone
        cases hnone
      have hmaxsize := hsetup.flowing.maxsize
      have hroom := (WorkQueue.full_iff.1 hfull).2
      have hmem : capture ∈ s.activeTasks.filterMap Task.capture? := List.mem_filterMap.2 ⟨_, htask, rfl⟩
      have hpos := List.length_pos_of_mem hmem
      omega
    | done => rfl

/-- A queue that is full, and one of two seeds has a capture for it. -/
theorem stuck_of_full {s : FuzzingLoop Nat Nat} {a : LoopStep Nat Nat} (htasks : s.activeTasks = [.putting 7, .done])
    (hfull : s.oracleQueue.full = true) (ha : a.IsTask) : step ⟨false, false⟩ s a = none := by
  refine Option.eq_none_iff_forall_ne_some.2 fun s' hstep => ?_
  have hmem : ∀ {i : Nat} {task : Task Nat}, s.activeTasks[i]? = some task → task = .putting 7 ∨ task = .done := by
    intro i task hi
    rw [htasks] at hi
    exact List.mem_pair.1 (List.mem_of_getElem? hi)
  cases a with
  | recv i => simpa using hmem (recv_eq_some.1 hstep).1
  | execute i capture => simpa using hmem (execute_eq_some.1 hstep).1
  | put i =>
    obtain ⟨capture, q, -, hput, -⟩ := put_eq_some.1 hstep
    simp [WorkQueue.put, hfull] at hput
  | iterate | resume | get | taskDone | gather | join => cases ha

def threeSeeds : List (LoopStep Nat Nat) :=
  [.recv 0, .recv 1, .execute 1 (some 8), .recv 2, .execute 0 (some 7), .put 0, .execute 2 none, .put 1]

def twoSeeds : List (LoopStep Nat Nat) := [.recv 0, .recv 1, .execute 1 none, .execute 0 (some 7)]

theorem run_twoSeeds (queued : List Nat) : (Lib.run (step ⟨false, false⟩) (seeding queued 2) twoSeeds).map (fun s =>
    (s.activeTasks, s.captured, s.oracleQueue)) =
      some ([.putting 7, .done], queued ++ [7], (seeding queued 2 : FuzzingLoop Nat Nat).oracleQueue) := by
  show some (_, queued ++ [] ++ [7], _) = _
  rw [List.append_nil]
  rfl

/-- Three seeds, one of them without a capture, come to their end; two seeds with one capture for a queue that is full do
not. -/
theorem setup_completes_iff_three :
    (∃ s, Lib.run (step ⟨false, false⟩) (seeding [] 3) threeSeeds = some s ∧ s.captured = [8, 7] ∧
      ∀ task ∈ s.activeTasks, task.isDone) ∧
    ∃ s, Lib.run (step ⟨false, false⟩) (seeding (List.replicate oracleQueueSize 0) 2) twoSeeds = some s ∧
      ¬∀ task ∈ s.activeTasks, task.isDone := by
  constructor
  · have hend : (Lib.run (step ⟨false, false⟩) (seeding [] 3) threeSeeds).map (fun s => (s.activeTasks, s.captured)) =
        some ([.done, .done, .done], [8, 7]) := rfl
    obtain ⟨s, hrun, heq⟩ := Option.map_eq_some_iff.1 hend
    obtain ⟨htasks, hcaptured⟩ := Prod.mk.inj heq
    have hdone : ∀ task ∈ s.activeTasks, task.isDone := by simp [htasks, Task.isDone]
    exact ⟨s, hrun, hcaptured, (setup_completes_iff (Nat.zero_le _) (by simp [threeSeeds, LoopStep.IsTask]) hrun
      fun _ ha => step_of_done hdone ha).2 (by rw [hcaptured]; decide)⟩
  · obtain ⟨s, hrun, heq⟩ := Option.map_eq_some_iff.1 (run_twoSeeds (List.replicate oracleQueueSize 0))
    obtain ⟨htasks, hrest⟩ := Prod.mk.inj heq
    obtain ⟨hcaptured, hqueue⟩ := Prod.mk.inj hrest
    have hfull : s.oracleQueue.full = true := by
      rw [hqueue]
      refine WorkQueue.full_iff.2 ⟨by decide, ?_⟩
      simp [seeding, start]
    refine ⟨s, hrun, (setup_completes_iff (by rw [List.length_replicate]) (by simp [twoSeeds, LoopStep.IsTask]) hrun
      fun _ ha => stuck_of_full htasks hfull ha).not.2 ?_⟩
    simp [hcaptured]

end FuzzingLoop

end Lsf.Tester
