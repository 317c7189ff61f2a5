import Lsf.Engine.Engine
import Lsf.Engine.ProbabilisticMab
import Lsf.Ffi.Tokens
import Lsf.Tester.Worker

/-!
# Settling an execution

`run_single_mutation` of `tester/exec.py`, from the capture that the worker returns: one of four routes is taken, the
rule hooks of the child are fired and the token goes back, by calls of Python or inside `commit_test_result`. What is
done to hooks and token is logged (`Effect`). Each happens once on every route (`run_spec`); but the mark of a crash is
compared with another spelling of it, so that a crash that looks harmless otherwise is committed (`consistent_iff`).
-/

namespace Lsf.Tester

open Lsf.Core Lsf.Lib Lsf.Cov Lsf.Feedback Lsf.Engine Lsf.Ffi

/-! ## Classification -/

def isHang (capture : WorkerCapture) : Bool :=
  (capture.exitCode.isSome && capture.exitCode == some 42) || capture.isHangOrCrash.map Mark.text == some "HANG"

def isCrash (capture : WorkerCapture) : Bool :=
  (!isHang capture && capture.exitCode.isSome && capture.exitCode != some 0)
    || capture.isHangOrCrash.map Mark.text == some "crash"
    || isUnconditionalBug capture.toTestCapture

def isSyntaxErr (capture : WorkerCapture) : Bool :=
  !isCrash capture && !isHang capture && isExpectedError capture.toTestCapture

inductive Route where
  | crash
  | hang
  | runtimeError
  | commit
deriving DecidableEq, Repr

/-- The branch that is taken. -/
def route (capture : WorkerCapture) : Route :=
  if isCrash capture then .crash
  else if isHang capture then .hang
  else if isSyntaxErr capture then .runtimeError
  else .commit

/-! ## Calls -/

/-- What happens to the rule hooks of the child and to the token. -/
inductive Effect where
  | fired (outcome : TestOutcome) (arms : List ArmRef)
  | returned (token : IPCToken)
  | committed
deriving DecidableEq

/-- The objects at hand: the engine, the child and the `TestResult`, and the log. -/
structure Execution (C S M Stmt : Type) where
  engine : RawEngine C S M
  entry : Option (Entry Stmt)
  testResult : TestResult
  log : List Effect

/-- The metadata that a `TestResult` gives. -/
def metaOf (r : TestResult) : Meta := ⟨r.triggersBug, r.isValidSyntax, r.execTime, 0, r.querySize⟩

namespace Execution

variable {C S M Stmt : Type}

/-- `entry.fire_hooks(outcome, test_result)`. -/
def fireHooks (x : Execution C S M Stmt) (outcome : TestOutcome) : Option (Execution C S M Stmt) := do
  let child ← x.entry
  let (child', h) := x.engine.bandits.fireRuleHooks child outcome (metaOf x.testResult)
  some { x with
    engine := { x.engine with bandits := h }
    entry := some child'
    log := x.log ++ [.fired outcome child.appliedRuleStats] }

/-- `ipc_queue.send(test_result.token)`. -/
def send (x : Execution C S M Stmt) : Option (Execution C S M Stmt) := do
  let token ← x.testResult.token
  let q ← x.engine.shmemQueue.send token
  some { x with
    engine := { x.engine with shmemQueue := q }
    testResult := { x.testResult with token := none }
    log := x.log ++ [.returned token] }

/-- What became of the hooks and of the token: none are left here, and the token is in the channel again. -/
structure Settled (e : RawEngine C S M) (token : IPCToken) (x : Execution C S M Stmt) : Prop where
  hooks : ∀ child ∈ x.entry, child.appliedRuleStats = []
  tokenGone : x.testResult.token = none
  queue : x.engine.shmemQueue.queue = e.shmemQueue.queue ++ [e.shmemQueue.zero token]

/-- Firing the hooks and sending the token, one after the other. -/
theorem fireHooks_send {e : RawEngine C S M} {entry : Entry Stmt} {testResult : TestResult} {token : IPCToken}
    (htoken : testResult.token = some token) {outcome : TestOutcome} {x : Execution C S M Stmt}
    (h : (fireHooks ⟨e, some entry, testResult, []⟩ outcome).bind send = some x) :
    x.log = [.fired outcome entry.appliedRuleStats, .returned token] ∧ Settled e token x := by
  obtain ⟨y, hfire, h⟩ := Option.bind_eq_some_iff.1 h
  cases hfire
  obtain ⟨token', htoken', h⟩ := Option.bind_eq_some_iff.1 h
  obtain ⟨q, hsend, h⟩ := Option.bind_eq_some_iff.1 h
  obtain rfl : token' = token := Option.some.inj (htoken'.symm.trans htoken)
  obtain ⟨-, rfl⟩ := SharedMemHandle.push_eq_some.1 hsend
  cases h
  refine ⟨rfl, fun child hchild => ?_, rfl, rfl⟩
  cases hchild
  rfl

/-- The end of a commit leaves the channel alone. -/
theorem shmemQueue_conclude [CorpusHandler C Stmt] [Schedule S Stmt] {e e' : RawEngine C S M}
    {accepted outcome : TestOutcome} {entry : CorpusEntry Stmt}
    (h : RawEngine.conclude accepted entry e = some (outcome, e')) : e'.shmemQueue = e.shmemQueue := by
  have hadd : ∀ {e'}, RawEngine.commitGeneration e [entry] = some e' → e'.shmemQueue = e.shmemQueue := by
    intro e' h
    obtain ⟨e'', hadd, h⟩ := Option.bind_eq_some_iff.1 h
    cases h
    obtain ⟨⟨score, scheduler, bandits⟩, -, hadd⟩ := Option.bind_eq_some_iff.1 hadd
    cases hadd
    rfl
  unfold RawEngine.conclude at h
  split at h
  · cases h
    rfl
  · obtain ⟨e'', h, heq⟩ := Option.map_eq_some_iff.1 h
    cases heq
    exact hadd h

variable [CorpusHandler C Stmt] [Schedule S Stmt] [Hasher Stmt] [FloatFns ℚ]

/-- `Engine::commit_test_result`, with what it does to hooks and token. -/
def commitLogged (e : RawEngine C S M) (rawEntry : Entry Stmt) (metadata : Meta) (shmem : IPCToken) :
    Option (List Effect × TestOutcome × RawEngine C S M) := do
  let (newEdges, edgeMap, shmemQueue) ← e.shmemQueue.collect e.edgeMap shmem
  let log := [.committed, .returned shmem]
  let metadata := { metadata with newCovNodes := newEdges.new.length }
  let (accepted, minimizer) ← e.minimizer.onAdd rawEntry.entry metadata newEdges
  let log := log ++ [.fired accepted rawEntry.appliedRuleStats]
  let (rawEntry, h) := e.bandits.fireRuleHooks rawEntry accepted metadata
  let (accepted, e) ← RawEngine.conclude accepted (rawEntry.entry.intoCorpusEntry metadata)
    { e with edgeMap := edgeMap, shmemQueue := shmemQueue, minimizer := minimizer, bandits := h }
  some (log, accepted, e)

/-- `mutation_engine.commit_test_result(entry, test_result)`: the entry and the token are taken out. -/
def commitTestResult (x : Execution C S M Stmt) : Option (Execution C S M Stmt) := do
  let raw ← x.entry
  let token ← x.testResult.token
  let (log, _, e) ← commitLogged x.engine raw (metaOf x.testResult) token
  some { engine := e, entry := none, testResult := { x.testResult with token := none }, log := x.log ++ log }

/-- The branches of `run_single_mutation`. -/
def takeBranch (x : Execution C S M Stmt) (capture : WorkerCapture) : Option (Execution C S M Stmt) :=
  if isCrash capture then (x.fireHooks (.rejected .triggersCrash)).bind send
  else if isHang capture then (x.fireHooks (.rejected .timeOut)).bind send
  else if isSyntaxErr capture then (x.fireHooks (.rejected .syntaxError)).bind send
  else x.commitTestResult

/-- `run_single_mutation`, for a token that was received and the capture of its worker; `none` is an exception. The
captures that go to the oracle are returned with it. -/
def runSingleMutation (e : RawEngine C S M) (entry : Entry Stmt) (token : IPCToken) (capture : WorkerCapture) :
    Option (Execution C S M Stmt × List WorkerCapture) :=
  -- `exec_time` is a `u32`
  if capture.execTime < 2 ^ 32 then do
    let testResult : TestResult :=
      ⟨false, false, UInt32.ofNat capture.execTime, capture.query.length, some token⟩
    let x ← takeBranch ⟨e, some entry, testResult, []⟩ capture
    let item := if isCrash capture then { capture with isHangOrCrash := some .crash } else capture
    some (x, if isSyntaxErr capture then [] else [item])
  else none

end Execution

/-! ## What a route does -/

def Effect.isFired : Effect → Bool
  | .fired _ _ => true
  | _ => false

def Effect.isReturned : Effect → Bool
  | .returned _ => true
  | _ => false

/-- What is done to the hooks and to the token on a route. -/
def Route.Took (token : IPCToken) (arms : List ArmRef) : Route → List Effect → Prop
  | .crash, log => log = [.fired (.rejected .triggersCrash) arms, .returned token]
  | .hang, log => log = [.fired (.rejected .timeOut) arms, .returned token]
  | .runtimeError, log => log = [.fired (.rejected .syntaxError) arms, .returned token]
  | .commit, log => ∃ accepted, log = [.committed, .returned token, .fired accepted arms]

section Routes

variable {token : IPCToken} {arms : List ArmRef} {log : List Effect}

/-- A log is that of one route at most. -/
theorem Route.Took.unique {r r' : Route} (h : r.Took token arms log) (h' : r'.Took token arms log) : r = r' := by
  cases r <;> cases r' <;> simp_all [Route.Took]

theorem Route.Took.once {r : Route} (h : r.Took token arms log) :
    log.countP Effect.isFired = 1 ∧ log.countP Effect.isReturned = 1 ∧ Effect.returned token ∈ log := by
  cases r with
  | commit =>
    obtain ⟨accepted, rfl⟩ := h
    exact ⟨rfl, rfl, by simp⟩
  | crash | hang | runtimeError =>
    obtain rfl : log = _ := h
    exact ⟨rfl, rfl, by simp⟩

theorem Route.Took.committed_mem_iff {r : Route} (h : r.Took token arms log) :
    Effect.committed ∈ log ↔ r = .commit := by
  cases r with
  | commit =>
    obtain ⟨accepted, rfl⟩ := h
    simp
  | crash | hang | runtimeError =>
    obtain rfl : log = _ := h
    simp

end Routes

/-- **Classified and settled consistently**: one route, on which the hooks are fired once and the token is returned once,
and the route of the mark for a capture that has one. -/
structure Consistent {C S M Stmt : Type} (e : RawEngine C S M) (entry : Entry Stmt) (token : IPCToken)
    (capture : WorkerCapture) (x : Execution C S M Stmt) : Prop where
  oneRoute : ∃ r, Route.Took token entry.appliedRuleStats r x.log ∧
    ∀ r', Route.Took token entry.appliedRuleStats r' x.log → r' = r
  hooksOnce : x.log.countP Effect.isFired = 1
  hooksSpent : ∀ child ∈ x.entry, child.appliedRuleStats = []
  tokenOnce : x.log.countP Effect.isReturned = 1 ∧ Effect.returned token ∈ x.log
  tokenBack : x.testResult.token = none ∧
    x.engine.shmemQueue.queue = e.shmemQueue.queue ++ [e.shmemQueue.zero token]
  crash : capture.isHangOrCrash = some .crash → Route.Took token entry.appliedRuleStats .crash x.log
  hang : capture.isHangOrCrash = some .hang → Route.Took token entry.appliedRuleStats .hang x.log
  marked : capture.isHangOrCrash ≠ none → Effect.committed ∉ x.log

namespace Execution

variable {C S M Stmt : Type} [CorpusHandler C Stmt] [Schedule S Stmt] [Hasher Stmt] [FloatFns ℚ] {e e' : RawEngine C S M}

/-- The log changes nothing. -/
theorem commitLogged_snd (e : RawEngine C S M) (rawEntry : Entry Stmt) (metadata : Meta) (shmem : IPCToken) :
    (commitLogged e rawEntry metadata shmem).map Prod.snd = e.commitTestResult rawEntry metadata shmem := by
  unfold commitLogged RawEngine.commitTestResult
  cases e.shmemQueue.collect e.edgeMap shmem with
  | none => rfl
  | some collected =>
    obtain ⟨newEdges, edgeMap, shmemQueue⟩ := collected
    simp only [Option.bind_eq_bind, Option.bind_some]
    cases e.minimizer.onAdd rawEntry.entry { metadata with newCovNodes := newEdges.new.length } newEdges with
    | none => rfl
    | some added =>
      simp only [Option.bind_some, Option.map_bind]
      exact Option.bind_fun_some _

theorem commitLogged_spec {rawEntry : Entry Stmt} {metadata : Meta} {shmem : IPCToken} {log : List Effect}
    {accepted : TestOutcome} (h : commitLogged e rawEntry metadata shmem = some (log, accepted, e')) :
    (∃ outcome, log = [.committed, .returned shmem, .fired outcome rawEntry.appliedRuleStats]) ∧
      e'.shmemQueue.queue = e.shmemQueue.queue ++ [e.shmemQueue.zero shmem] := by
  obtain ⟨⟨newEdges, edgeMap, q⟩, hcollect, h⟩ := Option.bind_eq_some_iff.1 h
  obtain ⟨⟨outcome, minimizer⟩, -, h⟩ := Option.bind_eq_some_iff.1 h
  obtain ⟨⟨outcome', e''⟩, hconclude, h⟩ := Option.bind_eq_some_iff.1 h
  cases h
  obtain ⟨found, -, hcollect⟩ := Option.bind_eq_some_iff.1 hcollect
  obtain ⟨q', hsend, hcollect⟩ := Option.bind_eq_some_iff.1 hcollect
  obtain ⟨-, rfl⟩ := SharedMemHandle.push_eq_some.1 hsend
  cases hcollect
  exact ⟨⟨outcome, rfl⟩, congrArg SharedMemHandle.queue (shmemQueue_conclude hconclude)⟩

theorem commitTestResult_spec {entry : Entry Stmt} {testResult : TestResult} {token : IPCToken}
    (htoken : testResult.token = some token) {x : Execution C S M Stmt}
    (h : commitTestResult ⟨e, some entry, testResult, []⟩ = some x) :
    (∃ accepted, x.log = [.committed, .returned token, .fired accepted entry.appliedRuleStats]) ∧
      Settled e token x := by
  obtain ⟨token', htoken', h⟩ := Option.bind_eq_some_iff.1 h
  obtain rfl : token' = token := Option.some.inj (htoken'.symm.trans htoken)
  obtain ⟨⟨log, outcome, e'⟩, hcommit, h⟩ := Option.bind_eq_some_iff.1 h
  obtain ⟨hlog, hqueue⟩ := commitLogged_spec hcommit
  cases h
  exact ⟨hlog, ⟨fun child hchild => (Option.not_mem_none _ hchild).elim, rfl, hqueue⟩⟩

theorem takeBranch_eq (x : Execution C S M Stmt) (capture : WorkerCapture) :
    x.takeBranch capture = match route capture with
      | .crash => (x.fireHooks (.rejected .triggersCrash)).bind send
      | .hang => (x.fireHooks (.rejected .timeOut)).bind send
      | .runtimeError => (x.fireHooks (.rejected .syntaxError)).bind send
      | .commit => x.commitTestResult := by
  unfold takeBranch route
  cases isCrash capture with
  | true => rfl
  | false =>
    cases isHang capture with
    | true => rfl
    | false => cases isSyntaxErr capture <;> rfl

/-- **What is done on each route** is done to the hooks and to the token once. -/
theorem run_spec {entry : Entry Stmt} {token : IPCToken} {capture : WorkerCapture} {x : Execution C S M Stmt}
    {items : List WorkerCapture} (h : runSingleMutation e entry token capture = some (x, items)) :
    Route.Took token entry.appliedRuleStats (route capture) x.log ∧ Settled e token x := by
  unfold runSingleMutation at h
  split at h
  · obtain ⟨y, hbranch, h⟩ := Option.bind_eq_some_iff.1 h
    cases h
    rw [takeBranch_eq] at hbranch
    cases hroute : route capture with
    | commit =>
      rw [hroute] at hbranch
      exact commitTestResult_spec rfl hbranch
    | crash | hang | runtimeError =>
      rw [hroute] at hbranch
      exact fireHooks_send rfl hbranch
  · cases h

end Execution

/-! ## The routes of marked captures -/

section Marked

variable {capture : WorkerCapture}

theorem route_eq_crash_iff : route capture = .crash ↔ isCrash capture = true := by
  unfold route
  split
  · rename_i h
    exact iff_of_true rfl h
  · rename_i h
    refine iff_of_false (fun hroute => ?_) h
    split at hroute
    · cases hroute
    · split at hroute <;> cases hroute

/-- A marked crash is taken for one by its exit code or by its output, not by its mark. -/
theorem route_of_crash (h : capture.isHangOrCrash = some .crash) :
    route capture = .crash ↔
      isUnconditionalBug capture.toTestCapture ∨ capture.exitCode ∉ [none, some 0, some 42] := by
  have hspelling : (some "CRASH" == some "crash") = false := by decide
  have hother : (some "CRASH" == some "HANG") = false := by decide
  rw [route_eq_crash_iff]
  unfold isCrash isHang
  rw [h, Option.map_some, Mark.text, hspelling, hother, Bool.or_false, Bool.or_false, Bool.or_eq_true, or_comm]
  refine or_congr_right ?_
  cases capture.exitCode with
  | none => simp
  | some code => simp [and_comm]

/-- A marked hang is taken for one unless its output shows an unconditional bug. -/
theorem route_of_hang (h : capture.isHangOrCrash = some .hang) :
    route capture = .hang ↔ ¬isUnconditionalBug capture.toTestCapture := by
  have hhang : isHang capture = true := by simp [isHang, h, Mark.text]
  have hcrash : isCrash capture = isUnconditionalBug capture.toTestCapture := by simp [isCrash, hhang, h, Mark.text]
  unfold route
  rw [hcrash, if_pos hhang]
  split
  · rename_i hbug
    exact iff_of_false nofun fun hnot => hnot hbug
  · rename_i hbug
    exact iff_of_true rfl hbug

/-- **The hangs of a worker** take their route. -/
theorem route_execute_of_hang {limit timeout execTime : Nat} {p : Process} {query : String}
    (h : (execute limit p query timeout execTime).isHangOrCrash = some .hang) :
    route (execute limit p query timeout execTime) = .hang := by
  have hbug : isUnconditionalBug (hangCapture query execTime).toTestCapture = false := by
    show stderrMatchesAny (ascii "EXECUTION TIMEOUT EXCEEDED") unconditionalBugPatterns = false
    decide +kernel
  rw [route_of_hang h, execute_of_hang h, hbug]
  exact Bool.false_ne_true

end Marked

namespace Execution

variable {C S M Stmt : Type} [CorpusHandler C Stmt] [Schedule S Stmt] [Hasher Stmt] [FloatFns ℚ] {e : RawEngine C S M}

/-- **Marked captures take their routes** exactly if a crash shows in the exit code or in the output as well, and a hang
has no unconditional bug in its output. -/
theorem consistent_iff {entry : Entry Stmt} {token : IPCToken} {capture : WorkerCapture} {x : Execution C S M Stmt}
    {items : List WorkerCapture} (h : runSingleMutation e entry token capture = some (x, items)) :
    Consistent e entry token capture x ↔
      (capture.isHangOrCrash = some .crash →
        isUnconditionalBug capture.toTestCapture ∨ capture.exitCode ∉ [none, some 0, some 42]) ∧
      (capture.isHangOrCrash = some .hang → ¬isUnconditionalBug capture.toTestCapture) := by
  obtain ⟨htook, hsettled⟩ := run_spec h
  constructor
  · intro hcons
    exact ⟨fun hmark => (route_of_crash hmark).1 (htook.unique (hcons.crash hmark)),
      fun hmark => (route_of_hang hmark).1 (htook.unique (hcons.hang hmark))⟩
  · rintro ⟨hcrash, hhang⟩
    obtain ⟨hooks, token, hmem⟩ := htook.once
    refine ⟨⟨_, htook, fun r' h' => h'.unique htook⟩, hooks, hsettled.hooks, ⟨token, hmem⟩,
      ⟨hsettled.tokenGone, hsettled.queue⟩, fun hmark => ?_, fun hmark => ?_, ?_⟩
    · rw [← (route_of_crash hmark).2 (hcrash hmark)]
      exact htook
    · rw [← (route_of_hang hmark).2 (hhang hmark)]
      exact htook
    · intro hmark hcommitted
      have hroute := htook.committed_mem_iff.1 hcommitted
      cases hm : capture.isHangOrCrash with
      | none => exact hmark hm
      | some mark =>
        cases mark with
        | crash => exact absurd (hroute.symm.trans ((route_of_crash hm).2 (hcrash hm))) nofun
        | hang => exact absurd (hroute.symm.trans ((route_of_hang hm).2 (hhang hm))) nofun

end Execution

/-! ## A crash that is committed -/

namespace Execution

attribute [local instance] FloatFns.tangent Hasher.mul

/-- An engine with one worker, whose token is out. -/
def oneWorker : RawEngine (InMemory (CorpusEntry Nat)) FastProbabilisticMABScheduler NOOP :=
  .new (.new 0) .new (.new 1) [] ⟨[], 1, 1⟩ [0] .new

def child : Entry Nat := ⟨⟨⟨0⟩, [], [7]⟩, [0], []⟩

/-- The token after an execution that hit the edge. -/
def hitToken : IPCToken := ⟨"/fuzzer_shm_0", [1], 0⟩

/-- What the worker returns of a process that exits with `exitCode` before it has printed anything. -/
def died (exitCode : Int) : WorkerCapture :=
  execute defaultLimit ⟨[], [], some (1, exitCode), none⟩ "SELECT 1" 1000000000 1000

example : died 0 = ⟨⟨[], [], some 0, "SELECT 1"⟩, 1000, some .crash⟩ := by decide +kernel

/-- A process that was killed by a signal. -/
theorem consistent_iff_killed :
    ∃ x items, runSingleMutation oneWorker child hitToken (died (-11)) = some (x, items) ∧
      (Consistent oneWorker child hitToken (died (-11)) x ↔
        ((died (-11)).isHangOrCrash = some .crash →
          isUnconditionalBug (died (-11)).toTestCapture ∨ (died (-11)).exitCode ∉ [none, some 0, some 42]) ∧
        ((died (-11)).isHangOrCrash = some .hang → ¬isUnconditionalBug (died (-11)).toTestCapture)) := by
  have hsome : (runSingleMutation oneWorker child hitToken (died (-11))).isSome := by decide +kernel
  obtain ⟨⟨x, items⟩, hrun⟩ := Option.isSome_iff_exists.1 hsome
  exact ⟨x, items, hrun, consistent_iff hrun⟩

/-- **A marked crash is committed** if the process exits with zero. -/
theorem crash_committed :
    (died 0).isHangOrCrash = some .crash ∧
      ∃ x items, runSingleMutation oneWorker child hitToken (died 0) = some (x, items) ∧ Effect.committed ∈ x.log ∧
        ¬Consistent oneWorker child hitToken (died 0) x := by
  have hlog : (runSingleMutation oneWorker child hitToken (died 0)).map (fun r => decide (Effect.committed ∈ r.1.log)) =
      some true := by decide +kernel
  obtain ⟨⟨x, items⟩, hrun, hmem⟩ := Option.map_eq_some_iff.1 hlog
  have hmark : (died 0).isHangOrCrash = some .crash := by decide +kernel
  have hcommitted : Effect.committed ∈ x.log := of_decide_eq_true hmem
  refine ⟨hmark, x, items, hrun, hcommitted, fun hcons => hcons.marked ?_ hcommitted⟩
  rw [hmark]
  exact nofun

end Execution

end Lsf.Tester
