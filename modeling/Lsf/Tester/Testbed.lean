import Lsf.Engine.Coverage
import Lsf.Engine.TaskSession
import Lsf.Lib.Lockstep
import Lsf.Tester.Workers

/-!
# From the processes to the corpus

The tasks of the tester with their workers and processes, and the engine that judges the results: processes mark edges
in memories that they know by name, and `commit_test_result` reads the memory of the token that the task has. Whatever
the interleaving, the engine is that of a session whose committed maps are the edges that the processes marked during
the calls (`step_shows`). So what is known of sessions holds for the tester: each edge that was marked for a
committed result is kept by an entry of the corpus whose own processes marked it (`coverage_kept`).
-/

namespace Lsf.Tester

open Lsf.Core Lsf.Lib Lsf.Cov Lsf.Feedback Lsf.Engine

/-- A committed result: the id of its entry, and the edges that processes of the worker marked during the call. -/
structure Result where
  id : ID
  marked : Finset Nat
deriving DecidableEq

/-- The tasks with their workers, the engine, and the results since the last `clear`. The channel and the edge map of
the engine are those of `workers`. -/
structure Testbed (T C S M : Type) where
  workers : Workers T
  engine : RawEngine C S M
  results : List Result

inductive TestbedStep (T M Stmt : Type) where
  /-- a task, a worker or a process goes on -/
  | worker (a : WorkersStep T)
  /-- a task commits its result -/
  | commit (t : T) (rawEntry : Entry Stmt) (metadata : Meta)
  /-- a call of the engine that has nothing to do with tokens, or hooks of a result that is not committed -/
  | call (request : Request M Stmt)

/-- The steps of a commit, which the engine takes. -/
def WorkersStep.judges {T : Type} : WorkersStep T → Bool
  | .commit _ => true
  | .zero _ => true
  | _ => false

namespace Testbed

variable {T C S M Stmt : Type} [DecidableEq T]

def new (T : Type) (nWorkers maxEdges : Nat) (scheduler : S) (corpusHandler : C) (strategies : List M)
    (mabBodies : List BodyRef) (bandits : Bandits) : Testbed T C S M where
  workers := .new T nWorkers maxEdges
  engine := .new scheduler corpusHandler (.new maxEdges) strategies (.new nWorkers maxEdges) mabBodies bandits
  results := []

/-- The engine with its channel and its edge map. -/
def loaded (b : Testbed T C S M) : RawEngine C S M := b.workers.abs.load b.engine

section Step

variable [CorpusHandler C Stmt] [Schedule S Stmt] [MutationStrategy M Stmt] [Hasher Stmt] [FloatFns ℚ]

def step (b : Testbed T C S M) : TestbedStep T M Stmt → Option (Testbed T C S M)
  | .worker a => if a.judges then none else (b.workers.step a).map fun w => { b with workers := w }
  | .commit t rawEntry metadata => do
    let x ← b.workers.tasks t
    match x.stage with
    | .executed => do
      let (_, e) ← b.loaded.commitTestResult rawEntry metadata (Workers.view b.workers.memory x.token)
      -- no other task goes on before the memory is cleared and the token back in the channel
      let w ← run Workers.step b.workers [.commit t, .zero t, .push t]
      some ⟨w, e, b.results ++ [⟨rawEntry.entry.id, x.marked⟩]⟩
    | _ => none
  | .call request =>
    if request.tokenFree then
      ((⟨b.loaded, [], []⟩ : Session C S M).serve request).map fun s =>
        ⟨b.workers, s.engine, if request.clears then [] else b.results⟩
    else none

end Step

/-! ## The session -/

/-- The result of a commit whose map is known. -/
def ofCommitted (r : Committed) : Result := ⟨r.id, hits r.map⟩

variable [CorpusHandler C Stmt] [Schedule S Stmt] [LawfulSchedule S Stmt] [Hasher Stmt] [FloatFns ℚ]

/-- The session with the tokens and the engine of the testbed, in which each committed map is what was marked. -/
structure Shows (Stmt : Type) [CorpusHandler C Stmt] [Schedule S Stmt] [LawfulSchedule S Stmt] (n size : Nat)
    (b : Testbed T C S M) (s : Session C S M) : Prop where
  sound : Workers.Sound n size b.workers
  played : Played Stmt n size b.workers.abs b.engine s
  results : s.commits.map ofCommitted = b.results

variable [MutationStrategy M Stmt] [LawfulLog]

omit [DecidableEq T] [Hasher Stmt] [FloatFns ℚ] [MutationStrategy M Stmt] [LawfulLog] in
theorem shows_new (nWorkers maxEdges : Nat) {scheduler : S} (corpusHandler : C) (strategies : List M)
    (mabBodies : List BodyRef) (bandits : Bandits) (hv : LawfulSchedule.Valid Stmt scheduler) :
    Shows Stmt (nWorkers * tokensPerWorker) maxEdges
      (new T nWorkers maxEdges scheduler corpusHandler strategies mabBodies bandits)
      (Session.new nWorkers maxEdges scheduler corpusHandler strategies mabBodies bandits) := by
  have hsound := Workers.sound_new (T := T) nWorkers maxEdges
  refine ⟨hsound, ⟨hsound.exclusive, Session.sound_new _ _ _ _ _ _ hv, ?_, fun token => ?_, List.nodup_nil⟩, rfl⟩
  · show _ = TaskSystem.load (Workers.new T nWorkers maxEdges).abs _
    rw [Workers.abs_new]
    rfl
  · refine iff_of_false List.not_mem_nil ?_
    rintro ⟨t, x, hx, -⟩
    cases hx

omit [DecidableEq T] [FloatFns ℚ] [LawfulLog] in
theorem judges_shadow {s : Workers T} {a : WorkersStep T} (ha : a.judges = false) :
    ∀ b ∈ s.shadow a, b.judges = false := by
  intro b hb
  cases a with
  | commit t => cases ha
  | zero t => cases ha
  | start id => cases hb
  | exit id => cases hb
  | finish t => cases hb
  | hit id e =>
    obtain ⟨t, -, rfl⟩ := List.mem_map.1 hb
    rfl
  | recv t | giveBack t | push t =>
    rw [List.mem_singleton.1 hb]
    rfl

variable {n size : Nat} {b b' : Testbed T C S M} {s : Session C S M}

omit [FloatFns ℚ] [LawfulLog] in
/-- The three steps of a commit are those of the task. -/
theorem run_commit {w w' : Workers T} {t : T} (h : Workers.Sound n size w)
    (hrun : run Workers.step w [.commit t, .zero t, .push t] = some w') :
    Workers.Sound n size w' ∧ run TaskSystem.step w.abs [.commit t, .zero t, .push t] = some w'.abs := by
  obtain ⟨w₁, hcommit, hrun⟩ := run_cons_eq_some.1 hrun
  obtain ⟨w₂, hzero, hrun⟩ := run_cons_eq_some.1 hrun
  obtain ⟨w₃, hpush, hrun⟩ := run_cons_eq_some.1 hrun
  cases hrun
  obtain ⟨h₁, hrun₁⟩ := h.step hcommit
  obtain ⟨h₂, hrun₂⟩ := h₁.step hzero
  obtain ⟨h₃, hrun₃⟩ := h₂.step hpush
  refine ⟨h₃, ?_⟩
  calc run TaskSystem.step w.abs ([.commit t] ++ ([.zero t] ++ [.push t]))
      = run TaskSystem.step w₁.abs ([.zero t] ++ [.push t]) := by
        rw [run_append]
        exact congrArg (Option.bind · _) hrun₁
    _ = run TaskSystem.step w₂.abs [.push t] := by
        rw [run_append]
        exact congrArg (Option.bind · _) hrun₂
    _ = some w'.abs := hrun₃

omit [DecidableEq T] [FloatFns ℚ] [LawfulLog] in
/-- The map of a task that was executed shows what was marked during its call. -/
theorem hits_view {w : Workers T} (h : Workers.Sound n size w) {t : T} {x : Testing} (hx : w.tasks t = some x)
    (hstage : x.stage = .executed) : hits (Workers.view w.memory x.token).asEdgeMap = x.marked := by
  have hgood := h.exclusive.holding t _ (Workers.held_abs hx)
  have hphase : (Workers.viewTask w.memory x).phase = .testing := by rw [Workers.viewTask, hstage]; rfl
  ext edge
  rw [mem_hits]
  exact hgood.testing hphase edge

/-- **A step of the testbed is a run of the session.** -/
theorem step_shows {a : TestbedStep T M Stmt} (h : Shows Stmt n size b s) (hstep : b.step a = some b') :
    ∃ (requests : List (Request M Stmt)) (s' : Session C S M), run Session.serve s requests = some s' ∧
      Shows Stmt n size b' s' := by
  cases a with
  | worker a =>
    simp only [Testbed.step] at hstep
    split at hstep
    · cases hstep
    · rename_i hjudges
      obtain ⟨w, hw, rfl⟩ := Option.map_eq_some_iff.1 hstep
      obtain ⟨hsound, hrun⟩ := h.sound.step hw
      obtain ⟨ops, s', hops, hcommits, hplayed⟩ := h.played.run (judges_shadow (Bool.eq_false_iff.2 hjudges)) hrun
      exact ⟨ops.map .operation, s', (Session.run_serve_operation ops).trans hops, hsound, hplayed,
        hcommits ▸ h.results⟩
  | commit t rawEntry metadata =>
    obtain ⟨x, hx, hstep⟩ := Option.bind_eq_some_iff.1 hstep
    split at hstep
    · rename_i hstage
      obtain ⟨⟨outcome, e⟩, hcommit, hstep⟩ := Option.bind_eq_some_iff.1 hstep
      obtain ⟨w, hw, hstep⟩ := Option.bind_eq_some_iff.1 hstep
      cases hstep
      obtain ⟨hsound, hrun⟩ := run_commit h.sound hw
      have hphase : (Workers.viewTask b.workers.memory x).phase = .testing := by rw [Workers.viewTask, hstage]; rfl
      obtain ⟨σ, s', hrun', ⟨op, hop⟩, hcommits, hplayed⟩ :=
        h.played.commit (Workers.held_abs hx) hphase hcommit
      obtain rfl : σ = w.abs := Option.some.inj (hrun'.symm.trans hrun)
      refine ⟨[.operation op], s', run_cons_eq_some.2 ⟨s', hop, rfl⟩, hsound, hplayed, ?_⟩
      rw [hcommits, List.map_append, h.results, ← hits_view h.sound hx hstage]
      rfl
    · cases hstep
  | call request =>
    simp only [Testbed.step] at hstep
    split at hstep
    · rename_i hrequest
      obtain ⟨s₁, hs₁, rfl⟩ := Option.map_eq_some_iff.1 hstep
      obtain ⟨s', hs', hcommits, hplayed⟩ := h.played.call hrequest hs₁
      refine ⟨[request], s', run_cons_eq_some.2 ⟨s', hs', rfl⟩, h.sound, hplayed, ?_⟩
      rw [hcommits]
      dsimp only
      split
      · rfl
      · exact h.results
    · cases hstep

/-! ## Runs -/

/-- **Coverage is kept all the way.** Whatever the order in which tasks, processes and the engine go on, the engine is
that of a session, in which hooks are fired too, whose committed maps are what the processes marked; and each edge that
the processes of a task marked during the call whose result was committed, since the last `clear`, is owned by an entry
that the corpus has, which can be got, and which was committed with processes marking the edge during its own call. -/
theorem coverage_kept [RetainingCorpus C] (nWorkers maxEdges : Nat) {scheduler : S} {corpusHandler : C}
    (strategies : List M) (mabBodies : List BodyRef) (bandits : Bandits) (hv : LawfulSchedule.Valid Stmt scheduler)
    (hc : RetainingCorpus.Intact Stmt corpusHandler) {as : List (TestbedStep T M Stmt)}
    (hrun : run step (new T nWorkers maxEdges scheduler corpusHandler strategies mabBodies bandits) as = some b) :
    (∃ (requests : List (Request M Stmt)) (s : Session C S M),
        run Session.serve (.new nWorkers maxEdges scheduler corpusHandler strategies mabBodies bandits) requests =
          some s ∧ s.engine = b.loaded ∧ s.commits.map ofCommitted = b.results) ∧
      ∀ r ∈ b.results, ∀ edge ∈ r.marked, ∃ o, b.engine.minimizer.bestEdges.owner edge = some o ∧
        o.id ∈ CorpusHandler.ids b.engine.corpus ∧ (CorpusHandler.get b.engine.corpus o.id).1.isSome ∧
          ∃ r' ∈ b.results, r'.id = o.id ∧ edge ∈ r'.marked := by
  obtain ⟨requests, s, hrequests, hshows⟩ := exists_run_of_simulation (fun _ _ _ _ => step_shows)
    (shows_new (T := T) nWorkers maxEdges corpusHandler strategies mabBodies bandits hv) hrun
  refine ⟨⟨requests, s, hrequests, hshows.played.engine, hshows.results⟩, fun r hr edge hedge => ?_⟩
  have hcovered : Session.Covered s := (Session.Sound.run_serve
    (Session.sound_new nWorkers maxEdges corpusHandler strategies mabBodies bandits hv)
    (Session.covered_new nWorkers maxEdges scheduler strategies mabBodies bandits hc) hrequests).2
  have hengine : s.engine = b.loaded := hshows.played.engine
  have hbest : s.engine.minimizer = b.engine.minimizer := by rw [hengine]; rfl
  have hcorpus : s.engine.corpus = b.engine.corpus := by rw [hengine]; rfl
  have hresults := hshows.results
  rw [← hresults] at hr
  obtain ⟨c, hcommitted, rfl⟩ := List.mem_map.1 hr
  obtain ⟨o, ho, hkept, hget, c', hc', hid, hedge'⟩ := hcovered.exists_owner hcommitted hedge
  rw [← hbest, ← hcorpus, ← hresults]
  exact ⟨o, ho, hkept, hget, ofCommitted c', List.mem_map_of_mem hc', hid, hedge'⟩

end Testbed

namespace Testbed

attribute [local instance] FloatFns.tangent LawfulLog.tangent Hasher.mul

/-- A process marks an edge, its task commits, and the engine does its chores. -/
def oneHit : List (TestbedStep Bool NOOP Nat) :=
  [.worker (.recv true), .worker (.start 0), .worker (.hit 0 1), .worker (.finish true),
    .commit true (.new ⟨⟨0⟩, [], [7]⟩) ⟨false, true, 1000, 0, 1⟩, .call (.operation (.chore (.sorted ID)))]

theorem coverage_kept_oneHit :
    ∃ b : Testbed Bool (InMemory (CorpusEntry Nat)) FastProbabilisticMABScheduler NOOP,
      run step (new Bool 1 2 (.new 0) .new [] [0] .new) oneHit = some b ∧
      ∃ o, b.engine.minimizer.bestEdges.owner 1 = some o ∧ o.id ∈ CorpusHandler.ids b.engine.corpus ∧
        (CorpusHandler.get b.engine.corpus o.id).1.isSome ∧ ∃ r' ∈ b.results, r'.id = o.id ∧ 1 ∈ r'.marked := by
  have hresults : (run step (new Bool 1 2 (.new 0) .new [] [0] .new : Testbed Bool (InMemory (CorpusEntry Nat))
      FastProbabilisticMABScheduler NOOP) oneHit).map Testbed.results = some [⟨⟨0⟩, {1}⟩] := by
    decide +kernel
  obtain ⟨b, hrun, hresults⟩ := Option.map_eq_some_iff.1 hresults
  have hr : (⟨⟨0⟩, {1}⟩ : Result) ∈ b.results := by simp [hresults]
  exact ⟨b, hrun, (coverage_kept 1 2 [] [0] .new trivial trivial hrun).2 _ hr 1 (Finset.mem_singleton_self 1)⟩

end Testbed

end Lsf.Tester
