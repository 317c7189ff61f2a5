import Lsf.Engine.ProbabilisticMab
import Lsf.Engine.Session

/-!
# Commits are all or nothing

In every session that can be reached, the commit of a result that took some time returns; a result with edges that were
never seen is accepted for their number and stored, and a rejected one changes nothing but its token and the arms
attached to it (`commitTestResult_allOrNothing`). What carries this across `clear`, which forgets the owners of edges but
not the edges seen, is that an edge with an owner has been seen. A result that hit something in no time at all makes the
minimizer panic (`onAdd_isSome_iff`).
-/

namespace Lsf.Engine

open Lsf.Core Lsf.Lib Lsf.Cov Lsf.Feedback

namespace RawEngine

section AllOrNothing

variable {C S M Stmt : Type} [CorpusHandler C Stmt] [Schedule S Stmt] [LawfulSchedule S Stmt] [Hasher Stmt]
  [FloatFns ℚ]

/-- The result improves the stored score of one of its edges. -/
def ImprovesSome (e : RawEngine C S M) (rawEntry : Entry Stmt) (metadata : Meta) (shmem : IPCToken) : Prop :=
  ∃ score,
    ScoredEdges.scoreOf rawEntry.entry.ast.length (hits shmem.asEdgeMap).card metadata.execTime = some score ∧
    ∃ edge ∈ hits shmem.asEdgeMap, improves score (e.minimizer.bestEdges.owner edge)

/-- What the commit of a result owes to its caller. -/
structure AllOrNothing (e : RawEngine C S M) (rawEntry : Entry Stmt) (metadata : Meta) (shmem : IPCToken)
    (outcome : TestOutcome) (e' : RawEngine C S M) : Prop where
  newCoverage : (e.edgeMap.unseen shmem.asEdgeMap).Nonempty →
    outcome = .accepted (.covIncrease (e.edgeMap.unseen shmem.asEdgeMap).card) ∧
    rawEntry.entry.id ∈ CorpusHandler.ids e'.corpus ∧
    LawfulSchedule.entries Stmt e'.scheduler (CorpusHandler.ids e'.corpus) rawEntry.entry.id
  rejected_iff : (∃ r, outcome = .rejected r) ↔
    e.minimizer.diversity.tooSimilar rawEntry.entry.ast ∧ ¬e.ImprovesSome rawEntry metadata shmem
  unchanged : (∃ r, outcome = .rejected r) → e' = { e with
    shmemQueue := { e.shmemQueue with queue := e.shmemQueue.queue ++ [e.shmemQueue.zero shmem] }
    bandits := e'.bandits }
  arms : (∃ r, outcome = .rejected r) → e'.bandits.body = e.bandits.body ∧
    ∀ a ∉ rawEntry.appliedRuleStats, e'.bandits.arm a = e.bandits.arm a

variable [LawfulLog] {e e' : RawEngine C S M} {rawEntry : Entry Stmt} {metadata : Meta} {shmem : IPCToken}
  {found : EdgesFound} {outcome : TestOutcome}

omit [LawfulLog] in
theorem Commits.improves_iff (h : Commits e rawEntry metadata shmem found outcome e') :
    e.minimizer.Improves rawEntry.entry (withNewCov metadata found) found ↔ e.ImprovesSome rawEntry metadata shmem := by
  unfold GreedyCoverage.Improves ImprovesSome
  simp only [h.updated.length_all, h.updated.mem_all_iff]
  rfl

/-- An edge that was never seen has no owner, so that the result improves on it. -/
theorem Commits.improves_of_unseen (h : Commits e rawEntry metadata shmem found outcome e')
    (hseen : ∀ edge o, e.minimizer.bestEdges.owner edge = some o → e.edgeMap.rawMap.getD edge 0 ≠ 0)
    (htime : metadata.execTime ≠ 0) (hne : (e.edgeMap.unseen shmem.asEdgeMap).Nonempty) :
    e.minimizer.Improves rawEntry.entry (withNewCov metadata found) found := by
  obtain ⟨edge, hedge⟩ := hne
  obtain ⟨hhit, hunseen⟩ := mem_unseen.1 hedge
  have hmem := h.updated.mem_all_iff.2 hhit
  obtain ⟨score, hscore⟩ : ∃ score, ScoredEdges.scoreOf rawEntry.entry.ast.length found.all.length
      (withNewCov metadata found).execTime = some score :=
    ScoredEdges.exists_scoreOf htime (List.length_pos_of_mem hmem)
  refine ⟨score, hscore, edge, hmem, ?_⟩
  have hnone : e.minimizer.bestEdges.owner edge = none := by
    cases ho : e.minimizer.bestEdges.owner edge with
    | none => rfl
    | some o => exact absurd hunseen (hseen edge o ho)
  rw [hnone]
  rfl

/-- A rejected result had no new edges, so that the map is what it was. -/
theorem Commits.edgeMap_of_rejected (h : Commits e rawEntry metadata shmem found outcome e')
    (hseen : ∀ edge o, e.minimizer.bestEdges.owner edge = some o → e.edgeMap.rawMap.getD edge 0 ≠ 0)
    (hlen : e.edgeMap.rawMap.length = shmem.asEdgeMap.length) (htime : metadata.execTime ≠ 0)
    (hrej : ∃ r, outcome = .rejected r) : e'.edgeMap = e.edgeMap := by
  apply h.updated.eq_of_new_eq_nil hlen
  by_contra hne
  have hunseen : (e.edgeMap.unseen shmem.asEdgeMap).Nonempty := by
    rw [← Finset.card_pos, ← h.updated.length_new]
    exact List.length_pos_iff.2 hne
  exact (h.judged.rejected_iff.1 hrej).2 (h.improves_of_unseen hseen htime hunseen)

variable [LawfulCorpus C]

theorem Commits.allOrNothing (h : Commits e rawEntry metadata shmem found outcome e')
    (hseen : ∀ edge o, e.minimizer.bestEdges.owner edge = some o → e.edgeMap.rawMap.getD edge 0 ≠ 0)
    (hlen : e.edgeMap.rawMap.length = shmem.asEdgeMap.length) (htime : metadata.execTime ≠ 0) :
    AllOrNothing e rawEntry metadata shmem outcome e' := by
  constructor
  · intro hne
    have hcard : (withNewCov metadata found).newCovNodes = (e.edgeMap.unseen shmem.asEdgeMap).card :=
      h.updated.length_new
    have hpos : 0 < (withNewCov metadata found).newCovNodes := hcard ▸ Finset.card_pos.2 hne
    have houtcome := h.judged.covIncrease (h.improves_of_unseen hseen htime hne) hpos
    obtain ⟨⟨s, hinsert⟩, hentries⟩ := h.accepted ⟨_, houtcome⟩
    have hmem : rawEntry.entry.id ∈ CorpusHandler.ids e'.corpus := by
      rw [hinsert, LawfulCorpus.ids_insert]
      exact Finset.mem_insert_self _ _
    exact ⟨hcard ▸ houtcome, hmem, hentries _ hmem⟩
  · rw [h.judged.rejected_iff, h.improves_iff]
  · intro hrej
    have hmap := h.edgeMap_of_rejected hseen hlen htime hrej
    have hminimizer := h.judged.unchanged hrej
    have heq := h.rejected hrej
    rw [hmap, hminimizer, h.shmemQueue] at heq
    rw [heq]
  · intro hrej
    have heq := h.rejected hrej
    rw [heq]
    exact e.bandits.fireRuleHooks_spec rawEntry outcome (withNewCov metadata found)

end AllOrNothing

end RawEngine

namespace Session

variable {C S M Stmt : Type} [CorpusHandler C Stmt] [LawfulCorpus C] [Schedule S Stmt] [LawfulSchedule S Stmt]
  [MutationStrategy M Stmt] [Hasher Stmt] [FloatFns ℚ] [LawfulLog]

/-- **Commits are all or nothing**, in every reachable session and for every token that is out. -/
theorem commitTestResult_allOrNothing (nWorkers maxEdges : Nat) {scheduler : S} (corpusHandler : C)
    (strategies : List M) (mabBodies : List BodyRef) (bandits : Bandits) (hv : LawfulSchedule.Valid Stmt scheduler)
    {ops : List (Op M Stmt)} {s : Session C S M}
    (hrun : run step (new nWorkers maxEdges scheduler corpusHandler strategies mabBodies bandits) ops = some s)
    {shmem : IPCToken} (hmem : shmem ∈ s.out) (rawEntry : Entry Stmt) {metadata : Meta}
    (htime : metadata.execTime ≠ 0) :
    ∃ outcome e', s.engine.commitTestResult rawEntry metadata shmem = some (outcome, e') ∧
      s.engine.AllOrNothing rawEntry metadata shmem outcome e' := by
  have hs : Sound Stmt s := sound_run (sound_new nWorkers maxEdges corpusHandler strategies mabBodies bandits hv) hrun
  have hlen := hs.tokens.length shmem hmem
  have hmap := hs.mapSize.trans hlen.symm
  have hbest := hs.bestSize.trans hlen.symm
  obtain ⟨found, outcome, e', heq, hcommits⟩ := RawEngine.commitTestResult_spec rawEntry hs.valid hmap hbest
    (hs.tokens.lt_cap hmem) fun _ => htime
  exact ⟨outcome, e', heq, hcommits.allOrNothing hs.seen hmap htime⟩

end Session

/-! ## Commits that panic -/

section Panics

variable {Stmt : Type} [Hasher Stmt] [FloatFns ℚ] [LawfulLog]

/-- `on_add` panics on an entry that hit something in no time at all, and on no other. -/
theorem GreedyCoverage.isSome_onAdd {m : GreedyCoverage} (entry : RawEntry Stmt) (metadata : Meta)
    {found : EdgesFound} (hlt : ∀ e ∈ found.all, e < m.bestEdges.bestEntries.length) :
    (m.onAdd entry metadata found).isSome ↔ found.all = [] ∨ metadata.execTime ≠ 0 := by
  constructor
  · intro h
    obtain ⟨⟨outcome, m'⟩, hadd⟩ := Option.isSome_iff_exists.1 h
    by_cases hnil : found.all = []
    · exact .inl hnil
    · exact .inr (GreedyCoverage.execTime_ne_zero hadd hnil)
  · intro h
    have htime : found.all ≠ [] → metadata.execTime ≠ 0 := fun hne => h.resolve_left hne
    obtain ⟨outcome, m', hadd, -⟩ := @GreedyCoverage.onAdd_spec _ _ _ _ m entry metadata found htime hlt
    rw [hadd]
    rfl

variable {C S M : Type} [CorpusHandler C Stmt] [LawfulCorpus C] [Schedule S Stmt] [LawfulSchedule S Stmt]
  [MutationStrategy M Stmt]

omit [LawfulCorpus C] in
/-- **Exactly when a commit panics**, in every reachable session: on a map of the engine's size, the update of the edge
map returns edges, and `on_add` returns on them exactly if none was hit or the execution time is not zero. -/
theorem Session.onAdd_isSome_iff (nWorkers maxEdges : Nat) {scheduler : S} (corpusHandler : C)
    (strategies : List M) (mabBodies : List BodyRef) (bandits : Bandits) (hv : LawfulSchedule.Valid Stmt scheduler)
    {ops : List (Op M Stmt)} {s : Session C S M}
    (hrun : run step (new nWorkers maxEdges scheduler corpusHandler strategies mabBodies bandits) ops = some s)
    (entry : RawEntry Stmt) (metadata : Meta) {map : EdgeMapView}
    (hmap : map.length = s.engine.edgeMap.rawMap.length) :
    ∃ found edgeMap, s.engine.edgeMap.update map = some (found, edgeMap) ∧
      ((s.engine.minimizer.onAdd entry (RawEngine.withNewCov metadata found) found).isSome ↔
        hits map = ∅ ∨ metadata.execTime ≠ 0) := by
  have hs : Sound Stmt s := sound_run (sound_new nWorkers maxEdges corpusHandler strategies mabBodies bandits hv) hrun
  obtain ⟨found, edgeMap, hupdate, hu⟩ := update_spec hmap.symm
  refine ⟨found, edgeMap, hupdate, ?_⟩
  have hnil : found.all = [] ↔ hits map = ∅ := by
    rw [← List.length_eq_zero_iff, hu.length_all, Finset.card_eq_zero]
  rw [GreedyCoverage.isSome_onAdd, hnil]
  · rfl
  · intro e he
    rw [hs.bestSize, ← hs.mapSize]
    exact hu.mem_all_lt hmap.symm he

end Panics

/-! ## A commit after `clear` -/

namespace Session

attribute [local instance] FloatFns.tangent LawfulLog.tangent Hasher.mul

/-- An engine that keeps its entries in memory, with one worker and one edge. -/
def oneEdge : Session (InMemory (CorpusEntry Nat)) FastProbabilisticMABScheduler NOOP :=
  new 1 1 (.new 0) .new [] [0] .new

def rawEntry (n : UInt32) (ast : AST Nat) : Entry Nat := .new ⟨⟨n⟩, [], ast⟩

/-- An entry hits the edge, the engine is cleared, and the edge is hit again. -/
def hitClearHit : List (Op NOOP Nat) :=
  [.recv, .write 0 [1], .commitTestResult 0 (rawEntry 0 [7]) ⟨false, true, 1000, 0, 1⟩, .clear, .recv, .write 0 [1]]

theorem commitTestResult_allOrNothing_hitClearHit :
    ∃ s : Session (InMemory (CorpusEntry Nat)) FastProbabilisticMABScheduler NOOP, run step oneEdge hitClearHit = some s ∧
      ∃ outcome e', s.engine.commitTestResult (rawEntry 1 [7]) ⟨false, true, 1000, 0, 1⟩ ⟨"/fuzzer_shm_0", [1], 0⟩ =
          some (outcome, e') ∧
        s.engine.AllOrNothing (rawEntry 1 [7]) ⟨false, true, 1000, 0, 1⟩ ⟨"/fuzzer_shm_0", [1], 0⟩ outcome e' := by
  have hout : (run step oneEdge hitClearHit).map Session.out = some [⟨"/fuzzer_shm_0", [1], 0⟩] := by decide +kernel
  obtain ⟨s, hrun, hout⟩ := Option.map_eq_some_iff.1 hout
  refine ⟨s, hrun, ?_⟩
  exact commitTestResult_allOrNothing 1 1 .new [] [0] .new trivial hrun (by simp [hout]) (rawEntry 1 [7]) (by decide)

/-- In a fresh engine, an entry that hits the edge is judged if it took some time. -/
theorem onAdd_isSome_iff_fresh :
    ∃ found edgeMap, oneEdge.engine.edgeMap.update [1] = some (found, edgeMap) ∧
      ((oneEdge.engine.minimizer.onAdd (rawEntry 0 [7]).entry
        (RawEngine.withNewCov ⟨false, true, 1000, 0, 1⟩ found) found).isSome ↔ hits [1] = ∅ ∨ (1000 : UInt32) ≠ 0) :=
  onAdd_isSome_iff (C := InMemory (CorpusEntry Nat)) (S := FastProbabilisticMABScheduler) 1 1 .new
    ([] : List NOOP) [0] .new trivial (run_nil oneEdge) (rawEntry 0 [7]).entry _ rfl

/-- In a fresh engine, an entry that hits the edge in no time makes the commit panic. -/
theorem onAdd_panics_noTime :
    ∃ found edgeMap, oneEdge.engine.edgeMap.update [1] = some (found, edgeMap) ∧
      oneEdge.engine.minimizer.onAdd (rawEntry 0 [7]).entry (RawEngine.withNewCov ⟨false, true, 0, 0, 1⟩ found) found =
        none ∧
      ((run step oneEdge [.recv, .write 0 [1]]).bind fun s =>
        s.step (.commitTestResult 0 (rawEntry 0 [7]) ⟨false, true, 0, 0, 1⟩)).isNone := by
  refine ⟨⟨[0], [0]⟩, ⟨[1], 1⟩, by decide, ?_, by decide +kernel⟩
  decide +kernel

end Session

end Lsf.Engine
