import Lsf.Cov.Ipc
import Lsf.Engine.Minimizer
import Lsf.Engine.Retaining

/-!
# The engine

`Engine` and its operations, over any corpus, scheduler and mutation strategies, and the sessions that it serves: workers
take tokens, write their maps, and give the tokens back or commit what they found. Most operations leave the minimizer
and the edge map alone and take nothing from the corpus (`Quiet`); the others are a commit, `chore` and `clear`.
-/

namespace Lsf.Engine

open Lsf.Core Lsf.Lib Lsf.Cov Lsf.Feedback

/-! ## Mutation strategies -/

inductive MutationState where
  | mutated
  | unchanged
  deriving DecidableEq, Repr

inductive MutationError where
  | noParent (id : ID)
  | invalidAst (id : ID)
  | noop
  | astShared
  deriving DecidableEq, Repr

abbrev Entry (Stmt : Type) := TestableEntry (RawEntry Stmt)

/-- What `breed` returns, and everything that it had its hands on. -/
structure Bred (M Stmt : Type) where
  result : Except MutationError MutationState
  child : Entry Stmt
  strategy : M
  bandits : Bandits
  draws : List Draw

/-- The trait `MutationStrategy`; `none` is a panic. -/
class MutationStrategy (M Stmt : Type) where
  breed : M → Entry Stmt → List (Entry Stmt) → Bandits → List Draw → Option (Bred M Stmt)

/-- The body that `breed` has by default, after `breed_inner`. -/
def Bred.fireHooks {M Stmt : Type} (b : Bred M Stmt) : Bred M Stmt :=
  match b.result with
  | .ok .mutated => { b with bandits := b.bandits.fireParentHooks b.child .mutated }
  | _ => { b with bandits := b.bandits.fireParentHooks b.child .noop }

structure NOOP where

instance {Stmt : Type} : MutationStrategy NOOP Stmt where
  breed s child _ h draws := some (Bred.fireHooks ⟨.ok .unchanged, child, s, h, draws⟩)

section Mutation

variable {M Stmt : Type} [MutationStrategy M Stmt]

/-- What the loops of `mutate_batch` work on, `currentId` being the counter of `ID::next`. -/
structure Breeding (M : Type) where
  strategies : List M
  bandits : Bandits
  draws : List Draw
  currentId : UInt32

/-- The inner loop: every strategy in turn may change the child. -/
def breedAll (nextBatch : List (Entry Stmt)) :
    List M → MutationState → Entry Stmt → Bandits → List Draw →
      Option (MutationState × Entry Stmt × List M × Bandits × List Draw)
  | [], state, child, h, draws => some (state, child, [], h, draws)
  | strategy :: strategies, state, child, h, draws => do
    let b ← MutationStrategy.breed strategy child nextBatch h draws
    let state := match b.result with
      | .ok .mutated => .mutated
      | _ => state
    let (state, child, strategies, h, draws) ← breedAll nextBatch strategies state b.child b.bandits b.draws
    some (state, child, b.strategy :: strategies, h, draws)

/-- The child of one entry, if a strategy changed it. -/
def mutateEntry (nextBatch : List (Entry Stmt)) (entry : Entry Stmt) (σ : Breeding M) :
    Option (Option (Entry Stmt) × Breeding M) := do
  let (id, currentId) := ID.next σ.currentId
  let child : Entry Stmt := ⟨⟨id, [entry.entry.id], entry.entry.ast⟩, [], entry.appliedRuleStats⟩
  let (state, child, strategies, h, draws) ← breedAll nextBatch σ.strategies .unchanged child σ.bandits σ.draws
  some (if state = .mutated then some child else none, ⟨strategies, h, draws, currentId⟩)

def mutateEntries (nextBatch : List (Entry Stmt)) :
    List (Entry Stmt) → Breeding M → Option (List (Entry Stmt) × Breeding M)
  | [], σ => some ([], σ)
  | entry :: entries, σ => do
    let (child, σ) ← mutateEntry nextBatch entry σ
    let (children, σ) ← mutateEntries nextBatch entries σ
    some (child.toList ++ children, σ)

end Mutation

/-! ## The engine -/

/-- `Engine`, which is `RawEngine` in `lsf-ffi`; `bandits` are the arms and bodies that it shares with its parts. -/
structure RawEngine (C S M : Type) where
  corpus : C
  shmemQueue : SharedMemHandle
  scheduler : S
  strategies : List M
  minimizer : GreedyCoverage
  mabBodies : List BodyRef
  edgeMap : EdgeMap
  sizeAtLastReset : Nat
  bandits : Bandits

namespace RawEngine

variable {C S M Stmt : Type}

def new (scheduler : S) (corpusHandler : C) (minimizer : GreedyCoverage) (strategies : List M)
    (shmemQueue : SharedMemHandle) (mabBodies : List BodyRef) (bandits : Bandits) : RawEngine C S M where
  corpus := corpusHandler
  shmemQueue := shmemQueue
  scheduler := scheduler
  strategies := strategies
  minimizer := minimizer
  mabBodies := mabBodies
  edgeMap := .new shmemQueue.shmemSize
  sizeAtLastReset := 0
  bandits := bandits

def clearStrategies (e : RawEngine C S M) : RawEngine C S M := { e with strategies := [] }

def addStrategy (e : RawEngine C S M) (strategy : M) : RawEngine C S M :=
  { e with strategies := e.strategies ++ [strategy] }

def addMabBody (e : RawEngine C S M) (mab : BodyRef) : RawEngine C S M := { e with mabBodies := e.mabBodies ++ [mab] }

def returnToken (e : RawEngine C S M) (token : IPCToken) : Option (RawEngine C S M) :=
  (e.shmemQueue.send token).map fun q => { e with shmemQueue := q }

section Operations

variable [CorpusHandler C Stmt] [Schedule S Stmt]

/-- The scheduler is told of an entry, and the corpus gets it under a score. -/
def addEntry (score : F64 → F64) (e : RawEngine C S M) (entry : CorpusEntry Stmt) : Option (RawEngine C S M) := do
  let (s, scheduler, h) ← Schedule.onAdd e.scheduler e.bandits entry
  some { e with scheduler := scheduler, bandits := h, corpus := CorpusHandler.insert e.corpus entry (score s) }

def commitGeneration (e : RawEngine C S M) (members : List (CorpusEntry Stmt)) : Option (RawEngine C S M) :=
  members.foldlM (addEntry id) e

/-- `populate`, for the seeds that the generators obtained. -/
def populate (e : RawEngine C S M) (seedGens : List (List (CorpusEntry Stmt))) : Option (RawEngine C S M) :=
  seedGens.flatten.foldlM (addEntry fun _ => .posInf) e

def snapshot (order : HashOrder ID) (e : RawEngine C S M) : List (CorpusEntry Stmt) × RawEngine C S M :=
  let (entries, corpus) := getAll e.corpus (order.list (CorpusHandler.ids e.corpus))
  (entries, { e with corpus := corpus })

def corpusSize (Stmt : Type) [CorpusHandler C Stmt] (e : RawEngine C S M) : Nat := CorpusHandler.size e.corpus

def clear (Stmt : Type) [CorpusHandler C Stmt] [Schedule S Stmt] (e : RawEngine C S M) : RawEngine C S M :=
  let (scheduler, h) := Schedule.reset Stmt e.scheduler e.bandits
  { e with
    corpus := CorpusHandler.clear e.corpus
    minimizer := e.minimizer.reset
    scheduler := scheduler
    bandits := h }

def gcAt : ℚ := 1 / 5
def gcMinAbsolute : Nat := 100

/-- `growth_rate >= GC_AT`; the rate is infinite after a division by zero, and NaN if nothing is new then. -/
def hasGrown (newEntries sizeAtLastReset : Nat) : Bool :=
  if sizeAtLastReset = 0 then newEntries ≠ 0 else gcAt ≤ (newEntries : ℚ) / sizeAtLastReset

/-- The first statements of `chore`. -/
def resize (Stmt : Type) [CorpusHandler C Stmt] [Schedule S Stmt] (e : RawEngine C S M) : RawEngine C S M :=
  { e with corpus := CorpusHandler.resize e.corpus, scheduler := Schedule.chore Stmt e.scheduler }

/-- The branch of `chore` that collects garbage. -/
def minimize (Stmt : Type) [CorpusHandler C Stmt] [Schedule S Stmt] (order : HashOrder ID) (e : RawEngine C S M) :
    Option (RawEngine C S M) := do
  let (minimizer, corpus, scheduler) ← e.minimizer.minimize Stmt order e.corpus e.scheduler
  some { e with
    minimizer := minimizer
    corpus := corpus
    scheduler := scheduler
    sizeAtLastReset := CorpusHandler.size corpus }

def chore (Stmt : Type) [CorpusHandler C Stmt] [Schedule S Stmt] (order : HashOrder ID) (e : RawEngine C S M) :
    Option (RawEngine C S M) :=
  let e := e.resize Stmt
  let newEntries := e.corpusSize Stmt - e.sizeAtLastReset
  if hasGrown newEntries e.sizeAtLastReset ∧ newEntries ≥ gcMinAbsolute then e.minimize Stmt order else some e

/-- The guard of `chore`. -/
def minimizes (Stmt : Type) [CorpusHandler C Stmt] [Schedule S Stmt] (e : RawEngine C S M) : Bool :=
  let e := e.resize Stmt
  let newEntries := e.corpusSize Stmt - e.sizeAtLastReset
  hasGrown newEntries e.sizeAtLastReset ∧ newEntries ≥ gcMinAbsolute

theorem chore_eq (order : HashOrder ID) (e : RawEngine C S M) :
    e.chore Stmt order = if e.minimizes Stmt then (e.resize Stmt).minimize Stmt order else some (e.resize Stmt) := by
  unfold chore minimizes
  simp only [decide_eq_true_eq]

/-- `mutate_batch`, with the children that it returns. -/
def mutateBatch [MutationStrategy M Stmt] (e : RawEngine C S M) (batchSize : Nat) (order : HashOrder ID)
    (draws : List Draw) (currentId : UInt32) : Option (List (Entry Stmt) × RawEngine C S M) :=
  if batchSize = 0 then some ([], e) else do
    let b : Batch S C Stmt ← Schedule.nextBatch e.scheduler e.corpus batchSize e.bandits order draws
    let (generation, σ) ← mutateEntries b.members b.members (⟨e.strategies, b.bandits, b.draws, currentId⟩ : Breeding M)
    some (generation, { e with
      scheduler := b.scheduler
      corpus := b.corpus
      strategies := σ.strategies
      bandits := e.mabBodies.foldl (fun h body => h.tickBy body 1) σ.bandits })

/-- The end of `commit_test_result`: what is not rejected is committed. -/
def conclude (accepted : TestOutcome) (entry : CorpusEntry Stmt) (e : RawEngine C S M) :
    Option (TestOutcome × RawEngine C S M) :=
  match accepted with
  | .rejected _ => some (accepted, e)
  | _ => (e.commitGeneration [entry]).map fun e => (accepted, e)

/-- `commit_test_result`, with the outcome that the arms were told. -/
def commitTestResult [Hasher Stmt] [FloatFns ℚ] (e : RawEngine C S M) (rawEntry : Entry Stmt) (metadata : Meta)
    (shmem : IPCToken) : Option (TestOutcome × RawEngine C S M) := do
  let (newEdges, edgeMap, shmemQueue) ← e.shmemQueue.collect e.edgeMap shmem
  let metadata := { metadata with newCovNodes := newEdges.new.length }
  let (accepted, minimizer) ← e.minimizer.onAdd rawEntry.entry metadata newEdges
  let (rawEntry, h) := e.bandits.fireRuleHooks rawEntry accepted metadata
  conclude accepted (rawEntry.entry.intoCorpusEntry metadata)
    { e with edgeMap := edgeMap, shmemQueue := shmemQueue, minimizer := minimizer, bandits := h }

end Operations

end RawEngine

/-! ## Operations that lose nothing -/

section Retains

variable {C Stmt : Type} [CorpusHandler C Stmt]

/-- `get`, `update`, `insert` and `resize` lead from one corpus to the other. -/
inductive Retains (c : C) : C → Prop where
  | refl : Retains c c
  | get (id : ID) {c' : C} : Retains c c' → Retains c (CorpusHandler.get c' id).2
  | update (id : ID) (score : F64) {c' : C} : Retains c c' → Retains c (CorpusHandler.update c' id score)
  | insert (e : CorpusEntry Stmt) (score : F64) {c' : C} : Retains c c' → Retains c (CorpusHandler.insert c' e score)
  | resize {c' : C} : Retains c c' → Retains c (CorpusHandler.resize c')

variable {c c' c'' : C}

theorem Reads.retains (h : Reads c c') : Retains c c' := by
  induction h with
  | refl => exact .refl
  | get id _ ih => exact .get id ih
  | update id score _ ih => exact .update id score ih

theorem Retains.trans (h : Retains c c') (h' : Retains c' c'') : Retains c c'' := by
  induction h' with
  | refl => exact h
  | get id _ ih => exact .get id ih
  | update id score _ ih => exact .update id score ih
  | insert e score _ ih => exact .insert e score ih
  | resize _ ih => exact .resize ih

/-- No id is lost. -/
theorem Retains.ids_subset [LawfulCorpus C] (h : Retains c c') : CorpusHandler.ids c ⊆ CorpusHandler.ids c' := by
  induction h with
  | refl => exact Finset.Subset.refl _
  | get id _ ih => rwa [LawfulCorpus.ids_get]
  | update id score _ ih => rwa [LawfulCorpus.ids_update]
  | insert e score _ ih =>
    rw [LawfulCorpus.ids_insert]
    exact ih.trans (Finset.subset_insert _ _)
  | resize _ ih => rwa [LawfulCorpus.ids_resize]

theorem Retains.intact [RetainingCorpus C] (h : Retains c c') (hc : RetainingCorpus.Intact Stmt c) :
    RetainingCorpus.Intact Stmt c' := by
  induction h with
  | refl => exact hc
  | get id _ ih => exact RetainingCorpus.intact_get _ id ih
  | update id score _ ih => exact RetainingCorpus.intact_update _ id score ih
  | insert e score _ ih => exact RetainingCorpus.intact_insert _ e score ih
  | resize _ ih => exact RetainingCorpus.intact_resize _ ih

end Retains

namespace RawEngine

section Laws

variable {C S M Stmt : Type} [CorpusHandler C Stmt] [Schedule S Stmt] [LawfulSchedule S Stmt]

/-- `e'` comes from `e` by something that leaves the minimizer, the map and the channel alone and takes nothing from the
corpus. -/
structure Quiet (Stmt : Type) [CorpusHandler C Stmt] [Schedule S Stmt] [LawfulSchedule S Stmt] (e e' : RawEngine C S M) :
    Prop where
  minimizer : e'.minimizer = e.minimizer
  edgeMap : e'.edgeMap = e.edgeMap
  shmemQueue : e'.shmemQueue = e.shmemQueue
  valid : LawfulSchedule.Valid Stmt e'.scheduler
  corpus : Retains e.corpus e'.corpus

variable {e e' e'' : RawEngine C S M}

theorem Quiet.trans (h : Quiet Stmt e e') (h' : Quiet Stmt e' e'') : Quiet Stmt e e'' where
  minimizer := h'.minimizer.trans h.minimizer
  edgeMap := h'.edgeMap.trans h.edgeMap
  shmemQueue := h'.shmemQueue.trans h.shmemQueue
  valid := h'.valid
  corpus := h.corpus.trans h'.corpus

theorem Quiet.refl (hv : LawfulSchedule.Valid Stmt e.scheduler) : Quiet Stmt e e := ⟨rfl, rfl, rfl, hv, .refl⟩

/-- Adding an entry never panics. -/
theorem addEntry_spec (score : F64 → F64) (entry : CorpusEntry Stmt) (hv : LawfulSchedule.Valid Stmt e.scheduler) :
    ∃ e', e.addEntry score entry = some e' ∧ Quiet Stmt e e' ∧
      (∃ s, e'.corpus = CorpusHandler.insert e.corpus entry s) ∧
      ∀ ids, entry.id ∈ ids → LawfulSchedule.entries Stmt e'.scheduler ids entry.id := by
  obtain ⟨s, scheduler, h, heq, hv', hmem⟩ := LawfulSchedule.onAdd_spec e.scheduler e.bandits entry hv
  refine ⟨{ e with scheduler := scheduler, bandits := h, corpus := CorpusHandler.insert e.corpus entry (score s) },
    ?_, ⟨rfl, rfl, rfl, hv', .insert _ _ .refl⟩, ⟨_, rfl⟩, hmem⟩
  unfold addEntry
  rw [heq]
  rfl

theorem foldlM_addEntry_quiet {score : F64 → F64} {entries : List (CorpusEntry Stmt)}
    (hv : LawfulSchedule.Valid Stmt e.scheduler) (h : entries.foldlM (addEntry score) e = some e') :
    Quiet Stmt e e' := by
  induction entries generalizing e with
  | nil =>
    cases h
    exact .refl hv
  | cons entry entries ih =>
    rw [List.foldlM_cons] at h
    obtain ⟨e₁, hadd, h⟩ := Option.bind_eq_some_iff.1 h
    obtain ⟨e₂, hadd', hquiet, -⟩ := addEntry_spec score entry hv
    obtain rfl : e₂ = e₁ := Option.some.inj (hadd'.symm.trans hadd)
    exact hquiet.trans (ih hquiet.valid h)

theorem snapshot_quiet (order : HashOrder ID) (hv : LawfulSchedule.Valid Stmt e.scheduler) :
    Quiet Stmt e (snapshot order e).2 :=
  ⟨rfl, rfl, rfl, hv, (reads_getAll e.corpus _).retains⟩

theorem mutateBatch_quiet [MutationStrategy M Stmt] {batchSize : Nat} {order : HashOrder ID} {draws : List Draw}
    {currentId : UInt32} {generation : List (Entry Stmt)} (hv : LawfulSchedule.Valid Stmt e.scheduler)
    (h : e.mutateBatch batchSize order draws currentId = some (generation, e')) : Quiet Stmt e e' := by
  unfold mutateBatch at h
  split at h
  · cases h
    exact .refl hv
  · obtain ⟨b, hbatch, h⟩ := Option.bind_eq_some_iff.1 h
    obtain ⟨⟨children, σ⟩, -, h⟩ := Option.bind_eq_some_iff.1 h
    cases h
    obtain ⟨hv', hreads⟩ := LawfulSchedule.nextBatch_spec _ _ _ _ _ _ _ hv hbatch
    exact ⟨rfl, rfl, rfl, hv', hreads.retains⟩

/-- What `chore` leaves behind. -/
structure Swept (Stmt : Type) [CorpusHandler C Stmt] [Schedule S Stmt] [LawfulSchedule S Stmt] (e e' : RawEngine C S M) :
    Prop where
  bestEdges : e'.minimizer.bestEdges = e.minimizer.bestEdges
  edgeMap : e'.edgeMap = e.edgeMap
  shmemQueue : e'.shmemQueue = e.shmemQueue
  valid : LawfulSchedule.Valid Stmt e'.scheduler
  corpus : GreedyCoverage.Culled (e.minimizer.protectd (CorpusHandler.resize e.corpus))
    (CorpusHandler.resize e.corpus) e'.corpus

/-- **`chore`** never panics. -/
theorem chore_spec (order : HashOrder ID) (hv : LawfulSchedule.Valid Stmt e.scheduler) :
    ∃ e', e.chore Stmt order = some e' ∧ Swept Stmt e e' := by
  have hv' := LawfulSchedule.valid_chore _ hv
  rw [chore_eq]
  split
  · obtain ⟨m, c, s, heq, hbest, -, hculled, hv''⟩ :=
      e.minimizer.minimize_spec order (CorpusHandler.resize e.corpus) hv'
    refine ⟨{ e with minimizer := m, corpus := c, scheduler := s, sizeAtLastReset := CorpusHandler.size c },
      ?_, hbest, rfl, rfl, hv'', hculled⟩
    simp only [minimize, resize, heq]
    rfl
  · exact ⟨_, rfl, rfl, rfl, rfl, hv', .refl⟩

/-! ## Commits -/

section Commit

variable [Hasher Stmt] [FloatFns ℚ] [LawfulLog]

/-- The metadata that a result is judged by. -/
def withNewCov (metadata : Meta) (found : EdgesFound) : Meta := { metadata with newCovNodes := found.new.length }

/-- What the commit of a result with the edges `found` did. -/
structure Commits (e : RawEngine C S M) (rawEntry : Entry Stmt) (metadata : Meta) (shmem : IPCToken) (found : EdgesFound)
    (outcome : TestOutcome) (e' : RawEngine C S M) : Prop where
  updated : Updated e.edgeMap shmem.asEdgeMap found e'.edgeMap
  judged : GreedyCoverage.Judged e.minimizer rawEntry.entry (withNewCov metadata found) found outcome e'.minimizer
  shmemQueue : e'.shmemQueue = { e.shmemQueue with queue := e.shmemQueue.queue ++ [e.shmemQueue.zero shmem] }
  valid : LawfulSchedule.Valid Stmt e'.scheduler
  rejected : (∃ r, outcome = .rejected r) → e' = { e with
    edgeMap := e'.edgeMap
    shmemQueue := e'.shmemQueue
    minimizer := e'.minimizer
    bandits := (e.bandits.fireRuleHooks rawEntry outcome (withNewCov metadata found)).2 }
  accepted : (∃ a, outcome = .accepted a) →
    (∃ s, e'.corpus = CorpusHandler.insert e.corpus (rawEntry.entry.intoCorpusEntry (withNewCov metadata found)) s) ∧
    ∀ ids, rawEntry.entry.id ∈ ids → LawfulSchedule.entries Stmt e'.scheduler ids rawEntry.entry.id

variable {rawEntry : Entry Stmt} {metadata : Meta} {shmem : IPCToken}

/-- **`commit_test_result`** never panics on a map of the right size, if the channel has room for the token. -/
theorem commitTestResult_spec (rawEntry : Entry Stmt) (hv : LawfulSchedule.Valid Stmt e.scheduler)
    (hmap : e.edgeMap.rawMap.length = shmem.shmem.length)
    (hbest : e.minimizer.bestEdges.bestEntries.length = shmem.shmem.length)
    (hroom : e.shmemQueue.queue.length < e.shmemQueue.cap)
    (htime : (hits shmem.asEdgeMap).Nonempty → metadata.execTime ≠ 0) :
    ∃ found outcome e', e.commitTestResult rawEntry metadata shmem = some (outcome, e') ∧
      Commits e rawEntry metadata shmem found outcome e' := by
  obtain ⟨found, edgeMap, hcollect, hu⟩ := SharedMemHandle.collect_spec hmap hroom
  have htime' : found.all ≠ [] → (withNewCov metadata found).execTime ≠ 0 := by
    intro hne
    obtain ⟨edge, hedge⟩ := List.exists_mem_of_ne_nil _ hne
    exact htime ⟨edge, hu.mem_all_iff.1 hedge⟩
  have hlt : ∀ edge ∈ found.all, edge < e.minimizer.bestEdges.bestEntries.length := by
    intro edge hedge
    have := hu.mem_all_lt hmap hedge
    omega
  obtain ⟨outcome, minimizer, hadd, hj⟩ := @GreedyCoverage.onAdd_spec _ _ _ _ _ rawEntry.entry _ _ htime' hlt
  change e.minimizer.onAdd rawEntry.entry { metadata with newCovNodes := found.new.length } found = _ at hadd
  have hcommit : e.commitTestResult rawEntry metadata shmem = conclude outcome
      (rawEntry.entry.intoCorpusEntry (withNewCov metadata found)) { e with
        edgeMap := edgeMap
        shmemQueue := { e.shmemQueue with queue := e.shmemQueue.queue ++ [e.shmemQueue.zero shmem] }
        minimizer := minimizer
        bandits := (e.bandits.fireRuleHooks rawEntry outcome (withNewCov metadata found)).2 } := by
    simp only [commitTestResult, hcollect, hadd, Option.bind_eq_bind, Option.bind_some]
    rfl
  rw [hcommit]
  rcases hj.judged with ⟨r, rfl⟩ | ⟨a, rfl⟩
  · refine ⟨found, .rejected r, _, rfl, ?_⟩
    exact ⟨hu, hj, rfl, hv, fun _ => rfl, fun ⟨a, ha⟩ => by cases ha⟩
  · obtain ⟨e', heq, hquiet, hinsert, hmem⟩ := addEntry_spec id
      (rawEntry.entry.intoCorpusEntry (withNewCov metadata found)) (e := { e with
        edgeMap := edgeMap
        shmemQueue := { e.shmemQueue with queue := e.shmemQueue.queue ++ [e.shmemQueue.zero shmem] }
        minimizer := minimizer
        bandits := (e.bandits.fireRuleHooks rawEntry (.accepted a) (withNewCov metadata found)).2 }) hv
    refine ⟨found, .accepted a, e', ?_, ?_⟩
    · simp [conclude, commitGeneration, heq]
    · exact ⟨hquiet.edgeMap ▸ hu, hquiet.minimizer ▸ hj, hquiet.shmemQueue, hquiet.valid,
        (fun ⟨r, hr⟩ => by cases hr), fun _ => ⟨hinsert, hmem⟩⟩

omit [LawfulLog] [LawfulSchedule S Stmt] in
/-- A result that hit something is only committed if it took time. -/
theorem execTime_ne_zero {outcome : TestOutcome} (h : e.commitTestResult rawEntry metadata shmem = some (outcome, e'))
    (hhit : (hits shmem.asEdgeMap).Nonempty) : metadata.execTime ≠ 0 := by
  obtain ⟨⟨found, edgeMap, q⟩, hcollect, h⟩ := Option.bind_eq_some_iff.1 h
  obtain ⟨⟨accepted, minimizer⟩, hadd, -⟩ := Option.bind_eq_some_iff.1 h
  obtain ⟨⟨found', edgeMap'⟩, hupdate, hcollect⟩ := Option.bind_eq_some_iff.1 hcollect
  obtain ⟨q', -, hcollect⟩ := Option.bind_eq_some_iff.1 hcollect
  cases hcollect
  obtain ⟨edge, hedge⟩ := hhit
  have hmem := (updated_of_eq hupdate).mem_all_iff.2 hedge
  have htime := GreedyCoverage.execTime_ne_zero hadd (List.ne_nil_of_mem hmem)
  exact htime

end Commit

end Laws

end RawEngine

end Lsf.Engine
