import Lsf.Engine.Outline

/-!
# The scheduler knows the corpus

Schedulers that keep one key for each entry (`ExactSchedule`) are `FastProbabilisticMABScheduler` and a batcher around
such a scheduler. In an engine their keys are the ids of the corpus, in every state of every session, and each of them
can be got (`keys_eq_ids`).
-/

namespace Lsf.Engine

open Lsf.Core Lsf.Lib Lsf.Cov Lsf.Feedback

/-- Schedulers that keep a key for each entry that was added and not removed. -/
class ExactSchedule (S T : Type) [Schedule S T] where
  keys : S → Finset ID
  keys_onAdd : ∀ (s : S) h (e : CorpusEntry T) score s' h', Schedule.onAdd s h e = some (score, s', h') →
    keys s' = insert e.id (keys s)
  keys_onRemove : ∀ s id s', Schedule.onRemove T s id = some s' → keys s' = (keys s).erase id
  keys_nextBatch : ∀ {C : Type} [CorpusHandler C T] (s : S) (c : C) size h order draws b,
    Schedule.nextBatch s c size h order draws = some b → keys b.scheduler = keys s
  keys_chore : ∀ s, keys (Schedule.chore T s) = keys s
  keys_reset : ∀ s h, keys (Schedule.reset T s h).1 = ∅

/-! ## FastProbabilisticMABScheduler -/

namespace FastProbabilisticMABScheduler

variable {C Stmt : Type} [CorpusHandler C Stmt] [FloatFns ℚ]

theorem round_keys {currentEpoch : UInt32} {v : Visit C} {draws : List Draw} {ids : List ID}
    {r : Round (Visit C) (TestableEntry (RawEntry Stmt))} (hv : v.1.entries.keys = ids)
    (hr : round currentEpoch v draws = some r) : r.state.1.entries.keys = ids := by
  obtain ⟨s, c, h⟩ := v
  obtain ⟨⟨u, draws₁⟩, -, hr⟩ := Option.bind_eq_some_iff.1 hr
  obtain ⟨rdIdx, -, hr⟩ := Option.bind_eq_some_iff.1 hr
  obtain ⟨⟨id, arm⟩, -, hr⟩ := Option.bind_eq_some_iff.1 hr
  dsimp only at hr
  split at hr
  · cases hr
    exact hv
  · obtain ⟨⟨u', draws₂⟩, -, hr⟩ := Option.bind_eq_some_iff.1 hr
    obtain ⟨accepted, -, hr⟩ := Option.bind_eq_some_iff.1 hr
    cases hr
    exact IndexMap.keys_setValue.trans hv

/-- A batch keeps the keys, and their order. -/
theorem nextBatch_keys {s : FastProbabilisticMABScheduler} {c : C} {size : Nat} {h : Bandits} {order : HashOrder ID}
    {draws : List Draw} {b : Batch FastProbabilisticMABScheduler C Stmt}
    (hb : s.nextBatch c size h order draws = some b) : b.scheduler.entries.keys = s.entries.keys := by
  obtain ⟨⟨parents, v, draws'⟩, hloop, hb⟩ := Option.bind_eq_some_iff.1 hb
  cases hb
  exact whileShort_invariant (I := fun v => v.1.entries.keys = s.entries.keys) (fun _ _ _ => round_keys) rfl hloop

instance : ExactSchedule FastProbabilisticMABScheduler Stmt where
  keys s := s.entries.keys.toFinset
  keys_onAdd s h e score s' h' heq := by
    cases heq
    ext id
    simp
  keys_onRemove s id s' heq := by
    cases heq
    ext id'
    simp
  keys_nextBatch s c size h order draws b hb := congrArg List.toFinset (nextBatch_keys hb)
  keys_chore _ := rfl
  keys_reset _ _ := rfl

end FastProbabilisticMABScheduler

/-! ## SchedulerBatcher -/

namespace SchedulerBatcher

variable {S C Stmt : Type} [CorpusHandler C Stmt] [Schedule S Stmt] [LawfulSchedule S Stmt] [FloatFns ℚ]
  [ExactSchedule S Stmt]
  {s : SchedulerBatcher S Stmt} {c : C} {size : Nat} {h : Bandits} {order : HashOrder ID} {draws : List Draw}
  {b : Batch (SchedulerBatcher S Stmt) C Stmt}

omit [LawfulSchedule S Stmt] in
theorem refillIf_keys {needed : Bool} (hb : s.refillIf needed c size h order draws = some b) :
    ExactSchedule.keys Stmt b.scheduler.innerScheduler = ExactSchedule.keys Stmt s.innerScheduler := by
  unfold refillIf at hb
  split at hb
  · obtain ⟨b', hinner, hb⟩ := Option.bind_eq_some_iff.1 hb
    cases hb
    exact ExactSchedule.keys_nextBatch _ _ _ _ _ _ _ hinner
  · cases hb
    rfl

omit [LawfulSchedule S Stmt] in
theorem fill_keys {n : Nat} (hb : fill size order n s c h draws = some b) :
    ExactSchedule.keys Stmt b.scheduler.innerScheduler = ExactSchedule.keys Stmt s.innerScheduler := by
  induction n generalizing s c h draws b with
  | zero =>
    cases hb
    rfl
  | succ n ih =>
    unfold fill at hb
    obtain ⟨b₁, hrefill, hb⟩ := Option.bind_eq_some_iff.1 hb
    obtain ⟨⟨u, rest⟩, -, hb⟩ := Option.bind_eq_some_iff.1 hb
    obtain ⟨⟨entry, s'⟩, htake, hb⟩ := Option.bind_eq_some_iff.1 hb
    obtain ⟨b₂, hfill, hb⟩ := Option.bind_eq_some_iff.1 hb
    cases hb
    rw [ih hfill, takeOne_innerScheduler htake, refillIf_keys hrefill]

instance : ExactSchedule (SchedulerBatcher S Stmt) Stmt where
  keys s := ExactSchedule.keys Stmt s.innerScheduler
  keys_onAdd s h e score s' h' heq := by
    obtain ⟨⟨score', inner, h₁⟩, hinner, heq⟩ := Option.map_eq_some_iff.1 heq
    cases heq
    exact ExactSchedule.keys_onAdd _ _ _ _ _ _ hinner
  keys_onRemove s id s' heq := by
    obtain ⟨inner, hinner, rfl⟩ := Option.map_eq_some_iff.1 heq
    exact ExactSchedule.keys_onRemove _ _ _ hinner
  keys_nextBatch s c size h order draws b hb := by
    obtain ⟨b₁, hrefill, hb⟩ := Option.bind_eq_some_iff.1 hb
    rw [fill_keys hb, refillIf_keys hrefill]
  keys_chore s := ExactSchedule.keys_chore s.innerScheduler
  keys_reset s h := ExactSchedule.keys_reset s.innerScheduler h

end SchedulerBatcher

/-! ## What an operation adds -/

namespace RawEngine

section Adds

variable {C S M Stmt : Type} [CorpusHandler C Stmt] [LawfulCorpus C] [Schedule S Stmt] [LawfulSchedule S Stmt]
  [ExactSchedule S Stmt]

/-- `e'` has the entries of `e` and those with `ids`, in the corpus and in the scheduler, and counts as `e` does. -/
structure Adds (Stmt : Type) [CorpusHandler C Stmt] [LawfulCorpus C] [Schedule S Stmt] [LawfulSchedule S Stmt]
    [ExactSchedule S Stmt] (added : Finset ID) (e e' : RawEngine C S M) : Prop where
  valid : LawfulSchedule.Valid Stmt e'.scheduler
  corpus : Retains e.corpus e'.corpus
  ids : CorpusHandler.ids e'.corpus = CorpusHandler.ids e.corpus ∪ added
  keys : ExactSchedule.keys Stmt e'.scheduler = ExactSchedule.keys Stmt e.scheduler ∪ added
  gcRotation : e'.minimizer.gcRotation = e.minimizer.gcRotation

variable {e e' e'' : RawEngine C S M}

/-- Nothing that has to do with entries has changed. -/
theorem Adds.same (hv : LawfulSchedule.Valid Stmt e.scheduler) (hcorpus : e'.corpus = e.corpus)
    (hscheduler : e'.scheduler = e.scheduler) (hminimizer : e'.minimizer = e.minimizer) : Adds Stmt ∅ e e' where
  valid := hscheduler ▸ hv
  corpus := hcorpus ▸ .refl
  ids := by rw [hcorpus, Finset.union_empty]
  keys := by rw [hscheduler, Finset.union_empty]
  gcRotation := by rw [hminimizer]

theorem Adds.refl (hv : LawfulSchedule.Valid Stmt e.scheduler) : Adds Stmt ∅ e e := .same hv rfl rfl rfl

theorem Adds.trans {added added' : Finset ID} (h : Adds Stmt added e e') (h' : Adds Stmt added' e' e'') :
    Adds Stmt (added ∪ added') e e'' where
  valid := h'.valid
  corpus := h.corpus.trans h'.corpus
  ids := by rw [h'.ids, h.ids, Finset.union_assoc]
  keys := by rw [h'.keys, h.keys, Finset.union_assoc]
  gcRotation := h'.gcRotation.trans h.gcRotation

theorem adds_addEntry {score : F64 → F64} {entry : CorpusEntry Stmt} (hv : LawfulSchedule.Valid Stmt e.scheduler)
    (hadd : e.addEntry score entry = some e') : Adds Stmt {entry.id} e e' := by
  obtain ⟨e₁, heq, hquiet, -, -⟩ := addEntry_spec score entry hv
  obtain rfl : e₁ = e' := Option.some.inj (heq.symm.trans hadd)
  obtain ⟨⟨s', scheduler, h'⟩, honAdd, heq⟩ := Option.bind_eq_some_iff.1 hadd
  refine ⟨hquiet.valid, hquiet.corpus, ?_, ?_, by rw [hquiet.minimizer]⟩
  · cases heq
    exact (LawfulCorpus.ids_insert _ _ _).trans (by rw [Finset.union_comm, Finset.insert_eq])
  · cases heq
    exact (ExactSchedule.keys_onAdd _ _ _ _ _ _ honAdd).trans (by rw [Finset.union_comm, Finset.insert_eq])

theorem adds_foldlM_addEntry {score : F64 → F64} {entries : List (CorpusEntry Stmt)}
    (hv : LawfulSchedule.Valid Stmt e.scheduler) (hadd : entries.foldlM (addEntry score) e = some e') :
    Adds Stmt (entries.map CorpusEntry.id).toFinset e e' := by
  induction entries generalizing e with
  | nil =>
    cases hadd
    exact .refl hv
  | cons entry entries ih =>
    rw [List.foldlM_cons] at hadd
    obtain ⟨e₁, hentry, hadd⟩ := Option.bind_eq_some_iff.1 hadd
    have hfirst := adds_addEntry hv hentry
    rw [List.map_cons, List.toFinset_cons, Finset.insert_eq]
    exact hfirst.trans (ih hfirst.valid hadd)

/-- Reading keeps the ids. -/
theorem ids_of_reads {c c' : C} (h : Reads c c') : CorpusHandler.ids c' = CorpusHandler.ids c :=
  h.keeps (P := fun c' => CorpusHandler.ids c' = CorpusHandler.ids c)
    (fun c₁ id hc => (LawfulCorpus.ids_get c₁ id).trans hc)
    (fun c₁ id score hc => (LawfulCorpus.ids_update c₁ id score).trans hc) rfl

theorem adds_snapshot (order : HashOrder ID) (hv : LawfulSchedule.Valid Stmt e.scheduler) :
    Adds Stmt ∅ e (e.snapshot order).2 := by
  have hreads := reads_getAll e.corpus (order.list (CorpusHandler.ids e.corpus))
  exact ⟨hv, hreads.retains, (ids_of_reads hreads).trans (by simp), by simp [snapshot], rfl⟩

theorem adds_mutateBatch [MutationStrategy M Stmt] {batchSize : Nat} {order : HashOrder ID} {draws : List Draw}
    {currentId : UInt32} {generation : List (Entry Stmt)} (hv : LawfulSchedule.Valid Stmt e.scheduler)
    (hbatch : e.mutateBatch batchSize order draws currentId = some (generation, e')) : Adds Stmt ∅ e e' := by
  unfold mutateBatch at hbatch
  split at hbatch
  · cases hbatch
    exact .refl hv
  · obtain ⟨b, hnext, hbatch⟩ := Option.bind_eq_some_iff.1 hbatch
    obtain ⟨⟨children, σ⟩, -, hbatch⟩ := Option.bind_eq_some_iff.1 hbatch
    cases hbatch
    obtain ⟨hvalid, hreads⟩ := LawfulSchedule.nextBatch_spec _ _ _ _ _ _ _ hv hnext
    refine ⟨hvalid, hreads.retains, (ids_of_reads hreads).trans (by simp), ?_, rfl⟩
    rw [Finset.union_empty]
    exact ExactSchedule.keys_nextBatch _ _ _ _ _ _ _ hnext

/-- The id of a result that is not rejected. -/
def acceptedId : TestOutcome → ID → List ID
  | .rejected _, _ => []
  | _, id => [id]

theorem adds_commitTestResult [Hasher Stmt] [FloatFns ℚ] {rawEntry : Entry Stmt} {metadata : Meta} {shmem : IPCToken}
    {outcome : TestOutcome} (hv : LawfulSchedule.Valid Stmt e.scheduler)
    (hcommit : e.commitTestResult rawEntry metadata shmem = some (outcome, e')) :
    Adds Stmt (acceptedId outcome rawEntry.entry.id).toFinset e e' := by
  obtain ⟨⟨found, edgeMap, q⟩, -, hcommit⟩ := Option.bind_eq_some_iff.1 hcommit
  obtain ⟨⟨accepted, minimizer⟩, honAdd, hcommit⟩ := Option.bind_eq_some_iff.1 hcommit
  have hbefore : Adds Stmt ∅ e { e with
      edgeMap := edgeMap
      shmemQueue := q
      minimizer := minimizer
      bandits := (e.bandits.fireRuleHooks rawEntry accepted (withNewCov metadata found)).2 } :=
    ⟨hv, .refl, by simp, by simp, GreedyCoverage.gcRotation_onAdd honAdd⟩
  simp only [conclude] at hcommit
  split at hcommit
  · cases hcommit
    exact hbefore
  · rename_i hno
    obtain ⟨e₁, hadd, heq⟩ := Option.map_eq_some_iff.1 hcommit
    cases heq
    have hall := hbefore.trans (adds_foldlM_addEntry hv hadd)
    rw [Finset.empty_union] at hall
    cases outcome with
    | rejected r => exact absurd rfl (hno r)
    | _ => exact hall

omit [LawfulSchedule S Stmt] in
/-- What is culled is culled on both sides. -/
theorem foldlM_cull_keys {bad : List ID} {v v' : GreedyCoverage.Cull C S}
    (h : ExactSchedule.keys Stmt v.2.2 = CorpusHandler.ids v.2.1)
    (hfold : bad.foldlM (GreedyCoverage.cull Stmt) v = some v') :
    ExactSchedule.keys Stmt v'.2.2 = CorpusHandler.ids v'.2.1 := by
  induction bad generalizing v with
  | nil =>
    cases hfold
    exact h
  | cons id bad ih =>
    obtain ⟨rotation, corpus, scheduler⟩ := v
    rw [List.foldlM_cons] at hfold
    obtain ⟨v₁, hcull, hfold⟩ := Option.bind_eq_some_iff.1 hfold
    refine ih ?_ hfold
    simp only [GreedyCoverage.cull] at hcull
    split at hcull
    · obtain ⟨scheduler', hremove, hcull⟩ := Option.bind_eq_some_iff.1 hcull
      cases hcull
      show ExactSchedule.keys Stmt scheduler' = CorpusHandler.ids (CorpusHandler.remove corpus id)
      rw [ExactSchedule.keys_onRemove _ _ _ hremove, LawfulCorpus.ids_remove]
      exact congrArg (Finset.erase · id) h
    · cases hcull
      exact h

omit [LawfulSchedule S Stmt] in
/-- `chore` keeps the scheduler in step with the corpus. -/
theorem keys_chore {order : HashOrder ID} (h : ExactSchedule.keys Stmt e.scheduler = CorpusHandler.ids e.corpus)
    (hchore : e.chore Stmt order = some e') :
    ExactSchedule.keys Stmt e'.scheduler = CorpusHandler.ids e'.corpus := by
  have hresize : ExactSchedule.keys Stmt (e.resize Stmt).scheduler = CorpusHandler.ids (e.resize Stmt).corpus := by
    show ExactSchedule.keys Stmt (Schedule.chore Stmt e.scheduler) = CorpusHandler.ids (CorpusHandler.resize e.corpus)
    rw [ExactSchedule.keys_chore, LawfulCorpus.ids_resize, h]
  rw [chore_eq] at hchore
  split at hchore
  · obtain ⟨⟨m, c, s⟩, hminimize, hchore⟩ := Option.bind_eq_some_iff.1 hchore
    obtain ⟨⟨rotation, c', s'⟩, hfold, hminimize⟩ := Option.bind_eq_some_iff.1 hminimize
    cases hminimize
    cases hchore
    exact foldlM_cull_keys (v := ((e.resize Stmt).minimizer.gcRotation, _, _)) hresize hfold
  · cases hchore
    exact hresize

end Adds

/-! ## The engine -/

section Exact

variable {C S M Stmt : Type} [CorpusHandler C Stmt] [RetainingCorpus C] [Schedule S Stmt] [LawfulSchedule S Stmt]
  [ExactSchedule S Stmt]

/-- **The scheduler knows exactly the corpus**, which has all of its entries. -/
structure Exact (Stmt : Type) [CorpusHandler C Stmt] [RetainingCorpus C] [Schedule S Stmt] [LawfulSchedule S Stmt]
    [ExactSchedule S Stmt] (e : RawEngine C S M) : Prop where
  valid : LawfulSchedule.Valid Stmt e.scheduler
  intact : RetainingCorpus.Intact Stmt e.corpus
  keys : ExactSchedule.keys Stmt e.scheduler = CorpusHandler.ids e.corpus

variable {e e' : RawEngine C S M}

theorem Exact.of_adds {added : Finset ID} (h : Exact Stmt e) (hadds : Adds Stmt added e e') : Exact Stmt e' where
  valid := hadds.valid
  intact := hadds.corpus.intact h.intact
  keys := by rw [hadds.keys, hadds.ids, h.keys]

theorem Exact.chore {order : HashOrder ID} (h : Exact Stmt e) (hchore : e.chore Stmt order = some e') :
    Exact Stmt e' := by
  obtain ⟨e₁, heq, hswept⟩ := chore_spec order h.valid
  obtain rfl : e₁ = e' := Option.some.inj (heq.symm.trans hchore)
  exact ⟨hswept.valid, hswept.corpus.intact (RetainingCorpus.intact_resize _ h.intact), keys_chore h.keys hchore⟩

theorem Exact.clear (h : Exact Stmt e) : Exact Stmt (e.clear Stmt) where
  valid := LawfulSchedule.valid_reset _ _ h.valid
  intact := RetainingCorpus.intact_clear _ h.intact
  keys := (ExactSchedule.keys_reset _ _).trans (LawfulCorpus.ids_clear _).symm

end Exact

end RawEngine

/-! ## Every session -/

namespace Session

section Adds

variable {C S M Stmt : Type} [CorpusHandler C Stmt] [LawfulCorpus C] [MutationStrategy M Stmt] [Hasher Stmt]
  [FloatFns ℚ] [Schedule S Stmt]

/-- The ids that a step inserts, one for each call of `insert`. -/
def inserts (s : Session C S M) : Op M Stmt → List ID
  | .commitTestResult i rawEntry metadata =>
    ((s.out[i]?).bind fun token => s.engine.commitTestResult rawEntry metadata token).elim [] fun r =>
      RawEngine.acceptedId r.1 rawEntry.entry.id
  | .commitGeneration members => members.map CorpusEntry.id
  | .populate seedGens => seedGens.flatten.map CorpusEntry.id
  | _ => []

variable [LawfulSchedule S Stmt] [ExactSchedule S Stmt] {s s' : Session C S M}

/-- **One step of a session**, as far as entries go: all but `chore` and `clear` do nothing but insert. -/
theorem step_adds {op : Op M Stmt} (hv : LawfulSchedule.Valid Stmt s.engine.scheduler) (hs : s.step op = some s') :
    (∃ order, op = .chore order) ∨ op = .clear ∨ RawEngine.Adds Stmt (s.inserts op).toFinset s.engine s'.engine := by
  cases op with
  | recv =>
    obtain ⟨⟨token, q⟩, -, hs⟩ := Option.bind_eq_some_iff.1 hs
    cases hs
    exact .inr (.inr (.same hv rfl rfl rfl))
  | write i map =>
    obtain ⟨token, -, hs⟩ := Option.bind_eq_some_iff.1 hs
    split at hs
    · cases hs
      exact .inr (.inr (.refl hv))
    · cases hs
  | returnToken i =>
    obtain ⟨token, -, hs⟩ := Option.bind_eq_some_iff.1 hs
    obtain ⟨e, hreturn, hs⟩ := Option.bind_eq_some_iff.1 hs
    cases hs
    obtain ⟨q, -, rfl⟩ := Option.map_eq_some_iff.1 hreturn
    exact .inr (.inr (.same hv rfl rfl rfl))
  | commitTestResult i rawEntry metadata =>
    obtain ⟨token, htoken, hs⟩ := Option.bind_eq_some_iff.1 hs
    obtain ⟨⟨outcome, e⟩, hcommit, hs⟩ := Option.bind_eq_some_iff.1 hs
    cases hs
    have hinserts : s.inserts (.commitTestResult i rawEntry metadata) =
        RawEngine.acceptedId outcome rawEntry.entry.id := by
      simp [inserts, htoken, hcommit]
    rw [hinserts]
    exact .inr (.inr (RawEngine.adds_commitTestResult hv hcommit))
  | commitGeneration members =>
    obtain ⟨e, hadd, rfl⟩ := Option.map_eq_some_iff.1 hs
    exact .inr (.inr (RawEngine.adds_foldlM_addEntry hv hadd))
  | populate seedGens =>
    obtain ⟨e, hadd, rfl⟩ := Option.map_eq_some_iff.1 hs
    exact .inr (.inr (RawEngine.adds_foldlM_addEntry hv hadd))
  | mutateBatch batchSize order draws currentId =>
    obtain ⟨⟨generation, e⟩, hbatch, rfl⟩ := Option.map_eq_some_iff.1 hs
    exact .inr (.inr (RawEngine.adds_mutateBatch hv hbatch))
  | snapshot order =>
    cases hs
    exact .inr (.inr (RawEngine.adds_snapshot order hv))
  | chore order => exact .inl ⟨order, rfl⟩
  | clear => exact .inr (.inl rfl)
  | clearStrategies =>
    cases hs
    exact .inr (.inr (.same hv rfl rfl rfl))
  | addStrategy strategy =>
    cases hs
    exact .inr (.inr (.same hv rfl rfl rfl))
  | addMabBody mab =>
    cases hs
    exact .inr (.inr (.same hv rfl rfl rfl))

end Adds

variable {C S M Stmt : Type} [CorpusHandler C Stmt] [RetainingCorpus C] [MutationStrategy M Stmt] [Hasher Stmt]
  [FloatFns ℚ]

section Exact

variable [Schedule S Stmt] [LawfulSchedule S Stmt] [ExactSchedule S Stmt] {s s' : Session C S M}

theorem exact_step {op : Op M Stmt} (h : RawEngine.Exact Stmt s.engine) (hs : s.step op = some s') :
    RawEngine.Exact Stmt s'.engine := by
  rcases step_adds h.valid hs with ⟨order, rfl⟩ | rfl | hadds
  · obtain ⟨e, hchore, rfl⟩ := Option.map_eq_some_iff.1 hs
    exact h.chore hchore
  · cases hs
    exact h.clear
  · exact h.of_adds hadds

/-- What holds of an exact engine at work: the keys are the ids, and each of them can be got. -/
theorem exact_run {ops : List (Op M Stmt)} (h : RawEngine.Exact Stmt s.engine) (hrun : run step s ops = some s') :
    ExactSchedule.keys Stmt s'.engine.scheduler = CorpusHandler.ids s'.engine.corpus ∧
      ∀ id ∈ ExactSchedule.keys Stmt s'.engine.scheduler, (CorpusHandler.get s'.engine.corpus id).1.isSome := by
  have hend : RawEngine.Exact Stmt s'.engine :=
    run_invariant_of_forall (I := fun s : Session C S M => RawEngine.Exact Stmt s.engine) (fun _ _ _ => exact_step) h hrun
  refine ⟨hend.keys, fun id hid => ?_⟩
  rw [hend.keys] at hid
  exact RetainingCorpus.get_isSome _ id hend.intact hid

end Exact

/-- **The scheduler knows exactly the corpus** of an engine that starts with an empty one, be it a
`FastProbabilisticMABScheduler` or a batcher around it. -/
theorem keys_eq_ids (nWorkers maxEdges : Nat) (body : BodyRef) {corpusHandler : C} (strategies : List M)
    (mabBodies : List BodyRef) (bandits : Bandits) (hc : RetainingCorpus.Intact Stmt corpusHandler)
    (hids : CorpusHandler.ids corpusHandler = ∅) {ops ops' : List (Op M Stmt)}
    {s : Session C FastProbabilisticMABScheduler M} {s' : Session C (SchedulerBatcher FastProbabilisticMABScheduler Stmt) M}
    (hrun : run step (new nWorkers maxEdges (.new body) corpusHandler strategies mabBodies bandits) ops = some s)
    (hrun' : run step (new nWorkers maxEdges ⟨.new body, []⟩ corpusHandler strategies mabBodies bandits) ops' = some s') :
    (s.engine.scheduler.entries.keys.toFinset = CorpusHandler.ids s.engine.corpus ∧
      ∀ id ∈ s.engine.scheduler.entries.keys, (CorpusHandler.get s.engine.corpus id).1.isSome) ∧
    s'.engine.scheduler.innerScheduler.entries.keys.toFinset = CorpusHandler.ids s'.engine.corpus ∧
      ∀ id ∈ s'.engine.scheduler.innerScheduler.entries.keys, (CorpusHandler.get s'.engine.corpus id).1.isSome := by
  obtain ⟨hkeys, hget⟩ := exact_run ⟨trivial, hc, hids.symm⟩ hrun
  obtain ⟨hkeys', hget'⟩ := exact_run ⟨trivial, hc, hids.symm⟩ hrun'
  exact ⟨⟨hkeys, fun id hid => hget id (List.mem_toFinset.2 hid)⟩,
    hkeys', fun id hid => hget' id (List.mem_toFinset.2 hid)⟩

end Session

/-! ## A run -/

namespace Session

attribute [local instance] FloatFns.tangent Hasher.mul

/-- Two seeds, a result, a batch and the chores. -/
def populateCommitMutate : List (Op NOOP Nat) :=
  [.populate [[⟨⟨⟨0⟩, [], [3]⟩, .default⟩], [⟨⟨⟨1⟩, [], [4]⟩, .default⟩]],
    .recv, .write 0 [1], .commitTestResult 0 (.new ⟨⟨2⟩, [], [7]⟩) ⟨false, true, 1000, 0, 1⟩,
    .mutateBatch 1 (.sorted ID) (List.replicate 65 .zero) 3, .chore (.sorted ID)]

theorem keys_eq_ids_populateCommitMutate :
    ∃ (s : Session (InMemory (CorpusEntry Nat)) FastProbabilisticMABScheduler NOOP)
      (s' : Session (InMemory (CorpusEntry Nat)) (SchedulerBatcher FastProbabilisticMABScheduler Nat) NOOP),
      run step (new 1 1 (.new 0) .new [] [0] .new) populateCommitMutate = some s ∧
      run step (new 1 1 ⟨.new 0, []⟩ .new [] [0] .new) populateCommitMutate = some s' ∧
      (s.engine.scheduler.entries.keys.toFinset = CorpusHandler.ids s.engine.corpus ∧
        ∀ id ∈ s.engine.scheduler.entries.keys, (CorpusHandler.get s.engine.corpus id).1.isSome) ∧
      s'.engine.scheduler.innerScheduler.entries.keys.toFinset = CorpusHandler.ids s'.engine.corpus ∧
        ∀ id ∈ s'.engine.scheduler.innerScheduler.entries.keys, (CorpusHandler.get s'.engine.corpus id).1.isSome := by
  have hrun : (run step (new 1 1 (.new 0) .new [] [0] .new : Session (InMemory (CorpusEntry Nat))
      FastProbabilisticMABScheduler NOOP) populateCommitMutate).isSome := by
    decide +kernel
  have hrun' : (run step (new 1 1 ⟨.new 0, []⟩ .new [] [0] .new : Session (InMemory (CorpusEntry Nat))
      (SchedulerBatcher FastProbabilisticMABScheduler Nat) NOOP) populateCommitMutate).isSome := by
    decide +kernel
  obtain ⟨s, hrun⟩ := Option.isSome_iff_exists.1 hrun
  obtain ⟨s', hrun'⟩ := Option.isSome_iff_exists.1 hrun'
  exact ⟨s, s', hrun, hrun', keys_eq_ids 1 1 0 [] [0] .new trivial rfl hrun hrun'⟩

end Session

end Lsf.Engine
