import Lsf.Engine.Generations

/-!
# No coverage is lost

Every edge that a committed result has hit since the last `clear` is owned by an entry that the corpus still has and that
hit the edge itself (`no_coverage_lost`). An owner enters the corpus with the commit that makes it one, and leaves it only
when `clear` forgets all owners: what `minimize` removes owns no edge, because owners are protected.
-/

namespace Lsf.Engine

open Lsf.Core Lsf.Lib Lsf.Cov Lsf.Feedback

namespace Session

variable {C S M Stmt : Type} [CorpusHandler C Stmt] [Schedule S Stmt] [LawfulSchedule S Stmt]

section Covered

variable [RetainingCorpus C]

/-- Every edge of a committed result has an owner, and every owner is in the corpus and was committed with the edge. -/
structure Covered (s : Session C S M) : Prop where
  intact : RetainingCorpus.Intact Stmt s.engine.corpus
  covered : ∀ r ∈ s.commits, ∀ edge ∈ hits r.map, (s.engine.minimizer.bestEdges.owner edge).isSome
  kept : ∀ edge o, s.engine.minimizer.bestEdges.owner edge = some o → o.id ∈ CorpusHandler.ids s.engine.corpus
  earned : ∀ edge o, s.engine.minimizer.bestEdges.owner edge = some o →
    ∃ r ∈ s.commits, r.id = o.id ∧ edge ∈ hits r.map

omit [Schedule S Stmt] [LawfulSchedule S Stmt] in
theorem covered_new (nWorkers maxEdges : Nat) (scheduler : S) {corpusHandler : C} (strategies : List M)
    (mabBodies : List BodyRef) (bandits : Bandits) (hc : RetainingCorpus.Intact Stmt corpusHandler) :
    Covered (new nWorkers maxEdges scheduler corpusHandler strategies mabBodies bandits) where
  intact := hc
  covered r hr := by cases hr
  kept edge o ho := by cases (GreedyCoverage.owner_new maxEdges edge).symm.trans ho
  earned edge o ho := by cases (GreedyCoverage.owner_new maxEdges edge).symm.trans ho

variable [Hasher Stmt] [FloatFns ℚ] {s s' : Session C S M}

omit [Schedule S Stmt] [LawfulSchedule S Stmt] [Hasher Stmt] [FloatFns ℚ] in
/-- Where the owners and the commits stay, it is enough that the corpus keeps the owners. -/
theorem Covered.of_bestEdges (h : Covered s) (hbest : s'.engine.minimizer.bestEdges = s.engine.minimizer.bestEdges)
    (hcommits : s'.commits = s.commits) (hintact : RetainingCorpus.Intact Stmt s'.engine.corpus)
    (hkept : ∀ edge o, s.engine.minimizer.bestEdges.owner edge = some o →
      o.id ∈ CorpusHandler.ids s'.engine.corpus) : Covered s' where
  intact := hintact
  covered := by
    rw [hbest, hcommits]
    exact h.covered
  kept := by
    rw [hbest]
    exact hkept
  earned := by
    rw [hbest, hcommits]
    exact h.earned

omit [RetainingCorpus C] in
/-- A commit only adds to the corpus, if anything. -/
theorem retains_of_commits {e e' : RawEngine C S M} {rawEntry : Entry Stmt} {metadata : Meta} {shmem : IPCToken}
    {found : EdgesFound} {outcome : TestOutcome} (h : RawEngine.Commits e rawEntry metadata shmem found outcome e') :
    Retains e.corpus e'.corpus := by
  rcases h.judged.judged with hrej | hacc
  · rw [h.rejected hrej]
    exact .refl
  · obtain ⟨⟨s, hinsert⟩, -⟩ := h.accepted hacc
    rw [hinsert]
    exact .insert _ s .refl

/-- **A commit keeps everything covered**: the edges of the result have owners now, and a new owner was inserted. -/
theorem Covered.commit (h : Covered s) {token : IPCToken} {rawEntry : Entry Stmt} {metadata : Meta} {found : EdgesFound}
    {outcome : TestOutcome} (hengine : RawEngine.Commits s.engine rawEntry metadata token found outcome s'.engine)
    (hcommits : s'.commits = s.commits ++ [⟨rawEntry.entry.id, token.asEdgeMap⟩]) : Covered s' := by
  have hretains := retains_of_commits hengine
  have howner : ∀ edge o, s'.engine.minimizer.bestEdges.owner edge = some o →
      s.engine.minimizer.bestEdges.owner edge = some o ∨
        (edge ∈ hits token.asEdgeMap ∧ o.id = rawEntry.entry.id ∧ ∃ a, outcome = .accepted a) := by
    intro edge o ho
    rw [← hengine.updated.mem_all_iff]
    exact hengine.judged.owner edge o ho
  constructor
  · exact hretains.intact h.intact
  · intro r hr edge hedge
    rw [hcommits] at hr
    rcases List.mem_append.1 hr with hr | hr
    · exact hengine.judged.owned edge (.inr (h.covered r hr edge hedge))
    · rw [List.mem_singleton.1 hr] at hedge
      exact hengine.judged.owned edge (.inl (hengine.updated.mem_all_iff.2 hedge))
  · intro edge o ho
    rcases howner edge o ho with ho | ⟨-, hid, hacc⟩
    · exact hretains.ids_subset (h.kept edge o ho)
    · obtain ⟨⟨s, hinsert⟩, -⟩ := hengine.accepted hacc
      rw [hinsert, LawfulCorpus.ids_insert, hid]
      exact Finset.mem_insert_self _ _
  · intro edge o ho
    rw [hcommits]
    rcases howner edge o ho with ho | ⟨hedge, hid, -⟩
    · obtain ⟨r, hr, hrid, hredge⟩ := h.earned edge o ho
      exact ⟨r, List.mem_append_left _ hr, hrid, hredge⟩
    · exact ⟨_, List.mem_append_right _ (List.mem_singleton_self _), hid.symm, hedge⟩

variable [MutationStrategy M Stmt] [LawfulLog] {op : Op M Stmt}

theorem covered_step (hs : Sound Stmt s) (hc : Covered s) (h : s.step op = some s') : Covered s' := by
  cases step_cases hs h with
  | quiet hquiet hout hcommits =>
    refine hc.of_bestEdges (by rw [hquiet.minimizer]) hcommits (hquiet.corpus.intact hc.intact) ?_
    intro edge o ho
    exact hquiet.corpus.ids_subset (hc.kept edge o ho)
  | tokens q hengine hsize htokens hcommits =>
    refine hc.of_bestEdges (by rw [hengine]) hcommits (by rw [hengine]; exact hc.intact) ?_
    rw [hengine]
    exact hc.kept
  | committed i token rawEntry metadata found outcome hi hengine hout hcommits => exact hc.commit hengine hcommits
  | swept hswept hout hcommits =>
    refine hc.of_bestEdges hswept.bestEdges hcommits
      (hswept.corpus.intact (RetainingCorpus.intact_resize _ hc.intact)) ?_
    intro edge o ho
    apply hswept.corpus.mem_ids (GreedyCoverage.owner_mem_protectd ho)
    rw [LawfulCorpus.ids_resize]
    exact hc.kept edge o ho
  | cleared hengine hout hcommits =>
    have hnone : ∀ edge, s'.engine.minimizer.bestEdges.owner edge = none := by
      intro edge
      rw [hengine]
      exact GreedyCoverage.owner_reset s.engine.minimizer edge
    constructor
    · rw [hengine]
      exact RetainingCorpus.intact_clear _ hc.intact
    · rw [hcommits]
      simp
    · intro edge o ho
      cases (hnone edge).symm.trans ho
    · intro edge o ho
      cases (hnone edge).symm.trans ho

/-- **No coverage is lost**, in any session: an edge that was set in the map of a result committed since the last
`clear` has a best entry, which is in the corpus, can be got, and was committed with the edge set. -/
theorem no_coverage_lost (nWorkers maxEdges : Nat) {scheduler : S} {corpusHandler : C} (strategies : List M)
    (mabBodies : List BodyRef) (bandits : Bandits) (hv : LawfulSchedule.Valid Stmt scheduler)
    (hc : RetainingCorpus.Intact Stmt corpusHandler) {ops : List (Op M Stmt)} {s : Session C S M}
    (hrun : run step (new nWorkers maxEdges scheduler corpusHandler strategies mabBodies bandits) ops = some s)
    {r : Committed} (hr : r ∈ s.commits) {edge : Nat} (hedge : edge ∈ hits r.map) :
    ∃ o, s.engine.minimizer.bestEdges.owner edge = some o ∧ o.id ∈ CorpusHandler.ids s.engine.corpus ∧
      (CorpusHandler.get s.engine.corpus o.id).1.isSome ∧ ∃ r' ∈ s.commits, r'.id = o.id ∧ edge ∈ hits r'.map := by
  have hcovered : Sound Stmt s ∧ Covered s := by
    refine run_invariant_of_forall (I := fun s => Sound Stmt s ∧ Covered s) ?_ ?_ hrun
    · intro s op s' h hstep
      exact ⟨sound_step h.1 hstep, covered_step h.1 h.2 hstep⟩
    · exact ⟨sound_new nWorkers maxEdges corpusHandler strategies mabBodies bandits hv,
        covered_new nWorkers maxEdges scheduler strategies mabBodies bandits hc⟩
  obtain ⟨o, ho⟩ := Option.isSome_iff_exists.1 (hcovered.2.covered r hr edge hedge)
  have hkept := hcovered.2.kept edge o ho
  exact ⟨o, ho, hkept, RetainingCorpus.get_isSome _ _ hcovered.2.intact hkept, hcovered.2.earned edge o ho⟩

end Covered

end Session

/-! ## A run in which a committed entry is culled -/

namespace Session

attribute [local instance] FloatFns.tangent LawfulLog.tangent Hasher.mul

/-- An entry hits the edge, a faster one takes it over, and a faster one still; they have one AST, so that only the first
of them is diverse. -/
def hitTakeOver : List (Op NOOP Nat) :=
  [.recv, .write 0 [1], .commitTestResult 0 (.new ⟨⟨0⟩, [], [7]⟩) ⟨false, true, 1000, 0, 1⟩,
    .recv, .write 0 [1], .commitTestResult 0 (.new ⟨⟨1⟩, [], [7]⟩) ⟨false, true, 100, 0, 1⟩,
    .recv, .write 0 [1], .commitTestResult 0 (.new ⟨⟨2⟩, [], [7]⟩) ⟨false, true, 10, 0, 1⟩]

/-- Six passes over the entries and the seeds that come after them. -/
def hitTakeOverCull : List (Op NOOP Nat) :=
  hitTakeOver ++ (generations (.sorted ID) doubling 5 ++ [.chore (.sorted ID)])

/-- The second of the three is neither diverse nor the owner of the edge, so that all six passes are bad for it. -/
theorem exists_run_hitTakeOverCull : ∃ s : MemSession NOOP Nat,
    run step (new 1 1 (.new 0) .new [] [0] .new) hitTakeOverCull = some s ∧ (⟨⟨1⟩, [1]⟩ : Committed) ∈ s.commits ∧
      (⟨1⟩ : ID) ∉ CorpusHandler.ids s.engine.corpus := by
  have hfirst : (run step (new 1 1 (.new 0) .new [] [0] .new : MemSession NOOP Nat) hitTakeOver).map (fun s =>
      (s.commits, s.engine.outline.shield, s.engine.outline.ids, s.engine.minimizer.gcRotation.keys,
        s.engine.sizeAtLastReset)) =
      some ([⟨⟨0⟩, [1]⟩, ⟨⟨1⟩, [1]⟩, ⟨⟨2⟩, [1]⟩], {⟨0⟩, ⟨2⟩}, {⟨0⟩, ⟨1⟩, ⟨2⟩}, [], 0) := by
    decide +kernel
  obtain ⟨s, hrun, heq⟩ := Option.map_eq_some_iff.1 hfirst
  simp only [Prod.mk.injEq] at heq
  obtain ⟨hcommits, hshield, hids, hkeys, hsize⟩ := heq
  have hA : Generations {⟨0⟩, ⟨2⟩} {⟨0⟩, ⟨2⟩} (joined {⟨1⟩}) 5 :=
    generations_joined (Finset.Subset.refl _) (by decide) (by decide) (by decide) (by decide)
  have hcounts : ∀ id, s.engine.outline.counts id = none := by
    intro id
    apply AList.lookup_eq_none.2
    intro hin
    rw [AList.mem_keys, hkeys] at hin
    cases hin
  have hstart : s.engine.outline.ids ∪ ((doubling 0).map CorpusEntry.id).toFinset = {⟨0⟩, ⟨2⟩} ∪ joined {⟨1⟩} 0 := by
    rw [hids, joined_zero, ← Finset.union_assoc]
    exact congrArg (· ∪ doublingIds 0) (by decide)
  obtain ⟨e, hgenerations, hready⟩ := exists_run_generations hA (.sorted ID) doubling (joined_succ _) hshield
    hstart hcounts hsize le_rfl
  obtain ⟨e', hchore, houtline⟩ := exists_step_chore (.sorted ID) { s with engine := e }
  refine ⟨{ s with engine := e' }, ?_, by simp [hcommits], ?_⟩
  · unfold hitTakeOverCull
    rw [run_append, hrun, Option.bind_some, run_append, hgenerations]
    exact run_cons_eq_some.2 ⟨_, hchore, rfl⟩
  · have hsecond : (⟨1⟩ : ID) ∈ joined {⟨1⟩} 0 := by
      rw [joined_zero]
      exact Finset.mem_union_left _ (Finset.mem_singleton_self _)
    have hids' : CorpusHandler.ids e'.corpus = e.outline.chore.ids := congrArg Outline.ids houtline
    show (⟨1⟩ : ID) ∉ CorpusHandler.ids e'.corpus
    rw [hids']
    exact (hready.goes hA le_rfl rfl hsecond).2

/-- The coverage of a culled entry is kept, in memory; and with caches of one entry each, that of what is on disk. -/
theorem no_coverage_lost_hitTakeOver :
    (∃ s : MemSession NOOP Nat, run step (new 1 1 (.new 0) .new [] [0] .new) hitTakeOverCull = some s ∧
      (⟨1⟩ : ID) ∉ CorpusHandler.ids s.engine.corpus ∧
      ∃ o, s.engine.minimizer.bestEdges.owner 0 = some o ∧ o.id ∈ CorpusHandler.ids s.engine.corpus ∧
        (CorpusHandler.get s.engine.corpus o.id).1.isSome ∧ ∃ r' ∈ s.commits, r'.id = o.id ∧ 0 ∈ hits r'.map) ∧
    ∃ s : Session (DynamicCorpus Nat (InMemory (AST Nat)) (ListQueue ID F64.Reverse)) FastProbabilisticMABScheduler NOOP,
      run step (new 1 1 (.new 0) (.new ⟨1, 1, 1, .sorted ID⟩ .new) [] [0] .new) hitTakeOver = some s ∧
      ∃ o, s.engine.minimizer.bestEdges.owner 0 = some o ∧ o.id ∈ CorpusHandler.ids s.engine.corpus ∧
        (CorpusHandler.get s.engine.corpus o.id).1.isSome ∧ ∃ r' ∈ s.commits, r'.id = o.id ∧ 0 ∈ hits r'.map := by
  constructor
  · obtain ⟨s, hrun, hr, hgone⟩ := exists_run_hitTakeOverCull
    exact ⟨s, hrun, hgone, no_coverage_lost 1 1 [] [0] .new trivial trivial hrun hr (by decide)⟩
  · have hcommits : (run step (new 1 1 (.new 0) (.new ⟨1, 1, 1, .sorted ID⟩ .new) [] [0] .new :
        Session (DynamicCorpus Nat (InMemory (AST Nat)) (ListQueue ID F64.Reverse)) FastProbabilisticMABScheduler NOOP)
        hitTakeOver).map Session.commits = some [⟨⟨0⟩, [1]⟩, ⟨⟨1⟩, [1]⟩, ⟨⟨2⟩, [1]⟩] := by
      decide +kernel
    obtain ⟨s, hrun, hcommits⟩ := Option.map_eq_some_iff.1 hcommits
    have hr : (⟨⟨1⟩, [1]⟩ : Committed) ∈ s.commits := by simp [hcommits]
    exact ⟨s, hrun, no_coverage_lost 1 1 [] [0] .new trivial (DynamicCorpus.intact_new _ _) hrun hr (by decide)⟩

end Session

end Lsf.Engine
