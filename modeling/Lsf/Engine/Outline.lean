import Lsf.Engine.ProbabilisticMab
import Lsf.Engine.Session

/-!
# What an engine decides by

An engine with `GreedyCoverage` over entries in memory answers commits and chores by a part of its state: the map, the
channel, the owners of edges, the diversity window, the rotation counts, the ids and the size at the last pass. `Outline`
is this part with its own transitions, in which nothing is iterated any more, and the engine refines it
(`outline_call`). The scheduler, the bandits and the order in which hash sets are iterated do not matter.
-/

namespace Lsf.Engine

open Lsf.Core Lsf.Lib Lsf.Cov Lsf.Feedback

/-! ## Rotation counts -/

namespace GreedyCoverage

/-- The count of a bad entry after one more pass. -/
def nextCount (n : Option UInt8) : UInt8 := (n.map (· + 1)).getD 0

/-- The count that is kept; an entry that was counted often enough goes. -/
def keptCount (n : Option UInt8) : Option UInt8 := if nextCount n ≥ cullAfter then none else some (nextCount n)

section Minimize

variable {C S Stmt : Type} [CorpusHandler C Stmt] [LawfulCorpus C] [Schedule S Stmt]

/-- **A pass, id by id**: every bad entry is counted, or goes; the order does not matter. -/
theorem foldlM_cull_counts {bad : List ID} (hnodup : bad.Nodup) {rotation rotation' : HashMap ID UInt8} {corpus corpus' : C}
    {scheduler scheduler' : S}
    (h : bad.foldlM (cull Stmt) (rotation, corpus, scheduler) = some (rotation', corpus', scheduler')) (id : ID) :
    rotation'.lookup id = (if id ∈ bad then keptCount (rotation.lookup id) else rotation.lookup id) ∧
      (id ∈ CorpusHandler.ids corpus' ↔
        id ∈ CorpusHandler.ids corpus ∧ (id ∈ bad → nextCount (rotation.lookup id) < cullAfter)) := by
  induction bad generalizing rotation corpus scheduler with
  | nil =>
    cases h
    simp
  | cons b bad ih =>
    obtain ⟨hb, hnodup⟩ := List.nodup_cons.1 hnodup
    rw [List.foldlM_cons] at h
    obtain ⟨⟨rotation₁, corpus₁, scheduler₁⟩, hcull, h⟩ := Option.bind_eq_some_iff.1 h
    obtain ⟨hcount, hids⟩ := ih hnodup h
    rw [hcount, hids]
    -- the first entry goes, or is counted
    simp only [cull] at hcull
    change (if nextCount (rotation.lookup b) ≥ cullAfter then _ else _) = _ at hcull
    split at hcull
    · rename_i hgo
      obtain ⟨s, -, hcull⟩ := Option.bind_eq_some_iff.1 hcull
      cases hcull
      rw [HashMap.lookup_erase_iff, LawfulCorpus.ids_remove, Finset.mem_erase]
      by_cases hid : id = b
      · subst hid
        have hlt : ¬nextCount (rotation.lookup id) < cullAfter := UInt8.not_lt.2 hgo
        simp [hb, keptCount, hgo, hlt]
      · simp [hid]
    · rename_i hstay
      cases hcull
      rw [HashMap.lookup_insert_iff]
      by_cases hid : id = b
      · subst hid
        have hkept : keptCount (rotation.lookup id) = some (nextCount (rotation.lookup id)) := if_neg hstay
        have hlt : nextCount (rotation.lookup id) < cullAfter := UInt8.not_le.1 hstay
        rw [if_neg hb, if_pos rfl, if_pos List.mem_cons_self, hkept]
        exact ⟨rfl, by simp [hb, hlt]⟩
      · simp [hid]

/-- The entries that a pass counts. -/
def badEntries (m : GreedyCoverage) (corpus : C) : Finset ID := CorpusHandler.ids corpus \ m.protectd corpus

theorem minimize_counts {m m' : GreedyCoverage} {order : HashOrder ID} {corpus corpus' : C} {scheduler scheduler' : S}
    (h : m.minimize Stmt order corpus scheduler = some (m', corpus', scheduler')) :
    m'.bestEdges = m.bestEdges ∧ m'.diversity = m.diversity ∧
      (∀ id, m'.gcRotation.lookup id =
        if id ∈ m.badEntries corpus then keptCount (m.gcRotation.lookup id) else m.gcRotation.lookup id) ∧
      ∀ id, id ∈ CorpusHandler.ids corpus' ↔ id ∈ CorpusHandler.ids corpus ∧
        (id ∈ m.badEntries corpus → nextCount (m.gcRotation.lookup id) < cullAfter) := by
  obtain ⟨⟨rotation, c, s⟩, hfold, hend⟩ := Option.bind_eq_some_iff.1 h
  cases hend
  have hcounts := foldlM_cull_counts (order.nodup _) hfold
  simp only [order.mem] at hcounts
  exact ⟨rfl, rfl, fun id => (hcounts id).1, fun id => (hcounts id).2⟩

end Minimize

/-- The rotation counts have no say in what is accepted. -/
theorem onAdd_setRotation {Stmt : Type} [Hasher Stmt] [FloatFns ℚ] (m : GreedyCoverage) (rotation : HashMap ID UInt8)
    (entry : RawEntry Stmt) (metadata : Meta) (found : EdgesFound) :
    onAdd { m with gcRotation := rotation } entry metadata found =
      (m.onAdd entry metadata found).map fun r => (r.1, { r.2 with gcRotation := rotation }) := by
  unfold onAdd
  dsimp only
  split
  · rfl
  · split
    · cases m.bestEdges.updateIfBest entry.id entry.ast.length found.all.length metadata.execTime found.all with
      | none => rfl
      | some r =>
        simp only [Option.bind_eq_bind, Option.bind_some]
        split
        · rfl
        · split <;> rfl
    · rfl

theorem gcRotation_onAdd {Stmt : Type} [Hasher Stmt] [FloatFns ℚ] {m m' : GreedyCoverage} {entry : RawEntry Stmt}
    {metadata : Meta} {found : EdgesFound} {outcome : TestOutcome}
    (h : m.onAdd entry metadata found = some (outcome, m')) : m'.gcRotation = m.gcRotation := by
  have hset := onAdd_setRotation m m.gcRotation entry metadata found
  change m.onAdd entry metadata found = _ at hset
  rw [h, Option.map_some, Option.some.injEq, Prod.mk.injEq] at hset
  rw [hset.2]

end GreedyCoverage

/-! ## Calls -/

/-- What an engine is asked for while results come in. The hash sets of two engines may be iterated in different orders,
so that a `chore` comes with one for each. -/
inductive Call (Stmt : Type) where
  | recv
  | commitTestResult (rawEntry : Entry Stmt) (metadata : Meta) (shmem : IPCToken)
  | chore (orders : HashOrder ID × HashOrder ID)

/-- What is seen of a call: the outcome of a commit, and whether a `chore` runs `minimize`. -/
inductive Reply where
  | received (token : IPCToken)
  | committed (outcome : TestOutcome)
  | chored (minimizes : Bool)
  deriving DecidableEq

/-- An engine that keeps its entries in memory. -/
abbrev MemEngine (M Stmt : Type) := RawEngine (InMemory (CorpusEntry Stmt)) FastProbabilisticMABScheduler M

abbrev MemSession (M Stmt : Type) := Session (InMemory (CorpusEntry Stmt)) FastProbabilisticMABScheduler M

namespace RawEngine

variable {M Stmt : Type} [FloatFns ℚ]

/-- One call; `pick` says which of the two orders is that of this engine. -/
def call [Hasher Stmt] (pick : HashOrder ID × HashOrder ID → HashOrder ID) (e : MemEngine M Stmt) :
    Call Stmt → Option (Reply × MemEngine M Stmt)
  | .recv => e.shmemQueue.recv.map fun (token, q) => (.received token, { e with shmemQueue := q })
  | .commitTestResult rawEntry metadata shmem =>
    (e.commitTestResult rawEntry metadata shmem).map fun (outcome, e) => (.committed outcome, e)
  | .chore orders => (e.chore Stmt (pick orders)).map fun e' => (.chored (e.minimizes Stmt), e')

end RawEngine

/-! ## Outlines -/

/-- What an engine decides by. -/
structure Outline where
  edgeMap : EdgeMap
  shmemQueue : SharedMemHandle
  bestEdges : ScoredEdges
  diversity : DiversityEscape
  counts : ID → Option UInt8
  ids : Finset ID
  sizeAtLastReset : Nat

/-- The outline of an engine. -/
def RawEngine.outline {M Stmt : Type} (e : MemEngine M Stmt) : Outline where
  edgeMap := e.edgeMap
  shmemQueue := e.shmemQueue
  bestEdges := e.minimizer.bestEdges
  diversity := e.minimizer.diversity
  counts id := e.minimizer.gcRotation.lookup id
  ids := CorpusHandler.ids e.corpus
  sizeAtLastReset := e.sizeAtLastReset

namespace Outline

/-- A pass is due. -/
def minimizes (o : Outline) : Bool :=
  let newEntries := o.ids.card - o.sizeAtLastReset
  RawEngine.hasGrown newEntries o.sizeAtLastReset ∧ newEntries ≥ RawEngine.gcMinAbsolute

/-- The entries that a pass counts: those that own no edge and are not in the diversity window. -/
def bad (o : Outline) : Finset ID := o.ids \ (o.bestEdges.getBestEntries ∪ o.diversity.entries.toFinset)

/-- The entries that a pass leaves. -/
def left (o : Outline) : Finset ID := o.ids.filter fun id => id ∈ o.bad → GreedyCoverage.nextCount (o.counts id) < cullAfter

def minimize (o : Outline) : Outline := { o with
  counts := fun id => if id ∈ o.bad then GreedyCoverage.keptCount (o.counts id) else o.counts id
  ids := o.left
  sizeAtLastReset := o.left.card }

/-- A pass over entries that were never counted leaves them all. -/
theorem left_of_uncounted {o : Outline} (h : ∀ id ∈ o.ids, o.counts id = none) : o.left = o.ids := by
  refine Finset.filter_true_of_mem fun id hid _ => ?_
  rw [h id hid]
  decide

variable {Stmt : Type} [Hasher Stmt] [FloatFns ℚ]

def commitTestResult (o : Outline) (rawEntry : Entry Stmt) (metadata : Meta) (shmem : IPCToken) :
    Option (TestOutcome × Outline) := do
  let (newEdges, edgeMap, shmemQueue) ← o.shmemQueue.collect o.edgeMap shmem
  let (accepted, m) ← (⟨o.bestEdges, o.diversity, ∅⟩ : GreedyCoverage).onAdd rawEntry.entry
    { metadata with newCovNodes := newEdges.new.length } newEdges
  some (accepted, { o with
    edgeMap := edgeMap
    shmemQueue := shmemQueue
    bestEdges := m.bestEdges
    diversity := m.diversity
    ids := match accepted with
      | .rejected _ => o.ids
      | _ => insert rawEntry.entry.id o.ids })

def call (o : Outline) : Call Stmt → Option (Reply × Outline)
  | .recv => o.shmemQueue.recv.map fun (token, q) => (.received token, { o with shmemQueue := q })
  | .commitTestResult rawEntry metadata shmem =>
    (o.commitTestResult rawEntry metadata shmem).map fun (outcome, o) => (.committed outcome, o)
  | .chore _ => some (.chored o.minimizes, if o.minimizes then o.minimize else o)

end Outline

/-! ## The engine refines its outline -/

namespace RawEngine

variable {M Stmt : Type} [Hasher Stmt] [FloatFns ℚ] {e : MemEngine M Stmt}

omit [Hasher Stmt] [FloatFns ℚ] in
theorem badEntries_eq_bad (e : MemEngine M Stmt) : e.minimizer.badEntries e.corpus = e.outline.bad := by
  unfold GreedyCoverage.badEntries GreedyCoverage.protectd Outline.bad
  simp [outline, CorpusHandler.protectedIds]

omit [Hasher Stmt] in
theorem minimizes_outline (e : MemEngine M Stmt) : e.outline.minimizes = e.minimizes Stmt := by
  have hcard : (CorpusHandler.ids e.corpus).card = CorpusHandler.size e.corpus := HashMap.card_keySet e.corpus.inner
  unfold Outline.minimizes minimizes outline corpusSize resize
  dsimp only
  rw [hcard]
  rfl

omit [Hasher Stmt] in
theorem outline_minimize {order : HashOrder ID} {e' : MemEngine M Stmt} (h : e.minimize Stmt order = some e') :
    e'.outline = e.outline.minimize := by
  obtain ⟨⟨m, c, s⟩, hmin, hend⟩ := Option.bind_eq_some_iff.1 h
  cases hend
  obtain ⟨hbest, hdiversity, hcounts, hids⟩ := GreedyCoverage.minimize_counts hmin
  rw [badEntries_eq_bad] at hcounts hids
  have hleft : CorpusHandler.ids c = e.outline.left := by
    ext id
    rw [hids, Outline.left, Finset.mem_filter]
    rfl
  have hcard : (CorpusHandler.ids c).card = CorpusHandler.size c := HashMap.card_keySet c.inner
  unfold Outline.minimize
  rw [← hleft, hcard]
  unfold outline
  simp only [hbest, hdiversity, Outline.mk.injEq, true_and]
  exact ⟨funext hcounts, trivial⟩

omit [Hasher Stmt] in
theorem outline_addEntry (score : F64 → F64) (entry : CorpusEntry Stmt) :
    ∃ e', e.addEntry score entry = some e' ∧
      e'.outline = { e.outline with ids := insert entry.id e.outline.ids } := by
  refine ⟨_, rfl, ?_⟩
  unfold outline
  dsimp only
  rw [LawfulCorpus.ids_insert]

omit [Hasher Stmt] in
theorem outline_foldlM_addEntry (score : F64 → F64) (entries : List (CorpusEntry Stmt)) (e : MemEngine M Stmt) :
    ∃ e', entries.foldlM (addEntry score) e = some e' ∧
      e'.outline = { e.outline with ids := e.outline.ids ∪ (entries.map CorpusEntry.id).toFinset } := by
  induction entries generalizing e with
  | nil => exact ⟨e, rfl, by simp⟩
  | cons entry entries ih =>
    obtain ⟨e₁, hadd, houtline⟩ := outline_addEntry score (e := e) entry
    obtain ⟨e', hrest, houtline'⟩ := ih e₁
    refine ⟨e', by rw [List.foldlM_cons, hadd]; exact hrest, ?_⟩
    rw [houtline', houtline, List.map_cons, List.toFinset_cons, Finset.insert_union, Finset.union_insert]

omit [Hasher Stmt] in
/-- `populate` adds the ids of the seeds. -/
theorem outline_populate (seeds : List (CorpusEntry Stmt)) (e : MemEngine M Stmt) : ∃ e', e.populate [seeds] = some e' ∧
    e'.outline = { e.outline with ids := e.outline.ids ∪ (seeds.map CorpusEntry.id).toFinset } := by
  obtain ⟨e', hadd, houtline⟩ := outline_foldlM_addEntry (fun _ => .posInf) seeds e
  refine ⟨e', ?_, houtline⟩
  unfold populate
  rw [List.flatten_singleton]
  exact hadd

omit [Hasher Stmt] in
theorem outline_conclude (accepted : TestOutcome) (entry : CorpusEntry Stmt) :
    ∃ e', conclude accepted entry e = some (accepted, e') ∧ e'.outline = { e.outline with
      ids := match accepted with
        | .rejected _ => e.outline.ids
        | _ => insert entry.id e.outline.ids } := by
  obtain ⟨e', hadd, houtline⟩ := outline_addEntry id (e := e) entry
  cases accepted with
  | rejected reason => exact ⟨e, rfl, rfl⟩
  | _ => exact ⟨e', by simp [conclude, commitGeneration, hadd], houtline⟩

theorem outline_commitTestResult (rawEntry : Entry Stmt) (metadata : Meta) (shmem : IPCToken) :
    (e.commitTestResult rawEntry metadata shmem).map (fun r => (r.1, r.2.outline)) =
      e.outline.commitTestResult rawEntry metadata shmem := by
  unfold RawEngine.commitTestResult Outline.commitTestResult
  change _ = (e.shmemQueue.collect e.edgeMap shmem).bind _
  cases e.shmemQueue.collect e.edgeMap shmem with
  | none => rfl
  | some collected =>
    obtain ⟨newEdges, edgeMap, shmemQueue⟩ := collected
    have hset := e.minimizer.onAdd_setRotation ∅ rawEntry.entry { metadata with newCovNodes := newEdges.new.length } newEdges
    simp only [Option.bind_eq_bind, Option.bind_some]
    change _ = (GreedyCoverage.onAdd { e.minimizer with gcRotation := ∅ } rawEntry.entry
      { metadata with newCovNodes := newEdges.new.length } newEdges).bind _
    rw [hset]
    cases hadd : e.minimizer.onAdd rawEntry.entry { metadata with newCovNodes := newEdges.new.length } newEdges with
    | none => rfl
    | some judged =>
      obtain ⟨accepted, m⟩ := judged
      have hrotation := GreedyCoverage.gcRotation_onAdd hadd
      simp only [Option.bind_some, Option.map_some]
      obtain ⟨e', hconclude, houtline⟩ := outline_conclude
        (e := { e with
          edgeMap := edgeMap, shmemQueue := shmemQueue, minimizer := m
          bandits := (e.bandits.fireRuleHooks rawEntry accepted
            { metadata with newCovNodes := newEdges.new.length }).2 }) accepted
        (rawEntry.entry.intoCorpusEntry { metadata with newCovNodes := newEdges.new.length })
      refine (congrArg (Option.map _) hconclude).trans ?_
      rw [Option.map_some, houtline]
      unfold outline
      dsimp only
      rw [hrotation]
      rfl

omit [Hasher Stmt] in
/-- A `chore` always returns. -/
theorem outline_chore (order : HashOrder ID) (e : MemEngine M Stmt) :
    ∃ e', e.chore Stmt order = some e' ∧ e'.outline = if e.outline.minimizes then e.outline.minimize else e.outline := by
  rw [chore_eq, minimizes_outline]
  split
  · have hvalid : LawfulSchedule.Valid Stmt (Schedule.chore Stmt e.scheduler) := trivial
    obtain ⟨m, c, s, heq, -⟩ := e.minimizer.minimize_spec order (CorpusHandler.resize e.corpus) hvalid
    have hmin : (e.resize Stmt).minimize Stmt order = some { e.resize Stmt with
        minimizer := m, corpus := c, scheduler := s, sizeAtLastReset := CorpusHandler.size c } := by
      simp only [minimize, resize, heq]
      rfl
    exact ⟨_, hmin, outline_minimize hmin⟩
  · exact ⟨_, rfl, rfl⟩

/-- **The engine refines its outline.** -/
theorem outline_call (pick : HashOrder ID × HashOrder ID → HashOrder ID) (e : MemEngine M Stmt) (c : Call Stmt) :
    (e.call pick c).map (fun r => (r.1, r.2.outline)) = e.outline.call c := by
  cases c with
  | recv =>
    unfold call Outline.call
    change _ = Option.map _ e.shmemQueue.recv
    cases e.shmemQueue.recv <;> rfl
  | commitTestResult rawEntry metadata shmem =>
    have hcommit := outline_commitTestResult (e := e) rawEntry metadata shmem
    unfold call Outline.call
    dsimp only
    rw [← hcommit, Option.map_map, Option.map_map]
    rfl
  | chore orders =>
    obtain ⟨e', hchore, houtline⟩ := outline_chore (pick orders) e
    unfold call Outline.call
    dsimp only
    rw [hchore, Option.map_some, Option.map_some, houtline, minimizes_outline]

end RawEngine

end Lsf.Engine
