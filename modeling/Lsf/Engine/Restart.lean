import Lsf.Engine.Outline

/-!
# Starting over

`clear` is there to start over with nothing but the edges that were seen. It leaves two things that a new engine does not
have: the size at the last pass of `minimize`, by which `chore` measures growth, and the rotation counts of
`GreedyCoverage`. A cleared engine reacts like a new one exactly as long as no `chore` finds a corpus that is large enough
but has not grown against the old size, and no pass drops an entry by a count that it had before (`reactions_eq_iff`).
-/

namespace Lsf.Engine

open Lsf.Core Lsf.Lib Lsf.Cov Lsf.Feedback

/-! ## Reactions -/

/-- An engine, and whether it ran `minimize` since it is watched. -/
structure Watched (M Stmt : Type) where
  engine : MemEngine M Stmt
  collected : Bool

/-- What is seen of a call and of the corpus after it. -/
structure Reaction where
  reply : Reply
  ids : Finset ID

/-- One call; after a panic there is nothing any more. -/
def react {M Stmt : Type} [Hasher Stmt] [FloatFns ℚ] (pick : HashOrder ID × HashOrder ID → HashOrder ID) :
    Option (Watched M Stmt) → Call Stmt → Option Reaction × Option (Watched M Stmt)
  | none, _ => (none, none)
  | some w, c =>
    match w.engine.call pick c with
    | none => (none, none)
    | some (reply, e) => (some ⟨reply, CorpusHandler.ids e.corpus⟩, some ⟨e, w.collected || reply = .chored true⟩)

/-- **What is left from before does not matter to a `chore`.** The first pass is not put off by the old size, and no pass
drops an entry with an old count; `stale` are the ids that have one. -/
structure Harmless (stale : Finset ID) (collected : Bool) (o : Outline) : Prop where
  due : collected = false → RawEngine.gcMinAbsolute ≤ o.ids.card → o.minimizes
  kept : o.minimizes → ∀ id ∈ o.bad, id ∈ stale → GreedyCoverage.nextCount (o.counts id) < cullAfter

/-- Every `chore` is harmless. -/
def Unaffected {M Stmt : Type} (stale : Finset ID) : Option (Watched M Stmt) → Call Stmt → Prop
  | some w, .chore _ => Harmless stale w.collected w.engine.outline
  | _, _ => True

/-! ## Outlines that are alike -/

/-- The first outline has old counts, which are ahead of the new ones, and until the first pass an old size. -/
structure Alike (stale : Finset ID) (collected : Bool) (o f : Outline) : Prop where
  edgeMap : o.edgeMap = f.edgeMap
  shmemQueue : o.shmemQueue = f.shmemQueue
  bestEdges : o.bestEdges = f.bestEdges
  diversity : o.diversity = f.diversity
  ids : o.ids = f.ids
  size : collected = true → o.sizeAtLastReset = f.sizeAtLastReset
  start : collected = false → f.sizeAtLastReset = 0
  counts : ∀ id ∉ stale, o.counts id = f.counts id
  ahead : ∀ id ∈ stale, ∃ n, o.counts id = some n ∧ n < cullAfter ∧ ∀ k, f.counts id = some k → k < n

namespace Alike

variable {stale : Finset ID} {collected : Bool} {o f : Outline}

theorem bad_eq (h : Alike stale collected o f) : o.bad = f.bad := by
  unfold Outline.bad
  rw [h.ids, h.bestEdges, h.diversity]

/-- A new engine runs its first pass over a hundred entries. -/
theorem minimizes_start {f : Outline} (hsize : f.sizeAtLastReset = 0) :
    f.minimizes = true ↔ RawEngine.gcMinAbsolute ≤ f.ids.card := by
  unfold Outline.minimizes
  rw [hsize]
  simp only [Nat.sub_zero, RawEngine.hasGrown, if_true, decide_eq_true_eq]
  refine ⟨And.right, fun hle => ⟨?_, hle⟩⟩
  unfold RawEngine.gcMinAbsolute at hle
  omega

theorem card_le_of_minimizes (h : o.minimizes = true) : RawEngine.gcMinAbsolute ≤ o.ids.card := by
  unfold Outline.minimizes at h
  have hge := (of_decide_eq_true h).2
  omega

/-- Both run a pass, or neither. -/
theorem minimizes_eq (h : Alike stale collected o f)
    (hdue : collected = false → RawEngine.gcMinAbsolute ≤ o.ids.card → o.minimizes) : o.minimizes = f.minimizes := by
  cases collected with
  | true =>
    unfold Outline.minimizes
    rw [h.ids, h.size rfl]
  | false =>
    rw [Bool.eq_iff_iff, minimizes_start (h.start rfl), ← h.ids]
    exact ⟨card_le_of_minimizes, hdue rfl⟩

/-- A count that is behind stays behind. -/
theorem nextCount_lt {n : UInt8} {c : Option UInt8} (hn : n < cullAfter) (hc : ∀ k, c = some k → k < n) :
    GreedyCoverage.nextCount c < GreedyCoverage.nextCount (some n) := by
  unfold cullAfter at hn
  cases c with
  | none =>
    simp only [GreedyCoverage.nextCount, Option.map_none, Option.map_some, Option.getD_none, Option.getD_some,
      UInt8.lt_iff_toNat_lt, UInt8.toNat_add, UInt8.toNat_ofNat] at *
    omega
  | some k =>
    have hk := hc k rfl
    simp only [GreedyCoverage.nextCount, Option.map_some, Option.getD_some, UInt8.lt_iff_toNat_lt, UInt8.toNat_add,
      UInt8.toNat_ofNat] at *
    omega

/-- No pass of the new engine drops an entry with an old count. -/
theorem nextCount_fresh_lt (h : Alike stale collected o f) {id : ID} (hid : id ∈ stale) :
    GreedyCoverage.nextCount (f.counts id) < cullAfter := by
  obtain ⟨n, -, hn, hahead⟩ := h.ahead id hid
  have hlt := nextCount_lt hn hahead
  unfold cullAfter at *
  simp only [GreedyCoverage.nextCount, Option.map_some, Option.getD_some, UInt8.lt_iff_toNat_lt, UInt8.toNat_add,
    UInt8.toNat_ofNat] at *
  omega

theorem left_eq (h : Alike stale collected o f)
    (hkept : ∀ id ∈ o.bad, id ∈ stale → GreedyCoverage.nextCount (o.counts id) < cullAfter) : o.left = f.left := by
  unfold Outline.left
  rw [h.ids, h.bad_eq]
  refine Finset.filter_congr fun id _ => forall_congr' fun hbad => ?_
  by_cases hid : id ∈ stale
  · exact iff_of_true (hkept id (h.bad_eq ▸ hbad) hid) (h.nextCount_fresh_lt hid)
  · rw [h.counts id hid]

/-- A pass that drops no entry with an old count. -/
theorem minimize (h : Alike stale collected o f)
    (hkept : ∀ id ∈ o.bad, id ∈ stale → GreedyCoverage.nextCount (o.counts id) < cullAfter) :
    Alike stale true o.minimize f.minimize where
  edgeMap := h.edgeMap
  shmemQueue := h.shmemQueue
  bestEdges := h.bestEdges
  diversity := h.diversity
  ids := h.left_eq hkept
  size _ := congrArg Finset.card (h.left_eq hkept)
  start hfalse := by cases hfalse
  counts id hid := by
    simp only [Outline.minimize, h.bad_eq, h.counts id hid]
  ahead id hid := by
    obtain ⟨n, hn, hlt, hahead⟩ := h.ahead id hid
    simp only [Outline.minimize, ← h.bad_eq]
    by_cases hbad : id ∈ o.bad
    · have hcount := hkept id hbad hid
      rw [hn] at hcount
      refine ⟨GreedyCoverage.nextCount (some n), ?_, hcount, fun k hk => ?_⟩
      · rw [if_pos hbad, hn]
        exact if_neg (UInt8.not_le.2 hcount)
      · rw [if_pos hbad] at hk
        have hkeep : GreedyCoverage.keptCount (f.counts id) = some (GreedyCoverage.nextCount (f.counts id)) :=
          if_neg (UInt8.not_le.2 (h.nextCount_fresh_lt hid))
        rw [hkeep, Option.some.injEq] at hk
        rw [← hk]
        exact nextCount_lt hlt hahead
    · rw [if_neg hbad, if_neg hbad]
      exact ⟨n, hn, hlt, hahead⟩

variable {Stmt : Type} [Hasher Stmt] [FloatFns ℚ]

/-- A commit has the same outcome for both. -/
theorem commitTestResult (h : Alike stale collected o f) (rawEntry : Entry Stmt) (metadata : Meta) (shmem : IPCToken) :
    (o.commitTestResult rawEntry metadata shmem = none ∧ f.commitTestResult rawEntry metadata shmem = none) ∨
      ∃ outcome o' f', o.commitTestResult rawEntry metadata shmem = some (outcome, o') ∧
        f.commitTestResult rawEntry metadata shmem = some (outcome, f') ∧ Alike stale collected o' f' := by
  unfold Outline.commitTestResult
  rw [← h.edgeMap, ← h.shmemQueue, ← h.bestEdges, ← h.diversity]
  cases o.shmemQueue.collect o.edgeMap shmem with
  | none => exact .inl ⟨rfl, rfl⟩
  | some found =>
    simp only [Option.bind_eq_bind, Option.bind_some]
    cases (⟨o.bestEdges, o.diversity, ∅⟩ : GreedyCoverage).onAdd rawEntry.entry
        { metadata with newCovNodes := found.1.new.length } found.1 with
    | none => exact .inl ⟨rfl, rfl⟩
    | some judged =>
      refine .inr ⟨judged.1, _, _, rfl, rfl, ⟨rfl, rfl, rfl, rfl, ?_, h.size, h.start, h.counts, h.ahead⟩⟩
      dsimp only
      rw [h.ids]

/-- **One call**, as long as nothing is affected by what is left from before. -/
theorem call (h : Alike stale collected o f) (c : Call Stmt)
    (hc : ∀ orders, c = .chore orders → Harmless stale collected o) :
    (o.call c = none ∧ f.call c = none) ∨ ∃ reply o' f', o.call c = some (reply, o') ∧ f.call c = some (reply, f') ∧
      Alike stale (collected || reply = .chored true) o' f' := by
  cases c with
  | recv =>
    unfold Outline.call
    rw [← h.shmemQueue]
    cases o.shmemQueue.recv with
    | none => exact .inl ⟨rfl, rfl⟩
    | some r =>
      refine .inr ⟨.received r.1, _, _, rfl, rfl, ?_⟩
      rw [decide_eq_false (by simp), Bool.or_false]
      exact ⟨h.edgeMap, rfl, h.bestEdges, h.diversity, h.ids, h.size, h.start, h.counts, h.ahead⟩
  | commitTestResult rawEntry metadata shmem =>
    unfold Outline.call
    dsimp only
    rcases h.commitTestResult rawEntry metadata shmem with ⟨ho, hf⟩ | ⟨outcome, o', f', ho, hf, hend⟩
    · rw [ho, hf]
      exact .inl ⟨rfl, rfl⟩
    · rw [ho, hf]
      refine .inr ⟨.committed outcome, o', f', rfl, rfl, ?_⟩
      rw [decide_eq_false (by simp), Bool.or_false]
      exact hend
  | chore orders =>
    obtain ⟨hdue, hkept⟩ := hc orders rfl
    have hsame := h.minimizes_eq hdue
    refine .inr ⟨.chored o.minimizes, _, _, rfl, by rw [hsame]; rfl, ?_⟩
    rw [← hsame]
    cases hmin : o.minimizes with
    | false =>
      rw [decide_eq_false (by simp), Bool.or_false]
      exact h
    | true =>
      rw [decide_eq_true rfl, Bool.or_true]
      exact h.minimize (hkept hmin)

omit [FloatFns ℚ] in
/-- **A `chore` that is affected shows it.** -/
theorem chore_ne (h : Alike stale collected o f) (hc : ¬Harmless stale collected o) :
    o.minimizes ≠ f.minimizes ∨
      (if o.minimizes then o.minimize else o).ids ≠ (if f.minimizes then f.minimize else f).ids := by
  by_cases hdue : collected = false → RawEngine.gcMinAbsolute ≤ o.ids.card → o.minimizes
  · have hsame := h.minimizes_eq hdue
    obtain ⟨hmin, hkept⟩ := Classical.not_imp.1 fun hkept => hc ⟨hdue, hkept⟩
    push Not at hkept
    obtain ⟨id, hbad, hid, hge⟩ := hkept
    right
    rw [← hsame, if_pos hmin, if_pos hmin]
    -- the entry with the old count goes, in the new engine it stays
    have hout : id ∉ o.left := fun hin => hge ((Finset.mem_filter.1 hin).2 hbad)
    have hin : id ∈ f.left := by
      refine Finset.mem_filter.2 ⟨?_, fun _ => h.nextCount_fresh_lt hid⟩
      rw [← h.ids]
      exact (Finset.mem_sdiff.1 hbad).1
    intro heq
    have hleft : o.left = f.left := heq
    rw [hleft] at hout
    exact hout hin
  · left
    push Not at hdue
    obtain ⟨hcollected, hle, hmin⟩ := hdue
    have hfresh : f.minimizes = true := (minimizes_start (h.start hcollected)).2 (h.ids ▸ hle)
    rw [hfresh]
    exact hmin

end Alike

/-! ## Engines that are alike -/

section Watched

variable {M Stmt : Type} [Hasher Stmt] [FloatFns ℚ] {stale : Finset ID}

/-- The outlines are alike, or there has been a panic in both. -/
def AlikeWatched (stale : Finset ID) : Option (Watched M Stmt) → Option (Watched M Stmt) → Prop
  | none, none => True
  | some w, some v => v.collected = w.collected ∧ Alike stale w.collected w.engine.outline v.engine.outline
  | _, _ => False

/-- A reaction is that of the outline. -/
theorem react_some (pick : HashOrder ID × HashOrder ID → HashOrder ID) {w : Watched M Stmt} {c : Call Stmt}
    {reply : Reply} {o : Outline} (h : w.engine.outline.call c = some (reply, o)) :
    ∃ e : MemEngine M Stmt, e.outline = o ∧
      react pick (some w) c = (some ⟨reply, o.ids⟩, some ⟨e, w.collected || reply = .chored true⟩) := by
  rw [← RawEngine.outline_call pick] at h
  obtain ⟨⟨reply', e⟩, hcall, heq⟩ := Option.map_eq_some_iff.1 h
  cases heq
  refine ⟨e, rfl, ?_⟩
  unfold react
  dsimp only
  rw [hcall]
  rfl

theorem react_none (pick : HashOrder ID × HashOrder ID → HashOrder ID) {w : Watched M Stmt} {c : Call Stmt}
    (h : w.engine.outline.call c = none) : react pick (some w) c = (none, none) := by
  rw [← RawEngine.outline_call pick, Option.map_eq_none_iff] at h
  unfold react
  dsimp only
  rw [h]

theorem alikeWatched_react {w v : Option (Watched M Stmt)} (h : AlikeWatched stale w v) {c : Call Stmt}
    (hc : Unaffected stale w c) :
    (react Prod.fst w c).1 = (react Prod.snd v c).1 ∧ AlikeWatched stale (react Prod.fst w c).2 (react Prod.snd v c).2 := by
  cases w with
  | none =>
    cases v with
    | none => exact ⟨rfl, trivial⟩
    | some v => cases h
  | some w =>
    cases v with
    | none => cases h
    | some v =>
      obtain ⟨hcollected, halike⟩ := h
      have hharmless : ∀ orders, c = .chore orders → Harmless stale w.collected w.engine.outline := by
        rintro orders rfl
        exact hc
      rcases halike.call c hharmless with ⟨ho, hf⟩ | ⟨reply, o, f, ho, hf, hend⟩
      · rw [react_none _ ho, react_none _ hf]
        exact ⟨rfl, trivial⟩
      · obtain ⟨e, he, hw⟩ := react_some Prod.fst ho
        obtain ⟨e', he', hv⟩ := react_some Prod.snd hf
        rw [hw, hv, hend.ids]
        refine ⟨rfl, by rw [hcollected], ?_⟩
        rw [he, he']
        exact hend

theorem react_ne {w v : Option (Watched M Stmt)} (h : AlikeWatched stale w v) {c : Call Stmt}
    (hc : ¬Unaffected stale w c) : (react Prod.fst w c).1 ≠ (react Prod.snd v c).1 := by
  cases w with
  | none => exact absurd trivial hc
  | some w =>
    cases v with
    | none => cases h
    | some v =>
      cases c with
      | recv => exact absurd trivial hc
      | commitTestResult rawEntry metadata shmem => exact absurd trivial hc
      | chore orders =>
        obtain ⟨e, -, hw⟩ := react_some Prod.fst (show w.engine.outline.call (.chore orders) = _ from rfl)
        obtain ⟨e', -, hv⟩ := react_some Prod.snd (show v.engine.outline.call (.chore orders) = _ from rfl)
        rw [hw, hv]
        intro heq
        rw [Option.some.injEq, Reaction.mk.injEq, Reply.chored.injEq] at heq
        rcases h.2.chore_ne hc with hne | hne
        · exact hne heq.1
        · exact hne heq.2

/-- Engines that are alike react alike exactly as long as what is left from before does not matter. -/
theorem reactions_eq_iff_of_alike {w v : Option (Watched M Stmt)} (h : AlikeWatched stale w v) (calls : List (Call Stmt)) :
    answers (react Prod.fst) w calls = answers (react Prod.snd) v calls ↔
      AllSteps (fun w c => some (react Prod.fst w c).2) (Unaffected stale) w calls :=
  answers_eq_iff_allSteps (fun _ _ _ hR hF => alikeWatched_react hR hF) (fun _ _ _ hR hF => react_ne hR hF) h calls

end Watched

/-! ## Counts in a session -/

section Counts

variable {M Stmt : Type} [Hasher Stmt] [FloatFns ℚ]

/-- No entry is counted often enough to go. -/
def Counted (m : GreedyCoverage) : Prop := ∀ id n, m.gcRotation.lookup id = some n → n < cullAfter

omit [Hasher Stmt] in
theorem Counted.minimize {order : HashOrder ID} {e e' : MemEngine M Stmt} (h : Counted e.minimizer)
    (hmin : e.minimize Stmt order = some e') : Counted e'.minimizer := by
  intro id n hn
  have hcounts : e'.outline.counts id = some n := hn
  rw [RawEngine.outline_minimize hmin] at hcounts
  simp only [Outline.minimize] at hcounts
  split at hcounts
  · unfold GreedyCoverage.keptCount at hcounts
    split at hcounts
    · cases hcounts
    · rename_i hlt
      cases hcounts
      exact UInt8.not_le.1 hlt
  · exact h id n hcounts

omit [Hasher Stmt] in
theorem Counted.chore {order : HashOrder ID} {e e' : MemEngine M Stmt} (h : Counted e.minimizer)
    (hchore : e.chore Stmt order = some e') : Counted e'.minimizer := by
  rw [RawEngine.chore_eq] at hchore
  split at hchore
  · exact Counted.minimize (e := e.resize Stmt) h hchore
  · cases hchore
    exact h

omit [Hasher Stmt] in
theorem minimizer_foldlM_addEntry {score : F64 → F64} {entries : List (CorpusEntry Stmt)} {e e' : MemEngine M Stmt}
    (h : entries.foldlM (RawEngine.addEntry score) e = some e') : e'.minimizer = e.minimizer :=
  (RawEngine.foldlM_addEntry_quiet trivial h).minimizer

theorem Counted.commitTestResult {rawEntry : Entry Stmt} {metadata : Meta} {shmem : IPCToken} {outcome : TestOutcome}
    {e e' : MemEngine M Stmt} (h : Counted e.minimizer)
    (hcommit : e.commitTestResult rawEntry metadata shmem = some (outcome, e')) : Counted e'.minimizer := by
  obtain ⟨⟨found, edgeMap, shmemQueue⟩, -, hcommit⟩ := Option.bind_eq_some_iff.1 hcommit
  obtain ⟨⟨accepted, m⟩, hadd, hcommit⟩ := Option.bind_eq_some_iff.1 hcommit
  have hm : Counted m := by
    unfold Counted
    rw [GreedyCoverage.gcRotation_onAdd hadd]
    exact h
  dsimp only at hcommit
  unfold RawEngine.conclude at hcommit
  split at hcommit
  · cases hcommit
    exact hm
  · obtain ⟨e₁, hadd, hcommit⟩ := Option.map_eq_some_iff.1 hcommit
    cases hcommit
    rw [minimizer_foldlM_addEntry hadd]
    exact hm

variable [MutationStrategy M Stmt]

theorem Counted.step {s s' : MemSession M Stmt} {op : Op M Stmt} (h : Counted s.engine.minimizer)
    (hs : s.step op = some s') : Counted s'.engine.minimizer := by
  cases op with
  | recv =>
    obtain ⟨r, -, hs⟩ := Option.bind_eq_some_iff.1 hs
    cases hs
    exact h
  | write i map =>
    obtain ⟨token, -, hs⟩ := Option.bind_eq_some_iff.1 hs
    split at hs
    · cases hs
      exact h
    · cases hs
  | returnToken i =>
    obtain ⟨token, -, hs⟩ := Option.bind_eq_some_iff.1 hs
    obtain ⟨e, hreturn, hs⟩ := Option.bind_eq_some_iff.1 hs
    cases hs
    obtain ⟨q, -, rfl⟩ := Option.map_eq_some_iff.1 hreturn
    exact h
  | commitTestResult i rawEntry metadata =>
    obtain ⟨token, -, hs⟩ := Option.bind_eq_some_iff.1 hs
    obtain ⟨⟨outcome, e⟩, hcommit, hs⟩ := Option.bind_eq_some_iff.1 hs
    cases hs
    exact h.commitTestResult hcommit
  | commitGeneration members | populate seedGens =>
    obtain ⟨e, hadd, rfl⟩ := Option.map_eq_some_iff.1 hs
    show Counted e.minimizer
    rw [minimizer_foldlM_addEntry hadd]
    exact h
  | mutateBatch batchSize order draws currentId =>
    obtain ⟨⟨generation, e⟩, hbatch, rfl⟩ := Option.map_eq_some_iff.1 hs
    show Counted e.minimizer
    rw [(RawEngine.mutateBatch_quiet trivial hbatch).minimizer]
    exact h
  | chore order =>
    obtain ⟨e, hchore, rfl⟩ := Option.map_eq_some_iff.1 hs
    exact h.chore hchore
  | snapshot order | clear | clearStrategies | addStrategy strategy | addMabBody mab =>
    cases hs
    exact h

end Counts

/-! ## Cleared engines and new ones -/

section Clear

variable {M Stmt : Type} [Hasher Stmt] [FloatFns ℚ] [MutationStrategy M Stmt]

/-- An engine that was just built, with the map and the channel of another one. -/
def startOver (e : MemEngine M Stmt) (body : BodyRef) (strategies : List M) (mabBodies : List BodyRef)
    (bandits : Bandits) : MemEngine M Stmt :=
  { RawEngine.new (FastProbabilisticMABScheduler.new body) .new (.new e.shmemQueue.shmemSize) strategies e.shmemQueue
      mabBodies bandits with edgeMap := e.edgeMap }

omit [Hasher Stmt] [MutationStrategy M Stmt] in
/-- A cleared engine is alike to a new one. -/
theorem alike_clear {e : MemEngine M Stmt} (hcounted : Counted e.minimizer)
    (hsize : e.minimizer.bestEdges.bestEntries.length = e.shmemQueue.shmemSize) (body : BodyRef) (strategies : List M)
    (mabBodies : List BodyRef) (bandits : Bandits) :
    Alike (HashMap.keySet e.minimizer.gcRotation) false (e.clear Stmt).outline
      (startOver e body strategies mabBodies bandits).outline where
  edgeMap := rfl
  shmemQueue := rfl
  bestEdges := by
    show (⟨e.minimizer.bestEdges.bestEntries.map fun _ => none⟩ : ScoredEdges) = ScoredEdges.new e.shmemQueue.shmemSize
    rw [List.map_const', hsize]
    rfl
  diversity := rfl
  ids := rfl
  size hfalse := by cases hfalse
  start _ := rfl
  counts id hid := by
    rw [HashMap.mem_keySet, Option.not_isSome_iff_eq_none] at hid
    exact hid
  ahead id hid := by
    obtain ⟨n, hn⟩ := Option.isSome_iff_exists.1 (HashMap.mem_keySet.1 hid)
    exact ⟨n, hn, hcounted id n hn, fun k hk => by cases hk⟩

/-- No reachable session has an entry that is counted often enough to go. -/
theorem alikeWatched_clear [LawfulLog] (nWorkers maxEdges : Nat) (body : BodyRef) (strategies : List M)
    (mabBodies : List BodyRef) (bandits : Bandits) {ops : List (Op M Stmt)} {s : MemSession M Stmt}
    (hrun : run Session.step (Session.new nWorkers maxEdges (.new body) .new strategies mabBodies bandits) ops = some s)
    (body' : BodyRef) (strategies' : List M) (mabBodies' : List BodyRef) (bandits' : Bandits) :
    AlikeWatched (HashMap.keySet s.engine.minimizer.gcRotation) (some ⟨s.engine.clear Stmt, false⟩)
      (some ⟨startOver s.engine body' strategies' mabBodies' bandits', false⟩) := by
  have hsound : Session.Sound Stmt s :=
    Session.sound_run (Session.sound_new nWorkers maxEdges .new strategies mabBodies bandits trivial) hrun
  have hcounted : Counted s.engine.minimizer :=
    run_invariant_of_forall (I := fun s : MemSession M Stmt => Counted s.engine.minimizer) (fun _ _ _ h hs => h.step hs)
      (fun _ _ h => by cases h) hrun
  exact ⟨rfl, alike_clear hcounted hsound.bestSize body' strategies' mabBodies' bandits'⟩

/-- **A cleared engine reacts like a new one exactly as long as what is left from before does not matter**, in every
reachable session, for all calls and whatever the new engine is built with. -/
theorem reactions_eq_iff [LawfulLog] (nWorkers maxEdges : Nat) (body : BodyRef) (strategies : List M)
    (mabBodies : List BodyRef) (bandits : Bandits) {ops : List (Op M Stmt)} {s : MemSession M Stmt}
    (hrun : run Session.step (Session.new nWorkers maxEdges (.new body) .new strategies mabBodies bandits) ops = some s)
    (body' : BodyRef) (strategies' : List M) (mabBodies' : List BodyRef) (bandits' : Bandits) (calls : List (Call Stmt)) :
    answers (react Prod.fst) (some ⟨s.engine.clear Stmt, false⟩) calls =
        answers (react Prod.snd) (some ⟨startOver s.engine body' strategies' mabBodies' bandits', false⟩) calls ↔
      AllSteps (fun w c => some (react Prod.fst w c).2) (Unaffected (HashMap.keySet s.engine.minimizer.gcRotation))
        (some ⟨s.engine.clear Stmt, false⟩) calls := by
  exact reactions_eq_iff_of_alike (alikeWatched_clear nWorkers maxEdges body strategies mabBodies bandits hrun body'
    strategies' mabBodies' bandits') calls

end Clear

/-! ## A hundred entries -/

/-- The `k`-th entry. -/
def nthEntry (k : Nat) : RawEntry Nat := ⟨⟨UInt32.ofNat k⟩, [], [7]⟩

/-- The map of a query that hits the `k`-th edge only. -/
def edgeToken (size k : Nat) : IPCToken := ⟨"", (List.replicate size 0).set k 1, 0⟩

def quickMeta : Meta := ⟨false, true, 1000, 0, 1⟩

/-- A worker takes a token, and comes back with the `k`-th entry. -/
def hitEdge (size k : Nat) : List (Call Nat) :=
  [.recv, .commitTestResult (.new (nthEntry k)) quickMeta (edgeToken size k)]

section Filling

variable [Hasher Nat] [FloatFns ℚ] [LawfulLog]

/-- There are `k` entries, the edges from `k` on have no owner, and the channel has its only token. -/
structure Filling (size k : Nat) (o : Outline) : Prop where
  card : o.ids.card = k
  lt : ∀ id ∈ o.ids, id.raw.toNat < k
  mapSize : o.edgeMap.rawMap.length = size
  bestSize : o.bestEdges.bestEntries.length = size
  owner : ∀ e, k ≤ e → o.bestEdges.owner e = none
  tokens : o.shmemQueue.queue.length = 1
  cap : o.shmemQueue.cap = 1

variable {size k : Nat} {o : Outline}

omit [Hasher ℕ] [FloatFns ℚ] [LawfulLog] in
theorem mem_hits_edgeToken (hk : k < size) (e : Nat) : e ∈ hits (edgeToken size k).asEdgeMap ↔ e = k := by
  show e ∈ hits ((List.replicate size (0 : UInt8)).set k 1) ↔ e = k
  rw [mem_hits, List.getD_eq_getElem?_getD, List.getElem?_set, List.length_replicate]
  by_cases he : k = e
  · simp [← he, hk]
  · rw [if_neg he, List.getElem?_replicate]
    split <;> simp [Ne.symm he]

omit [Hasher ℕ] [FloatFns ℚ] [LawfulLog] in
theorem length_edgeToken : (edgeToken size k).shmem.length = size := by simp [edgeToken]

/-- A query that hits an edge without an owner is accepted. -/
theorem onAdd_unowned (m : GreedyCoverage) (entry : RawEntry Nat) (metadata : Meta) {found : EdgesFound}
    (hall : ∀ e, e ∈ found.all ↔ e = k) (hk : k < m.bestEdges.bestEntries.length)
    (howner : ∀ e, k ≤ e → m.bestEdges.owner e = none) (htime : metadata.execTime ≠ 0) :
    ∃ a m', m.onAdd entry metadata found = some (.accepted a, m') ∧
      m'.bestEdges.bestEntries.length = m.bestEdges.bestEntries.length ∧
      ∀ e, k + 1 ≤ e → m'.bestEdges.owner e = none := by
  have hmem : k ∈ found.all := (hall k).2 rfl
  obtain ⟨outcome, m', hadd, hj⟩ : ∃ outcome m', m.onAdd entry metadata found = some (outcome, m') ∧
      GreedyCoverage.Judged m entry metadata found outcome m' :=
    GreedyCoverage.onAdd_spec (fun _ => htime) fun e he => (hall e).1 he ▸ hk
  have himproves : m.Improves entry metadata found := by
    obtain ⟨score, hscore⟩ : ∃ score, ScoredEdges.scoreOf entry.ast.length found.all.length metadata.execTime =
        some score := ScoredEdges.exists_scoreOf htime (List.length_pos_of_mem hmem)
    refine ⟨score, hscore, k, hmem, ?_⟩
    rw [howner k le_rfl]
    rfl
  rcases hj.judged with hrejected | ⟨a, rfl⟩
  · exact absurd himproves (hj.rejected_iff.1 hrejected).2
  · refine ⟨a, m', hadd, hj.length, fun e he => ?_⟩
    cases hown : m'.bestEdges.owner e with
    | none => rfl
    | some best =>
      rcases hj.owner e best hown with hold | ⟨hhit, -⟩
      · rw [howner e (by omega)] at hold
        cases hold
      · have := (hall e).1 hhit
        omega

/-- **One more entry.** -/
theorem Filling.hitEdge (h : Filling size k o) (hk : k < size) (hsize : size ≤ 2 ^ 32) :
    ∃ token q outcome o', o.call (.recv : Call Nat) = some (.received token, { o with shmemQueue := q }) ∧
      Outline.call { o with shmemQueue := q } (.commitTestResult (.new (nthEntry k)) quickMeta (edgeToken size k)) =
        some (.committed outcome, o') ∧
      Filling size (k + 1) o' ∧ o'.sizeAtLastReset = o.sizeAtLastReset := by
  obtain ⟨token, hqueue⟩ := List.length_eq_one_iff.1 h.tokens
  have hrecv : o.shmemQueue.recv = some (token, { o.shmemQueue with queue := [] }) := by
    unfold SharedMemHandle.recv
    rw [hqueue]
  have hlen : o.edgeMap.rawMap.length = (edgeToken size k).shmem.length := h.mapSize.trans length_edgeToken.symm
  obtain ⟨found, edgeMap, hcollect, hupdated⟩ : ∃ found edgeMap,
      SharedMemHandle.collect { o.shmemQueue with queue := [] } o.edgeMap (edgeToken size k) =
        some (found, edgeMap, { o.shmemQueue with queue := [o.shmemQueue.zero (edgeToken size k)] }) ∧
      Updated o.edgeMap (edgeToken size k).asEdgeMap found edgeMap :=
    SharedMemHandle.collect_spec hlen (h.cap ▸ Nat.one_pos)
  have hall : ∀ e, e ∈ found.all ↔ e = k := fun e => hupdated.mem_all_iff.trans (mem_hits_edgeToken hk e)
  have htime : quickMeta.execTime ≠ 0 := by decide
  obtain ⟨a, m, hadd, hbest, howner⟩ := onAdd_unowned ⟨o.bestEdges, o.diversity, ∅⟩ (nthEntry k)
    { quickMeta with newCovNodes := found.new.length } hall (h.bestSize ▸ hk) h.owner htime
  have hid : (nthEntry k).id.raw.toNat = k := Nat.mod_eq_of_lt (hk.trans_le hsize)
  have hnew : (nthEntry k).id ∉ o.ids := fun hin => absurd (h.lt _ hin) (by rw [hid]; exact lt_irrefl k)
  refine ⟨token, { o.shmemQueue with queue := [] }, .accepted a, { o with
    edgeMap := edgeMap, shmemQueue := { o.shmemQueue with queue := [o.shmemQueue.zero (edgeToken size k)] }
    bestEdges := m.bestEdges, diversity := m.diversity, ids := insert (nthEntry k).id o.ids }, ?_, ?_, ?_, rfl⟩
  · unfold Outline.call
    rw [hrecv]
    rfl
  · unfold Outline.call Outline.commitTestResult
    dsimp only
    rw [hcollect]
    change Option.map _ (Option.bind (GreedyCoverage.onAdd ⟨o.bestEdges, o.diversity, ∅⟩ (nthEntry k)
      { quickMeta with newCovNodes := found.new.length } found) _) = _
    rw [hadd]
    rfl
  · constructor
    · exact (Finset.card_insert_of_notMem hnew).trans (by rw [h.card])
    · intro id hin
      rcases Finset.mem_insert.1 hin with rfl | hin
      · rw [hid]
        exact Nat.lt_succ_self k
      · exact (h.lt id hin).trans (Nat.lt_succ_self k)
    · exact hupdated.length.trans h.mapSize
    · exact hbest.trans h.bestSize
    · exact howner
    · rfl
    · exact h.cap

/-- Entries come in one after the other. -/
def fill (size n : Nat) : List (Call Nat) := (List.range n).flatMap (Lsf.Engine.hitEdge size)

omit [Hasher ℕ] [FloatFns ℚ] [LawfulLog] in
theorem unaffected_of_mem_fill {M : Type} {stale : Finset ID} {n : Nat} {w : Option (Watched M Nat)} {c : Call Nat}
    (hc : c ∈ fill size n) : Unaffected stale w c := by
  obtain ⟨k, -, hc⟩ := List.mem_flatMap.1 hc
  -- there is no `chore` among these
  have hkinds : c = .recv ∨ c = .commitTestResult (.new (nthEntry k)) quickMeta (edgeToken size k) := by
    simpa [Lsf.Engine.hitEdge] using hc
  rcases hkinds with rfl | rfl <;> cases w <;> trivial

theorem Filling.fill {M : Type} {n : Nat} {w : Watched M Nat} (h : Filling size 0 w.engine.outline) (hn : n ≤ size)
    (hsize : size ≤ 2 ^ 32) :
    ∃ v, run (fun w c => some (react Prod.fst w c).2) (some w) (fill size n) = some (some v) ∧
      v.collected = w.collected ∧ Filling size n v.engine.outline ∧
      v.engine.outline.sizeAtLastReset = w.engine.outline.sizeAtLastReset := by
  induction n with
  | zero => exact ⟨w, rfl, rfl, h, rfl⟩
  | succ n ih =>
    obtain ⟨v, hrun, hcollected, hfilling, hlast⟩ := ih (by omega)
    obtain ⟨token, q, outcome, o, hrecv, hcommit, hend, hlast'⟩ := hfilling.hitEdge (by omega) hsize
    obtain ⟨e₁, he₁, hreact₁⟩ := react_some Prod.fst hrecv
    rw [← he₁] at hcommit
    obtain ⟨e₂, he₂, hreact₂⟩ := react_some Prod.fst (w := ⟨e₁, w.collected⟩) hcommit
    refine ⟨⟨e₂, w.collected⟩, ?_, rfl, he₂ ▸ hend, ?_⟩
    · unfold Lsf.Engine.fill at hrun ⊢
      rw [List.range_succ, List.flatMap_append, run_append, hrun]
      simp [Lsf.Engine.hitEdge, run, hreact₁, hreact₂, hcollected]
    · rw [he₂, hlast', hlast]

end Filling

/-! ## The old size -/

section OldSize

attribute [local instance] FloatFns.tangent LawfulLog.tangent Hasher.mul

/-- A hundred seeds. -/
def seeds : List (CorpusEntry Nat) := (List.range 100).map fun k => ⟨nthEntry k, .default⟩

/-- A session with one worker and a hundred edges. -/
def hundredEdges : MemSession NOOP Nat := .new 1 100 (.new 0) .new [] [] .new

/-- The engine gets a hundred seeds and looks at them. -/
def seedAndChore : List (Op NOOP Nat) := [.populate [seeds], .chore (.sorted ID)]

/-- A hundred results come in, and the engine looks at them. -/
def fillAndChore : List (Call Nat) := fill 100 100 ++ [.chore (.sorted ID, .sorted ID)]

theorem nodup_seeds : (seeds.map CorpusEntry.id).Nodup := by
  rw [seeds, List.map_map]
  refine List.Nodup.map_on (fun i hi j hj heq => ?_) List.nodup_range
  have hraw := congrArg (fun id : ID => id.raw.toNat) heq
  rw [List.mem_range] at hi hj
  change i % 2 ^ 32 = j % 2 ^ 32 at hraw
  omega

theorem card_seeds : (seeds.map CorpusEntry.id).toFinset.card = 100 := by
  rw [List.toFinset_card_of_nodup nodup_seeds, List.length_map]
  exact (List.length_map _).trans List.length_range

theorem populate_seeds : ∃ e, hundredEdges.engine.populate [seeds] = some e ∧
    e.outline = { hundredEdges.engine.outline with ids := (seeds.map CorpusEntry.id).toFinset } := by
  obtain ⟨e, hpopulate, houtline⟩ := RawEngine.outline_populate seeds hundredEdges.engine
  refine ⟨e, hpopulate, houtline.trans ?_⟩
  exact congrArg (fun ids => { hundredEdges.engine.outline with ids := ids }) (Finset.empty_union _)

/-- The pass over the seeds keeps them all. -/
theorem seedAndChore_spec : ∃ s, run Session.step hundredEdges seedAndChore = some s ∧
    s.engine.outline.sizeAtLastReset = 100 ∧ s.engine.outline.edgeMap.rawMap.length = 100 ∧
    s.engine.outline.shmemQueue = .new 1 100 ∧ s.engine.outline.bestEdges.bestEntries.length = 100 := by
  obtain ⟨e, hpopulate, houtline⟩ := populate_seeds
  obtain ⟨e', hchore, houtline'⟩ := RawEngine.outline_chore (.sorted ID) e
  have hcard : e.outline.ids.card = 100 := by
    rw [houtline]
    exact card_seeds
  have hmin : e.outline.minimizes = true := by
    refine (Alike.minimizes_start (by rw [houtline]; rfl)).2 ?_
    rw [hcard]
    exact le_rfl
  have hleft : e.outline.left = e.outline.ids := by
    refine Outline.left_of_uncounted fun id _ => ?_
    rw [houtline]
    rfl
  rw [if_pos hmin] at houtline'
  have hstep : hundredEdges.step (.populate [seeds]) = some ⟨e, [], []⟩ := by
    unfold Session.step
    dsimp only
    rw [hpopulate]
    rfl
  have hstep' : Session.step ⟨e, [], []⟩ (.chore (.sorted ID)) = some ⟨e', [], []⟩ := by
    unfold Session.step
    dsimp only
    rw [hchore]
    rfl
  refine ⟨⟨e', [], []⟩, run_cons_eq_some.2 ⟨_, hstep, run_cons_eq_some.2 ⟨_, hstep', rfl⟩⟩, ?_⟩
  rw [houtline']
  refine ⟨by rw [← hcard, ← hleft]; rfl, ?_⟩
  unfold Outline.minimize
  rw [houtline]
  exact ⟨List.length_replicate, rfl, List.length_replicate⟩

/-- A cleared engine is not filled yet. -/
theorem filling_clear {e : MemEngine NOOP Nat} {size : Nat} (hmap : e.outline.edgeMap.rawMap.length = size)
    (hqueue : e.outline.shmemQueue = .new 1 size) (hbest : e.outline.bestEdges.bestEntries.length = size) :
    Filling size 0 (e.clear Nat).outline where
  card := rfl
  lt id hid := by cases hid
  mapSize := hmap
  bestSize := (List.length_map _).trans hbest
  owner e' _ := GreedyCoverage.owner_reset e.minimizer e'
  tokens := by
    show e.outline.shmemQueue.queue.length = 1
    rw [hqueue]
    rfl
  cap := by
    show e.outline.shmemQueue.cap = 1
    rw [hqueue]
    rfl

/-- **The old size puts off the first pass.** A hundred entries are not more than the hundred seeds there were before, so
that the cleared engine keeps all of them as they are, where a new one looks at them. -/
theorem reactions_ne_fillAndChore : ∃ s, run Session.step hundredEdges seedAndChore = some s ∧
    answers (react Prod.fst) (some ⟨s.engine.clear Nat, false⟩) fillAndChore ≠
      answers (react Prod.snd) (some ⟨startOver s.engine 0 [] [] .new, false⟩) fillAndChore := by
  obtain ⟨s, hrun, hlast, hmap, hqueue, hbest⟩ := seedAndChore_spec
  refine ⟨s, hrun, fun heq => ?_⟩
  have halike := alikeWatched_clear 1 100 0 [] [] .new hrun 0 [] [] .new
  have hall := (reactions_eq_iff_of_alike halike fillAndChore).1 heq
  obtain ⟨v, hfill, hcollected, hfilling, hlast'⟩ := Filling.fill (w := ⟨s.engine.clear Nat, false⟩)
    (filling_clear hmap hqueue hbest) le_rfl (by norm_num)
  have hharmless : Harmless _ v.collected v.engine.outline := ((allSteps_append hfill).1 hall).2.1
  have hmin := hharmless.due hcollected hfilling.card.ge
  have hlast'' : v.engine.outline.sizeAtLastReset = 100 := hlast'.trans hlast
  unfold Outline.minimizes at hmin
  rw [hfilling.card, hlast''] at hmin
  revert hmin
  decide +kernel

/-- With one result less neither of them looks at the entries. -/
theorem reactions_eq_iff_fill : ∃ s, run Session.step hundredEdges seedAndChore = some s ∧
    answers (react Prod.fst) (some ⟨s.engine.clear Nat, false⟩) (fill 100 99 ++ [.chore (.sorted ID, .sorted ID)]) =
      answers (react Prod.snd) (some ⟨startOver s.engine 0 [] [] .new, false⟩)
        (fill 100 99 ++ [.chore (.sorted ID, .sorted ID)]) := by
  obtain ⟨s, hrun, hlast, hmap, hqueue, hbest⟩ := seedAndChore_spec
  refine ⟨s, hrun, (reactions_eq_iff 1 100 0 [] [] .new hrun 0 [] [] .new _).2 ?_⟩
  obtain ⟨v, hfill, -, hfilling, -⟩ := Filling.fill (w := ⟨s.engine.clear Nat, false⟩) (n := 99)
    (filling_clear hmap hqueue hbest) (by norm_num) (by norm_num)
  have hlt : v.engine.outline.ids.card < RawEngine.gcMinAbsolute := by
    rw [hfilling.card]
    decide
  have hharmless : Harmless (HashMap.keySet s.engine.minimizer.gcRotation) v.collected v.engine.outline :=
    ⟨fun _ hle => absurd hle hlt.not_ge, fun hmin => absurd (Alike.card_le_of_minimizes hmin) hlt.not_ge⟩
  refine (allSteps_append hfill).2 ⟨allSteps_of_forall fun w c hc => ?_, hharmless, fun _ _ => trivial⟩
  exact unaffected_of_mem_fill hc

end OldSize

end Lsf.Engine
