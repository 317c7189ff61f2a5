import Lsf.Engine.Engine
import Lsf.Lib.Run

/-!
# Sessions

An engine at work: workers take tokens out of the channel, run queries that write the maps, and every token comes back,
alone or with a result to commit; in between the engine is asked for batches, given seeds, cleaned up or cleared.
`step_cases` says once what a step can do, and `sound_run` what holds in every state that a session can reach.
-/

namespace Lsf.Engine

open Lsf.Core Lsf.Lib Lsf.Cov Lsf.Feedback

/-- A committed result: the id of its entry and the map of its token. -/
structure Committed where
  id : ID
  map : EdgeMapView
  deriving DecidableEq, Repr

/-- An engine, the tokens that workers have, and the results committed since the last `clear`. -/
structure Session (C S M : Type) where
  engine : RawEngine C S M
  out : List IPCToken
  commits : List Committed

inductive Op (M Stmt : Type) where
  | recv
  | write (i : Nat) (map : List UInt8)
  | returnToken (i : Nat)
  | commitTestResult (i : Nat) (rawEntry : Entry Stmt) (metadata : Meta)
  | commitGeneration (members : List (CorpusEntry Stmt))
  | populate (seedGens : List (List (CorpusEntry Stmt)))
  | mutateBatch (batchSize : Nat) (order : HashOrder ID) (draws : List Draw) (currentId : UInt32)
  | snapshot (order : HashOrder ID)
  | chore (order : HashOrder ID)
  | clear
  | clearStrategies
  | addStrategy (strategy : M)
  | addMabBody (mab : BodyRef)

namespace Session

variable {C S M Stmt : Type}

/-- A session with a `GreedyCoverage` engine; the maps and the table have one size. -/
def new (nWorkers maxEdges : Nat) (scheduler : S) (corpusHandler : C) (strategies : List M) (mabBodies : List BodyRef)
    (bandits : Bandits) : Session C S M where
  engine := .new scheduler corpusHandler (.new maxEdges) strategies (.new nWorkers maxEdges) mabBodies bandits
  out := []
  commits := []

section Step

variable [CorpusHandler C Stmt] [Schedule S Stmt] [MutationStrategy M Stmt] [Hasher Stmt] [FloatFns ℚ]

/-- One step; `i` is the place of a token among those that are out. -/
def step (s : Session C S M) : Op M Stmt → Option (Session C S M)
  | .recv => do
    let (token, q) ← s.engine.shmemQueue.recv
    some { s with engine := { s.engine with shmemQueue := q }, out := s.out ++ [token] }
  | .write i map => do
    let token ← s.out[i]?
    if map.length = token.shmem.length then some { s with out := s.out.set i { token with shmem := map } } else none
  | .returnToken i => do
    let token ← s.out[i]?
    let e ← s.engine.returnToken token
    some { s with engine := e, out := s.out.eraseIdx i }
  | .commitTestResult i rawEntry metadata => do
    let token ← s.out[i]?
    let (_, e) ← s.engine.commitTestResult rawEntry metadata token
    some ⟨e, s.out.eraseIdx i, s.commits ++ [⟨rawEntry.entry.id, token.asEdgeMap⟩]⟩
  | .commitGeneration members => (s.engine.commitGeneration members).map fun e => { s with engine := e }
  | .populate seedGens => (s.engine.populate seedGens).map fun e => { s with engine := e }
  | .mutateBatch batchSize order draws currentId =>
    (s.engine.mutateBatch batchSize order draws currentId : Option (List (Entry Stmt) × RawEngine C S M)).map
      fun (_, e) => { s with engine := e }
  | .snapshot order => some { s with engine := (s.engine.snapshot order).2 }
  | .chore order => (s.engine.chore Stmt order).map fun e => { s with engine := e }
  | .clear => some ⟨s.engine.clear Stmt, s.out, []⟩
  | .clearStrategies => some { s with engine := s.engine.clearStrategies }
  | .addStrategy strategy => some { s with engine := s.engine.addStrategy strategy }
  | .addMabBody mab => some { s with engine := s.engine.addMabBody mab }

end Step

/-! ## Tokens -/

/-- Every token has a map of the size of the maps, and there is room in the channel for all that are out. -/
structure Tokens (q : SharedMemHandle) (out : List IPCToken) : Prop where
  queued : ∀ token ∈ q.queue, token.shmem.length = q.shmemSize
  length : ∀ token ∈ out, token.shmem.length = q.shmemSize
  room : q.queue.length + out.length ≤ q.cap

variable {q q' : SharedMemHandle} {out : List IPCToken} {token : IPCToken} {i : Nat}

theorem Tokens.new (nWorkers maxEdges : Nat) : Tokens (.new nWorkers maxEdges) [] := by
  refine ⟨?_, by simp, by simp [SharedMemHandle.new]⟩
  intro token htoken
  obtain ⟨i, -, rfl⟩ := List.mem_map.1 htoken
  exact List.length_replicate

theorem Tokens.recv (h : Tokens q out) (hrecv : q.recv = some (token, q')) : Tokens q' (out ++ [token]) := by
  obtain ⟨hq, hcap, hsize⟩ := SharedMemHandle.recv_eq_some hrecv
  have hroom := h.room
  rw [hq, List.length_cons] at hroom
  refine ⟨?_, ?_, by rw [hcap, List.length_append, List.length_singleton]; omega⟩
  · intro t ht
    rw [hsize]
    exact h.queued t (hq ▸ List.mem_cons_of_mem _ ht)
  · intro t ht
    rw [hsize]
    rcases List.mem_append.1 ht with ht | ht
    · exact h.length t ht
    · rw [List.mem_singleton.1 ht]
      exact h.queued token (hq ▸ List.mem_cons_self)

theorem Tokens.write (h : Tokens q out) (hi : out[i]? = some token) {map : List UInt8}
    (hlen : map.length = token.shmem.length) : Tokens q (out.set i { token with shmem := map }) := by
  refine ⟨h.queued, ?_, by rw [List.length_set]; exact h.room⟩
  intro t ht
  rcases List.mem_or_eq_of_mem_set ht with ht | rfl
  · exact h.length t ht
  · exact hlen.trans (h.length token (List.mem_of_getElem? hi))

/-- A token that comes back finds room. -/
theorem Tokens.lt_cap (h : Tokens q out) (hmem : token ∈ out) : q.queue.length < q.cap := by
  have hroom := h.room
  have hpos := List.length_pos_of_mem hmem
  omega

theorem Tokens.send (h : Tokens q out) (hi : out[i]? = some token) :
    Tokens { q with queue := q.queue ++ [q.zero token] } (out.eraseIdx i) := by
  have hmem := List.mem_of_getElem? hi
  refine ⟨?_, fun t ht => h.length t (List.mem_of_mem_eraseIdx ht), ?_⟩
  · intro t ht
    rcases List.mem_append.1 ht with ht | ht
    · exact h.queued t ht
    · rw [List.mem_singleton.1 ht, SharedMemHandle.shmem_zero (h.length token hmem)]
      exact List.length_replicate
  · have hroom := h.room
    have hpos := List.length_pos_of_mem hmem
    have hlt := (List.getElem?_eq_some_iff.1 hi).1
    show (q.queue ++ [q.zero token]).length + (out.eraseIdx i).length ≤ q.cap
    rw [List.length_append, List.length_singleton, List.length_eraseIdx_of_lt hlt]
    omega

/-! ## What a step can do -/

section Laws

variable [CorpusHandler C Stmt] [Schedule S Stmt] [LawfulSchedule S Stmt] [Hasher Stmt] [FloatFns ℚ]

/-- The sizes fit, an edge that is owned has been seen, and the scheduler has its invariant. -/
structure Sound (Stmt : Type) [Schedule S Stmt] [LawfulSchedule S Stmt] (s : Session C S M) : Prop where
  tokens : Tokens s.engine.shmemQueue s.out
  mapSize : s.engine.edgeMap.rawMap.length = s.engine.shmemQueue.shmemSize
  bestSize : s.engine.minimizer.bestEdges.bestEntries.length = s.engine.shmemQueue.shmemSize
  seen : ∀ edge o, s.engine.minimizer.bestEdges.owner edge = some o → s.engine.edgeMap.rawMap.getD edge 0 ≠ 0
  valid : LawfulSchedule.Valid Stmt s.engine.scheduler

/-- What one step does to a sound session. -/
inductive Effect (Stmt : Type) [CorpusHandler C Stmt] [Schedule S Stmt] [LawfulSchedule S Stmt] [Hasher Stmt]
    [FloatFns ℚ] (s s' : Session C S M) : Prop where
  | quiet (hquiet : RawEngine.Quiet Stmt s.engine s'.engine) (hout : s'.out = s.out) (hcommits : s'.commits = s.commits)
  | tokens (q : SharedMemHandle) (hengine : s'.engine = { s.engine with shmemQueue := q })
      (hsize : q.shmemSize = s.engine.shmemQueue.shmemSize) (htokens : Tokens q s'.out)
      (hcommits : s'.commits = s.commits)
  | committed (i : Nat) (token : IPCToken) (rawEntry : Entry Stmt) (metadata : Meta) (found : EdgesFound)
      (outcome : TestOutcome) (hi : s.out[i]? = some token)
      (hengine : RawEngine.Commits s.engine rawEntry metadata token found outcome s'.engine)
      (hout : s'.out = s.out.eraseIdx i) (hcommits : s'.commits = s.commits ++ [⟨rawEntry.entry.id, token.asEdgeMap⟩])
  | swept (hengine : RawEngine.Swept Stmt s.engine s'.engine) (hout : s'.out = s.out) (hcommits : s'.commits = s.commits)
  | cleared (hengine : s'.engine = s.engine.clear Stmt) (hout : s'.out = s.out) (hcommits : s'.commits = [])

variable [MutationStrategy M Stmt] [LawfulLog] {s s' : Session C S M} {op : Op M Stmt}

omit [MutationStrategy M Stmt] in
/-- A commit that returns did what `Commits` says. -/
theorem Sound.commits (hs : Sound Stmt s) {rawEntry : Entry Stmt} {metadata : Meta} {outcome : TestOutcome}
    {e : RawEngine C S M} (hmem : token ∈ s.out)
    (h : s.engine.commitTestResult rawEntry metadata token = some (outcome, e)) :
    ∃ found, RawEngine.Commits s.engine rawEntry metadata token found outcome e := by
  have hlen := hs.tokens.length token hmem
  have hmap := hs.mapSize.trans hlen.symm
  have hbest := hs.bestSize.trans hlen.symm
  obtain ⟨found, outcome', e', heq, hcommits⟩ := RawEngine.commitTestResult_spec rawEntry hs.valid hmap hbest
    (hs.tokens.lt_cap hmem) (RawEngine.execTime_ne_zero h)
  rw [heq] at h
  cases h
  exact ⟨found, hcommits⟩

/-- **One step of a session.** -/
theorem step_cases (hs : Sound Stmt s) (h : s.step op = some s') : Effect Stmt s s' := by
  cases op with
  | recv =>
    obtain ⟨⟨token, q⟩, hrecv, h⟩ := Option.bind_eq_some_iff.1 h
    cases h
    exact .tokens q rfl (SharedMemHandle.recv_eq_some hrecv).2.2 (hs.tokens.recv hrecv) rfl
  | write i map =>
    obtain ⟨token, hi, h⟩ := Option.bind_eq_some_iff.1 h
    split at h
    · rename_i hlen
      cases h
      exact .tokens _ rfl rfl (hs.tokens.write hi hlen) rfl
    · cases h
  | returnToken i =>
    obtain ⟨token, hi, h⟩ := Option.bind_eq_some_iff.1 h
    obtain ⟨e, hreturn, h⟩ := Option.bind_eq_some_iff.1 h
    cases h
    obtain ⟨q, hsend, rfl⟩ := Option.map_eq_some_iff.1 hreturn
    obtain ⟨-, rfl⟩ := SharedMemHandle.push_eq_some.1 hsend
    exact .tokens _ rfl rfl (hs.tokens.send hi) rfl
  | commitTestResult i rawEntry metadata =>
    obtain ⟨token, hi, h⟩ := Option.bind_eq_some_iff.1 h
    obtain ⟨⟨outcome, e⟩, hcommit, h⟩ := Option.bind_eq_some_iff.1 h
    cases h
    obtain ⟨found, hcommits⟩ := hs.commits (List.mem_of_getElem? hi) hcommit
    exact .committed i token rawEntry metadata found outcome hi hcommits rfl rfl
  | commitGeneration members =>
    obtain ⟨e, hadd, rfl⟩ := Option.map_eq_some_iff.1 h
    exact .quiet (RawEngine.foldlM_addEntry_quiet hs.valid hadd) rfl rfl
  | populate seedGens =>
    obtain ⟨e, hadd, rfl⟩ := Option.map_eq_some_iff.1 h
    exact .quiet (RawEngine.foldlM_addEntry_quiet hs.valid hadd) rfl rfl
  | mutateBatch batchSize order draws currentId =>
    obtain ⟨⟨generation, e⟩, hbatch, rfl⟩ := Option.map_eq_some_iff.1 h
    exact .quiet (RawEngine.mutateBatch_quiet hs.valid hbatch) rfl rfl
  | snapshot order =>
    cases h
    exact .quiet (RawEngine.snapshot_quiet order hs.valid) rfl rfl
  | chore order =>
    obtain ⟨e, hchore, rfl⟩ := Option.map_eq_some_iff.1 h
    obtain ⟨e', hchore', hswept⟩ := RawEngine.chore_spec order hs.valid
    obtain rfl : e' = e := Option.some.inj (hchore'.symm.trans hchore)
    exact .swept hswept rfl rfl
  | clear =>
    cases h
    exact .cleared rfl rfl rfl
  | clearStrategies =>
    cases h
    exact .quiet ⟨rfl, rfl, rfl, hs.valid, .refl⟩ rfl rfl
  | addStrategy strategy =>
    cases h
    exact .quiet ⟨rfl, rfl, rfl, hs.valid, .refl⟩ rfl rfl
  | addMabBody mab =>
    cases h
    exact .quiet ⟨rfl, rfl, rfl, hs.valid, .refl⟩ rfl rfl

/-! ## Every reachable session is sound -/

omit [CorpusHandler C Stmt] [Hasher Stmt] [FloatFns ℚ] [MutationStrategy M Stmt] [LawfulLog] in
theorem sound_new {scheduler : S} (nWorkers maxEdges : Nat) (corpusHandler : C) (strategies : List M)
    (mabBodies : List BodyRef) (bandits : Bandits) (hv : LawfulSchedule.Valid Stmt scheduler) :
    Sound Stmt (new nWorkers maxEdges scheduler corpusHandler strategies mabBodies bandits) where
  tokens := .new nWorkers maxEdges
  mapSize := List.length_replicate
  bestSize := List.length_replicate
  seen edge o ho := by
    cases (GreedyCoverage.owner_new maxEdges edge).symm.trans ho
  valid := hv

omit [MutationStrategy M Stmt] [LawfulLog] in
/-- An edge with an owner has been seen, also after a commit. -/
theorem Sound.seen_commit (hs : Sound Stmt s) {rawEntry : Entry Stmt} {metadata : Meta} {found : EdgesFound}
    {outcome : TestOutcome} {e : RawEngine C S M}
    (h : RawEngine.Commits s.engine rawEntry metadata token found outcome e) {edge : Nat} {o : ScoredEntry}
    (ho : e.minimizer.bestEdges.owner edge = some o) : e.edgeMap.rawMap.getD edge 0 ≠ 0 := by
  rw [h.updated.seen_iff]
  rcases h.judged.owner edge o ho with ho | ⟨hmem, -⟩
  · exact .inr (hs.seen edge o ho)
  · exact .inl hmem

omit [CorpusHandler C Stmt] [Hasher Stmt] [FloatFns ℚ] [MutationStrategy M Stmt] [LawfulLog] in
/-- Where the owners, the map and the size of the maps stay, the tokens and the scheduler remain to be shown. -/
theorem Sound.of_bestEdges (hs : Sound Stmt s)
    (hbest : s'.engine.minimizer.bestEdges = s.engine.minimizer.bestEdges)
    (hmap : s'.engine.edgeMap = s.engine.edgeMap)
    (hsize : s'.engine.shmemQueue.shmemSize = s.engine.shmemQueue.shmemSize)
    (htokens : Tokens s'.engine.shmemQueue s'.out) (hv : LawfulSchedule.Valid Stmt s'.engine.scheduler) :
    Sound Stmt s' where
  tokens := htokens
  mapSize := by
    rw [hmap, hsize]
    exact hs.mapSize
  bestSize := by
    rw [hbest, hsize]
    exact hs.bestSize
  seen := by
    rw [hbest, hmap]
    exact hs.seen
  valid := hv

theorem sound_step (hs : Sound Stmt s) (h : s.step op = some s') : Sound Stmt s' := by
  cases step_cases hs h with
  | quiet hquiet hout hcommits =>
    refine hs.of_bestEdges (by rw [hquiet.minimizer]) hquiet.edgeMap (by rw [hquiet.shmemQueue]) ?_ hquiet.valid
    rw [hquiet.shmemQueue, hout]
    exact hs.tokens
  | tokens q hengine hsize htokens hcommits =>
    refine hs.of_bestEdges (by rw [hengine]) (by rw [hengine]) (by rw [hengine]; exact hsize) ?_ ?_
    · rw [hengine]
      exact htokens
    · rw [hengine]
      exact hs.valid
  | committed i token rawEntry metadata found outcome hi hengine hout hcommits =>
    constructor
    · rw [hengine.shmemQueue, hout]
      exact hs.tokens.send hi
    · rw [hengine.shmemQueue]
      exact hengine.updated.length.trans hs.mapSize
    · rw [hengine.shmemQueue]
      exact hengine.judged.length.trans hs.bestSize
    · intro edge o ho
      exact hs.seen_commit hengine ho
    · exact hengine.valid
  | swept hswept hout hcommits =>
    refine hs.of_bestEdges hswept.bestEdges hswept.edgeMap (by rw [hswept.shmemQueue]) ?_ hswept.valid
    rw [hswept.shmemQueue, hout]
    exact hs.tokens
  | cleared hengine hout hcommits =>
    constructor
    · rw [hengine, hout]
      exact hs.tokens
    · rw [hengine]
      exact hs.mapSize
    · rw [hengine]
      exact (GreedyCoverage.length_reset _).trans hs.bestSize
    · intro edge o ho
      rw [hengine] at ho
      cases (GreedyCoverage.owner_reset s.engine.minimizer edge).symm.trans ho
    · rw [hengine]
      exact LawfulSchedule.valid_reset _ _ hs.valid

theorem sound_run {ops : List (Op M Stmt)} (hs : Sound Stmt s) (hrun : run step s ops = some s') : Sound Stmt s' :=
  run_invariant_of_forall (fun _ _ _ => sound_step) hs hrun

end Laws

end Session

end Lsf.Engine
