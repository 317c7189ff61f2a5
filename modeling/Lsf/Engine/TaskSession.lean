import Lsf.Engine.Coverage
import Lsf.Engine.TokenCycle

/-!
# Tasks at an engine

A `TaskSystem` knows which task has which token, but of the engine only the channel and the edge map; a session knows
the engine, but not who has the tokens that are out. Side by side they stay in step (`Played`): what a task does with
its token is done in the session to a token that is out (`Played.step`), its commit is a commit of the session
(`Played.commit`), and a call that has nothing to do with tokens leaves the tasks alone (`Played.call`). Tasks also fire
the hooks of what they do not commit, which a session does not do by itself (`Session.serve`).
-/

namespace Lsf.Engine

open Lsf.Core Lsf.Lib Lsf.Cov Lsf.Feedback

/-- The steps of a commit, which the engine takes. -/
def TaskStep.judges {T : Type} : TaskStep T → Bool
  | .commit _ => true
  | .zero _ => true
  | _ => false

/-- Operations that have nothing to do with tokens. -/
def Op.tokenFree {M Stmt : Type} : Op M Stmt → Bool
  | .recv | .write _ _ | .returnToken _ | .commitTestResult _ _ _ => false
  | _ => true

def Op.clears {M Stmt : Type} : Op M Stmt → Bool
  | .clear => true
  | _ => false

/-- What the tester asks an engine for: an operation, or `fire_hooks` for a result that is not committed. -/
inductive Request (M Stmt : Type) where
  | operation (op : Op M Stmt)
  | fireHooks (rawEntry : Entry Stmt) (outcome : TestOutcome) (metadata : Meta)

def Request.tokenFree {M Stmt : Type} : Request M Stmt → Bool
  | .operation op => op.tokenFree
  | .fireHooks _ _ _ => true

def Request.clears {M Stmt : Type} : Request M Stmt → Bool
  | .operation op => op.clears
  | .fireHooks _ _ _ => false

/-- `entry.fire_hooks(outcome, ...)`, as far as the engine is concerned. -/
def RawEngine.fireHooks {C S M Stmt : Type} (e : RawEngine C S M) (rawEntry : Entry Stmt) (outcome : TestOutcome)
    (metadata : Meta) : RawEngine C S M :=
  { e with bandits := (e.bandits.fireRuleHooks rawEntry outcome metadata).2 }

/-- The engine with the channel and the edge map of the tasks. -/
def TaskSystem.load {T C S M : Type} (σ : TaskSystem T) (e : RawEngine C S M) : RawEngine C S M :=
  { e with shmemQueue := σ.shmemQueue, edgeMap := σ.edgeMap }

variable {T C S M Stmt : Type} [CorpusHandler C Stmt]

/-- What is owed to an edge of a committed result. -/
theorem Session.Covered.exists_owner [RetainingCorpus C] {s : Session C S M} (h : Covered s) {r : Committed}
    (hr : r ∈ s.commits) {edge : Nat} (hedge : edge ∈ hits r.map) : ∃ o, s.engine.minimizer.bestEdges.owner edge = some o ∧
      o.id ∈ CorpusHandler.ids s.engine.corpus ∧ (CorpusHandler.get s.engine.corpus o.id).1.isSome ∧
        ∃ r' ∈ s.commits, r'.id = o.id ∧ edge ∈ hits r'.map := by
  obtain ⟨o, ho⟩ := Option.isSome_iff_exists.1 (h.covered r hr edge hedge)
  have hkept := h.kept edge o ho
  exact ⟨o, ho, hkept, RetainingCorpus.get_isSome _ _ h.intact hkept, h.earned edge o ho⟩

variable [Schedule S Stmt] [LawfulSchedule S Stmt]

/-! ## Tokens that are out -/

/-- The tokens that the tasks have are those that are out in the session. -/
structure Played (Stmt : Type) [CorpusHandler C Stmt] [Schedule S Stmt] [LawfulSchedule S Stmt] (n size : Nat)
    (σ : TaskSystem T) (e : RawEngine C S M) (s : Session C S M) : Prop where
  exclusive : σ.Exclusive n size
  sound : Session.Sound Stmt s
  engine : s.engine = σ.load e
  out : ∀ token, token ∈ s.out ↔ ∃ t x, σ.held t = some x ∧ x.token = token
  distinct : (s.out.map IPCToken.id).Nodup

/-- The other tokens are those with another number. -/
theorem mem_rest {out rest : List IPCToken} {token token' : IPCToken} (hperm : out.Perm (token :: rest))
    (hdistinct : (out.map IPCToken.id).Nodup) : token' ∈ rest ↔ token' ∈ out ∧ token'.id ≠ token.id := by
  have hnodup := ((hperm.map IPCToken.id).nodup_iff).1 hdistinct
  rw [List.map_cons, List.nodup_cons] at hnodup
  rw [hperm.mem_iff, List.mem_cons]
  constructor
  · intro h
    refine ⟨.inr h, fun hid => hnodup.1 ?_⟩
    rw [← hid]
    exact List.mem_map_of_mem h
  · rintro ⟨rfl | h, hid⟩
    · exact absurd rfl hid
    · exact h

namespace Played

variable {n size : Nat} {σ σ' : TaskSystem T} {e : RawEngine C S M} {s : Session C S M} {t : T} {x : Holding}

theorem exists_place (h : Played Stmt n size σ e s) (hx : σ.held t = some x) : ∃ i : Nat, s.out[i]? = some x.token :=
  List.getElem?_of_mem ((h.out x.token).2 ⟨t, x, hx, rfl⟩)

/-- The tokens with another number are with the other tasks. -/
theorem others (h : Played Stmt n size σ e s) (hx : σ.held t = some x) {token : IPCToken} :
    (token ∈ s.out ∧ token.id ≠ x.token.id) ↔ ∃ t' x', t' ≠ t ∧ σ.held t' = some x' ∧ x'.token = token := by
  rw [h.out token]
  constructor
  · rintro ⟨⟨t', x', hx', rfl⟩, hid⟩
    refine ⟨t', x', fun ht => hid ?_, hx', rfl⟩
    rw [ht, hx] at hx'
    cases hx'
    rfl
  · rintro ⟨t', x', ht, hx', rfl⟩
    exact ⟨⟨t', x', hx', rfl⟩, fun hid => ht (h.exclusive.distinct t' t x' x hx' hx hid)⟩

/-- What is out when a task has something else. -/
theorem out_hold [DecidableEq T] (h : Played Stmt n size σ e s) (hx : σ.held t = some x) {rest : List IPCToken}
    (hrest : ∀ token, token ∈ rest ↔ token ∈ s.out ∧ token.id ≠ x.token.id) (y : Option Holding) (token : IPCToken) :
    (token ∈ (y.map Holding.token).toList ++ rest) ↔ ∃ t' x', (σ.hold t y).held t' = some x' ∧ x'.token = token := by
  rw [List.mem_append, hrest, h.others hx]
  constructor
  · rintro (hmem | ⟨t', x', ht, hx', rfl⟩)
    · rw [Option.mem_toList, Option.map_eq_some_iff] at hmem
      obtain ⟨y, rfl, rfl⟩ := hmem
      exact ⟨t, y, TaskSystem.held_hold_self σ t _, rfl⟩
    · exact ⟨t', x', by rw [TaskSystem.held_hold, if_neg ht, hx'], rfl⟩
  · rintro ⟨t', x', hx', rfl⟩
    rw [TaskSystem.held_hold] at hx'
    split at hx'
    · left
      rw [hx']
      simp
    · rename_i ht
      exact .inr ⟨t', x', ht, hx', rfl⟩

/-- A token goes out of a task's hands. -/
theorem drop [DecidableEq T] (h : Played Stmt n size σ e s) (hx : σ.held t = some x) {i : Nat}
    (hi : s.out[i]? = some x.token) {q : SharedMemHandle} {m : EdgeMap} {e' : RawEngine C S M} {s' : Session C S M}
    (hexclusive : ({ σ with shmemQueue := q, edgeMap := m }.hold t none).Exclusive n size)
    (hsound : Session.Sound Stmt s') (hengine : s'.engine = { e' with shmemQueue := q, edgeMap := m })
    (hout : s'.out = s.out.eraseIdx i) :
    Played Stmt n size ({ σ with shmemQueue := q, edgeMap := m }.hold t none) e' s' := by
  obtain ⟨hlt, hget⟩ := List.getElem?_eq_some_iff.1 hi
  have hperm : s.out.Perm (x.token :: s.out.eraseIdx i) := by
    rw [← hget]
    exact (List.getElem_cons_eraseIdx_perm hlt).symm
  refine ⟨hexclusive, hsound, hengine, fun token => ?_, ?_⟩
  · rw [hout]
    exact h.out_hold hx (fun token => mem_rest hperm h.distinct) none token
  · have hnodup := ((hperm.map IPCToken.id).nodup_iff).1 h.distinct
    rw [List.map_cons, List.nodup_cons] at hnodup
    rw [hout]
    exact hnodup.2

theorem conclude_keeps {e e' : RawEngine C S M} {accepted outcome : TestOutcome} {entry : CorpusEntry Stmt}
    (h : RawEngine.conclude accepted entry e = some (outcome, e')) (hv : LawfulSchedule.Valid Stmt e.scheduler) :
    e'.shmemQueue = e.shmemQueue ∧ e'.edgeMap = e.edgeMap := by
  unfold RawEngine.conclude at h
  split at h
  · cases h
    exact ⟨rfl, rfl⟩
  · obtain ⟨e₁, hcommit, heq⟩ := Option.map_eq_some_iff.1 h
    cases heq
    have hquiet := RawEngine.foldlM_addEntry_quiet hv hcommit
    exact ⟨hquiet.shmemQueue, hquiet.edgeMap⟩

end Played

variable [Hasher Stmt] [FloatFns ℚ]

/-! ## Sessions that serve requests -/

namespace Session

def serve [MutationStrategy M Stmt] (s : Session C S M) : Request M Stmt → Option (Session C S M)
  | .operation op => s.step op
  | .fireHooks rawEntry outcome metadata => some { s with engine := s.engine.fireHooks rawEntry outcome metadata }

variable [MutationStrategy M Stmt] {s s' : Session C S M}

omit [LawfulSchedule S Stmt] in
theorem run_serve_operation (ops : List (Op M Stmt)) : run serve s (ops.map .operation) = run step s ops := by
  induction ops generalizing s with
  | nil => rfl
  | cons op ops ih =>
    rw [List.map_cons, run, run]
    exact Option.bind_congr fun s _ => ih

variable [LawfulLog] {request : Request M Stmt}

theorem Sound.serve (hs : Sound Stmt s) (h : s.serve request = some s') : Sound Stmt s' := by
  cases request with
  | operation op => exact sound_step hs h
  | fireHooks rawEntry outcome metadata =>
    cases h
    exact hs.of_bestEdges rfl rfl rfl hs.tokens hs.valid

theorem Covered.serve [RetainingCorpus C] (hc : Covered s) (hs : Sound Stmt s) (h : s.serve request = some s') :
    Covered s' := by
  cases request with
  | operation op => exact covered_step hs hc h
  | fireHooks rawEntry outcome metadata =>
    cases h
    exact hc.of_bestEdges rfl rfl hc.intact hc.kept

theorem Sound.run_serve [RetainingCorpus C] {requests : List (Request M Stmt)} (hs : Sound Stmt s) (hc : Covered s)
    (hrun : run Session.serve s requests = some s') : Sound Stmt s' ∧ Covered s' := by
  refine run_invariant_of_forall (I := fun s => Sound Stmt s ∧ Covered s) ?_ ⟨hs, hc⟩ hrun
  intro s request s' h hserve
  exact ⟨h.1.serve hserve, h.2.serve h.1 hserve⟩

end Session

namespace Played

variable {n size : Nat} {σ σ' : TaskSystem T} {e : RawEngine C S M} {s : Session C S M} {t : T} {x : Holding}

/-- The engine has collected the token of a result that it has judged. -/
theorem collect_of_commitTestResult {e e' : RawEngine C S M} {rawEntry : Entry Stmt} {metadata : Meta} {shmem : IPCToken}
    {outcome : TestOutcome} (hv : LawfulSchedule.Valid Stmt e.scheduler)
    (h : e.commitTestResult rawEntry metadata shmem = some (outcome, e')) :
    ∃ found, e.shmemQueue.collect e.edgeMap shmem = some (found, e'.edgeMap, e'.shmemQueue) := by
  obtain ⟨⟨found, edgeMap, q⟩, hcollect, h⟩ := Option.bind_eq_some_iff.1 h
  obtain ⟨⟨accepted, minimizer⟩, -, h⟩ := Option.bind_eq_some_iff.1 h
  simp only [Bandits.fireRuleHooks] at h
  obtain ⟨hqueue, hmap⟩ := conclude_keeps h hv
  refine ⟨found, ?_⟩
  rw [hcollect, hqueue, hmap]

variable [MutationStrategy M Stmt]

/-! ## Other calls -/

omit [LawfulSchedule S Stmt] in
/-- What such a call does to the engine does not depend on the rest of the session. -/
theorem step_tokenFree {op : Op M Stmt} (hop : op.tokenFree) (e : RawEngine C S M) (out : List IPCToken)
    (commits : List Committed) :
    (⟨e, out, commits⟩ : Session C S M).step op = ((⟨e, [], []⟩ : Session C S M).step op).map fun s =>
      ⟨s.engine, out, if op.clears then [] else commits⟩ := by
  cases op with
  | recv | write | returnToken | commitTestResult => cases hop
  | commitGeneration | populate | mutateBatch | chore =>
    simp only [Session.step, Option.map_map]
    rfl
  | snapshot | clear | clearStrategies | addStrategy | addMabBody => rfl

/-- It leaves the channel and the edge map alone. -/
theorem keeps_of_tokenFree {op : Op M Stmt} (hop : op.tokenFree) (hs : Session.Sound Stmt s) {s' : Session C S M}
    (h : s.step op = some s') :
    s'.engine.shmemQueue = s.engine.shmemQueue ∧ s'.engine.edgeMap = s.engine.edgeMap := by
  cases op with
  | recv | write | returnToken | commitTestResult => cases hop
  | commitGeneration members =>
    obtain ⟨e, hadd, rfl⟩ := Option.map_eq_some_iff.1 h
    have hquiet := RawEngine.foldlM_addEntry_quiet hs.valid hadd
    exact ⟨hquiet.shmemQueue, hquiet.edgeMap⟩
  | populate seedGens =>
    obtain ⟨e, hadd, rfl⟩ := Option.map_eq_some_iff.1 h
    have hquiet := RawEngine.foldlM_addEntry_quiet hs.valid hadd
    exact ⟨hquiet.shmemQueue, hquiet.edgeMap⟩
  | mutateBatch batchSize order draws currentId =>
    obtain ⟨⟨generation, e⟩, hbatch, rfl⟩ := Option.map_eq_some_iff.1 h
    have hquiet := RawEngine.mutateBatch_quiet hs.valid hbatch
    exact ⟨hquiet.shmemQueue, hquiet.edgeMap⟩
  | chore order =>
    obtain ⟨e, hchore, rfl⟩ := Option.map_eq_some_iff.1 h
    obtain ⟨e', hchore', hswept⟩ := RawEngine.chore_spec order hs.valid
    obtain rfl : e' = e := Option.some.inj (hchore'.symm.trans hchore)
    exact ⟨hswept.shmemQueue, hswept.edgeMap⟩
  | snapshot | clear | clearStrategies | addStrategy | addMabBody =>
    cases h
    exact ⟨rfl, rfl⟩

variable [LawfulLog]

/-- **A call that has nothing to do with tokens.** -/
theorem call (h : Played Stmt n size σ e s) {request : Request M Stmt} (hrequest : request.tokenFree)
    {s₁ : Session C S M} (hserve : (⟨σ.load e, [], []⟩ : Session C S M).serve request = some s₁) :
    ∃ s', s.serve request = some s' ∧ s'.commits = (if request.clears then [] else s.commits) ∧
      Played Stmt n size σ s₁.engine s' := by
  cases request with
  | operation op =>
    have hs : s.step op = some ⟨s₁.engine, s.out, if op.clears then [] else s.commits⟩ := by
      change (⟨σ.load e, [], []⟩ : Session C S M).step op = some s₁ at hserve
      obtain ⟨engine, out, commits⟩ := s
      obtain rfl : engine = σ.load e := h.engine
      rw [step_tokenFree hrequest, hserve]
      rfl
    obtain ⟨hqueue, hmap⟩ := keeps_of_tokenFree hrequest h.sound hs
    refine ⟨_, hs, rfl, h.exclusive, Session.sound_step h.sound hs, ?_, h.out, h.distinct⟩
    rw [h.engine] at hqueue hmap
    show s₁.engine = { s₁.engine with shmemQueue := σ.shmemQueue, edgeMap := σ.edgeMap }
    rw [← show s₁.engine.shmemQueue = σ.shmemQueue from hqueue, ← show s₁.engine.edgeMap = σ.edgeMap from hmap]
  | fireHooks rawEntry outcome metadata =>
    cases hserve
    have hs : s.serve (.fireHooks rawEntry outcome metadata : Request M Stmt) =
        some { s with engine := s.engine.fireHooks rawEntry outcome metadata } := rfl
    refine ⟨_, hs, rfl, h.exclusive, h.sound.serve hs, ?_, h.out, h.distinct⟩
    dsimp only
    rw [h.engine]
    rfl

/-! ## Calls with a token -/

variable [DecidableEq T]

/-- The map of a token that a task has is written to. -/
theorem write (h : Played Stmt n size σ e s) (hx : σ.held t = some x) {y : Holding} {map : List UInt8}
    (hy : y.token = { x.token with shmem := map }) (hlength : map.length = x.token.shmem.length)
    (hexclusive : (σ.hold t (some y)).Exclusive n size) :
    ∃ op : Op M Stmt, ∃ s', s.step op = some s' ∧ s'.commits = s.commits ∧
      Played Stmt n size (σ.hold t (some y)) e s' := by
  obtain ⟨i, hi⟩ := h.exists_place hx
  obtain ⟨hlt, hget⟩ := List.getElem?_eq_some_iff.1 hi
  have hstep : s.step (.write i map : Op M Stmt) = some { s with out := s.out.set i y.token } := by
    rw [hy]
    simp only [Session.step, hi, Option.bind_eq_bind, Option.bind_some]
    rw [if_pos hlength]
  have hperm : s.out.Perm (x.token :: s.out.eraseIdx i) := by
    rw [← hget]
    exact (List.getElem_cons_eraseIdx_perm hlt).symm
  have hset : (s.out.set i y.token).Perm (y.token :: s.out.eraseIdx i) := List.set_perm_cons_eraseIdx hlt _
  refine ⟨.write i map, _, hstep, rfl, hexclusive, Session.sound_step h.sound hstep, h.engine, fun token => ?_, ?_⟩
  · rw [hset.mem_iff]
    exact h.out_hold hx (fun token => mem_rest hperm h.distinct) (some y) token
  · rw [(hset.map _).nodup_iff, List.map_cons, hy]
    have hnodup := ((hperm.map IPCToken.id).nodup_iff).1 h.distinct
    rwa [List.map_cons] at hnodup

theorem recv (h : Played Stmt n size σ e s) {token : IPCToken} {q : SharedMemHandle} (ht : σ.held t = none)
    (hrecv : σ.shmemQueue.recv = some (token, q)) :
    ∃ s', s.step (.recv : Op M Stmt) = some s' ∧ s'.commits = s.commits ∧
      Played Stmt n size ({ σ with shmemQueue := q }.hold t (some ⟨token, .testing, ∅⟩)) e s' := by
  have hstep : s.step (.recv : Op M Stmt) =
      some { s with engine := { s.engine with shmemQueue := q }, out := s.out ++ [token] } := by
    have hqueue : s.engine.shmemQueue.recv = some (token, q) := by
      rw [h.engine]
      exact hrecv
    simp only [Session.step, hqueue, Option.bind_eq_bind, Option.bind_some]
  have hqueued : token.id ∈ σ.queueIds := by
    rw [TaskSystem.queueIds, (SharedMemHandle.recv_eq_some hrecv).1]
    exact List.mem_cons_self
  refine ⟨_, hstep, rfl, h.exclusive.recv t hrecv, Session.sound_step h.sound hstep, ?_, fun token' => ?_, ?_⟩
  · dsimp only
    rw [h.engine]
    rfl
  · rw [List.mem_append, List.mem_singleton, h.out token']
    constructor
    · rintro (⟨t', x', hx', rfl⟩ | rfl)
      · refine ⟨t', x', ?_, rfl⟩
        rw [TaskSystem.held_hold, if_neg, hx']
        rintro rfl
        cases ht.symm.trans hx'
      · exact ⟨t, _, TaskSystem.held_hold_self _ t _, rfl⟩
    · rintro ⟨t', x', hx', rfl⟩
      rw [TaskSystem.held_hold] at hx'
      split at hx'
      · cases hx'
        exact .inr rfl
      · exact .inl ⟨t', x', hx', rfl⟩
  · rw [List.map_append, List.map_singleton, List.nodup_append']
    refine ⟨h.distinct, List.nodup_singleton _, ?_⟩
    rw [List.disjoint_singleton]
    intro hmem
    -- what is out is not in the channel
    obtain ⟨token', htoken', hid⟩ := List.mem_map.1 hmem
    obtain ⟨t', x', hx', rfl⟩ := (h.out token').1 htoken'
    exact (h.exclusive.holding t' x' hx').id_not_mem (hid ▸ hqueued)

theorem push (h : Played Stmt n size σ e s) (hx : σ.held t = some x) (hp : x.phase = .zeroed) {q : SharedMemHandle}
    (hpush : σ.shmemQueue.push x.token = some q) :
    ∃ op : Op M Stmt, ∃ s', s.step op = some s' ∧ s'.commits = s.commits ∧
      Played Stmt n size ({ σ with shmemQueue := q }.hold t none) e s' := by
  obtain ⟨i, hi⟩ := h.exists_place hx
  have hgood := h.exclusive.holding t x hx
  -- the map is zero already
  have hzero : σ.shmemQueue.zero x.token = x.token := by
    have hshmem : (σ.shmemQueue.zero x.token).shmem = x.token.shmem := by
      rw [SharedMemHandle.shmem_zero (hgood.length.trans h.exclusive.shmemSize.symm), h.exclusive.shmemSize,
        hgood.zeroed hp]
    exact congrArg (fun map => { x.token with shmem := map }) hshmem
  have hstep : s.step (.returnToken i : Op M Stmt) =
      some { s with engine := { s.engine with shmemQueue := q }, out := s.out.eraseIdx i } := by
    have hsend : s.engine.shmemQueue.send x.token = some q := by
      rw [h.engine]
      exact (congrArg σ.shmemQueue.push hzero).trans hpush
    simp only [Session.step, hi, RawEngine.returnToken, hsend, Option.bind_eq_bind, Option.bind_some, Option.map_some]
  refine ⟨.returnToken i, _, hstep, rfl, ?_⟩
  refine h.drop (q := q) (m := σ.edgeMap) hx hi ?_ (Session.sound_step h.sound hstep) ?_ rfl
  · exact h.exclusive.step (TaskSystem.step_push hx hp hpush)
  · dsimp only
    rw [h.engine]
    rfl

/-- **A step of a task that is not part of a commit.** -/
theorem step {b : TaskStep T} (h : Played Stmt n size σ e s) (hb : b.judges = false) (hstep : σ.step b = some σ') :
    ∃ op : Op M Stmt, ∃ s', s.step op = some s' ∧ s'.commits = s.commits ∧ Played Stmt n size σ' e s' := by
  have hexclusive := h.exclusive.step hstep
  cases b with
  | recv t =>
    simp only [TaskSystem.step] at hstep
    split at hstep
    · cases hstep
    · rename_i ht
      obtain ⟨⟨token, q⟩, hrecv, hstep⟩ := Option.bind_eq_some_iff.1 hstep
      cases hstep
      exact ⟨.recv, h.recv ht hrecv⟩
  | hit t edge =>
    obtain ⟨x, hx, hstep⟩ := Option.bind_eq_some_iff.1 hstep
    split at hstep
    · cases hstep
      exact h.write hx rfl List.length_set hexclusive
    · cases hstep
  | giveBack t path =>
    obtain ⟨x, hx, hstep⟩ := Option.bind_eq_some_iff.1 hstep
    split at hstep
    · cases hstep
      have hlength := (h.exclusive.holding t x hx).length
      have hzero := SharedMemHandle.shmem_zero (hlength.trans h.exclusive.shmemSize.symm)
      have hmap : σ.shmemQueue.zero x.token = { x.token with shmem := (σ.shmemQueue.zero x.token).shmem } := rfl
      refine h.write hx hmap ?_ hexclusive
      rw [hzero, List.length_replicate, h.exclusive.shmemSize, hlength]
    · cases hstep
  | commit t => cases hb
  | zero t => cases hb
  | push t =>
    obtain ⟨x, hx, hstep⟩ := Option.bind_eq_some_iff.1 hstep
    split at hstep
    · rename_i hp
      obtain ⟨q, hpush, hstep⟩ := Option.bind_eq_some_iff.1 hstep
      cases hstep
      exact h.push hx hp hpush
    · cases hstep

theorem run {bs : List (TaskStep T)} (h : Played Stmt n size σ e s) (hbs : ∀ b ∈ bs, b.judges = false)
    (hrun : Lib.run TaskSystem.step σ bs = some σ') :
    ∃ (ops : List (Op M Stmt)) (s' : Session C S M), Lib.run Session.step s ops = some s' ∧
      s'.commits = s.commits ∧ Played Stmt n size σ' e s' := by
  induction bs generalizing σ s with
  | nil =>
    cases hrun
    exact ⟨[], s, rfl, rfl, h⟩
  | cons b bs ih =>
    obtain ⟨σ₁, hstep, hrun⟩ := run_cons_eq_some.1 hrun
    obtain ⟨op, s₁, hop, hcommits, h₁⟩ := h.step (hbs b List.mem_cons_self) hstep
    obtain ⟨ops, s', hops, hcommits', h'⟩ := ih h₁ (fun c hc => hbs c (List.mem_cons_of_mem _ hc)) hrun
    exact ⟨op :: ops, s', run_cons_eq_some.2 ⟨s₁, hop, hops⟩, hcommits'.trans hcommits, h'⟩

/-- **A commit of a task.** -/
theorem commit (h : Played Stmt n size σ e s) (hx : σ.held t = some x) (hp : x.phase = .testing) {e' : RawEngine C S M}
    {rawEntry : Entry Stmt} {metadata : Meta} {outcome : TestOutcome}
    (hcommit : (σ.load e).commitTestResult rawEntry metadata x.token = some (outcome, e')) :
    ∃ σ' s', Lib.run TaskSystem.step σ [.commit t, .zero t, .push t] = some σ' ∧
      (∃ op : Op M Stmt, s.step op = some s') ∧
      s'.commits = s.commits ++ [⟨rawEntry.entry.id, x.token.asEdgeMap⟩] ∧ Played Stmt n size σ' e' s' := by
  obtain ⟨i, hi⟩ := h.exists_place hx
  have hv : LawfulSchedule.Valid Stmt (σ.load e).scheduler := h.engine ▸ h.sound.valid
  obtain ⟨found, hcollect⟩ := collect_of_commitTestResult hv hcommit
  have hrun := TaskSystem.run_collect hx hp hcollect
  have hstep : s.step (.commitTestResult i rawEntry metadata : Op M Stmt) =
      some ⟨e', s.out.eraseIdx i, s.commits ++ [⟨rawEntry.entry.id, x.token.asEdgeMap⟩]⟩ := by
    rw [← h.engine] at hcommit
    simp only [Session.step, hi, hcommit, Option.bind_eq_bind, Option.bind_some]
  refine ⟨_, _, hrun, ⟨_, hstep⟩, rfl, ?_⟩
  refine h.drop hx hi ?_ (Session.sound_step h.sound hstep) rfl rfl
  exact run_invariant_of_forall (fun _ _ _ hs hstep => hs.step hstep) h.exclusive hrun

end Played

end Lsf.Engine
