import Lsf.Engine.Exact
import Lsf.Engine.Parametric
import Lsf.Engine.Refinement
import Lsf.Engine.Session

/-!
# The tiers cannot be seen

An engine works with any corpus, and two corpora that answer alike make no difference to it (`Alike.step_rel`), but for
the entries that a corpus protects from a pass of `minimize`. So an engine over the tiered corpus and reliable storage
refines one over a plain map that protects some of its entries, whatever the scheduler, the strategies and the caps of
the tiers (`tiers_unseen`).
-/

namespace Lsf.Engine

open Lsf.Core Lsf.Lib Lsf.Cov Lsf.Feedback PriorityQueue

section Relations

variable {C C' S M Stmt : Type} [CorpusHandler C Stmt] [CorpusHandler C' Stmt]

/-- Related corpora answer alike, and are related after every operation, an insertion of entries with `K` included. -/
structure Writing (K : CorpusEntry Stmt → Prop) (R : C → C' → Prop) : Prop extends Reading R where
  insert : ∀ c c' (e : CorpusEntry Stmt) score, R c c' → K e →
    R (CorpusHandler.insert c e score) (CorpusHandler.insert c' e score)
  remove : ∀ c c' id, R c c' → R (CorpusHandler.remove c id) (CorpusHandler.remove c' id)
  resize : ∀ c c', R c c' → R (CorpusHandler.resize c) (CorpusHandler.resize c')
  clear : ∀ c c', R c c' → R (CorpusHandler.clear c) (CorpusHandler.clear c')

/-- The engine over another corpus. -/
def RawEngine.withCorpus (e : RawEngine C S M) (c : C') : RawEngine C' S M where
  corpus := c
  shmemQueue := e.shmemQueue
  scheduler := e.scheduler
  strategies := e.strategies
  minimizer := e.minimizer
  mabBodies := e.mabBodies
  edgeMap := e.edgeMap
  sizeAtLastReset := e.sizeAtLastReset
  bandits := e.bandits

/-- Equal engines over related corpora. -/
def RawEngine.Alike (R : C → C' → Prop) (e : RawEngine C S M) (e' : RawEngine C' S M) : Prop :=
  ∃ c', R e.corpus c' ∧ e' = e.withCorpus c'

/-- Equal answers, and engines that are alike. -/
def RawEngine.AlikeWith {α : Type} (R : C → C' → Prop) (r : α × RawEngine C S M) (r' : α × RawEngine C' S M) : Prop :=
  r.1 = r'.1 ∧ RawEngine.Alike R r.2 r'.2

end Relations

namespace RawEngine

variable {C C' S M Stmt : Type} [CorpusHandler C Stmt] [CorpusHandler C' Stmt] [Schedule S Stmt]
  {K : CorpusEntry Stmt → Prop} {R : C → C' → Prop} {e : RawEngine C S M} {e' : RawEngine C' S M}

theorem Alike.returnToken (h : Alike R e e') (token : IPCToken) :
    Option.Rel (Alike R) (e.returnToken token) (e'.returnToken token) := by
  obtain ⟨c', hc, rfl⟩ := h
  show Option.Rel _ (Option.map _ (e.shmemQueue.send token)) (Option.map _ (e.shmemQueue.send token))
  cases e.shmemQueue.send token with
  | none => exact .none
  | some q => exact .some ⟨c', hc, rfl⟩

theorem Alike.addEntry (hR : Writing K R) (h : Alike R e e') (score : F64 → F64) {entry : CorpusEntry Stmt}
    (hentry : K entry) : Option.Rel (Alike R) (e.addEntry score entry) (e'.addEntry score entry) := by
  obtain ⟨c', hc, rfl⟩ := h
  exact rel_bind_same fun (s, scheduler, bandits) => .some ⟨_, hR.insert _ _ entry (score s) hc hentry, rfl⟩

theorem Alike.foldlM_addEntry (hR : Writing K R) (h : Alike R e e') (score : F64 → F64)
    {entries : List (CorpusEntry Stmt)} (hentries : ∀ entry ∈ entries, K entry) :
    Option.Rel (Alike R) (entries.foldlM (RawEngine.addEntry score) e) (entries.foldlM (RawEngine.addEntry score) e') :=
  rel_foldlM (fun _ _ entry hentry h => h.addEntry hR score (hentries entry hentry)) h

theorem Alike.commitGeneration (hR : Writing K R) (h : Alike R e e') {members : List (CorpusEntry Stmt)}
    (hmembers : ∀ entry ∈ members, K entry) :
    Option.Rel (Alike R) (e.commitGeneration members) (e'.commitGeneration members) :=
  h.foldlM_addEntry hR id hmembers

theorem Alike.populate (hR : Writing K R) (h : Alike R e e') {seedGens : List (List (CorpusEntry Stmt))}
    (hseeds : ∀ entry ∈ seedGens.flatten, K entry) :
    Option.Rel (Alike R) (e.populate seedGens) (e'.populate seedGens) :=
  h.foldlM_addEntry hR (fun _ => .posInf) hseeds

omit [Schedule S Stmt] in
theorem Alike.snapshot (hR : Writing K R) (h : Alike R e e') (order : HashOrder ID) :
    AlikeWith R (e.snapshot order) (e'.snapshot order) := by
  obtain ⟨c', hc, rfl⟩ := h
  obtain ⟨hentries, hend⟩ := hR.getAll hc (order.list (CorpusHandler.ids e.corpus))
  have hids : CorpusHandler.ids (e.withCorpus c').corpus = CorpusHandler.ids e.corpus := (hR.ids _ _ hc).symm
  unfold RawEngine.snapshot
  rw [hids]
  exact ⟨hentries, _, hend, rfl⟩

theorem Alike.clear (hR : Writing K R) (h : Alike R e e') : Alike R (e.clear Stmt) (e'.clear Stmt) := by
  obtain ⟨c', hc, rfl⟩ := h
  exact ⟨_, hR.clear _ _ hc, rfl⟩

/-- A pass that spares the same entries culls the same ones, in the same order. -/
theorem minimize_rel (hR : Writing K R) (m : GreedyCoverage) (order : HashOrder ID) {c : C} {c' : C'} (hc : R c c')
    (hprotected : CorpusHandler.protectedIds c = CorpusHandler.protectedIds c') (scheduler : S) :
    Option.Rel (Alongside R) (m.minimize Stmt order c scheduler) (m.minimize Stmt order c' scheduler) := by
  have hbad : CorpusHandler.ids c \ m.protectd c = CorpusHandler.ids c' \ m.protectd c' := by
    unfold GreedyCoverage.protectd
    rw [hR.ids _ _ hc, hprotected]
  have hcull : ∀ (v : GreedyCoverage.Cull C S) (v' : GreedyCoverage.Cull C' S) (id : ID), Alongside R v v' →
      Option.Rel (Alongside R) (GreedyCoverage.cull Stmt v id) (GreedyCoverage.cull Stmt v' id) := by
    rintro ⟨rotation, corpus, scheduler⟩ ⟨rotation', corpus', scheduler'⟩ id ⟨rfl, hcorpus, rfl⟩
    simp only [GreedyCoverage.cull]
    split
    · exact rel_bind_same fun scheduler => .some ⟨rfl, hR.remove _ _ id hcorpus, rfl⟩
    · exact .some ⟨rfl, hcorpus, rfl⟩
  unfold GreedyCoverage.minimize
  rw [hbad]
  refine rel_bind (rel_foldlM (fun v v' id _ => hcull v v' id) ⟨rfl, hc, rfl⟩) fun v v' hv => ?_
  obtain ⟨rotation, corpus, scheduler⟩ := v
  obtain ⟨rotation', corpus', scheduler'⟩ := v'
  obtain ⟨rfl, hcorpus, rfl⟩ := hv
  exact .some ⟨rfl, hcorpus, rfl⟩

theorem Alike.chore (hR : Writing K R) (h : Alike R e e') (order : HashOrder ID)
    (hprotected : CorpusHandler.protectedIds (CorpusHandler.resize e.corpus) =
      CorpusHandler.protectedIds (CorpusHandler.resize e'.corpus)) :
    Option.Rel (Alike R) (e.chore Stmt order) (e'.chore Stmt order) := by
  obtain ⟨c', hc, rfl⟩ := h
  have hc₁ : R (CorpusHandler.resize e.corpus) (CorpusHandler.resize c') := hR.resize _ _ hc
  have hsize : (e.resize Stmt).corpusSize Stmt = ((e.withCorpus c').resize Stmt).corpusSize Stmt := hR.size _ _ hc₁
  have hresized : Alike R (e.resize Stmt) ((e.withCorpus c').resize Stmt) := ⟨_, hc₁, rfl⟩
  simp only [RawEngine.chore]
  rw [hsize]
  change Option.Rel _ (ite (_ ∧ _) _ _) (ite (_ ∧ _) _ _)
  have hlast : ((e.withCorpus c').resize Stmt).sizeAtLastReset = (e.resize Stmt).sizeAtLastReset := rfl
  rw [hlast]
  split
  · refine rel_bind (minimize_rel hR _ order hc₁ hprotected _) fun r r' hr => ?_
    obtain ⟨minimizer, corpus, scheduler⟩ := r
    obtain ⟨minimizer', corpus', scheduler'⟩ := r'
    obtain ⟨rfl, hcorpus, hscheduler⟩ := hr
    dsimp only at hcorpus hscheduler
    subst hscheduler
    refine .some ⟨corpus', hcorpus, ?_⟩
    dsimp only
    rw [hR.size _ _ hcorpus]
    rfl
  · exact .some hresized

theorem Alike.mutateBatch [ParametricSchedule S Stmt] [MutationStrategy M Stmt] (hR : Writing K R) (h : Alike R e e')
    (batchSize : Nat) (order : HashOrder ID) (draws : List Draw) (currentId : UInt32) :
    Option.Rel (AlikeWith R) (e.mutateBatch batchSize order draws currentId : Option (List (Entry Stmt) × _))
      (e'.mutateBatch batchSize order draws currentId) := by
  obtain ⟨c', hc, rfl⟩ := h
  unfold RawEngine.mutateBatch
  split
  · exact .some ⟨rfl, c', hc, rfl⟩
  · have hbatch :=
      ParametricSchedule.nextBatch_rel hR.toReading e.scheduler e.corpus c' batchSize e.bandits order draws hc
    refine rel_bind hbatch fun b b' hb => ?_
    obtain ⟨members, scheduler, c₁, bandits, draws⟩ := b
    obtain ⟨members', scheduler', c₁', bandits', draws'⟩ := b'
    obtain ⟨rfl, rfl, hc₁, rfl, rfl⟩ := hb
    exact rel_bind_same fun (generation, σ) => .some ⟨rfl, c₁', hc₁, rfl⟩

theorem Alike.conclude (hR : Writing K R) (h : Alike R e e') (accepted : TestOutcome) {entry : CorpusEntry Stmt}
    (hentry : K entry) :
    Option.Rel (AlikeWith R) (RawEngine.conclude accepted entry e) (RawEngine.conclude accepted entry e') := by
  unfold RawEngine.conclude
  split
  · exact .some ⟨rfl, h⟩
  · refine rel_map (h.commitGeneration hR fun entry' hmem => ?_) fun e e' h => ⟨rfl, h⟩
    rw [List.mem_singleton.1 hmem]
    exact hentry

/-- The entry that is committed may be inserted. -/
theorem Alike.commitTestResult [Hasher Stmt] [FloatFns ℚ] (hR : Writing K R) (h : Alike R e e') {rawEntry : Entry Stmt}
    (hentry : ∀ m, K (rawEntry.entry.intoCorpusEntry m)) (metadata : Meta) (shmem : IPCToken) :
    Option.Rel (AlikeWith R) (e.commitTestResult rawEntry metadata shmem)
      (e'.commitTestResult rawEntry metadata shmem) := by
  obtain ⟨c', hc, rfl⟩ := h
  refine rel_bind_same fun (found, edgeMap, q) => rel_bind_same fun (accepted, minimizer) => ?_
  refine Alike.conclude hR ?_ accepted (hentry _)
  exact ⟨c', hc, rfl⟩

end RawEngine

/-! ## Sessions over related corpora -/

/-- The entries that an operation adds have `K`. -/
def Op.Admits {M Stmt : Type} (K : CorpusEntry Stmt → Prop) : Op M Stmt → Prop
  | .commitTestResult _ rawEntry _ => ∀ m, K (rawEntry.entry.intoCorpusEntry m)
  | .commitGeneration members => ∀ entry ∈ members, K entry
  | .populate seedGens => ∀ entry ∈ seedGens.flatten, K entry
  | _ => True

/-- What an operation returns to its caller. -/
inductive Told (Stmt : Type) where
  | nothing
  | outcome (accepted : Option TestOutcome)
  | children (generation : Option (List (Entry Stmt)))
  | entries (snapshot : List (CorpusEntry Stmt))

/-- What is seen of an operation: what it returns, and after it everything but how the corpus keeps its entries. -/
structure Observed (S M Stmt : Type) where
  told : Told Stmt
  session : Session Unit S M
  ids : Finset ID
  size : Nat
  contents : ID → Option (CorpusEntry Stmt)

namespace Session

variable {C C' S M Stmt : Type}

/-- The session over another corpus. -/
def withCorpus (s : Session C S M) (c : C') : Session C' S M := ⟨s.engine.withCorpus c, s.out, s.commits⟩

/-- Equal sessions over related corpora. -/
def Alike (R : C → C' → Prop) (s : Session C S M) (s' : Session C' S M) : Prop :=
  ∃ c', R s.engine.corpus c' ∧ s' = s.withCorpus c'

variable [CorpusHandler C Stmt] [CorpusHandler C' Stmt] [Schedule S Stmt] [MutationStrategy M Stmt] [Hasher Stmt]
  [FloatFns ℚ]

def told (s : Session C S M) : Op M Stmt → Told Stmt
  | .commitTestResult i rawEntry metadata =>
    .outcome ((s.out[i]?).bind fun token => (s.engine.commitTestResult rawEntry metadata token).map Prod.fst)
  | .mutateBatch batchSize order draws currentId =>
    .children ((s.engine.mutateBatch batchSize order draws currentId : Option (List (Entry Stmt) × RawEngine C S M)).map
      Prod.fst)
  | .snapshot order => .entries (s.engine.snapshot order).1
  | _ => .nothing

/-- What is seen of the session after an operation that returned `told`. -/
def seen (told : Told Stmt) (s : Session C S M) : Observed S M Stmt where
  told := told
  session := s.withCorpus ()
  ids := CorpusHandler.ids s.engine.corpus
  size := CorpusHandler.size s.engine.corpus
  contents id := (CorpusHandler.get s.engine.corpus id).1

/-- One operation; after a panic there is nothing any more. -/
def observe (s : Option (Session C S M)) (op : Op M Stmt) : Option (Observed S M Stmt) × Option (Session C S M) :=
  let s' := s.bind (·.step op)
  (s.bind fun s => s'.map (seen (s.told op)), s')

section Step

variable [ParametricSchedule S Stmt] {K : CorpusEntry Stmt → Prop} {R : C → C' → Prop} {s : Session C S M}
  {s' : Session C' S M}

omit [FloatFns ℚ] in
theorem Alike.of_engine {e : RawEngine C S M} {e' : RawEngine C' S M} (h : RawEngine.Alike R e e') (out : List IPCToken)
    (commits : List Committed) : Alike R ⟨e, out, commits⟩ ⟨e', out, commits⟩ := by
  obtain ⟨c', hc, rfl⟩ := h
  exact ⟨c', hc, rfl⟩

theorem Alike.told_eq (hR : Writing K R) (h : Alike R s s') {op : Op M Stmt} (hop : op.Admits K) :
    s.told op = s'.told op := by
  obtain ⟨c', hc, rfl⟩ := h
  have hengine : RawEngine.Alike R s.engine (s.engine.withCorpus c') := ⟨c', hc, rfl⟩
  cases op with
  | commitTestResult i rawEntry metadata =>
    refine congrArg Told.outcome (Option.bind_congr fun token _ => ?_)
    exact map_eq_of_rel (hengine.commitTestResult hR hop metadata token) fun _ _ h => h.1
  | mutateBatch batchSize order draws currentId =>
    have hbatch := hengine.mutateBatch hR batchSize order draws currentId
    exact congrArg Told.children (map_eq_of_rel hbatch fun _ _ h => h.1)
  | snapshot order => exact congrArg Told.entries (hengine.snapshot hR order).1
  | _ => rfl

omit [Schedule S Stmt] [MutationStrategy M Stmt] [Hasher Stmt] [FloatFns ℚ] [ParametricSchedule S Stmt] in
theorem Alike.seen_eq (hR : Writing K R) (h : Alike R s s') (told : Told Stmt) : s.seen told = s'.seen told := by
  obtain ⟨c', hc, rfl⟩ := h
  unfold seen
  rw [hR.ids _ _ hc, hR.size _ _ hc, funext fun id => hR.get_fst _ _ id hc]
  rfl

/-- **One operation over related corpora.** -/
theorem Alike.step_rel (hR : Writing K R) (h : Alike R s s') {op : Op M Stmt} (hop : op.Admits K)
    (hprotected : ∀ order, op = .chore order → CorpusHandler.protectedIds (CorpusHandler.resize s.engine.corpus) =
      CorpusHandler.protectedIds (CorpusHandler.resize s'.engine.corpus)) :
    Option.Rel (Alike R) (s.step op) (s'.step op) := by
  obtain ⟨c', hc, rfl⟩ := h
  have hengine : RawEngine.Alike R s.engine (s.engine.withCorpus c') := ⟨c', hc, rfl⟩
  cases op with
  | recv => exact rel_bind_same fun (token, q) => .some ⟨c', hc, rfl⟩
  | write i map =>
    refine rel_bind_same fun token => ?_
    split
    · exact .some ⟨c', hc, rfl⟩
    · exact .none
  | returnToken i =>
    exact rel_bind_same fun token => rel_bind (hengine.returnToken token) fun _ _ h => .some (.of_engine h _ _)
  | commitTestResult i rawEntry metadata =>
    refine rel_bind_same fun token => rel_bind (hengine.commitTestResult hR hop metadata token) ?_
    rintro ⟨outcome, e⟩ ⟨outcome', e'⟩ ⟨-, h⟩
    exact .some (.of_engine h _ _)
  | commitGeneration members => exact rel_map (hengine.commitGeneration hR hop) fun _ _ h => .of_engine h _ _
  | populate seedGens => exact rel_map (hengine.populate hR hop) fun _ _ h => .of_engine h _ _
  | mutateBatch batchSize order draws currentId =>
    exact rel_map (hengine.mutateBatch hR batchSize order draws currentId) fun _ _ h => .of_engine h.2 _ _
  | snapshot order => exact .some (.of_engine (hengine.snapshot hR order).2 _ _)
  | chore order => exact rel_map (hengine.chore hR order (hprotected order rfl)) fun _ _ h => .of_engine h _ _
  | clear => exact .some (.of_engine (hengine.clear hR) _ _)
  | clearStrategies => exact .some ⟨c', hc, rfl⟩
  | addStrategy strategy => exact .some ⟨c', hc, rfl⟩
  | addMabBody mab => exact .some ⟨c', hc, rfl⟩

theorem observe_rel (hR : Writing K R) {s : Option (Session C S M)} {s' : Option (Session C' S M)}
    (h : Option.Rel (Alike R) s s') {op : Op M Stmt} (hop : op.Admits K)
    (hprotected : ∀ t ∈ s, ∀ t' ∈ s', ∀ order, op = .chore order →
      CorpusHandler.protectedIds (CorpusHandler.resize t.engine.corpus) =
        CorpusHandler.protectedIds (CorpusHandler.resize t'.engine.corpus)) :
    (observe s op).1 = (observe s' op).1 ∧ Option.Rel (Alike R) (observe s op).2 (observe s' op).2 := by
  cases h with
  | none => exact ⟨rfl, .none⟩
  | some h =>
    have hstep := h.step_rel hR hop (hprotected _ rfl _ rfl)
    refine ⟨?_, hstep⟩
    show Option.map _ _ = Option.map _ _
    rw [h.told_eq hR hop]
    exact map_eq_of_rel hstep fun _ _ h => h.seen_eq hR _

end Step

end Session

/-! ## The tiers -/

/-- `InMemory`, with a set of entries that it protects. -/
structure Shielded (Stmt : Type) where
  entries : InMemory (CorpusEntry Stmt)
  shield : Finset ID

namespace Shielded

variable {Stmt : Type}

def new : Shielded Stmt := ⟨.new, ∅⟩

instance : CorpusHandler (Shielded Stmt) Stmt where
  get t id := ((CorpusHandler.get t.entries id).1, t)
  update t id score := { t with entries := CorpusHandler.update t.entries id score }
  insert t entry score := { t with entries := CorpusHandler.insert t.entries entry score }
  remove t id := { t with entries := CorpusHandler.remove t.entries id }
  resize t := { t with entries := CorpusHandler.resize t.entries }
  ids t := CorpusHandler.ids t.entries
  protectedIds t := t.shield
  clear t := { t with entries := CorpusHandler.clear t.entries }
  size t := CorpusHandler.size t.entries

variable {B Q : Type} [StorageBackend B Stmt] [PriorityQueue Q ID F64.Reverse] [ReliableStorage B]
  [LawfulPriorityQueue Q]

/-- The plain map holds what the tiered corpus holds. -/
def Stands (astOf : ID → AST Stmt) (c : DynamicCorpus Stmt B Q) (t : Shielded Stmt) : Prop := Refines astOf t.entries c

theorem writing_stands (astOf : ID → AST Stmt) :
    Writing (fun entry => entry.raw.ast = astOf entry.id) (Stands (B := B) (Q := Q) astOf) where
  get_fst _ _ i h := h.get_eq i
  get_snd _ _ i h := h.get i
  update _ _ i score h := h.update i score
  ids _ _ h := h.ids_eq
  size _ _ h := h.size_eq
  insert _ _ _ score h hast := h.insert hast score
  remove _ _ i h := h.remove i
  resize _ _ h := h.resize
  clear c t _ := Refines.clear t.entries c

end Shielded

section Unseen

open Session

variable {S M Stmt B Q : Type} [StorageBackend B Stmt] [PriorityQueue Q ID F64.Reverse] [Schedule S Stmt]
  [MutationStrategy M Stmt] [Hasher Stmt] [FloatFns ℚ]

/-- One operation of a session over a plain map that protects `x.2` during it. -/
def observeShielded (s : Option (Session (Shielded Stmt) S M)) (x : Op M Stmt × Finset ID) :
    Option (Observed S M Stmt) × Option (Session (Shielded Stmt) S M) :=
  observe (s.map fun s => s.withCorpus { s.engine.corpus with shield := x.2 }) x.1

/-- **One operation over the tiers.** The map protects what the tiers would protect, were it a `chore`. -/
theorem observe_tiers [ReliableStorage B] [LawfulPriorityQueue Q] [ParametricSchedule S Stmt] {astOf : ID → AST Stmt}
    {s : Option (Session (DynamicCorpus Stmt B Q) S M)} {t : Option (Session (Shielded Stmt) S M)}
    (h : Option.Rel (Session.Alike (Shielded.Stands astOf)) s t) {op : Op M Stmt}
    (hop : op.Admits fun entry => entry.raw.ast = astOf entry.id) :
    ∃ shield, (observe s op).1 = (observeShielded t (op, shield)).1 ∧
      Option.Rel (Session.Alike (Shielded.Stands astOf)) (observe s op).2 (observeShielded t (op, shield)).2 := by
  cases h with
  | none => exact ⟨∅, rfl, .none⟩
  | @some s t h =>
    obtain ⟨c', hc, rfl⟩ := h
    let shield := CorpusHandler.protectedIds (CorpusHandler.resize s.engine.corpus)
    refine ⟨shield, observe_rel (Shielded.writing_stands astOf) (.some ⟨⟨c'.entries, shield⟩, hc, rfl⟩) hop ?_⟩
    rintro _ ⟨⟩ _ ⟨⟩ order -
    rfl

/-- **The tiers cannot be seen.** With one AST for each id and over storage that never fails, what is seen of a session
over the tiered corpus is what is seen of one over a plain map that protects some entries during each operation. -/
theorem tiers_unseen [ReliableStorage B] [LawfulPriorityQueue Q] [ParametricSchedule S Stmt] (astOf : ID → AST Stmt)
    (nWorkers maxEdges : Nat) (scheduler : S) (caps : Caps) (disk : B)
    (hdisk : ∀ i a, stored disk i = some a → a = astOf i) (strategies : List M) (mabBodies : List BodyRef)
    (bandits : Bandits) (ops : List (Op M Stmt))
    (hops : ∀ op ∈ ops, op.Admits fun entry => entry.raw.ast = astOf entry.id) :
    ∃ shields : List (Finset ID), shields.length = ops.length ∧
      answers observe (some (new nWorkers maxEdges scheduler (DynamicCorpus.new caps disk : DynamicCorpus Stmt B Q)
          strategies mabBodies bandits)) ops =
        answers observeShielded (some (new nWorkers maxEdges scheduler .new strategies mabBodies bandits))
          (ops.zip shields) := by
  have hnew : Shielded.Stands astOf (DynamicCorpus.new caps disk : DynamicCorpus Stmt B Q) .new :=
    Refines.new hdisk caps
  have h0 : Session.Alike (Shielded.Stands astOf) (new nWorkers maxEdges scheduler _ strategies mabBodies bandits)
      (new nWorkers maxEdges scheduler _ strategies mabBodies bandits) := ⟨_, hnew, rfl⟩
  obtain ⟨shields, hlength, heq, -⟩ := exists_answers_eq (R := Option.Rel (Session.Alike (Shielded.Stands astOf)))
    (fun s t op h hop => observe_tiers h hop) (.some h0) hops
  exact ⟨shields, hlength, heq⟩

end Unseen

attribute [local instance] FloatFns.tangent Hasher.mul

/-- Three entries in tiers of size one. -/
theorem tiers_unseen_populateCommitMutate :
    let disk : InMemory (AST Nat) := InMemory.new
    let tiers : DynamicCorpus Nat (InMemory (AST Nat)) (ListQueue ID F64.Reverse) := .new ⟨1, 1, 1, .sorted ID⟩ disk
    ∃ shields : List (Finset ID), shields.length = Session.populateCommitMutate.length ∧
      answers Session.observe (some (Session.new 1 1 (FastProbabilisticMABScheduler.new 0) tiers [] [0] .new))
          Session.populateCommitMutate =
        answers observeShielded (some (Session.new 1 1 (FastProbabilisticMABScheduler.new 0) Shielded.new [] [0] .new))
          (Session.populateCommitMutate.zip shields) :=
  tiers_unseen (fun i => if i.raw = 0 then [3] else if i.raw = 1 then [4] else [7]) 1 1 _ _ _
    (fun i a h => by rw [InMemory.stored_eq] at h; cases h) [] [0] .new _
    (by simp +contextual [Session.populateCommitMutate, Op.Admits, TestableEntry.new, CorpusEntry.id,
        RawEntry.intoCorpusEntry])

end Lsf.Engine
