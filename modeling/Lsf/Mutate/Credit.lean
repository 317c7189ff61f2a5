import Lsf.Engine.Engine
import Lsf.Lib.Run
import Lsf.Mutate.Telling

/-!
# Feedback to the arm that was chosen

An engine at work, with the entry that each arm was made for, and strategies that log what happens in their calls of
`breed`. A batch is credited when every entry in it was told once for each rule that ran on its child, and no other entry
was told. `mutate_batch` copies the rule hooks of an entry to its child, so that it credits every batch of a scheduler
that attaches its arms as rule hooks, and no batch on which a rule ran otherwise (`credited_iff`).
-/

namespace Lsf.Mutate

open Lsf.Core Lsf.Lib Lsf.Cov Lsf.Feedback Lsf.Engine

/-! ## Strategies in an engine -/

/-- A strategy with the queues of its schedulers; `runs` has what happened in each of its calls. -/
structure Planted (H : Type) where
  strategy : Strategy
  queues : QueueRef → H
  runs : List (List Event)

namespace Planted

variable {H Stmt : Type} [BinaryHeap H RuleItem]

/-- What a call starts with; nobody else has the AST of a new child. -/
def scene (p : Planted H) (child : Entry Stmt) (h : Bandits) (draws : List Draw) : Scene H Stmt :=
  ⟨⟨child, 0⟩, h, p.queues, draws, []⟩

/-- The arms of the strategy and of its queues are made, and were made for no entry. -/
structure Separate (owner : Owner) (n : ArmRef) (p : Planted H) : Prop where
  arms : ∀ arm ∈ p.strategy.arms, owner.upTo n arm = none
  queues : Neutral (owner.upTo n) p.queues

variable {owner : Owner} {n : ArmRef}

theorem Separate.mono {n' : ArmRef} {p : Planted H} (h : Separate owner n p) (hle : n ≤ n') : Separate owner n' p := by
  have hnone : ∀ arm, owner.upTo n arm = none → owner.upTo n' arm = none := by
    intro arm harm
    obtain ⟨hlt, hnone⟩ := Owner.upTo_eq_none.1 harm
    exact Owner.upTo_eq_none.2 ⟨hlt.trans_le hle, hnone⟩
  exact ⟨fun arm harm => hnone arm (h.arms arm harm), fun queue item hitem => hnone _ (h.queues queue item hitem)⟩

variable [FloatFns ℚ] [FloatExp ℚ] [Sqlparser Stmt]

instance : MutationStrategy (Planted H) Stmt where
  breed p child nextBatch h draws := (p.strategy.breed nextBatch (p.scene child h draws)).map fun (r, σ) =>
    ⟨r, σ.child.entry, { p with queues := σ.queues, runs := p.runs ++ [σ.events] }, σ.bandits, σ.draws⟩

variable [BinaryHeap.LawfulBinaryHeap H (SchedueldItem.score (T := Nat))]

/-- One call of `breed`. -/
theorem breed_spec {p : Planted H} {child : Entry Stmt} {nextBatch : List (Entry Stmt)} {h : Bandits}
    {draws : List Draw} {b : Bred (Planted H) Stmt} (hp : Separate owner n p)
    (hb : MutationStrategy.breed p child nextBatch h draws = some b) :
    b.child.parentStats = child.parentStats ∧ b.bandits.nextArm = h.nextArm ∧ Separate owner n b.strategy ∧
      ∃ log, b.strategy.runs = p.runs ++ [log] ∧ Tally owner child.parentStats log := by
  obtain ⟨⟨r, σ⟩, hbreed, rfl⟩ := Option.map_eq_some_iff.1 hb
  obtain ⟨hqueues, -, -⟩ := answering_breed nextBatch p.strategy hp.arms (p.scene child h draws) hp.queues r σ hbreed
  have harms : ∀ arm ∈ p.strategy.arms, owner arm = none :=
    fun arm harm => (Owner.upTo_eq_none.1 (hp.arms arm harm)).2
  have hneutral : Neutral owner p.queues :=
    fun queue item hitem => (Owner.upTo_eq_none.1 (hp.queues queue item hitem)).2
  obtain ⟨-, htold, -⟩ := answering_breed nextBatch p.strategy harms (p.scene child h draws) hneutral r σ hbreed
  obtain ⟨new, hnew, htally⟩ := htold.events
  refine ⟨htold.parentStats, htold.nextArm, ⟨hp.arms, hqueues⟩, new, ?_, htally⟩
  show p.runs ++ [σ.events] = p.runs ++ [new]
  rw [hnew]
  rfl

/-! ## The loops of `mutate_batch` -/

/-- The strategies afterwards are those before, and each has logged the calls for the `members`. -/
def Logged (owner : Owner) (n : ArmRef) (members : List (Entry Stmt)) (strategies strategies' : List (Planted H)) :
    Prop :=
  ∀ p' ∈ strategies', Separate owner n p' ∧ ∃ p ∈ strategies, ∃ logs, p'.runs = p.runs ++ logs ∧
    List.Forall₂ (fun (m : Entry Stmt) log => Tally owner m.appliedRuleStats log) members logs

theorem breedAll_spec {nextBatch : List (Entry Stmt)} {strategies strategies' : List (Planted H)}
    {state state' : MutationState} {child child' : Entry Stmt} {h h' : Bandits} {draws draws' : List Draw}
    (hsep : ∀ p ∈ strategies, Separate owner n p)
    (hbreed : breedAll nextBatch strategies state child h draws = some (state', child', strategies', h', draws')) :
    h'.nextArm = h.nextArm ∧ ∀ p' ∈ strategies', Separate owner n p' ∧ ∃ p ∈ strategies, ∃ log,
      p'.runs = p.runs ++ [log] ∧ Tally owner child.parentStats log := by
  induction strategies generalizing strategies' state child h draws with
  | nil =>
    cases hbreed
    exact ⟨rfl, fun _ hp => by cases hp⟩
  | cons p strategies ih =>
    obtain ⟨b, hb, hbreed⟩ := Option.bind_eq_some_iff.1 hbreed
    obtain ⟨⟨state₁, child₁, strategies₁, h₁, draws₁⟩, hrest, hbreed⟩ := Option.bind_eq_some_iff.1 hbreed
    cases hbreed
    obtain ⟨hstats, harm, hsep', log, hlog, htally⟩ := breed_spec (hsep p (by simp)) hb
    obtain ⟨harm₁, hrest⟩ := ih (fun q hq => hsep q (by simp [hq])) hrest
    refine ⟨harm₁.trans harm, fun p' hp' => ?_⟩
    rcases List.mem_cons.1 hp' with rfl | hp'
    · exact ⟨hsep', p, by simp, log, hlog, htally⟩
    · obtain ⟨hsep₁, q, hq, log', hlog', htally'⟩ := hrest p' hp'
      rw [hstats] at htally'
      exact ⟨hsep₁, q, List.mem_cons_of_mem _ hq, log', hlog', htally'⟩

theorem mutateEntries_spec {nextBatch members children : List (Entry Stmt)} {σ σ' : Breeding (Planted H)}
    (hsep : ∀ p ∈ σ.strategies, Separate owner n p) (h : mutateEntries nextBatch members σ = some (children, σ')) :
    σ'.bandits.nextArm = σ.bandits.nextArm ∧ Logged owner n members σ.strategies σ'.strategies := by
  induction members generalizing children σ with
  | nil =>
    cases h
    exact ⟨rfl, fun p hp => ⟨hsep p hp, p, hp, [], (List.append_nil _).symm, .nil⟩⟩
  | cons m members ih =>
    obtain ⟨⟨child, σ₁⟩, hentry, h⟩ := Option.bind_eq_some_iff.1 h
    obtain ⟨⟨children₁, σ₂⟩, hrest, h⟩ := Option.bind_eq_some_iff.1 h
    cases h
    obtain ⟨⟨state, child₁, strategies, bandits, draws⟩, hbreed, hentry⟩ := Option.bind_eq_some_iff.1 hentry
    cases hentry
    obtain ⟨harm, hone⟩ := breedAll_spec hsep hbreed
    obtain ⟨harm', hlogged⟩ := ih (fun p hp => (hone p hp).1) hrest
    refine ⟨harm'.trans harm, fun p' hp' => ?_⟩
    obtain ⟨hsep', p₁, hp₁, logs, hlogs, hall⟩ := hlogged p' hp'
    obtain ⟨-, p, hp, log, hlog, htally⟩ := hone p₁ hp₁
    refine ⟨hsep', p, hp, log :: logs, ?_, .cons htally hall⟩
    rw [hlogs, hlog, List.append_assoc]
    rfl

end Planted

/-! ## Credited batches -/

/-- What happened in the calls for the child of the `j`-th entry. -/
def eventsOf {H : Type} (strategies : List (Planted H)) (j : Nat) : List Event :=
  strategies.flatMap fun p => (p.runs[j]?).getD []

/-- **Every entry was told once for each rule that ran on its child**, and no other entry was told. -/
def Credited {H Stmt : Type} (owner : Owner) (members : List (Entry Stmt)) (strategies : List (Planted H)) : Prop :=
  ∀ j m, members[j]? = some m → ∀ id, toldCount owner id (eventsOf strategies j) =
    if id = m.entry.id then ranCount (eventsOf strategies j) else 0

section Credited

variable {H Stmt : Type} {owner : Owner} {members : List (Entry Stmt)} {strategies : List (Planted H)}

/-- All calls for the child of one entry together. -/
theorem tally_eventsOf (hlogs : ∀ p ∈ strategies,
    List.Forall₂ (fun (m : Entry Stmt) log => Tally owner m.appliedRuleStats log) members p.runs)
    {j : Nat} {m : Entry Stmt} (hm : members[j]? = some m) : Tally owner m.appliedRuleStats (eventsOf strategies j) := by
  induction strategies with
  | nil => exact .nil
  | cons p strategies ih =>
    have hp := hlogs p (by simp)
    obtain ⟨hlt, rfl⟩ := List.getElem?_eq_some_iff.1 hm
    have hlt' : j < p.runs.length := hp.length_eq ▸ hlt
    have htally : Tally owner members[j].appliedRuleStats p.runs[j] := hp.get hlt hlt'
    have hevents : eventsOf (p :: strategies) j = p.runs[j] ++ eventsOf strategies j := by
      simp [eventsOf, List.getElem?_eq_getElem hlt']
    rw [hevents]
    exact htally.append (ih fun q hq => hlogs q (by simp [hq]))

/-- The hooks that a child gets are the arm of its parent, or none. -/
theorem Hooked.hookCount_eq {passesArm : Bool} {m : Entry Stmt} (h : Hooked owner passesArm m) (id : ID) :
    hookCount owner id m.appliedRuleStats = if passesArm = true ∧ id = m.entry.id then 1 else 0 := by
  obtain ⟨a, ha, -, hrule⟩ := h.hooks
  rw [hrule]
  cases passesArm with
  | false => rfl
  | true => by_cases hid : id = m.entry.id <;> simp [hookCount, ha, hid, eq_comm]

/-- **When a batch is credited.** -/
theorem credited_iff_of_hooked {passesArm : Bool} (hhooked : ∀ m ∈ members, Hooked owner passesArm m)
    (hlogs : ∀ p ∈ strategies,
      List.Forall₂ (fun (m : Entry Stmt) log => Tally owner m.appliedRuleStats log) members p.runs) :
    Credited owner members strategies ↔
      passesArm = true ∨ ∀ j < members.length, ranCount (eventsOf strategies j) = 0 := by
  have htold : ∀ j m, members[j]? = some m → ∀ id, toldCount owner id (eventsOf strategies j) =
      ranCount (eventsOf strategies j) * if passesArm = true ∧ id = m.entry.id then 1 else 0 := by
    intro j m hm id
    rw [tally_eventsOf hlogs hm id, Hooked.hookCount_eq (hhooked m (List.mem_of_getElem? hm))]
  constructor
  · intro hcredited
    refine or_iff_not_imp_left.2 fun hpasses j hj => ?_
    have hm := List.getElem?_eq_getElem hj
    have hran := hcredited j _ hm members[j].entry.id
    rw [htold j _ hm, if_pos rfl, if_neg fun hand => hpasses hand.1, Nat.mul_zero] at hran
    exact hran.symm
  · rintro hor j m hm id
    rw [htold j m hm]
    rcases hor with hpasses | hnone
    · by_cases hid : id = m.entry.id <;> simp [hpasses, hid]
    · rw [hnone j (List.getElem?_eq_some_iff.1 hm).1]
      simp

end Credited

/-! ## Engines at work -/

/-- An engine with the entry that each arm was made for. -/
structure CreditRun (C S H : Type) where
  engine : RawEngine C S (Planted H)
  owner : Owner

/-- What an engine is asked for; `populate` and `commit_generation` add one entry after the other. -/
inductive CreditOp (H Stmt : Type) where
  | addEntry (score : F64 → F64) (entry : CorpusEntry Stmt)
  | commitTestResult (rawEntry : Entry Stmt) (metadata : Meta) (shmem : IPCToken)
  | mutateBatch (batchSize : Nat) (order : HashOrder ID) (draws : List Draw) (currentId : UInt32)
  | snapshot (order : HashOrder ID)
  | chore (order : HashOrder ID)
  | clear
  /-- A token is taken or comes back. -/
  | channel (q : SharedMemHandle)
  | clearStrategies
  /-- The strategy was built, which may have made arms. -/
  | addStrategy (p : Planted H) (h : Bandits)
  | addMabBody (mab : BodyRef)

/-- The strategies start a new log. -/
def forget {C S H : Type} (e : RawEngine C S (Planted H)) : RawEngine C S (Planted H) :=
  { e with strategies := e.strategies.map fun p => { p with runs := [] } }

/-- The entries that `mutate_batch` selects. -/
def selected {C S H : Type} (Stmt : Type) [CorpusHandler C Stmt] [Schedule S Stmt] (e : RawEngine C S (Planted H))
    (batchSize : Nat) (order : HashOrder ID) (draws : List Draw) : List (Entry Stmt) :=
  if batchSize = 0 then [] else
    ((Schedule.nextBatch e.scheduler e.corpus batchSize e.bandits order draws : Option (Batch S C Stmt)).map
      Batch.members).getD []

namespace CreditRun

variable {C S H Stmt : Type} [CorpusHandler C Stmt] [Schedule S Stmt] [BinaryHeap H RuleItem]

/-- The arms that a step made were made for the entry. -/
def granting (s : CreditRun C S H) (id : ID) (e : RawEngine C S (Planted H)) : CreditRun C S H :=
  ⟨e, s.owner.grant s.engine.bandits.nextArm e.bandits.nextArm id⟩

def step [FloatFns ℚ] [FloatExp ℚ] [Sqlparser Stmt] [Hasher Stmt] (s : CreditRun C S H) :
    CreditOp H Stmt → Option (CreditRun C S H)
  | .addEntry score entry => (s.engine.addEntry score entry).map (s.granting entry.id)
  | .commitTestResult rawEntry metadata shmem =>
    (s.engine.commitTestResult rawEntry metadata shmem).map fun (_, e) => s.granting rawEntry.entry.id e
  | .mutateBatch batchSize order draws currentId =>
    ((forget s.engine).mutateBatch batchSize order draws currentId :
      Option (List (Entry Stmt) × RawEngine C S (Planted H))).map fun (_, e) => { s with engine := e }
  | .snapshot order => some { s with engine := (s.engine.snapshot order).2 }
  | .chore order => (s.engine.chore Stmt order).map fun e => { s with engine := e }
  | .clear => some { s with engine := s.engine.clear Stmt }
  | .channel q => some { s with engine := { s.engine with shmemQueue := q } }
  | .clearStrategies => some { s with engine := s.engine.clearStrategies }
  | .addStrategy p h => some { s with engine := { s.engine.addStrategy p with bandits := h } }
  | .addMabBody mab => some { s with engine := s.engine.addMabBody mab }

/-- A new engine, in which no arm was made for an entry yet. -/
def new (Stmt : Type) [Schedule S Stmt] [ArmedSchedule S Stmt] (body : BodyRef) (corpusHandler : C)
    (minimizer : GreedyCoverage) (shmemQueue : SharedMemHandle) (mabBodies : List BodyRef) (bandits : Bandits) :
    CreditRun C S H :=
  ⟨.new (ArmedSchedule.new Stmt body) corpusHandler minimizer [] shmemQueue mabBodies bandits, fun _ => none⟩

/-- A new strategy comes with arms of its own: they are made, but for no entry. -/
def Built (s : CreditRun C S H) : CreditOp H Stmt → Prop
  | .addStrategy p h => s.engine.bandits.nextArm ≤ h.nextArm ∧ p.Separate s.owner h.nextArm
  | _ => True

/-! ### The invariant -/

section Laws

variable [ArmedSchedule S Stmt] [FaithfulCorpus C]

/-- The scheduler has the arms of its entries, the strategies have others, and all of them are made. -/
structure Kept (Stmt : Type) [CorpusHandler C Stmt] [Schedule S Stmt] [ArmedSchedule S Stmt] [FaithfulCorpus C]
    (s : CreditRun C S H) : Prop where
  owns : ArmedSchedule.Owns Stmt s.owner s.engine.scheduler
  corpus : FaithfulCorpus.Faithful Stmt s.engine.corpus
  separate : ∀ p ∈ s.engine.strategies, p.Separate s.owner s.engine.bandits.nextArm
  made : ∀ a id, s.owner a = some id → a < s.engine.bandits.nextArm

variable {s s' : CreditRun C S H} {e : RawEngine C S (Planted H)}

theorem Kept.new (body : BodyRef) {corpusHandler : C} (hc : FaithfulCorpus.Faithful Stmt corpusHandler)
    (minimizer : GreedyCoverage) (shmemQueue : SharedMemHandle) (mabBodies : List BodyRef) (bandits : Bandits) :
    Kept Stmt (new Stmt body corpusHandler minimizer shmemQueue mabBodies bandits : CreditRun C S H) where
  owns := ArmedSchedule.owns_new body
  corpus := hc
  separate _ hp := by cases hp
  made _ _ h := by cases h

/-- An engine with the same arms and strategies. -/
theorem Kept.with (h : Kept Stmt s) (howns : ArmedSchedule.Owns Stmt s.owner e.scheduler)
    (hcorpus : FaithfulCorpus.Faithful Stmt e.corpus) (hstrategies : e.strategies = s.engine.strategies)
    (harm : e.bandits.nextArm = s.engine.bandits.nextArm) : Kept Stmt { s with engine := e } where
  owns := howns
  corpus := hcorpus
  separate := by
    rw [hstrategies, harm]
    exact h.separate
  made := by
    rw [harm]
    exact h.made

/-- The arms that were made for one entry. -/
theorem Kept.granting (h : Kept Stmt s) {id : ID} (hle : s.engine.bandits.nextArm ≤ e.bandits.nextArm)
    (howns : ArmedSchedule.Owns Stmt (s.granting id e).owner e.scheduler) (hcorpus : FaithfulCorpus.Faithful Stmt e.corpus)
    (hstrategies : e.strategies = s.engine.strategies) : Kept Stmt (s.granting id e) where
  owns := howns
  corpus := hcorpus
  separate p hp := by
    have hsep := h.separate p (hstrategies ▸ hp)
    exact ⟨fun arm harm => Owner.upTo_grant_eq_none (hsep.arms arm harm) hle,
      fun queue item hitem => Owner.upTo_grant_eq_none (hsep.queues queue item hitem) hle⟩
  made a id' ha := by
    change (if _ then _ else _) = some id' at ha
    split at ha
    · rename_i hnew
      exact hnew.2
    · exact (h.made a id' ha).trans_le hle

/-- The owner of the arms that are made next. -/
theorem Kept.extends (h : Kept Stmt s) (id : ID) (e : RawEngine C S (Planted H)) :
    s.owner.Extends (s.granting id e).owner :=
  Owner.grant_extends h.made

theorem Kept.addEntry (h : Kept Stmt s) {score : F64 → F64} {entry : CorpusEntry Stmt}
    (hadd : s.engine.addEntry score entry = some e) : Kept Stmt (s.granting entry.id e) := by
  obtain ⟨⟨weight, scheduler, bandits⟩, honAdd, hadd⟩ := Option.bind_eq_some_iff.1 hadd
  cases hadd
  have hle := ArmedSchedule.nextArm_onAdd _ _ _ _ _ _ honAdd
  refine h.granting hle ?_ (FaithfulCorpus.faithful_insert _ _ _ h.corpus) rfl
  refine ArmedSchedule.owns_onAdd _ _ _ _ _ _ _ (ArmedSchedule.owns_extends _ _ _ h.owns (h.extends _ _)) honAdd ?_
  intro a hlo hhi
  exact if_pos ⟨hlo, hhi⟩

theorem Kept.chore (h : Kept Stmt s) {order : HashOrder ID} (hchore : s.engine.chore Stmt order = some e) :
    Kept Stmt { s with engine := e } := by
  have howns := ArmedSchedule.owns_chore _ _ h.owns
  have hcorpus := FaithfulCorpus.faithful_resize _ h.corpus
  rw [RawEngine.chore_eq] at hchore
  split at hchore
  · obtain ⟨⟨minimizer, corpus, scheduler⟩, hmin, hchore⟩ := Option.bind_eq_some_iff.1 hchore
    cases hchore
    have hkept : FaithfulCorpus.Faithful Stmt corpus ∧ ArmedSchedule.Owns Stmt s.owner scheduler :=
      GreedyCoverage.minimize_keeps
        (P := fun c scheduler => FaithfulCorpus.Faithful Stmt c ∧ ArmedSchedule.Owns Stmt s.owner scheduler)
        (fun c s' id s'' hP hremove =>
          ⟨FaithfulCorpus.faithful_remove c id hP.1, ArmedSchedule.owns_onRemove _ _ _ _ hP.2 hremove⟩)
        ⟨hcorpus, howns⟩ hmin
    exact h.with hkept.2 hkept.1 rfl rfl
  · cases hchore
    exact h.with howns hcorpus rfl rfl

theorem nextArm_ticks (mabBodies : List BodyRef) (h : Bandits) :
    (mabBodies.foldl (fun h body => h.tickBy body 1) h).nextArm = h.nextArm := by
  induction mabBodies generalizing h with
  | nil => rfl
  | cons body mabBodies ih => exact ih _

variable [FloatFns ℚ]

/-- A commit adds the entry, or leaves everything of interest as it was. -/
theorem Kept.commitTestResult [Hasher Stmt] (h : Kept Stmt s) {rawEntry : Entry Stmt} {metadata : Meta} {shmem : IPCToken}
    {outcome : TestOutcome} (hcommit : s.engine.commitTestResult rawEntry metadata shmem = some (outcome, e)) :
    Kept Stmt (s.granting rawEntry.entry.id e) := by
  obtain ⟨⟨newEdges, edgeMap, shmemQueue⟩, -, hcommit⟩ := Option.bind_eq_some_iff.1 hcommit
  obtain ⟨⟨accepted, minimizer⟩, -, hcommit⟩ := Option.bind_eq_some_iff.1 hcommit
  have harm := s.engine.bandits.nextArm_fireRuleHooks rawEntry accepted
    { metadata with newCovNodes := newEdges.new.length }
  have hentry : (s.engine.bandits.fireRuleHooks rawEntry accepted
    { metadata with newCovNodes := newEdges.new.length }).1.entry = rawEntry.entry := rfl
  dsimp only at hcommit
  generalize s.engine.bandits.fireRuleHooks rawEntry accepted { metadata with newCovNodes := newEdges.new.length } =
    fired at hcommit harm hentry
  unfold RawEngine.conclude at hcommit
  split at hcommit
  · cases hcommit
    refine h.granting harm.ge ?_ h.corpus rfl
    exact ArmedSchedule.owns_extends _ _ _ h.owns (h.extends _ _)
  · obtain ⟨e', hadd, hcommit⟩ := Option.map_eq_some_iff.1 hcommit
    cases hcommit
    unfold RawEngine.commitGeneration at hadd
    rw [List.foldlM_cons] at hadd
    obtain ⟨e₁, hadd, hend⟩ := Option.bind_eq_some_iff.1 hadd
    cases hend
    have hfired : Kept Stmt { s with engine := { s.engine with
        edgeMap := edgeMap, shmemQueue := shmemQueue, minimizer := minimizer, bandits := fired.2 } } :=
      h.with h.owns h.corpus rfl harm
    have hkept := hfired.addEntry hadd
    unfold CreditRun.granting at hkept ⊢
    dsimp only at hkept
    rw [harm] at hkept
    rw [← hentry]
    exact hkept

variable [FloatExp ℚ] [Sqlparser Stmt] [BinaryHeap.LawfulBinaryHeap H (SchedueldItem.score (T := Nat))]

/-- What `mutate_batch` selects, logs and keeps. -/
theorem Kept.mutateBatch_spec (h : Kept Stmt s) {batchSize : Nat} {order : HashOrder ID} {draws : List Draw}
    {currentId : UInt32} {generation : List (Entry Stmt)}
    (hcall : (forget s.engine).mutateBatch batchSize order draws currentId = some (generation, e)) :
    Kept Stmt { s with engine := e } ∧
      (∀ m ∈ selected Stmt s.engine batchSize order draws, Hooked s.owner (ArmedSchedule.passesArm S Stmt) m) ∧
      ∀ p ∈ e.strategies, List.Forall₂ (fun (m : Entry Stmt) log => Tally s.owner m.appliedRuleStats log)
        (selected Stmt s.engine batchSize order draws) p.runs := by
  have hsep : ∀ p ∈ (forget s.engine).strategies, p.Separate s.owner s.engine.bandits.nextArm ∧ p.runs = [] := by
    intro p hp
    obtain ⟨q, hq, rfl⟩ := List.mem_map.1 hp
    exact ⟨⟨(h.separate q hq).arms, (h.separate q hq).queues⟩, rfl⟩
  unfold RawEngine.mutateBatch at hcall
  unfold selected
  split at hcall
  · rename_i hsize
    cases hcall
    rw [if_pos hsize]
    refine ⟨⟨h.owns, h.corpus, fun p hp => (hsep p hp).1, h.made⟩, by simp, fun p hp => ?_⟩
    rw [(hsep p hp).2]
    exact .nil
  · rename_i hsize
    obtain ⟨b, hbatch, hcall⟩ := Option.bind_eq_some_iff.1 hcall
    obtain ⟨⟨children, σ⟩, hentries, hcall⟩ := Option.bind_eq_some_iff.1 hcall
    cases hcall
    change Schedule.nextBatch s.engine.scheduler s.engine.corpus batchSize s.engine.bandits order draws = some b
      at hbatch
    rw [if_neg hsize, hbatch]
    obtain ⟨⟨howns, hcorpus⟩, hhooked⟩ := ArmedSchedule.owns_nextBatch _ _ _ _ _ _ _ _ h.owns h.corpus hbatch
    have harm := ArmedSchedule.nextArm_nextBatch _ _ _ _ _ _ _ hbatch
    obtain ⟨harm', hlogged⟩ := Planted.mutateEntries_spec (fun p hp => (hsep p hp).1) hentries
    have hnext := (nextArm_ticks s.engine.mabBodies σ.bandits).trans (harm'.trans harm)
    refine ⟨⟨howns, hcorpus, fun p hp => ?_, fun a id ha => ?_⟩, hhooked, fun p hp => ?_⟩
    · show p.Separate s.owner (s.engine.mabBodies.foldl (fun h body => h.tickBy body 1) σ.bandits).nextArm
      rw [hnext]
      exact (hlogged p hp).1
    · show a < (s.engine.mabBodies.foldl (fun h body => h.tickBy body 1) σ.bandits).nextArm
      rw [hnext]
      exact h.made a id ha
    · obtain ⟨-, q, hq, logs, hlogs, hall⟩ := hlogged p hp
      rw [hlogs, (hsep q hq).2]
      exact hall

variable [Hasher Stmt]

theorem Kept.step (h : Kept Stmt s) (op : CreditOp H Stmt) (hop : Built s op) (hs : step s op = some s') :
    Kept Stmt s' := by
  cases op with
  | addEntry score entry =>
    obtain ⟨e, hadd, rfl⟩ := Option.map_eq_some_iff.1 hs
    exact h.addEntry hadd
  | commitTestResult rawEntry metadata shmem =>
    obtain ⟨⟨outcome, e⟩, hcommit, rfl⟩ := Option.map_eq_some_iff.1 hs
    exact h.commitTestResult hcommit
  | mutateBatch batchSize order draws currentId =>
    obtain ⟨⟨generation, e⟩, hcall, rfl⟩ := Option.map_eq_some_iff.1 hs
    exact (h.mutateBatch_spec hcall).1
  | snapshot order =>
    cases hs
    refine h.with h.owns ?_ rfl rfl
    exact (reads_getAll s.engine.corpus _).keeps FaithfulCorpus.faithful_get FaithfulCorpus.faithful_update h.corpus
  | chore order =>
    obtain ⟨e, hchore, rfl⟩ := Option.map_eq_some_iff.1 hs
    exact h.chore hchore
  | clear =>
    cases hs
    exact h.with (ArmedSchedule.owns_reset _ _ _ h.owns) (FaithfulCorpus.faithful_clear _ h.corpus) rfl
      (ArmedSchedule.nextArm_reset _ _)
  | channel q =>
    cases hs
    exact h.with h.owns h.corpus rfl rfl
  | clearStrategies =>
    cases hs
    exact ⟨h.owns, h.corpus, (fun _ hp => by cases hp), h.made⟩
  | addStrategy p bandits =>
    cases hs
    obtain ⟨hle, hsep⟩ := hop
    refine ⟨h.owns, h.corpus, fun q hq => ?_, fun a id ha => (h.made a id ha).trans_le hle⟩
    rcases List.mem_append.1 hq with hq | hq
    · exact (h.separate q hq).mono hle
    · rw [List.mem_singleton.1 hq]
      exact hsep
  | addMabBody mab =>
    cases hs
    exact h.with h.owns h.corpus rfl rfl

/-- **When feedback reaches the arm that was chosen**, in every state that an engine can reach: with schedulers that
attach their arms as rule hooks always, with others only where no rule ran. -/
theorem credited_iff (body : BodyRef) {corpusHandler : C} (hc : FaithfulCorpus.Faithful Stmt corpusHandler)
    (minimizer : GreedyCoverage) (shmemQueue : SharedMemHandle) (mabBodies : List BodyRef) (bandits : Bandits)
    {ops : List (CreditOp H Stmt)}
    (hops : AllSteps step Built (new Stmt body corpusHandler minimizer shmemQueue mabBodies bandits : CreditRun C S H) ops)
    (hrun : run step (new Stmt body corpusHandler minimizer shmemQueue mabBodies bandits) ops = some s)
    {batchSize : Nat} {order : HashOrder ID} {draws : List Draw} {currentId : UInt32} {generation : List (Entry Stmt)}
    (hcall : (forget s.engine).mutateBatch batchSize order draws currentId = some (generation, e)) :
    Credited s.owner (selected Stmt s.engine batchSize order draws) e.strategies ↔
      ArmedSchedule.passesArm S Stmt = true ∨
        ∀ j < (selected Stmt s.engine batchSize order draws).length, ranCount (eventsOf e.strategies j) = 0 := by
  have hkept := run_invariant (fun s op s' h hop hs => h.step op hop hs)
    (Kept.new body hc minimizer shmemQueue mabBodies bandits) hops hrun
  obtain ⟨-, hhooked, hlogs⟩ := hkept.mutateBatch_spec hcall
  exact credited_iff_of_hooked hhooked hlogs

end Laws

end CreditRun

/-! ## One entry and one rule -/

namespace CreditRun

attribute [local instance] FloatFns.tangent

attribute [local instance] FloatExp.tangent

attribute [local instance] Sqlparser.plain

/-- One hash for the one statement. -/
@[reducible] def Hasher.zero : Hasher Plain := ⟨fun _ => 0⟩

attribute [local instance] Hasher.zero

abbrev RuleHeap := ListHeap (SchedueldItem.score (T := Nat))

abbrev PlainCorpus := InMemory (CorpusEntry Plain)

theorem faithful_plainCorpus : FaithfulCorpus.Faithful Plain (.new : PlainCorpus) := fun _ _ h => by cases h

/-- A strategy that is one rule. -/
def oneRule : Planted RuleHeap := ⟨.leaf .noop, fun _ => ⟨[]⟩, []⟩

theorem separate_oneRule (owner : Owner) (n : ArmRef) : oneRule.Separate owner n :=
  ⟨(fun _ h => by cases h), fun _ _ h => by cases h⟩

/-- A new engine gets the rule and one entry. -/
def onlyOps : List (CreditOp RuleHeap Plain) :=
  [.addStrategy oneRule .new, .addEntry id ⟨⟨⟨1⟩, [], [.commit]⟩, .default⟩]

theorem built_onlyOps {S : Type} [Schedule S Plain] (s : CreditRun PlainCorpus S RuleHeap)
    (h : s.engine.bandits.nextArm = 0) : AllSteps step Built s onlyOps :=
  ⟨⟨h.le, separate_oneRule _ _⟩, fun _ _ => ⟨trivial, fun _ _ => trivial⟩⟩

/-- The engine with its scheduler, before anything was added to it. -/
def onlyEngine (S : Type) [Schedule S Plain] [ArmedSchedule S Plain] : CreditRun PlainCorpus S RuleHeap :=
  new Plain 0 .new (.new 0) (.new 1 0) [] .new

def zeroDraws : List Draw := List.replicate 3 .zero

/-- What the engine is like when it is asked for a batch of one, and afterwards. -/
def onlyBatch (S : Type) [Schedule S Plain] [ArmedSchedule S Plain] :
    Option (CreditRun PlainCorpus S RuleHeap × List (Entry Plain) × RawEngine PlainCorpus S (Planted RuleHeap)) := do
  let s ← run step (onlyEngine S) onlyOps
  let r ← (forget s.engine).mutateBatch 1 (.sorted ID) zeroDraws 2
  some (s, r)

theorem onlyBatch_eq_some {S : Type} [Schedule S Plain] [ArmedSchedule S Plain] {s : CreditRun PlainCorpus S RuleHeap}
    {r : List (Entry Plain) × RawEngine PlainCorpus S (Planted RuleHeap)} (h : onlyBatch S = some (s, r)) :
    run step (onlyEngine S) onlyOps = some s ∧ (forget s.engine).mutateBatch 1 (.sorted ID) zeroDraws 2 = some r := by
  obtain ⟨s', hrun, h⟩ := Option.bind_eq_some_iff.1 h
  obtain ⟨r', hcall, h⟩ := Option.bind_eq_some_iff.1 h
  cases h
  exact ⟨hrun, hcall⟩

/-- The rule ran on a child of the entry, and the entry was told. -/
theorem credited_iff_fast : ∃ s generation e, onlyBatch FastProbabilisticMABScheduler = some (s, generation, e) ∧
    Credited s.owner (selected Plain s.engine 1 (.sorted ID) zeroDraws) e.strategies ∧
    ranCount (eventsOf e.strategies 0) = 1 := by
  have hran : (onlyBatch FastProbabilisticMABScheduler).map (fun r => ranCount (eventsOf r.2.2.strategies 0)) =
      some 1 := by
    decide +kernel
  obtain ⟨⟨s, generation, e⟩, hbatch, hran⟩ := Option.map_eq_some_iff.1 hran
  obtain ⟨hrun, hcall⟩ := onlyBatch_eq_some hbatch
  refine ⟨s, generation, e, hbatch, ?_, hran⟩
  exact (credited_iff 0 faithful_plainCorpus (.new 0) (.new 1 0) [] .new (built_onlyOps _ rfl) hrun hcall).2 (.inl rfl)

/-- The rule ran on a child of the entry, and the entry was not told. -/
theorem not_credited_mabScheduler : ∃ s generation e,
    onlyBatch (MABScheduler (ListHeap (SchedueldItem.score (T := ID)))) = some (s, generation, e) ∧
    ¬Credited s.owner (selected Plain s.engine 1 (.sorted ID) zeroDraws) e.strategies := by
  have hcounts : (onlyBatch (MABScheduler (ListHeap (SchedueldItem.score (T := ID))))).map (fun r =>
      ((selected Plain r.1.engine 1 (.sorted ID) zeroDraws).map (fun m => m.entry.id),
        toldCount r.1.owner ⟨1⟩ (eventsOf r.2.2.strategies 0), ranCount (eventsOf r.2.2.strategies 0))) =
      some ([⟨1⟩], 0, 1) := by
    decide +kernel
  obtain ⟨⟨s, generation, e⟩, hbatch, heq⟩ := Option.map_eq_some_iff.1 hcounts
  obtain ⟨hids, hcounts⟩ := Prod.mk.inj heq
  obtain ⟨htold, hran⟩ := Prod.mk.inj hcounts
  obtain ⟨m, hm, hid⟩ := List.map_eq_singleton_iff.1 hids
  refine ⟨s, generation, e, hbatch, fun hcredited => ?_⟩
  have hreached := hcredited 0 m (by rw [hm]; rfl) ⟨1⟩
  rw [htold, if_pos hid.symm, hran] at hreached
  cases hreached

end CreditRun

end Lsf.Mutate
