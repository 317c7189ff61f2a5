import Lsf.Engine.Batching
import Lsf.Engine.ProbabilisticMab
import Lsf.Engine.Retaining
import Lsf.Lib.Run

/-!
# Removed entries

A run of `SchedulerBatcher` over `FastProbabilisticMABScheduler` with the ids that were removed and not added since.
`on_remove` reaches the inner scheduler only, so that an entry which waits in the batch is still handed out: no batch
contains a removed id exactly as long as no id is removed while it waits (`noneCulled_iff`).
-/

namespace Lsf.Engine

open Lsf.Core Lsf.Lib Lsf.Feedback

/-- A scheduler with the ids that were removed since they were last added. -/
structure CullRun (Stmt : Type) where
  scheduler : SchedulerBatcher FastProbabilisticMABScheduler Stmt
  culled : Finset ID

/-- The calls; corpora and bandits may have changed in between in any way. -/
inductive CullOp (C Stmt : Type) [CorpusHandler C Stmt] [FaithfulCorpus C] where
  | onAdd (entry : CorpusEntry Stmt) (h : Bandits)
  | onRemove (id : ID)
  | nextBatch (c : C) (hc : FaithfulCorpus.Faithful Stmt c) (size : Nat) (h : Bandits) (order : HashOrder ID)
      (draws : List Draw)
  | reset (h : Bandits)

namespace CullRun

def new (Stmt : Type) (body : BodyRef) : CullRun Stmt := ⟨⟨.new body, []⟩, ∅⟩

variable {C Stmt : Type} [CorpusHandler C Stmt] [FaithfulCorpus C] [FloatFns ℚ]

def step (s : CullRun Stmt) : CullOp C Stmt → Option (CullRun Stmt)
  | .onAdd entry h => do
    let (_, scheduler, _) ← Schedule.onAdd s.scheduler h entry
    some ⟨scheduler, s.culled.erase entry.id⟩
  | .onRemove id => do
    let scheduler ← Schedule.onRemove Stmt s.scheduler id
    some ⟨scheduler, insert id s.culled⟩
  | .nextBatch c _ size h order draws => do
    let b ← s.scheduler.nextBatch c size h order draws
    some { s with scheduler := b.scheduler }
  | .reset h => some { s with scheduler := (Schedule.reset Stmt s.scheduler h).1 }

/-- **No batch that can come next contains a removed id.** -/
def NoneCulled (C : Type) [CorpusHandler C Stmt] [FaithfulCorpus C] (s : CullRun Stmt) : Prop :=
  ∀ c : C, FaithfulCorpus.Faithful Stmt c → ∀ size h order draws b,
    s.scheduler.nextBatch c size h order draws = some b → ∀ m ∈ b.members, m.entry.id ∉ s.culled

/-- No id is removed while an entry of it waits in the batch. -/
def NotWaiting (s : CullRun Stmt) : CullOp C Stmt → Prop
  | .onRemove id => ∀ item ∈ s.scheduler.batch, item.1.entry.id ≠ id
  | _ => True

/-! ## The invariant -/

/-- Neither the batch nor the inner scheduler has a removed id; what waits came out of some corpus. -/
structure Kept (C : Type) [CorpusHandler C Stmt] [FaithfulCorpus C] (s : CullRun Stmt) : Prop where
  waiting : ∀ item ∈ s.scheduler.batch, item.1.entry.id ∉ s.culled
  keys : ∀ id ∈ s.scheduler.innerScheduler.entries.keys, id ∉ s.culled
  corpus : s.scheduler.batch ≠ [] → ∃ c : C, FaithfulCorpus.Faithful Stmt c

omit [FloatFns ℚ] in
theorem Kept.new (body : BodyRef) : Kept C (new Stmt body) where
  waiting := by simp [CullRun.new]
  keys := by simp [CullRun.new, FastProbabilisticMABScheduler.new, IndexMap.empty, IndexMap.keys]
  corpus h := absurd rfl h

/-- The inner scheduler hands out entries of its ids. -/
theorem supplies (culled : Finset ID) :
    SchedulerBatcher.Supplies
      (fun (s : FastProbabilisticMABScheduler) (c : C) =>
        FaithfulCorpus.Faithful Stmt c ∧ ∀ id ∈ s.entries.keys, id ∉ culled)
      fun m : TestableEntry (RawEntry Stmt) => m.entry.id ∉ culled := by
  intro s c size h order draws b hJ hb
  obtain ⟨⟨parents, v, draws'⟩, hloop, hb⟩ := Option.bind_eq_some_iff.1 hb
  cases hb
  refine whileShort_spec (I := fun v : FastProbabilisticMABScheduler.Visit C =>
    FaithfulCorpus.Faithful Stmt v.2.1 ∧ ∀ id ∈ v.1.entries.keys, id ∉ culled) ?_ hJ (by simp) hloop
  rintro ⟨s, c, h⟩ draws r ⟨hfaithful, hkeys⟩ hr
  obtain ⟨⟨u, draws₁⟩, -, hr⟩ := Option.bind_eq_some_iff.1 hr
  obtain ⟨rdIdx, -, hr⟩ := Option.bind_eq_some_iff.1 hr
  obtain ⟨⟨id, arm⟩, hplace, hr⟩ := Option.bind_eq_some_iff.1 hr
  have hget : FaithfulCorpus.Faithful Stmt (CorpusHandler.get c id).2 := FaithfulCorpus.faithful_get _ id hfaithful
  dsimp only at hr
  split at hr
  · cases hr
    exact ⟨⟨hget, hkeys⟩, fun _ hx => by cases hx⟩
  · rename_i entry hentry
    obtain ⟨⟨u', draws₂⟩, -, hr⟩ := Option.bind_eq_some_iff.1 hr
    obtain ⟨accepted, -, hr⟩ := Option.bind_eq_some_iff.1 hr
    cases hr
    refine ⟨⟨hget, fun id' hid' => hkeys id' (IndexMap.keys_setValue ▸ hid')⟩, fun x hx => ?_⟩
    cases accepted with
    | false => cases hx
    | true =>
      cases hx
      show entry.id ∉ culled
      rw [FaithfulCorpus.get_id c id entry hfaithful hentry]
      exact hkeys id (List.mem_map_of_mem (List.mem_of_getElem? hplace))

variable {s s' : CullRun Stmt}

theorem Kept.noneCulled (h : Kept C s) : NoneCulled C s := by
  intro c hc size bandits order draws b hb
  exact (SchedulerBatcher.nextBatch_forall (supplies s.culled) ⟨hc, h.keys⟩ h.waiting hb).2

theorem Kept.nextBatch {c : C} (h : Kept C s) (hc : FaithfulCorpus.Faithful Stmt c) {size : Nat} {bandits : Bandits}
    {order : HashOrder ID} {draws : List Draw}
    {b : Batch (SchedulerBatcher FastProbabilisticMABScheduler Stmt) C Stmt}
    (hb : s.scheduler.nextBatch c size bandits order draws = some b) : Kept C { s with scheduler := b.scheduler } := by
  obtain ⟨⟨-, hkeys⟩, hwaiting⟩ :=
    (SchedulerBatcher.nextBatch_forall (supplies s.culled) ⟨hc, h.keys⟩ h.waiting hb).1
  exact ⟨hwaiting, hkeys, fun _ => ⟨c, hc⟩⟩

theorem Kept.step (h : Kept C s) (op : CullOp C Stmt) (hop : NotWaiting s op) (hs : step s op = some s') :
    Kept C s' := by
  cases op with
  | onAdd entry bandits =>
    cases hs
    refine ⟨fun item hitem hin => h.waiting item hitem (Finset.mem_of_mem_erase hin), fun id hid hin => ?_, h.corpus⟩
    rcases IndexMap.mem_keys_insert.1 hid with rfl | hid
    · exact Finset.notMem_erase _ _ hin
    · exact h.keys id hid (Finset.mem_of_mem_erase hin)
  | onRemove id =>
    cases hs
    refine ⟨fun item hitem hin => ?_, fun id' hid' hin => ?_, h.corpus⟩
    · rcases Finset.mem_insert.1 hin with heq | hin
      · exact hop item hitem heq
      · exact h.waiting item hitem hin
    · obtain ⟨hne, hid'⟩ := IndexMap.mem_keys_swapRemove.1 hid'
      exact h.keys id' hid' (Finset.mem_of_mem_insert_of_ne hin hne)
  | nextBatch c hc size bandits order draws =>
    obtain ⟨b, hb, hs⟩ := Option.bind_eq_some_iff.1 hs
    cases hs
    exact h.nextBatch hc hb
  | reset bandits =>
    cases hs
    exact ⟨(fun _ hitem => by cases hitem), (fun _ hid => by cases hid), fun hne => absurd rfl hne⟩

/-- **A removed entry that waits in the batch can come out of it.** -/
theorem Kept.not_noneCulled (h : Kept C s) (op : CullOp C Stmt) (hop : ¬NotWaiting s op) :
    ∃ s', CullRun.step s op = some s' ∧ ¬NoneCulled C s' := by
  cases op with
  | onRemove id =>
    simp only [NotWaiting, not_forall, not_not] at hop
    obtain ⟨item, hitem, hid⟩ := hop
    obtain ⟨c, hc⟩ := h.corpus (List.ne_nil_of_mem hitem)
    refine ⟨_, rfl, fun hnone => ?_⟩
    obtain ⟨draws, b, hb, hmem⟩ := SchedulerBatcher.exists_nextBatch (s := ⟨{ s.scheduler.innerScheduler with
      entries := s.scheduler.innerScheduler.entries.swapRemove id }, s.scheduler.batch⟩) hitem c .new (.sorted ID)
    have hculled := hnone c hc _ _ _ _ b hb item.1 hmem
    exact hculled (hid ▸ Finset.mem_insert_self _ _)
  | _ => exact absurd trivial hop

/-- **Removed entries are never handed out exactly as long as no entry is removed while it waits**, over every run of
additions, removals, batches and resets. -/
theorem noneCulled_iff (body : BodyRef) (ops : List (CullOp C Stmt)) :
    AllStates step (NoneCulled C) (new Stmt body) ops ↔ AllSteps step NotWaiting (new Stmt body) ops :=
  allStates_iff_allSteps (I := Kept C) (G := fun _ _ => True) (fun _ h => h.noneCulled)
    (fun _ op _ h _ hop hs => h.step op hop hs) (fun _ op h _ hop => h.not_noneCulled op hop) (.new body)
    (allSteps_of_forall fun _ _ _ => trivial)

end CullRun

/-! ## A run -/

namespace CullRun

attribute [local instance] FloatFns.tangent

abbrev NatCorpus := InMemory (CorpusEntry Nat)

/-- An entry, and a corpus that has it. -/
def onlyEntry : CorpusEntry Nat := ⟨⟨⟨1⟩, [], [7]⟩, .default⟩

def onlyCorpus : NatCorpus := CorpusHandler.insert .new onlyEntry .posInf

theorem faithful_onlyCorpus : FaithfulCorpus.Faithful Nat onlyCorpus :=
  FaithfulCorpus.faithful_insert _ _ _ fun _ _ h => by cases h

/-- The arms after the entry was added. -/
def onlyArms : Bandits := ((FastProbabilisticMABScheduler.new 0).onAdd .new onlyEntry).elim .new fun r => r.2.2

def zeroDraws (n : Nat) : List Draw := List.replicate n .zero

/-- The entry is added, handed out once, and removed while the batch is full of it. -/
def addBatchRemove : List (CullOp NatCorpus Nat) :=
  [.onAdd onlyEntry .new, .nextBatch onlyCorpus faithful_onlyCorpus 1 onlyArms (.sorted ID) (zeroDraws 65),
    .onRemove ⟨1⟩]

/-- After its removal the entry is handed out again. -/
theorem not_noneCulled_addBatchRemove : ¬AllStates step (NoneCulled NatCorpus) (new Nat 0) addBatchRemove := by
  intro hall
  have hrun : (run step (new Nat 0) addBatchRemove).map (fun s => (s.culled,
      (s.scheduler.nextBatch onlyCorpus 1 onlyArms (.sorted ID) (zeroDraws 1)).map fun b =>
        b.members.map fun m => m.entry.id)) = some ({⟨1⟩}, some [⟨1⟩]) := by
    decide +kernel
  obtain ⟨s, hs, heq⟩ := Option.map_eq_some_iff.1 hrun
  obtain ⟨hculled, hbatch⟩ := Prod.mk.inj heq
  obtain ⟨b, hb, hmembers⟩ := Option.map_eq_some_iff.1 hbatch
  obtain ⟨m, hm, hid⟩ := List.mem_map.1 (hmembers ▸ List.mem_singleton_self (⟨1⟩ : ID))
  have hnone := hall.of_run hs onlyCorpus faithful_onlyCorpus _ _ _ _ b hb m hm
  rw [hculled, hid] at hnone
  exact hnone (Finset.mem_singleton_self _)

end CullRun

end Lsf.Engine
