import Lsf.Engine.ProbabilisticMab
import Lsf.Lib.Run

/-!
# Slots and ids

A run of `ProbabilisticMABScheduler` with the ids that were added and those of them that were removed. `InStep` is
what should hold all along: every live id leads to a slot that weighs something, and the slots of removed ids weigh
nothing; and no removed id should be sampled (`SamplesLive`). Whatever the rounding of the sums, this is so exactly in
the runs in which

- no freed slot is used again: the id that takes it over is stored under the hash of the old one and is never found;
- no point falls through to a last slot that weighs nothing (`inStep_iff`).
-/

namespace Lsf.Engine

open Lsf.Core Lsf.Lib Lsf.Feedback

/-- A scheduler with the ids that were added, split into those still in it and those removed. -/
structure SlotRun where
  scheduler : ProbabilisticMABScheduler
  live : Finset ID
  removed : Finset ID

/-- The calls; corpora and bandits may have changed in between in any way. -/
inductive SlotOp (C Stmt : Type) where
  | onAdd (entry : CorpusEntry Stmt) (h : Bandits)
  | onRemove (id : ID)
  | nextBatch (c : C) (size : Nat) (h : Bandits) (order : HashOrder ID) (draws : List Draw)

namespace SlotRun

def new (body : BodyRef) : SlotRun := ⟨.new body, ∅, ∅⟩

section Conditions

variable {C Stmt : Type} [CorpusHandler C Stmt] [FloatFns ℚ] [Rounding ℚ] [Hasher ID]

def step (s : SlotRun) : SlotOp C Stmt → Option SlotRun
  | .onAdd entry h => do
    let (_, scheduler, _) ← s.scheduler.onAdd h entry
    some { s with scheduler := scheduler, live := insert entry.id s.live }
  | .onRemove id => do
    let scheduler ← s.scheduler.onRemove id
    some ⟨scheduler, s.live.erase id, if id ∈ s.live then insert id s.removed else s.removed⟩
  | .nextBatch c size h order draws => do
    let b ← s.scheduler.nextBatch c size h order draws
    some { s with scheduler := b.scheduler }

/-- **Slots and ids are in step.** -/
structure InStep (s : SlotRun) : Prop where
  length : s.scheduler.queue.leaves.length = s.scheduler.idMapping.length
  live : ∀ id ∈ s.live, ∃ i w, s.scheduler.idMapping.getFull id = some i ∧ s.scheduler.queue.leaves[i]? = some w ∧ 0 < w
  removed : ∀ (i : Nat) b, s.scheduler.idMapping[i]? = some b → b.key ∈ s.removed →
    s.scheduler.queue.leaves[i]? = some 0

/-- `P` holds in every round of a batch, of the scheduler and the draws that are left. -/
def InBatch (P : ProbabilisticMABScheduler → List Draw → Prop) (s : SlotRun) : SlotOp C Stmt → Prop
  | .nextBatch c size h _ draws =>
    AllRounds size (ProbabilisticMABScheduler.round (h.epoch s.scheduler.mab)) (fun v draws => P v.1 draws)
      (draws.length + 1) ([] : List (TestableEntry (RawEntry Stmt))) (s.scheduler, c, h) draws
  | _ => True

/-- The slot that is sampled next is not that of a removed id. -/
def SamplesLive (s : SlotRun) : SlotOp C Stmt → Prop :=
  s.InBatch fun scheduler draws => ∀ i queue draws', scheduler.queue.sample draws = some (some i, queue, draws') →
    ∀ b, scheduler.idMapping[i]? = some b → b.key ∉ s.removed

/-- Ids are added once. -/
def Fresh (s : SlotRun) : SlotOp C Stmt → Prop
  | .onAdd entry _ => entry.id ∉ s.live ∧ entry.id ∉ s.removed
  | _ => True

/-- No slot is free when an id is added, and no point falls through to a slot that weighs nothing. -/
def Regular (s : SlotRun) : SlotOp C Stmt → Prop
  | .onAdd _ _ => s.scheduler.queue.freeSlots = []
  | op => s.InBatch (fun scheduler draws => ¬scheduler.queue.Strays draws) op

instance (s : SlotRun) : ∀ op : SlotOp C Stmt, Decidable (Fresh s op)
  | .onAdd entry _ => inferInstanceAs (Decidable (entry.id ∉ s.live ∧ entry.id ∉ s.removed))
  | .onRemove _ => isTrue trivial
  | .nextBatch .. => isTrue trivial

instance (s : SlotRun) : ∀ op : SlotOp C Stmt, Decidable (Regular s op)
  | .onAdd _ _ => inferInstanceAs (Decidable (s.scheduler.queue.freeSlots = []))
  | .onRemove _ => isTrue trivial
  | .nextBatch .. => AllRounds.decidable _ _ _ _

end Conditions

/-! ## The invariant -/

variable {s s' : SlotRun}

theorem clampWeight_pos (w : ℚ) : 0 < clampWeight w := by
  unfold clampWeight minWeight maxWeight
  exact lt_min (lt_max_of_lt_right (by norm_num)) (by norm_num)

/-- The ids removed after the removal of `id`. -/
theorem mem_removed {id x : ID} :
    (x ∈ if id ∈ s.live then insert id s.removed else s.removed) ↔ x ∈ s.removed ∨ (x = id ∧ id ∈ s.live) := by
  split
  · rename_i hid
    simp [hid, or_comm]
  · rename_i hid
    simp [hid]

theorem mem_live_or_removed {id x : ID} : (x ∈ s.live ∨ x ∈ s.removed) ↔
    (x ∈ s.live.erase id ∨ x ∈ if id ∈ s.live then insert id s.removed else s.removed) := by
  rw [mem_removed, Finset.mem_erase]
  by_cases hx : x = id
  · subst hx
    tauto
  · tauto

variable [Hasher ID]

/-- No slot was used twice: every id that was added has its own slot, under its own hash. -/
structure Tidy (s : SlotRun) : Prop where
  valid : s.scheduler.Valid
  length : s.scheduler.queue.leaves.length = s.scheduler.idMapping.length
  honest : s.scheduler.idMapping.Honest
  keys : ∀ id, id ∈ s.scheduler.idMapping.keys ↔ id ∈ s.live ∨ id ∈ s.removed
  disjoint : ∀ id ∈ s.live, id ∉ s.removed
  weight : ∀ (i : Nat) b w, s.scheduler.idMapping[i]? = some b → s.scheduler.queue.leaves[i]? = some w →
    (b.key ∈ s.removed → w = 0) ∧ (b.key ∈ s.live → 0 < w)

theorem Tidy.new (body : BodyRef) : Tidy (new body) where
  valid := .new body
  length := rfl
  honest := .nil
  keys := by simp [SlotRun.new, ProbabilisticMABScheduler.new, BucketMap.keys]
  disjoint := by simp [SlotRun.new]
  weight := by simp [SlotRun.new, ProbabilisticMABScheduler.new]

/-- A slot with a bucket has a weight. -/
theorem Tidy.exists_weight (h : Tidy s) {i : Nat} {b : Bucket ID (SmallSchedueldItem Unit)}
    (hb : s.scheduler.idMapping[i]? = some b) : ∃ w, s.scheduler.queue.leaves[i]? = some w := by
  obtain ⟨hi, -⟩ := List.getElem?_eq_some_iff.1 hb
  rw [← h.length] at hi
  exact ⟨_, List.getElem?_eq_getElem hi⟩

theorem Tidy.inStep (h : Tidy s) : InStep s where
  length := h.length
  live id hid := by
    obtain ⟨b, hb, rfl⟩ := List.mem_map.1 ((h.keys id).2 (.inl hid))
    obtain ⟨i, hi⟩ := List.getElem?_of_mem hb
    obtain ⟨w, hw⟩ := h.exists_weight hi
    exact ⟨i, w, h.honest.getFull_eq_some_iff.2 ⟨b, hi, rfl⟩, hw, (h.weight i b w hi hw).2 hid⟩
  removed i b hb hid := by
    obtain ⟨w, hw⟩ := h.exists_weight hb
    rw [hw, (h.weight i b w hb hw).1 hid]

/-- A slot belongs to an id that is live, or to one that was removed. -/
theorem Tidy.live_or_removed (h : Tidy s) {i : Nat} {b : Bucket ID (SmallSchedueldItem Unit)}
    (hb : s.scheduler.idMapping[i]? = some b) : b.key ∈ s.live ∨ b.key ∈ s.removed :=
  (h.keys b.key).1 (List.mem_map_of_mem (List.mem_of_getElem? hb))

/-- A slot at the end of both structures, with a weight for its id. -/
theorem Tidy.weight_append (h : Tidy s) {id : ID} (hfresh : id ∉ s.live ∧ id ∉ s.removed) {hash : UInt64}
    {item : SmallSchedueldItem Unit} {w₁ : ℚ} (hpos : 0 < w₁) {i : Nat} {b : Bucket ID (SmallSchedueldItem Unit)} {w : ℚ}
    (hb : (s.scheduler.idMapping ++ [⟨hash, id, item⟩])[i]? = some b)
    (hw : (s.scheduler.queue.leaves ++ [w₁])[i]? = some w) :
    (b.key ∈ s.removed → w = 0) ∧ (b.key ∈ insert id s.live → 0 < w) := by
  rw [List.getElem?_append] at hb
  rw [List.getElem?_append, h.length] at hw
  split at hb
  · rename_i hi
    rw [if_pos hi] at hw
    have hmem := (h.keys b.key).1 (List.mem_map_of_mem (List.mem_of_getElem? hb))
    have hne : b.key ≠ id := by
      rintro rfl
      exact hmem.elim hfresh.1 hfresh.2
    obtain ⟨hrem, hlive⟩ := h.weight i b w hb hw
    exact ⟨hrem, fun hid => hlive (Finset.mem_of_mem_insert_of_ne hid hne)⟩
  · rename_i hi
    rw [if_neg hi] at hw
    rw [List.getElem?_singleton] at hb hw
    split at hb
    · rename_i hzero
      rw [if_pos hzero] at hw
      cases hb
      cases hw
      exact ⟨fun hrem => absurd hrem hfresh.2, fun _ => hpos⟩
    · cases hb

theorem Tidy.disjoint_erase (h : Tidy s) {id x : ID} (hx : x ∈ s.live.erase id) :
    x ∉ if id ∈ s.live then insert id s.removed else s.removed := by
  rw [Finset.mem_erase] at hx
  rw [mem_removed]
  have := h.disjoint x hx.2
  tauto

/-- The slot of the id gets no weight, the others keep theirs. -/
theorem Tidy.weight_set (h : Tidy s) {idx i : Nat} {b₀ b : Bucket ID (SmallSchedueldItem Unit)} {w : ℚ}
    (hidx : s.scheduler.idMapping.getFull b₀.key = some idx) (hb₀ : s.scheduler.idMapping[idx]? = some b₀)
    (hb : s.scheduler.idMapping[i]? = some b) (hw : (s.scheduler.queue.leaves.set idx 0)[i]? = some w) :
    (b.key ∈ (if b₀.key ∈ s.live then insert b₀.key s.removed else s.removed) → w = 0) ∧
      (b.key ∈ s.live.erase b₀.key → 0 < w) := by
  rw [List.getElem?_set] at hw
  by_cases hi : idx = i
  · subst hi
    obtain rfl : b = b₀ := Option.some.inj (hb.symm.trans hb₀)
    rw [if_pos rfl] at hw
    split at hw
    · cases hw
      exact ⟨fun _ => rfl, fun hid => absurd rfl (Finset.ne_of_mem_erase hid)⟩
    · cases hw
  · rw [if_neg hi] at hw
    have hne : b.key ≠ b₀.key := by
      intro he
      refine hi (Option.some.inj ?_)
      rw [← hidx]
      exact h.honest.getFull_eq_some_iff.2 ⟨b, hb, he⟩
    obtain ⟨hrem, hlive⟩ := h.weight i b w hb hw
    refine ⟨fun hid => ?_, fun hid => hlive (Finset.mem_of_mem_erase hid)⟩
    rcases mem_removed.1 hid with hid | ⟨hid, -⟩
    · exact hrem hid
    · exact absurd hid hne

/-- An id that is not found was not added. -/
theorem Tidy.not_mem_live (h : Tidy s) {id : ID} (hnone : s.scheduler.idMapping.getFull id = none) : id ∉ s.live := by
  intro hid
  obtain ⟨b, hb, hk⟩ := List.mem_map.1 ((h.keys id).2 (.inl hid))
  exact BucketMap.getFull_eq_none_iff.1 hnone b hb ((h.honest.hash b hb).trans (by rw [hk])) hk

/-- A new weight, and a new value, for a slot that weighs something. -/
theorem Tidy.refresh (h : Tidy s) {queue : BlockSumTable} {top : Nat} {w₀ w₁ : ℚ}
    {value : SmallSchedueldItem Unit} (hvalid : ({ s.scheduler with
      queue := queue, idMapping := s.scheduler.idMapping.setValue top value } : ProbabilisticMABScheduler).Valid)
    (hleaves : queue.leaves = s.scheduler.queue.leaves.set top w₁)
    (hw₀ : s.scheduler.queue.leaves[top]? = some w₀) (hpos₀ : 0 < w₀) (hpos₁ : 0 < w₁) :
    Tidy { s with scheduler := { s.scheduler with
      queue := queue, idMapping := s.scheduler.idMapping.setValue top value } } := by
  refine ⟨hvalid, ?_, h.honest.setValue, fun id => ?_, h.disjoint, fun i b w hb hw => ?_⟩
  · show queue.leaves.length = (BucketMap.setValue _ _ _).length
    rw [hleaves, List.length_set, BucketMap.length_setValue, h.length]
  · show id ∈ BucketMap.keys (BucketMap.setValue _ _ _) ↔ _
    rw [BucketMap.keys_setValue]
    exact h.keys id
  · change (BucketMap.setValue _ _ _)[i]? = some b at hb
    change queue.leaves[i]? = some w at hw
    rw [BucketMap.getElem?_setValue] at hb
    obtain ⟨b₀, hb₀, rfl⟩ := Option.map_eq_some_iff.1 hb
    have hkey : (if top = i then { b₀ with value := value } else b₀).key = b₀.key := by split <;> rfl
    rw [hkey]
    rw [hleaves, List.getElem?_set] at hw
    by_cases hi : top = i
    · subst hi
      rw [if_pos rfl] at hw
      obtain ⟨hrem, -⟩ := h.weight top b₀ w₀ hb₀ hw₀
      split at hw
      · cases hw
        exact ⟨fun hid => absurd (hrem hid) hpos₀.ne', fun _ => hpos₁⟩
      · cases hw
    · rw [if_neg hi] at hw
      exact h.weight i b₀ w hb₀ hw

variable [Rounding ℚ]

/-- Sampling changes only counters. -/
theorem Tidy.sampled (h : Tidy s) {queue : BlockSumTable} {draws draws' : List Draw} {top : Option Nat}
    (hs : s.scheduler.queue.sample draws = some (top, queue, draws')) :
    Tidy { s with scheduler := { s.scheduler with queue := queue } } := by
  obtain ⟨hfitted, hleaves, hfree⟩ := BlockSumTable.sample_spec h.valid.fitted hs
  refine ⟨h.valid.setLeaves hfitted (by rw [hleaves]) hfree rfl, ?_, h.honest, h.keys, h.disjoint, ?_⟩
  · show queue.leaves.length = _
    rw [hleaves]
    exact h.length
  · intro i b w hb hw
    change queue.leaves[i]? = some w at hw
    rw [hleaves] at hw
    exact h.weight i b w hb hw

/-- A sample that does not stray finds a slot that weighs something. -/
theorem Tidy.exists_pos [LawfulRounding ℚ] (h : Tidy s) {draws draws' : List Draw} {i : Nat} {queue : BlockSumTable}
    (hno : ¬s.scheduler.queue.Strays draws) (hs : s.scheduler.queue.sample draws = some (some i, queue, draws')) :
    ∃ w, s.scheduler.queue.leaves[i]? = some w ∧ 0 < w := by
  rcases BlockSumTable.sample_cases hs with ⟨-, hpos⟩ | ⟨hfalls, hi, hlt⟩
  · exact hpos
  · -- the point fell through to the last slot, which is that of a live id
    have hw := List.getElem?_eq_getElem hlt
    have hne : s.scheduler.queue.leaves[i] ≠ 0 := by
      intro hzero
      refine hno ⟨hfalls, ?_⟩
      rw [List.getLast?_eq_getElem?, ← hi, hw, hzero]
    obtain ⟨b, hb⟩ : ∃ b, s.scheduler.idMapping[i]? = some b := ⟨_, List.getElem?_eq_getElem (h.length ▸ hlt)⟩
    obtain ⟨hrem, hlive⟩ := h.weight i b _ hb hw
    exact ⟨_, hw, (h.live_or_removed hb).elim hlive fun hid => absurd (hrem hid) hne⟩

/-- **A removed id is sampled just when the point strays.** -/
theorem Tidy.samplesLive_iff [LawfulRounding ℚ] (h : Tidy s) (draws : List Draw) :
    (∀ i queue draws', s.scheduler.queue.sample draws = some (some i, queue, draws') →
      ∀ b, s.scheduler.idMapping[i]? = some b → b.key ∉ s.removed) ↔ ¬s.scheduler.queue.Strays draws := by
  constructor
  · rintro hall ⟨hfalls, hzero⟩
    rw [List.getLast?_eq_getElem?] at hzero
    obtain ⟨hlt, -⟩ := List.getElem?_eq_some_iff.1 hzero
    obtain ⟨queue, draws', hs⟩ := BlockSumTable.sample_of_fallsThrough (List.ne_nil_of_length_pos (by omega)) hfalls
    obtain ⟨b, hb⟩ : ∃ b, s.scheduler.idMapping[s.scheduler.queue.leaves.length - 1]? = some b :=
      ⟨_, List.getElem?_eq_getElem (h.length ▸ hlt)⟩
    have hlive := (h.live_or_removed hb).resolve_right (hall _ _ _ hs b hb)
    exact lt_irrefl 0 ((h.weight _ b 0 hb hzero).2 hlive)
  · intro hno i queue draws' hs b hb hid
    obtain ⟨w, hw, hpos⟩ := h.exists_pos hno hs
    exact hpos.ne' ((h.weight i b w hb hw).1 hid)

/-! ## One call -/

variable {C Stmt : Type} [CorpusHandler C Stmt] [FloatFns ℚ]

/-- Adding a fresh id while no slot is free makes a new slot at the end of both structures. -/
theorem Tidy.onAdd (h : Tidy s) {entry : CorpusEntry Stmt} {bandits : Bandits}
    (hfresh : entry.id ∉ s.live ∧ entry.id ∉ s.removed) (hfree : s.scheduler.queue.freeSlots = [])
    (hs : step s (.onAdd entry bandits : SlotOp C Stmt) = some s') : Tidy s' := by
  have hnew : entry.id ∉ s.scheduler.idMapping.keys := by
    rw [h.keys]
    exact not_or.2 hfresh
  obtain ⟨idx, queue, heq, hfitted, hcases⟩ :=
    h.valid.fitted.insert h.valid.free (s.scheduler.newItem bandits entry).1
  have hadd := ProbabilisticMABScheduler.onAdd_eq_some heq
  obtain ⟨score, scheduler, bandits', hadd', hvalid, -⟩ := h.valid.onAdd bandits entry
  obtain ⟨-, hscheduler, -⟩ : _ ∧ _ ∧ _ := by simpa using hadd.symm.trans hadd'
  simp only [step, hadd, Option.bind_eq_bind, Option.bind_some, Option.some.injEq] at hs
  subst hs
  rcases hcases with ⟨-, rfl, hleaves, -⟩ | ⟨hslots, -⟩
  swap
  · simp [hfree] at hslots
  have hmap : (s.scheduler.place s.scheduler.queue.leaves.length queue entry.id
      (s.scheduler.newItem bandits entry).2.1).idMapping
        = s.scheduler.idMapping ++ [⟨Hasher.hash entry.id, entry.id, (s.scheduler.newItem bandits entry).2.1⟩] := by
    unfold ProbabilisticMABScheduler.place
    rw [if_pos h.length.ge, BucketMap.insert_of_not_mem hnew]
  refine ⟨hscheduler ▸ hvalid, ?_, ?_, ?_, ?_, ?_⟩
  · rw [hmap]
    show queue.leaves.length = _
    rw [hleaves, List.length_append, List.length_append, h.length]
    rfl
  · rw [hmap, ← BucketMap.insert_of_not_mem hnew]
    exact h.honest.insert hnew
  · intro id
    rw [hmap, BucketMap.keys, List.map_append, List.mem_append, Finset.mem_insert]
    have := h.keys id
    rw [BucketMap.keys] at this
    rw [this]
    simp only [List.map_cons, List.map_nil, List.mem_singleton]
    tauto
  · intro id hid
    rcases Finset.mem_insert.1 hid with rfl | hid
    · exact hfresh.2
    · exact h.disjoint id hid
  · intro i b w hb hw
    rw [hmap] at hb
    change queue.leaves[i]? = some w at hw
    rw [hleaves] at hw
    exact h.weight_append hfresh (clampWeight_pos _) hb hw

/-! ### Removals -/

theorem Tidy.onRemove (h : Tidy s) {id : ID} (hs : step s (.onRemove id : SlotOp C Stmt) = some s') : Tidy s' := by
  obtain ⟨scheduler, hrem, hs⟩ := Option.bind_eq_some_iff.1 hs
  cases hs
  obtain ⟨scheduler', hrem', hvalid⟩ := h.valid.onRemove id
  obtain rfl : scheduler = scheduler' := Option.some.inj (hrem.symm.trans hrem')
  unfold ProbabilisticMABScheduler.onRemove at hrem
  split at hrem
  · rename_i idx hidx
    obtain ⟨b₀, hb₀, rfl⟩ := h.honest.getFull_eq_some_iff.1 hidx
    obtain ⟨w₀, hw₀⟩ := h.exists_weight hb₀
    obtain ⟨queue, heq, -, hleaves, -⟩ := h.valid.fitted.remove (List.getElem?_eq_some_iff.1 hw₀).1
    rw [heq] at hrem
    cases hrem
    refine ⟨hvalid, ?_, h.honest, fun x => (h.keys x).trans mem_live_or_removed, fun x hx => h.disjoint_erase hx, ?_⟩
    · show queue.leaves.length = _
      rw [hleaves, List.length_set]
      exact h.length
    · intro i b w hb hw
      change queue.leaves[i]? = some w at hw
      rw [hleaves] at hw
      exact h.weight_set hidx hb₀ hb hw
  · rename_i hnone
    cases hrem
    refine ⟨hvalid, h.length, h.honest, fun x => (h.keys x).trans mem_live_or_removed,
      fun x hx => h.disjoint_erase hx, ?_⟩
    intro i b w hb hw
    obtain ⟨hrem, hlive⟩ := h.weight i b w hb hw
    refine ⟨fun hx => ?_, fun hx => hlive (Finset.mem_of_mem_erase hx)⟩
    rcases mem_removed.1 hx with hx | ⟨-, hx⟩
    · exact hrem hx
    · exact absurd hx (h.not_mem_live hnone)

/-! ### Batches -/

theorem Tidy.visit {currentEpoch : UInt32} {top : Nat} {v v' : ProbabilisticMABScheduler.Visit C}
    {parent : Option (TestableEntry (RawEntry Stmt))} (h : Tidy { s with scheduler := v.1 })
    (htop : ∃ w, v.1.queue.leaves[top]? = some w ∧ 0 < w)
    (hv : ProbabilisticMABScheduler.visit currentEpoch top v = some (parent, v')) :
    Tidy { s with scheduler := v'.1 } := by
  have hvalid := (ProbabilisticMABScheduler.visit_spec h.valid hv).1
  obtain ⟨w, hw, hpos⟩ := htop
  obtain ⟨scheduler, c, bandits⟩ := v
  simp only [ProbabilisticMABScheduler.visit] at hv
  split at hv
  · cases hv
    exact h
  · split at hv
    · obtain ⟨queue, hupdate, hv⟩ := Option.bind_eq_some_iff.1 hv
      cases hv
      obtain ⟨queue', heq, -, hleaves, -⟩ := h.valid.fitted.setWeigth (List.getElem?_eq_some_iff.1 hw).1 (clampWeight _)
      obtain rfl : queue' = queue := Option.some.inj (heq.symm.trans hupdate)
      exact h.refresh hvalid hleaves hw hpos (clampWeight_pos _)
    · cases hv
      exact h

/-- **An id that takes over a slot is not found**: the slot keeps the hash of the id that was there. -/
theorem Tidy.not_inStep (hhash : Function.Injective (Hasher.hash : ID → UInt64)) (h : Tidy s) {entry : CorpusEntry Stmt}
    {bandits : Bandits} (hfresh : entry.id ∉ s.live ∧ entry.id ∉ s.removed) (hreuse : s.scheduler.queue.freeSlots ≠ []) :
    ∃ s', SlotRun.step s (.onAdd entry bandits : SlotOp C Stmt) = some s' ∧ ¬InStep s' := by
  have hnew : entry.id ∉ s.scheduler.idMapping.keys := by
    rw [h.keys]
    exact not_or.2 hfresh
  obtain ⟨idx, queue, heq, -, hcases⟩ := h.valid.fitted.insert h.valid.free (s.scheduler.newItem bandits entry).1
  have hstep : SlotRun.step s (.onAdd entry bandits : SlotOp C Stmt) = some { s with
      scheduler := s.scheduler.place idx queue entry.id (s.scheduler.newItem bandits entry).2.1
      live := insert entry.id s.live } := by
    simp [SlotRun.step, ProbabilisticMABScheduler.onAdd_eq_some heq]
  refine ⟨_, hstep, fun hin => ?_⟩
  rcases hcases with ⟨hslots, -⟩ | ⟨-, hidx, -⟩
  · exact hreuse hslots
  obtain ⟨i, w, hfull, -, -⟩ := hin.live entry.id (Finset.mem_insert_self _ _)
  obtain ⟨b, hb, hhashed, hkey⟩ := BucketMap.getFull_eq_some hfull
  rw [h.length] at hidx
  unfold ProbabilisticMABScheduler.place at hb
  rw [if_neg (not_le.2 hidx), BucketMap.overwrite, List.getElem?_modify] at hb
  obtain ⟨b₀, hb₀, rfl⟩ := Option.map_eq_some_iff.1 hb
  have hmem := List.mem_of_getElem? hb₀
  have hhash₀ : b₀.hash = Hasher.hash entry.id := by
    rw [← hhashed]
    split <;> rfl
  rw [h.honest.hash b₀ hmem] at hhash₀
  exact hnew (hhash hhash₀ ▸ List.mem_map_of_mem hmem)

variable [LawfulRounding ℚ]

theorem Tidy.round {currentEpoch : UInt32} {v : ProbabilisticMABScheduler.Visit C} {draws : List Draw}
    {r : Round (ProbabilisticMABScheduler.Visit C) (TestableEntry (RawEntry Stmt))}
    (h : Tidy { s with scheduler := v.1 }) (hno : ¬v.1.queue.Strays draws)
    (hr : ProbabilisticMABScheduler.round currentEpoch v draws = some r) : Tidy { s with scheduler := r.state.1 } := by
  obtain ⟨scheduler, c, bandits⟩ := v
  obtain ⟨⟨top, queue, draws'⟩, hsample, hr⟩ := Option.bind_eq_some_iff.1 hr
  have hsampled : Tidy { s with scheduler := { scheduler with queue := queue } } := h.sampled hsample
  cases top with
  | none =>
    cases hr
    exact hsampled
  | some top =>
    obtain ⟨⟨parent, v'⟩, hvisit, hr⟩ := Option.bind_eq_some_iff.1 hr
    cases hr
    refine hsampled.visit (v := ({ scheduler with queue := queue }, c, bandits)) ?_ hvisit
    obtain ⟨w, hw, hpos⟩ := h.exists_pos hno hsample
    refine ⟨w, ?_, hpos⟩
    rw [(BlockSumTable.sample_spec h.valid.fitted hsample).2.1]
    exact hw

theorem Tidy.nextBatch (h : Tidy s) {c : C} {size : Nat} {bandits : Bandits} {order : HashOrder ID}
    {draws : List Draw} (hreg : Regular s (.nextBatch c size bandits order draws : SlotOp C Stmt))
    (hs : step s (.nextBatch c size bandits order draws : SlotOp C Stmt) = some s') : Tidy s' := by
  obtain ⟨b, hb, hs⟩ := Option.bind_eq_some_iff.1 hs
  cases hs
  obtain ⟨⟨parents, v, draws'⟩, hloop, hb⟩ := Option.bind_eq_some_iff.1 hb
  cases hb
  exact whileShort_of_allRounds (I := fun v => Tidy { s with scheduler := v.1 }) (fun _ _ _ => Tidy.round) h hreg hloop

theorem Tidy.step (h : Tidy s) (op : SlotOp C Stmt) (hfresh : Fresh s op) (hreg : Regular s op)
    (hs : SlotRun.step s op = some s') : Tidy s' := by
  cases op with
  | onAdd entry bandits => exact h.onAdd hfresh hreg hs
  | onRemove id => exact h.onRemove hs
  | nextBatch c size bandits order draws => exact h.nextBatch hreg hs

/-- In a batch no removed id is sampled exactly if no point strays. -/
theorem Tidy.inBatch_iff (h : Tidy s) (op : SlotOp C Stmt) :
    SamplesLive s op ↔ s.InBatch (fun scheduler draws => ¬scheduler.queue.Strays draws) op := by
  cases op with
  | onAdd entry bandits => exact Iff.rfl
  | onRemove id => exact Iff.rfl
  | nextBatch c size bandits order draws =>
    exact (allRounds_congr (I := fun v : ProbabilisticMABScheduler.Visit C => Tidy { s with scheduler := v.1 })
      (fun _ _ _ => Tidy.round) (fun _ draws hv => (hv.samplesLive_iff draws).symm) h).symm

theorem Tidy.samplesLive (h : Tidy s) {op : SlotOp C Stmt} (hreg : Regular s op) : SamplesLive s op := by
  cases op with
  | onAdd entry bandits => trivial
  | onRemove id => trivial
  | nextBatch c size bandits order draws => exact (h.inBatch_iff _).2 hreg

/-! ## What goes wrong -/

/-- A step that is not regular puts slots and ids out of step, or samples a removed id. -/
theorem Tidy.breaks (hhash : Function.Injective (Hasher.hash : ID → UInt64)) (h : Tidy s) (op : SlotOp C Stmt)
    (hfresh : Fresh s op) (hreg : ¬Regular s op) :
    ¬SamplesLive s op ∨ ∃ s', SlotRun.step s op = some s' ∧ ¬InStep s' := by
  cases op with
  | onRemove id => exact absurd trivial hreg
  | nextBatch c size bandits order draws => exact .inl (mt (h.inBatch_iff _).1 hreg)
  | onAdd entry bandits => exact .inr (h.not_inStep hhash hfresh hreg)

/-- **Slots and ids stay in step, and no removed id is sampled, exactly as long as no freed slot is used again and no point
strays**, over every run of additions of fresh ids, removals and batches, and for every rounding. -/
theorem inStep_iff (hhash : Function.Injective (Hasher.hash : ID → UInt64)) (body : BodyRef)
    (ops : List (SlotOp C Stmt)) (hfresh : AllSteps step Fresh (new body) ops) :
    AllStates step InStep (new body) ops ∧ AllSteps step SamplesLive (new body) ops ↔
      AllSteps step Regular (new body) ops :=
  allStates_and_allSteps_iff (I := Tidy) (fun _ h => h.inStep)
    (fun _ op h hf hr => ⟨h.samplesLive hr, fun _ hs => h.step op hf hr hs⟩)
    (fun _ op h hf hr => h.breaks hhash op hf hr) (.new body) hfresh

end SlotRun

/-! ## Runs -/

namespace SlotRun

attribute [local instance] FloatFns.tangent Rounding.binary64 Rounding.lawful_binary64

/-- The multiplication in the hash of a number. -/
local instance : Hasher ID where
  hash id := id.raw.toUInt64 * 0xf1357aea2e62a9c5

/-- An entry that covers `nodes` new edges. -/
def coveringEntry (n : UInt32) (nodes : Nat) : CorpusEntry Nat :=
  ⟨⟨⟨n⟩, [], []⟩, { Meta.default with newCovNodes := nodes }⟩

abbrev NatOp := SlotOp (InMemory (CorpusEntry Nat)) Nat

/-- Two ids of different weights. -/
def addAdd : List NatOp := [.onAdd (coveringEntry 1 0) .new, .onAdd (coveringEntry 2 1) .new]

/-- The third id comes while the slot of the first one is free. -/
def reuse : List NatOp := addAdd ++ [.onRemove ⟨1⟩, .onAdd (coveringEntry 3 0) .new]

/-- A batch of one entry. -/
def batchOne : NatOp := .nextBatch .new 1 .new (.sorted ID) [.zero]

/-- Both ids are removed, which leaves something of the total, and then a batch is drawn. -/
def residue : List NatOp := (addAdd ++ [.onRemove ⟨2⟩, .onRemove ⟨1⟩]) ++ [batchOne]

/-- An id that comes after a removal takes over the freed slot, and is not found; and what rounding leaves of the total is
sampled as the last slot, which is that of a removed id. -/
theorem not_inStep_reuse_residue :
    ¬(AllStates step InStep (new 0) reuse ∧ AllSteps step SamplesLive (new 0) reuse) ∧
      ¬(AllStates step InStep (new 0) residue ∧ AllSteps step SamplesLive (new 0) residue) := by
  refine ⟨fun hall => ?_, fun hall => ?_⟩
  · have hrun : (run step (new 0) reuse).map (fun s => (decide (⟨3⟩ ∈ s.live), s.scheduler.idMapping.getFull ⟨3⟩)) =
        some (true, none) := by
      decide +kernel
    obtain ⟨s, hs, heq⟩ := Option.map_eq_some_iff.1 hrun
    obtain ⟨hlive, hnone⟩ := Prod.mk.inj heq
    obtain ⟨i, w, hfull, -⟩ := (hall.1.of_run hs).live ⟨3⟩ (of_decide_eq_true hlive)
    rw [hnone] at hfull
    cases hfull
  · have hrun : (run step (new 0) (addAdd ++ [.onRemove ⟨2⟩, .onRemove ⟨1⟩])).map (fun s =>
        ((s.scheduler.queue.sample [.zero]).map Prod.fst, (s.scheduler.idMapping[1]?).map Bucket.key,
          decide (⟨2⟩ ∈ s.removed))) = some (some (some 1), some ⟨2⟩, true) := by
      decide +kernel
    obtain ⟨s, hs, heq⟩ := Option.map_eq_some_iff.1 hrun
    obtain ⟨hsample, hrest⟩ := Prod.mk.inj heq
    obtain ⟨hkey, hremoved⟩ := Prod.mk.inj hrest
    obtain ⟨⟨i, queue, draws'⟩, hsample, rfl⟩ := Option.map_eq_some_iff.1 hsample
    obtain ⟨b, hb, hid⟩ := Option.map_eq_some_iff.1 hkey
    -- the first round of the batch samples the slot of the id 2
    have hfirst := (((allSteps_append hs).1 hall.2).2.1.resolve_left (by decide)).1 1 queue draws' hsample b hb
    rw [hid] at hfirst
    exact hfirst (of_decide_eq_true hremoved)

theorem hash_injective : Function.Injective (Hasher.hash : ID → UInt64) := by
  intro i j h
  obtain ⟨i⟩ := i
  obtain ⟨j⟩ := j
  -- the factor is odd, so it has an inverse
  have hinv : (0xf1357aea2e62a9c5 : UInt64) * 0x781494a55daaed0d = 1 := by decide
  have hmul := congrArg (· * (0x781494a55daaed0d : UInt64)) h
  simp only [Hasher.hash, UInt64.mul_assoc, hinv, UInt64.mul_one] at hmul
  rw [UInt32.toUInt64_inj.1 hmul]

/-- The corpus of the second entry. -/
def corpusTwo : InMemory (CorpusEntry Nat) := CorpusHandler.insert .new (coveringEntry 2 1) (.fin 1)

/-- One id is removed, and the other one is drawn and then removed as well; no batch follows. -/
def regular : List NatOp :=
  addAdd ++ [.onRemove ⟨1⟩, .nextBatch corpusTwo 1 .new (.sorted ID) [.zero], .onRemove ⟨2⟩]

/-- In a run of that kind slots and ids stay in step. -/
theorem inStep_iff_regular :
    AllStates step InStep (new 0) regular ∧ AllSteps step SamplesLive (new 0) regular :=
  (inStep_iff hash_injective 0 regular (by decide +kernel)).2 (by decide +kernel)

end SlotRun

end Lsf.Engine
