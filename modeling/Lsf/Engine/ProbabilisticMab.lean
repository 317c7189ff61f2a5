import Lsf.Engine.BlockSum
import Lsf.Engine.Schedule
import Lsf.Lib.Buckets

/-!
# Probabilistic schedulers

`ProbabilisticMABScheduler` samples the slots of a block sum table and keeps the id of each slot in an index map;
`FastProbabilisticMABScheduler` draws an entry and accepts it with a probability proportional to its score. Both are
lawful.
-/

namespace Lsf.Engine

open Lsf.Core Lsf.Lib Lsf.Feedback

structure SmallSchedueldItem (T : Type) where
  epoch : UInt32
  stats : ArmRef
  item : T

def SmallSchedueldItem.newWithPrior {T : Type} (h : Bandits) (body : BodyRef) (item : T) (m : Meta) :
    SmallSchedueldItem T × Bandits :=
  let epoch := h.epoch body
  let (stats, h) := h.newArmWithPrior body m
  (⟨epoch, stats, item⟩, h)

/-- `u32::abs_diff`. -/
def absDiff (a b : UInt32) : UInt32 := if a < b then b - a else a - b

variable {C Stmt : Type} [CorpusHandler C Stmt]

/-- The entry with the arm that scheduled it as both hooks. -/
def hookedEntry (entry : CorpusEntry Stmt) (stats : ArmRef) : TestableEntry (RawEntry Stmt) :=
  ((TestableEntry.new entry.raw).attachBuildHook stats).attachHook stats

def defaultCap : Nat := 10000

/-! ## ProbabilisticMABScheduler -/

structure ProbabilisticMABScheduler where
  queue : BlockSumTable
  idMapping : BucketMap ID (SmallSchedueldItem Unit)
  mab : BodyRef

namespace ProbabilisticMABScheduler

def new (body : BodyRef) : ProbabilisticMABScheduler := ⟨.new defaultCap, [], body⟩

def acceptUnder : UInt32 := 50

section Operations

variable [FloatFns ℚ] [Rounding ℚ] [Hasher ID]

/-- What the loop of `next_batch` works on. -/
abbrev Visit (C : Type) := ProbabilisticMABScheduler × C × Bandits

/-- A sampled slot: an old score is calculated anew, otherwise its entry is a parent. -/
def visit (currentEpoch : UInt32) (top : Nat) : Visit C → Option (Option (TestableEntry (RawEntry Stmt)) × Visit C)
  | (s, c, h) =>
    match s.idMapping[top]? with
    | none => some (none, s, c, h)
    | some b =>
      if absDiff b.value.epoch currentEpoch > acceptUnder then do
        let (score, h) := h.calculateScore b.value.stats
        let queue ← s.queue.update top score
        some (none, { s with
          queue := queue, idMapping := s.idMapping.setValue top { b.value with epoch := currentEpoch } }, c, h)
      else
        let (entry, c) := CorpusHandler.get c b.key
        some (entry.map fun e => hookedEntry e b.value.stats, s, c, h)

def round (currentEpoch : UInt32) : Visit C → List Draw → Option (Round (Visit C) (TestableEntry (RawEntry Stmt)))
  | (s, c, h), draws => do
    let (top, queue, draws) ← s.queue.sample draws
    let s := { s with queue := queue }
    match top with
    | none => some (.stop (s, c, h) draws)
    | some top => do
      let (parent, v) ← visit currentEpoch top (s, c, h)
      some (.go parent v draws)

def nextBatch (s : ProbabilisticMABScheduler) (c : C) (size : Nat) (h : Bandits) (_ : HashOrder ID)
    (draws : List Draw) : Option (Batch ProbabilisticMABScheduler C Stmt) := do
  let (parents, (s, c, h), draws) ← whileShort size (round (h.epoch s.mab)) (draws.length + 1) [] (s, c, h) draws
  some ⟨parents, s, c, h, draws⟩

/-- The item of a new entry, and its score. -/
def newItem (s : ProbabilisticMABScheduler) (h : Bandits) (entry : CorpusEntry Stmt) :
    ℚ × SmallSchedueldItem Unit × Bandits :=
  let (item, h) := SmallSchedueldItem.newWithPrior h s.mab () entry.metadata
  let (score, h) := h.calculateScore item.stats
  (score, item, h)

/-- The id and the item of the slot `idx`; a slot that is used again gets them in place. -/
def place (s : ProbabilisticMABScheduler) (idx : Nat) (queue : BlockSumTable) (id : ID)
    (item : SmallSchedueldItem Unit) : ProbabilisticMABScheduler :=
  { s with
    queue := queue
    idMapping := if idx ≥ s.idMapping.length then s.idMapping.insert id item else s.idMapping.overwrite idx id item }

def onAdd (s : ProbabilisticMABScheduler) (h : Bandits) (entry : CorpusEntry Stmt) :
    Option (F64 × ProbabilisticMABScheduler × Bandits) := do
  let (score, item, h) := s.newItem h entry
  let (idx, queue) ← s.queue.insert score
  some (.fin score, s.place idx queue entry.id item, h)

def onRemove (s : ProbabilisticMABScheduler) (id : ID) : Option ProbabilisticMABScheduler :=
  match s.idMapping.getFull id with
  | some idx => (s.queue.remove idx).map fun queue => { s with queue := queue }
  | none => some s

def chore (s : ProbabilisticMABScheduler) : ProbabilisticMABScheduler :=
  if s.queue.fallsThroughOften then { s with queue := s.queue.resum } else s

def reset (s : ProbabilisticMABScheduler) (h : Bandits) : ProbabilisticMABScheduler × Bandits :=
  ({ s with queue := .new defaultCap, idMapping := [] }, h.resetBody s.mab)

instance : Schedule ProbabilisticMABScheduler Stmt where
  nextBatch := nextBatch
  onAdd := onAdd
  onRemove := onRemove
  chore := chore
  reset := reset

/-! ### Its invariant -/

/-- The table is fitted, free slots exist, and every id has a slot. -/
structure Valid (s : ProbabilisticMABScheduler) : Prop where
  fitted : s.queue.Fitted
  free : ∀ i ∈ s.queue.freeSlots, i < s.queue.leaves.length
  length_le : s.idMapping.length ≤ s.queue.leaves.length

variable {s : ProbabilisticMABScheduler} {c : C} {h : Bandits}

omit [FloatFns ℚ] [Rounding ℚ] [Hasher ID] in
theorem Valid.new (body : BodyRef) : Valid (new body) where
  fitted := .new (by decide)
  free := by simp [ProbabilisticMABScheduler.new, BlockSumTable.new]
  length_le := le_rfl

theorem onAdd_eq_some {h : Bandits} {entry : CorpusEntry Stmt} {idx : Nat} {queue : BlockSumTable}
    (hinsert : s.queue.insert (s.newItem h entry).1 = some (idx, queue)) :
    s.onAdd h entry = some (.fin (s.newItem h entry).1, s.place idx queue entry.id (s.newItem h entry).2.1,
      (s.newItem h entry).2.2) := by
  simp [onAdd, hinsert]

omit [FloatFns ℚ] [Rounding ℚ] in
theorem length_place_le {idx : Nat} {queue : BlockSumTable} {id : ID} {item : SmallSchedueldItem Unit} :
    (s.place idx queue id item).idMapping.length ≤ max s.idMapping.length (idx + 1) := by
  unfold place
  dsimp only
  split
  · have := BucketMap.length_insert_le (m := s.idMapping) (k := id) (v := item)
    omega
  · rw [BucketMap.length_overwrite]
    exact le_max_left _ _

omit [FloatFns ℚ] [Rounding ℚ] in
theorem mem_keys_place {idx : Nat} {queue : BlockSumTable} {id : ID} {item : SmallSchedueldItem Unit} :
    id ∈ (s.place idx queue id item).idMapping.keys := by
  unfold place
  dsimp only
  split
  · exact BucketMap.mem_keys_insert
  · rename_i hlt
    exact BucketMap.mem_keys_overwrite (not_le.1 hlt)

/-- Adding an entry never panics, and its id is in the map. -/
theorem Valid.onAdd (hs : s.Valid) (h : Bandits) (entry : CorpusEntry Stmt) :
    ∃ score s' h', s.onAdd h entry = some (score, s', h') ∧ s'.Valid ∧ entry.id ∈ s'.idMapping.keys := by
  obtain ⟨idx, queue, heq, hfitted, hcases⟩ := hs.fitted.insert hs.free (s.newItem h entry).1
  have hlen := hs.length_le
  refine ⟨_, _, _, onAdd_eq_some heq, ⟨hfitted, ?_, length_place_le.trans ?_⟩, mem_keys_place⟩
  · intro i hi
    change i ∈ queue.freeSlots at hi
    show i < queue.leaves.length
    rcases hcases with ⟨-, -, -, hfree⟩ | ⟨hfree, -, hleaves⟩
    · rw [hfree] at hi
      cases hi
    · rw [hleaves, List.length_set]
      exact hs.free i (by simp [hfree, hi])
  · show _ ≤ queue.leaves.length
    rcases hcases with ⟨-, hidx, hleaves, -⟩ | ⟨-, hidx, hleaves⟩
    · rw [hleaves, List.length_append, List.length_singleton]
      omega
    · rw [hleaves, List.length_set]
      omega

omit [FloatFns ℚ] in
theorem Valid.onRemove (hs : s.Valid) (id : ID) : ∃ s', s.onRemove id = some s' ∧ s'.Valid := by
  unfold ProbabilisticMABScheduler.onRemove
  split
  · rename_i idx hidx
    obtain ⟨b, hb, -⟩ := BucketMap.getFull_eq_some hidx
    have hlt : idx < s.queue.leaves.length := (List.getElem?_eq_some_iff.1 hb).1.trans_le hs.length_le
    obtain ⟨queue, heq, hfitted, hleaves, hfree⟩ := hs.fitted.remove hlt
    refine ⟨{ s with queue := queue }, by simp [heq], hfitted, ?_, ?_⟩
    · intro i hi
      rw [hfree] at hi
      rw [hleaves, List.length_set]
      rcases List.mem_append.1 hi with hi | hi
      · exact hs.free i hi
      · exact List.mem_singleton.1 hi ▸ hlt
    · rw [hleaves, List.length_set]
      exact hs.length_le
  · exact ⟨s, rfl, hs⟩

omit [FloatFns ℚ] [Hasher ID] in
theorem Valid.chore (hs : s.Valid) : s.chore.Valid := by
  unfold ProbabilisticMABScheduler.chore
  split
  · exact ⟨hs.fitted.resum, hs.free, hs.length_le⟩
  · exact hs

omit [FloatFns ℚ] [Rounding ℚ] [Hasher ID] in
theorem Valid.setLeaves {queue : BlockSumTable} (hs : s.Valid) (hfitted : queue.Fitted)
    (hlen : queue.leaves.length = s.queue.leaves.length) (hfree : queue.freeSlots = s.queue.freeSlots)
    {idMapping : BucketMap ID (SmallSchedueldItem Unit)} (hmap : idMapping.length = s.idMapping.length) :
    Valid { s with queue := queue, idMapping := idMapping } where
  fitted := hfitted
  free i hi := by
    change i ∈ queue.freeSlots at hi
    show i < queue.leaves.length
    rw [hlen]
    exact hs.free i (hfree ▸ hi)
  length_le := by
    show idMapping.length ≤ queue.leaves.length
    rw [hmap, hlen]
    exact hs.length_le

omit [Hasher ID] in
theorem visit_spec {currentEpoch : UInt32} {top : Nat} {v v' : Visit C} {parent : Option (TestableEntry (RawEntry Stmt))}
    (hv : v.1.Valid) (h : visit currentEpoch top v = some (parent, v')) : v'.1.Valid ∧ Reads v.2.1 v'.2.1 := by
  obtain ⟨s, c, bandits⟩ := v
  simp only [visit] at h
  split at h
  · cases h
    exact ⟨hv, .refl⟩
  · rename_i b hb
    split at h
    · obtain ⟨queue, hupdate, h⟩ := Option.bind_eq_some_iff.1 h
      cases h
      have htop : top < s.queue.leaves.length := (List.getElem?_eq_some_iff.1 hb).1.trans_le hv.length_le
      obtain ⟨queue', heq, hfitted, hleaves, hfree⟩ := hv.fitted.setWeigth htop
        (clampWeight (bandits.calculateScore b.value.stats).1)
      obtain rfl : queue' = queue := Option.some.inj (heq.symm.trans hupdate)
      exact ⟨hv.setLeaves hfitted (by rw [hleaves, List.length_set]) hfree BucketMap.length_setValue, .refl⟩
    · cases h
      exact ⟨hv, .get _ .refl⟩

omit [Hasher ID] in
/-- What a round keeps: the invariant, and a corpus that was only read. -/
theorem round_spec {currentEpoch : UInt32} {c₀ : C} {v : Visit C} {draws : List Draw}
    {r : Round (Visit C) (TestableEntry (RawEntry Stmt))} (hv : v.1.Valid ∧ Reads c₀ v.2.1)
    (hr : round currentEpoch v draws = some r) : r.state.1.Valid ∧ Reads c₀ r.state.2.1 := by
  obtain ⟨s, c, h⟩ := v
  obtain ⟨hvalid, hreads⟩ := hv
  obtain ⟨⟨top, queue, draws'⟩, hsample, hr⟩ := Option.bind_eq_some_iff.1 hr
  obtain ⟨hfitted, hleaves, hfree⟩ := BlockSumTable.sample_spec hvalid.fitted hsample
  have hvalid' : Valid { s with queue := queue } := hvalid.setLeaves hfitted (by rw [hleaves]) hfree rfl
  cases top with
  | none =>
    cases hr
    exact ⟨hvalid', hreads⟩
  | some top =>
    obtain ⟨⟨parent, v'⟩, hvisit, hr⟩ := Option.bind_eq_some_iff.1 hr
    cases hr
    obtain ⟨hend, hreads'⟩ := visit_spec (v := ({ s with queue := queue }, c, h)) hvalid' hvisit
    exact ⟨hend, hreads.trans hreads'⟩

/-- The entries are the ids of the slots. -/
instance : LawfulSchedule ProbabilisticMABScheduler Stmt where
  Valid := Valid
  entries s _ id := id ∈ s.idMapping.keys
  onAdd_spec s h e hs := by
    obtain ⟨score, s', h', heq, hvalid, hmem⟩ := hs.onAdd h e
    exact ⟨score, s', h', heq, hvalid, fun _ _ => hmem⟩
  onRemove_spec s id hs := hs.onRemove id
  nextBatch_spec s c size h order draws b hs hb := by
    obtain ⟨⟨parents, v, draws'⟩, hloop, hb⟩ := Option.bind_eq_some_iff.1 hb
    cases hb
    exact whileShort_invariant (I := fun v => v.1.Valid ∧ Reads c v.2.1) (fun _ _ _ => round_spec) ⟨hs, .refl⟩ hloop
  valid_chore s hs := hs.chore
  valid_reset s h _ := Valid.new s.mab

end Operations

end ProbabilisticMABScheduler

/-! ## FastProbabilisticMABScheduler -/

structure FastProbabilisticMABScheduler where
  body : BodyRef
  maxWeight : ℚ
  entries : IndexMap ID (SmallSchedueldItem ℚ)

namespace FastProbabilisticMABScheduler

def new (body : BodyRef) : FastProbabilisticMABScheduler := ⟨body, Feedback.maxWeight ℚ, .empty⟩

def acceptUnder : UInt32 := 10

variable [FloatFns ℚ]

abbrev Visit (C : Type) := FastProbabilisticMABScheduler × C × Bandits

/-- The arm of an entry, with a score that is not too old. -/
def refresh (currentEpoch : UInt32) (arm : SmallSchedueldItem ℚ) (h : Bandits) : SmallSchedueldItem ℚ × Bandits :=
  if absDiff arm.epoch currentEpoch ≥ acceptUnder then
    let (score, h) := h.calculateScore arm.stats
    ({ arm with item := score, epoch := currentEpoch }, h)
  else (arm, h)

def round (currentEpoch : UInt32) : Visit C → List Draw → Option (Round (Visit C) (TestableEntry (RawEntry Stmt)))
  | (s, c, h), draws => do
    let (u, draws) ← Draw.next draws
    let rdIdx ← u.randomRange 0 s.entries.len
    let (id, arm) ← s.entries.entries[rdIdx]?
    let (entry, c) := CorpusHandler.get c id
    match entry with
    | none => some (.go none (s, c, h) draws)
    | some entry => do
      let (arm, h) := refresh currentEpoch arm h
      let (u, draws) ← Draw.next draws
      let accepted ← u.randomBool (arm.item / s.maxWeight)
      some (.go (if accepted then some (hookedEntry entry arm.stats) else none)
        ({ s with entries := s.entries.setValue rdIdx arm }, c, h) draws)

def nextBatch (s : FastProbabilisticMABScheduler) (c : C) (size : Nat) (h : Bandits) (_ : HashOrder ID)
    (draws : List Draw) : Option (Batch FastProbabilisticMABScheduler C Stmt) := do
  let (generation, (s, c, h), draws) ← whileShort size (round (h.epoch s.body)) (draws.length + 1) [] (s, c, h) draws
  some ⟨generation, s, c, h, draws⟩

def onAdd (s : FastProbabilisticMABScheduler) (h : Bandits) (entry : CorpusEntry Stmt) :
    Option (F64 × FastProbabilisticMABScheduler × Bandits) :=
  let (item, h) := SmallSchedueldItem.newWithPrior h s.body 0 entry.metadata
  let (score, h) := h.calculateScore item.stats
  let item := { item with epoch := h.epoch s.body, item := score }
  some (.fin score, { s with entries := s.entries.insert entry.id item }, h)

def reset (s : FastProbabilisticMABScheduler) (h : Bandits) : FastProbabilisticMABScheduler × Bandits :=
  ({ s with entries := .empty }, h.resetBody s.body)

instance : Schedule FastProbabilisticMABScheduler Stmt where
  nextBatch := nextBatch
  onAdd := onAdd
  onRemove s id := some { s with entries := s.entries.swapRemove id }
  chore s := s
  reset := reset

theorem round_spec {currentEpoch : UInt32} {c₀ : C} {v : Visit C} {draws : List Draw}
    {r : Round (Visit C) (TestableEntry (RawEntry Stmt))} (hv : Reads c₀ v.2.1)
    (hr : round currentEpoch v draws = some r) : Reads c₀ r.state.2.1 := by
  obtain ⟨s, c, h⟩ := v
  obtain ⟨⟨u, draws₁⟩, -, hr⟩ := Option.bind_eq_some_iff.1 hr
  obtain ⟨rdIdx, -, hr⟩ := Option.bind_eq_some_iff.1 hr
  obtain ⟨⟨id, arm⟩, -, hr⟩ := Option.bind_eq_some_iff.1 hr
  dsimp only at hr
  split at hr
  · cases hr
    exact hv.trans (.get id .refl)
  · obtain ⟨⟨u', draws₂⟩, -, hr⟩ := Option.bind_eq_some_iff.1 hr
    obtain ⟨accepted, -, hr⟩ := Option.bind_eq_some_iff.1 hr
    cases hr
    exact hv.trans (.get id .refl)

/-- The entries are those of the map. -/
instance : LawfulSchedule FastProbabilisticMABScheduler Stmt where
  Valid _ := True
  entries s _ id := id ∈ s.entries.keys
  onAdd_spec s h e _ := by
    refine ⟨_, _, _, rfl, trivial, fun _ _ => ?_⟩
    simp [IndexMap.mem_keys, IndexMap.get_insert]
  onRemove_spec s id _ := ⟨_, rfl, trivial⟩
  nextBatch_spec s c size h order draws b _ hb := by
    obtain ⟨⟨parents, v, draws'⟩, hloop, hb⟩ := Option.bind_eq_some_iff.1 hb
    cases hb
    exact ⟨trivial, whileShort_invariant (I := fun v => Reads c v.2.1) (fun _ _ _ => round_spec) .refl hloop⟩
  valid_chore _ _ := trivial
  valid_reset _ _ _ := trivial

end FastProbabilisticMABScheduler

end Lsf.Engine
