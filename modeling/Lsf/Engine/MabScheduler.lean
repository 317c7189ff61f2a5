import Lsf.Engine.ProbabilisticMab
import Lsf.Lib.Renewal

/-!
# The other schedulers

`MABScheduler` keeps its entries in a heap and takes the best ones, rescoring those whose score is old, and
`AdaptiveWeightedRandomScheduler` draws from the corpus with one arm for each entry. Both are lawful, and a batch of the
former always comes to an end (`nextBatch_isSome`).
-/

namespace Lsf.Engine

open Lsf.Core Lsf.Lib Lsf.Feedback

/-! ## MABScheduler -/

structure SchedueldItem (T : Type) where
  score : ℚ
  epoch : UInt32
  stats : ArmRef
  item : T
  deriving DecidableEq, Repr

def SchedueldItem.new [FloatFns ℚ] {T : Type} (h : Bandits) (body : BodyRef) (item : T) : SchedueldItem T × Bandits :=
  let epoch := h.epoch body
  let (stats, h) := h.newArm body
  let (score, h) := h.calculateScore stats
  (⟨score, epoch, stats, item⟩, h)

def SchedueldItem.newWithPrior [FloatFns ℚ] {T : Type} (h : Bandits) (body : BodyRef) (item : T) (m : Meta) :
    SchedueldItem T × Bandits :=
  let epoch := h.epoch body
  let (stats, h) := h.newArmWithPrior body m
  let (score, h) := h.calculateScore stats
  (⟨score, epoch, stats, item⟩, h)

/-- The scheduler over a heap `H`. -/
structure MABScheduler (H : Type) where
  queue : H
  mab : BodyRef

namespace MABScheduler

variable {H C Stmt : Type} [BinaryHeap H (SchedueldItem ID)] [CorpusHandler C Stmt] [FloatFns ℚ]

def new (body : BodyRef) : MABScheduler H := ⟨BinaryHeap.empty, body⟩

def acceptUnder : UInt32 := 50

/-- What the loop of `next_batch` works on: the heap, the items already taken, the corpus and the arms. -/
abbrev Visit (H C : Type) := H × List (SchedueldItem ID) × C × Bandits

def round (currentEpoch : UInt32) :
    Visit H C → List Draw → Option (Round (Visit H C) (TestableEntry (RawEntry Stmt)))
  | (queue, acc, c, h), draws =>
    match BinaryHeap.pop queue with
    | none => some (.stop (queue, acc, c, h) draws)
    | some (top, queue) =>
      if absDiff top.epoch currentEpoch > acceptUnder then
        let (score, h) := h.calculateScore top.stats
        some (.go none (BinaryHeap.push queue { top with score := score, epoch := currentEpoch }, acc, c, h) draws)
      else
        match CorpusHandler.get c top.item with
        | (none, c) => some (.go none (queue, acc, c, h) draws)
        | (some parent, c) => some (.go (some ((TestableEntry.new parent.raw).attachBuildHook top.stats))
            (queue, acc ++ [top], CorpusHandler.update c top.item (.fin top.score), h) draws)

/-- An item is rescored once and taken once, so that twice as many rounds as items are enough. -/
def nextBatch (s : MABScheduler H) (c : C) (size : Nat) (h : Bandits) (_ : HashOrder ID) (draws : List Draw) :
    Option (Batch (MABScheduler H) C Stmt) := do
  let (parents, (queue, acc, c, h), draws) ← whileShort size (round (h.epoch s.mab))
    (2 * (BinaryHeap.items s.queue).length + 1) [] (s.queue, [], c, h) draws
  some ⟨parents, { s with queue := acc.foldl BinaryHeap.push queue }, c, h, draws⟩

def onAdd (s : MABScheduler H) (h : Bandits) (entry : CorpusEntry Stmt) : F64 × MABScheduler H × Bandits :=
  let (item, h) := SchedueldItem.newWithPrior h s.mab entry.id entry.metadata
  (.fin item.score, { s with queue := BinaryHeap.push s.queue item }, h)

def reset (s : MABScheduler H) (h : Bandits) : MABScheduler H × Bandits :=
  ({ s with queue := BinaryHeap.empty }, h.resetBody s.mab)

instance : Schedule (MABScheduler H) Stmt where
  nextBatch := nextBatch
  onAdd s h entry := some (s.onAdd h entry)
  onRemove s _ := some s
  chore s := s
  reset := reset

theorem round_reads {currentEpoch : UInt32} {c₀ : C} {v : Visit H C} {draws : List Draw}
    {r : Round (Visit H C) (TestableEntry (RawEntry Stmt))} (hv : Reads c₀ v.2.2.1)
    (hr : round currentEpoch v draws = some r) : Reads c₀ r.state.2.2.1 := by
  obtain ⟨queue, acc, c, h⟩ := v
  simp only [round] at hr
  split at hr
  · cases hr
    exact hv
  · rename_i top queue' hpop
    split at hr
    · cases hr
      exact hv
    · have hget : Reads c₀ (CorpusHandler.get c top.item).2 := hv.trans (.get _ .refl)
      split at hr
      · rename_i c' heq
        rw [heq] at hget
        cases hr
        exact hget
      · rename_i parent c' heq
        rw [heq] at hget
        cases hr
        exact hget.trans (.update _ _ .refl)

variable [BinaryHeap.LawfulBinaryHeap H (SchedueldItem.score (T := ID))]

/-! ### A batch comes to an end -/

/-- The score of the item is too old. -/
def isStale (currentEpoch : UInt32) (item : SchedueldItem ID) : Bool := absDiff item.epoch currentEpoch > acceptUnder

/-- How many rounds are left: one for each item, and one more where the score is old. -/
def roundsLeft (currentEpoch : UInt32) (v : Visit H C) : Nat :=
  (BinaryHeap.items v.1).length + (BinaryHeap.items v.1).countP (isStale currentEpoch)

omit [FloatFns ℚ] in
theorem not_stale_self (currentEpoch : UInt32) (item : SchedueldItem ID) (score : ℚ) :
    ¬isStale currentEpoch { item with score := score, epoch := currentEpoch } := by
  unfold isStale absDiff acceptUnder
  simp

theorem round_roundsLeft (currentEpoch : UInt32) (v : Visit H C) (draws : List Draw) :
    ∃ r : Round (Visit H C) (TestableEntry (RawEntry Stmt)), round currentEpoch v draws = some r ∧
      ∀ x v' draws', r = .go x v' draws' → roundsLeft currentEpoch v' < roundsLeft currentEpoch v := by
  obtain ⟨queue, acc, c, h⟩ := v
  simp only [round]
  split
  · exact ⟨_, rfl, fun _ _ _ h => by cases h⟩
  · rename_i top queue' hpop
    split
    · rename_i hstale
      refine ⟨_, rfl, fun x v' draws' heq => ?_⟩
      cases heq
      exact left_renew_lt SchedueldItem.score hpop (decide_eq_true hstale) (not_stale_self currentEpoch top _)
    · have hless : left (isStale currentEpoch) queue' < left (isStale currentEpoch) queue := by
        have hleft := left_pop SchedueldItem.score (isStale currentEpoch) hpop
        omega
      split
      · refine ⟨_, rfl, fun x v' draws' heq => ?_⟩
        cases heq
        exact hless
      · refine ⟨_, rfl, fun x v' draws' heq => ?_⟩
        cases heq
        exact hless

/-- **A batch always returns.** -/
theorem nextBatch_isSome (s : MABScheduler H) (c : C) (size : Nat) (h : Bandits) (order : HashOrder ID)
    (draws : List Draw) : (s.nextBatch c size h order draws).isSome := by
  have hleft : roundsLeft (h.epoch s.mab) (s.queue, [], c, h) < 2 * (BinaryHeap.items s.queue).length + 1 :=
    Nat.lt_succ_of_le (left_le (isStale (h.epoch s.mab)) s.queue)
  have hloop : (whileShort size (round (h.epoch s.mab)) (2 * (BinaryHeap.items s.queue).length + 1) []
      (s.queue, [], c, h) draws : Option (List (TestableEntry (RawEntry Stmt)) × _)).isSome :=
    whileShort_isSome (roundsLeft (h.epoch s.mab)) (round_roundsLeft (h.epoch s.mab)) hleft
  obtain ⟨⟨parents, v, draws'⟩, hloop⟩ := Option.isSome_iff_exists.1 hloop
  unfold nextBatch
  rw [hloop]
  rfl

/-- The entries are the items of the heap. -/
instance : LawfulSchedule (MABScheduler H) Stmt where
  Valid _ := True
  entries s _ id := ∃ item ∈ BinaryHeap.items s.queue, item.item = id
  onAdd_spec s h e _ := by
    refine ⟨_, _, _, rfl, trivial, fun _ _ => ?_⟩
    refine ⟨(SchedueldItem.newWithPrior h s.mab e.id e.metadata).1, ?_, rfl⟩
    have hperm := BinaryHeap.LawfulBinaryHeap.items_push SchedueldItem.score s.queue
      (SchedueldItem.newWithPrior h s.mab e.id e.metadata).1
    exact hperm.mem_iff.2 List.mem_cons_self
  onRemove_spec s id _ := ⟨s, rfl, trivial⟩
  nextBatch_spec s c size h order draws b _ hb := by
    obtain ⟨⟨parents, v, draws'⟩, hloop, hb⟩ := Option.bind_eq_some_iff.1 hb
    cases hb
    exact ⟨trivial, whileShort_invariant (I := fun v => Reads c v.2.2.1) (fun _ _ _ => round_reads) .refl hloop⟩
  valid_chore _ _ := trivial
  valid_reset _ _ _ := trivial

end MABScheduler

/-! ## AdaptiveWeightedRandomScheduler -/

def granularity : UInt32 := 50

structure AdaptiveWeightedRandomScheduler where
  statMapping : IndexMap ID ArmRef
  dist : Option WeightedIndex
  body : BodyRef

namespace AdaptiveWeightedRandomScheduler

variable {C Stmt : Type} [CorpusHandler C Stmt]

def new (body : BodyRef) : AdaptiveWeightedRandomScheduler := ⟨.empty, none, body⟩

section Operations

variable [FloatFns ℚ]

/-- The scores of the ids; an id that has no arm yet gets one. -/
def weigh (s : AdaptiveWeightedRandomScheduler) : List ID → Bandits → List ℚ × AdaptiveWeightedRandomScheduler × Bandits
  | [], h => ([], s, h)
  | id :: ids, h =>
    let (fresh, h) := h.newArm s.body
    let (stats, statMapping) := s.statMapping.orInsert id fresh
    -- scores are bounded, so that the branch for an infinite one is never taken
    let (score, h) := h.calculateScore stats
    let (scores, s, h) := weigh { s with statMapping := statMapping } ids h
    (score :: scores, s, h)

/-- The distribution is made anew now and then; no ids at all panic. -/
def rebuild (s : AdaptiveWeightedRandomScheduler) (ids : List ID) (h : Bandits) :
    Option (AdaptiveWeightedRandomScheduler × Bandits) :=
  if s.dist.isNone ∨ h.epoch s.body % granularity = 0 then do
    let (weights, s, h) := s.weigh ids h
    let dist ← WeightedIndex.newOrEqual weights
    some ({ s with dist := some dist }, h)
  else some (s, h)

/-- Draw `n` places of the map; a place or an entry that is gone is skipped. -/
def sampleIter (s : AdaptiveWeightedRandomScheduler) (dist : WeightedIndex) :
    Nat → C → List Draw → Option (List (TestableEntry (RawEntry Stmt)) × C × List Draw)
  | 0, c, draws => some ([], c, draws)
  | n + 1, c, draws => do
    let (u, draws) ← Draw.next draws
    match s.statMapping.entries[dist.sample u]? with
    | none => sampleIter s dist n c draws
    | some (id, stats) => do
      let (entry, c) := CorpusHandler.get c id
      let (entries, c, draws) ← sampleIter s dist n c draws
      some ((entry.map fun e => (TestableEntry.new e.raw).attachHook stats).toList ++ entries, c, draws)

def nextBatch (s : AdaptiveWeightedRandomScheduler) (c : C) (size : Nat) (h : Bandits) (order : HashOrder ID)
    (draws : List Draw) : Option (Batch AdaptiveWeightedRandomScheduler C Stmt) :=
  if CorpusHandler.size c = 0 then some ⟨[], s, c, h, draws⟩ else do
    let (s, h) ← s.rebuild (order.list (CorpusHandler.ids c)) h
    let dist ← s.dist
    let (members, c, draws) ← s.sampleIter dist size c draws
    some ⟨members, s, c, h, draws⟩

instance : Schedule AdaptiveWeightedRandomScheduler Stmt where
  nextBatch := nextBatch
  onAdd s h _ := some (.posInf, s, h)
  onRemove s _ := some s
  chore s := s
  reset s h := ({ s with statMapping := .empty, dist := none }, h)

omit [FloatFns ℚ] in
theorem reads_sampleIter {s : AdaptiveWeightedRandomScheduler} {dist : WeightedIndex} {n : Nat} {c c' : C}
    {draws draws' : List Draw} {entries : List (TestableEntry (RawEntry Stmt))}
    (h : s.sampleIter dist n c draws = some (entries, c', draws')) : Reads c c' := by
  induction n generalizing c draws entries with
  | zero =>
    cases h
    exact .refl
  | succ n ih =>
    obtain ⟨⟨u, rest⟩, -, h⟩ := Option.bind_eq_some_iff.1 h
    dsimp only at h
    split at h
    · exact ih h
    · rename_i id stats hplace
      obtain ⟨⟨entries', c'', draws''⟩, hrest, h⟩ := Option.bind_eq_some_iff.1 h
      cases h
      exact (Reads.get id .refl).trans (ih hrest)

/-- It may hand out whatever the corpus has. -/
instance : LawfulSchedule AdaptiveWeightedRandomScheduler Stmt where
  Valid _ := True
  entries _ ids id := id ∈ ids
  onAdd_spec s h e _ := ⟨_, _, _, rfl, trivial, fun _ he => he⟩
  onRemove_spec s _ _ := ⟨s, rfl, trivial⟩
  nextBatch_spec s c size h order draws b _ hb := by
    refine ⟨trivial, ?_⟩
    change nextBatch s c size h order draws = some b at hb
    unfold nextBatch at hb
    split at hb
    · cases hb
      exact .refl
    · obtain ⟨⟨s', h'⟩, -, hb⟩ := Option.bind_eq_some_iff.1 hb
      obtain ⟨dist, -, hb⟩ := Option.bind_eq_some_iff.1 hb
      obtain ⟨⟨members, c', draws'⟩, hiter, hb⟩ := Option.bind_eq_some_iff.1 hb
      cases hb
      exact reads_sampleIter hiter
  valid_chore _ _ := trivial
  valid_reset _ _ _ := trivial

end Operations

end AdaptiveWeightedRandomScheduler

end Lsf.Engine
