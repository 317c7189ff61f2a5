import Lsf.Core.Draws
import Lsf.Engine.Corpus
import Lsf.Feedback.Bandits
import Lsf.Lib.Roulette
import Mathlib.Data.Nat.Log

/-!
# Schedulers

The trait `Schedule`, and what an engine may rely on whichever scheduler it was built with (`LawfulSchedule`): a batch
only reads the corpus, and an entry that was added is among the entries of the scheduler. `SchedulerBatcher` keeps the
batches of another scheduler for a while; `WeightedRandomScheduler` draws from the corpus itself.
-/

namespace Lsf.Engine

open Lsf.Core Lsf.Lib Lsf.Feedback

/-- What `next_batch` returns, and everything that it had its hands on. -/
structure Batch (S C Stmt : Type) where
  members : List (TestableEntry (RawEntry Stmt))
  scheduler : S
  corpus : C
  bandits : Bandits
  draws : List Draw

/-- The trait `Schedule` over statements `T`; `none` is a panic, or a batch that is still not full when the draws are
used up. -/
class Schedule (S T : Type) where
  nextBatch {C : Type} [CorpusHandler C T] : S → C → Nat → Bandits → HashOrder ID → List Draw → Option (Batch S C T)
  onAdd : S → Bandits → CorpusEntry T → Option (F64 × S × Bandits)
  onRemove : S → ID → Option S
  chore : S → S
  reset : S → Bandits → S × Bandits

/-! ## What an engine relies on -/

section Laws

variable {C Stmt : Type} [CorpusHandler C Stmt]

/-- `get` and `update` lead from one corpus to the other. -/
inductive Reads (c : C) : C → Prop where
  | refl : Reads c c
  | get (id : ID) {c' : C} : Reads c c' → Reads c (CorpusHandler.get c' id).2
  | update (id : ID) (score : F64) {c' : C} : Reads c c' → Reads c (CorpusHandler.update c' id score)

theorem Reads.trans {c c' c'' : C} (h : Reads c c') (h' : Reads c' c'') : Reads c c'' := by
  induction h' with
  | refl => exact h
  | get id _ ih => exact .get id ih
  | update id score _ ih => exact .update id score ih

/-- What reading keeps. -/
theorem Reads.keeps {P : C → Prop} (hget : ∀ c id, P c → P (CorpusHandler.get c id).2)
    (hupdate : ∀ c id score, P c → P (CorpusHandler.update c id score)) {c c' : C} (h : Reads c c') (hc : P c) :
    P c' := by
  induction h with
  | refl => exact hc
  | get id _ ih => exact hget _ _ ih
  | update id score _ ih => exact hupdate _ _ _ ih

/-- The invariant of a scheduler, and the entries it may hand out when the corpus has the ids `ids`. A scheduler that
has its invariant never panics when an entry is added or removed. -/
class LawfulSchedule (S T : Type) [Schedule S T] where
  Valid : S → Prop
  entries : S → Finset ID → ID → Prop
  onAdd_spec : ∀ (s : S) (h : Bandits) (e : CorpusEntry T), Valid s →
    ∃ score s' h', Schedule.onAdd s h e = some (score, s', h') ∧ Valid s' ∧ ∀ ids, e.id ∈ ids → entries s' ids e.id
  onRemove_spec : ∀ (s : S) (id : ID), Valid s → ∃ s', Schedule.onRemove T s id = some s' ∧ Valid s'
  nextBatch_spec : ∀ {C : Type} [CorpusHandler C T] (s : S) (c : C) size h order draws b, Valid s →
    Schedule.nextBatch s c size h order draws = some b → Valid b.scheduler ∧ Reads c b.corpus
  valid_chore : ∀ s, Valid s → Valid (Schedule.chore T s)
  valid_reset : ∀ s h, Valid s → Valid (Schedule.reset T s h).1

end Laws

/-! ## Filling a batch -/

/-- One round of a loop that fills a batch: the loop ends, or something may have been found. -/
inductive Round (σ T : Type) where
  | stop (s : σ) (draws : List Draw)
  | go (found : Option T) (s : σ) (draws : List Draw)

def Round.state {σ T : Type} : Round σ T → σ
  | .stop s _ => s
  | .go _ s _ => s

def Round.found {σ T : Type} : Round σ T → Option T
  | .stop _ _ => none
  | .go x _ _ => x

/-- The same round, with other draws left. -/
def Round.withDraws {σ T : Type} (draws : List Draw) : Round σ T → Round σ T
  | .stop s _ => .stop s draws
  | .go x s _ => .go x s draws

/-- `while found.len() < size`, for less than `n` rounds; when every round takes a draw, `draws.length + 1` is enough. -/
def whileShort {σ T : Type} (size : Nat) (round : σ → List Draw → Option (Round σ T)) :
    Nat → List T → σ → List Draw → Option (List T × σ × List Draw)
  | 0, _, _, _ => none
  | n + 1, found, s, draws =>
    if size ≤ found.length then some (found, s, draws) else do
      match ← round s draws with
      | .stop s draws => some (found, s, draws)
      | .go x s draws => whileShort size round n (found ++ x.toList) s draws

/-- **The loop rule**: what every round keeps, of the state together with what was found, holds at the end, where enough
was found or a round has stopped. -/
theorem whileShort_rule {σ T : Type} {size : Nat} {round : σ → List Draw → Option (Round σ T)} {I : List T → σ → Prop}
    {E : σ → Prop}
    (hgo : ∀ found s draws x s' draws', found.length < size → I found s → round s draws = some (.go x s' draws') →
      I (found ++ x.toList) s')
    (hstop : ∀ found s draws s' draws', I found s → round s draws = some (.stop s' draws') → I found s' ∧ E s') {n : Nat}
    {found found' : List T} {s s' : σ} {draws draws' : List Draw} (h0 : I found s)
    (h : whileShort size round n found s draws = some (found', s', draws')) :
    I found' s' ∧ (size ≤ found'.length ∨ E s') := by
  induction n generalizing found s draws with
  | zero => cases h
  | succ n ih =>
    unfold whileShort at h
    split at h
    · rename_i hsize
      cases h
      exact ⟨h0, .inl hsize⟩
    · rename_i hsize
      obtain ⟨r, hr, h⟩ := Option.bind_eq_some_iff.1 h
      cases r with
      | stop s₁ draws₁ =>
        cases h
        obtain ⟨hI, hE⟩ := hstop _ _ _ _ _ h0 hr
        exact ⟨hI, .inr hE⟩
      | go x s₁ draws₁ => exact ih (hgo _ _ _ _ _ _ (not_le.1 hsize) h0 hr) h

/-- What every round keeps, the loop keeps, and what it says of the things found holds of all of them. -/
theorem whileShort_spec {σ T : Type} {size : Nat} {round : σ → List Draw → Option (Round σ T)} {I : σ → Prop}
    {Q : T → Prop} (hround : ∀ s draws r, I s → round s draws = some r → I r.state ∧ ∀ x ∈ r.found, Q x) {n : Nat}
    {found found' : List T} {s s' : σ} {draws draws' : List Draw} (h0 : I s) (hfound : ∀ x ∈ found, Q x)
    (h : whileShort size round n found s draws = some (found', s', draws')) : I s' ∧ ∀ x ∈ found', Q x := by
  refine (whileShort_rule (I := fun found s => I s ∧ ∀ x ∈ found, Q x) (E := fun _ => True) ?_ ?_ ⟨h0, hfound⟩ h).1
  · intro found s draws x s' draws' _ hI hr
    obtain ⟨hs, hx⟩ := hround s draws _ hI.1 hr
    refine ⟨hs, fun y hy => ?_⟩
    rcases List.mem_append.1 hy with hy | hy
    · exact hI.2 y hy
    · exact hx y (Option.mem_toList.1 hy)
  · intro found s draws s' draws' hI hr
    exact ⟨⟨(hround s draws _ hI.1 hr).1, hI.2⟩, trivial⟩

/-- What every round keeps, the loop keeps. -/
theorem whileShort_invariant {σ T : Type} {size : Nat} {round : σ → List Draw → Option (Round σ T)} {I : σ → Prop}
    (hround : ∀ s draws r, I s → round s draws = some r → I r.state) {n : Nat} {found found' : List T} {s s' : σ}
    {draws draws' : List Draw} (h0 : I s) (h : whileShort size round n found s draws = some (found', s', draws')) :
    I s' :=
  (whileShort_spec (Q := fun _ => True) (fun s draws r hI hr => ⟨hround s draws r hI hr, fun _ _ => trivial⟩) h0
    (fun _ _ => trivial) h).1

/-- A loop whose rounds make something smaller comes to an end. -/
theorem whileShort_isSome {σ T : Type} {size : Nat} {round : σ → List Draw → Option (Round σ T)} (measure : σ → Nat)
    (hround : ∀ s draws, ∃ r, round s draws = some r ∧ ∀ x s' draws', r = .go x s' draws' → measure s' < measure s)
    {n : Nat} {found : List T} {s : σ} {draws : List Draw} (hn : measure s < n) :
    (whileShort size round n found s draws).isSome := by
  induction n generalizing found s draws with
  | zero => omega
  | succ n ih =>
    unfold whileShort
    split
    · rfl
    · obtain ⟨r, hr, hless⟩ := hround s draws
      rw [hr]
      cases r with
      | stop s' draws' => rfl
      | go x s' draws' =>
        have hmeasure := hless x s' draws' rfl
        exact ih (by omega)

/-- A loop that finds nothing, and is never told to stop, does not return. -/
theorem whileShort_eq_none {σ T : Type} {size : Nat} {round : σ → List Draw → Option (Round σ T)} {I : σ → Prop}
    (hround : ∀ s draws r, I s → round s draws = some r → ∃ s' draws', r = .go none s' draws' ∧ I s')
    (hsize : 0 < size) {n : Nat} {s : σ} {draws : List Draw} (h0 : I s) :
    whileShort size round n [] s draws = none := by
  induction n generalizing s draws with
  | zero => rfl
  | succ n ih =>
    unfold whileShort
    rw [List.length_nil, if_neg (not_le.2 hsize)]
    cases hr : round s draws with
    | none => rfl
    | some r =>
      obtain ⟨s', draws', rfl, hI⟩ := hround s draws r h0 hr
      exact ih hI

/-- A loop whose rounds take no draws takes none. -/
theorem whileShort_withDraws {σ T : Type} {size : Nat} {round : σ → List Draw → Option (Round σ T)}
    (hround : ∀ s draws rest, round s rest = (round s draws).map (Round.withDraws rest)) {n : Nat}
    {found found' : List T} {s s' : σ} {draws draws' : List Draw}
    (h : whileShort size round n found s draws = some (found', s', draws')) (rest : List Draw) :
    whileShort size round n found s rest = some (found', s', rest) := by
  induction n generalizing found s draws with
  | zero => cases h
  | succ n ih =>
    unfold whileShort at h ⊢
    split at h
    · rename_i hsize
      cases h
      rw [if_pos hsize]
    · rename_i hsize
      obtain ⟨r, hr, h⟩ := Option.bind_eq_some_iff.1 h
      rw [if_neg hsize, hround s draws rest, hr]
      cases r with
      | stop s₁ draws₁ =>
        cases h
        rfl
      | go x s₁ draws₁ => exact ih h

section AllRounds

variable {σ T : Type} (size : Nat) (round : σ → List Draw → Option (Round σ T))

/-- `P` holds in every round of the loop, of its state and the draws that are left. -/
def AllRounds (P : σ → List Draw → Prop) : Nat → List T → σ → List Draw → Prop
  | 0, _, _, _ => True
  | n + 1, found, s, draws =>
    size ≤ found.length ∨ P s draws ∧ ∀ x s' draws', round s draws = some (.go x s' draws') →
      AllRounds P n (found ++ x.toList) s' draws'

variable {size round} {P Q : σ → List Draw → Prop}

/-- A loop can be checked round by round. -/
instance AllRounds.decidable [∀ s draws, Decidable (P s draws)] :
    ∀ (n : Nat) (found : List T) (s : σ) (draws : List Draw), Decidable (AllRounds size round P n found s draws)
  | 0, _, _, _ => isTrue trivial
  | n + 1, found, s, draws =>
    match h : round s draws with
    | some (.go x s' draws') =>
      haveI : Decidable (AllRounds size round P n (found ++ x.toList) s' draws') :=
        AllRounds.decidable n (found ++ x.toList) s' draws'
      decidable_of_iff (size ≤ found.length ∨ P s draws ∧ AllRounds size round P n (found ++ x.toList) s' draws')
        (or_congr_right (and_congr_right fun _ =>
          ⟨fun hP y t rest hr => by rw [h] at hr; cases hr; exact hP, fun hP => hP x s' draws' h⟩))
    | some (.stop _ _) =>
      decidable_of_iff (size ≤ found.length ∨ P s draws)
        (or_congr_right (iff_self_and.2 fun _ _ _ _ hr => by rw [h] at hr; cases hr))
    | none =>
      decidable_of_iff (size ≤ found.length ∨ P s draws)
        (or_congr_right (iff_self_and.2 fun _ _ _ _ hr => by rw [h] at hr; cases hr))

variable {I : σ → Prop} {n : Nat} {found found' : List T} {s s' : σ} {draws draws' : List Draw}

/-- What the rounds with `P` keep, a loop in which all rounds have it keeps. -/
theorem whileShort_of_allRounds (hround : ∀ s draws r, I s → P s draws → round s draws = some r → I r.state) (h0 : I s)
    (hP : AllRounds size round P n found s draws) (h : whileShort size round n found s draws = some (found', s', draws')) :
    I s' := by
  induction n generalizing found s draws with
  | zero => cases h
  | succ n ih =>
    unfold whileShort at h
    split at h
    · cases h
      exact h0
    · rename_i hsize
      obtain ⟨hhere, hrest⟩ := hP.resolve_left hsize
      obtain ⟨r, hr, h⟩ := Option.bind_eq_some_iff.1 h
      have hI := hround _ _ r h0 hhere hr
      cases r with
      | stop s₁ draws₁ =>
        cases h
        exact hI
      | go x s₁ draws₁ => exact ih hI (hrest x s₁ draws₁ hr) h

/-- Two conditions on rounds that say the same where an invariant holds, which they keep. -/
theorem allRounds_congr (hround : ∀ s draws r, I s → P s draws → round s draws = some r → I r.state)
    (hPQ : ∀ s draws, I s → (P s draws ↔ Q s draws)) (h0 : I s) :
    AllRounds size round P n found s draws ↔ AllRounds size round Q n found s draws := by
  induction n generalizing found s draws with
  | zero => exact Iff.rfl
  | succ n ih =>
    refine or_congr_right ?_
    rw [hPQ s draws h0]
    refine and_congr_right fun hQ => forall₃_congr fun x s' draws' => forall_congr' fun hr => ?_
    exact ih (hround s draws _ h0 ((hPQ s draws h0).2 hQ) hr)

end AllRounds

/-! ## Weighted choice -/

/-- `WeightedIndex`: weights that can be drawn from. -/
structure WeightedIndex where
  weights : List ℚ
  sum_pos : 0 < weights.sum

namespace WeightedIndex

/-- Negative weights, no weights and weights without a sum are refused. -/
def new (weights : List ℚ) : Option WeightedIndex :=
  if h : (∀ w ∈ weights, 0 ≤ w) ∧ 0 < weights.sum then some ⟨weights, h.2⟩ else none

def sample (d : WeightedIndex) (u : Draw) : Nat := ((pick (u.val * d.weights.sum) d.weights).map Prod.fst).getD 0

/-- The weights, or equal ones where they are refused; no weights at all panic. -/
def newOrEqual (weights : List ℚ) : Option WeightedIndex :=
  (new weights).orElse fun _ => new (List.replicate weights.length 1)

variable {weights : List ℚ} {d : WeightedIndex}

/-- Positive weights are kept. -/
theorem weights_newOrEqual (hpos : ∀ w ∈ weights, 0 < w) (hd : newOrEqual weights = some d) : d.weights = weights := by
  cases weights with
  | nil => cases hd
  | cons w ws =>
    have hsum : 0 < (w :: ws).sum := List.sum_pos _ hpos (by simp)
    have hnew : new (w :: ws) = some ⟨w :: ws, hsum⟩ := dif_pos ⟨fun v hv => (hpos v hv).le, hsum⟩
    unfold newOrEqual at hd
    rw [hnew] at hd
    cases hd
    rfl

theorem exists_newOrEqual (hne : weights ≠ []) : ∃ d, newOrEqual weights = some d := by
  have hlength := List.length_pos_iff.2 hne
  have hequal : 0 < (List.replicate weights.length (1 : ℚ)).sum := by simpa using hlength
  have hnew : new (List.replicate weights.length 1) = some ⟨_, hequal⟩ :=
    dif_pos ⟨fun v hv => by simp [List.eq_of_mem_replicate hv], hequal⟩
  unfold newOrEqual
  cases new weights with
  | none => exact ⟨_, hnew⟩
  | some d => exact ⟨d, rfl⟩

/-- **What is drawn** is the place in whose stretch the point lies. -/
theorem sample_eq_iff (hnonneg : ∀ w ∈ d.weights, 0 ≤ w) {u : Draw} {i : Nat} :
    d.sample u = i ↔ (d.weights.take i).sum ≤ u.val * d.weights.sum ∧
      u.val * d.weights.sum < (d.weights.take (i + 1)).sum := by
  have h0 : 0 ≤ u.val * d.weights.sum := mul_nonneg u.nonneg d.sum_pos.le
  have hlt : u.val * d.weights.sum < d.weights.sum := mul_lt_of_lt_one_left d.sum_pos u.lt_one
  obtain ⟨⟨j, r⟩, hpick⟩ := Option.isSome_iff_exists.1 (pick_isSome hlt h0)
  have hprefix := pick_prefix hpick h0
  have hj : d.sample u = j := by
    unfold sample
    rw [hpick]
    rfl
  rw [hj]
  constructor
  · rintro rfl
    exact hprefix
  · exact prefix_unique hnonneg hprefix

end WeightedIndex

/-! ## WeightedRandomScheduler -/

/-- The entries that a corpus has for some ids. -/
def getAll {C Stmt : Type} [CorpusHandler C Stmt] (c : C) : List ID → List (CorpusEntry Stmt) × C
  | [] => ([], c)
  | id :: ids =>
    let (entry, c) := CorpusHandler.get c id
    let (entries, c) := getAll c ids
    (entry.toList ++ entries, c)

theorem reads_getAll {C Stmt : Type} [CorpusHandler C Stmt] (c : C) (ids : List ID) : Reads c (getAll c ids).2 := by
  induction ids generalizing c with
  | nil => exact .refl
  | cons id ids ih => exact (Reads.get id .refl).trans (ih _)

structure WeightedRandomScheduler where

namespace WeightedRandomScheduler

def calculateWeight (m : Meta) : ℚ :=
  let weight := 1 + (m.newCovNodes : ℚ) * 20
  let execTimeUs := m.execTime / 1000
  weight * if execTimeUs < 10 then 2 else if execTimeUs < 1000 then 1 else 1 / 2

/-- Draw `n` of the entries; one that is gone is skipped. -/
def sampleIter {C Stmt : Type} [CorpusHandler C Stmt] (dist : WeightedIndex) (ids : List ID) :
    Nat → C → List Draw → Option (List (TestableEntry (RawEntry Stmt)) × C × List Draw)
  | 0, c, draws => some ([], c, draws)
  | n + 1, c, draws => do
    let (u, draws) ← Draw.next draws
    let id ← ids[dist.sample u]?
    let (entry, c) := CorpusHandler.get c id
    let (entries, c, draws) ← sampleIter dist ids n c draws
    some ((entry.map fun e => TestableEntry.new e.raw).toList ++ entries, c, draws)

def nextBatch {C Stmt : Type} [CorpusHandler C Stmt] (s : WeightedRandomScheduler) (c : C) (size : Nat) (h : Bandits)
    (order : HashOrder ID) (draws : List Draw) : Option (Batch WeightedRandomScheduler C Stmt) :=
  if CorpusHandler.size c = 0 then some ⟨[], s, c, h, draws⟩ else do
    let (entries, c) := getAll c (order.list (CorpusHandler.ids c))
    let dist ← WeightedIndex.newOrEqual (entries.map fun e => calculateWeight e.metadata)
    let (members, c, draws) ← sampleIter dist (entries.map CorpusEntry.id) size c draws
    some ⟨members, s, c, h, draws⟩

instance {Stmt : Type} : Schedule WeightedRandomScheduler Stmt where
  nextBatch := nextBatch
  onAdd s h _ := some (.posInf, s, h)
  onRemove s _ := some s
  chore s := s
  reset s h := (s, h)

theorem reads_sampleIter {C Stmt : Type} [CorpusHandler C Stmt] {dist : WeightedIndex} {ids : List ID} {n : Nat}
    {c c' : C} {draws draws' : List Draw} {entries : List (TestableEntry (RawEntry Stmt))}
    (h : sampleIter dist ids n c draws = some (entries, c', draws')) : Reads c c' := by
  induction n generalizing c draws entries with
  | zero =>
    cases h
    exact .refl
  | succ n ih =>
    obtain ⟨⟨u, rest⟩, -, h⟩ := Option.bind_eq_some_iff.1 h
    obtain ⟨id, -, h⟩ := Option.bind_eq_some_iff.1 h
    obtain ⟨⟨entries', c'', draws''⟩, hrest, h⟩ := Option.bind_eq_some_iff.1 h
    cases h
    exact (Reads.get id .refl).trans (ih hrest)

/-- It keeps nothing, and may hand out whatever the corpus has. -/
instance {Stmt : Type} : LawfulSchedule WeightedRandomScheduler Stmt where
  Valid _ := True
  entries _ ids id := id ∈ ids
  onAdd_spec s h e _ := ⟨_, _, _, rfl, trivial, fun _ he => he⟩
  onRemove_spec s _ _ := ⟨s, rfl, trivial⟩
  nextBatch_spec s c size h order draws b _ hb := by
    refine ⟨trivial, ?_⟩
    change nextBatch s c size h order draws = some b at hb
    unfold nextBatch at hb
    split at hb
    · cases hb
      exact .refl
    · obtain ⟨dist, -, hb⟩ := Option.bind_eq_some_iff.1 hb
      obtain ⟨⟨members, c', draws'⟩, hiter, hb⟩ := Option.bind_eq_some_iff.1 hb
      cases hb
      exact (reads_getAll c _).trans (reads_sampleIter hiter)
  valid_chore _ _ := trivial
  valid_reset _ _ _ := trivial

end WeightedRandomScheduler

/-! ## SchedulerBatcher -/

def maxRefill : Nat := 128
def batchMultiplicator : Nat := 4
def minRefill : Nat := 32
def basePersistence : Nat := 5

structure SchedulerBatcher (S Stmt : Type) where
  innerScheduler : S
  batch : List (TestableEntry (RawEntry Stmt) × UInt64)

namespace SchedulerBatcher

variable {S C Stmt : Type}

/-- `(1. + score).log10().ceil()`, for a score that is not negative. -/
def scoreFactor (score : ℚ) : Nat := Nat.clog 10 ⌈1 + score⌉₊

/-- An entry that carries an arm persists by its score. -/
def calculatePersistence [FloatFns ℚ] (h : Bandits) (entry : TestableEntry (RawEntry Stmt)) : Nat × Bandits :=
  match entry.parentStats.head? with
  | some hook =>
    let (score, h) := h.calculateScore hook
    (basePersistence * scoreFactor (min score (10 ^ 20)), h)
  | none => (basePersistence, h)

/-- The entries of a refill with their energies. -/
def energize [FloatFns ℚ] (h : Bandits) :
    List (TestableEntry (RawEntry Stmt)) → List (TestableEntry (RawEntry Stmt) × UInt64) × Bandits
  | [] => ([], h)
  | item :: items =>
    let (score, h) := calculatePersistence h item
    let (rest, h) := energize h items
    ((item, UInt64.ofNat score) :: rest, h)

variable [CorpusHandler C Stmt] [Schedule S Stmt] [FloatFns ℚ]

def refill (s : SchedulerBatcher S Stmt) (c : C) (size : Nat) (h : Bandits) (order : HashOrder ID) (draws : List Draw) :
    Option (Batch (SchedulerBatcher S Stmt) C Stmt) := do
  let b ← Schedule.nextBatch s.innerScheduler c (min (max size minRefill) maxRefill) h order draws
  let (items, h) := energize b.bandits b.members
  some ⟨[], ⟨b.scheduler, s.batch ++ items⟩, b.corpus, h, b.draws⟩

def refillIf (s : SchedulerBatcher S Stmt) (needed : Bool) (c : C) (size : Nat) (h : Bandits) (order : HashOrder ID)
    (draws : List Draw) : Option (Batch (SchedulerBatcher S Stmt) C Stmt) :=
  if needed then s.refill c (size * batchMultiplicator) h order draws else some ⟨[], s, c, h, draws⟩

/-- Take one entry from the window at the end of the batch; an entry whose energy is used up leaves it. -/
def takeOne (s : SchedulerBatcher S Stmt) (size : Nat) (u : Draw) :
    Option (TestableEntry (RawEntry Stmt) × SchedulerBatcher S Stmt) := do
  let windowSize := min s.batch.length size
  let rdIndex ← u.randomRange (s.batch.length - windowSize) s.batch.length
  let (entry, energy) ← s.batch[rdIndex]?
  let energy := energy - 1
  let batch := s.batch.set rdIndex (entry, energy)
  some (entry, { s with batch := if energy = 0 then swapRemove batch rdIndex else batch })

/-- The loop, with `n` entries to go. -/
def fill (size : Nat) (order : HashOrder ID) :
    Nat → SchedulerBatcher S Stmt → C → Bandits → List Draw → Option (Batch (SchedulerBatcher S Stmt) C Stmt)
  | 0, s, c, h, draws => some ⟨[], s, c, h, draws⟩
  | n + 1, s, c, h, draws => do
    let b ← s.refillIf s.batch.isEmpty c size h order draws
    let (u, draws) ← Draw.next b.draws
    let (entry, s) ← b.scheduler.takeOne size u
    let b ← fill size order n s b.corpus b.bandits draws
    some { b with members := entry :: b.members }

def nextBatch (s : SchedulerBatcher S Stmt) (c : C) (size : Nat) (h : Bandits) (order : HashOrder ID)
    (draws : List Draw) : Option (Batch (SchedulerBatcher S Stmt) C Stmt) := do
  let b ← s.refillIf (s.batch.length < size) c size h order draws
  fill size order size b.scheduler b.corpus b.bandits b.draws

instance : Schedule (SchedulerBatcher S Stmt) Stmt where
  nextBatch := nextBatch
  onAdd s h e := (Schedule.onAdd s.innerScheduler h e).map fun (score, inner, h) =>
    (score, { s with innerScheduler := inner }, h)
  onRemove s id := (Schedule.onRemove Stmt s.innerScheduler id).map fun inner =>
    { s with innerScheduler := inner }
  chore s := { s with innerScheduler := Schedule.chore Stmt s.innerScheduler }
  reset s h :=
    let (inner, h) := Schedule.reset Stmt s.innerScheduler h
    (⟨inner, []⟩, h)

section Laws

variable [LawfulSchedule S Stmt] {s : SchedulerBatcher S Stmt} {c : C} {h : Bandits} {order : HashOrder ID}
  {draws : List Draw} {size : Nat} {b : Batch (SchedulerBatcher S Stmt) C Stmt}

/-- The inner scheduler has its invariant. -/
def Valid (s : SchedulerBatcher S Stmt) : Prop := LawfulSchedule.Valid Stmt s.innerScheduler

theorem refill_spec (hs : s.Valid) (hb : s.refill c size h order draws = some b) :
    b.scheduler.Valid ∧ Reads c b.corpus := by
  obtain ⟨b', hinner, hb⟩ := Option.bind_eq_some_iff.1 hb
  cases hb
  exact LawfulSchedule.nextBatch_spec _ _ _ _ _ _ _ hs hinner

omit [Schedule S Stmt] [FloatFns ℚ] [LawfulSchedule S Stmt] in
theorem takeOne_innerScheduler {s' : SchedulerBatcher S Stmt} {u : Draw} {entry : TestableEntry (RawEntry Stmt)}
    (ht : s.takeOne size u = some (entry, s')) : s'.innerScheduler = s.innerScheduler := by
  obtain ⟨i, -, ht⟩ := Option.bind_eq_some_iff.1 ht
  obtain ⟨⟨e, energy⟩, -, ht⟩ := Option.bind_eq_some_iff.1 ht
  cases ht
  rfl

theorem refillIf_spec {needed : Bool} (hs : s.Valid) (hb : s.refillIf needed c size h order draws = some b) :
    b.scheduler.Valid ∧ Reads c b.corpus := by
  unfold refillIf at hb
  split at hb
  · exact refill_spec hs hb
  · cases hb
    exact ⟨hs, .refl⟩

theorem fill_spec {n : Nat} (hs : s.Valid) (hb : fill size order n s c h draws = some b) :
    b.scheduler.Valid ∧ Reads c b.corpus := by
  induction n generalizing s c h draws b with
  | zero =>
    cases hb
    exact ⟨hs, .refl⟩
  | succ n ih =>
    unfold fill at hb
    obtain ⟨b₁, hrefill, hb⟩ := Option.bind_eq_some_iff.1 hb
    obtain ⟨⟨u, rest⟩, -, hb⟩ := Option.bind_eq_some_iff.1 hb
    obtain ⟨⟨entry, s'⟩, htake, hb⟩ := Option.bind_eq_some_iff.1 hb
    obtain ⟨b₂, hfill, hb⟩ := Option.bind_eq_some_iff.1 hb
    cases hb
    obtain ⟨hvalid, hreads⟩ := refillIf_spec hs hrefill
    have hvalid' : s'.Valid := by
      unfold Valid
      rw [takeOne_innerScheduler htake]
      exact hvalid
    obtain ⟨hend, hreads'⟩ := ih hvalid' hfill
    exact ⟨hend, hreads.trans hreads'⟩

/-- The entries are those of the inner scheduler. -/
instance : LawfulSchedule (SchedulerBatcher S Stmt) Stmt where
  Valid := Valid
  entries s ids id := LawfulSchedule.entries Stmt s.innerScheduler ids id
  onAdd_spec s h e hs := by
    obtain ⟨score, s', h', heq, hvalid, hmem⟩ := LawfulSchedule.onAdd_spec s.innerScheduler h e hs
    exact ⟨score, { s with innerScheduler := s' }, h', by simp [Schedule.onAdd, heq], hvalid, hmem⟩
  onRemove_spec s id hs := by
    obtain ⟨s', heq, hvalid⟩ := LawfulSchedule.onRemove_spec (T := Stmt) s.innerScheduler id hs
    exact ⟨{ s with innerScheduler := s' }, by simp [Schedule.onRemove, heq], hvalid⟩
  nextBatch_spec s c size h order draws b hs hb := by
    change nextBatch s c size h order draws = some b at hb
    obtain ⟨b₁, hrefill, hb⟩ := Option.bind_eq_some_iff.1 hb
    obtain ⟨hvalid, hreads⟩ := refillIf_spec hs hrefill
    obtain ⟨hend, hreads'⟩ := fill_spec hvalid hb
    exact ⟨hend, hreads.trans hreads'⟩
  valid_chore s hs := LawfulSchedule.valid_chore (T := Stmt) s.innerScheduler hs
  valid_reset s h hs := LawfulSchedule.valid_reset (T := Stmt) s.innerScheduler h hs

end Laws

end SchedulerBatcher

end Lsf.Engine
