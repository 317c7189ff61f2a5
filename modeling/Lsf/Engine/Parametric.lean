import Lsf.Engine.MabScheduler
import Lsf.Lib.Lockstep

/-!
# Schedulers do not look into the corpus

A scheduler asks a corpus for its ids and its size, and gets and updates entries. Two corpora of different types that
answer alike (`Reading`) therefore lead to the same batches, whatever the scheduler (`ParametricSchedule`).
-/

namespace Lsf.Engine

open Lsf.Core Lsf.Lib Lsf.Feedback

section Relations

variable {C C' Stmt : Type} [CorpusHandler C Stmt] [CorpusHandler C' Stmt]

/-- Related corpora answer alike, and are related after reading. -/
structure Reading (R : C → C' → Prop) : Prop where
  get_fst : ∀ c c' id, R c c' → (CorpusHandler.get c id).1 = (CorpusHandler.get c' id).1
  get_snd : ∀ c c' id, R c c' → R (CorpusHandler.get c id).2 (CorpusHandler.get c' id).2
  update : ∀ c c' id score, R c c' → R (CorpusHandler.update c id score) (CorpusHandler.update c' id score)
  ids : ∀ c c', R c c' → CorpusHandler.ids c = CorpusHandler.ids c'
  size : ∀ c c', R c c' → CorpusHandler.size c = CorpusHandler.size c'

/-- Equal up to the corpora in the middle, which are related. -/
structure Alongside {α β : Type} (R : C → C' → Prop) (r : α × C × β) (r' : α × C' × β) : Prop where
  fst : r.1 = r'.1
  corpus : R r.2.1 r'.2.1
  rest : r.2.2 = r'.2.2

/-- Equal batches and related corpora. -/
structure Batch.Alike {S : Type} (R : C → C' → Prop) (b : Batch S C Stmt) (b' : Batch S C' Stmt) : Prop where
  members : b.members = b'.members
  scheduler : b.scheduler = b'.scheduler
  corpus : R b.corpus b'.corpus
  bandits : b.bandits = b'.bandits
  draws : b.draws = b'.draws

/-- Two rounds that do the same. -/
inductive Round.Alike {σ τ T : Type} (R : σ → τ → Prop) : Round σ T → Round τ T → Prop where
  | stop {s : σ} {t : τ} (draws : List Draw) (h : R s t) : Round.Alike R (.stop s draws) (.stop t draws)
  | go {s : σ} {t : τ} (x : Option T) (draws : List Draw) (h : R s t) : Round.Alike R (.go x s draws) (.go x t draws)

/-- **Loops whose rounds do the same do the same.** -/
theorem whileShort_rel {σ τ T : Type} {R : σ → τ → Prop} {size : Nat} {round : σ → List Draw → Option (Round σ T)}
    {round' : τ → List Draw → Option (Round τ T)}
    (hround : ∀ s t draws, R s t → Option.Rel (Round.Alike R) (round s draws) (round' t draws)) {n : Nat}
    {found : List T} {s : σ} {t : τ} {draws : List Draw} (h : R s t) :
    Option.Rel (fun r r' => r.1 = r'.1 ∧ R r.2.1 r'.2.1 ∧ r.2.2 = r'.2.2) (whileShort size round n found s draws)
      (whileShort size round' n found t draws) := by
  induction n generalizing found s t draws with
  | zero => exact .none
  | succ n ih =>
    unfold whileShort
    split
    · exact .some ⟨rfl, h, rfl⟩
    · refine rel_bind (hround s t draws h) fun r r' hr => ?_
      cases hr with
      | stop draws h => exact .some ⟨rfl, h, rfl⟩
      | go x draws h => exact ih h

theorem Reading.getAll {R : C → C' → Prop} (hR : Reading R) {c : C} {c' : C'} (h : R c c') (ids : List ID) :
    (getAll c ids).1 = (getAll c' ids).1 ∧ R (getAll c ids).2 (getAll c' ids).2 := by
  induction ids generalizing c c' with
  | nil => exact ⟨rfl, h⟩
  | cons id ids ih =>
    obtain ⟨hentries, hend⟩ := ih (hR.get_snd c c' id h)
    refine ⟨?_, hend⟩
    show (CorpusHandler.get c id).1.toList ++ _ = (CorpusHandler.get c' id).1.toList ++ _
    rw [hR.get_fst c c' id h]
    exact congrArg _ hentries

end Relations

/-- Schedulers that do the same with corpora that answer alike. -/
class ParametricSchedule (S T : Type) [Schedule S T] : Prop where
  nextBatch_rel : ∀ {C C' : Type} [CorpusHandler C T] [CorpusHandler C' T] {R : C → C' → Prop}, Reading R →
    ∀ (s : S) (c : C) (c' : C') size h order draws, R c c' →
      Option.Rel (Batch.Alike R) (Schedule.nextBatch s c size h order draws) (Schedule.nextBatch s c' size h order draws)

variable {C C' Stmt : Type} [CorpusHandler C Stmt] [CorpusHandler C' Stmt] {R : C → C' → Prop}

namespace WeightedRandomScheduler

theorem sampleIter_rel (hR : Reading R) (dist : WeightedIndex) (ids : List ID) (n : Nat) {c : C} {c' : C'} (h : R c c')
    (draws : List Draw) : Option.Rel (Alongside R) (sampleIter dist ids n c draws) (sampleIter dist ids n c' draws) := by
  induction n generalizing c c' draws with
  | zero => exact .some ⟨rfl, h, rfl⟩
  | succ n ih =>
    refine rel_bind_same fun (u, draws) => rel_bind_same fun id => ?_
    refine rel_bind (ih (hR.get_snd c c' id h) draws) fun r r' hr => .some ⟨?_, hr.corpus, hr.rest⟩
    show ((CorpusHandler.get c id).1.map _).toList ++ r.1 = ((CorpusHandler.get c' id).1.map _).toList ++ r'.1
    rw [hR.get_fst c c' id h, hr.fst]

instance : ParametricSchedule WeightedRandomScheduler Stmt where
  nextBatch_rel hR s c c' size h order draws hc := by
    show Option.Rel _ (nextBatch s c size h order draws) (nextBatch s c' size h order draws)
    unfold nextBatch
    rw [hR.size c c' hc, hR.ids c c' hc]
    obtain ⟨hentries, hend⟩ := hR.getAll hc (order.list (CorpusHandler.ids c'))
    split
    · exact .some ⟨rfl, rfl, hc, rfl, rfl⟩
    · dsimp only
      rw [hentries]
      refine rel_bind_same fun dist => rel_bind (sampleIter_rel hR dist _ size hend draws) fun r r' hr => ?_
      exact .some ⟨hr.fst, rfl, hr.corpus, rfl, hr.rest⟩

end WeightedRandomScheduler

namespace AdaptiveWeightedRandomScheduler

variable [FloatFns ℚ]

omit [FloatFns ℚ] in
theorem sampleIter_rel (hR : Reading R) (s : AdaptiveWeightedRandomScheduler) (dist : WeightedIndex) (n : Nat) {c : C}
    {c' : C'} (h : R c c') (draws : List Draw) :
    Option.Rel (Alongside R) (s.sampleIter dist n c draws) (s.sampleIter dist n c' draws) := by
  induction n generalizing c c' draws with
  | zero => exact .some ⟨rfl, h, rfl⟩
  | succ n ih =>
    refine rel_bind_same fun (u, draws) => ?_
    dsimp only
    split
    · exact ih h draws
    · rename_i id stats hplace
      refine rel_bind (ih (hR.get_snd c c' id h) draws) fun r r' hr => .some ⟨?_, hr.corpus, hr.rest⟩
      show ((CorpusHandler.get c id).1.map _).toList ++ r.1 = ((CorpusHandler.get c' id).1.map _).toList ++ r'.1
      rw [hR.get_fst c c' id h, hr.fst]

instance : ParametricSchedule AdaptiveWeightedRandomScheduler Stmt where
  nextBatch_rel hR s c c' size h order draws hc := by
    show Option.Rel _ (nextBatch s c size h order draws) (nextBatch s c' size h order draws)
    unfold nextBatch
    rw [hR.size c c' hc, hR.ids c c' hc]
    split
    · exact .some ⟨rfl, rfl, hc, rfl, rfl⟩
    · refine rel_bind_same fun (s, h) => rel_bind_same fun dist => ?_
      refine rel_bind (sampleIter_rel hR s dist size hc draws) fun r r' hr => ?_
      exact .some ⟨hr.fst, rfl, hr.corpus, rfl, hr.rest⟩

end AdaptiveWeightedRandomScheduler

namespace MABScheduler

variable {H : Type} [BinaryHeap H (SchedueldItem ID)] [FloatFns ℚ]

/-- Equal up to the corpora. -/
structure Visit.Alike (R : C → C' → Prop) (v : Visit H C) (v' : Visit H C') : Prop where
  queue : v.1 = v'.1
  acc : v.2.1 = v'.2.1
  corpus : R v.2.2.1 v'.2.2.1
  bandits : v.2.2.2 = v'.2.2.2

theorem round_rel (hR : Reading R) (currentEpoch : UInt32) (v : Visit H C) (v' : Visit H C') (draws : List Draw)
    (hv : Visit.Alike R v v') :
    Option.Rel (Round.Alike (T := TestableEntry (RawEntry Stmt)) (Visit.Alike R)) (round currentEpoch v draws)
      (round currentEpoch v' draws) := by
  obtain ⟨queue, acc, c, h⟩ := v
  obtain ⟨queue', acc', c', h'⟩ := v'
  obtain ⟨rfl, rfl, hc, rfl⟩ := hv
  dsimp only at hc
  simp only [round]
  split
  · exact .some (.stop _ ⟨rfl, rfl, hc, rfl⟩)
  · rename_i top queue' hpop
    split
    · exact .some (.go _ _ ⟨rfl, rfl, hc, rfl⟩)
    · have hfst := hR.get_fst c c' top.item hc
      have hsnd := hR.get_snd c c' top.item hc
      revert hfst hsnd
      generalize CorpusHandler.get c top.item = r
      generalize CorpusHandler.get c' top.item = r'
      obtain ⟨entry, c₁⟩ := r
      obtain ⟨entry', c₁'⟩ := r'
      rintro rfl hsnd
      cases entry with
      | none => exact .some (.go _ _ ⟨rfl, rfl, hsnd, rfl⟩)
      | some parent => exact .some (.go _ _ ⟨rfl, rfl, hR.update _ _ _ _ hsnd, rfl⟩)

instance : ParametricSchedule (MABScheduler H) Stmt where
  nextBatch_rel hR s c c' size h order draws hc := by
    refine rel_bind (whileShort_rel (round_rel hR _) ⟨rfl, rfl, hc, rfl⟩) fun r r' hr => ?_
    obtain ⟨parents, ⟨queue, acc, c₁, h₁⟩, draws₁⟩ := r
    obtain ⟨parents', ⟨queue', acc', c₁', h₁'⟩, draws₁'⟩ := r'
    obtain ⟨rfl, ⟨rfl, rfl, hc₁, rfl⟩, rfl⟩ := hr
    exact .some ⟨rfl, rfl, hc₁, rfl, rfl⟩

end MABScheduler

namespace ProbabilisticMABScheduler

variable [FloatFns ℚ] [Rounding ℚ]

theorem visit_rel (hR : Reading R) (currentEpoch : UInt32) (top : Nat) (s : ProbabilisticMABScheduler) {c : C} {c' : C'}
    (hc : R c c') (h : Bandits) :
    Option.Rel (fun r r' => r.1 = r'.1 ∧ Alongside R r.2 r'.2)
      (visit currentEpoch top (s, c, h) : Option (Option (TestableEntry (RawEntry Stmt)) × Visit C))
      (visit currentEpoch top (s, c', h)) := by
  simp only [visit]
  split
  · exact .some ⟨rfl, rfl, hc, rfl⟩
  · rename_i b hb
    split
    · exact rel_bind_same fun queue => .some ⟨rfl, rfl, hc, rfl⟩
    · refine .some ⟨?_, rfl, hR.get_snd c c' b.key hc, rfl⟩
      rw [hR.get_fst c c' b.key hc]

theorem round_rel (hR : Reading R) (currentEpoch : UInt32) (v : Visit C) (v' : Visit C') (draws : List Draw)
    (hv : Alongside R v v') :
    Option.Rel (Round.Alike (T := TestableEntry (RawEntry Stmt)) (Alongside R)) (round currentEpoch v draws)
      (round currentEpoch v' draws) := by
  obtain ⟨s, c, h⟩ := v
  obtain ⟨s', c', h'⟩ := v'
  obtain ⟨rfl, hc, rfl⟩ := hv
  dsimp only at hc
  refine rel_bind_same fun (top, queue, draws) => ?_
  cases top with
  | none => exact .some (.stop _ ⟨rfl, hc, rfl⟩)
  | some top =>
    refine rel_bind (visit_rel hR currentEpoch top _ hc h) fun r r' hr => ?_
    obtain ⟨parent, v⟩ := r
    obtain ⟨parent', v'⟩ := r'
    obtain ⟨rfl, hv⟩ := hr
    exact .some (.go _ _ hv)

instance [Hasher ID] : ParametricSchedule ProbabilisticMABScheduler Stmt where
  nextBatch_rel hR s c c' size h order draws hc := by
    refine rel_bind (whileShort_rel (round_rel hR _) ⟨rfl, hc, rfl⟩) fun r r' hr => ?_
    obtain ⟨parents, ⟨s₁, c₁, h₁⟩, draws₁⟩ := r
    obtain ⟨parents', ⟨s₁', c₁', h₁'⟩, draws₁'⟩ := r'
    obtain ⟨rfl, ⟨rfl, hc₁, rfl⟩, rfl⟩ := hr
    exact .some ⟨rfl, rfl, hc₁, rfl, rfl⟩

end ProbabilisticMABScheduler

namespace FastProbabilisticMABScheduler

variable [FloatFns ℚ]

theorem round_rel (hR : Reading R) (currentEpoch : UInt32) (v : Visit C) (v' : Visit C') (draws : List Draw)
    (hv : Alongside R v v') :
    Option.Rel (Round.Alike (T := TestableEntry (RawEntry Stmt)) (Alongside R)) (round currentEpoch v draws)
      (round currentEpoch v' draws) := by
  obtain ⟨s, c, h⟩ := v
  obtain ⟨s', c', h'⟩ := v'
  obtain ⟨rfl, hc, rfl⟩ := hv
  dsimp only at hc
  refine rel_bind_same fun (u, draws) => rel_bind_same fun rdIdx => rel_bind_same fun (id, arm) => ?_
  have hsnd := hR.get_snd c c' id hc
  dsimp only
  rw [hR.get_fst c c' id hc]
  split
  · exact .some (.go _ _ ⟨rfl, hsnd, rfl⟩)
  · exact rel_bind_same fun (u, draws) => rel_bind_same fun accepted => .some (.go _ _ ⟨rfl, hsnd, rfl⟩)

instance : ParametricSchedule FastProbabilisticMABScheduler Stmt where
  nextBatch_rel hR s c c' size h order draws hc := by
    refine rel_bind (whileShort_rel (round_rel hR _) ⟨rfl, hc, rfl⟩) fun r r' hr => ?_
    obtain ⟨parents, ⟨s₁, c₁, h₁⟩, draws₁⟩ := r
    obtain ⟨parents', ⟨s₁', c₁', h₁'⟩, draws₁'⟩ := r'
    obtain ⟨rfl, ⟨rfl, hc₁, rfl⟩, rfl⟩ := hr
    exact .some ⟨rfl, rfl, hc₁, rfl, rfl⟩

end FastProbabilisticMABScheduler

namespace SchedulerBatcher

variable {S : Type} [Schedule S Stmt] [ParametricSchedule S Stmt] [FloatFns ℚ]

theorem refillIf_rel (hR : Reading R) (s : SchedulerBatcher S Stmt) (needed : Bool) {c : C} {c' : C'} (hc : R c c')
    (size : Nat) (h : Bandits) (order : HashOrder ID) (draws : List Draw) :
    Option.Rel (Batch.Alike R) (s.refillIf needed c size h order draws) (s.refillIf needed c' size h order draws) := by
  unfold refillIf
  split
  · refine rel_bind (ParametricSchedule.nextBatch_rel hR _ c c' _ h order draws hc) fun b b' hb => ?_
    obtain ⟨members, scheduler, c₁, bandits, draws⟩ := b
    obtain ⟨members', scheduler', c₁', bandits', draws'⟩ := b'
    obtain ⟨rfl, rfl, hc₁, rfl, rfl⟩ := hb
    exact .some ⟨rfl, rfl, hc₁, rfl, rfl⟩
  · exact .some ⟨rfl, rfl, hc, rfl, rfl⟩

theorem fill_rel (hR : Reading R) (size : Nat) (order : HashOrder ID) (n : Nat) (s : SchedulerBatcher S Stmt) {c : C}
    {c' : C'} (hc : R c c') (h : Bandits) (draws : List Draw) :
    Option.Rel (Batch.Alike R) (fill size order n s c h draws) (fill size order n s c' h draws) := by
  induction n generalizing s c c' h draws with
  | zero => exact .some ⟨rfl, rfl, hc, rfl, rfl⟩
  | succ n ih =>
    refine rel_bind (refillIf_rel hR s _ hc size h order draws) fun b b' hb => ?_
    obtain ⟨members, scheduler, c₁, bandits, draws⟩ := b
    obtain ⟨members', scheduler', c₁', bandits', draws'⟩ := b'
    obtain ⟨rfl, rfl, hc₁, rfl, rfl⟩ := hb
    refine rel_bind_same fun (u, draws) => rel_bind_same fun (entry, s) => ?_
    refine rel_bind (ih s hc₁ bandits draws) fun b b' hb => .some ⟨?_, hb.scheduler, hb.corpus, hb.bandits, hb.draws⟩
    exact congrArg (entry :: ·) hb.members

instance : ParametricSchedule (SchedulerBatcher S Stmt) Stmt where
  nextBatch_rel hR s c c' size h order draws hc := by
    refine rel_bind (refillIf_rel hR s _ hc size h order draws) fun b b' hb => ?_
    obtain ⟨members, scheduler, c₁, bandits, draws⟩ := b
    obtain ⟨members', scheduler', c₁', bandits', draws'⟩ := b'
    obtain ⟨rfl, rfl, hc₁, rfl, rfl⟩ := hb
    exact fill_rel hR size order size _ hc₁ _ _

end SchedulerBatcher

end Lsf.Engine
