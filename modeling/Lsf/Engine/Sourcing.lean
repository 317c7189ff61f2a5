import Lsf.Engine.Batching
import Lsf.Engine.MabScheduler
import Lsf.Engine.Retaining

/-!
# Where a batch comes from

Every scheduler takes what it hands out from the corpus by `get` (`Got`), for this batch or, with a batcher in front, for
an earlier one since the last reset. So a property of all that can be got is one of all that is handed out
(`SourcedSchedule`). `PedigreeCorpus` says the same of a corpus: the parents of what can be got are those that were
inserted under the id.
-/

namespace Lsf.Engine

open Lsf.Core Lsf.Lib Lsf.Feedback

section Got

variable {C Stmt : Type} [CorpusHandler C Stmt] {c c' : C}

/-- An entry that `get` finds in the corpus, maybe after reading. -/
def Got (c : C) (entry : RawEntry Stmt) : Prop :=
  ∃ c' : C, Reads c c' ∧ ∃ id e, (CorpusHandler.get c' id).1 = some e ∧ e.raw = entry

theorem Got.of_reads {entry : RawEntry Stmt} (h : Reads c c') (hgot : Got c' entry) : Got c entry := by
  obtain ⟨c'', hreads, hget⟩ := hgot
  exact ⟨c'', h.trans hreads, hget⟩

theorem got_of_get {id : ID} {e : CorpusEntry Stmt} (h : (CorpusHandler.get c id).1 = some e) : Got c e.raw :=
  ⟨c, .refl, id, e, h, rfl⟩

/-- A drawn entry that was got, with whatever hooks. -/
theorem got_of_mem_map {id : ID} {f : CorpusEntry Stmt → TestableEntry (RawEntry Stmt)} (hf : ∀ e, (f e).entry = e.raw) :
    ∀ m ∈ (CorpusHandler.get c id).1.map f, Got c m.entry := by
  intro m hm
  obtain ⟨e, he, rfl⟩ := Option.map_eq_some_iff.1 hm
  rw [hf]
  exact got_of_get he

/-- The entries of a snapshot can be got. -/
theorem got_getAll {ids : List ID} : ∀ e ∈ (getAll c ids).1, Got c e.raw := by
  induction ids generalizing c with
  | nil =>
    intro e he
    cases he
  | cons id ids ih =>
    intro e he
    rcases List.mem_append.1 he with he | he
    · exact got_of_get (Option.mem_toList.1 he)
    · exact .of_reads (.get id .refl) (ih e he)

/-- Where ids lead to their own entries, what can be got has an id of the corpus. -/
theorem Got.id_mem [CountedCorpus C] [FaithfulCorpus C] (hc : FaithfulCorpus.Faithful Stmt c) {entry : RawEntry Stmt}
    (h : Got c entry) : entry.id ∈ CorpusHandler.ids c := by
  obtain ⟨c', hreads, id, e, hget, rfl⟩ := h
  have hread : FaithfulCorpus.Faithful Stmt c' ∧ CorpusHandler.ids c' = CorpusHandler.ids c := by
    refine hreads.keeps (P := fun c' => FaithfulCorpus.Faithful Stmt c' ∧ CorpusHandler.ids c' = CorpusHandler.ids c)
      (fun c' id h => ⟨FaithfulCorpus.faithful_get _ _ h.1, (LawfulCorpus.ids_get c' id).trans h.2⟩)
      (fun c' id score h => ⟨FaithfulCorpus.faithful_update _ _ _ h.1, (LawfulCorpus.ids_update c' id score).trans h.2⟩)
      ⟨hc, rfl⟩
  have hid : e.id = id := FaithfulCorpus.get_id c' id e hread.1 hget
  show e.id ∈ CorpusHandler.ids c
  rw [hid, ← hread.2]
  by_contra hnot
  rw [CountedCorpus.get_eq_none c' id hnot] at hget
  cases hget

end Got

/-! ## Schedulers -/

/-- What a scheduler hands out was got from the corpus, or has waited in the scheduler since it was. -/
class SourcedSchedule (S T : Type) [Schedule S T] where
  /-- Whatever waits has the property. -/
  Waits : (RawEntry T → Prop) → S → Prop
  waits_mono : ∀ (Q Q' : RawEntry T → Prop) s, (∀ e, Q e → Q' e) → Waits Q s → Waits Q' s
  waits_onAdd : ∀ Q (s : S) (h : Bandits) (e : CorpusEntry T) score s' h', Waits Q s →
    Schedule.onAdd s h e = some (score, s', h') → Waits Q s'
  waits_onRemove : ∀ Q (s : S) id s', Waits Q s → Schedule.onRemove T s id = some s' → Waits Q s'
  waits_chore : ∀ Q s, Waits Q s → Waits Q (Schedule.chore T s)
  waits_reset : ∀ Q s h, Waits Q (Schedule.reset T s h).1
  nextBatch_spec : ∀ {C : Type} [CorpusHandler C T] Q (s : S) (c : C) size h order draws b,
    (∀ e, Got c e → Q e) → Waits Q s → Schedule.nextBatch s c size h order draws = some b →
    (Waits Q b.scheduler ∧ Reads c b.corpus) ∧ ∀ m ∈ b.members, Q m.entry

/-- A scheduler that gets all that it hands out. -/
abbrev SourcedSchedule.nothingWaits {S T : Type} [Schedule S T]
    (h : ∀ {C : Type} [CorpusHandler C T] (s : S) (c : C) size h order draws b,
      Schedule.nextBatch s c size h order draws = some b → Reads c b.corpus ∧ ∀ m ∈ b.members, Got c m.entry) :
    SourcedSchedule S T where
  Waits _ _ := True
  waits_mono _ _ _ _ _ := trivial
  waits_onAdd _ _ _ _ _ _ _ _ _ := trivial
  waits_onRemove _ _ _ _ _ _ := trivial
  waits_chore _ _ _ := trivial
  waits_reset _ _ _ := trivial
  nextBatch_spec Q s c size bandits order draws b hQ _ hb := by
    obtain ⟨hreads, hgot⟩ := h s c size bandits order draws b hb
    exact ⟨⟨trivial, hreads⟩, fun m hm => hQ _ (hgot m hm)⟩

namespace WeightedRandomScheduler

variable {C Stmt : Type} [CorpusHandler C Stmt]

theorem got_sampleIter {dist : WeightedIndex} {ids : List ID} {n : Nat} {c c' : C} {draws draws' : List Draw}
    {entries : List (TestableEntry (RawEntry Stmt))}
    (h : sampleIter dist ids n c draws = some (entries, c', draws')) : ∀ m ∈ entries, Got c m.entry := by
  induction n generalizing c draws entries with
  | zero =>
    cases h
    exact List.forall_mem_nil _
  | succ n ih =>
    obtain ⟨⟨u, rest⟩, -, h⟩ := Option.bind_eq_some_iff.1 h
    obtain ⟨id, -, h⟩ := Option.bind_eq_some_iff.1 h
    obtain ⟨⟨entries', c'', draws''⟩, hrest, h⟩ := Option.bind_eq_some_iff.1 h
    cases h
    intro m hm
    rcases List.mem_append.1 hm with hm | hm
    · exact got_of_mem_map (fun _ => rfl) m (Option.mem_toList.1 hm)
    · exact .of_reads (.get id .refl) (ih hrest m hm)

instance : SourcedSchedule WeightedRandomScheduler Stmt :=
  .nothingWaits fun s c size h order draws b hb => by
    refine ⟨(LawfulSchedule.nextBatch_spec s c size h order draws b trivial hb).2, fun m hm => ?_⟩
    change nextBatch s c size h order draws = some b at hb
    unfold nextBatch at hb
    split at hb
    · cases hb
      cases hm
    · obtain ⟨dist, -, hb⟩ := Option.bind_eq_some_iff.1 hb
      obtain ⟨⟨members, c', draws'⟩, hiter, hb⟩ := Option.bind_eq_some_iff.1 hb
      cases hb
      exact .of_reads (reads_getAll c _) (got_sampleIter hiter m hm)

end WeightedRandomScheduler

namespace AdaptiveWeightedRandomScheduler

variable {C Stmt : Type} [CorpusHandler C Stmt] [FloatFns ℚ]

omit [FloatFns ℚ] in
theorem got_sampleIter {s : AdaptiveWeightedRandomScheduler} {dist : WeightedIndex} {n : Nat} {c c' : C}
    {draws draws' : List Draw} {entries : List (TestableEntry (RawEntry Stmt))}
    (h : s.sampleIter dist n c draws = some (entries, c', draws')) : ∀ m ∈ entries, Got c m.entry := by
  induction n generalizing c draws entries with
  | zero =>
    cases h
    exact List.forall_mem_nil _
  | succ n ih =>
    obtain ⟨⟨u, rest⟩, -, h⟩ := Option.bind_eq_some_iff.1 h
    dsimp only at h
    split at h
    · exact ih h
    · rename_i id stats hplace
      obtain ⟨⟨entries', c'', draws''⟩, hrest, h⟩ := Option.bind_eq_some_iff.1 h
      cases h
      intro m hm
      rcases List.mem_append.1 hm with hm | hm
      · exact got_of_mem_map (fun _ => rfl) m (Option.mem_toList.1 hm)
      · exact .of_reads (.get id .refl) (ih hrest m hm)

instance : SourcedSchedule AdaptiveWeightedRandomScheduler Stmt :=
  .nothingWaits fun s c size h order draws b hb => by
    refine ⟨(LawfulSchedule.nextBatch_spec s c size h order draws b trivial hb).2, fun m hm => ?_⟩
    change nextBatch s c size h order draws = some b at hb
    unfold nextBatch at hb
    split at hb
    · cases hb
      cases hm
    · obtain ⟨⟨s', h'⟩, -, hb⟩ := Option.bind_eq_some_iff.1 hb
      obtain ⟨dist, -, hb⟩ := Option.bind_eq_some_iff.1 hb
      obtain ⟨⟨members, c', draws'⟩, hiter, hb⟩ := Option.bind_eq_some_iff.1 hb
      cases hb
      exact got_sampleIter hiter m hm

end AdaptiveWeightedRandomScheduler

namespace MABScheduler

variable {H C Stmt : Type} [BinaryHeap H (SchedueldItem ID)] [CorpusHandler C Stmt] [FloatFns ℚ]

theorem round_got {currentEpoch : UInt32} {v : Visit H C} {draws : List Draw}
    {r : Round (Visit H C) (TestableEntry (RawEntry Stmt))} (hr : round currentEpoch v draws = some r) :
    ∀ m ∈ r.found, Got v.2.2.1 m.entry := by
  obtain ⟨queue, acc, c, h⟩ := v
  simp only [round] at hr
  split at hr
  · cases hr
    exact fun _ hm => by cases hm
  · rename_i top queue' hpop
    split at hr
    · cases hr
      exact fun _ hm => by cases hm
    · split at hr
      · cases hr
        exact fun _ hm => by cases hm
      · rename_i parent c' heq
        cases hr
        intro m hm
        cases hm
        have hget : (CorpusHandler.get c top.item).1 = some parent := by rw [heq]
        exact got_of_get hget

instance : SourcedSchedule (MABScheduler H) Stmt :=
  .nothingWaits fun s c size h order draws b hb => by
    obtain ⟨⟨parents, v, draws'⟩, hloop, hb⟩ := Option.bind_eq_some_iff.1 hb
    cases hb
    refine whileShort_spec (I := fun v => Reads c v.2.2.1) (Q := fun m => Got c m.entry)
      (fun v draws r hv hr => ⟨round_reads hv hr, fun m hm => .of_reads hv (round_got hr m hm)⟩) .refl
      (List.forall_mem_nil _) hloop

end MABScheduler

namespace ProbabilisticMABScheduler

variable {C Stmt : Type} [CorpusHandler C Stmt] [FloatFns ℚ] [Rounding ℚ] [Hasher ID]

omit [Hasher ID] in
/-- A round reads the corpus, and what it finds was got. -/
theorem round_got {currentEpoch : UInt32} {v : Visit C} {draws : List Draw}
    {r : Round (Visit C) (TestableEntry (RawEntry Stmt))} (hr : round currentEpoch v draws = some r) :
    Reads v.2.1 r.state.2.1 ∧ ∀ m ∈ r.found, Got v.2.1 m.entry := by
  obtain ⟨s, c, h⟩ := v
  obtain ⟨⟨top, queue, draws'⟩, -, hr⟩ := Option.bind_eq_some_iff.1 hr
  cases top with
  | none =>
    cases hr
    exact ⟨.refl, fun _ hm => by cases hm⟩
  | some top =>
    obtain ⟨⟨parent, v'⟩, hvisit, hr⟩ := Option.bind_eq_some_iff.1 hr
    cases hr
    simp only [visit] at hvisit
    split at hvisit
    · cases hvisit
      exact ⟨.refl, fun _ hm => by cases hm⟩
    · split at hvisit
      · obtain ⟨queue', -, hvisit⟩ := Option.bind_eq_some_iff.1 hvisit
        cases hvisit
        exact ⟨.refl, fun _ hm => by cases hm⟩
      · cases hvisit
        exact ⟨.get _ .refl, got_of_mem_map fun _ => rfl⟩

instance : SourcedSchedule ProbabilisticMABScheduler Stmt :=
  .nothingWaits fun s c size h order draws b hb => by
    obtain ⟨⟨parents, v, draws'⟩, hloop, hb⟩ := Option.bind_eq_some_iff.1 hb
    cases hb
    refine whileShort_spec (I := fun v => Reads c v.2.1) (Q := fun m => Got c m.entry)
      (fun v draws r hv hr => ⟨hv.trans (round_got hr).1, fun m hm => .of_reads hv ((round_got hr).2 m hm)⟩) .refl
      (List.forall_mem_nil _) hloop

end ProbabilisticMABScheduler

namespace FastProbabilisticMABScheduler

variable {C Stmt : Type} [CorpusHandler C Stmt] [FloatFns ℚ]

theorem round_got {currentEpoch : UInt32} {v : Visit C} {draws : List Draw}
    {r : Round (Visit C) (TestableEntry (RawEntry Stmt))} (hr : round currentEpoch v draws = some r) :
    ∀ m ∈ r.found, Got v.2.1 m.entry := by
  obtain ⟨s, c, h⟩ := v
  obtain ⟨⟨u, draws₁⟩, -, hr⟩ := Option.bind_eq_some_iff.1 hr
  obtain ⟨rdIdx, -, hr⟩ := Option.bind_eq_some_iff.1 hr
  obtain ⟨⟨id, arm⟩, -, hr⟩ := Option.bind_eq_some_iff.1 hr
  dsimp only at hr
  split at hr
  · cases hr
    exact fun _ hm => by cases hm
  · rename_i entry hentry
    obtain ⟨⟨u', draws₂⟩, -, hr⟩ := Option.bind_eq_some_iff.1 hr
    obtain ⟨accepted, -, hr⟩ := Option.bind_eq_some_iff.1 hr
    cases hr
    cases accepted with
    | false => exact fun _ hm => by cases hm
    | true =>
      intro m hm
      cases hm
      exact got_of_get hentry

instance : SourcedSchedule FastProbabilisticMABScheduler Stmt :=
  .nothingWaits fun s c size h order draws b hb => by
    obtain ⟨⟨parents, v, draws'⟩, hloop, hb⟩ := Option.bind_eq_some_iff.1 hb
    cases hb
    refine whileShort_spec (I := fun v => Reads c v.2.1) (Q := fun m => Got c m.entry)
      (fun v draws r hv hr => ⟨round_spec hv hr, fun m hm => .of_reads hv (round_got hr m hm)⟩) .refl
      (List.forall_mem_nil _) hloop

end FastProbabilisticMABScheduler

namespace SchedulerBatcher

variable {S Stmt : Type} [Schedule S Stmt] [SourcedSchedule S Stmt] [FloatFns ℚ]

/-- What waits in the batch outlives the removal of its entry, but no reset. -/
instance : SourcedSchedule (SchedulerBatcher S Stmt) Stmt where
  Waits Q s := SourcedSchedule.Waits Q s.innerScheduler ∧ ∀ item ∈ s.batch, Q item.1.entry
  waits_mono Q Q' s hQ hs :=
    ⟨SourcedSchedule.waits_mono _ _ _ hQ hs.1, fun item hitem => hQ _ (hs.2 item hitem)⟩
  waits_onAdd Q s h e score s' h' hs heq := by
    obtain ⟨⟨score', inner, h''⟩, hinner, heq⟩ := Option.map_eq_some_iff.1 heq
    cases heq
    exact ⟨SourcedSchedule.waits_onAdd _ _ _ _ _ _ _ hs.1 hinner, hs.2⟩
  waits_onRemove Q s id s' hs heq := by
    obtain ⟨inner, hinner, rfl⟩ := Option.map_eq_some_iff.1 heq
    exact ⟨SourcedSchedule.waits_onRemove _ _ _ _ hs.1 hinner, hs.2⟩
  waits_chore Q s hs := ⟨SourcedSchedule.waits_chore _ _ hs.1, hs.2⟩
  waits_reset Q s h := ⟨SourcedSchedule.waits_reset _ _ _, fun _ hitem => by cases hitem⟩
  nextBatch_spec Q s c size h order draws b hQ hs hb := by
    obtain ⟨⟨⟨hinner, hreads⟩, hbatch⟩, hmembers⟩ := nextBatch_forall
      (J := fun s c' => SourcedSchedule.Waits Q s ∧ Reads c c') (Q := fun m => Q m.entry)
      (fun s' c' size h order draws b hJ hb => by
        obtain ⟨⟨hwaits, hreads⟩, hmembers⟩ := SourcedSchedule.nextBatch_spec Q s' c' size h order draws b
          (fun e he => hQ e (.of_reads hJ.2 he)) hJ.1 hb
        exact ⟨⟨hwaits, hJ.2.trans hreads⟩, hmembers⟩)
      ⟨hs.1, .refl⟩ hs.2 hb
    exact ⟨⟨⟨hinner, hbatch⟩, hreads⟩, hmembers⟩

end SchedulerBatcher

/-! ## Corpora -/

/-- Corpora that keep the parents of their entries. -/
class PedigreeCorpus (C : Type) {Stmt : Type} [CorpusHandler C Stmt] where
  /-- The ids and parents of the entries have the property. -/
  Holds : (ID → List ID → Prop) → C → Prop
  holds_mono : ∀ (P P' : ID → List ID → Prop) c, (∀ id parents, P id parents → P' id parents) → Holds P c → Holds P' c
  get_holds : ∀ P (c : C) id e, Holds P c → (CorpusHandler.get c id).1 = some e → P e.id e.raw.parents
  holds_get : ∀ P (c : C) id, Holds P c → Holds P (CorpusHandler.get c id).2
  holds_update : ∀ P (c : C) id score, Holds P c → Holds P (CorpusHandler.update c id score)
  holds_insert : ∀ P (c : C) (e : CorpusEntry Stmt) score, Holds P c → P e.id e.raw.parents →
    Holds P (CorpusHandler.insert c e score)
  holds_remove : ∀ P (c : C) id, Holds P c → Holds P (CorpusHandler.remove c id)
  holds_resize : ∀ P (c : C), Holds P c → Holds P (CorpusHandler.resize c)
  holds_clear : ∀ P (c : C), Holds P (CorpusHandler.clear c)

theorem Reads.holds {C Stmt : Type} [CorpusHandler C Stmt] [PedigreeCorpus C] {P : ID → List ID → Prop} {c c' : C}
    (h : Reads c c') (hc : PedigreeCorpus.Holds Stmt P c) : PedigreeCorpus.Holds Stmt P c' :=
  h.keeps (fun _ _ hc => PedigreeCorpus.holds_get _ _ _ hc) (fun _ _ _ hc => PedigreeCorpus.holds_update _ _ _ _ hc) hc

theorem Got.holds {C Stmt : Type} [CorpusHandler C Stmt] [PedigreeCorpus C] {P : ID → List ID → Prop} {c : C}
    {entry : RawEntry Stmt} (h : Got c entry) (hc : PedigreeCorpus.Holds Stmt P c) : P entry.id entry.parents := by
  obtain ⟨c', hreads, id, e, hget, rfl⟩ := h
  exact PedigreeCorpus.get_holds P c' id e (hreads.holds hc) hget

instance {Stmt : Type} : PedigreeCorpus (InMemory (CorpusEntry Stmt)) where
  Holds P c := ∀ id e, c.inner.lookup id = some e → P e.id e.raw.parents
  holds_mono P P' c hP hc id e he := hP _ _ (hc id e he)
  get_holds P c id e hc he := hc id e he
  holds_get P c id hc := hc
  holds_update P c id score hc := hc
  holds_insert P c e score hc he id e' h := by
    change (c.inner.insert e.id e).lookup id = some e' at h
    rw [HashMap.lookup_insert_iff] at h
    split at h
    · cases h
      exact he
    · exact hc id e' h
  holds_remove P c id hc id' e h := by
    change (c.inner.erase id).lookup id' = some e at h
    rw [HashMap.lookup_erase_iff] at h
    split at h
    · cases h
    · exact hc id' e h
  holds_resize P c hc := hc
  holds_clear P c id e h := by cases h

namespace DynamicCorpus

variable {Stmt B Q : Type} [StorageBackend B Stmt] [PriorityQueue Q ID F64.Reverse]

/-- The parents are in the index, and only inserting writes them. -/
instance : PedigreeCorpus (DynamicCorpus Stmt B Q) where
  Holds P c := ∀ id parents metadata, c.core id = some (parents, metadata) → P id parents
  holds_mono P P' c hP hc id parents metadata h := hP _ _ (hc id parents metadata h)
  get_holds P c id e hc he := by
    change (c.get id).1 = some e at he
    rw [get_fst] at he
    obtain ⟨data, hdata, he⟩ := Option.bind_eq_some_iff.1 he
    obtain ⟨ast, -, rfl⟩ := Option.map_eq_some_iff.1 he
    refine hc id data.parents data.metadata ?_
    unfold core
    rw [hdata, Option.map_some]
  holds_get P c id hc id' parents metadata h := hc id' parents metadata (core_get.symm.trans h)
  holds_update P c id score hc id' parents metadata h :=
    hc id' parents metadata ((core_update c id score id').symm.trans h)
  holds_insert P c e score hc he id parents metadata h := by
    change (c.insert e score).core id = _ at h
    rw [core_insert] at h
    split at h
    · rename_i hid
      cases h
      rw [hid]
      exact he
    · exact hc id parents metadata h
  holds_remove P c id hc id' parents metadata h := by
    change (c.remove id).core id' = _ at h
    rw [core_remove] at h
    split at h
    · cases h
    · exact hc id' parents metadata h
  holds_resize P c hc id parents metadata h := hc id parents metadata (core_resize.symm.trans h)
  holds_clear P c id parents metadata h := by cases h

end DynamicCorpus

end Lsf.Engine
