import Lsf.Engine.MabScheduler
import Lsf.Engine.Retaining

/-!
# One batch of the bandit scheduler

What a call of `MABScheduler::next_batch` does to its heap. A popped item is rescored and put back when its score is old,
dropped when the corpus does not have its id, and otherwise handed out and held aside until the end. As long as the
corpus does not change its mind about what it has, a batch is as long as it can be, no parent comes twice, every score is
at most `acceptUnder` epochs old, and only items whose id could not be got are lost (`exists_oneBatch`). A scheduler whose
items can all be got always has something to give (`Stocked.nextBatch`).
-/

namespace Lsf.Engine.MABScheduler

open Lsf.Core Lsf.Lib Lsf.Feedback

variable {H C Stmt : Type} [BinaryHeap H (SchedueldItem ID)] [CorpusHandler C Stmt] [FloatFns ℚ]

/-- Reading does not change which ids can be got. -/
def Stable (c : C) : Prop :=
  ∀ c' : C, Reads c c' → ∀ id, (CorpusHandler.get c' id).1.isSome = (CorpusHandler.get c id).1.isSome

/-- What the loop makes of an item whose score is old. -/
def rescore (h : Bandits) (currentEpoch : UInt32) (item : SchedueldItem ID) : SchedueldItem ID :=
  { item with score := (h.calculateScore item.stats).1, epoch := currentEpoch }

theorem rescore_item (h : Bandits) (currentEpoch : UInt32) (item : SchedueldItem ID) :
    (rescore h currentEpoch item).item = item.item := rfl

/-- The entry that is handed out for an item. -/
def HandedOut (c : C) (item : SchedueldItem ID) (m : TestableEntry (RawEntry Stmt)) : Prop :=
  ∃ c' parent, Reads c c' ∧ (CorpusHandler.get c' item.item).1 = some parent ∧
    m = (TestableEntry.new parent.raw).attachBuildHook item.stats

/-- What a batch does. -/
structure OneBatch (s : MABScheduler H) (c : C) (size : Nat) (h : Bandits) (b : Batch (MABScheduler H) C Stmt) :
    Prop where
  length : b.members.length =
    min size ((BinaryHeap.items s.queue).countP fun x => (CorpusHandler.get c x.item).1.isSome)
  handed : ∃ taken, List.Forall₂ (HandedOut c) taken b.members ∧ (taken.map SchedueldItem.item).Nodup ∧
    ∀ x ∈ taken, absDiff x.epoch (h.epoch s.mab) ≤ acceptUnder ∧ ∃ y ∈ BinaryHeap.items s.queue,
      Renewed (isStale (h.epoch s.mab)) (rescore h (h.epoch s.mab)) y x
  /-- An entry has the id that it was asked for by. -/
  distinct : (∀ c', Reads c c' → ∀ id e, (CorpusHandler.get c' id).1 = some e → e.id = id) →
    (b.members.map fun m => m.entry.id).Nodup
  conserved : ∃ dropped, (∀ x ∈ dropped, (CorpusHandler.get c x.item).1 = none) ∧
    Conserved (isStale (h.epoch s.mab)) (rescore h (h.epoch s.mab)) (BinaryHeap.items s.queue)
      (BinaryHeap.items b.scheduler.queue) dropped

/-! ## Draws -/

theorem round_withDraws (currentEpoch : UInt32) (v : Visit H C) (draws rest : List Draw) :
    (round currentEpoch v rest : Option (Round (Visit H C) (TestableEntry (RawEntry Stmt)))) =
      (round currentEpoch v draws).map (Round.withDraws rest) := by
  obtain ⟨queue, acc, c, h⟩ := v
  simp only [round]
  split
  · rfl
  · split
    · rfl
    · split <;> rfl

/-- A batch takes no draws. -/
theorem nextBatch_withDraws {s : MABScheduler H} {c : C} {size : Nat} {h : Bandits} {order : HashOrder ID}
    {draws : List Draw} {b : Batch (MABScheduler H) C Stmt} (hb : s.nextBatch c size h order draws = some b)
    (rest : List Draw) : s.nextBatch c size h order rest = some { b with draws := rest } := by
  obtain ⟨⟨parents, v, draws'⟩, hloop, hb⟩ := Option.bind_eq_some_iff.1 hb
  cases hb
  unfold nextBatch
  rw [whileShort_withDraws (round_withDraws (h.epoch s.mab)) hloop rest]
  rfl

/-! ## The loop -/

/-- What the loop keeps: `start` are the items of the heap in the beginning, and `found` is what was handed out. -/
structure Taking (c₀ : C) (h₀ : Bandits) (currentEpoch : UInt32) (size : Nat) (start : List (SchedueldItem ID))
    (found : List (TestableEntry (RawEntry Stmt))) (v : Visit H C) : Prop where
  reads : Reads c₀ v.2.2.1
  score : ∀ a, (v.2.2.2.calculateScore a).1 = (h₀.calculateScore a).1
  length_le : found.length ≤ size
  fresh : ∀ x ∈ v.2.1, ¬isStale currentEpoch x
  handed : List.Forall₂ (HandedOut c₀) v.2.1 found
  conserved : ∃ dropped, (∀ x ∈ dropped, (CorpusHandler.get c₀ x.item).1 = none) ∧
    Conserved (isStale currentEpoch) (rescore h₀ currentEpoch) start (BinaryHeap.items v.1 + v.2.1) dropped

variable [BinaryHeap.LawfulBinaryHeap H (SchedueldItem.score (T := ID))] {c₀ : C} {h₀ : Bandits}
  {currentEpoch : UInt32} {size : Nat} {start : List (SchedueldItem ID)}
  {found : List (TestableEntry (RawEntry Stmt))} {v v' : Visit H C} {draws draws' : List Draw}

section Popped

variable {queue queue' : H} {acc : List (SchedueldItem ID)} {c c' : C} {h h' : Bandits} {top : SchedueldItem ID}

/-- An item with an old score is rescored and put back. -/
theorem Taking.renew (ht : Taking c₀ h₀ currentEpoch size start found (queue, acc, c, h))
    (hpop : BinaryHeap.pop queue = some (top, queue')) (hstale : isStale currentEpoch top) :
    Taking c₀ h₀ currentEpoch size start found (BinaryHeap.push queue' (rescore h currentEpoch top), acc, c,
      (h.calculateScore top.stats).2) := by
  obtain ⟨hc, hscore, hlength, hfresh, hhanded, dropped, hdropped, hconserved⟩ := ht
  rw [coe_items_pop SchedueldItem.score hpop, Multiset.cons_add] at hconserved
  refine ⟨hc, fun a => ?_, hlength, hfresh, hhanded, dropped, hdropped, ?_⟩
  · rw [Bandits.calculateScore_calculateScore, hscore]
  · have hrescored := hconserved.cons_renew hstale fun y => not_stale_self currentEpoch y _
    have hsame : rescore h currentEpoch top = rescore h₀ currentEpoch top := by
      unfold rescore
      rw [hscore]
    rw [coe_items_push SchedueldItem.score, Multiset.cons_add, hsame]
    exact hrescored

/-- An item that can not be got is dropped. -/
theorem Taking.drop (ht : Taking c₀ h₀ currentEpoch size start found (queue, acc, c, h))
    (hpop : BinaryHeap.pop queue = some (top, queue')) (hreads : Reads c₀ c')
    (hnone : (CorpusHandler.get c₀ top.item).1 = none) :
    Taking c₀ h₀ currentEpoch size start found (queue', acc, c', h) := by
  obtain ⟨-, hscore, hlength, hfresh, hhanded, dropped, hdropped, hconserved⟩ := ht
  rw [coe_items_pop SchedueldItem.score hpop, Multiset.cons_add] at hconserved
  obtain ⟨y, hy, hrest⟩ := hconserved.drop
  refine ⟨hreads, hscore, hlength, hfresh, hhanded, y ::ₘ dropped, fun z hz => ?_, hrest⟩
  rcases Multiset.mem_cons.1 hz with rfl | hz
  · have hid : top.item = z.item := hy.apply_eq (rescore_item h₀ currentEpoch)
    rw [← hid]
    exact hnone
  · exact hdropped z hz

/-- An item that can be got is held, and its entry handed out. -/
theorem Taking.take (ht : Taking c₀ h₀ currentEpoch size start found (queue, acc, c, h))
    (hpop : BinaryHeap.pop queue = some (top, queue')) (hfreshTop : ¬isStale currentEpoch top) (hreads : Reads c₀ c')
    (hlt : found.length < size) {parent : TestableEntry (RawEntry Stmt)} (hparent : HandedOut c₀ top parent) :
    Taking c₀ h₀ currentEpoch size start (found ++ [parent]) (queue', acc ++ [top], c', h) := by
  obtain ⟨-, hscore, hlength, hfresh, hhanded, dropped, hdropped, hconserved⟩ := ht
  rw [coe_items_pop SchedueldItem.score hpop, Multiset.cons_add] at hconserved
  refine ⟨hreads, hscore, ?_, fun z hz => ?_, List.rel_append hhanded (.cons hparent .nil), dropped, hdropped, ?_⟩
  · rw [List.length_append]
    exact hlt
  · rcases List.mem_append.1 hz with hz | hz
    · exact hfresh z hz
    · rw [List.mem_singleton.1 hz]
      exact hfreshTop
  · rw [add_coe_concat]
    exact hconserved

end Popped

/-- One round of the loop: an item that is popped is rescored, dropped or taken. -/
theorem Taking.round (ht : Taking c₀ h₀ currentEpoch size start found v) (hstable : Stable c₀)
    (hlt : found.length < size) {x : Option (TestableEntry (RawEntry Stmt))}
    (hr : MABScheduler.round currentEpoch v draws = some (.go x v' draws')) :
    Taking c₀ h₀ currentEpoch size start (found ++ x.toList) v' := by
  have hreads : Reads c₀ v'.2.2.1 := round_reads ht.reads hr
  obtain ⟨queue, acc, c, h⟩ := v
  simp only [MABScheduler.round] at hr
  split at hr
  · cases hr
  · rename_i top queue' hpop
    split at hr
    · rename_i hstale
      cases hr
      rw [Option.toList_none, List.append_nil]
      exact ht.renew hpop (decide_eq_true hstale)
    · rename_i hfresh
      have hgot := hstable c ht.reads top.item
      split at hr
      · rename_i c' hget
        cases hr
        rw [hget] at hgot
        rw [Option.toList_none, List.append_nil]
        exact ht.drop hpop hreads (Option.isNone_iff_eq_none.1 (by rw [← Option.not_isSome, ← hgot]; rfl))
      · rename_i parent c' hget
        cases hr
        exact ht.take hpop (mt of_decide_eq_true hfresh) hreads hlt ⟨c, parent, ht.reads, by rw [hget], rfl⟩

/-- The loop stops when the heap is empty. -/
theorem round_stop (hr : MABScheduler.round currentEpoch v draws = some (Round.stop v' draws' :
    Round (Visit H C) (TestableEntry (RawEntry Stmt)))) : v' = v ∧ BinaryHeap.items v.1 = [] := by
  obtain ⟨queue, acc, c, h⟩ := v
  simp only [MABScheduler.round] at hr
  split at hr
  · rename_i hpop
    cases hr
    exact ⟨rfl, BinaryHeap.LawfulBinaryHeap.pop_none SchedueldItem.score queue hpop⟩
  · split at hr
    · cases hr
    · split at hr <;> cases hr

/-! ## What is left at the end -/

section End

variable {acc : List (SchedueldItem ID)} {queue : H} {c : C} {h : Bandits}

omit [BinaryHeap.LawfulBinaryHeap H SchedueldItem.score] in
/-- The items that can be got are among those that are left. -/
theorem Taking.countP_eq (ht : Taking c₀ h₀ currentEpoch size start found (queue, acc, c, h)) :
    start.countP (fun x => (CorpusHandler.get c₀ x.item).1.isSome) =
      (BinaryHeap.items queue ++ acc).countP fun x => (CorpusHandler.get c₀ x.item).1.isSome := by
  obtain ⟨dropped, hdropped, hconserved⟩ := ht.conserved
  have hmap := hconserved.map_eq (rescore_item h₀ currentEpoch)
  have hcount := congrArg (Multiset.countP fun id => (CorpusHandler.get c₀ id).1.isSome) hmap
  have hnone : (dropped.map SchedueldItem.item).countP (fun id => (CorpusHandler.get c₀ id).1.isSome) = 0 := by
    rw [Multiset.countP_eq_zero]
    intro id hid
    obtain ⟨x, hx, rfl⟩ := Multiset.mem_map.1 hid
    rw [hdropped x hx]
    simp
  rw [Multiset.countP_add, hnone, add_zero, Multiset.coe_add, Multiset.map_coe, Multiset.map_coe, Multiset.coe_countP,
    Multiset.coe_countP, List.countP_map, List.countP_map] at hcount
  simpa [Function.comp_def] using hcount

omit [BinaryHeap.LawfulBinaryHeap H SchedueldItem.score] in
/-- What was taken can be got. -/
theorem Taking.isSome_of_mem (ht : Taking c₀ h₀ currentEpoch size start found (queue, acc, c, h)) (hstable : Stable c₀)
    {x : SchedueldItem ID} (hx : x ∈ acc) : (CorpusHandler.get c₀ x.item).1.isSome := by
  obtain ⟨i, hi⟩ := List.getElem?_of_mem hx
  obtain ⟨hlt, rfl⟩ := List.getElem?_eq_some_iff.1 hi
  obtain ⟨c', parent, hc', hget, -⟩ := ht.handed.get hlt (ht.handed.length_eq ▸ hlt)
  rw [List.get_eq_getElem] at hget
  rw [← hstable c' hc', hget]
  rfl

omit [BinaryHeap.LawfulBinaryHeap H SchedueldItem.score] in
/-- A batch is as long as it can be. -/
theorem Taking.length_eq (ht : Taking c₀ h₀ currentEpoch size start found (queue, acc, c, h)) (hstable : Stable c₀)
    (hend : size ≤ found.length ∨ BinaryHeap.items queue = []) :
    found.length = min size (start.countP fun x => (CorpusHandler.get c₀ x.item).1.isSome) := by
  have hle := ht.length_le
  have hacc : acc.countP (fun x => (CorpusHandler.get c₀ x.item).1.isSome) = found.length := by
    rw [← ht.handed.length_eq]
    exact List.countP_eq_length.2 fun x hx => ht.isSome_of_mem hstable hx
  rw [ht.countP_eq, List.countP_append, hacc]
  rcases hend with hend | hend
  · omega
  · rw [hend, List.countP_nil]
    omega

omit [BinaryHeap.LawfulBinaryHeap H SchedueldItem.score] in
theorem Taking.nodup (ht : Taking c₀ h₀ currentEpoch size start found (queue, acc, c, h))
    (hdistinct : (start.map SchedueldItem.item).Nodup) : (acc.map SchedueldItem.item).Nodup := by
  obtain ⟨dropped, -, hconserved⟩ := ht.conserved
  have hmap := hconserved.map_eq (rescore_item h₀ currentEpoch)
  have hle : (acc.map SchedueldItem.item : Multiset ID) ≤ (start.map SchedueldItem.item : List ID) := by
    rw [Multiset.map_coe] at hmap
    rw [hmap, Multiset.map_add, Multiset.map_coe, Multiset.map_coe, add_assoc, ← add_left_comm]
    exact Multiset.le_add_right _ _
  exact Multiset.coe_nodup.1 (Multiset.nodup_of_le hle (Multiset.coe_nodup.2 hdistinct))

end End

/-- **One batch** comes to its end, is as long as it can be, repeats no parent and loses no item that can be got. -/
theorem exists_oneBatch (s : MABScheduler H) (c : C) (size : Nat) (h : Bandits) (order : HashOrder ID)
    (draws : List Draw) (hdistinct : ((BinaryHeap.items s.queue).map SchedueldItem.item).Nodup) (hstable : Stable c) :
    ∃ b, s.nextBatch c size h order draws = some b ∧ OneBatch s c size h b := by
  obtain ⟨b, hb⟩ := Option.isSome_iff_exists.1 (s.nextBatch_isSome c size h order draws)
  refine ⟨b, hb, ?_⟩
  obtain ⟨⟨parents, ⟨queue, acc, c', h'⟩, draws'⟩, hloop, hb⟩ := Option.bind_eq_some_iff.1 hb
  cases hb
  have hstart : Taking c h (h.epoch s.mab) size (BinaryHeap.items s.queue) [] (s.queue, [], c, h) :=
    ⟨.refl, fun _ => rfl, Nat.zero_le _, fun _ hx => absurd hx List.not_mem_nil, .nil, 0,
      fun _ hx => absurd hx (Multiset.notMem_zero _), by simpa using Conserved.refl _⟩
  obtain ⟨ht, hend⟩ := whileShort_rule (I := Taking c h (h.epoch s.mab) size (BinaryHeap.items s.queue))
    (E := fun v => BinaryHeap.items v.1 = [])
    (fun found v draws x v' draws' hlt ht hr => ht.round hstable hlt hr)
    (fun found v draws v' draws' ht hr => by
      obtain ⟨rfl, hnil⟩ := round_stop hr
      exact ⟨ht, hnil⟩) hstart hloop
  obtain ⟨dropped, hdropped, hconserved⟩ := ht.conserved
  refine ⟨ht.length_eq hstable hend, ⟨acc, ht.handed, ht.nodup hdistinct, fun x hx => ⟨?_, ?_⟩⟩, fun hfaithful => ?_,
    dropped, hdropped, ?_⟩
  · simpa [isStale] using ht.fresh x hx
  · exact hconserved.exists_renewed (Multiset.mem_add.2 (.inr hx))
  · have hids : parents.map (fun m => m.entry.id) = acc.map SchedueldItem.item := by
      symm
      rw [← List.forall₂_eq_eq_eq, List.forall₂_map_left_iff, List.forall₂_map_right_iff]
      refine ht.handed.imp fun x m hm => ?_
      obtain ⟨c'', parent, hc'', hget, rfl⟩ := hm
      exact (hfaithful c'' hc'' _ _ hget).symm
    show (parents.map fun m => m.entry.id).Nodup
    rw [hids]
    exact ht.nodup hdistinct
  · rw [coe_items_foldl_push SchedueldItem.score]
    exact hconserved

/-! ## What is in stock -/

/-- There are entries, each once, and one of them can be got. -/
structure Stocked (s : MABScheduler H) (c : C) : Prop where
  distinct : ((BinaryHeap.items s.queue).map SchedueldItem.item).Nodup
  stable : Stable c
  exists_got : ∃ x ∈ BinaryHeap.items s.queue, (CorpusHandler.get c x.item).1.isSome

/-- **A stocked scheduler stays stocked**: what can be got is not dropped. -/
theorem Stocked.nextBatch {s : MABScheduler H} {c : C} (hs : Stocked s c) {size : Nat} (hsize : 0 < size) (h : Bandits)
    (order : HashOrder ID) (draws : List Draw) : ∃ b : Batch (MABScheduler H) C Stmt,
      s.nextBatch c size h order draws = some b ∧ b.members ≠ [] ∧ Stocked b.scheduler b.corpus := by
  obtain ⟨b, hb, hone⟩ := exists_oneBatch s c size h order draws hs.distinct hs.stable
  obtain ⟨x, hx, hgot⟩ := hs.exists_got
  have hreads : Reads c b.corpus := (LawfulSchedule.nextBatch_spec s c size h order draws b trivial hb).2
  obtain ⟨dropped, hdropped, hconserved⟩ := hone.conserved
  have hmap := hconserved.map_eq (rescore_item h (h.epoch s.mab))
  rw [Multiset.map_coe, Multiset.map_coe] at hmap
  refine ⟨b, hb, ?_, ?_, fun c' hc' id => ?_, ?_⟩
  · have hcount : 0 < (BinaryHeap.items s.queue).countP fun x => (CorpusHandler.get c x.item).1.isSome :=
      List.countP_pos_iff.2 ⟨x, hx, hgot⟩
    have hlength := hone.length
    intro hnil
    rw [hnil, List.length_nil] at hlength
    omega
  · exact Multiset.coe_nodup.1 (Multiset.nodup_of_le (hmap ▸ Multiset.le_add_right _ _)
      (Multiset.coe_nodup.2 hs.distinct))
  · rw [hs.stable c' (hreads.trans hc'), hs.stable b.corpus hreads]
  · have hmem : x.item ∈ ((BinaryHeap.items s.queue).map SchedueldItem.item : Multiset ID) :=
      Multiset.mem_coe.2 (List.mem_map_of_mem hx)
    rw [hmap] at hmem
    rcases Multiset.mem_add.1 hmem with hkept | hgone
    · obtain ⟨y, hy, hid⟩ := List.mem_map.1 (Multiset.mem_coe.1 hkept)
      exact ⟨y, hy, by rw [hid, hs.stable b.corpus hreads, hgot]⟩
    · obtain ⟨y, hy, hid⟩ := Multiset.mem_map.1 hgone
      rw [← hid, hdropped y hy] at hgot
      cases hgot

end Lsf.Engine.MABScheduler

/-! ## Two items, one of which is gone -/

namespace Lsf.Engine.MABScheduler

open Lsf.Core Lsf.Lib Lsf.Feedback

/-- A corpus in memory is not changed by reading. -/
theorem stable_inMemory {Stmt : Type} (c : InMemory (CorpusEntry Stmt)) : Stable c := by
  intro c' hc'
  have heq : c' = c := hc'.keeps (P := (· = c)) (fun _ _ h => h) (fun _ _ _ h => h) rfl
  exact fun id => by rw [heq]

attribute [local instance] FloatFns.tangent

/-- The score of the first item is old, and the second has left the corpus. -/
def twoItems : MABScheduler (ListHeap (SchedueldItem.score (T := ID))) :=
  ⟨⟨[⟨1, 100, 0, ⟨1⟩⟩, ⟨2, 0, 1, ⟨2⟩⟩]⟩, 0⟩

def firstEntry : InMemory (CorpusEntry Nat) :=
  CorpusHandler.insert (.new : InMemory (CorpusEntry Nat)) ⟨⟨⟨1⟩, [], []⟩, .default⟩ .posInf

theorem exists_oneBatch_two :
    ∃ b, twoItems.nextBatch firstEntry 2 .new (.sorted ID) [] = some b ∧ OneBatch twoItems firstEntry 2 .new b :=
  exists_oneBatch twoItems firstEntry 2 .new (.sorted ID) [] (by decide) (stable_inMemory firstEntry)

end Lsf.Engine.MABScheduler
