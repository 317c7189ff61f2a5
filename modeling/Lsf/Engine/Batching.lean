import Lsf.Engine.Schedule

/-!
# What a batcher hands out

`SchedulerBatcher` returns as many entries as it is asked for (`length_nextBatch`), and each of them was in its batch or
came with a refill (`nextBatch_forall`). What is in the batch can come out with the next call (`exists_nextBatch`).
-/

namespace Lsf.Engine.SchedulerBatcher

open Lsf.Core Lsf.Lib Lsf.Feedback

variable {S C Stmt : Type} [CorpusHandler C Stmt] [Schedule S Stmt] [FloatFns ℚ] {s s' : SchedulerBatcher S Stmt}
  {c : C} {size n : Nat} {h : Bandits} {order : HashOrder ID} {draws : List Draw}
  {b : Batch (SchedulerBatcher S Stmt) C Stmt} {u : Draw} {entry : TestableEntry (RawEntry Stmt)}

theorem energize_fst (h : Bandits) (items : List (TestableEntry (RawEntry Stmt))) :
    (energize h items).1.map Prod.fst = items := by
  induction items generalizing h with
  | nil => rfl
  | cons item items ih =>
    simp only [energize, List.map_cons, ih]

/-! ## Taking one entry -/

omit [Schedule S Stmt] [FloatFns ℚ] in
/-- An entry is taken from the batch, and at most one leaves it. -/
theorem takeOne_spec (ht : s.takeOne size u = some (entry, s')) :
    entry ∈ s.batch.map Prod.fst ∧ (∀ item ∈ s'.batch, item.1 ∈ s.batch.map Prod.fst) ∧
      s.batch.length ≤ s'.batch.length + 1 := by
  obtain ⟨i, -, ht⟩ := Option.bind_eq_some_iff.1 ht
  obtain ⟨⟨e, energy⟩, hi, ht⟩ := Option.bind_eq_some_iff.1 ht
  cases ht
  have hmem : entry ∈ s.batch.map Prod.fst := List.mem_map_of_mem (List.mem_of_getElem? hi)
  have hset : ∀ item ∈ s.batch.set i (entry, energy - 1), item.1 ∈ s.batch.map Prod.fst := by
    intro item hitem
    rcases List.mem_or_eq_of_mem_set hitem with hitem | rfl
    · exact List.mem_map_of_mem hitem
    · exact hmem
  refine ⟨hmem, ?_⟩
  dsimp only
  split
  · have hlt : i < (s.batch.set i (entry, energy - 1)).length := by
      rw [List.length_set]
      exact (List.getElem?_eq_some_iff.1 hi).1
    have hperm := swapRemove_perm hlt
    constructor
    · intro item hitem
      exact hset item (List.mem_of_mem_eraseIdx (hperm.mem_iff.1 hitem))
    · rw [hperm.length_eq, List.length_eraseIdx_of_lt hlt, List.length_set]
      omega
  · refine ⟨hset, ?_⟩
    rw [List.length_set]
    omega

omit [Schedule S Stmt] [FloatFns ℚ] in
/-- The window of a batch that is not empty is not empty. -/
theorem exists_takeOne (hsize : 0 < size) (hne : 0 < s.batch.length) (u : Draw) :
    ∃ entry s', s.takeOne size u = some (entry, s') := by
  have hwindow : s.batch.length - min s.batch.length size < s.batch.length := by omega
  obtain ⟨i, hu, -, hi⟩ := u.exists_randomRange hwindow
  simp only [takeOne, hu, List.getElem?_eq_getElem hi, Option.bind_eq_bind, Option.bind_some]
  exact ⟨_, _, rfl⟩

/-! ## What is kept -/

section Forall

variable {J : S → C → Prop} {Q : TestableEntry (RawEntry Stmt) → Prop}

/-- `J` is kept by the inner scheduler, whose batches have `Q`. -/
def Supplies (J : S → C → Prop) (Q : TestableEntry (RawEntry Stmt) → Prop) : Prop :=
  ∀ (s : S) (c : C) size h order draws b, J s c → Schedule.nextBatch s c size h order draws = some b →
    J b.scheduler b.corpus ∧ ∀ m ∈ b.members, Q m

theorem refillIf_forall (hJ : Supplies J Q) {needed : Bool} (hs : J s.innerScheduler c)
    (hQ : ∀ item ∈ s.batch, Q item.1) (hb : s.refillIf needed c size h order draws = some b) :
    J b.scheduler.innerScheduler b.corpus ∧ ∀ item ∈ b.scheduler.batch, Q item.1 := by
  unfold refillIf at hb
  split at hb
  · obtain ⟨b', hinner, hb⟩ := Option.bind_eq_some_iff.1 hb
    cases hb
    obtain ⟨hJ', hQ'⟩ := hJ _ _ _ _ _ _ _ hs hinner
    refine ⟨hJ', fun item hitem => ?_⟩
    rcases List.mem_append.1 hitem with hitem | hitem
    · exact hQ item hitem
    · apply hQ'
      rw [← energize_fst b'.bandits b'.members]
      exact List.mem_map_of_mem hitem
  · cases hb
    exact ⟨hs, hQ⟩

theorem fill_forall (hJ : Supplies J Q) (hs : J s.innerScheduler c) (hQ : ∀ item ∈ s.batch, Q item.1)
    (hb : fill size order n s c h draws = some b) :
    (J b.scheduler.innerScheduler b.corpus ∧ ∀ item ∈ b.scheduler.batch, Q item.1) ∧ ∀ m ∈ b.members, Q m := by
  induction n generalizing s c h draws b with
  | zero =>
    cases hb
    exact ⟨⟨hs, hQ⟩, by simp⟩
  | succ n ih =>
    unfold fill at hb
    obtain ⟨b₁, hrefill, hb⟩ := Option.bind_eq_some_iff.1 hb
    obtain ⟨⟨u, rest⟩, -, hb⟩ := Option.bind_eq_some_iff.1 hb
    obtain ⟨⟨entry, s'⟩, htake, hb⟩ := Option.bind_eq_some_iff.1 hb
    obtain ⟨b₂, hfill, hb⟩ := Option.bind_eq_some_iff.1 hb
    cases hb
    obtain ⟨hJ₁, hQ₁⟩ := refillIf_forall hJ hs hQ hrefill
    obtain ⟨hentry, hbatch, -⟩ := takeOne_spec htake
    have hfst : ∀ e ∈ b₁.scheduler.batch.map Prod.fst, Q e := by
      intro e he
      obtain ⟨item, hitem, rfl⟩ := List.mem_map.1 he
      exact hQ₁ item hitem
    have hinner : s'.innerScheduler = b₁.scheduler.innerScheduler := by
      obtain ⟨i, -, htake⟩ := Option.bind_eq_some_iff.1 htake
      obtain ⟨⟨e, energy⟩, -, htake⟩ := Option.bind_eq_some_iff.1 htake
      cases htake
      rfl
    obtain ⟨hend, hmembers⟩ := ih (hinner ▸ hJ₁) (fun item hitem => hfst _ (hbatch item hitem)) hfill
    refine ⟨hend, fun m hm => ?_⟩
    rcases List.mem_cons.1 hm with rfl | hm
    · exact hfst _ hentry
    · exact hmembers m hm

/-- **What a batcher hands out** was in its batch or came from the inner scheduler. -/
theorem nextBatch_forall (hJ : Supplies J Q) (hs : J s.innerScheduler c) (hQ : ∀ item ∈ s.batch, Q item.1)
    (hb : s.nextBatch c size h order draws = some b) :
    (J b.scheduler.innerScheduler b.corpus ∧ ∀ item ∈ b.scheduler.batch, Q item.1) ∧ ∀ m ∈ b.members, Q m := by
  obtain ⟨b₁, hrefill, hb⟩ := Option.bind_eq_some_iff.1 hb
  obtain ⟨hJ₁, hQ₁⟩ := refillIf_forall hJ hs hQ hrefill
  exact fill_forall hJ hJ₁ hQ₁ hb

end Forall

/-! ## How much is returned -/

theorem length_fill (hb : fill size order n s c h draws = some b) : b.members.length = n := by
  induction n generalizing s c h draws b with
  | zero =>
    cases hb
    rfl
  | succ n ih =>
    unfold fill at hb
    obtain ⟨b₁, -, hb⟩ := Option.bind_eq_some_iff.1 hb
    obtain ⟨⟨u, rest⟩, -, hb⟩ := Option.bind_eq_some_iff.1 hb
    obtain ⟨⟨entry, s'⟩, -, hb⟩ := Option.bind_eq_some_iff.1 hb
    obtain ⟨b₂, hfill, hb⟩ := Option.bind_eq_some_iff.1 hb
    cases hb
    rw [List.length_cons, ih hfill]

/-- A batch that is returned is full. -/
theorem length_nextBatch (hb : s.nextBatch c size h order draws = some b) : b.members.length = size := by
  obtain ⟨b₁, -, hb⟩ := Option.bind_eq_some_iff.1 hb
  exact length_fill hb

/-- One round of the loop, while the batch is not empty. -/
theorem fill_succ (hne : 0 < s.batch.length) (htake : s.takeOne size u = some (entry, s'))
    (hb : fill size order n s' c h draws = some b) :
    fill size order (n + 1) s c h (u :: draws) = some { b with members := entry :: b.members } := by
  have hempty : s.batch.isEmpty = false := by
    rw [List.isEmpty_eq_false_iff, ← List.length_pos_iff]
    exact hne
  simp [fill, refillIf, hempty, Draw.next, htake, hb]

/-- While entries are left in the batch no refill is needed. -/
theorem exists_fill (hsize : 0 < size) (hn : n ≤ s.batch.length) (hdraws : n ≤ draws.length) :
    ∃ b : Batch (SchedulerBatcher S Stmt) C Stmt, fill size order n s c h draws = some b := by
  induction n generalizing s draws with
  | zero => exact ⟨_, rfl⟩
  | succ n ih =>
    cases draws with
    | nil => cases hdraws
    | cons u rest =>
      obtain ⟨entry, s', htake⟩ := exists_takeOne (s := s) hsize (by omega) u
      obtain ⟨-, -, hlen⟩ := takeOne_spec htake
      obtain ⟨b, hb⟩ := ih (s := s') (by omega) (Nat.le_of_succ_le_succ hdraws)
      exact ⟨_, fill_succ (by omega) htake hb⟩

/-- **Whatever is in the batch can come out.** -/
theorem exists_nextBatch {item : TestableEntry (RawEntry Stmt) × UInt64} (hitem : item ∈ s.batch) (c : C) (h : Bandits)
    (order : HashOrder ID) :
    ∃ draws b, s.nextBatch c s.batch.length h order draws = some b ∧ item.1 ∈ b.members := by
  obtain ⟨i, hi⟩ := List.getElem?_of_mem hitem
  obtain ⟨hlt, -⟩ := List.getElem?_eq_some_iff.1 hi
  obtain ⟨u, hu⟩ := Draw.exists_draw (Nat.zero_le i) hlt
  obtain ⟨n, hn⟩ := Nat.exists_eq_add_one.2 (Nat.zero_lt_of_lt hlt)
  obtain ⟨s', htake⟩ : ∃ s', s.takeOne s.batch.length u = some (item.1, s') := by
    simp [takeOne, hu, hi]
  obtain ⟨-, -, hlen⟩ := takeOne_spec htake
  obtain ⟨b, hb⟩ : ∃ b : Batch (SchedulerBatcher S Stmt) C Stmt,
      fill s.batch.length order n s' c h (List.replicate n u) = some b :=
    exists_fill (by omega) (by omega) (by simp)
  refine ⟨u :: List.replicate n u, { b with members := item.1 :: b.members }, ?_, List.mem_cons_self⟩
  have hfill := fill_succ (Nat.zero_lt_of_lt hlt) htake hb
  rw [← hn] at hfill
  simp [nextBatch, refillIf, hfill]

end Lsf.Engine.SchedulerBatcher
