import Lsf.Engine.Tiers
import Lsf.Lib.Run

/-!
# The representation invariant of the tiered corpus

`Rep c`: the ids in flight are those with the tag `inFlight`, the ids in the cache are those with the tag `hot`, and the
eviction queue holds the same ids with the reverse of their scores. Insertions of new ids, reads, updates and resizings
keep it over storage that never fails. `remove` and `clear` do not: they leave the id in `inFlight` or in the queue. So
the invariant holds along a run exactly when no entry is removed before it has gone to disk and the corpus is cleared
only while nothing is queued (`repInv_iff`).
-/

namespace Lsf.Engine.DynamicCorpus

open Lsf.Core Lsf.Lib PriorityQueue

variable {Stmt B Q : Type} {c : DynamicCorpus Stmt B Q} {i j : ID} {a : AST Stmt} {v : View Stmt}

/-- The data of an entry in flight with a new score and the next round. -/
theorem index_scored (c : DynamicCorpus Stmt B Q) (data : EntryData) (score : F64) (r : UInt8) :
    (setCached { c with index := c.index.insert i { data with score := score } } i (.inFlight r)).index.lookup i =
      some ⟨data.parents, data.metadata, score, .inFlight r⟩ := by
  unfold setCached
  rw [HashMap.lookup_modify, if_pos rfl, AList.lookup_insert]
  rfl

variable [PriorityQueue Q ID F64.Reverse]

/-- The containers agree with the tag. -/
structure View.Rep (v : View Stmt) : Prop where
  inFlight : v.inFlight.isSome ↔ ∃ data round, v.data = some data ∧ data.cached = .inFlight round
  hot : v.hot.isSome ↔ ∃ data, v.data = some data ∧ data.cached = .hot
  queued : ∀ p, v.priority = some p ↔ ∃ data, v.data = some data ∧ data.cached = .hot ∧ p = F64.reverse data.score

/-- An entry between the tiers. -/
structure View.Away (v : View Stmt) : Prop where
  data : v.data.isSome
  inFlight : v.inFlight = none
  hot : v.hot = none
  priority : v.priority = none

/-- **The representation invariant.** -/
def Rep (c : DynamicCorpus Stmt B Q) : Prop := ∀ i, (view c i).Rep

/-- The invariant while `i` is between the tiers. -/
structure RepOff (c : DynamicCorpus Stmt B Q) (i : ID) : Prop where
  others : ∀ j, j ≠ i → (view c j).Rep
  away : (view c i).Away

/-- The scores of the entries in the cache. -/
def hotScores (c : DynamicCorpus Stmt B Q) : Set F64 :=
  { score | ∃ i data, (c.hot.lookup i).isSome ∧ c.index.lookup i = some data ∧ data.score = score }

/-! ## Views -/

theorem View.Away.placed (h : v.Away) : (v.placed a).Rep := by
  obtain ⟨data, hd⟩ := Option.isSome_iff_exists.1 h.data
  refine ⟨?_, ?_, ?_⟩
  · simp [View.placed, View.tagged, h.inFlight, hd]
  · simp [View.placed, View.tagged, hd]
  · intro p
    simp [View.placed, View.tagged, hd, eq_comm]

theorem View.Away.tagged_disk (h : v.Away) : (v.tagged .disk).Rep := by
  obtain ⟨data, hd⟩ := Option.isSome_iff_exists.1 h.data
  refine ⟨?_, ?_, ?_⟩
  · simp [View.tagged, h.inFlight, hd]
  · simp [View.tagged, h.hot, hd]
  · intro p
    simp [View.tagged, h.priority, hd]

/-- What is queued has data, its tag is `hot`, and it is not in flight. -/
theorem View.Rep.of_queued {p : F64.Reverse} (h : v.Rep) (hp : v.priority = some p) :
    ∃ data, v.data = some data ∧ data.cached = .hot ∧ p = F64.reverse data.score ∧ v.inFlight = none := by
  obtain ⟨data, hd, hc, hs⟩ := (h.queued p).1 hp
  refine ⟨data, hd, hc, hs, ?_⟩
  rw [← Option.not_isSome_iff_eq_none, h.inFlight]
  rintro ⟨data', r, hd', hc'⟩
  rw [hd] at hd'
  cases hd'
  rw [hc] at hc'
  cases hc'

theorem View.Rep.taken {p : F64.Reverse} (h : v.Rep) (hp : v.priority = some p) : v.taken.Away := by
  obtain ⟨data, hd, -, -, hfl⟩ := h.of_queued hp
  exact ⟨by simp [View.taken, hd], hfl, rfl, rfl⟩

/-- Without the tag `hot` an entry is neither in the cache nor queued. -/
theorem View.Rep.not_hot {data : EntryData} (h : v.Rep) (hd : v.data = some data) (hc : data.cached ≠ .hot) :
    v.hot = none ∧ v.priority = none := by
  refine ⟨?_, Option.eq_none_iff_forall_ne_some.2 fun p hp => ?_⟩
  · rw [← Option.not_isSome_iff_eq_none, h.hot]
    rintro ⟨data', hd', hc'⟩
    rw [hd] at hd'
    cases hd'
    exact hc hc'
  · obtain ⟨data', hd', hc', -⟩ := (h.queued p).1 hp
    rw [hd] at hd'
    cases hd'
    exact hc hc'

theorem View.Rep.not_inFlight {data : EntryData} (h : v.Rep) (hd : v.data = some data)
    (hc : ∀ r, data.cached ≠ .inFlight r) : v.inFlight = none := by
  rw [← Option.not_isSome_iff_eq_none, h.inFlight]
  rintro ⟨data', r, hd', hc'⟩
  rw [hd] at hd'
  cases hd'
  exact hc r hc'

theorem View.Rep.away_of_disk {data : EntryData} (h : v.Rep) (hd : v.data = some data) (hc : data.cached = .disk) :
    v.Away := by
  obtain ⟨hhot, hpr⟩ := h.not_hot hd (by rw [hc]; simp)
  exact ⟨by simp [hd], h.not_inFlight hd (by rw [hc]; simp), hhot, hpr⟩

/-- An id without data is nowhere. -/
theorem View.Rep.of_no_data (h : v.Rep) (hd : v.data = none) :
    v.inFlight = none ∧ v.hot = none ∧ v.priority = none := by
  refine ⟨?_, ?_, Option.eq_none_iff_forall_ne_some.2 fun p hp => ?_⟩
  · rw [← Option.not_isSome_iff_eq_none, h.inFlight]
    simp [hd]
  · rw [← Option.not_isSome_iff_eq_none, h.hot]
    simp [hd]
  · obtain ⟨data, hd', -⟩ := (h.queued p).1 hp
    rw [hd] at hd'
    cases hd'

theorem View.rep_nowhere : View.Rep (⟨none, none, none, none⟩ : View Stmt) := by
  refine ⟨?_, ?_, ?_⟩ <;> simp

/-- A new entry. -/
theorem View.rep_inFlight {data : EntryData} {r : UInt8} (hc : data.cached = .inFlight r) :
    View.Rep (⟨some data, some a, none, none⟩ : View Stmt) := by
  refine ⟨?_, ?_, ?_⟩
  · simp [hc]
  · simp [hc]
  · simp [hc]

/-! ## Moving entries -/

/-- A view that is as before. -/
theorem Rep.congr {c' : DynamicCorpus Stmt B Q} (h : Rep c) (hv : ∀ j, view c' j = view c j) : Rep c' :=
  fun j => by rw [hv]; exact h j

theorem RepOff.congr {c' : DynamicCorpus Stmt B Q} (h : RepOff c i) (hv : ∀ j, view c' j = view c j) : RepOff c' i where
  others j hj := by rw [hv]; exact h.others j hj
  away := by rw [hv]; exact h.away

theorem Rep.off (h : Rep c) {data : EntryData} (hd : c.index.lookup i = some data) (hc : data.cached = .disk) :
    RepOff c i :=
  ⟨fun j _ => h j, (h i).away_of_disk hd hc⟩

/-- A new entry arrives in flight. -/
theorem Rep.arrive (h : Rep c) (hi : c.index.lookup i = none) (a : AST Stmt) {data : EntryData} {r : UInt8}
    (hc : data.cached = .inFlight r) :
    Rep { c with inFlight := c.inFlight.insert i a, index := c.index.insert i data } := by
  obtain ⟨-, hhot, hpr⟩ := (h i).of_no_data hi
  intro j
  unfold view
  simp only [IndexMap.get_insert, HashMap.lookup_insert_iff]
  split
  · next hj =>
    subst hj
    simp only [view_hot, view_priority] at hhot hpr
    rw [hhot, hpr]
    exact View.rep_inFlight hc
  · exact h j

/-- Removing an entry that is on disk leaves nothing behind. -/
theorem Rep.remove (h : Rep c) (i : ID) (hdisk : ∀ data, c.index.lookup i = some data → data.cached = .disk) :
    Rep (c.remove i) := by
  unfold DynamicCorpus.remove
  split
  · exact h
  · next data hd =>
    have hc := hdisk data hd
    have haway := (h i).away_of_disk hd hc
    rw [hc]
    intro j
    unfold view
    simp only [HashMap.lookup_erase_iff]
    split
    · next hj =>
      subst hj
      have hfl : c.inFlight.get j = none := haway.inFlight
      have hhot : c.hot.lookup j = none := haway.hot
      have hpr : getPriority c.hotEviction j = none := haway.priority
      rw [hfl, hhot, hpr]
      exact View.rep_nowhere
    · exact h j

/-- An entry that is taken out of the first tier is between the tiers. -/
theorem Rep.shiftRemove {data : EntryData} {r : UInt8} (h : Rep c) (hd : c.index.lookup i = some data)
    (hc : data.cached = .inFlight r) : RepOff { c with inFlight := c.inFlight.erase i } i where
  others j hj := by rw [view_eraseInFlight, if_neg hj]; exact h j
  away := by
    rw [view_eraseInFlight, if_pos rfl]
    obtain ⟨hhot, hpr⟩ := (h i).not_hot hd (by rw [hc]; simp)
    exact ⟨by simp [hd], rfl, hhot, hpr⟩

/-- A new score for an entry that is not queued, with a tag of the same tier. -/
theorem Rep.rescore {data : EntryData} (h : Rep c) (hd : c.index.lookup i = some data) (score : F64)
    (hc : data.cached ≠ .hot) : Rep { c with index := c.index.insert i { data with score := score } } := by
  intro j
  rw [view_insertData]
  split
  · obtain ⟨hhot, hpr⟩ := (h i).not_hot hd hc
    refine ⟨?_, ?_, ?_⟩
    · rw [(h i).inFlight]
      simp [hd]
    · simp only [hhot]
      simp [hc]
    · intro p
      simp only [hpr]
      simp [hc]
  · exact h j

theorem Rep.setRound {data : EntryData} {r : UInt8} (h : Rep c) (hd : c.index.lookup i = some data)
    (hc : data.cached = .inFlight r) (r' : UInt8) : Rep (c.setCached i (.inFlight r')) := by
  intro j
  rw [view_setCached]
  split
  · obtain ⟨hhot, hpr⟩ := (h i).not_hot hd (by rw [hc]; simp)
    have hfl := (h i).inFlight.2 ⟨data, r, hd, hc⟩
    refine ⟨?_, ?_, ?_⟩
    · simp only [View.tagged, hfl]
      simp [hd]
    · simp only [View.tagged, hhot]
      simp [hd]
    · intro p
      simp only [View.tagged, hpr]
      simp [hd]
  · exact h j

theorem Rep.resize (h : Rep c) : Rep c.resize := by
  unfold DynamicCorpus.resize
  split
  · exact h
  · exact h.congr fun _ => rfl

section Queue

variable [LawfulPriorityQueue Q]

theorem RepOff.placeHot (h : RepOff c i) (a : AST Stmt) : Rep (c.placeHot i a) := by
  intro j
  rw [view_placeHot]
  split
  · exact h.away.placed
  · next hj => exact h.others j hj

/-- The queue follows the score of an entry in the cache. -/
theorem Rep.rescore_hot {data : EntryData} (h : Rep c) (hd : c.index.lookup i = some data) (score : F64)
    (hc : data.cached = .hot) :
    Rep (reprioritize { c with index := c.index.insert i { data with score := score } } i score) := by
  intro j
  rw [view_reprioritize, view_insertData, view_insertData, if_pos rfl]
  split
  · have hfl := (h i).not_inFlight hd (by rw [hc]; simp)
    have hpr := ((h i).queued _).2 ⟨data, hd, hc, rfl⟩
    refine ⟨?_, ?_, ?_⟩
    · simp only [hfl]
      simp [hc]
    · rw [(h i).hot]
      simp [hd, hc]
    · intro p
      simp only [hpr]
      simp [hc, eq_comm]
  · exact h j

/-- Nothing happens to the queue when the entry is not in it. -/
theorem Rep.reprioritize (h : Rep c) (hp : (view c i).priority = none) (score : F64) :
    Rep (c.reprioritize i score) := by
  refine h.congr fun j => ?_
  rw [view_reprioritize]
  split
  · next hj => subst hj; rw [hp, Option.map_none, ← hp]
  · rfl

theorem Rep.new (caps : Caps) (disk : B) : Rep (DynamicCorpus.new caps disk : DynamicCorpus Stmt B Q) := by
  intro i
  have hv : view (DynamicCorpus.new caps disk : DynamicCorpus Stmt B Q) i = ⟨none, none, none, none⟩ := by
    unfold view DynamicCorpus.new
    simp only [getPriority_empty]
    rfl
  rw [hv]
  exact View.rep_nowhere

end Queue

variable [StorageBackend B Stmt]

theorem Rep.clear (hq : ∀ i, getPriority c.hotEviction i = none) : Rep c.clear := by
  intro i
  have hv : view c.clear i = ⟨none, none, none, none⟩ := by
    unfold view DynamicCorpus.clear
    simp only [hq]
    rfl
  rw [hv]
  exact View.rep_nowhere

/-! ## Where the invariant breaks -/

omit [StorageBackend B Stmt] in
/-- **A removed entry stays behind** in the first tier or in the queue. -/
theorem not_rep_remove {data : EntryData} (h : Rep c) (hd : c.index.lookup i = some data) (hc : data.cached ≠ .disk) :
    ¬Rep (c.remove i) := by
  intro hrep
  have hcore : (c.remove i).core i = none := by rw [core_remove, if_pos rfl]
  have hidx : (view (c.remove i) i).data = none := Option.map_eq_none_iff.1 hcore
  obtain ⟨hfl, -, hpr⟩ := (hrep i).of_no_data hidx
  unfold DynamicCorpus.remove at hfl hpr
  rw [hd] at hfl hpr
  cases hcached : data.cached with
  | inFlight r =>
    simp only [hcached] at hfl
    have hsome := (h i).inFlight.2 ⟨data, r, hd, hcached⟩
    rw [view_inFlight] at hsome hfl
    rw [hfl] at hsome
    cases hsome
  | hot =>
    simp only [hcached] at hpr
    have hsome := ((h i).queued _).2 ⟨data, hd, hcached, rfl⟩
    rw [view_priority] at hsome hpr
    rw [hpr] at hsome
    cases hsome
  | disk => exact hc hcached

/-- **A cleared corpus still has its queue.** -/
theorem not_rep_clear {p : F64.Reverse} (hp : getPriority c.hotEviction i = some p) : ¬Rep c.clear := by
  intro hrep
  obtain ⟨-, -, hpr⟩ := (hrep i).of_no_data rfl
  rw [view_priority] at hpr
  unfold DynamicCorpus.clear at hpr
  rw [hp] at hpr
  cases hpr

/-! ## Reliable storage -/

section Reliable

variable [ReliableStorage B]

theorem RepOff.moveToDisk (h : RepOff c i) (a : AST Stmt) : Rep (c.moveToDisk i a).2 := by
  intro j
  rw [view_moveToDisk (write_ok _ _ _)]
  split
  · exact h.away.tagged_disk
  · next hj => exact h.others j hj

variable [LawfulPriorityQueue Q]

theorem rep_evictCachedIf {cond : F64 → Bool} (h : (view c j).Rep) : (view (c.evictCachedIf cond).2 j).Rep := by
  have hE := c.evicts cond
  generalize c.evictCachedIf cond = r at hE ⊢
  cases hE with
  | room => exact h
  | empty => exact h
  | keep _ hpop _ => dsimp only; rw [view_putBack hpop]; exact h
  | @evict w p q b _ hpop _ hw =>
    dsimp only
    rw [view_moveToDisk (write_ok _ _ _), view_takeHot hpop, view_takeHot hpop, if_pos rfl]
    split
    · next hj =>
      subst hj
      exact (h.taken (pop_mem _ _ _ _ hpop)).tagged_disk
    · exact h

theorem Rep.evictCachedIf (h : Rep c) (cond : F64 → Bool) : Rep (c.evictCachedIf cond).2 := fun j =>
  rep_evictCachedIf (h j)

/-- An entry that is away is not evicted. -/
theorem RepOff.evictCachedIf (h : RepOff c i) (cond : F64 → Bool) : RepOff (c.evictCachedIf cond).2 i where
  others j hj := rep_evictCachedIf (h.others j hj)
  away := by rw [view_evictCachedIf_of_not_queued c cond h.away.priority]; exact h.away

theorem RepOff.moveToCache (h : RepOff c i) (a : AST Stmt) : Rep (c.moveToCache i a) := by
  unfold DynamicCorpus.moveToCache
  split
  · exact (h.evictCachedIf _).placeHot a
  · exact h.placeHot a

theorem RepOff.settle (h : RepOff c i) (a : AST Stmt) (score : F64) : Rep (c.settle i a score) := by
  have hE := h.evictCachedIf fun cached => cached.ltIeee score
  unfold DynamicCorpus.settle
  split
  · next c' he => rw [he] at hE; exact hE.moveToCache a
  · next c' he => rw [he] at hE; exact hE.moveToDisk a

theorem Rep.evictInFlight (h : Rep c) : Rep c.evictInFlight := by
  unfold DynamicCorpus.evictInFlight
  split
  · exact h
  · next k ast rest hrest =>
    obtain ⟨hk, rfl⟩ := IndexMap.shiftRemoveIndex_eq_some hrest
    obtain ⟨data, r, hd, hc⟩ := (h k).inFlight.1 (by rw [view_inFlight, hk]; rfl)
    rw [view_data] at hd
    have hoff := h.shiftRemove hd hc
    split
    · exact hoff.settle ast _
    · exact hoff.moveToDisk ast

end Reliable

/-! ## The operations -/

section Operations

variable [LawfulPriorityQueue Q] [ReliableStorage B]

theorem Rep.get (h : Rep c) (i : ID) : Rep (c.get i).2 := by
  unfold DynamicCorpus.get
  split
  · exact h
  · next data hd =>
    dsimp only
    split
    · exact h.congr fun _ => rfl
    · exact h.congr fun _ => rfl
    · next hc =>
      split
      · exact h.congr fun _ => rfl
      · next ast disk he =>
        split
        · have hoff : RepOff { c with diskCache := disk, requests := c.requests + 1 } i :=
            (h.off hd hc).congr fun _ => rfl
          exact hoff.moveToCache ast
        · exact h.congr fun _ => rfl

theorem Rep.update (h : Rep c) (i : ID) (score : F64) : Rep (c.update i score) := by
  unfold DynamicCorpus.update
  split
  · exact h
  · next data hd =>
    dsimp only
    have hd₁ : (c.index.insert i { data with score := score }).lookup i = some { data with score := score } :=
      AList.lookup_insert _
    split
    · next r hc =>
      have h₁ := h.rescore hd score (by rw [hc]; simp)
      have h₂ : Rep _ := h₁.setRound hd₁ hc (r + 1)
      split
      · split
        · next ast rest hrest =>
          obtain ⟨-, rfl⟩ := IndexMap.shiftRemove_eq_some.1 hrest
          exact (h₂.shiftRemove (index_scored c data score (r + 1)) rfl).settle ast score
        · exact h₂
      · exact h₂
    · next hc =>
      have hne : data.cached ≠ .hot := by rw [hc]; simp
      have h₁ := h.rescore hd score hne
      have hoff : RepOff _ i := h₁.off hd₁ hc
      have h₂ := h₁.evictCachedIf fun cached => cached.ltIeee score
      have hoff₂ := hoff.evictCachedIf fun cached => cached.ltIeee score
      split
      · next c' he =>
        rw [he] at h₂ hoff₂
        split
        · next ast disk _ =>
          have hoff₃ : RepOff { c' with diskCache := disk } i := hoff₂.congr fun _ => rfl
          exact hoff₃.moveToCache ast
        · next e disk _ =>
          have h₃ : Rep { c' with diskCache := disk } := h₂.congr fun _ => rfl
          exact h₃.reprioritize hoff₂.away.priority score
      · next c' he =>
        rw [he] at h₂ hoff₂
        exact h₂.reprioritize hoff₂.away.priority score
    · next hc => exact h.rescore_hot hd score hc

theorem Rep.insert (h : Rep c) (entry : CorpusEntry Stmt) (score : F64) (hi : c.index.lookup entry.id = none) :
    Rep (c.insert entry score) := by
  unfold DynamicCorpus.insert
  dsimp only
  have hwrite : Rep { c with diskCache := (StorageBackend.write c.diskCache entry.id entry.raw.ast).2 } :=
    h.congr fun _ => rfl
  split
  · exact hwrite.evictInFlight.arrive (index_evictInFlight_none hi) entry.raw.ast (r := 0) rfl
  · exact hwrite.arrive hi entry.raw.ast (r := 0) rfl

/-! ## Evictions -/

/-- A full cache gives up an entry of least score, if the condition holds of that score. -/
def EvictsLeast (c : DynamicCorpus Stmt B Q) : Prop :=
  ∀ cond m, c.hotCap ≤ HashMap.size c.hot → IsLeast c.hotScores m → cond m = true →
    ∃ w ast data, c.hot.lookup w = some ast ∧ c.index.lookup w = some data ∧ data.score = m ∧
      (c.evictCachedIf cond).1 = true ∧ (c.evictCachedIf cond).2.hot = c.hot.erase w ∧
      (c.evictCachedIf cond).2.index.lookup w = some { data with cached := .disk } ∧
      (stored (c.evictCachedIf cond).2.diskCache w).isSome

/-- **Under the invariant a full cache gives up its worst entry.** -/
theorem Rep.evictsLeast (h : Rep c) : EvictsLeast c := by
  intro cond m hfull hm hcond
  obtain ⟨⟨k, data, hk, hd, rfl⟩, hleast⟩ := hm
  have hq : (getPriority c.hotEviction k).isSome := by
    obtain ⟨data', hd', hc'⟩ := (h k).hot.1 hk
    exact Option.isSome_iff_exists.2 ⟨_, ((h k).queued _).2 ⟨data', hd', hc', rfl⟩⟩
  obtain ⟨w, p, q, hpop⟩ := exists_pop hq
  -- the head of the queue is in the cache, and its score is the least one
  obtain ⟨dw, hdw, hcw, rfl, -⟩ := (h w).of_queued (pop_mem _ _ _ _ hpop)
  obtain ⟨ast, hast⟩ := Option.isSome_iff_exists.1 ((h w).hot.2 ⟨dw, hdw, hcw⟩)
  have hscore : dw.score = data.score := by
    refine le_antisymm ?_ (hleast ⟨w, dw, by rw [view_hot] at hast; rw [hast]; rfl, hdw, rfl⟩)
    obtain ⟨data', hd', hc'⟩ := (h k).hot.1 hk
    rw [view_data] at hd'
    rw [hd] at hd'
    cases hd'
    exact F64.reverse_le_reverse.1 (pop_max _ _ _ _ hpop _ _ (((h k).queued _).2 ⟨data, hd, hc', rfl⟩))
  have hE := c.evicts cond
  generalize c.evictCachedIf cond = r at hE ⊢
  cases hE with
  | room hroom => omega
  | empty _ hnone => rw [hpop] at hnone; cases hnone
  | keep _ hpop' hno =>
    rw [hpop] at hpop'
    cases hpop'
    rw [F64.ofReverse_reverse, hscore] at hno
    rw [view_hot, hno hcond] at hast
    cases hast
  | @evict _ _ _ b _ hpop' _ hw =>
    rw [hpop] at hpop'
    cases hpop'
    have hv := view_moveToDisk (c := c.takeHot q w) (write_ok _ w b) w
    rw [if_pos rfl, view_takeHot hpop, if_pos rfl] at hv
    have hdata := congrArg View.data hv
    simp only [View.tagged, View.taken, hdw] at hdata
    refine ⟨w, _, dw, hw, hdw, hscore, rfl, hot_moveToDisk, hdata, ?_⟩
    simp only [diskCache_moveToDisk]
    exact stored_write_isSome (write_ok _ _ _)

end Operations

/-! ## Runs -/

/-- An insertion is of an id that is not in the corpus. -/
def Fresh (c : DynamicCorpus Stmt B Q) : CorpusOp Stmt → Prop
  | .insert entry _ => c.index.lookup entry.id = none
  | _ => True

/-- Nothing is left behind: an entry is removed when it is on disk, and the corpus is cleared when nothing is queued. -/
def LeavesNothing (c : DynamicCorpus Stmt B Q) : CorpusOp Stmt → Prop
  | .remove i => ∀ data, c.index.lookup i = some data → data.cached = .disk
  | .clear => ∀ i, getPriority c.hotEviction i = none
  | _ => True

/-- The containers agree with the index, and evictions work. -/
structure RepInv (c : DynamicCorpus Stmt B Q) : Prop where
  rep : Rep c
  evictsLeast : EvictsLeast c

theorem not_rep_step {op : CorpusOp Stmt} (h : Rep c) (hop : ¬LeavesNothing c op) :
    ∃ c', CorpusOp.step c op = some c' ∧ ¬RepInv c' := by
  refine ⟨_, rfl, fun hinv => ?_⟩
  cases op with
  | remove i =>
    obtain ⟨data, hd⟩ := not_forall.1 hop
    obtain ⟨hd, hc⟩ := Classical.not_imp.1 hd
    exact not_rep_remove h hd hc hinv.rep
  | clear =>
    obtain ⟨i, hi⟩ := not_forall.1 hop
    obtain ⟨p, hp⟩ := Option.ne_none_iff_exists'.1 hi
    exact not_rep_clear hp hinv.rep
  | _ => exact hop trivial

section Runs

variable [LawfulPriorityQueue Q] [ReliableStorage B]

theorem rep_step {op : CorpusOp Stmt} {c' : DynamicCorpus Stmt B Q} (h : Rep c) (hfresh : Fresh c op)
    (hop : LeavesNothing c op) (hstep : CorpusOp.step c op = some c') : Rep c' := by
  cases hstep
  cases op with
  | insert entry score => exact h.insert entry score hfresh
  | get i => exact h.get i
  | update i score => exact h.update i score
  | remove i => exact h.remove i hop
  | resize => exact h.resize
  | clear => exact Rep.clear hop

/-- **Exactly when the tiers stay in step**: along a run that inserts new ids, the representation invariant holds in
every state if and only if no operation leaves something behind. -/
theorem repInv_iff (caps : Caps) (disk : B) (ops : List (CorpusOp Stmt))
    (hfresh : AllSteps CorpusOp.step Fresh (DynamicCorpus.new caps disk : DynamicCorpus Stmt B Q) ops) :
    AllStates CorpusOp.step RepInv (DynamicCorpus.new caps disk : DynamicCorpus Stmt B Q) ops ↔
      AllSteps CorpusOp.step LeavesNothing (DynamicCorpus.new caps disk : DynamicCorpus Stmt B Q) ops :=
  allStates_iff_allSteps (I := Rep) (G := Fresh) (fun _ h => ⟨h, h.evictsLeast⟩)
    (fun _ _ _ h hG hF hstep => rep_step h hG hF hstep) (fun _ _ h _ hF => not_rep_step h hF) (Rep.new caps disk) hfresh

end Runs

/-- Two entries come in, where each cache has room for one, and the first of them is got. -/
theorem repInv_iff_two :
    let caps : Caps := ⟨1, 1, 1, .sorted ID⟩
    let entry (n : UInt32) : CorpusEntry Nat := ⟨⟨⟨n⟩, [], [n.toNat]⟩, .default⟩
    let ops : List (CorpusOp Nat) := [.insert (entry 1) (.fin 1), .insert (entry 2) (.fin 2), .get ⟨1⟩]
    let corpus : DynamicCorpus Nat (InMemory (AST Nat)) (ListQueue ID F64.Reverse) := .new caps .new
    AllStates CorpusOp.step RepInv corpus ops ↔ AllSteps CorpusOp.step LeavesNothing corpus ops :=
  repInv_iff _ _ _ ⟨rfl, fun _ h₁ => by
    cases h₁
    exact ⟨rfl, fun _ h₂ => by
      cases h₂
      exact ⟨trivial, fun _ _ => trivial⟩⟩⟩

/-- An entry removed while it is in flight keeps its place there. -/
theorem not_repInv_remove :
    let corpus : DynamicCorpus Nat (InMemory (AST Nat)) (ListQueue ID F64.Reverse) := .new (.source (.sorted ID)) .new
    let ops : List (CorpusOp Nat) := [.insert ⟨⟨⟨1⟩, [], [7]⟩, .default⟩ (.fin 1), .remove ⟨1⟩]
    AllSteps CorpusOp.step Fresh corpus ops ∧ ¬AllStates CorpusOp.step RepInv corpus ops := by
  refine ⟨⟨rfl, fun _ _ => ⟨trivial, fun _ _ => trivial⟩⟩, fun h => ?_⟩
  obtain ⟨-, h⟩ := h
  obtain ⟨-, h⟩ := h _ rfl
  have hrep := (h _ rfl).rep ⟨1⟩
  obtain ⟨data, r, hd, -⟩ := hrep.inFlight.1 rfl
  cases hd

end Lsf.Engine.DynamicCorpus
