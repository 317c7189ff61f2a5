import Lsf.Engine.Tiers
import Lsf.Lib.Run

/-!
# The bounds of the tiers

The first tier and the cache of a `DynamicCorpus` stay within their capacities, and the cap of the cache between its
first and its last value, on every path and whatever the storage answers (`cacheBounds`). What carries this is that
every key of the cache is queued for eviction: an eviction that finds the queue empty finds the cache empty too, so that
one that answers `true` has made room.
-/

namespace Lsf.Engine.DynamicCorpus

open Lsf.Core Lsf.Lib PriorityQueue

variable {Stmt B Q : Type} {c c' c'' : DynamicCorpus Stmt B Q} {i : ID} {a : AST Stmt}

/-! ## What moving entries leaves alone -/

/-- `c'` has the capacities and the first tier of `c`, and all of its entries. -/
structure Steady (c c' : DynamicCorpus Stmt B Q) : Prop where
  caps : c'.caps = c.caps
  hotCap : c'.hotCap = c.hotCap
  inFlight : c'.inFlight = c.inFlight
  indexed : ∀ j, (c.index.lookup j).isSome → (c'.index.lookup j).isSome

theorem Steady.refl (c : DynamicCorpus Stmt B Q) : Steady c c := ⟨rfl, rfl, rfl, fun _ h => h⟩

theorem Steady.trans (h : Steady c c') (h' : Steady c' c'') : Steady c c'' where
  caps := h'.caps.trans h.caps
  hotCap := h'.hotCap.trans h.hotCap
  inFlight := h'.inFlight.trans h.inFlight
  indexed j hj := h'.indexed j (h.indexed j hj)

theorem steady_setCached (c : DynamicCorpus Stmt B Q) (i : ID) (loc : CacheLocation) : Steady c (c.setCached i loc) where
  caps := rfl
  hotCap := rfl
  inFlight := rfl
  indexed j hj := by
    unfold setCached
    rw [HashMap.lookup_modify]
    split
    · rename_i h
      rw [Option.isSome_map, ← h]
      exact hj
    · exact hj

theorem isSome_lookup_insert_self (i : ID) (data : EntryData) : ((c.index.insert i data).lookup i).isSome := by
  rw [HashMap.lookup_insert_iff, if_pos rfl]
  rfl

section Storage

variable [StorageBackend B Stmt]

theorem steady_moveToDisk (c : DynamicCorpus Stmt B Q) (i : ID) (a : AST Stmt) : Steady c (c.moveToDisk i a).2 := by
  cases h : (StorageBackend.write c.diskCache i a).1 with
  | ok u =>
    rw [moveToDisk_ok h]
    have h := steady_setCached { c with diskCache := (StorageBackend.write c.diskCache i a).2 } i .disk
    exact ⟨h.caps, h.hotCap, h.inFlight, h.indexed⟩
  | error e =>
    rw [moveToDisk_error h]
    exact ⟨rfl, rfl, rfl, fun _ h => h⟩

end Storage

/-! ## The bounds -/

variable [PriorityQueue Q ID F64.Reverse]

theorem steady_placeHot (c : DynamicCorpus Stmt B Q) (i : ID) (a : AST Stmt) : Steady c (c.placeHot i a) := by
  unfold placeHot
  dsimp only
  split
  · have h := steady_setCached { c with hot := c.hot.insert i a } i .hot
    exact ⟨h.caps, h.hotCap, h.inFlight, h.indexed⟩
  · exact ⟨rfl, rfl, rfl, fun _ h => h⟩

/-- The cache is within its cap, and every key of it is queued. -/
structure HotBounded (c : DynamicCorpus Stmt B Q) : Prop where
  pos : 0 < c.hotCap
  size : HashMap.size c.hot ≤ c.hotCap
  queued : ∀ j, (c.hot.lookup j).isSome → (getPriority c.hotEviction j).isSome

theorem hotBounded_setCached (h : HotBounded c) (loc : CacheLocation) : HotBounded (c.setCached i loc) :=
  ⟨h.pos, h.size, h.queued⟩

/-- All bounds, for a corpus that was built with `caps`. -/
structure Bounded (caps : Caps) (c : DynamicCorpus Stmt B Q) : Prop extends HotBounded c where
  caps_eq : c.caps = caps
  inFlight : c.inFlight.len ≤ caps.inFlightCap
  init_le : caps.initCacheCap ≤ c.hotCap
  le_cap : c.hotCap ≤ caps.cacheCap

variable {caps : Caps}

theorem Bounded.of_steady (h : Bounded caps c) (hs : Steady c c') (hb : HotBounded c') : Bounded caps c' where
  toHotBounded := hb
  caps_eq := hs.caps.trans h.caps_eq
  inFlight := hs.inFlight ▸ h.inFlight
  init_le := hs.hotCap ▸ h.init_le
  le_cap := hs.hotCap ▸ h.le_cap

/-- Entries may leave the first tier. -/
theorem Bounded.setInFlight (h : Bounded caps c) {m : IndexMap ID (AST Stmt)} (hm : m.len ≤ c.inFlight.len) :
    Bounded caps { c with inFlight := m } :=
  ⟨⟨h.pos, h.size, h.queued⟩, h.caps_eq, hm.trans h.inFlight, h.init_le, h.le_cap⟩

/-- New data for an entry. -/
theorem Bounded.setData (h : Bounded caps c) (i : ID) (data : EntryData) :
    Bounded caps { c with index := c.index.insert i data } :=
  ⟨⟨h.pos, h.size, h.queued⟩, h.caps_eq, h.inFlight, h.init_le, h.le_cap⟩

theorem Bounded.new (hpos : 0 < caps.initCacheCap) (hle : caps.initCacheCap ≤ caps.cacheCap) (disk : B) :
    Bounded caps (new caps disk : DynamicCorpus Stmt B Q) where
  pos := hpos
  size := Nat.zero_le _
  queued j hj := by cases hj
  caps_eq := rfl
  inFlight := Nat.zero_le _
  init_le := le_rfl
  le_cap := hle

theorem Bounded.remove (h : Bounded caps c) (i : ID) :
    Bounded caps (c.remove i) ∧ (c.remove i).hotCap = c.hotCap := by
  have hindex : ∀ index, Bounded caps { c with index := index } := fun _ =>
    ⟨⟨h.pos, h.size, h.queued⟩, h.caps_eq, h.inFlight, h.init_le, h.le_cap⟩
  unfold DynamicCorpus.remove
  split
  · exact ⟨h, rfl⟩
  · dsimp only
    split
    · exact ⟨hindex _, rfl⟩
    · refine ⟨⟨⟨h.pos, (HashMap.size_erase_le _ _).trans h.size, fun j hj => ?_⟩, h.caps_eq, h.inFlight, h.init_le,
        h.le_cap⟩, rfl⟩
      rw [HashMap.lookup_erase_iff] at hj
      split at hj
      · cases hj
      · exact h.queued j hj
    · exact ⟨hindex _, rfl⟩

/-- The cap of the cache only grows, and not beyond its last value. -/
theorem Bounded.resize (h : Bounded caps c) : Bounded caps c.resize ∧ c.hotCap ≤ c.resize.hotCap := by
  have hinit := h.init_le
  have hcap := h.le_cap
  have hle : c.hotCap ≤ c.resize.hotCap ∧ c.resize.hotCap ≤ caps.cacheCap := by
    unfold DynamicCorpus.resize
    split
    · exact ⟨le_rfl, hcap⟩
    · dsimp only
      rw [h.caps_eq]
      split
      · omega
      · exact ⟨le_rfl, hcap⟩
  have hframe : c.resize.caps = c.caps ∧ c.resize.inFlight = c.inFlight ∧ c.resize.hot = c.hot ∧
      c.resize.hotEviction = c.hotEviction := by
    unfold DynamicCorpus.resize
    split
    · exact ⟨rfl, rfl, rfl, rfl⟩
    · exact ⟨rfl, rfl, rfl, rfl⟩
  obtain ⟨hcaps, hinFlight, hhot, hqueue⟩ := hframe
  refine ⟨⟨⟨h.pos.trans_le hle.1, ?_, ?_⟩, hcaps.trans h.caps_eq, ?_, hinit.trans hle.1, hle.2⟩, hle.1⟩
  · rw [hhot]
    exact h.size.trans hle.1
  · rw [hhot, hqueue]
    exact h.queued
  · rw [hinFlight]
    exact h.inFlight

/-! ## Moving entries -/

variable [StorageBackend B Stmt]

theorem steady_evictCachedIf (c : DynamicCorpus Stmt B Q) (cond : F64 → Bool) : Steady c (c.evictCachedIf cond).2 := by
  have hE := c.evicts cond
  generalize c.evictCachedIf cond = r at hE ⊢
  cases hE with
  | room => exact .refl c
  | empty => exact .refl c
  | @evict w p q b _ _ _ _ =>
    have h := steady_moveToDisk (c.takeHot q w) w b
    exact ⟨h.caps, h.hotCap, h.inFlight, h.indexed⟩
  | keep => exact ⟨rfl, rfl, rfl, fun _ h => h⟩

theorem hotBounded_moveToDisk (h : HotBounded c) : HotBounded (c.moveToDisk i a).2 := by
  cases hw : (StorageBackend.write c.diskCache i a).1 with
  | ok u =>
    rw [moveToDisk_ok hw]
    exact ⟨h.pos, h.size, h.queued⟩
  | error e =>
    rw [moveToDisk_error hw]
    exact ⟨h.pos, h.size, h.queued⟩

/-- Where there is room nothing is evicted first. -/
theorem moveToCache_of_room (hroom : HashMap.size c.hot < c.hotCap) : c.moveToCache i a = c.placeHot i a := by
  unfold moveToCache
  rw [if_neg (not_le.2 hroom)]

theorem Bounded.clear (h : Bounded caps c) : Bounded caps c.clear ∧ c.clear.hotCap = c.hotCap := by
  refine ⟨⟨⟨h.pos, Nat.zero_le _, fun j hj => by cases hj⟩, h.caps_eq, Nat.zero_le _, h.init_le, h.le_cap⟩, rfl⟩

variable [LawfulPriorityQueue Q]

/-- **An eviction that answers `true` has made room**: if nothing is queued, nothing is in the cache. -/
theorem hotBounded_evictCachedIf (h : HotBounded c) (cond : F64 → Bool) :
    HotBounded (c.evictCachedIf cond).2 ∧
      ((c.evictCachedIf cond).1 = true → HashMap.size (c.evictCachedIf cond).2.hot < (c.evictCachedIf cond).2.hotCap) := by
  have hE := c.evicts cond
  generalize c.evictCachedIf cond = r at hE ⊢
  cases hE with
  | room hroom => exact ⟨h, fun _ => hroom⟩
  | empty hfull hpop =>
    have hpos : 0 < HashMap.size c.hot := lt_of_lt_of_le h.pos hfull
    obtain ⟨j, hj⟩ := HashMap.size_pos_iff.1 hpos
    have hqueued := h.queued j hj
    rw [pop_none _ hpop j] at hqueued
    cases hqueued
  | @evict w p q b hfull hpop _ hw =>
    have hlt : HashMap.size (c.hot.erase w) < c.hotCap :=
      lt_of_lt_of_le (HashMap.size_erase_lt (by rw [hw]; rfl)) h.size
    have htaken : HotBounded (c.takeHot q w) := by
      refine ⟨h.pos, hlt.le, fun j hj => ?_⟩
      unfold takeHot at hj ⊢
      rw [HashMap.lookup_erase_iff] at hj
      rw [getPriority_pop _ _ _ _ hpop]
      split at hj
      · cases hj
      · rename_i hne
        rw [if_neg hne]
        exact h.queued j hj
    refine ⟨hotBounded_moveToDisk htaken, fun _ => ?_⟩
    rw [hot_moveToDisk, (steady_moveToDisk (c.takeHot q w) w b).hotCap]
    exact hlt
  | keep hfull hpop hno =>
    refine ⟨⟨h.pos, h.size, fun j hj => ?_⟩, fun hfalse => by cases hfalse⟩
    rw [getPriority_pushIncrease_pop hpop]
    exact h.queued j hj

omit [StorageBackend B Stmt] in
/-- An entry with data is queued when it comes into the cache. -/
theorem hotBounded_placeHot (h : HotBounded c) (hroom : HashMap.size c.hot < c.hotCap)
    (hi : (c.index.lookup i).isSome) : HotBounded (c.placeHot i a) := by
  obtain ⟨data, hdata⟩ := Option.isSome_iff_exists.1 hi
  have hview := fun j => view_placeHot c i j a
  have hsize : HashMap.size (c.placeHot i a).hot ≤ c.hotCap := by
    have hle := HashMap.size_insert_le c.hot i a
    unfold placeHot
    simp only [hdata]
    exact hle.trans hroom
  refine ⟨(steady_placeHot c i a).hotCap ▸ h.pos, (steady_placeHot c i a).hotCap ▸ hsize, fun j hj => ?_⟩
  rw [← view_hot, hview j] at hj
  rw [← view_priority, hview j]
  split at hj
  · rename_i heq
    rw [if_pos heq]
    simp [View.placed, hdata]
  · rename_i hne
    rw [if_neg hne]
    exact h.queued j hj

theorem settle_spec (h : HotBounded c) (hi : (c.index.lookup i).isSome) (score : F64) :
    HotBounded (c.settle i a score) ∧ Steady c (c.settle i a score) := by
  have hsteady := steady_evictCachedIf c fun cached => cached.ltIeee score
  have hbounded := hotBounded_evictCachedIf h fun cached => cached.ltIeee score
  unfold settle
  generalize c.evictCachedIf (fun cached => cached.ltIeee score) = r at hsteady hbounded ⊢
  obtain ⟨_ | _, c₁⟩ := r
  · exact ⟨hotBounded_moveToDisk hbounded.1, hsteady.trans (steady_moveToDisk _ _ _)⟩
  · have hroom := hbounded.2 rfl
    simp only [moveToCache_of_room hroom]
    exact ⟨hotBounded_placeHot hbounded.1 hroom (hsteady.indexed i hi), hsteady.trans (steady_placeHot _ _ _)⟩

/-! ## The operations -/

theorem Bounded.moveToCache (h : Bounded caps c) (hroom : HashMap.size c.hot < c.hotCap)
    (hi : (c.index.lookup i).isSome) :
    Bounded caps (c.moveToCache i a) ∧ (c.moveToCache i a).hotCap = c.hotCap := by
  have hs := steady_placeHot c i a
  rw [moveToCache_of_room hroom]
  exact ⟨h.of_steady hs (hotBounded_placeHot h.toHotBounded hroom hi), hs.hotCap⟩

theorem Bounded.settle (h : Bounded caps c) (hi : (c.index.lookup i).isSome) (score : F64) :
    Bounded caps (c.settle i a score) ∧ (c.settle i a score).hotCap = c.hotCap := by
  obtain ⟨hb, hs⟩ := settle_spec (a := a) h.toHotBounded hi score
  exact ⟨h.of_steady hs hb, hs.hotCap⟩

theorem Bounded.get (h : Bounded caps c) (i : ID) :
    Bounded caps (c.get i).2 ∧ (c.get i).2.hotCap = c.hotCap := by
  unfold DynamicCorpus.get
  split
  · exact ⟨h, rfl⟩
  · rename_i data hdata
    have hdisk : ∀ disk : B, Bounded caps { c with requests := c.requests + 1, diskCache := disk } := fun disk =>
      h.of_steady ⟨rfl, rfl, rfl, fun _ h => h⟩ ⟨h.pos, h.size, h.queued⟩
    dsimp only
    split
    · exact ⟨hdisk c.diskCache, rfl⟩
    · exact ⟨hdisk c.diskCache, rfl⟩
    · split
      · exact ⟨hdisk _, rfl⟩
      · rename_i ast disk _
        split
        · rename_i hroom
          exact (hdisk disk).moveToCache hroom (by rw [hdata]; rfl)
        · exact ⟨h.of_steady ⟨rfl, rfl, rfl, fun _ h => h⟩ ⟨h.pos, h.size, h.queued⟩, rfl⟩

omit [StorageBackend B Stmt] in
theorem hotBounded_reprioritize (h : HotBounded c) (i : ID) (score : F64) : HotBounded (c.reprioritize i score) := by
  refine ⟨h.pos, h.size, fun j hj => ?_⟩
  have hqueued := h.queued j hj
  rw [← view_priority, view_reprioritize]
  split
  · rename_i heq
    subst heq
    simpa using hqueued
  · exact hqueued

omit [StorageBackend B Stmt] in
theorem Bounded.reprioritize (h : Bounded caps c) (i : ID) (score : F64) : Bounded caps (c.reprioritize i score) :=
  h.of_steady ⟨rfl, rfl, rfl, fun _ h => h⟩ (hotBounded_reprioritize h.toHotBounded i score)

theorem Bounded.update (h : Bounded caps c) (i : ID) (score : F64) :
    Bounded caps (c.update i score) ∧ (c.update i score).hotCap = c.hotCap := by
  unfold DynamicCorpus.update
  split
  · exact ⟨h, rfl⟩
  · rename_i data hdata
    have hscored : Bounded caps { c with index := c.index.insert i { data with score := score } } := h.setData i _
    have hsome := isSome_lookup_insert_self (c := c) i { data with score := score }
    dsimp only
    generalize hc₁ : { c with index := c.index.insert i { data with score := score } } = c₁ at hscored ⊢
    have hcap : c₁.hotCap = c.hotCap := by rw [← hc₁]
    have hi : (c₁.index.lookup i).isSome := by rw [← hc₁]; exact hsome
    split
    · rename_i round _
      have hs := steady_setCached c₁ i (.inFlight (round + 1))
      have hretagged := hscored.of_steady hs (hotBounded_setCached hscored.toHotBounded _)
      split
      · split
        · rename_i ast rest hshift
          obtain ⟨-, rfl⟩ := IndexMap.shiftRemove_eq_some.1 hshift
          have hleft := hretagged.setInFlight (IndexMap.len_erase_le _ i)
          obtain ⟨hb, heq⟩ := hleft.settle (a := ast) (hs.indexed i hi) score
          exact ⟨hb, heq.trans hcap⟩
        · exact ⟨hretagged, hcap⟩
      · exact ⟨hretagged, hcap⟩
    · have hs := steady_evictCachedIf c₁ fun cached => cached.ltIeee score
      have hevicted := hotBounded_evictCachedIf hscored.toHotBounded fun cached => cached.ltIeee score
      have hb := hscored.of_steady hs hevicted.1
      generalize c₁.evictCachedIf (fun cached => cached.ltIeee score) = r at hs hevicted hb ⊢
      obtain ⟨_ | _, c₂⟩ := r
      · exact ⟨hb.reprioritize i score, hs.hotCap.trans hcap⟩
      · have hdisk : ∀ disk : B, Bounded caps { c₂ with diskCache := disk } := fun disk =>
          hb.of_steady ⟨rfl, rfl, rfl, fun _ h => h⟩ ⟨hb.pos, hb.size, hb.queued⟩
        dsimp only
        split
        · rename_i ast disk _
          obtain ⟨hb', heq⟩ := (hdisk disk).moveToCache (a := ast) (hevicted.2 rfl) (hs.indexed i hi)
          exact ⟨hb', heq.trans (hs.hotCap.trans hcap)⟩
        · exact ⟨(hdisk _).reprioritize i score, hs.hotCap.trans hcap⟩
    · exact ⟨hscored.reprioritize i score, hcap⟩

theorem Bounded.evictInFlight (h : Bounded caps c) :
    Bounded caps c.evictInFlight ∧ c.evictInFlight.hotCap = c.hotCap ∧ (0 < c.inFlight.len →
      c.evictInFlight.inFlight.len < c.inFlight.len) := by
  unfold DynamicCorpus.evictInFlight
  split
  · rename_i hnone
    have hlen := IndexMap.shiftRemoveIndex_eq_none.1 hnone
    exact ⟨h, rfl, fun hpos => absurd hpos (not_lt.2 hlen)⟩
  · rename_i id ast rest hshift
    obtain ⟨hget, rfl⟩ := IndexMap.shiftRemoveIndex_eq_some hshift
    have hlt : (c.inFlight.erase id).len < c.inFlight.len :=
      IndexMap.len_erase_lt (IndexMap.mem_keys.2 (by rw [hget]; rfl))
    have hleft := h.setInFlight hlt.le
    split
    · rename_i data hdata
      obtain ⟨hb, hs⟩ := settle_spec (a := ast) hleft.toHotBounded (by rw [hdata]; rfl) data.score
      exact ⟨hleft.of_steady hs hb, hs.hotCap, fun _ => by rw [hs.inFlight]; exact hlt⟩
    · have hs := steady_moveToDisk { c with inFlight := c.inFlight.erase id } id ast
      exact ⟨hleft.of_steady hs (hotBounded_moveToDisk hleft.toHotBounded), hs.hotCap, fun _ => by
        rw [hs.inFlight]; exact hlt⟩

theorem Bounded.insert (h : Bounded caps c) (hpos : 0 < caps.inFlightCap) (entry : CorpusEntry Stmt) (score : F64) :
    Bounded caps (c.insert entry score) ∧ (c.insert entry score).hotCap = c.hotCap := by
  have hdisk : Bounded caps { c with diskCache := (StorageBackend.write c.diskCache entry.id entry.raw.ast).2 } :=
    h.of_steady ⟨rfl, rfl, rfl, fun _ h => h⟩ ⟨h.pos, h.size, h.queued⟩
  -- there is room for one more in the first tier
  have hroom : ∃ c₁, (if c.inFlight.len ≥ c.caps.inFlightCap then
      DynamicCorpus.evictInFlight { c with diskCache := (StorageBackend.write c.diskCache entry.id entry.raw.ast).2 }
      else { c with diskCache := (StorageBackend.write c.diskCache entry.id entry.raw.ast).2 }) = c₁ ∧
      Bounded caps c₁ ∧ c₁.hotCap = c.hotCap ∧ c₁.inFlight.len < caps.inFlightCap := by
    split
    · rename_i hfull
      rw [h.caps_eq] at hfull
      obtain ⟨hb, hcap, hlt⟩ := hdisk.evictInFlight
      exact ⟨_, rfl, hb, hcap, lt_of_lt_of_le (hlt (hpos.trans_le hfull)) h.inFlight⟩
    · rename_i hfull
      rw [h.caps_eq] at hfull
      exact ⟨_, rfl, hdisk, rfl, not_le.1 hfull⟩
  obtain ⟨c₁, heq, hb, hcap, hlt⟩ := hroom
  unfold DynamicCorpus.insert
  simp only [heq]
  have hlen := IndexMap.len_insert_le c₁.inFlight entry.id entry.raw.ast
  exact ⟨⟨⟨hb.pos, hb.size, hb.queued⟩, hb.caps_eq, hlen.trans hlt, hb.init_le, hb.le_cap⟩, hcap⟩

/-- **Every operation keeps the bounds**, and lowers no cap. -/
theorem Bounded.step (h : Bounded caps c) (hpos : 0 < caps.inFlightCap) {op : CorpusOp Stmt}
    (hs : CorpusOp.step c op = some c') : Bounded caps c' ∧ c.hotCap ≤ c'.hotCap := by
  cases hs
  cases op with
  | insert entry score => exact ⟨(h.insert hpos entry score).1, (h.insert hpos entry score).2.ge⟩
  | get id => exact ⟨(h.get id).1, (h.get id).2.ge⟩
  | update id score => exact ⟨(h.update id score).1, (h.update id score).2.ge⟩
  | remove id => exact ⟨(h.remove id).1, (h.remove id).2.ge⟩
  | resize => exact h.resize
  | clear => exact ⟨h.clear.1, h.clear.2.ge⟩

/-- The bounds of the source. -/
structure CacheBounds (c : DynamicCorpus Stmt B Q) : Prop where
  inFlight : c.inFlight.len ≤ 2 ^ 11
  hot : HashMap.size c.hot ≤ c.hotCap
  init_le : 2 ^ 14 ≤ c.hotCap
  le_cap : c.hotCap ≤ 2 ^ 17
  queued : ∀ id, (c.hot.lookup id).isSome → (getPriority c.hotEviction id).isSome

/-- **The cache bounds hold on every path**: after any operations, over any storage, and the next one lowers no cap. -/
theorem cacheBounds (order : HashOrder ID) (disk : B) (ops : List (CorpusOp Stmt)) :
    ∃ c, run CorpusOp.step (new (.source order) disk : DynamicCorpus Stmt B Q) ops = some c ∧ CacheBounds c ∧
      ∀ op c', CorpusOp.step c op = some c' → c.hotCap ≤ c'.hotCap := by
  have hnew : Bounded (.source order) (new (.source order) disk : DynamicCorpus Stmt B Q) :=
    .new (by simp [Caps.source]) (by simp [Caps.source]) disk
  have hpos : 0 < (Caps.source order).inFlightCap := by simp [Caps.source]
  obtain ⟨c, hrun, hc⟩ := exists_run (I := Bounded (.source order)) (F := fun _ _ => True)
    (fun c op h _ => ⟨_, rfl, (h.step hpos rfl).1⟩) hnew (allSteps_of_forall fun _ _ _ => trivial)
  exact ⟨c, hrun, ⟨hc.inFlight, hc.size, hc.init_le, hc.le_cap, hc.queued⟩, fun _ _ hs => (hc.step hpos hs).2⟩

/-- An entry that gets scored twice, and is inserted again. -/
theorem cacheBounds_insertUpdate :
    let entry : CorpusEntry Nat := ⟨⟨⟨1⟩, [], [7]⟩, .default⟩
    ∃ c, run CorpusOp.step
        (new (.source (.sorted ID)) .new : DynamicCorpus Nat (InMemory (AST Nat)) (ListQueue ID F64.Reverse))
        [.insert entry .nan, .update ⟨1⟩ (.fin 3), .update ⟨1⟩ (.fin 2), .insert entry .posInf] = some c ∧
      CacheBounds c := by
  intro entry
  obtain ⟨c, hrun, hbounds, -⟩ := cacheBounds (Q := ListQueue ID F64.Reverse) (.sorted ID)
    (InMemory.new : InMemory (AST Nat))
    [.insert entry .nan, .update ⟨1⟩ (.fin 3), .update ⟨1⟩ (.fin 2), .insert entry .posInf]
  exact ⟨c, hrun, hbounds⟩

end Lsf.Engine.DynamicCorpus
