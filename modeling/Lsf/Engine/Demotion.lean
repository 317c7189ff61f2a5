import Lsf.Engine.Located
import Lsf.Engine.RepInvariant
import Lsf.Engine.ShardedDiskCache

/-!
# Demotions over storage that does not overwrite

`insert` writes every entry to the backend, and `moveToDisk` writes it once more. Over `CreateNew` storage the second
write fails: the AST has been taken out of its tier, the tag still names that tier, and the error is dropped
(`settle_loses`). So the entries of a corpus stay retrievable along a run exactly when no operation demotes an entry,
that is when no entry leaves the first tier while the cache is full (`retrievable_iff`).
-/

namespace Lsf.Engine.DynamicCorpus

open Lsf.Core Lsf.Lib PriorityQueue

variable {Stmt B Q : Type} [StorageBackend B Stmt] [PriorityQueue Q ID F64.Reverse]

/-- Every id of the index is found, with its AST. -/
def Retrievable (astOf : ID → AST Stmt) (c : DynamicCorpus Stmt B Q) : Prop :=
  ∀ i ∈ c.ids, ∃ entry, (c.get i).1 = some entry ∧ entry.raw.ast = astOf i

/-- Insertions of new ids whose first write succeeds, reads, updates and resizings. -/
def Admissible (astOf : ID → AST Stmt) (c : DynamicCorpus Stmt B Q) : CorpusOp Stmt → Prop
  | .insert entry _ => c.index.lookup entry.id = none ∧ entry.raw.ast = astOf entry.id ∧
      (StorageBackend.write c.diskCache entry.id entry.raw.ast).1 = .ok ()
  | .remove _ => False
  | .clear => False
  | _ => True

/-- An entry leaves the first tier, pushed out by an insertion or at the end of its grace period, and the cache is
full. -/
def Demotes (c : DynamicCorpus Stmt B Q) : CorpusOp Stmt → Prop
  | .insert _ _ => c.caps.inFlightCap ≤ c.inFlight.len ∧ 0 < c.inFlight.len ∧ HotFull c
  | .update i _ => ∃ data round, c.index.lookup i = some data ∧ data.cached = .inFlight round ∧
      gracePeriod < round + 1 ∧ HotFull c
  | _ => False

/-- The state of a corpus that has demoted nothing. -/
structure Undemoted (astOf : ID → AST Stmt) (c : DynamicCorpus Stmt B Q) : Prop where
  rep : Rep c
  inMemory : ∀ i data, c.index.lookup i = some data → data.cached ≠ .disk
  written : ∀ i, (c.index.lookup i).isSome → (stored c.diskCache i).isSome
  pure : ∀ i a, c.inFlight.get i = some a ∨ c.hot.lookup i = some a → a = astOf i

variable {astOf : ID → AST Stmt} {c : DynamicCorpus Stmt B Q} {i j : ID} {a : AST Stmt}

/-! ## Without a demotion -/

section Queue

variable [LawfulPriorityQueue Q]

/-- While the cache is not full nothing is evicted. -/
theorem evictCachedIf_of_not_full (h : RepOff c i) (hfull : ¬HotFull c) (cond : F64 → Bool) :
    c.evictCachedIf cond = (true, c) := by
  have hE := c.evicts cond
  have hqueue : ∀ {w p q}, c.hotCap ≤ HashMap.size c.hot → pop c.hotEviction ≠ some ((w, p), q) := by
    intro w p q hcap hpop
    refine hfull ⟨hcap, HashMap.size_pos_iff.2 ⟨w, ?_⟩⟩
    -- what is queued is in the cache
    have hp : (view c w).priority = some p := pop_mem _ _ _ _ hpop
    have hw : w ≠ i := by
      rintro rfl
      rw [h.away.priority] at hp
      cases hp
    obtain ⟨data, hd, hc, -, -⟩ := (h.others w hw).of_queued hp
    exact (h.others w hw).hot.2 ⟨data, hd, hc⟩
  generalize c.evictCachedIf cond = r at hE ⊢
  cases hE with
  | room => rfl
  | empty => rfl
  | evict hcap hpop => exact absurd hpop (hqueue hcap)
  | keep hcap hpop => exact absurd hpop (hqueue hcap)

theorem settle_of_not_full (h : RepOff c i) (hfull : ¬HotFull c) (score : F64) :
    c.settle i a score = c.placeHot i a := by
  unfold settle
  rw [evictCachedIf_of_not_full h hfull]
  dsimp only
  unfold moveToCache
  rw [evictCachedIf_of_not_full h hfull, ite_self]

end Queue

theorem Undemoted.retrievable (h : Undemoted astOf c) : Retrievable astOf c := by
  intro i hi
  obtain ⟨data, hd⟩ := Option.isSome_iff_exists.1 (HashMap.mem_keySet.1 hi)
  rw [get_fst, hd, Option.bind_some]
  cases hc : data.cached with
  | inFlight r =>
    obtain ⟨ast, ha⟩ := Option.isSome_iff_exists.1 ((h.rep i).inFlight.2 ⟨data, r, hd, hc⟩)
    exact ⟨_, congrArg (Option.map _) ha, h.pure i ast (.inl ha)⟩
  | hot =>
    obtain ⟨ast, ha⟩ := Option.isSome_iff_exists.1 ((h.rep i).hot.2 ⟨data, hd, hc⟩)
    exact ⟨_, congrArg (Option.map _) ha, h.pure i ast (.inr ha)⟩
  | disk => exact absurd hc (h.inMemory i data hd)

/-- What cannot be located is not retrievable. -/
theorem Retrievable.located (h : Retrievable astOf c) (i : ID) : Located c i := by
  intro data hd
  obtain ⟨entry, he, -⟩ := h i (HashMap.mem_keySet.2 (by rw [hd]; rfl))
  rw [get_fst, hd, Option.bind_some] at he
  obtain ⟨ast, ha, -⟩ := Option.map_eq_some_iff.1 he
  rw [ha]
  rfl

section Good

variable [LawfulPriorityQueue Q]

/-- An entry that moves up into the cache. -/
theorem Undemoted.placeHot (hoff : RepOff c i) (hmem : ∀ j data, j ≠ i → c.index.lookup j = some data → data.cached ≠ .disk)
    (hwritten : ∀ j, (c.index.lookup j).isSome → (stored c.diskCache j).isSome)
    (hpure : ∀ j b, c.inFlight.get j = some b ∨ c.hot.lookup j = some b → b = astOf j) (ha : a = astOf i) :
    Undemoted astOf (c.placeHot i a) where
  rep := hoff.placeHot a
  inMemory j data hd := by
    have hv := view_placeHot c i j a
    have hdata : (c.placeHot i a).index.lookup j = _ := congrArg View.data hv
    rw [hdata] at hd
    split at hd
    · simp only [View.placed, View.tagged] at hd
      obtain ⟨data', -, rfl⟩ := Option.map_eq_some_iff.1 hd
      exact fun h => by cases h
    · next hj => exact hmem j data hj hd
  written j hj := by
    have hcore : (c.placeHot i a).core j = c.core j := core_placeHot
    rw [diskCache_placeHot]
    refine hwritten j ?_
    have hsome := congrArg Option.isSome hcore
    unfold core at hsome
    rw [Option.isSome_map, Option.isSome_map] at hsome
    rw [← hsome]
    exact hj
  pure j b hb := by
    have hv := view_placeHot c i j a
    have hfl : (c.placeHot i a).inFlight.get j = _ := congrArg View.inFlight hv
    have hhot : (c.placeHot i a).hot.lookup j = _ := congrArg View.hot hv
    rw [hfl, hhot] at hb
    split at hb
    · next hj =>
      subst hj
      rcases hb with hb | hb
      · exact hpure j b (.inl hb)
      · cases hb
        exact ha
    · exact hpure j b hb

/-- **Leaving the first tier** while the cache is not full. -/
theorem Undemoted.settle {data : EntryData} {r : UInt8} (h : Undemoted astOf c) (hd : c.index.lookup i = some data)
    (hc : data.cached = .inFlight r) (ha : c.inFlight.get i = some a) (hfull : ¬HotFull c) (score : F64) :
    Undemoted astOf ({ c with inFlight := c.inFlight.erase i }.settle i a score) := by
  have hoff := h.rep.shiftRemove hd hc
  rw [settle_of_not_full hoff hfull]
  refine Undemoted.placeHot hoff (fun j data _ hd => h.inMemory j data hd) h.written (fun j b hb => ?_)
    (h.pure i a (.inl ha))
  refine h.pure j b (hb.imp_left fun hb => ?_)
  simp only [IndexMap.get_erase] at hb
  split at hb
  · cases hb
  · exact hb

theorem Undemoted.evictInFlight (h : Undemoted astOf c) (hfull : 0 < c.inFlight.len → ¬HotFull c) :
    Undemoted astOf c.evictInFlight := by
  unfold DynamicCorpus.evictInFlight
  split
  · exact h
  · next k ast rest hrest =>
    have hlen : 0 < c.inFlight.len := by
      by_contra hlen
      rw [IndexMap.shiftRemoveIndex_eq_none.2 (by omega)] at hrest
      cases hrest
    obtain ⟨hk, rfl⟩ := IndexMap.shiftRemoveIndex_eq_some hrest
    obtain ⟨data, r, hd, hc⟩ := (h.rep k).inFlight.1 (by rw [view_inFlight, hk]; rfl)
    rw [view_data] at hd
    simp only [hd]
    exact h.settle hd hc hk (hfull hlen) _

theorem Undemoted.insert [LawfulStorage B] (h : Undemoted astOf c) {entry : CorpusEntry Stmt} {score : F64}
    (hadm : Admissible astOf c (.insert entry score)) (hno : ¬Demotes c (.insert entry score)) :
    Undemoted astOf (c.insert entry score) := by
  obtain ⟨hi, hast, hok⟩ := hadm
  have hwrite : Undemoted astOf
      { c with diskCache := (StorageBackend.write c.diskCache entry.id entry.raw.ast).2 } :=
    ⟨h.rep.congr fun _ => rfl, h.inMemory, fun j hj => stored_write_isSome_of_isSome (h.written j hj), h.pure⟩
  -- the corpus after making room, in which the entry is stored already
  have hroom : ∃ c' : DynamicCorpus Stmt B Q, Undemoted astOf c' ∧ c'.index.lookup entry.id = none ∧
      (stored c'.diskCache entry.id).isSome ∧ c.insert entry score = { c' with
        inFlight := c'.inFlight.insert entry.id entry.raw.ast
        index := c'.index.insert entry.id ⟨entry.raw.parents, entry.metadata, score, .inFlight 0⟩ } := by
    unfold DynamicCorpus.insert
    dsimp only
    split
    · next hcap =>
      refine ⟨_, hwrite.evictInFlight fun hlen hfull => hno ⟨hcap, hlen, hfull⟩, ?_, ?_, rfl⟩
      · exact index_evictInFlight_none hi
      · exact stored_evictInFlight (stored_write_isSome hok)
    · exact ⟨_, hwrite, hi, stored_write_isSome hok, rfl⟩
  obtain ⟨c', h', hi', hst, heq⟩ := hroom
  rw [heq]
  refine ⟨h'.rep.arrive hi' _ (r := 0) rfl, fun j data hd => ?_, fun j hj => ?_, fun j b hb => ?_⟩
  · simp only [HashMap.lookup_insert_iff] at hd
    split at hd
    · cases hd
      exact fun h => by cases h
    · exact h'.inMemory j data hd
  · simp only [HashMap.lookup_insert_iff] at hj
    split at hj
    · next hji => rw [hji]; exact hst
    · exact h'.written j hj
  · simp only [IndexMap.get_insert] at hb
    rcases hb with hb | hb
    · split at hb
      · next hji => cases hb; rw [hji]; exact hast
      · exact h'.pure j b (.inl hb)
    · exact h'.pure j b (.inr hb)

omit [LawfulPriorityQueue Q] in
theorem Undemoted.get (h : Undemoted astOf c) (i : ID) : Undemoted astOf (c.get i).2 := by
  unfold DynamicCorpus.get
  split
  · exact h
  · next data hd =>
    dsimp only
    split
    · exact ⟨h.rep.congr fun _ => rfl, h.inMemory, h.written, h.pure⟩
    · exact ⟨h.rep.congr fun _ => rfl, h.inMemory, h.written, h.pure⟩
    · next hc => exact absurd hc (h.inMemory i data hd)

omit [LawfulPriorityQueue Q] in
/-- Scoring an entry in flight. -/
theorem Undemoted.scored {data : EntryData} {r : UInt8} (h : Undemoted astOf c) (hd : c.index.lookup i = some data)
    (hc : data.cached = .inFlight r) (score : F64) (r' : UInt8) :
    Undemoted astOf (setCached { c with index := c.index.insert i { data with score := score } } i (.inFlight r')) := by
  have hrep : Rep { c with index := c.index.insert i { data with score := score } } :=
    h.rep.rescore hd score (by rw [hc]; simp)
  refine ⟨hrep.setRound (AList.lookup_insert _) hc r', fun j d hj => ?_, fun j hj => h.written j ?_, h.pure⟩
  · by_cases hji : j = i
    · subst hji
      rw [index_scored] at hj
      cases hj
      exact fun h => by cases h
    · simp only [setCached, HashMap.lookup_modify, HashMap.lookup_insert_iff, if_neg hji] at hj
      exact h.inMemory j d hj
  · by_cases hji : j = i
    · rw [hji, hd]
      rfl
    · simp only [setCached, HashMap.lookup_modify, HashMap.lookup_insert_iff, if_neg hji] at hj
      exact hj

theorem Undemoted.update (h : Undemoted astOf c) {score : F64} (hno : ¬Demotes c (.update i score)) :
    Undemoted astOf (c.update i score) := by
  unfold DynamicCorpus.update
  split
  · exact h
  · next data hd =>
    dsimp only
    split
    · next r hc =>
      have hscored := h.scored hd hc score (r + 1)
      split
      · next hgrace =>
        split
        · next ast rest hrest =>
          obtain ⟨hget, rfl⟩ := IndexMap.shiftRemove_eq_some.1 hrest
          exact hscored.settle (index_scored c data score (r + 1)) rfl hget
            (fun hfull => hno ⟨data, r, hd, hc, hgrace, hfull⟩) score
        · exact hscored
      · exact hscored
    · next hc => exact absurd hc (h.inMemory i data hd)
    · next hc =>
      refine ⟨h.rep.rescore_hot hd score hc, fun j d hj => ?_, fun j hj => h.written j ?_, h.pure⟩
      · simp only [reprioritize, HashMap.lookup_insert_iff] at hj
        split at hj
        · cases hj
          exact h.inMemory i data hd
        · exact h.inMemory j d hj
      · simp only [reprioritize, HashMap.lookup_insert_iff] at hj
        split at hj
        · next hji => rw [hji, hd]; rfl
        · exact hj

omit [LawfulPriorityQueue Q] in
theorem Undemoted.resize (h : Undemoted astOf c) : Undemoted astOf c.resize := by
  unfold DynamicCorpus.resize
  split
  · exact h
  · exact ⟨h.rep.congr fun _ => rfl, h.inMemory, h.written, h.pure⟩

end Good

/-! ## A demotion -/

theorem not_located_inFlight {data : EntryData} {r : UInt8} (hd : (view c i).data = some data)
    (hc : data.cached = .inFlight r) (hno : (view c i).inFlight = none) : ¬Located c i := by
  intro h
  have hsome := h data hd
  rw [hc] at hsome
  change (view c i).inFlight.isSome at hsome
  rw [hno] at hsome
  cases hsome

theorem not_located_hot {data : EntryData} (hd : (view c i).data = some data) (hc : data.cached = .hot)
    (hno : (view c i).hot = none) : ¬Located c i := by
  intro h
  have hsome := h data hd
  rw [hc] at hsome
  change (view c i).hot.isSome at hsome
  rw [hno] at hsome
  cases hsome

/-- The update at the end of the grace period. -/
theorem update_of_grace {data : EntryData} {r : UInt8} (hd : c.index.lookup i = some data)
    (hc : data.cached = .inFlight r) (hgrace : gracePeriod < r + 1) (hget : c.inFlight.get i = some a) (score : F64) :
    c.update i score = settle { setCached { c with index := c.index.insert i { data with score := score } } i
      (.inFlight (r + 1)) with inFlight := c.inFlight.erase i } i a score := by
  unfold update
  rw [hd]
  dsimp only
  split
  · next r' hc' =>
    rw [hc] at hc'
    cases hc'
    rw [if_pos hgrace, inFlight_setCached, IndexMap.shiftRemove_eq_some.2 ⟨hget, rfl⟩]
  · next hc' => rw [hc] at hc'; cases hc'
  · next hc' => rw [hc] at hc'; cases hc'

section Bad

variable [LawfulPriorityQueue Q] [CreateNew B]

/-- **A demotion loses an entry**: the one that leaves the cache, or else the one that was to enter it. -/
theorem settle_loses {data : EntryData} {r : UInt8} (hoff : RepOff c i) (hd : c.index.lookup i = some data)
    (hc : data.cached = .inFlight r) (hwritten : ∀ j, (c.index.lookup j).isSome → (stored c.diskCache j).isSome)
    (hfull : HotFull c) (score : F64) :
    ∃ j, (c.index.lookup j).isSome ∧ ¬Located (c.settle i a score) j := by
  obtain ⟨hcap, hpos⟩ := hfull
  -- the cache is not empty, so the queue has a head, and the head is in the cache
  obtain ⟨k, hk⟩ := HashMap.size_pos_iff.1 hpos
  have hki : k ≠ i := by
    rintro rfl
    rw [show c.hot.lookup k = none from hoff.away.hot] at hk
    cases hk
  obtain ⟨dk, hdk, hck⟩ := (hoff.others k hki).hot.1 hk
  have hqueued : (getPriority c.hotEviction k).isSome :=
    Option.isSome_iff_exists.2 ⟨_, ((hoff.others k hki).queued _).2 ⟨dk, hdk, hck, rfl⟩⟩
  obtain ⟨w, p, q, hpop⟩ := exists_pop hqueued
  have hp : (view c w).priority = some p := pop_mem _ _ _ _ hpop
  have hwi : w ≠ i := by
    rintro rfl
    rw [hoff.away.priority] at hp
    cases hp
  obtain ⟨dw, hdw, hcw, -, -⟩ := (hoff.others w hwi).of_queued hp
  have hE := c.evicts fun cached => cached.ltIeee score
  unfold settle
  generalize c.evictCachedIf (fun cached => cached.ltIeee score) = r at hE ⊢
  cases hE with
  | room h => omega
  | empty _ hnone => rw [hpop] at hnone; cases hnone
  | keep _ hpop' _ =>
    -- the new entry goes to disk, and the write fails
    rw [hpop] at hpop'
    cases hpop'
    obtain ⟨e, he⟩ := CreateNew.write_error c.diskCache i a (hwritten i (by rw [hd]; rfl))
    have hv : view (moveToDisk { c with hotEviction := pushIncrease q w p } i a).2 i = view c i :=
      (view_moveToDisk_error (c := { c with hotEviction := pushIncrease q w p }) he i).trans (view_putBack hpop i)
    exact ⟨i, by rw [hd]; rfl, not_located_inFlight (by rw [hv]; exact hd) hc (by rw [hv]; exact hoff.away.inFlight)⟩
  | @evict _ _ _ b' _ hpop' _ hw =>
    -- the head of the queue goes to disk, and the write fails; the new entry takes its place in the cache
    rw [hpop] at hpop'
    cases hpop'
    have hdw' : c.index.lookup w = some dw := hdw
    obtain ⟨e, he⟩ := CreateNew.write_error c.diskCache w b' (hwritten w (by rw [hdw']; rfl))
    have hv : view ((c.takeHot q w).moveToDisk w b').2 w = (view c w).taken := by
      rw [view_moveToDisk_error (c := c.takeHot q w) he, view_takeHot hpop, if_pos rfl]
    have hv' : view (((c.takeHot q w).moveToDisk w b').2.moveToCache i a) w = (view c w).taken := by
      rw [view_moveToCache_of_not_queued hwi (by rw [hv]; rfl), hv]
    exact ⟨w, by rw [hdw']; rfl, not_located_hot (by rw [hv']; exact hdw) hcw (by rw [hv']; rfl)⟩

/-- An insertion that pushes an entry out of flight loses one. -/
theorem Undemoted.not_retrievable_insert {entry : CorpusEntry Stmt} {score : F64} (h : Undemoted astOf c)
    (hadm : Admissible astOf c (.insert entry score)) (hdem : Demotes c (.insert entry score)) :
    ¬Retrievable astOf (c.insert entry score) := by
  intro hret
  obtain ⟨hi, -, hok⟩ := hadm
  obtain ⟨hcap, hlen, hfull⟩ := hdem
  -- the entry that is pushed out
  obtain ⟨⟨⟨k, ast⟩, rest⟩, hrest⟩ : ∃ x, c.inFlight.shiftRemoveIndex 0 = some x :=
    Option.ne_none_iff_exists'.1 fun hnone => by have := IndexMap.shiftRemoveIndex_eq_none.1 hnone; omega
  obtain ⟨hk, rfl⟩ := IndexMap.shiftRemoveIndex_eq_some hrest
  obtain ⟨data, r, hd, hc⟩ := (h.rep k).inFlight.1 (by rw [view_inFlight, hk]; rfl)
  rw [view_data] at hd
  have hoff : RepOff { c with
      diskCache := (StorageBackend.write c.diskCache entry.id entry.raw.ast).2
      inFlight := c.inFlight.erase k } k := (h.rep.shiftRemove hd hc).congr fun _ => rfl
  obtain ⟨j, hj, hlost⟩ := settle_loses (a := ast) hoff hd hc
    (fun j hj => stored_write_isSome_of_isSome (h.written j hj)) hfull data.score
  refine hlost ?_
  have hne : j ≠ entry.id := by
    rintro rfl
    rw [show c.index.lookup entry.id = none from hi] at hj
    cases hj
  have hloc := hret.located j
  unfold DynamicCorpus.insert at hloc
  dsimp only at hloc
  rw [if_pos hcap] at hloc
  unfold DynamicCorpus.evictInFlight at hloc
  simp only [hrest, hd] at hloc
  intro d hd'
  have hsome := hloc d (by simp only [HashMap.lookup_insert_iff, if_neg hne]; exact hd')
  revert hsome
  cases d.cached with
  | inFlight r => simp only [astIn, IndexMap.get_insert, if_neg hne]; exact id
  | _ => exact id

/-- An update that ends a grace period loses an entry. -/
theorem Undemoted.not_retrievable_update {i : ID} {score : F64} (h : Undemoted astOf c)
    (hdem : Demotes c (.update i score : CorpusOp Stmt)) : ¬Retrievable astOf (c.update i score) := by
  intro hret
  obtain ⟨data, r, hd, hc, hgrace, hfull⟩ := hdem
  have hscored := h.scored hd hc score (r + 1)
  obtain ⟨ast, hget⟩ := Option.isSome_iff_exists.1 ((h.rep i).inFlight.2 ⟨data, r, hd, hc⟩)
  obtain ⟨j, -, hlost⟩ := settle_loses (a := ast) (hscored.rep.shiftRemove (index_scored c data score (r + 1)) rfl)
    (index_scored c data score (r + 1)) rfl hscored.written hfull score
  refine hlost ?_
  have hloc := hret.located j
  rw [update_of_grace hd hc hgrace hget] at hloc
  exact hloc

theorem Undemoted.not_retrievable_step {op : CorpusOp Stmt} (h : Undemoted astOf c) (hadm : Admissible astOf c op)
    (hdem : Demotes c op) : ¬Retrievable astOf (op.apply c).2 := by
  cases op with
  | insert entry score => exact h.not_retrievable_insert hadm hdem
  | update i score => exact h.not_retrievable_update hdem
  | _ => exact hdem.elim

end Bad

/-! ## Runs -/

section Runs

variable [LawfulPriorityQueue Q] [CreateNew B]

theorem Undemoted.step {op : CorpusOp Stmt} {c' : DynamicCorpus Stmt B Q} (h : Undemoted astOf c)
    (hadm : Admissible astOf c op) (hno : ¬Demotes c op) (hstep : CorpusOp.step c op = some c') :
    Undemoted astOf c' := by
  cases hstep
  cases op with
  | insert entry score => exact h.insert hadm hno
  | get i => exact h.get i
  | update i score => exact h.update hno
  | remove i => exact absurd hadm id
  | resize => exact h.resize
  | clear => exact absurd hadm id

omit [CreateNew B] in
theorem Undemoted.new (astOf : ID → AST Stmt) (caps : Caps) (disk : B) :
    Undemoted astOf (DynamicCorpus.new caps disk : DynamicCorpus Stmt B Q) := by
  refine ⟨Rep.new caps disk, fun i data hd => ?_, fun i hi => ?_, fun i a ha => ?_⟩
  · cases hd
  · cases hi
  · rcases ha with ha | ha <;> cases ha

/-- The rule for any storage that does not overwrite. -/
theorem retrievable_iff_of_createNew (astOf : ID → AST Stmt) (caps : Caps) (disk : B) (ops : List (CorpusOp Stmt))
    (hops : AllSteps CorpusOp.step (Admissible astOf) (DynamicCorpus.new caps disk : DynamicCorpus Stmt B Q) ops) :
    AllStates CorpusOp.step (Retrievable astOf) (DynamicCorpus.new caps disk : DynamicCorpus Stmt B Q) ops ↔
      AllSteps CorpusOp.step (fun c op => ¬Demotes c op) (DynamicCorpus.new caps disk : DynamicCorpus Stmt B Q) ops :=
  allStates_iff_allSteps (I := Undemoted astOf) (fun _ h => h.retrievable)
    (fun _ _ _ h hadm hno hstep => h.step hadm hno hstep)
    (fun _ _ h hadm hdem => ⟨_, rfl, h.not_retrievable_step hadm (not_not.1 hdem)⟩) (Undemoted.new astOf caps disk) hops

end Runs

/-- **Exactly when a corpus over the sharded disk cache keeps its entries**: along a run of insertions of new ids, reads,
updates and resizings every id stays retrievable with its AST if and only if no operation demotes an entry. -/
theorem retrievable_iff {Stmt Q : Type} [SqlText Stmt] [LawfulSqlText Stmt] [PriorityQueue Q ID F64.Reverse]
    [LawfulPriorityQueue Q] (astOf : ID → AST Stmt) (caps : Caps) (disk : ShardedDiskCache Stmt)
    (ops : List (CorpusOp Stmt))
    (hops : AllSteps CorpusOp.step (Admissible astOf) (DynamicCorpus.new caps disk : DynamicCorpus Stmt _ Q) ops) :
    AllStates CorpusOp.step (Retrievable astOf) (DynamicCorpus.new caps disk : DynamicCorpus Stmt _ Q) ops ↔
      AllSteps CorpusOp.step (fun c op => ¬Demotes c op) (DynamicCorpus.new caps disk : DynamicCorpus Stmt _ Q) ops :=
  retrievable_iff_of_createNew astOf caps disk ops hops

/-- Two entries, one of which moves up into the cache. -/
theorem retrievable_iff_two :
    let astOf : ID → AST Unit := fun i => List.replicate i.raw.toNat ()
    let entry (n : UInt32) : CorpusEntry Unit := ⟨⟨⟨n⟩, [], astOf ⟨n⟩⟩, .default⟩
    let corpus : DynamicCorpus Unit (ShardedDiskCache Unit) (ListQueue ID F64.Reverse) :=
      .new ⟨1, 1, 1, .sorted ID⟩ (.new ∅ ∅)
    let ops : List (CorpusOp Unit) := [.insert (entry 1) (.fin 1), .insert (entry 2) (.fin 2), .get ⟨1⟩]
    AllStates CorpusOp.step (Retrievable astOf) corpus ops ↔
      AllSteps CorpusOp.step (fun c op => ¬Demotes c op) corpus ops :=
  retrievable_iff _ _ _ _ ⟨⟨rfl, rfl, by decide⟩, fun _ h₁ => by
    cases h₁
    exact ⟨⟨rfl, rfl, by decide⟩, fun _ h₂ => by
      cases h₂
      exact ⟨trivial, fun _ _ => trivial⟩⟩⟩

/-- With tiers of one entry each, the third insertion loses one: the first entry is pushed out of the cache. -/
theorem not_retrievable_three :
    let astOf : ID → AST Unit := fun i => List.replicate i.raw.toNat ()
    let entry (n : UInt32) : CorpusEntry Unit := ⟨⟨⟨n⟩, [], astOf ⟨n⟩⟩, .default⟩
    let corpus : DynamicCorpus Unit (ShardedDiskCache Unit) (ListQueue ID F64.Reverse) :=
      .new ⟨1, 1, 1, .sorted ID⟩ (.new ∅ ∅)
    let ops : List (CorpusOp Unit) :=
      [.insert (entry 1) (.fin 1), .insert (entry 2) (.fin 2), .insert (entry 3) (.fin 3)]
    AllSteps CorpusOp.step (Admissible astOf) corpus ops ∧ ¬AllStates CorpusOp.step (Retrievable astOf) corpus ops := by
  refine ⟨⟨⟨rfl, rfl, by decide⟩, fun _ h₁ => ?_⟩, ?_⟩
  · cases h₁
    refine ⟨⟨rfl, rfl, by decide⟩, fun _ h₂ => ?_⟩
    cases h₂
    exact ⟨⟨rfl, rfl, by decide⟩, fun _ _ => trivial⟩
  · rintro ⟨-, h⟩
    obtain ⟨-, h⟩ := h _ rfl
    obtain ⟨-, h⟩ := h _ rfl
    obtain ⟨entry, he, -⟩ := h _ rfl ⟨1⟩ (by decide)
    exact absurd (Option.isSome_iff_exists.2 ⟨entry, he⟩) (by decide)

end Lsf.Engine.DynamicCorpus
