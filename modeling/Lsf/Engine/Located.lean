import Lsf.Engine.Tiers

/-!
# No entry is lost

`Located c i`: if `i` has data, its tag names a tier that holds an AST of it. Over storage whose writes succeed every
operation of the corpus keeps this of every id (`located_get` … `located_clear`), for any scores, any capacities and
also when an id is inserted twice. `Copy c i a`: some tier holds `a` for `i`; no operation but `insert` makes a copy that
was not there (`copy_get` …), whatever the storage does.
-/

namespace Lsf.Engine.DynamicCorpus

open Lsf.Core Lsf.Lib PriorityQueue

variable {Stmt B Q : Type} [StorageBackend B Stmt] {c c' : DynamicCorpus Stmt B Q} {i j : ID} {a a' : AST Stmt}

/-! ## Entries and their copies -/

/-- The AST that the tier `loc` holds for `i`. -/
def astIn (c : DynamicCorpus Stmt B Q) (i : ID) : CacheLocation → Option (AST Stmt)
  | .inFlight _ => c.inFlight.get i
  | .hot => c.hot.lookup i
  | .disk => stored c.diskCache i

/-- The tag of `i` names a tier that holds it. -/
def Located (c : DynamicCorpus Stmt B Q) (i : ID) : Prop :=
  ∀ data, c.index.lookup i = some data → (c.astIn i data.cached).isSome

/-- Some tier holds `a` for `i`. -/
def Copy (c : DynamicCorpus Stmt B Q) (i : ID) (a : AST Stmt) : Prop :=
  c.inFlight.get i = some a ∨ c.hot.lookup i = some a ∨ stored c.diskCache i = some a

theorem copy_of_astIn {loc : CacheLocation} (h : c.astIn i loc = some a) : Copy c i a := by
  cases loc with
  | inFlight r => exact .inl h
  | hot => exact .inr (.inl h)
  | disk => exact .inr (.inr h)

theorem copy_remove (h : Copy (c.remove i) j a) : Copy c j a := by
  unfold remove at h
  split at h
  · exact h
  · dsimp only at h
    split at h
    · exact h
    · refine h.imp_right fun h => h.imp_left fun h => ?_
      simp only [HashMap.lookup_erase_iff] at h
      split at h
      · cases h
      · exact h
    · exact h

theorem copy_resize (h : Copy c.resize j a) : Copy c j a := by
  unfold resize at h
  split at h
  · exact h
  · exact h

theorem not_copy_clear [ReliableStorage B] : ¬Copy c.clear j a := by
  rintro (h | h | h)
  · cases h
  · cases h
  · have hclear : stored (StorageBackend.clear c.diskCache) j = none := stored_clear _ _
    have h : stored (StorageBackend.clear c.diskCache) j = some a := h
    rw [hclear] at h
    cases h

/-- Only the tag of an entry matters, not its score, nor the round it is in. -/
theorem Located.retag {data : EntryData} (h : Located c j) (hi : c.index.lookup i = some data) (data' : EntryData)
    (hcached : c.astIn i data'.cached = c.astIn i data.cached) :
    Located { c with index := c.index.insert i data' } j := by
  intro d hd
  rw [HashMap.lookup_insert_iff] at hd
  split at hd
  · next hj =>
    subst hj
    cases hd
    have h' := h data hi
    rw [← hcached] at h'
    exact h'
  · exact h d hd

theorem located_remove (h : Located c j) : Located (c.remove i) j := by
  intro d hd
  unfold remove at hd ⊢
  split at hd
  · exact h d hd
  · next data hdata =>
    have hj : j ≠ i ∧ c.index.lookup j = some d := by
      split at hd <;>
      · simp only [HashMap.lookup_erase_iff] at hd
        split at hd
        · cases hd
        · next hj => exact ⟨hj, hd⟩
    have h' := h d hj.2
    revert h'
    split
    · cases d.cached <;> exact id
    · cases d.cached with
      | hot => simp only [astIn, HashMap.lookup_erase_iff, if_neg hj.1]; exact id
      | _ => exact id
    · cases d.cached <;> exact id

theorem located_clear : Located c.clear j := by
  intro d hd
  cases hd

variable [PriorityQueue Q ID F64.Reverse]

/-- **What `get` answers**: the data of the id with the AST in the tier of its tag. -/
theorem get_fst (c : DynamicCorpus Stmt B Q) (i : ID) :
    (c.get i).1 = (c.index.lookup i).bind fun data =>
      (c.astIn i data.cached).map fun ast => ⟨⟨i, data.parents, ast⟩, data.metadata⟩ := by
  unfold get
  cases hd : c.index.lookup i with
  | none => rfl
  | some data =>
    simp only [Option.bind_some]
    cases hc : data.cached with
    | inFlight r => rfl
    | hot => rfl
    | disk =>
      simp only [astIn, stored]
      cases hr : StorageBackend.retrieve c.diskCache i with
      | mk r disk => cases r <;> rfl

theorem Located.get_isSome (h : Located c i) (hi : i ∈ c.ids) : (c.get i).1.isSome := by
  rw [get_fst]
  obtain ⟨data, hd⟩ := Option.isSome_iff_exists.1 (HashMap.mem_keySet.1 hi)
  obtain ⟨ast, ha⟩ := Option.isSome_iff_exists.1 (h data hd)
  rw [hd, Option.bind_some, ha]
  rfl

/-- `Located` is a matter of the view and of what is stored. -/
theorem Located.congr (h : Located c i) (hv : view c' i = view c i)
    (hs : (stored c.diskCache i).isSome → (stored c'.diskCache i).isSome) : Located c' i := by
  have hdata : c'.index.lookup i = c.index.lookup i := congrArg View.data hv
  have hfl : c'.inFlight.get i = c.inFlight.get i := congrArg View.inFlight hv
  have hhot : c'.hot.lookup i = c.hot.lookup i := congrArg View.hot hv
  intro data hd
  have hold := h data (hdata ▸ hd)
  revert hold
  cases data.cached with
  | inFlight r => simp only [astIn, hfl, imp_self]
  | hot => simp only [astIn, hhot, imp_self]
  | disk => exact hs

/-! ## Moving entries -/

theorem copy_placeHot (h : Copy (c.placeHot i a) j a') : Copy c j a' ∨ (j = i ∧ a' = a) := by
  have hfl : (c.placeHot i a).inFlight = c.inFlight := by unfold placeHot; dsimp only; split <;> rfl
  have hhot : (c.placeHot i a).hot = c.hot.insert i a := by unfold placeHot; dsimp only; split <;> rfl
  unfold Copy at h
  rw [hfl, hhot, diskCache_placeHot, HashMap.lookup_insert_iff] at h
  rcases h with h | h | h
  · exact .inl (.inl h)
  · split at h
    · next hj => exact .inr ⟨hj, (Option.some.inj h).symm⟩
    · exact .inl (.inr (.inl h))
  · exact .inl (.inr (.inr h))

theorem located_placeHot_self : Located (c.placeHot i a) i := by
  intro data hd
  unfold placeHot at hd ⊢
  dsimp only at hd ⊢
  split at hd
  · next data₀ hd₀ =>
    simp only [setCached, HashMap.lookup_modify, if_true, hd₀, Option.map_some, Option.some.injEq] at hd
    subst hd
    simp [astIn, setCached]
  · next hd₀ => rw [hd₀] at hd; cases hd

theorem located_reprioritize {score : F64} (h : Located c j) : Located (c.reprioritize i score) j := h

theorem located_resize (h : Located c j) : Located c.resize j := by
  unfold resize
  split
  · exact h
  · exact h.congr rfl id

section Lawful

variable [LawfulStorage B]

omit [PriorityQueue Q ID F64.Reverse] in
theorem copy_moveToDisk (h : Copy (c.moveToDisk i a).2 j a') : Copy c j a' ∨ (j = i ∧ a' = a) := by
  unfold Copy at h
  rw [inFlight_moveToDisk, hot_moveToDisk, diskCache_moveToDisk] at h
  rcases h with h | h | h
  · exact .inl (.inl h)
  · exact .inl (.inr (.inl h))
  · rcases stored_write_cases h with h | h
    · exact .inr h
    · exact .inl (.inr (.inr h))

theorem stored_evictCachedIf (cond : F64 → Bool) (h : (stored c.diskCache j).isSome) :
    (stored (c.evictCachedIf cond).2.diskCache j).isSome := by
  have hE := c.evicts cond
  generalize c.evictCachedIf cond = r at hE ⊢
  cases hE with
  | evict => simp only [diskCache_moveToDisk]; exact stored_write_isSome_of_isSome h
  | _ => exact h

theorem stored_settle (a : AST Stmt) (score : F64) (h : (stored c.diskCache j).isSome) :
    (stored (c.settle i a score).diskCache j).isSome := by
  have hE := stored_evictCachedIf (fun cached => cached.ltIeee score) h
  unfold settle
  split
  · next c' he =>
    rw [he] at hE
    unfold moveToCache
    rw [diskCache_placeHot]
    split
    · exact stored_evictCachedIf _ hE
    · exact hE
  · next c' he =>
    rw [he] at hE
    rw [diskCache_moveToDisk]
    exact stored_write_isSome_of_isSome hE

/-- Making room in the first tier loses nothing that is stored. -/
theorem stored_evictInFlight (h : (stored c.diskCache j).isSome) : (stored c.evictInFlight.diskCache j).isSome := by
  unfold evictInFlight
  split
  · exact h
  · split
    · exact stored_settle _ _ h
    · rw [diskCache_moveToDisk]
      exact stored_write_isSome_of_isSome h

/-- An eviction makes no new copy: the AST it writes is the one in the cache. -/
theorem copy_evictCachedIf {cond : F64 → Bool} (h : Copy (c.evictCachedIf cond).2 j a) : Copy c j a := by
  have hE := c.evicts cond
  generalize c.evictCachedIf cond = r at hE h
  cases hE with
  | @evict w p q b hfull hpop hcond hw =>
    rcases copy_moveToDisk h with hq | ⟨rfl, rfl⟩
    · refine hq.imp_right fun hq => hq.imp_left fun hq => ?_
      simp only [takeHot, HashMap.lookup_erase_iff] at hq
      split at hq
      · cases hq
      · exact hq
    · exact .inr (.inl hw)
  | _ => exact h

theorem copy_moveToCache (h : Copy (c.moveToCache i a) j a') : Copy c j a' ∨ (j = i ∧ a' = a) := by
  unfold moveToCache at h
  refine (copy_placeHot h).imp_left fun h => ?_
  split at h
  · exact copy_evictCachedIf h
  · exact h

theorem copy_settle {score : F64} (h : Copy (c.settle i a score) j a') : Copy c j a' ∨ (j = i ∧ a' = a) := by
  have hE : ∀ {b}, Copy (c.evictCachedIf fun cached => cached.ltIeee score).2 j b → Copy c j b := copy_evictCachedIf
  unfold settle at h
  split at h
  · next c' he => rw [he] at hE; exact (copy_moveToCache h).imp_left hE
  · next c' he => rw [he] at hE; exact (copy_moveToDisk h).imp_left hE

theorem copy_evictInFlight (h : Copy c.evictInFlight j a) : Copy c j a := by
  unfold evictInFlight at h
  split at h
  · exact h
  · next k ast rest hrest =>
    obtain ⟨hk, rfl⟩ := IndexMap.shiftRemoveIndex_eq_some hrest
    -- the copies of the corpus without the entry, and the entry itself
    have hcopy : Copy { c with inFlight := c.inFlight.erase k } j a ∨ (j = k ∧ a = ast) → Copy c j a := by
      rintro (hq | ⟨rfl, rfl⟩)
      · refine hq.imp_left fun hq => ?_
        simp only [IndexMap.get_erase] at hq
        split at hq
        · cases hq
        · exact hq
      · exact .inl hk
    split at h
    · exact hcopy (copy_settle h)
    · exact hcopy (copy_moveToDisk h)

theorem copy_get (h : Copy (c.get i).2 j a) : Copy c j a := by
  unfold get at h
  split at h
  · exact h
  · dsimp only at h
    split at h
    · exact h
    · exact h
    · have hst : stored (StorageBackend.retrieve c.diskCache i).2 j = stored c.diskCache j := stored_retrieve _ _ _
      split at h
      · next e disk he =>
        rw [he] at hst
        exact h.imp_right fun h => h.imp_right fun h => hst ▸ h
      · next ast disk he =>
        rw [he] at hst
        have hcopy : Copy { c with diskCache := disk } j a → Copy c j a :=
          fun h => h.imp_right fun h => h.imp_right fun h => hst ▸ h
        split at h
        · rcases copy_moveToCache h with h | ⟨rfl, rfl⟩
          · exact hcopy h
          · exact .inr (.inr (stored_of_retrieve_ok (by rw [he])))
        · exact hcopy h

theorem copy_update {score : F64} (h : Copy (c.update i score) j a) : Copy c j a := by
  unfold update at h
  split at h
  · exact h
  · next data hd =>
    dsimp only at h
    split at h
    · split at h
      · split at h
        · next ast rest hrest =>
          obtain ⟨hi, rfl⟩ := IndexMap.shiftRemove_eq_some.1 hrest
          rcases copy_settle h with h | ⟨rfl, rfl⟩
          · refine h.imp_left fun h => ?_
            simp only [IndexMap.get_erase] at h
            split at h
            · cases h
            · exact h
          · exact .inl hi
        · exact h
      · exact h
    · have hE : ∀ {k b}, Copy (evictCachedIf { c with index := c.index.insert i { data with score := score } }
          fun cached => cached.ltIeee score).2 k b → Copy c k b := by
        intro k b h
        have hcopy : Copy { c with index := c.index.insert i { data with score := score } } k b :=
          copy_evictCachedIf h
        exact hcopy
      split at h
      · next c' he =>
        rw [he] at hE
        have hst : ∀ k, stored (StorageBackend.retrieve c'.diskCache i).2 k = stored c'.diskCache k :=
          fun k => stored_retrieve _ _ _
        split at h
        · next ast disk he' =>
          rw [he'] at hst
          rcases copy_moveToCache h with h | ⟨rfl, rfl⟩
          · exact hE (h.imp_right fun h => h.imp_right fun h => hst j ▸ h)
          · exact hE (.inr (.inr (stored_of_retrieve_ok (by rw [he']))))
        · next e disk he' =>
          rw [he'] at hst
          exact hE (h.imp_right fun h => h.imp_right fun h => hst j ▸ h)
      · next c' he => rw [he] at hE; exact hE h
    · exact h

/-- Only an insertion brings in a new AST. -/
theorem copy_insert {entry : CorpusEntry Stmt} {score : F64} (h : Copy (c.insert entry score) j a) :
    Copy c j a ∨ (j = entry.id ∧ a = entry.raw.ast) := by
  have hwrite : Copy { c with diskCache := (StorageBackend.write c.diskCache entry.id entry.raw.ast).2 } j a →
      Copy c j a ∨ (j = entry.id ∧ a = entry.raw.ast) := by
    rintro (h | h | h)
    · exact .inl (.inl h)
    · exact .inl (.inr (.inl h))
    · exact (stored_write_cases h).symm.imp_left fun h => .inr (.inr h)
  have hroom : Copy (if c.inFlight.len ≥ c.caps.inFlightCap then
      evictInFlight { c with diskCache := (StorageBackend.write c.diskCache entry.id entry.raw.ast).2 }
      else { c with diskCache := (StorageBackend.write c.diskCache entry.id entry.raw.ast).2 }) j a →
      Copy c j a ∨ (j = entry.id ∧ a = entry.raw.ast) := by
    split
    · exact fun h => hwrite (copy_evictInFlight h)
    · exact hwrite
  rcases h with h | h
  · simp only [insert, IndexMap.get_insert] at h
    split at h
    · next hj => exact .inr ⟨hj, (Option.some.inj h).symm⟩
    · exact hroom (.inl h)
  · exact hroom (.inr h)

end Lawful

section Reliable

variable [ReliableStorage B]

theorem located_moveToDisk (h : j = i ∨ Located c j) : Located (c.moveToDisk i a).2 j := by
  have hw : (StorageBackend.write c.diskCache i a).1 = .ok () := write_ok _ _ _
  by_cases hj : j = i
  · subst hj
    intro data hd
    rw [moveToDisk_ok hw] at hd ⊢
    simp only [setCached, HashMap.lookup_modify, if_true] at hd
    obtain ⟨data₀, -, rfl⟩ := Option.map_eq_some_iff.1 hd
    exact stored_write_isSome hw
  · refine (h.resolve_left hj).congr ?_ fun hs => ?_
    · rw [view_moveToDisk hw, if_neg hj]
    · rw [diskCache_moveToDisk]
      exact stored_write_isSome_of_isSome hs

/-- Reading from the backend, with the counters at any values. -/
theorem Located.retrieved {r : Except IoError (AST Stmt)} {disk : B} (h : Located c j)
    (he : StorageBackend.retrieve c.diskCache i = (r, disk)) (requests cacheMisses : Nat) :
    Located { c with diskCache := disk, requests := requests, cacheMisses := cacheMisses } j := by
  have hst : stored (StorageBackend.retrieve c.diskCache i).2 j = stored c.diskCache j := stored_retrieve _ _ _
  rw [he] at hst
  exact h.congr rfl fun hs => by rw [hst]; exact hs

variable [LawfulPriorityQueue Q]

omit [ReliableStorage B] in
theorem located_placeHot (h : j = i ∨ Located c j) : Located (c.placeHot i a) j := by
  by_cases hj : j = i
  · subst hj
    exact located_placeHot_self
  · refine (h.resolve_left hj).congr ?_ fun hs => ?_
    · rw [view_placeHot, if_neg hj]
    · rw [diskCache_placeHot]
      exact hs

theorem located_evictCachedIf (cond : F64 → Bool) (h : Located c j) : Located (c.evictCachedIf cond).2 j := by
  have hE := c.evicts cond
  generalize c.evictCachedIf cond = r at hE ⊢
  cases hE with
  | room => exact h
  | empty => exact h
  | keep _ hpop _ => exact h.congr (view_putBack hpop j) id
  | @evict w p q b hfull hpop hcond hw =>
    -- the entry that leaves the cache is the one that goes to disk
    refine located_moveToDisk (or_iff_not_imp_left.2 fun hj => h.congr ?_ id)
    rw [view_takeHot hpop, if_neg hj]

theorem located_moveToCache (h : j = i ∨ Located c j) : Located (c.moveToCache i a) j := by
  refine located_placeHot (h.imp_right fun h => ?_)
  split
  · exact located_evictCachedIf _ h
  · exact h

theorem located_settle {score : F64} (h : j = i ∨ Located c j) : Located (c.settle i a score) j := by
  have hE : Located c j → Located (c.evictCachedIf fun cached => cached.ltIeee score).2 j := located_evictCachedIf _
  unfold settle
  split
  · next c' he => rw [he] at hE; exact located_moveToCache (h.imp_right hE)
  · next c' he => rw [he] at hE; exact located_moveToDisk (h.imp_right hE)

theorem located_evictInFlight (h : Located c j) : Located c.evictInFlight j := by
  unfold evictInFlight
  split
  · exact h
  · next k ast rest hrest =>
    obtain ⟨-, rfl⟩ := IndexMap.shiftRemoveIndex_eq_some hrest
    have hoff : j = k ∨ Located { c with inFlight := c.inFlight.erase k } j := by
      refine or_iff_not_imp_left.2 fun hj => h.congr ?_ id
      simp only [view, IndexMap.get_erase, if_neg hj]
    split
    · exact located_settle hoff
    · exact located_moveToDisk hoff

/-! ## The operations -/

theorem located_get (h : Located c j) : Located (c.get i).2 j := by
  unfold get
  split
  · exact h
  · dsimp only
    split
    · exact h.congr rfl id
    · exact h.congr rfl id
    · split
      · next disk he => exact h.retrieved he _ _
      · next ast disk he =>
        split
        · exact located_moveToCache (.inr (h.retrieved he _ _))
        · exact h.retrieved he _ _

theorem located_update {score : F64} (h : Located c j) : Located (c.update i score) j := by
  unfold update
  split
  · exact h
  · next data hd =>
    have hscore : Located { c with index := c.index.insert i { data with score := score } } j := h.retag hd _ rfl
    dsimp only
    split
    · next round hc =>
      have hround : Located (({ c with index := c.index.insert i { data with score := score } } :
          DynamicCorpus Stmt B Q).setCached i (.inFlight (round + 1))) j := by
        unfold setCached HashMap.modify
        simp only [AList.lookup_insert]
        exact hscore.retag (AList.lookup_insert _) _ (by rw [hc]; rfl)
      split
      · split
        · next ast rest hrest =>
          obtain ⟨-, rfl⟩ := IndexMap.shiftRemove_eq_some.1 hrest
          refine located_settle (or_iff_not_imp_left.2 fun hj => hround.congr ?_ id)
          simp only [view, IndexMap.get_erase, if_neg hj]
        · exact hround
      · exact hround
    · have hE := located_evictCachedIf (fun cached => cached.ltIeee score) hscore
      split
      · next c' he =>
        rw [he] at hE
        split
        · next ast disk he' => exact located_moveToCache (.inr (hE.retrieved he' _ _))
        · next e disk he' => exact located_reprioritize (hE.retrieved he' _ _)
      · next c' he => rw [he] at hE; exact located_reprioritize hE
    · exact located_reprioritize hscore

theorem located_insert (entry : CorpusEntry Stmt) (score : F64) (h : Located c j) :
    Located (c.insert entry score) j := by
  have hwrite : Located { c with diskCache := (StorageBackend.write c.diskCache entry.id entry.raw.ast).2 } j :=
    h.congr rfl stored_write_isSome_of_isSome
  have hroom : Located (if c.inFlight.len ≥ c.caps.inFlightCap then
      evictInFlight { c with diskCache := (StorageBackend.write c.diskCache entry.id entry.raw.ast).2 }
      else { c with diskCache := (StorageBackend.write c.diskCache entry.id entry.raw.ast).2 }) j := by
    split
    · exact located_evictInFlight hwrite
    · exact hwrite
  intro d hd
  unfold insert at hd ⊢
  dsimp only at hd ⊢
  rw [HashMap.lookup_insert_iff] at hd
  split at hd
  · next hj =>
    subst hj
    cases hd
    simp [astIn, IndexMap.get_insert]
  · next hj =>
    have h' := hroom d hd
    revert h'
    cases d.cached with
    | inFlight r => simp only [astIn, IndexMap.get_insert, if_neg hj]; exact id
    | hot => exact id
    | disk => exact id

end Reliable

end Lsf.Engine.DynamicCorpus
