import Lsf.Engine.DynamicCorpus

/-!
# The tiers, entry by entry

`view c i` is what the four containers of a corpus say about the id `i`. Moving an entry changes the view of that entry
alone (`view_placeHot`, `view_moveToDisk`), and what an eviction can do is the four cases of `Evicts`. The invariants
of the corpus are then statements about the view of one id, kept by every move.
-/

namespace Lsf.Engine.DynamicCorpus

open Lsf.Core Lsf.Lib PriorityQueue

variable {Stmt B Q : Type} {c : DynamicCorpus Stmt B Q} {i j w : ID} {a : AST Stmt}

/-! ## The data of the entries -/

/-- The data of an entry that no operation changes while it is in the corpus. -/
def core (c : DynamicCorpus Stmt B Q) (i : ID) : Option (List ID × Meta) :=
  (c.index.lookup i).map fun data => (data.parents, data.metadata)

@[simp] theorem inFlight_setCached (loc : CacheLocation) : (c.setCached i loc).inFlight = c.inFlight := rfl

@[simp] theorem core_setCached (loc : CacheLocation) : (c.setCached i loc).core j = c.core j := by
  unfold core setCached
  rw [HashMap.lookup_modify]
  split
  · next h => rw [h]; cases c.index.lookup i <;> rfl
  · rfl

theorem core_insert_same {data data' : EntryData} (h : c.index.lookup i = some data)
    (hp : data'.parents = data.parents) (hm : data'.metadata = data.metadata) :
    core { c with index := c.index.insert i data' } j = c.core j := by
  unfold core
  rw [HashMap.lookup_insert_iff]
  split
  · next hj => rw [hj, h, Option.map_some, Option.map_some, hp, hm]
  · rfl

theorem core_remove : (c.remove i).core j = if j = i then none else c.core j := by
  unfold remove core
  split
  · next h =>
    split
    · next hj => rw [hj, h]; rfl
    · rfl
  · next data h =>
    split <;>
    · simp only [HashMap.lookup_erase_iff]
      split <;> rfl

theorem core_resize : c.resize.core j = c.core j := by
  unfold resize
  split <;> rfl

theorem mem_ids : i ∈ c.ids ↔ (c.core i).isSome := by
  unfold ids core
  rw [HashMap.mem_keySet, Option.isSome_map]

section Storage

variable [StorageBackend B Stmt]

/-- A move to disk, up to the write. -/
theorem moveToDisk_ok (h : (StorageBackend.write c.diskCache i a).1 = .ok ()) :
    c.moveToDisk i a =
      (.ok (), { c with diskCache := (StorageBackend.write c.diskCache i a).2 }.setCached i .disk) := by
  unfold moveToDisk
  generalize StorageBackend.write c.diskCache i a = r at h ⊢
  obtain ⟨_, disk⟩ := r
  cases h
  rfl

theorem moveToDisk_error {e : IoError} (h : (StorageBackend.write c.diskCache i a).1 = .error e) :
    c.moveToDisk i a = (.error e, { c with diskCache := (StorageBackend.write c.diskCache i a).2 }) := by
  unfold moveToDisk
  generalize StorageBackend.write c.diskCache i a = r at h ⊢
  obtain ⟨_, disk⟩ := r
  cases h
  rfl

@[simp] theorem diskCache_moveToDisk : (c.moveToDisk i a).2.diskCache = (StorageBackend.write c.diskCache i a).2 := by
  cases h : (StorageBackend.write c.diskCache i a).1 with
  | ok u => rw [moveToDisk_ok h]; rfl
  | error e => rw [moveToDisk_error h]

@[simp] theorem hot_moveToDisk : (c.moveToDisk i a).2.hot = c.hot := by
  cases h : (StorageBackend.write c.diskCache i a).1 with
  | ok u => rw [moveToDisk_ok h]; rfl
  | error e => rw [moveToDisk_error h]

@[simp] theorem inFlight_moveToDisk : (c.moveToDisk i a).2.inFlight = c.inFlight := by
  cases h : (StorageBackend.write c.diskCache i a).1 with
  | ok u => rw [moveToDisk_ok h]; rfl
  | error e => rw [moveToDisk_error h]

@[simp] theorem core_moveToDisk : (c.moveToDisk i a).2.core j = c.core j := by
  cases h : (StorageBackend.write c.diskCache i a).1 with
  | ok u => rw [moveToDisk_ok h, core_setCached]; rfl
  | error e => rw [moveToDisk_error h]; rfl

end Storage

/-! ## What is seen of one entry -/

/-- What the containers say about one id. -/
structure View (Stmt : Type) where
  data : Option EntryData
  inFlight : Option (AST Stmt)
  hot : Option (AST Stmt)
  priority : Option F64.Reverse

variable [PriorityQueue Q ID F64.Reverse]

def view (c : DynamicCorpus Stmt B Q) (i : ID) : View Stmt :=
  ⟨c.index.lookup i, c.inFlight.get i, c.hot.lookup i, getPriority c.hotEviction i⟩

def View.tagged (v : View Stmt) (loc : CacheLocation) : View Stmt :=
  { v with data := v.data.map fun data => { data with cached := loc } }

/-- In the cache, and queued if there is data. -/
def View.placed (v : View Stmt) (ast : AST Stmt) : View Stmt :=
  { v.tagged .hot with
    hot := some ast
    priority := match v.data with
      | some data => some (F64.reverse data.score)
      | none => v.priority }

/-- Out of the cache. -/
def View.taken (v : View Stmt) : View Stmt := { v with hot := none, priority := none }

@[simp] theorem view_data : (view c i).data = c.index.lookup i := rfl
@[simp] theorem view_inFlight : (view c i).inFlight = c.inFlight.get i := rfl
@[simp] theorem view_hot : (view c i).hot = c.hot.lookup i := rfl
@[simp] theorem view_priority : (view c i).priority = getPriority c.hotEviction i := rfl

/-! ## Moving one entry -/

theorem view_setCached (c : DynamicCorpus Stmt B Q) (i j : ID) (loc : CacheLocation) :
    view (c.setCached i loc) j = if j = i then (view c i).tagged loc else view c j := by
  unfold view setCached View.tagged
  simp only [HashMap.lookup_modify]
  split
  · next h => rw [h]
  · rfl

theorem view_insertData (c : DynamicCorpus Stmt B Q) (i j : ID) (data : EntryData) :
    view { c with index := c.index.insert i data } j =
      if j = i then { view c i with data := some data } else view c j := by
  unfold view
  simp only [HashMap.lookup_insert_iff]
  split
  · next h => rw [h]
  · rfl

theorem view_eraseInFlight (c : DynamicCorpus Stmt B Q) (i j : ID) :
    view { c with inFlight := c.inFlight.erase i } j =
      if j = i then { view c i with inFlight := none } else view c j := by
  unfold view
  simp only [IndexMap.get_erase]
  split
  · next h => rw [h]
  · rfl

@[simp] theorem diskCache_placeHot : (c.placeHot i a).diskCache = c.diskCache := by
  unfold placeHot
  dsimp only
  split <;> rfl

section Queue

variable [LawfulPriorityQueue Q]

theorem view_placeHot (c : DynamicCorpus Stmt B Q) (i j : ID) (a : AST Stmt) :
    view (c.placeHot i a) j = if j = i then (view c i).placed a else view c j := by
  unfold placeHot
  dsimp only
  split
  · next data hd =>
    unfold view setCached View.placed View.tagged
    simp only [HashMap.lookup_modify, HashMap.lookup_insert_iff, getPriority_push, hd]
    split
    · next h => rw [h]
    · rfl
  · next hd =>
    unfold view View.placed View.tagged
    simp only [HashMap.lookup_insert_iff, hd]
    split
    · next h => rw [h, hd]; rfl
    · rfl

/-- Taking the head of the queue out of the cache. -/
theorem view_takeHot {p : F64.Reverse} {q : Q} (h : pop c.hotEviction = some ((w, p), q)) (j : ID) :
    view (c.takeHot q w) j = if j = w then (view c w).taken else view c j := by
  unfold view View.taken takeHot
  simp only [HashMap.lookup_erase_iff, getPriority_pop _ _ _ _ h]
  split
  · next hj => rw [hj]
  · rfl

/-- Putting the head of the queue back. -/
theorem view_putBack {p : F64.Reverse} {q : Q} (h : pop c.hotEviction = some ((w, p), q)) (j : ID) :
    view { c with hotEviction := pushIncrease q w p } j = view c j := by
  unfold view
  simp only [getPriority_pushIncrease_pop h]

theorem view_reprioritize (c : DynamicCorpus Stmt B Q) (i j : ID) (score : F64) :
    view (c.reprioritize i score) j =
      if j = i then { view c i with priority := (view c i).priority.map fun _ => F64.reverse score }
      else view c j := by
  unfold view reprioritize
  simp only [getPriority_changePriority]
  split
  · next h => rw [h]
  · rfl

end Queue

@[simp] theorem core_placeHot : (c.placeHot i a).core j = c.core j := by
  unfold placeHot
  dsimp only
  split
  · exact core_setCached _
  · rfl

variable [StorageBackend B Stmt]

theorem view_moveToDisk (h : (StorageBackend.write c.diskCache i a).1 = .ok ()) (j : ID) :
    view (c.moveToDisk i a).2 j = if j = i then (view c i).tagged .disk else view c j := by
  rw [moveToDisk_ok h]
  exact view_setCached _ _ _ _

/-- **After a failed write** the containers are as before: the tag still names the tier the AST was taken from. -/
theorem view_moveToDisk_error {e : IoError} (h : (StorageBackend.write c.diskCache i a).1 = .error e) (j : ID) :
    view (c.moveToDisk i a).2 j = view c j := by
  rw [moveToDisk_error h]
  rfl

/-! ## Eviction -/

/-- What `evictCachedIf` can do: nothing while there is room or nothing is queued; else move the worst entry to disk,
or put it back. -/
inductive Evicts (c : DynamicCorpus Stmt B Q) (cond : F64 → Bool) : Bool × DynamicCorpus Stmt B Q → Prop
  | room (h : HashMap.size c.hot < c.hotCap) : Evicts c cond (true, c)
  | empty (h : c.hotCap ≤ HashMap.size c.hot) (hpop : pop c.hotEviction = none) : Evicts c cond (true, c)
  | evict {w : ID} {p : F64.Reverse} {q : Q} {a : AST Stmt} (h : c.hotCap ≤ HashMap.size c.hot)
      (hpop : pop c.hotEviction = some ((w, p), q)) (hcond : cond (F64.ofReverse p) = true)
      (hw : c.hot.lookup w = some a) :
      Evicts c cond (true, ((c.takeHot q w).moveToDisk w a).2)
  | keep {w : ID} {p : F64.Reverse} {q : Q} (h : c.hotCap ≤ HashMap.size c.hot)
      (hpop : pop c.hotEviction = some ((w, p), q))
      (hno : cond (F64.ofReverse p) = true → c.hot.lookup w = none) :
      Evicts c cond (false, { c with hotEviction := pushIncrease q w p })

theorem evicts (c : DynamicCorpus Stmt B Q) (cond : F64 → Bool) : Evicts c cond (c.evictCachedIf cond) := by
  unfold evictCachedIf
  split
  · next h => exact .room h
  · next h =>
    have h : c.hotCap ≤ HashMap.size c.hot := Nat.le_of_not_lt h
    split
    · next hpop => exact .empty h hpop
    · next w p q hpop =>
      cases hcond : cond (F64.ofReverse p) with
      | false => exact .keep h hpop fun hc => by rw [hcond] at hc; cases hc
      | true =>
        cases hw : c.hot.lookup w with
        | none => simp only [if_true]; exact .keep h hpop fun _ => hw
        | some a => simp only [if_true]; exact .evict h hpop hcond hw

/-- A full cache is one that an entry has to leave before another comes in. -/
def HotFull (c : DynamicCorpus Stmt B Q) : Prop := c.hotCap ≤ HashMap.size c.hot ∧ 0 < HashMap.size c.hot

section Queue

variable [LawfulPriorityQueue Q]

/-- An eviction leaves the view of what is not queued alone. -/
theorem view_evictCachedIf_of_not_queued (c : DynamicCorpus Stmt B Q) (cond : F64 → Bool)
    (h : (view c i).priority = none) : view (c.evictCachedIf cond).2 i = view c i := by
  have hE := c.evicts cond
  generalize c.evictCachedIf cond = r at hE ⊢
  cases hE with
  | room => rfl
  | empty => rfl
  | keep _ hpop _ => exact view_putBack hpop i
  | @evict w p q a _ hpop _ _ =>
    have hi : i ≠ w := by
      rintro rfl
      rw [view_priority, pop_mem _ _ _ _ hpop] at h
      cases h
    dsimp only
    cases hw : (StorageBackend.write (c.takeHot q w).diskCache w a).1 with
    | ok u =>
      rw [view_moveToDisk hw, if_neg hi, view_takeHot hpop, if_neg hi]
    | error e =>
      rw [view_moveToDisk_error hw, view_takeHot hpop, if_neg hi]

theorem view_moveToCache_of_not_queued (hj : j ≠ i) (h : (view c j).priority = none) :
    view (c.moveToCache i a) j = view c j := by
  unfold moveToCache
  rw [view_placeHot, if_neg hj]
  split
  · exact view_evictCachedIf_of_not_queued c _ h
  · rfl

end Queue

@[simp] theorem core_evictCachedIf (c : DynamicCorpus Stmt B Q) (cond : F64 → Bool) (j : ID) :
    (c.evictCachedIf cond).2.core j = c.core j := by
  have hE := c.evicts cond
  generalize c.evictCachedIf cond = r at hE ⊢
  cases hE with
  | evict => exact core_moveToDisk
  | _ => rfl

@[simp] theorem core_moveToCache : (c.moveToCache i a).core j = c.core j := by
  unfold moveToCache
  rw [core_placeHot]
  split
  · exact core_evictCachedIf _ _ _
  · rfl

@[simp] theorem core_settle (c : DynamicCorpus Stmt B Q) (i : ID) (a : AST Stmt) (score : F64) (j : ID) :
    (c.settle i a score).core j = c.core j := by
  have h := core_evictCachedIf c (fun cached => cached.ltIeee score) j
  unfold settle
  split
  · next c' he => rw [core_moveToCache, ← h, he]
  · next c' he => rw [core_moveToDisk, ← h, he]

@[simp] theorem core_evictInFlight : c.evictInFlight.core j = c.core j := by
  unfold evictInFlight
  split
  · rfl
  · split
    · exact core_settle _ _ _ _ _
    · exact core_moveToDisk

theorem index_evictInFlight_none (hi : c.index.lookup i = none) : c.evictInFlight.index.lookup i = none := by
  have hcore : c.evictInFlight.core i = c.core i := core_evictInFlight
  unfold core at hcore
  rw [hi, Option.map_none, Option.map_eq_none_iff] at hcore
  exact hcore

/-! ## The operations on the data -/

theorem core_get : (c.get i).2.core j = c.core j := by
  unfold get
  split
  · rfl
  · dsimp only
    split
    · rfl
    · rfl
    · split
      · rfl
      · split
        · exact core_moveToCache
        · rfl

theorem core_update (c : DynamicCorpus Stmt B Q) (i : ID) (score : F64) (j : ID) :
    (c.update i score).core j = c.core j := by
  unfold update
  split
  · rfl
  · next data hd =>
    have hscore : core { c with index := c.index.insert i { data with score := score } } j = c.core j :=
      core_insert_same hd rfl rfl
    dsimp only
    split
    · split
      · split
        · rw [core_settle]; exact (core_setCached _).trans hscore
        · exact (core_setCached _).trans hscore
      · exact (core_setCached _).trans hscore
    · have hE := core_evictCachedIf { c with index := c.index.insert i { data with score := score } }
        (fun cached => cached.ltIeee score) j
      split
      · next c' he =>
        rw [he] at hE
        split
        · rw [core_moveToCache]; exact hE.trans hscore
        · exact hE.trans hscore
      · next c' he => rw [he] at hE; exact hE.trans hscore
    · exact hscore

theorem core_insert (c : DynamicCorpus Stmt B Q) (entry : CorpusEntry Stmt) (score : F64) (j : ID) :
    (c.insert entry score).core j = if j = entry.id then some (entry.raw.parents, entry.metadata) else c.core j := by
  have hroom : core (if c.inFlight.len ≥ c.caps.inFlightCap then
      evictInFlight { c with diskCache := (StorageBackend.write c.diskCache entry.id entry.raw.ast).2 }
      else { c with diskCache := (StorageBackend.write c.diskCache entry.id entry.raw.ast).2 }) j = c.core j := by
    split
    · exact core_evictInFlight
    · rfl
  unfold core at hroom
  unfold insert core
  simp only [HashMap.lookup_insert_iff]
  split
  · rfl
  · exact hroom

end Lsf.Engine.DynamicCorpus
