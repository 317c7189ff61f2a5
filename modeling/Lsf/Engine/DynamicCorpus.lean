import Lsf.Engine.Corpus
import Lsf.Lib.PriorityQueue

/-!
# The tiered corpus

`DynamicCorpus` keeps the data of its entries in `index` and their ASTs in one of three tiers: `inFlight` for new
entries, in the order of their arrival, `hot` for the cache, and the storage backend. `hotEviction` orders the cache by
score, the worst entry first. Every entry is also written to the backend when it is inserted.
-/

namespace Lsf.Engine

open Lsf.Core Lsf.Lib

inductive CacheLocation where
  | inFlight (round : UInt8)
  | hot
  | disk
  deriving DecidableEq, Repr

structure EntryData where
  parents : List ID
  metadata : Meta
  score : F64
  cached : CacheLocation
  deriving DecidableEq, Repr

/-- The capacities of the tiers, and the order in which the index is iterated. -/
structure Caps where
  inFlightCap : Nat
  initCacheCap : Nat
  cacheCap : Nat
  order : HashOrder ID

/-- `IN_FLIGHT_CAP`, `INIT_CACHE_CAP` and `CACHE_CAP`. -/
def Caps.source (order : HashOrder ID) : Caps := ⟨2 ^ 11, 2 ^ 14, 2 ^ 17, order⟩

def gracePeriod : UInt8 := 1

def cacheAdjustmentTick : Nat := 500

/-- A corpus over the backend `B`, with an eviction queue `Q`; it carries the constants it was compiled with. -/
structure DynamicCorpus (Stmt B Q : Type) where
  caps : Caps
  index : HashMap ID EntryData
  inFlight : IndexMap ID (AST Stmt)
  hot : HashMap ID (AST Stmt)
  hotEviction : Q
  diskCache : B
  hotCap : Nat
  cacheMisses : Nat
  requests : Nat

namespace DynamicCorpus

open PriorityQueue

variable {Stmt B Q : Type} [StorageBackend B Stmt] [PriorityQueue Q ID F64.Reverse]

def new (caps : Caps) (diskCache : B) : DynamicCorpus Stmt B Q where
  caps := caps
  index := ∅
  inFlight := .empty
  hot := ∅
  hotEviction := PriorityQueue.empty
  diskCache := diskCache
  hotCap := caps.initCacheCap
  cacheMisses := 0
  requests := 0

/-! ## Moving entries between the tiers -/

/-- `data.cached = loc`, when the id has data. -/
def setCached (c : DynamicCorpus Stmt B Q) (id : ID) (loc : CacheLocation) : DynamicCorpus Stmt B Q :=
  { c with index := HashMap.modify c.index id fun data => { data with cached := loc } }

/-- The tag changes only after the write succeeded. -/
def moveToDisk (c : DynamicCorpus Stmt B Q) (id : ID) (ast : AST Stmt) :
    Except IoError Unit × DynamicCorpus Stmt B Q :=
  match StorageBackend.write c.diskCache id ast with
  | (.error e, disk) => (.error e, { c with diskCache := disk })
  | (.ok (), disk) => (.ok (), { c with diskCache := disk }.setCached id .disk)

/-- The head of the queue leaves the cache. -/
def takeHot (c : DynamicCorpus Stmt B Q) (queue : Q) (worstId : ID) : DynamicCorpus Stmt B Q :=
  { c with hotEviction := queue, hot := c.hot.erase worstId }

/-- Make room in `hot`: the worst entry goes to disk if its score satisfies `cond`. -/
def evictCachedIf (c : DynamicCorpus Stmt B Q) (cond : F64 → Bool) : Bool × DynamicCorpus Stmt B Q :=
  if HashMap.size c.hot < c.hotCap then (true, c) else
    match pop c.hotEviction with
    | none => (true, c)
    | some ((worstId, worstScore), queue) =>
      match if cond (F64.ofReverse worstScore) then c.hot.lookup worstId else none with
      | some ast => (true, ((c.takeHot queue worstId).moveToDisk worstId ast).2)
      | none => (false, { c with hotEviction := pushIncrease queue worstId worstScore })

/-- `hot.insert`, and the tag and the queue follow when the id has data. -/
def placeHot (c : DynamicCorpus Stmt B Q) (id : ID) (ast : AST Stmt) : DynamicCorpus Stmt B Q :=
  let c := { c with hot := c.hot.insert id ast }
  match c.index.lookup id with
  | some data => { c.setCached id .hot with hotEviction := push c.hotEviction id (F64.reverse data.score) }
  | none => c

def moveToCache (c : DynamicCorpus Stmt B Q) (id : ID) (ast : AST Stmt) : DynamicCorpus Stmt B Q :=
  (if HashMap.size c.hot ≥ c.hotCap then (c.evictCachedIf fun _ => true).2 else c).placeHot id ast

/-- To the cache if the score beats the worst one there, else to disk; the result of the write is dropped. -/
def settle (c : DynamicCorpus Stmt B Q) (id : ID) (ast : AST Stmt) (score : F64) : DynamicCorpus Stmt B Q :=
  match c.evictCachedIf fun cached => cached.ltIeee score with
  | (true, c) => c.moveToCache id ast
  | (false, c) => (c.moveToDisk id ast).2

def evictInFlight (c : DynamicCorpus Stmt B Q) : DynamicCorpus Stmt B Q :=
  match c.inFlight.shiftRemoveIndex 0 with
  | none => c
  | some ((id, ast), rest) =>
    match c.index.lookup id with
    | some data => { c with inFlight := rest }.settle id ast data.score
    | none => ({ c with inFlight := rest }.moveToDisk id ast).2

/-! ## The operations of the corpus -/

def get (c : DynamicCorpus Stmt B Q) (id : ID) : Option (CorpusEntry Stmt) × DynamicCorpus Stmt B Q :=
  match c.index.lookup id with
  | none => (none, c)
  | some data =>
    let c := { c with requests := c.requests + 1 }
    let entry := fun ast => CorpusEntry.mk ⟨id, data.parents, ast⟩ data.metadata
    match data.cached with
    | .inFlight _ => ((c.inFlight.get id).map entry, c)
    | .hot => ((c.hot.lookup id).map entry, c)
    | .disk =>
      match StorageBackend.retrieve c.diskCache id with
      | (.error _, disk) => (none, { c with diskCache := disk })
      | (.ok ast, disk) =>
        let c := { c with diskCache := disk }
        (some (entry ast),
          if HashMap.size c.hot < c.hotCap then c.moveToCache id ast else { c with cacheMisses := c.cacheMisses + 1 })

/-- The priority follows the score of an entry that is queued. -/
def reprioritize (c : DynamicCorpus Stmt B Q) (id : ID) (score : F64) : DynamicCorpus Stmt B Q :=
  { c with hotEviction := changePriority c.hotEviction id (F64.reverse score) }

def update (c : DynamicCorpus Stmt B Q) (id : ID) (score : F64) : DynamicCorpus Stmt B Q :=
  match c.index.lookup id with
  | none => c
  | some data =>
    let c := { c with index := c.index.insert id { data with score := score } }
    match data.cached with
    | .inFlight round =>
      -- the entry got scored: after the grace period it leaves the first tier
      let c := c.setCached id (.inFlight (round + 1))
      if round + 1 > gracePeriod then
        match c.inFlight.shiftRemove id with
        | some (ast, rest) => { c with inFlight := rest }.settle id ast score
        | none => c
      else c
    | .disk =>
      match c.evictCachedIf fun cached => cached.ltIeee score with
      | (true, c) =>
        match StorageBackend.retrieve c.diskCache id with
        | (.ok ast, disk) => { c with diskCache := disk }.moveToCache id ast
        | (.error _, disk) => { c with diskCache := disk }.reprioritize id score
      | (false, c) => c.reprioritize id score
    | .hot => c.reprioritize id score

def insert (c : DynamicCorpus Stmt B Q) (entry : CorpusEntry Stmt) (score : F64) : DynamicCorpus Stmt B Q :=
  let c := { c with diskCache := (StorageBackend.write c.diskCache entry.id entry.raw.ast).2 }
  let c := if c.inFlight.len ≥ c.caps.inFlightCap then c.evictInFlight else c
  { c with
    inFlight := c.inFlight.insert entry.id entry.raw.ast
    index := c.index.insert entry.id ⟨entry.raw.parents, entry.metadata, score, .inFlight 0⟩ }

def remove (c : DynamicCorpus Stmt B Q) (id : ID) : DynamicCorpus Stmt B Q :=
  match c.index.lookup id with
  | none => c
  | some data =>
    let c := { c with index := c.index.erase id }
    match data.cached with
    | .inFlight _ => c
    | .hot => { c with hot := c.hot.erase id }
    | .disk => c

/-- The cache grows by half when more than 15% of the requests missed it. -/
def resize (c : DynamicCorpus Stmt B Q) : DynamicCorpus Stmt B Q :=
  if c.requests < cacheAdjustmentTick then c else
    let grow := (c.cacheMisses : ℚ) / c.requests > 15 / 100 ∧ c.hotCap < c.caps.cacheCap
    { c with hotCap := if grow then min (c.hotCap * 3 / 2) c.caps.cacheCap else c.hotCap, requests := 0, cacheMisses := 0 }

def ids (c : DynamicCorpus Stmt B Q) : Finset ID := HashMap.keySet c.index

def size (c : DynamicCorpus Stmt B Q) : Nat := HashMap.size c.index

/-- The ids in flight and the best scores, so that 15% of the corpus are protected in all. -/
def protectedIds (c : DynamicCorpus Stmt B Q) : Finset ID :=
  let target := c.size * 15 / 100 - c.inFlight.len
  let protectd := c.inFlight.keys.toFinset
  if target = 0 then protectd else
    let scores := (c.caps.order.list c.ids).filterMap fun id => (c.index.lookup id).map fun data => (id, data.score)
    if target < scores.length then
      let sorted := scores.mergeSort fun a b => a.2 ≤ b.2
      protectd ∪ ((sorted.drop (scores.length - target)).map Prod.fst).toFinset
    else protectd ∪ (scores.map Prod.fst).toFinset

def clear (c : DynamicCorpus Stmt B Q) : DynamicCorpus Stmt B Q :=
  { c with index := ∅, inFlight := .empty, hot := ∅, diskCache := StorageBackend.clear c.diskCache }

instance : CorpusHandler (DynamicCorpus Stmt B Q) Stmt where
  get := get
  update := update
  insert := insert
  remove := remove
  resize := resize
  ids := ids
  protectedIds := protectedIds
  clear := clear
  size := size

end DynamicCorpus

end Lsf.Engine
