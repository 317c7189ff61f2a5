import Lsf.Engine.Tiers
import Lsf.Lib.Run

/-!
# The query log

`SQLSaver` is a backend around another one that sends every write to a thread, which appends the queries to a log. A
corpus writes an entry when it is inserted, and again whenever it is demoted. So the log has every entry once, in the
order of insertion, exactly as long as no operation demotes an entry (`savedOnce_iff`).
-/

namespace Lsf.Engine

open Lsf.Core Lsf.Lib PriorityQueue

inductive SqlSaverCommand (Stmt : Type) where
  | write (ast : AST Stmt)
  | clear

/-- A backend, and the commands that were sent to the thread. -/
structure SQLSaver (B Stmt : Type) where
  backend : B
  sent : List (SqlSaverCommand Stmt)

namespace SQLSaver

variable {B Stmt : Type}

/-- What the thread does with a command, the log being the queries in it. -/
def receive (log : List (AST Stmt)) : SqlSaverCommand Stmt → List (AST Stmt)
  | .write ast => log ++ [ast]
  | .clear => []

/-- The log when all commands have been received. -/
def log (s : SQLSaver B Stmt) : List (AST Stmt) := s.sent.foldl receive []

variable [StorageBackend B Stmt]

def new (backend : B) : SQLSaver B Stmt := ⟨backend, []⟩

def retrieve (s : SQLSaver B Stmt) (id : ID) : Except IoError (AST Stmt) × SQLSaver B Stmt :=
  let (result, backend) := StorageBackend.retrieve s.backend id
  (result, { s with backend := backend })

/-- The command is sent first, whatever becomes of the write. -/
def write (s : SQLSaver B Stmt) (id : ID) (ast : AST Stmt) : Except IoError Unit × SQLSaver B Stmt :=
  let (result, backend) := StorageBackend.write s.backend id ast
  (result, ⟨backend, s.sent ++ [.write ast]⟩)

def clear (s : SQLSaver B Stmt) : SQLSaver B Stmt := ⟨StorageBackend.clear s.backend, s.sent ++ [.clear]⟩

instance : StorageBackend (SQLSaver B Stmt) Stmt where
  retrieve := retrieve
  write := write
  clear := clear

variable {s : SQLSaver B Stmt} {i : ID} {a : AST Stmt}

@[simp] theorem log_retrieve : (StorageBackend.retrieve s i).2.log = s.log := rfl

@[simp] theorem log_write : (StorageBackend.write s i a).2.log = s.log ++ [a] := by
  simp [StorageBackend.write, write, log, receive]

@[simp] theorem log_clear : (StorageBackend.clear s).log = [] := by
  simp [StorageBackend.clear, clear, log, receive]

end SQLSaver

namespace DynamicCorpus

/-! ## When an operation demotes an entry -/

section Demotion

variable {Stmt B Q : Type} [StorageBackend B Stmt] [PriorityQueue Q ID F64.Reverse]

/-- The cache is full, and there is an entry to compare with. -/
def CacheFull (c : DynamicCorpus Stmt B Q) : Prop := c.hotCap ≤ HashMap.size c.hot ∧ (pop c.hotEviction).isSome

/-- The cache is full, and its worst entry satisfies `cond` and is there. -/
def Evictable (c : DynamicCorpus Stmt B Q) (cond : F64 → Bool) : Prop :=
  c.hotCap ≤ HashMap.size c.hot ∧ ∃ w p q, pop c.hotEviction = some ((w, p), q) ∧
    cond (F64.ofReverse p) = true ∧ (c.hot.lookup w).isSome

/-- The oldest entry in flight was removed meanwhile, or the cache is full. -/
def PushesOut (c : DynamicCorpus Stmt B Q) : Prop :=
  ∃ id ast rest, c.inFlight.shiftRemoveIndex 0 = some ((id, ast), rest) ∧ (c.index.lookup id = none ∨ CacheFull c)

/-- An entry leaves the first tier, or the cache, for the disk. -/
def MovesToDisk (c : DynamicCorpus Stmt B Q) : CorpusOp Stmt → Prop
  | .insert _ _ => c.caps.inFlightCap ≤ c.inFlight.len ∧ PushesOut c
  | .update id score => ∃ data, c.index.lookup id = some data ∧
      match data.cached with
      | .inFlight round => gracePeriod < round + 1 ∧ (c.inFlight.get id).isSome ∧ CacheFull c
      | .hot => False
      | .disk => Evictable c fun cached => cached.ltIeee score
  | _ => False

omit [StorageBackend B Stmt] [PriorityQueue Q ID F64.Reverse] in
/-- A removal drops the data of the id, and leaves the first tier and the disk alone. -/
theorem remove_frame (c : DynamicCorpus Stmt B Q) (i : ID) : (c.remove i).caps = c.caps ∧
    (c.remove i).inFlight = c.inFlight ∧ (c.remove i).diskCache = c.diskCache ∧
    (c.remove i).index.lookup i = none := by
  unfold remove
  split
  · rename_i hnone
    exact ⟨rfl, rfl, rfl, hnone⟩
  · dsimp only
    split <;> exact ⟨rfl, rfl, rfl, by simp⟩

end Demotion

/-! ## What is logged -/

section Log

variable {Stmt B Q : Type} [StorageBackend B Stmt] [PriorityQueue Q ID F64.Reverse]
  {c c' : DynamicCorpus Stmt (SQLSaver B Stmt) Q} {i : ID} {a : AST Stmt}

/-- From `c` to `c'` something is logged if and only if `p` holds. -/
def LogsIff (p : Prop) (c c' : DynamicCorpus Stmt (SQLSaver B Stmt) Q) : Prop :=
  ∃ asts, c'.diskCache.log = c.diskCache.log ++ asts ∧ (asts = [] ↔ ¬p)

omit [StorageBackend B Stmt] [PriorityQueue Q ID F64.Reverse] in
theorem LogsIff.of_eq {p : Prop} (h : c'.diskCache.log = c.diskCache.log) (hp : ¬p) : LogsIff p c c' :=
  ⟨[], by rw [h, List.append_nil], iff_of_true rfl hp⟩

omit [StorageBackend B Stmt] [PriorityQueue Q ID F64.Reverse] in
theorem LogsIff.of_snoc {p : Prop} (h : c'.diskCache.log = c.diskCache.log ++ [a]) (hp : p) : LogsIff p c c' :=
  ⟨[a], h, iff_of_false (List.cons_ne_nil _ _) (not_not.2 hp)⟩

omit [PriorityQueue Q ID F64.Reverse] in
theorem log_moveToDisk : (c.moveToDisk i a).2.diskCache.log = c.diskCache.log ++ [a] := by
  rw [diskCache_moveToDisk, SQLSaver.log_write]

theorem logsIff_evictCachedIf (c : DynamicCorpus Stmt (SQLSaver B Stmt) Q) (cond : F64 → Bool) :
    LogsIff (Evictable c cond) c (c.evictCachedIf cond).2 := by
  have hE := c.evicts cond
  generalize c.evictCachedIf cond = r at hE ⊢
  cases hE with
  | room h => exact .of_eq rfl fun hev => absurd h (not_lt.2 hev.1)
  | empty h hpop =>
    refine .of_eq rfl fun ⟨_, w, p, q, hpop', _⟩ => ?_
    rw [hpop] at hpop'
    cases hpop'
  | evict h hpop hcond hw => exact .of_snoc log_moveToDisk ⟨h, _, _, _, hpop, hcond, by rw [hw]; rfl⟩
  | keep h hpop hno =>
    refine .of_eq rfl fun ⟨_, w, p, q, hpop', hcond, hw⟩ => ?_
    rw [hpop] at hpop'
    cases hpop'
    rw [hno hcond] at hw
    cases hw

theorem logsIff_moveToCache (c : DynamicCorpus Stmt (SQLSaver B Stmt) Q) (i : ID) (a : AST Stmt) :
    LogsIff (Evictable c fun _ => true) c (c.moveToCache i a) := by
  unfold moveToCache
  split
  · obtain ⟨asts, heq, hiff⟩ := logsIff_evictCachedIf c fun _ => true
    exact ⟨asts, by rw [diskCache_placeHot, heq], hiff⟩
  · rename_i hroom
    exact .of_eq (by rw [diskCache_placeHot]) fun hev => hroom hev.1

/-- **Leaving the first tier** is logged if the cache is full: an entry of the cache makes room, or the entry itself goes
to disk. -/
theorem logsIff_settle (c : DynamicCorpus Stmt (SQLSaver B Stmt) Q) (i : ID) (a : AST Stmt) (score : F64) :
    LogsIff (CacheFull c) c (c.settle i a score) := by
  have hE := c.evicts fun cached => cached.ltIeee score
  unfold settle
  generalize c.evictCachedIf (fun cached => cached.ltIeee score) = r at hE ⊢
  cases hE with
  | room h =>
    obtain ⟨asts, heq, hiff⟩ := logsIff_moveToCache c i a
    exact ⟨asts, heq, hiff.trans (iff_of_true (fun hev => absurd h (not_lt.2 hev.1)) fun hf => absurd h (not_lt.2 hf.1))⟩
  | empty h hpop =>
    obtain ⟨asts, heq, hiff⟩ := logsIff_moveToCache c i a
    refine ⟨asts, heq, hiff.trans (iff_of_true (fun hev => ?_) fun hf => ?_)⟩
    · obtain ⟨-, w, p, q, hpop', -⟩ := hev
      rw [hpop] at hpop'
      cases hpop'
    · have hsome := hf.2
      rw [hpop] at hsome
      cases hsome
  | @evict w p q a' h hpop hcond hw =>
    obtain ⟨asts, heq, -⟩ := logsIff_moveToCache ((c.takeHot q w).moveToDisk w a').2 i a
    refine ⟨a' :: asts, ?_, iff_of_false (List.cons_ne_nil _ _) (not_not.2 ⟨h, by rw [hpop]; rfl⟩)⟩
    rw [heq, log_moveToDisk, List.append_assoc]
    rfl
  | keep h hpop hno => exact .of_snoc log_moveToDisk ⟨h, by rw [hpop]; rfl⟩

theorem logsIff_evictInFlight (c : DynamicCorpus Stmt (SQLSaver B Stmt) Q) :
    LogsIff (PushesOut c) c c.evictInFlight := by
  unfold evictInFlight
  split
  · rename_i hnone
    refine .of_eq rfl fun ⟨id, ast, rest, hsome, _⟩ => ?_
    rw [hnone] at hsome
    cases hsome
  · rename_i id ast rest hrest
    split
    · rename_i data hd
      obtain ⟨asts, heq, hiff⟩ := logsIff_settle { c with inFlight := rest } id ast data.score
      refine ⟨asts, heq, hiff.trans (not_congr ⟨fun hf => ⟨id, ast, rest, hrest, .inr hf⟩, ?_⟩)⟩
      rintro ⟨id', ast', rest', hrest', hor⟩
      rw [hrest] at hrest'
      cases hrest'
      refine hor.resolve_left fun hnone => ?_
      rw [hd] at hnone
      cases hnone
    · rename_i hd
      exact .of_snoc log_moveToDisk ⟨id, ast, rest, hrest, .inl hd⟩

/-! ## The operations -/

theorem logsIff_insert (c : DynamicCorpus Stmt (SQLSaver B Stmt) Q) (entry : CorpusEntry Stmt) (score : F64) :
    ∃ asts, (c.insert entry score).diskCache.log = c.diskCache.log ++ entry.raw.ast :: asts ∧
      (asts = [] ↔ ¬MovesToDisk c (.insert entry score)) := by
  unfold insert
  dsimp only
  split
  · rename_i hcap
    obtain ⟨asts, heq, hiff⟩ := logsIff_evictInFlight
      { c with diskCache := (StorageBackend.write c.diskCache entry.id entry.raw.ast).2 }
    refine ⟨asts, ?_, hiff.trans (not_congr ⟨fun h => ⟨hcap, h⟩, And.right⟩)⟩
    rw [heq, SQLSaver.log_write, List.append_assoc]
    rfl
  · rename_i hcap
    exact ⟨[], SQLSaver.log_write, iff_of_true rfl fun h => hcap h.1⟩

omit [StorageBackend B Stmt] [PriorityQueue Q ID F64.Reverse] in
theorem diskCache_resize (c : DynamicCorpus Stmt (SQLSaver B Stmt) Q) : c.resize.diskCache = c.diskCache := by
  unfold resize
  split <;> rfl

/-- A fetch goes to the cache only where there is room. -/
theorem log_get (c : DynamicCorpus Stmt (SQLSaver B Stmt) Q) (i : ID) :
    (c.get i).2.diskCache.log = c.diskCache.log := by
  unfold get
  split
  · rfl
  · dsimp only
    split
    · rfl
    · rfl
    · split
      · rename_i e disk heq
        have hlog := SQLSaver.log_retrieve (s := c.diskCache) (i := i)
        rw [heq] at hlog
        exact hlog
      · rename_i ast disk heq
        have hlog := SQLSaver.log_retrieve (s := c.diskCache) (i := i)
        rw [heq] at hlog
        dsimp only
        split
        · rename_i hroom
          obtain ⟨asts, hcache, hiff⟩ := logsIff_moveToCache { c with requests := c.requests + 1, diskCache := disk } i ast
          rw [hcache, hiff.2 fun hev => absurd hroom (not_lt.2 hev.1), List.append_nil]
          exact hlog
        · exact hlog

/-- The end of an update for which there is room in the cache. -/
def fetchHot (c : DynamicCorpus Stmt (SQLSaver B Stmt) Q) (id : ID) (score : F64) :
    DynamicCorpus Stmt (SQLSaver B Stmt) Q :=
  match StorageBackend.retrieve c.diskCache id with
  | (.ok ast, disk) => { c with diskCache := disk }.moveToCache id ast
  | (.error _, disk) => { c with diskCache := disk }.reprioritize id score

/-- The update of an entry on disk. -/
theorem update_of_disk {data : EntryData} (hd : c.index.lookup i = some data) (hc : data.cached = .disk) (score : F64) :
    c.update i score =
      match evictCachedIf { c with index := c.index.insert i { data with score := score } }
        fun cached => cached.ltIeee score with
      | (true, c) => c.fetchHot i score
      | (false, c) => c.reprioritize i score := by
  unfold update fetchHot
  rw [hd]
  dsimp only
  split
  · rename_i hc'
    rw [hc] at hc'
    cases hc'
  · generalize evictCachedIf { c with index := c.index.insert i { data with score := score } }
      (fun cached => cached.ltIeee score) = r
    obtain ⟨room, c'⟩ := r
    cases room with
    | false => rfl
    | true =>
      dsimp only
      generalize StorageBackend.retrieve c'.diskCache i = fetched
      obtain ⟨result, disk⟩ := fetched
      cases result <;> rfl
  · rename_i hc'
    rw [hc] at hc'
    cases hc'

/-- A fetch logs nothing where nothing has to make room for it. -/
theorem log_fetchHot (c : DynamicCorpus Stmt (SQLSaver B Stmt) Q) (i : ID) (score : F64) :
    ∃ asts, (c.fetchHot i score).diskCache.log = c.diskCache.log ++ asts ∧
      (¬Evictable c (fun _ => true) → asts = []) := by
  have hlog := SQLSaver.log_retrieve (s := c.diskCache) (i := i)
  unfold fetchHot
  split
  · rename_i ast disk heq
    rw [heq] at hlog
    obtain ⟨asts, hcache, hiff⟩ := logsIff_moveToCache { c with diskCache := disk } i ast
    exact ⟨asts, hcache.trans (congrArg (· ++ asts) hlog), hiff.2⟩
  · rename_i e disk heq
    rw [heq] at hlog
    exact ⟨[], by rw [List.append_nil]; exact hlog, fun _ => rfl⟩

/-- What an update of an entry on disk logs. -/
theorem logsIff_update_disk {data : EntryData} (hd : c.index.lookup i = some data) (hc : data.cached = .disk)
    (score : F64) : LogsIff (Evictable c fun cached => cached.ltIeee score) c (c.update i score) := by
  rw [update_of_disk hd hc]
  have hE := evicts { c with index := c.index.insert i { data with score := score } } fun cached => cached.ltIeee score
  generalize evictCachedIf { c with index := c.index.insert i { data with score := score } }
    (fun cached => cached.ltIeee score) = r at hE ⊢
  cases hE with
  | room h =>
    obtain ⟨asts, heq, hnil⟩ := log_fetchHot { c with index := c.index.insert i { data with score := score } } i score
    obtain rfl := hnil fun hev => absurd h (not_lt.2 hev.1)
    rw [List.append_nil] at heq
    exact .of_eq heq fun hev => absurd h (not_lt.2 hev.1)
  | empty h hpop =>
    have hno : ∀ cond, ¬Evictable { c with index := c.index.insert i { data with score := score } } cond := by
      rintro cond ⟨-, w, p, q, hpop', -⟩
      rw [hpop] at hpop'
      cases hpop'
    obtain ⟨asts, heq, hnil⟩ := log_fetchHot { c with index := c.index.insert i { data with score := score } } i score
    obtain rfl := hnil (hno _)
    rw [List.append_nil] at heq
    exact .of_eq heq (hno fun cached => cached.ltIeee score)
  | @evict w p q a h hpop hcond hw =>
    obtain ⟨asts, heq, -⟩ := log_fetchHot (moveToDisk (takeHot { c with
      index := c.index.insert i { data with score := score } } q w) w a).2 i score
    refine ⟨a :: asts, ?_, iff_of_false (List.cons_ne_nil _ _) (not_not.2 ⟨h, w, p, q, hpop, hcond, ?_⟩)⟩
    · rw [log_moveToDisk, List.append_assoc] at heq
      exact heq
    · rw [show c.hot.lookup w = some a from hw]
      rfl
  | keep h hpop hno =>
    refine .of_eq rfl fun ⟨_, w, p, q, hpop', hcond, hw⟩ => ?_
    rw [hpop] at hpop'
    cases hpop'
    rw [show c.hot.lookup _ = none from hno hcond] at hw
    cases hw

/-- What an update of an entry in flight logs. -/
theorem logsIff_update_inFlight {data : EntryData} {round : UInt8} (hd : c.index.lookup i = some data)
    (hc : data.cached = .inFlight round) (score : F64) :
    LogsIff (gracePeriod < round + 1 ∧ (c.inFlight.get i).isSome ∧ CacheFull c) c (c.update i score) := by
  unfold update
  rw [hd]
  dsimp only
  split
  · rename_i round' hc'
    rw [hc] at hc'
    cases hc'
    split
    · rename_i hgrace
      split
      · rename_i ast rest hrest
        obtain ⟨hget, rfl⟩ := IndexMap.shiftRemove_eq_some.1 hrest
        rw [inFlight_setCached] at hget
        obtain ⟨asts, heq, hiff⟩ := logsIff_settle { setCached { c with
          index := c.index.insert i { data with score := score } } i (.inFlight (round + 1)) with
            inFlight := c.inFlight.erase i } i ast score
        refine ⟨asts, heq, hiff.trans (not_congr ⟨fun hf => ⟨hgrace, ?_, hf⟩, fun h => h.2.2⟩)⟩
        exact Option.isSome_iff_exists.2 ⟨ast, hget⟩
      · rename_i hrest
        refine .of_eq rfl fun ⟨_, hsome, _⟩ => ?_
        obtain ⟨ast, hget⟩ := Option.isSome_iff_exists.1 hsome
        rw [inFlight_setCached, IndexMap.shiftRemove_eq_some.2 ⟨hget, rfl⟩] at hrest
        cases hrest
    · rename_i hgrace
      exact .of_eq rfl fun h => hgrace h.1
  · rename_i hc'
    rw [hc] at hc'
    cases hc'
  · rename_i hc'
    rw [hc] at hc'
    cases hc'

theorem logsIff_update (c : DynamicCorpus Stmt (SQLSaver B Stmt) Q) (i : ID) (score : F64) :
    LogsIff (MovesToDisk c (.update i score)) c (c.update i score) := by
  cases hd : c.index.lookup i with
  | none =>
    refine .of_eq ?_ fun ⟨data, hd', _⟩ => ?_
    · simp [update, hd]
    · rw [hd] at hd'
      cases hd'
  | some data =>
    -- the entry has one location, and the condition is the one for it
    have hmoves : MovesToDisk c (.update i score) ↔ match data.cached with
        | .inFlight round => gracePeriod < round + 1 ∧ (c.inFlight.get i).isSome ∧ CacheFull c
        | .hot => False
        | .disk => Evictable c fun cached => cached.ltIeee score := by
      refine ⟨?_, fun h => ⟨data, hd, h⟩⟩
      rintro ⟨data', hd', h⟩
      rw [hd] at hd'
      cases hd'
      exact h
    rw [hmoves]
    cases hc : data.cached with
    | inFlight round => exact logsIff_update_inFlight hd hc score
    | disk => exact logsIff_update_disk hd hc score
    | hot =>
      refine .of_eq ?_ id
      unfold update
      rw [hd]
      dsimp only
      rw [hc]
      rfl

end Log

end DynamicCorpus

/-! ## Every run -/

/-- A corpus over a `SQLSaver`, with the queries that were inserted since it was last cleared. -/
structure LogRun (Stmt B Q : Type) where
  corpus : DynamicCorpus Stmt (SQLSaver B Stmt) Q
  inserted : List (AST Stmt)

namespace LogRun

variable {Stmt B Q : Type} [StorageBackend B Stmt] [PriorityQueue Q ID F64.Reverse]

def new (caps : Caps) (backend : B) : LogRun Stmt B Q := ⟨.new caps (.new backend), []⟩

def step (s : LogRun Stmt B Q) (op : CorpusOp Stmt) : Option (LogRun Stmt B Q) :=
  some ⟨(op.apply s.corpus).2, match op with
    | .insert entry _ => s.inserted ++ [entry.raw.ast]
    | .clear => []
    | _ => s.inserted⟩

/-- **The log has every inserted entry once**, in the order of insertion. -/
def SavedOnce (s : LogRun Stmt B Q) : Prop := s.corpus.diskCache.log = s.inserted

/-- No entry is demoted. -/
def NoDemotion (s : LogRun Stmt B Q) (op : CorpusOp Stmt) : Prop := ¬s.corpus.MovesToDisk op

/-- **One operation keeps the log exact if and only if it demotes nothing.** -/
theorem SavedOnce.step_iff {s s' : LogRun Stmt B Q} (h : SavedOnce s) (op : CorpusOp Stmt)
    (hs : s.step op = some s') : SavedOnce s' ↔ NoDemotion s op := by
  cases hs
  unfold SavedOnce NoDemotion
  unfold SavedOnce at h
  cases op with
  | insert entry score =>
    obtain ⟨asts, heq, hiff⟩ := s.corpus.logsIff_insert entry score
    rw [← hiff]
    show (s.corpus.insert entry score).diskCache.log = s.inserted ++ [entry.raw.ast] ↔ _
    rw [heq, h]
    simp
  | get id => exact iff_of_true ((s.corpus.log_get id).trans h) not_false
  | update id score =>
    obtain ⟨asts, heq, hiff⟩ := s.corpus.logsIff_update id score
    rw [← hiff]
    show (s.corpus.update id score).diskCache.log = s.inserted ↔ _
    rw [heq, h]
    simp
  | remove id => exact iff_of_true ((congrArg SQLSaver.log (s.corpus.remove_frame id).2.2.1).trans h) not_false
  | resize => exact iff_of_true ((congrArg SQLSaver.log s.corpus.diskCache_resize).trans h) not_false
  | clear => exact iff_of_true SQLSaver.log_clear not_false

/-- **The log has every inserted entry once exactly as long as no operation demotes an entry**, over every sequence of
operations. -/
theorem savedOnce_iff (caps : Caps) (backend : B) (ops : List (CorpusOp Stmt)) :
    AllStates step SavedOnce (new caps backend : LogRun Stmt B Q) ops ↔
      AllSteps step NoDemotion (new caps backend : LogRun Stmt B Q) ops := by
  refine allStates_iff_allSteps (I := SavedOnce) (G := fun _ _ => True) (fun _ h => h) ?_ ?_ rfl
    (allSteps_of_forall fun _ _ _ => trivial)
  · intro s op s' h _ hno hs
    exact (h.step_iff op hs).2 hno
  · intro s op h _ hdem
    exact ⟨_, rfl, fun h' => hdem ((h.step_iff op rfl).1 h')⟩

end LogRun

/-! ## A run with the capacities of the source -/

namespace LogRun

abbrev NatRun := LogRun Nat (InMemory (AST Nat)) (ListQueue ID F64.Reverse)

def idNo (n : Nat) : ID := ⟨UInt32.ofNat n⟩

/-- The insertion of the entry with the number `n`. -/
def insertNo (n : Nat) : CorpusOp Nat := .insert ⟨⟨idNo n, [], [n]⟩, .default⟩ .posInf

theorem idNo_injective {m n : Nat} (hm : m < 2 ^ 32) (hn : n < 2 ^ 32) (h : idNo m = idNo n) : m = n := by
  have hnat := congrArg (fun id : ID => id.raw.toNat) h
  simp only [idNo, UInt32.toNat_ofNat'] at hnat
  omega

/-- While there is room in the first tier, entries line up there. -/
theorem keys_of_insertions {cap : Nat} (hcap : cap ≤ 2 ^ 32) {n i : Nat} (hn : i + n ≤ cap) {s : NatRun}
    (hroom : s.corpus.caps.inFlightCap = cap) (hkeys : s.corpus.inFlight.keys = (List.range i).map idNo) :
    ∃ s', run step s ((List.range' i n).map insertNo) = some s' ∧ s'.corpus.caps.inFlightCap = cap ∧
      s'.corpus.inFlight.keys = (List.range (i + n)).map idNo := by
  induction n generalizing i s with
  | zero => exact ⟨s, rfl, hroom, hkeys⟩
  | succ n ih =>
    have hlen : s.corpus.inFlight.len = i := by
      rw [IndexMap.len, ← List.length_map (f := Prod.fst), ← IndexMap.keys, hkeys]
      simp
    have hnew : idNo i ∉ s.corpus.inFlight.keys := by
      rw [hkeys, List.mem_map]
      rintro ⟨j, hj, heq⟩
      rw [List.mem_range] at hj
      have := idNo_injective (by omega) (by omega) heq
      omega
    have hstep : ∃ s', s.step (insertNo i) = some s' ∧ s'.corpus.caps.inFlightCap = cap ∧
        s'.corpus.inFlight.keys = (List.range (i + 1)).map idNo := by
      refine ⟨_, rfl, ?_⟩
      show (s.corpus.insert ⟨⟨idNo i, [], [i]⟩, .default⟩ .posInf).caps.inFlightCap = cap ∧
        (s.corpus.insert ⟨⟨idNo i, [], [i]⟩, .default⟩ .posInf).inFlight.keys = _
      unfold DynamicCorpus.insert
      dsimp only
      rw [if_neg (by omega)]
      refine ⟨hroom, ?_⟩
      show (s.corpus.inFlight.insert (idNo i) [i]).keys = _
      rw [IndexMap.keys_insert_of_notMem hnew, hkeys, List.range_succ, List.map_append]
      rfl
    obtain ⟨s₁, hs, hroom₁, hkeys₁⟩ := hstep
    obtain ⟨s', hrun, hroom', hkeys'⟩ := ih (by omega) hroom₁ hkeys₁
    refine ⟨s', ?_, hroom', by rw [hkeys']; congr 2; omega⟩
    rw [List.range'_succ, List.map_cons]
    exact run_cons_eq_some.2 ⟨s₁, hs, hrun⟩

/-- As many insertions as there is room for, the removal of the first entry, and one insertion more. -/
def fillRemoveInsert (cap : Nat) : List (CorpusOp Nat) :=
  (List.range' 0 cap).map insertNo ++ [.remove (idNo 0), insertNo cap]

/-- The removed entry is pushed out, and saved again. -/
theorem not_savedOnce_of_full (caps : Caps) (hpos : 0 < caps.inFlightCap) (hcap : caps.inFlightCap ≤ 2 ^ 32) :
    ¬AllStates step SavedOnce (new caps .new : NatRun) (fillRemoveInsert caps.inFlightCap) := by
  intro hall
  obtain ⟨s, hrun, hroom, hkeys⟩ := keys_of_insertions hcap (Nat.zero_add _).le (s := new caps .new) rfl rfl
  have hrest := hall.after_run hrun
  have hremoved := hrest.2 _ rfl
  have hno : NoDemotion _ (insertNo caps.inFlightCap) := (hremoved.head.step_iff _ rfl).1 (hremoved.2 _ rfl)
  apply hno
  obtain ⟨hcaps, hinFlight, -, hgone⟩ := s.corpus.remove_frame (idNo 0)
  obtain ⟨⟨id, ast⟩, hfirst⟩ : ∃ p, s.corpus.inFlight.entries[0]? = some p := by
    have hlen : s.corpus.inFlight.keys.length = caps.inFlightCap := by simp [hkeys]
    rw [IndexMap.keys, List.length_map] at hlen
    exact ⟨_, List.getElem?_eq_getElem (by omega)⟩
  have hid : id = idNo 0 := by
    have hkey := congrArg (·[0]?) hkeys
    simp only [IndexMap.keys, List.getElem?_map, hfirst, Nat.zero_add, List.getElem?_range hpos] at hkey
    simpa using hkey
  subst hid
  constructor
  · show (s.corpus.remove (idNo 0)).caps.inFlightCap ≤ (s.corpus.remove (idNo 0)).inFlight.len
    rw [hcaps, hinFlight, hroom, IndexMap.len, ← List.length_map (f := Prod.fst), ← IndexMap.keys, hkeys]
    simp
  · refine ⟨idNo 0, ast, s.corpus.inFlight.erase (idNo 0), ?_, .inl hgone⟩
    show (s.corpus.remove (idNo 0)).inFlight.shiftRemoveIndex 0 = _
    rw [hinFlight]
    simp [IndexMap.shiftRemoveIndex, hfirst]

/-- With the capacities of the source, a removed entry is saved twice. -/
theorem not_savedOnce_source :
    ¬AllStates step SavedOnce (new (Caps.source (.sorted ID)) .new : NatRun) (fillRemoveInsert 2048) :=
  not_savedOnce_of_full (.source (.sorted ID)) (by decide) (by decide)

end LogRun

end Lsf.Engine
