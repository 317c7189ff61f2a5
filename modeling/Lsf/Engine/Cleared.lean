import Lsf.Engine.ShardedDiskCache
import Lsf.Lib.Run

/-!
# The disk cache after a clear

`clear` removes the whole directory and leaves the marks of `createdShards`, so that a write into a shard that was used
before finds no directory; and the directory itself is not made again, so that a second `clear` panics. The cache works
all along a run exactly when it started without files and was cleared, if at all, before everything else (`works_iff`).
-/

namespace Lsf.Engine

open Lsf.Core Lsf.Lib

/-- A cache, whether its directory exists, whether it has panicked, and what was written since the last clear. -/
structure DiskRun (Stmt : Type) where
  cache : ShardedDiskCache Stmt
  rootExists : Bool
  panicked : Bool
  log : List (ID × AST Stmt)

/-- The calls that change something. -/
inductive DiskOp (Stmt : Type) where
  | write (id : ID) (ast : AST Stmt)
  | clear

namespace DiskRun

variable {Stmt : Type}

/-- `create_dir_all` of the directory, whatever it holds. -/
def new (dirs : Finset Shard) (files : HashMap ID String) : DiskRun Stmt := ⟨.new dirs files, true, false, []⟩

variable [SqlText Stmt]

def step (s : DiskRun Stmt) (op : DiskOp Stmt) : Option (DiskRun Stmt) :=
  if s.panicked then none
  else
    match op with
    | .write id ast => some { s with
        cache := (s.cache.write id ast).2
        rootExists := s.rootExists || decide (ShardedDiskCache.idToShards id ∉ s.cache.createdShards)
        log := s.log ++ [(id, ast)] }
    | .clear =>
      if s.rootExists then some ⟨s.cache.clear, false, false, []⟩
      else some { s with panicked := true }

/-- New ids can be written, written ids can be read, and a shard is marked only if its directory exists. -/
structure Works (s : DiskRun Stmt) : Prop where
  alive : s.panicked = false
  writable : ∀ id, s.log.lookup id = none → ∀ ast, (s.cache.write id ast).1 = .ok ()
  readable : ∀ id ast, s.log.lookup id = some ast → s.cache.retrieve id = .ok ast
  marked : s.cache.createdShards ⊆ s.cache.dirs

/-- A clear finds the directory, and no shard marked. -/
def ClearsUnused (s : DiskRun Stmt) : DiskOp Stmt → Prop
  | .write _ _ => True
  | .clear => s.rootExists = true ∧ s.cache.createdShards = ∅

/-- **The files are the texts of what was written**, and the marked shards have their directories. -/
structure Faithful (s : DiskRun Stmt) : Prop where
  alive : s.panicked = false
  files : ∀ id, s.cache.files.lookup id = (s.log.lookup id).map render
  marked : s.cache.createdShards ⊆ s.cache.dirs

end DiskRun

namespace ShardedDiskCache

variable {Stmt : Type} {c : ShardedDiskCache Stmt}

theorem mem_createdShards_ensureDirExists (c : ShardedDiskCache Stmt) (i : ID) :
    idToShards i ∈ (c.ensureDirExists i).createdShards := by
  unfold ensureDirExists
  split
  · assumption
  · exact Finset.mem_insert_self _ _

/-- Marks that were right stay right. -/
theorem marked_ensureDirExists (h : c.createdShards ⊆ c.dirs) (i : ID) :
    (c.ensureDirExists i).createdShards ⊆ (c.ensureDirExists i).dirs := by
  unfold ensureDirExists
  split
  · exact h
  · exact Finset.insert_subset_insert _ h

variable [SqlText Stmt]

theorem mem_createdShards_write (c : ShardedDiskCache Stmt) (i : ID) (a : AST Stmt) :
    idToShards i ∈ (c.write i a).2.createdShards := by
  unfold write
  dsimp only
  split
  · exact mem_createdShards_ensureDirExists c i
  · split <;> exact mem_createdShards_ensureDirExists c i

/-- A write to a cache with right marks fails only if there is a file. -/
theorem write_spec (h : c.createdShards ⊆ c.dirs) (i : ID) (a : AST Stmt) :
    (c.write i a).2.createdShards ⊆ (c.write i a).2.dirs ∧
      if (c.files.lookup i).isSome then (c.write i a).1 = .error .alreadyExists ∧ (c.write i a).2.files = c.files
      else (c.write i a).1 = .ok () ∧ (c.write i a).2.files = c.files.insert i (render a) := by
  have hsub := marked_ensureDirExists h i
  unfold write
  rw [if_neg (not_not.2 (hsub (mem_createdShards_ensureDirExists c i)))]
  simp only [files_ensureDirExists]
  split
  · exact ⟨hsub, rfl, files_ensureDirExists⟩
  · exact ⟨hsub, rfl, rfl⟩

end ShardedDiskCache

namespace DiskRun

variable {Stmt : Type} [SqlText Stmt]

theorem Faithful.new (dirs : Finset Shard) : Faithful (new dirs ∅ : DiskRun Stmt) where
  alive := rfl
  files _ := rfl
  marked := Finset.empty_subset _

/-- **One call keeps the cache faithful**, a clear only if nothing is marked. -/
theorem Faithful.step {s s' : DiskRun Stmt} (h : Faithful s) (op : DiskOp Stmt) (hclear : ClearsUnused s op)
    (hs : DiskRun.step s op = some s') : Faithful s' := by
  unfold DiskRun.step at hs
  rw [h.alive, if_neg Bool.false_ne_true] at hs
  cases op with
  | write id ast =>
    obtain ⟨hsub, hfiles⟩ := s.cache.write_spec h.marked id ast
    cases hs
    refine ⟨rfl, fun j => ?_, hsub⟩
    show (s.cache.write id ast).2.files.lookup j = ((s.log ++ [(id, ast)]).lookup j).map render
    rw [lookup_snoc]
    split at hfiles
    · -- a second write fails, and the log keeps to the first
      rename_i hsome
      rw [hfiles.2, h.files]
      rw [h.files, Option.isSome_map] at hsome
      by_cases hj : j = id
      · subst hj
        obtain ⟨a, ha⟩ := Option.isSome_iff_exists.1 hsome
        rw [ha]
        rfl
      · rw [if_neg hj, Option.or_none]
    · rename_i hnone
      rw [hfiles.2, HashMap.lookup_insert_iff, h.files]
      rw [h.files, Option.isSome_map, Option.not_isSome_iff_eq_none] at hnone
      by_cases hj : j = id
      · subst hj
        rw [if_pos rfl, if_pos rfl, hnone]
        rfl
      · rw [if_neg hj, if_neg hj, Option.or_none]
  | clear =>
    obtain ⟨hroot, hempty⟩ := hclear
    dsimp only at hs
    rw [if_pos hroot] at hs
    cases hs
    refine ⟨rfl, fun _ => rfl, ?_⟩
    show s.cache.createdShards ⊆ ∅
    rw [hempty]

/-- The clear of a cache in use leaves a marked shard without a directory, and a second one panics. -/
theorem not_works_of_clear {s : DiskRun Stmt} (h : Faithful s) (hused : ¬ClearsUnused s .clear) :
    ∃ s', step s .clear = some s' ∧ ¬Works s' := by
  unfold step
  rw [h.alive, if_neg Bool.false_ne_true]
  dsimp only
  by_cases hroot : s.rootExists = true
  · rw [if_pos hroot]
    refine ⟨_, rfl, fun hworks => hused ⟨hroot, Finset.subset_empty.1 hworks.marked⟩⟩
  · rw [if_neg hroot]
    exact ⟨_, rfl, fun hworks => absurd hworks.alive (by simp)⟩

theorem step_write_used {s : DiskRun Stmt} (halive : s.panicked = false) (id : ID) (ast : AST Stmt) :
    ∃ s', step s (.write id ast) = some s' ∧ s'.panicked = false ∧ ¬ClearsUnused s' .clear := by
  refine ⟨_, if_neg (by rw [halive]; exact Bool.false_ne_true), halive, fun h => ?_⟩
  have hmem : ShardedDiskCache.idToShards id ∈ (s.cache.write id ast).2.createdShards :=
    ShardedDiskCache.mem_createdShards_write s.cache id ast
  rw [h.2] at hmem
  exact absurd hmem (Finset.notMem_empty _)

/-- Once something was written or cleared, no clear finds the cache unused. -/
theorem clearsUnused_iff_notMem {s : DiskRun Stmt} (halive : s.panicked = false) (hused : ¬ClearsUnused s .clear)
    (ops : List (DiskOp Stmt)) : AllSteps step ClearsUnused s ops ↔ DiskOp.clear ∉ ops := by
  induction ops generalizing s with
  | nil => exact iff_of_true trivial List.not_mem_nil
  | cons op ops ih =>
    cases op with
    | clear => exact iff_of_false (fun h => hused h.1) fun h => h List.mem_cons_self
    | write id ast =>
      obtain ⟨s', hs, halive', hused'⟩ := step_write_used halive id ast
      rw [List.mem_cons, not_or, ← ih halive' hused', allSteps_cons_of_step hs]
      exact and_congr_left' (iff_of_true trivial nofun)

variable [LawfulSqlText Stmt]

theorem Faithful.works {s : DiskRun Stmt} (h : Faithful s) : Works s where
  alive := h.alive
  writable id hid ast := by
    obtain ⟨-, hwrite⟩ := s.cache.write_spec h.marked id ast
    rw [h.files, hid] at hwrite
    exact hwrite.1
  readable id ast hid := by
    unfold ShardedDiskCache.retrieve
    rw [h.files, hid]
    show (SqlText.parse (render ast)).elim _ _ = _
    rw [LawfulSqlText.parse_render]
    rfl
  marked := h.marked

/-- A run of calls from a cache without files. -/
theorem works_iff_allSteps (dirs : Finset Shard) (ops : List (DiskOp Stmt)) :
    AllStates step Works (new dirs ∅) ops ↔ AllSteps step ClearsUnused (new dirs ∅) ops := by
  refine allStates_iff_allSteps (I := Faithful) (G := fun _ _ => True) (fun _ h => h.works)
    (fun _ op _ h _ hclear hs => h.step op hclear hs) (fun s op h _ hused => ?_) (.new dirs)
    (allSteps_of_forall fun _ _ _ => trivial)
  cases op with
  | write id ast => exact absurd trivial hused
  | clear => exact not_works_of_clear h hused

/-- **The cache works** in every state of a run exactly when it began without files and nothing but the first call is a
clear. -/
theorem works_iff (dirs : Finset Shard) (files : HashMap ID String) (ops : List (DiskOp Stmt)) :
    AllStates step Works (new dirs files) ops ↔ files = ∅ ∧ DiskOp.clear ∉ ops.tail := by
  by_cases hfiles : files = ∅
  · subst hfiles
    rw [works_iff_allSteps, and_iff_right rfl]
    cases ops with
    | nil => exact iff_of_true trivial List.not_mem_nil
    | cons op ops =>
      cases op with
      | write id ast =>
        obtain ⟨s', hs, halive, hused⟩ := step_write_used (s := new dirs ∅) rfl id ast
        rw [List.tail_cons, ← clearsUnused_iff_notMem halive hused, allSteps_cons_of_step hs]
        exact and_iff_right trivial
      | clear =>
        have hs : step (new dirs ∅ : DiskRun Stmt) .clear = some ⟨.new ∅ ∅, false, false, []⟩ := rfl
        have hused : ¬ClearsUnused (⟨.new ∅ ∅, false, false, []⟩ : DiskRun Stmt) .clear := fun h => nomatch h.1
        rw [List.tail_cons, ← clearsUnused_iff_notMem rfl hused, allSteps_cons_of_step hs]
        exact and_iff_right ⟨rfl, rfl⟩
  · refine iff_of_false (fun h => hfiles ?_) fun h => hfiles h.1
    -- a left-over file is in the way of its id
    refine HashMap.eq_empty_of_lookup fun id => ?_
    have hok : ((ShardedDiskCache.new dirs files : ShardedDiskCache Stmt).write id []).1 = .ok () :=
      h.head.writable id rfl []
    rcases (ShardedDiskCache.new dirs files : ShardedDiskCache Stmt).write_cases id [] with ⟨e, he, -⟩ | ⟨hnone, -, -⟩
    · rw [he] at hok
      cases hok
    · exact hnone

/-- A clear at the start, and then two writes into one shard. -/
theorem works_unused :
    AllStates step Works (new ∅ ∅) ([.clear, .write ⟨1⟩ [()], .write ⟨0x10001⟩ []] : List (DiskOp Unit)) :=
  (works_iff ∅ ∅ _).2 ⟨rfl, by simp⟩

/-- After a write and a clear, the next write into the shard finds no directory, though its id is new. -/
theorem stale_shard :
    ¬AllStates step Works (new ∅ ∅) ([.write ⟨1⟩ [()], .clear] : List (DiskOp Unit)) ∧
      ∃ s, run step (new ∅ ∅) ([.write ⟨1⟩ [()], .clear] : List (DiskOp Unit)) = some s ∧ s.log = [] ∧
        (s.cache.write ⟨0x10001⟩ []).1 = .error .notFound := by
  refine ⟨fun hall => ?_, _, rfl, rfl, by decide +kernel⟩
  have hmarked := ((hall.2 _ rfl).2 _ rfl).marked
  revert hmarked
  decide +kernel

end DiskRun

end Lsf.Engine
