import Lsf.Engine.Corpus

/-!
# The sharded disk cache

`ShardedDiskCache` writes each entry as SQL text to a file of its own, two directories deep, and opens it with
`create_new`: a second write of an id fails (`CreateNew`). The file system is the set of the shard directories and the
texts of the files; printing and parsing of statements are a parameter (`SqlText`).
-/

namespace Lsf.Engine

open Lsf.Core Lsf.Lib

/-- `Display for Statement` and `Parser::parse_sql`. -/
class SqlText (Stmt : Type) where
  print : Stmt → String
  parse : String → Option (AST Stmt)

/-- The text of an AST: its statements with semicolons between them. -/
def render {Stmt : Type} [SqlText Stmt] : AST Stmt → String
  | [] => ""
  | [stmt] => SqlText.print stmt
  | stmt :: rest => SqlText.print stmt ++ ";" ++ render rest

/-- Parsing undoes printing. -/
class LawfulSqlText (Stmt : Type) [SqlText Stmt] : Prop where
  parse_render : ∀ ast : AST Stmt, SqlText.parse (render ast) = some ast

abbrev Shard := UInt32 × UInt32

/-- The cache with what its directory holds. -/
structure ShardedDiskCache (Stmt : Type) where
  dirs : Finset Shard
  files : HashMap ID String
  createdShards : Finset Shard

namespace ShardedDiskCache

variable {Stmt : Type}

/-- A cache over a directory as it is. -/
def new (dirs : Finset Shard) (files : HashMap ID String) : ShardedDiskCache Stmt := ⟨dirs, files, ∅⟩

def idToShards (id : ID) : Shard := (id.raw &&& 0xFF, (id.raw >>> 8) &&& 0xFF)

/-- A shard directory is created once. -/
def ensureDirExists (c : ShardedDiskCache Stmt) (id : ID) : ShardedDiskCache Stmt :=
  if idToShards id ∈ c.createdShards then c
  else { c with dirs := insert (idToShards id) c.dirs, createdShards := insert (idToShards id) c.createdShards }

@[simp] theorem files_ensureDirExists {c : ShardedDiskCache Stmt} {i : ID} :
    (c.ensureDirExists i).files = c.files := by
  unfold ensureDirExists
  split <;> rfl

variable [SqlText Stmt]

def retrieve (c : ShardedDiskCache Stmt) (id : ID) : Except IoError (AST Stmt) :=
  match c.files.lookup id with
  | none => .error .notFound
  | some text => (SqlText.parse text).elim (.error .invalidInput) .ok

def write (c : ShardedDiskCache Stmt) (id : ID) (ast : AST Stmt) : Except IoError Unit × ShardedDiskCache Stmt :=
  let c := c.ensureDirExists id
  if idToShards id ∉ c.dirs then (.error .notFound, c)
  else if (c.files.lookup id).isSome then (.error .alreadyExists, c)
  else (.ok (), { c with files := c.files.insert id (render ast) })

/-- `remove_dir_all`: the directories go, the marks of `createdShards` stay. -/
def clear (c : ShardedDiskCache Stmt) : ShardedDiskCache Stmt := { c with dirs := ∅, files := ∅ }

instance : StorageBackend (ShardedDiskCache Stmt) Stmt where
  retrieve c id := (c.retrieve id, c)
  write := write
  clear := clear

variable {c : ShardedDiskCache Stmt} {i : ID} {a : AST Stmt}

theorem stored_eq (c : ShardedDiskCache Stmt) (i : ID) : stored c i = (c.files.lookup i).bind SqlText.parse := by
  unfold stored
  change (c.retrieve i).toOption = _
  unfold retrieve
  cases c.files.lookup i with
  | none => rfl
  | some text => cases h : (SqlText.parse text : Option (AST Stmt)) <;> simp [h, Except.toOption]

/-- What a write does to the files. -/
theorem write_cases (c : ShardedDiskCache Stmt) (i : ID) (a : AST Stmt) :
    (∃ e, (c.write i a).1 = .error e ∧ (c.write i a).2.files = c.files) ∨
      (c.files.lookup i = none ∧ (c.write i a).1 = .ok () ∧ (c.write i a).2.files = c.files.insert i (render a)) := by
  unfold write
  dsimp only
  split
  · exact .inl ⟨_, rfl, files_ensureDirExists⟩
  · split
    · exact .inl ⟨_, rfl, files_ensureDirExists⟩
    · next h =>
      rw [files_ensureDirExists, Option.not_isSome_iff_eq_none] at h
      exact .inr ⟨h, rfl, by rw [files_ensureDirExists]⟩

variable [LawfulSqlText Stmt]

instance : LawfulStorage (ShardedDiskCache Stmt) where
  stored_retrieve _ _ _ := rfl
  stored_write_ne c i a j hj := by
    rw [stored_eq, stored_eq]
    rcases c.write_cases i a with ⟨e, -, hf⟩ | ⟨-, -, hf⟩
    · exact congrArg (fun m => Option.bind (AList.lookup j m) _) hf
    · change ((c.write i a).2.files.lookup j).bind _ = _
      rw [hf, HashMap.lookup_insert_iff, if_neg hj]
  stored_write_ok c i a h := by
    rcases c.write_cases i a with ⟨e, he, -⟩ | ⟨-, -, hf⟩
    · change (c.write i a).1 = _ at h
      rw [he] at h
      cases h
    · refine .inl ?_
      rw [stored_eq]
      change ((c.write i a).2.files.lookup i).bind _ = _
      rw [hf, HashMap.lookup_insert_iff, if_pos rfl]
      exact LawfulSqlText.parse_render a
  stored_write_error c i a e h := by
    rw [stored_eq, stored_eq]
    rcases c.write_cases i a with ⟨e, -, hf⟩ | ⟨-, hok, -⟩
    · exact congrArg (fun m => Option.bind (AList.lookup i m) _) hf
    · change (c.write i a).1 = _ at h
      rw [hok] at h
      cases h

end ShardedDiskCache

/-- Storage that does not overwrite. -/
class CreateNew (B : Type) {Stmt : Type} [StorageBackend B Stmt] : Prop extends LawfulStorage B where
  write_error : ∀ (b : B) i a, (stored b i).isSome → ∃ e, (StorageBackend.write b i a).1 = .error e

instance {Stmt : Type} [SqlText Stmt] [LawfulSqlText Stmt] : CreateNew (ShardedDiskCache Stmt) where
  write_error c i a h := by
    rcases c.write_cases i a with ⟨e, he, -⟩ | ⟨hnone, -, -⟩
    · exact ⟨e, he⟩
    · rw [ShardedDiskCache.stored_eq, hnone] at h
      cases h

/-! ## A dialect of one statement -/

instance : SqlText Unit where
  print _ := "SELECT"
  parse s := some (List.replicate ((s.length + 1) / 7) ())

theorem length_render_unit (ast : AST Unit) (h : ast ≠ []) : (render ast).length + 1 = 7 * ast.length := by
  have hstmt : ∀ u : Unit, (SqlText.print u).length = 6 := fun _ => show ("SELECT" : String).length = 6 by decide
  have hsep : (";" : String).length = 1 := by decide
  induction ast with
  | nil => exact absurd rfl h
  | cons u rest ih =>
    cases rest with
    | nil =>
      have hu := hstmt u
      simp only [render, List.length_singleton]
      omega
    | cons v rest =>
      have hu := hstmt u
      have ih := ih (by simp)
      simp only [render, String.length_append, List.length_cons] at ih ⊢
      omega

instance : LawfulSqlText Unit where
  parse_render ast := by
    by_cases h : ast = []
    · subst h; rfl
    · have hlen := length_render_unit ast h
      change some (List.replicate (((render ast).length + 1) / 7) ()) = some ast
      rw [hlen, Nat.mul_div_cancel_left _ (by omega)]
      exact congrArg some (List.eq_replicate_iff.2 ⟨rfl, fun _ _ => rfl⟩).symm

end Lsf.Engine
