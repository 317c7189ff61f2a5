import Lsf.Core.Entry
import Lsf.Core.F64
import Lsf.Lib.Maps

/-!
# Corpora and storage backends

The traits `CorpusHandler` and `StorageBackend`, and `InMemory`, which implements both: a corpus that keeps its entries
in one map, and a backend that keeps the ASTs in one.
-/

namespace Lsf.Engine

open Lsf.Core Lsf.Lib

/-- The `io::ErrorKind`s that the storage code produces or meets. -/
inductive IoError where
  | notFound
  | alreadyExists
  | invalidInput
  | invalidData
  | other
  deriving DecidableEq, Repr

/-- The trait `CorpusHandler<f64>`. -/
class CorpusHandler (C : Type) (Stmt : outParam Type) where
  get : C → ID → Option (CorpusEntry Stmt) × C
  update : C → ID → F64 → C
  insert : C → CorpusEntry Stmt → F64 → C
  remove : C → ID → C
  resize : C → C
  ids : C → Finset ID
  protectedIds : C → Finset ID
  clear : C → C
  size : C → Nat

/-- The operations of a corpus as data. -/
inductive CorpusOp (Stmt : Type) where
  | insert (entry : CorpusEntry Stmt) (score : F64)
  | get (id : ID)
  | update (id : ID) (score : F64)
  | remove (id : ID)
  | resize
  | clear

/-- What a caller sees of an operation: what `get` returned, and the ids and the size afterwards. -/
structure Answer (Stmt : Type) where
  got : Option (CorpusEntry Stmt)
  ids : Finset ID
  size : Nat

section Operations

variable {C Stmt : Type} [CorpusHandler C Stmt]

def CorpusOp.apply (c : C) : CorpusOp Stmt → Option (CorpusEntry Stmt) × C
  | .insert entry score => (none, CorpusHandler.insert c entry score)
  | .get id => CorpusHandler.get c id
  | .update id score => (none, CorpusHandler.update c id score)
  | .remove id => (none, CorpusHandler.remove c id)
  | .resize => (none, CorpusHandler.resize c)
  | .clear => (none, CorpusHandler.clear c)

def CorpusOp.answer (c : C) (op : CorpusOp Stmt) : Answer Stmt × C :=
  let (got, c) := op.apply c
  (⟨got, CorpusHandler.ids c, CorpusHandler.size c⟩, c)

/-- Every operation returns. -/
def CorpusOp.step (c : C) (op : CorpusOp Stmt) : Option C := some (op.apply c).2

end Operations

/-- The trait `StorageBackend`. -/
class StorageBackend (B : Type) (Stmt : outParam Type) where
  retrieve : B → ID → Except IoError (AST Stmt) × B
  write : B → ID → AST Stmt → Except IoError Unit × B
  clear : B → B

section Storage

variable {B Stmt : Type} [StorageBackend B Stmt]

/-- The AST that `retrieve` finds for an id. -/
def stored (b : B) (i : ID) : Option (AST Stmt) := (StorageBackend.retrieve b i).1.toOption

/-- What the backends have in common: reading changes nothing that is stored, a write touches one id, and only if it
succeeds; it stores the AST written or leaves the one that was there. -/
class LawfulStorage (B : Type) {Stmt : Type} [StorageBackend B Stmt] : Prop where
  stored_retrieve : ∀ (b : B) i j, stored (StorageBackend.retrieve b i).2 j = stored b j
  stored_write_ne : ∀ (b : B) i a j, j ≠ i → stored (StorageBackend.write b i a).2 j = stored b j
  stored_write_ok : ∀ (b : B) i a, (StorageBackend.write b i a).1 = .ok () →
    stored (StorageBackend.write b i a).2 i = some a ∨
      (stored b i).isSome ∧ stored (StorageBackend.write b i a).2 i = stored b i
  stored_write_error : ∀ (b : B) i a e, (StorageBackend.write b i a).1 = .error e →
    stored (StorageBackend.write b i a).2 i = stored b i

/-- Storage that never fails: every write succeeds, also for an id that is stored. -/
class ReliableStorage (B : Type) {Stmt : Type} [StorageBackend B Stmt] : Prop extends LawfulStorage B where
  write_ok : ∀ (b : B) i a, (StorageBackend.write b i a).1 = .ok ()
  stored_clear : ∀ (b : B) i, stored (StorageBackend.clear b) i = none

export LawfulStorage (stored_retrieve stored_write_ne stored_write_ok stored_write_error)
export ReliableStorage (write_ok stored_clear)

theorem stored_of_retrieve_ok {b : B} {i : ID} {a : AST Stmt} (h : (StorageBackend.retrieve b i).1 = .ok a) :
    stored b i = some a := by
  rw [stored, h]; rfl

variable [LawfulStorage B]

/-- After a successful write the id is stored. -/
theorem stored_write_isSome {b : B} {i : ID} {a : AST Stmt} (h : (StorageBackend.write b i a).1 = .ok ()) :
    (stored (StorageBackend.write b i a).2 i).isSome := by
  rcases stored_write_ok b i a h with h | ⟨h, he⟩
  · rw [h]; rfl
  · rw [he]; exact h

/-- No write loses what is stored. -/
theorem stored_write_isSome_of_isSome {b : B} {i j : ID} {a : AST Stmt} (h : (stored b j).isSome) :
    (stored (StorageBackend.write b i a).2 j).isSome := by
  by_cases hj : j = i
  · subst hj
    cases hw : (StorageBackend.write b j a).1 with
    | ok u => exact stored_write_isSome hw
    | error e => rw [stored_write_error b j a e hw]; exact h
  · rw [stored_write_ne b i a j hj]; exact h

/-- What is stored after a write was written or stored before. -/
theorem stored_write_cases {b : B} {i j : ID} {a a' : AST Stmt}
    (h : stored (StorageBackend.write b i a).2 j = some a') : (j = i ∧ a' = a) ∨ stored b j = some a' := by
  by_cases hj : j = i
  · subst hj
    cases hw : (StorageBackend.write b j a).1 with
    | ok u =>
      rcases stored_write_ok b j a hw with he | ⟨-, he⟩
      · rw [he] at h; exact .inl ⟨rfl, (Option.some.inj h).symm⟩
      · rw [he] at h; exact .inr h
    | error e => rw [stored_write_error b j a e hw] at h; exact .inr h
  · rw [stored_write_ne b i a j hj] at h; exact .inr h

end Storage

/-! ## InMemory -/

structure InMemory (T : Type) where
  inner : HashMap ID T

namespace InMemory

variable {T Stmt : Type}

def new : InMemory T := ⟨∅⟩

instance : CorpusHandler (InMemory (CorpusEntry Stmt)) Stmt where
  get c id := (c.inner.lookup id, c)
  update c _ _ := c
  insert c entry _ := ⟨c.inner.insert entry.id entry⟩
  remove c id := ⟨c.inner.erase id⟩
  resize c := c
  ids c := HashMap.keySet c.inner
  protectedIds _ := ∅
  clear _ := ⟨∅⟩
  size c := HashMap.size c.inner

instance : StorageBackend (InMemory (AST Stmt)) Stmt where
  retrieve b id := ((b.inner.lookup id).elim (.error .notFound) .ok, b)
  write b id ast := (.ok (), ⟨b.inner.insert id ast⟩)
  clear _ := ⟨∅⟩

theorem stored_eq (b : InMemory (AST Stmt)) (i : ID) : stored b i = b.inner.lookup i := by
  cases h : b.inner.lookup i <;> simp [stored, StorageBackend.retrieve, h, Except.toOption]

instance : ReliableStorage (InMemory (AST Stmt)) where
  stored_retrieve _ _ _ := rfl
  stored_write_ne b i a j h := by simp [stored_eq, StorageBackend.write, h]
  stored_write_ok b i a _ := .inl (by simp [stored_eq, StorageBackend.write])
  stored_write_error b i a e h := by cases h
  write_ok _ _ _ := rfl
  stored_clear b i := by simp [stored_eq, StorageBackend.clear]

end InMemory

end Lsf.Engine
