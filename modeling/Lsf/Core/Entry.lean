import Mathlib.Data.UInt
import Mathlib.Order.Basic

/-!
# Corpus entries

The identifiers, metadata and entries of `lsf-core`. Statements are those of the parser and stay a parameter `Stmt`; an
AST is the list of the statements of a query.
-/

namespace Lsf.Core

/-- The identifier of an entry. -/
structure ID where
  raw : UInt32
  deriving DecidableEq, Repr

instance : LinearOrder ID :=
  LinearOrder.lift' (fun i : ID => i.raw.toNat) fun i j h => by
    obtain ⟨i⟩ := i
    obtain ⟨j⟩ := j
    exact congrArg ID.mk (UInt32.toNat_inj.1 h)

/-- `ID::next`: the id handed out by the global counter, and the counter after it. -/
def ID.next (currentId : UInt32) : ID × UInt32 := (⟨currentId⟩, currentId + 1)

abbrev AST (Stmt : Type) := List Stmt

/-- What the execution of an entry was like. -/
structure Meta where
  triggersBug : Bool
  isValidSyntax : Bool
  execTime : UInt32
  newCovNodes : Nat
  querySize : Nat
  deriving DecidableEq, Repr

/-- `Meta::default`, which every seed carries. -/
def Meta.default : Meta := ⟨false, false, 0, 0, 0⟩

structure RawEntry (Stmt : Type) where
  id : ID
  parents : List ID
  ast : AST Stmt
  deriving DecidableEq, Repr

structure CorpusEntry (Stmt : Type) where
  raw : RawEntry Stmt
  metadata : Meta
  deriving DecidableEq, Repr

def RawEntry.intoCorpusEntry {Stmt : Type} (r : RawEntry Stmt) (m : Meta) : CorpusEntry Stmt := ⟨r, m⟩

/-- The id through `Deref`. -/
def CorpusEntry.id {Stmt : Type} (e : CorpusEntry Stmt) : ID := e.raw.id

end Lsf.Core
