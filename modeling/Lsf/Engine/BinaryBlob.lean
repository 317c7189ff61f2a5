import Lsf.Engine.Corpus
import Lsf.Lib.Run

/-!
# The binary blob

`BinaryBlob` appends the encoded ASTs to one file and keeps the slot of each in memory. The offset of the next slot is a
counter that starts at zero and only follows the writes that succeed, while the file may hold something from before and
keeps what a failed write leaves behind. A write that finds the file ending at the counter is read back for ever
(`Sound`); encoding is a parameter (`Postcard`).
-/

namespace Lsf.Engine

open Lsf.Core Lsf.Lib

/-- `postcard::to_allocvec` and `postcard::from_bytes`. -/
class Postcard (Stmt : Type) where
  toAllocvec : AST Stmt → Option (List UInt8)
  fromBytes : List UInt8 → Option (AST Stmt)

/-- Decoding undoes encoding. -/
class LawfulPostcard (Stmt : Type) [Postcard Stmt] : Prop where
  fromBytes_toAllocvec : ∀ ast : AST Stmt, (Postcard.toAllocvec ast).bind Postcard.fromBytes = some ast

structure FileSlot where
  offset : Nat
  size : Nat

/-- The blob with the content of its file. -/
structure BinaryBlob (Stmt : Type) where
  index : HashMap ID FileSlot
  file : List UInt8
  currentOffset : Nat

/-- `read_exact_at`: too few bytes are an error. -/
def readExactAt (file : List UInt8) (offset size : Nat) : Except IoError (List UInt8) :=
  let buffer := (file.drop offset).take size
  if buffer.length = size then .ok buffer else .error .other

theorem readExactAt_of_prefix {file bytes : List UInt8} {offset : Nat} (h : bytes <+: file.drop offset) :
    readExactAt file offset bytes.length = .ok bytes := by
  unfold readExactAt
  rw [← List.prefix_iff_eq_take.1 h]
  exact if_pos rfl

/-- What stands behind an offset stays there when the file grows. -/
theorem prefix_drop_append {bytes file tail : List UInt8} {offset : Nat} (h : bytes <+: file.drop offset) :
    bytes <+: (file ++ tail).drop offset := by
  rw [List.drop_append]
  exact h.trans (List.prefix_append _ _)

/-- How an appending `write_all` ends: with all of its bytes, or with an error after the first `n` of them. -/
inductive Appended where
  | whole
  | torn (n : Nat)
  deriving DecidableEq, Repr

namespace BinaryBlob

variable {Stmt : Type}

/-- A file is opened for appending, whatever it holds. -/
def new (file : List UInt8) : BinaryBlob Stmt := ⟨∅, file, 0⟩

variable [Postcard Stmt]

def retrieve (b : BinaryBlob Stmt) (id : ID) : Except IoError (AST Stmt) :=
  match b.index.lookup id with
  | none => .error .notFound
  | some slot => do
    let buffer ← readExactAt b.file slot.offset slot.size
    (Postcard.fromBytes buffer).elim (.error .invalidData) .ok

def write (b : BinaryBlob Stmt) (id : ID) (ast : AST Stmt) (io : Appended) :
    Except IoError Unit × BinaryBlob Stmt :=
  if (b.index.lookup id).isSome then (.ok (), b)
  else
    match Postcard.toAllocvec ast with
    | none => (.error .invalidData, b)
    | some bytes =>
      match io with
      | .torn n => (.error .other, { b with file := b.file ++ bytes.take n })
      | .whole => (.ok (), {
          index := b.index.insert id ⟨b.currentOffset, bytes.length⟩
          file := b.file ++ bytes
          currentOffset := b.currentOffset + bytes.length })

/-- `set_len(0)`. -/
def clear (_ : BinaryBlob Stmt) : BinaryBlob Stmt := ⟨∅, [], 0⟩

instance : StorageBackend (BinaryBlob Stmt) Stmt where
  retrieve b id := (b.retrieve id, b)
  write b id ast := b.write id ast .whole
  clear := clear

/-- What a write does: nothing for an id that has a slot, a slot at the counter, or some bytes without a slot. -/
theorem write_cases (b : BinaryBlob Stmt) (id : ID) (ast : AST Stmt) (io : Appended) :
    ((b.index.lookup id).isSome ∧ b.write id ast io = (.ok (), b)) ∨
    (∃ bytes, b.index.lookup id = none ∧ Postcard.toAllocvec ast = some bytes ∧ io = .whole ∧
      b.write id ast io = (.ok (), ⟨b.index.insert id ⟨b.currentOffset, bytes.length⟩, b.file ++ bytes,
        b.currentOffset + bytes.length⟩)) ∨
    (∃ e tail, b.index.lookup id = none ∧ (io = .whole → Postcard.toAllocvec ast = none) ∧
      b.write id ast io = (.error e, { b with file := b.file ++ tail })) := by
  unfold write
  by_cases hsome : (b.index.lookup id).isSome
  · exact .inl ⟨hsome, if_pos hsome⟩
  · rw [if_neg hsome]
    have hnone := Option.not_isSome_iff_eq_none.1 hsome
    cases hbytes : Postcard.toAllocvec ast with
    | none => exact .inr (.inr ⟨.invalidData, [], hnone, fun _ => rfl, by simp⟩)
    | some bytes =>
      cases io with
      | whole => exact .inr (.inl ⟨bytes, hnone, rfl, rfl, rfl⟩)
      | torn n => exact .inr (.inr ⟨.other, bytes.take n, hnone, nofun, rfl⟩)

end BinaryBlob

/-! ## Runs -/

/-- A blob, with the writes that returned `Ok` since the last clear. -/
structure BlobRun (Stmt : Type) where
  blob : BinaryBlob Stmt
  log : List (ID × AST Stmt)

inductive BlobOp (Stmt : Type) where
  | write (id : ID) (ast : AST Stmt) (io : Appended)
  | clear

namespace BlobRun

variable {Stmt : Type}

def new (file : List UInt8) : BlobRun Stmt := ⟨.new file, []⟩

variable [Postcard Stmt]

def step (s : BlobRun Stmt) : BlobOp Stmt → Option (BlobRun Stmt)
  | .write id ast io =>
    match s.blob.write id ast io with
    | (.ok (), blob) => some ⟨blob, s.log ++ [(id, ast)]⟩
    | (.error _, blob) => some { s with blob := blob }
  | .clear => some ⟨s.blob.clear, []⟩

/-- Every id is read back as it was first written, and nothing else is read. -/
def ReadsBack (s : BlobRun Stmt) : Prop := ∀ id, (s.blob.retrieve id).toOption = s.log.lookup id

/-- Every write that returned `Ok` is read back, and every other id is absent and can be written. -/
structure Addressable (s : BlobRun Stmt) : Prop where
  read : ∀ p ∈ s.log, s.blob.retrieve p.1 = .ok p.2
  absent : ∀ id ∉ s.log.map Prod.fst, s.blob.index.lookup id = none ∧ s.blob.retrieve id = .error .notFound
  writable : ∀ id ∉ s.log.map Prod.fst, ∀ ast, (s.blob.write id ast .whole).1 = .ok ()

/-- A write that takes a slot finds the file ending at the counter. -/
def Based (s : BlobRun Stmt) : BlobOp Stmt → Prop
  | .write id _ io => s.blob.index.lookup id = none → io = .whole → s.blob.file.length = s.blob.currentOffset
  | .clear => True

/-- An id that has a slot is written again with the AST that it has. -/
def Constant (s : BlobRun Stmt) : BlobOp Stmt → Prop
  | .write id ast _ => (s.blob.index.lookup id).isSome → s.log.lookup id = some ast
  | .clear => True

/-- A write that takes a slot finds the file ending at the counter, and one that does not brings the AST that is there. -/
def Fits (s : BlobRun Stmt) (op : BlobOp Stmt) : Prop := Based s op ∧ Constant s op

instance (s : BlobRun Stmt) : ∀ op, Decidable (Based s op)
  | .write _ _ _ => inferInstanceAs (Decidable (_ → _ → _))
  | .clear => inferInstanceAs (Decidable True)

instance [DecidableEq Stmt] (s : BlobRun Stmt) : ∀ op, Decidable (Constant s op)
  | .write _ _ _ => inferInstanceAs (Decidable (_ → _))
  | .clear => inferInstanceAs (Decidable True)

instance [DecidableEq Stmt] (s : BlobRun Stmt) (op : BlobOp Stmt) : Decidable (Fits s op) :=
  inferInstanceAs (Decidable (_ ∧ _))

/-- **The ids with a slot are those of the log**, and each slot holds the code of the AST. -/
structure Sound (s : BlobRun Stmt) : Prop where
  absent : ∀ id, s.blob.index.lookup id = none → s.log.lookup id = none
  slot : ∀ id slot, s.blob.index.lookup id = some slot → ∃ ast bytes, s.log.lookup id = some ast ∧
    Postcard.toAllocvec ast = some bytes ∧ slot.size = bytes.length ∧ bytes <+: s.blob.file.drop slot.offset

/-- What a write does to a run. -/
theorem step_write_cases {s s' : BlobRun Stmt} {id : ID} {ast : AST Stmt} {io : Appended}
    (hs : step s (.write id ast io) = some s') :
    ((s.blob.index.lookup id).isSome ∧ s' = ⟨s.blob, s.log ++ [(id, ast)]⟩) ∨
    (∃ bytes, s.blob.index.lookup id = none ∧ Postcard.toAllocvec ast = some bytes ∧ io = .whole ∧
      s' = ⟨⟨s.blob.index.insert id ⟨s.blob.currentOffset, bytes.length⟩, s.blob.file ++ bytes,
        s.blob.currentOffset + bytes.length⟩, s.log ++ [(id, ast)]⟩) ∨
    (∃ tail, s.blob.index.lookup id = none ∧ (io = .whole → Postcard.toAllocvec ast = none) ∧
      s' = { s with blob := { s.blob with file := s.blob.file ++ tail } }) := by
  unfold step at hs
  rcases s.blob.write_cases id ast io with ⟨hsome, hw⟩ | ⟨bytes, hnone, hbytes, hio, hw⟩ | ⟨e, tail, hnone, hio, hw⟩
  · simp only [hw, Option.some.injEq] at hs
    exact .inl ⟨hsome, hs.symm⟩
  · simp only [hw, Option.some.injEq] at hs
    exact .inr (.inl ⟨bytes, hnone, hbytes, hio, hs.symm⟩)
  · simp only [hw, Option.some.injEq] at hs
    exact .inr (.inr ⟨tail, hnone, hio, hs.symm⟩)

theorem Sound.new (file : List UInt8) : Sound (new file : BlobRun Stmt) where
  absent _ _ := rfl
  slot _ _ h := by cases h

/-- **A write keeps the slots readable** if it finds the file ending at the counter. -/
theorem Sound.step {s s' : BlobRun Stmt} (h : Sound s) (op : BlobOp Stmt) (hbased : Based s op)
    (hs : BlobRun.step s op = some s') : Sound s' := by
  cases op with
  | clear =>
    cases hs
    exact ⟨fun _ _ => rfl, fun _ _ h => by cases h⟩
  | write id ast io =>
    rcases step_write_cases hs with ⟨hsome, rfl⟩ | ⟨bytes, hnone, hbytes, rfl, rfl⟩ | ⟨tail, -, -, rfl⟩
    · -- the slot is that of the first write of the id, and so is the answer of the log
      refine ⟨fun j hj => ?_, fun j slot hj => ?_⟩
      · have hne : j ≠ id := by
          rintro rfl
          rw [show s.blob.index.lookup j = none from hj] at hsome
          cases hsome
        rw [lookup_snoc, h.absent j hj, if_neg hne]
        rfl
      · obtain ⟨a, bytes, ha, hrest⟩ := h.slot j slot hj
        exact ⟨a, bytes, by rw [lookup_snoc, ha]; rfl, hrest⟩
    · have hend : s.blob.file.length = s.blob.currentOffset := hbased hnone rfl
      refine ⟨fun j hj => ?_, fun j slot hj => ?_⟩
      · rw [HashMap.lookup_insert_iff] at hj
        split at hj
        · cases hj
        · rename_i hne
          rw [lookup_snoc, h.absent j hj, if_neg hne]
          rfl
      · rw [HashMap.lookup_insert_iff] at hj
        split at hj
        · rename_i heq
          subst heq
          cases hj
          refine ⟨ast, bytes, ?_, hbytes, rfl, ?_⟩
          · rw [lookup_snoc, h.absent j hnone, if_pos rfl]
            rfl
          · rw [← hend, List.drop_left]
        · obtain ⟨a, code, ha, hcode, hsize, hpre⟩ := h.slot j slot hj
          exact ⟨a, code, by rw [lookup_snoc, ha]; rfl, hcode, hsize, prefix_drop_append hpre⟩
    · refine ⟨h.absent, fun j slot hj => ?_⟩
      obtain ⟨a, code, ha, hcode, hsize, hpre⟩ := h.slot j slot hj
      exact ⟨a, code, ha, hcode, hsize, prefix_drop_append hpre⟩

/-- The log holds one AST for each id. -/
def SingleAst (s : BlobRun Stmt) : Prop := ∀ p ∈ s.log, s.log.lookup p.1 = some p.2

theorem SingleAst.step {s s' : BlobRun Stmt} (h : SingleAst s) (hsound : Sound s) (op : BlobOp Stmt)
    (hconst : Constant s op) (hs : BlobRun.step s op = some s') : SingleAst s' := by
  cases op with
  | clear =>
    cases hs
    exact fun p hp => absurd hp List.not_mem_nil
  | write id ast io =>
    have hsnoc : s.log.lookup id = none ∨ s.log.lookup id = some ast → SingleAst ⟨s.blob, s.log ++ [(id, ast)]⟩ := by
      intro hlog p hp
      rw [lookup_snoc]
      rcases List.mem_append.1 hp with hp | hp
      · rw [h p hp]
        rfl
      · rw [List.mem_singleton.1 hp, if_pos rfl]
        rcases hlog with hlog | hlog
        · rw [hlog]
          rfl
        · rw [hlog]
          rfl
    rcases step_write_cases hs with ⟨hsome, rfl⟩ | ⟨bytes, hnone, -, -, rfl⟩ | ⟨tail, -, -, rfl⟩
    · exact hsnoc (.inr (hconst hsome))
    · exact hsnoc (.inl (hsound.absent id hnone))
    · exact h

variable [LawfulPostcard Stmt]

theorem toAllocvec_ne_none (ast : AST Stmt) : Postcard.toAllocvec ast ≠ none := by
  intro hnone
  have hlaw := LawfulPostcard.fromBytes_toAllocvec ast
  rw [hnone] at hlaw
  cases hlaw

/-- A slot that holds the code of an AST reads it back. -/
theorem Sound.retrieve_eq {s : BlobRun Stmt} (h : Sound s) (id : ID) :
    (s.blob.index.lookup id = none ∧ s.log.lookup id = none ∧ s.blob.retrieve id = .error .notFound) ∨
      ∃ ast, (s.blob.index.lookup id).isSome ∧ s.log.lookup id = some ast ∧ s.blob.retrieve id = .ok ast := by
  unfold BinaryBlob.retrieve
  cases hslot : s.blob.index.lookup id with
  | none => exact .inl ⟨rfl, h.absent id hslot, rfl⟩
  | some slot =>
    obtain ⟨ast, bytes, hlog, hbytes, hsize, hpre⟩ := h.slot id slot hslot
    have hdecode := LawfulPostcard.fromBytes_toAllocvec ast
    rw [hbytes, Option.bind_some] at hdecode
    refine .inr ⟨ast, rfl, hlog, ?_⟩
    dsimp only
    rw [hsize, readExactAt_of_prefix hpre]
    show Option.elim (Postcard.fromBytes bytes) _ _ = _
    rw [hdecode]
    rfl

theorem Sound.readsBack {s : BlobRun Stmt} (h : Sound s) : ReadsBack s := by
  intro id
  rcases h.retrieve_eq id with ⟨-, hlog, hread⟩ | ⟨ast, -, hlog, hread⟩
  · rw [hread, hlog]
    rfl
  · rw [hread, hlog]
    rfl

/-- **A blob is read back** as it was first written, in every run in which each new slot finds the file ending at the
counter. -/
theorem readsBack_of_based (file : List UInt8) {ops : List (BlobOp Stmt)} (h : AllSteps step Based (new file) ops) :
    AllStates step ReadsBack (new file) ops :=
  allStates_of_invariant (I := Sound) (fun _ h => h.readsBack) (fun _ op _ h hbased hs => h.step op hbased hs) (.new file) h

/-! ## What the file held before -/

/-- The I/O of an operation succeeds. -/
def Succeeds : BlobOp Stmt → Prop
  | .write _ _ io => io = .whole
  | .clear => True

/-- Writes that succeed, and clears, keep the end of the file at the counter. -/
theorem ends_step {s s' : BlobRun Stmt} (h : s.blob.file.length = s.blob.currentOffset) {op : BlobOp Stmt}
    (hio : Succeeds op) (hs : step s op = some s') : s'.blob.file.length = s'.blob.currentOffset := by
  cases op with
  | clear =>
    cases hs
    rfl
  | write id ast io =>
    rcases step_write_cases hs with ⟨-, rfl⟩ | ⟨bytes, -, -, -, rfl⟩ | ⟨tail, -, hfail, -⟩
    · exact h
    · show (s.blob.file ++ bytes).length = s.blob.currentOffset + bytes.length
      rw [List.length_append, h]
    · exact absurd (hfail hio) (toAllocvec_ne_none ast)

/-- With all I/O succeeding, a file that ends at the counter does so at every write. -/
theorem allSteps_based {s : BlobRun Stmt} {ops : List (BlobOp Stmt)} (h : s.blob.file.length = s.blob.currentOffset)
    (hio : ∀ op ∈ ops, Succeeds op) : AllSteps step Based s ops := by
  refine allSteps_of_invariant (I := fun s => s.blob.file.length = s.blob.currentOffset)
    (F := fun _ op => Succeeds op) (fun s op h _ => ?_) (fun _ _ _ h hop hs => ends_step h hop hs) h
    (allSteps_of_forall fun _ op hop => hio op hop)
  cases op with
  | clear => trivial
  | write id ast io => exact fun _ _ => h

/-- **Nothing left over**: with all I/O succeeding, a blob reads back what it wrote if its file was empty at the start
or was cleared before anything was written. -/
theorem reads_back_of_empty_or_cleared (file : List UInt8) (ops : List (BlobOp Stmt)) (hio : ∀ op ∈ ops, Succeeds op)
    (hfile : file = [] ∨ ∀ i a io, ops.head? ≠ some (.write i a io)) : AllStates step ReadsBack (new file) ops := by
  refine readsBack_of_based file ?_
  rcases hfile with rfl | hhead
  · exact allSteps_based rfl hio
  · cases ops with
    | nil => trivial
    | cons op rest =>
      cases op with
      | write i a io => exact absurd rfl (hhead i a io)
      | clear =>
        have hs : step (new file) .clear = some (⟨.new [], []⟩ : BlobRun Stmt) := rfl
        exact (allSteps_cons_of_step hs).2 ⟨trivial, allSteps_based rfl fun op hop => hio op (.tail _ hop)⟩

/-! ## Failed writes -/

theorem Sound.absent_of_notMem {s : BlobRun Stmt} (h : Sound s) {id : ID} (hid : id ∉ s.log.map Prod.fst) :
    s.blob.index.lookup id = none ∧ s.blob.retrieve id = .error .notFound := by
  have hlog : s.log.lookup id = none := by
    rw [List.lookup_eq_none_iff]
    intro p hp
    exact bne_iff_ne.2 fun heq => hid (heq ▸ List.mem_map_of_mem hp)
  rcases h.retrieve_eq id with ⟨hnone, -, hread⟩ | ⟨ast, -, hsome, -⟩
  · exact ⟨hnone, hread⟩
  · rw [hlog] at hsome
    cases hsome

theorem addressable_of_sound {s : BlobRun Stmt} (h : Sound s) (hsingle : SingleAst s) : Addressable s where
  read p hp := by
    rcases h.retrieve_eq p.1 with ⟨-, hlog, -⟩ | ⟨ast, -, hlog, hread⟩
    · rw [hsingle p hp] at hlog
      cases hlog
    · rw [hsingle p hp] at hlog
      cases hlog
      exact hread
  absent id hid := h.absent_of_notMem hid
  writable id hid ast := by
    obtain ⟨hnone, -⟩ := h.absent_of_notMem hid
    rcases s.blob.write_cases id ast .whole with ⟨hsome, -⟩ | ⟨_, -, -, -, hw⟩ | ⟨_, _, -, hfail, -⟩
    · rw [hnone] at hsome
      cases hsome
    · rw [hw]
    · exact absurd (hfail rfl) (toAllocvec_ne_none ast)

/-- **A failed write does no harm** as long as no slot is taken while the file ends beyond the counter, and an id keeps
its AST. -/
theorem addressable_of_fits {ops : List (BlobOp Stmt)} (h : AllSteps step Fits (new []) ops) :
    AllStates step Addressable (new []) ops :=
  allStates_of_invariant (I := fun s => Sound s ∧ SingleAst s) (fun _ h => addressable_of_sound h.1 h.2)
    (fun _ op _ h hfits hs => ⟨h.1.step op hfits.1 hs, h.2.step h.1 op hfits.2 hs⟩)
    ⟨.new [], fun _ hp => absurd hp List.not_mem_nil⟩ h

end BlobRun

/-! ## A code for lists of one statement -/

/-- As many ones as there are statements, and a zero. -/
instance : Postcard Unit where
  toAllocvec ast := some (List.replicate ast.length 1 ++ [0])
  fromBytes bytes :=
    let n := bytes.length - 1
    if bytes = List.replicate n 1 ++ [0] then some (List.replicate n ()) else none

instance : LawfulPostcard Unit where
  fromBytes_toAllocvec ast := by
    show Postcard.fromBytes (List.replicate ast.length 1 ++ [0]) = some ast
    have hn : (List.replicate ast.length (1 : UInt8) ++ [0]).length - 1 = ast.length := by simp
    show (if _ = List.replicate _ 1 ++ [0] then some (List.replicate _ ()) else none) = some ast
    rw [hn, if_pos rfl]
    exact congrArg some (List.eq_replicate_iff.2 ⟨rfl, fun _ _ => rfl⟩).symm

namespace BlobRun

/-- A file that is cleared first. -/
theorem reads_back_after_clear :
    AllStates step ReadsBack (new [0]) ([.clear, .write ⟨1⟩ [()] .whole] : List (BlobOp Unit)) :=
  reads_back_of_empty_or_cleared [0] _ (by simp [Succeeds]) (.inr (by simp))

/-- The left-over of an earlier run is read in the place of what was written. -/
theorem leftover_not_read_back :
    ¬AllStates step ReadsBack (new [0]) ([.write ⟨1⟩ [()] .whole] : List (BlobOp Unit)) := by
  intro hall
  exact absurd (hall.2 _ rfl ⟨1⟩) (by decide +kernel)

/-- Failed writes: one that leaves nothing behind, and one after which nothing is written any more. -/
theorem addressable_after_failure :
    AllStates step Addressable (new []) ([.write ⟨1⟩ [()] .whole, .write ⟨2⟩ [] (.torn 0), .write ⟨2⟩ [] .whole,
      .write ⟨3⟩ [()] (.torn 1)] : List (BlobOp Unit)) :=
  addressable_of_fits (by decide +kernel)

/-- A write that leaves one byte behind moves everything that comes after it. -/
theorem torn_not_addressable :
    ¬AllStates step Addressable (new [])
      ([.write ⟨1⟩ [()] (.torn 1), .write ⟨2⟩ [] .whole] : List (BlobOp Unit)) := by
  intro hall
  have hread := ((hall.2 _ rfl).2 _ rfl).read (⟨2⟩, []) (by decide +kernel)
  exact absurd (congrArg Except.toOption hread) (by decide +kernel)

end BlobRun

end Lsf.Engine
