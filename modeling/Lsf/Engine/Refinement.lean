import Lsf.Engine.Located
import Lsf.Lib.Run

/-!
# The tiered corpus refines a plain map

`Refines astOf t c` relates a plain map `t` with a tiered corpus `c`: they agree on the data of every id, the tag of
every id names a tier that holds it, and every copy in a tier is the AST of its id. Each operation keeps the relation and
gives the same answer on both sides (`Refines.step`), so that no caller can tell the two apart
(`dynamicCorpus_refines`).
-/

namespace Lsf.Engine

open Lsf.Core Lsf.Lib PriorityQueue DynamicCorpus

variable {Stmt B Q : Type} [StorageBackend B Stmt] [PriorityQueue Q ID F64.Reverse]

/-- The entry that an id with the given data stands for. -/
def entryOf (astOf : ID → AST Stmt) (i : ID) (r : List ID × Meta) : CorpusEntry Stmt := ⟨⟨i, r.1, astOf i⟩, r.2⟩

/-- The tiered corpus holds the entries of the plain map. -/
structure Refines (astOf : ID → AST Stmt) (t : InMemory (CorpusEntry Stmt)) (c : DynamicCorpus Stmt B Q) : Prop where
  entries : ∀ i, t.inner.lookup i = (c.core i).map (entryOf astOf i)
  located : ∀ i, Located c i
  pure : ∀ i a, Copy c i a → a = astOf i

/-- The callers' side of the contract: an id goes with one AST. -/
def CorpusOp.Fixed (astOf : ID → AST Stmt) : CorpusOp Stmt → Prop
  | .insert entry _ => entry.raw.ast = astOf entry.id
  | _ => True

namespace Refines

variable {astOf : ID → AST Stmt} {t : InMemory (CorpusEntry Stmt)} {c : DynamicCorpus Stmt B Q}

/-- Related corpora answer a `get` alike. -/
theorem get_eq (h : Refines astOf t c) (i : ID) : (c.get i).1 = t.inner.lookup i := by
  rw [get_fst, h.entries, core, Option.map_map]
  cases hd : c.index.lookup i with
  | none => rfl
  | some data =>
    obtain ⟨ast, ha⟩ := Option.isSome_iff_exists.1 (h.located i data hd)
    have heq : ast = astOf i := h.pure i ast (copy_of_astIn ha)
    simp only [Option.bind_some, Option.map_some, ha, heq]
    rfl

omit [PriorityQueue Q ID F64.Reverse] in
theorem ids_eq (h : Refines astOf t c) : c.ids = CorpusHandler.ids t := by
  ext i
  rw [mem_ids]
  change _ ↔ i ∈ HashMap.keySet t.inner
  rw [HashMap.mem_keySet, h.entries, Option.isSome_map]

omit [PriorityQueue Q ID F64.Reverse] in
theorem size_eq (h : Refines astOf t c) : c.size = CorpusHandler.size t := by
  have hids := congrArg Finset.card h.ids_eq
  have hc : c.ids.card = c.size := HashMap.card_keySet c.index
  have ht : (CorpusHandler.ids t).card = CorpusHandler.size t := HashMap.card_keySet t.inner
  rw [hc, ht] at hids
  exact hids

variable [ReliableStorage B] [LawfulPriorityQueue Q]

omit [ReliableStorage B] [LawfulPriorityQueue Q] in
theorem new {disk : B} (hdisk : ∀ i a, stored disk i = some a → a = astOf i) (caps : Caps) :
    Refines astOf InMemory.new (DynamicCorpus.new caps disk : DynamicCorpus Stmt B Q) where
  entries _ := rfl
  located i data hd := by cases hd
  pure i a h := by
    rcases h with h | h | h
    · cases h
    · cases h
    · exact hdisk i a h

theorem get (h : Refines astOf t c) (i : ID) : Refines astOf t (c.get i).2 where
  entries j := by rw [core_get]; exact h.entries j
  located j := located_get (h.located j)
  pure j a hc := h.pure j a (copy_get hc)

theorem update (h : Refines astOf t c) (i : ID) (score : F64) : Refines astOf t (c.update i score) where
  entries j := by rw [core_update]; exact h.entries j
  located j := located_update (h.located j)
  pure j a hc := h.pure j a (copy_update hc)

theorem insert (h : Refines astOf t c) {entry : CorpusEntry Stmt} (hast : entry.raw.ast = astOf entry.id)
    (score : F64) : Refines astOf (CorpusHandler.insert t entry score) (c.insert entry score) where
  entries j := by
    change (t.inner.insert entry.id entry).lookup j = _
    rw [core_insert, HashMap.lookup_insert_iff]
    split
    · next hj =>
      subst hj
      rw [Option.map_some, entryOf, ← hast]
      rfl
    · exact h.entries j
  located j := located_insert entry score (h.located j)
  pure j a hc := by
    rcases copy_insert hc with hc | ⟨rfl, rfl⟩
    · exact h.pure j a hc
    · exact hast

omit [PriorityQueue Q ID F64.Reverse] [ReliableStorage B] [LawfulPriorityQueue Q] in
theorem remove (h : Refines astOf t c) (i : ID) : Refines astOf (CorpusHandler.remove t i) (c.remove i) where
  entries j := by
    change (t.inner.erase i).lookup j = _
    rw [core_remove, HashMap.lookup_erase_iff]
    split
    · rfl
    · exact h.entries j
  located j := located_remove (h.located j)
  pure j a hc := h.pure j a (copy_remove hc)

omit [ReliableStorage B] [LawfulPriorityQueue Q] in
theorem resize (h : Refines astOf t c) : Refines astOf t c.resize where
  entries j := by rw [core_resize]; exact h.entries j
  located j := located_resize (h.located j)
  pure j a hc := h.pure j a (copy_resize hc)

omit [PriorityQueue Q ID F64.Reverse] [LawfulPriorityQueue Q] in
theorem clear (t : InMemory (CorpusEntry Stmt)) (c : DynamicCorpus Stmt B Q) :
    Refines astOf (CorpusHandler.clear t) c.clear where
  entries _ := rfl
  located _ := located_clear
  pure _ _ hc := absurd hc not_copy_clear

/-- **One step of the simulation.** -/
theorem step (h : Refines astOf t c) (op : CorpusOp Stmt) (hop : op.Fixed astOf) :
    (op.answer c).1 = (op.answer t).1 ∧ Refines astOf (op.answer t).2 (op.answer c).2 := by
  have hanswer : (op.apply c).1 = (op.apply t).1 ∧ Refines astOf (op.apply t).2 (op.apply c).2 := by
    cases op with
    | insert entry score => exact ⟨rfl, h.insert hop score⟩
    | get i => exact ⟨h.get_eq i, h.get i⟩
    | update i score => exact ⟨rfl, h.update i score⟩
    | remove i => exact ⟨rfl, h.remove i⟩
    | resize => exact ⟨rfl, h.resize⟩
    | clear => exact ⟨rfl, clear t c⟩
  obtain ⟨hgot, hR⟩ := hanswer
  refine ⟨?_, hR⟩
  have hids : CorpusHandler.ids (op.apply c).2 = CorpusHandler.ids (op.apply t).2 := hR.ids_eq
  have hsize : CorpusHandler.size (op.apply c).2 = CorpusHandler.size (op.apply t).2 := hR.size_eq
  simp only [CorpusOp.answer, hgot, hids, hsize]

end Refines

/-- **The tiered corpus refines a plain map.** Over storage that never fails, with one AST for each id, every sequence
of operations is answered as by `InMemory`; and after any of them `get` and `update` change no later answer. -/
theorem dynamicCorpus_refines [ReliableStorage B] [LawfulPriorityQueue Q] (astOf : ID → AST Stmt) (caps : Caps)
    (disk : B) (hdisk : ∀ i a, stored disk i = some a → a = astOf i) (ops : List (CorpusOp Stmt))
    (hops : ∀ op ∈ ops, op.Fixed astOf) :
    answers CorpusOp.answer (DynamicCorpus.new caps disk : DynamicCorpus Stmt B Q) ops =
        answers CorpusOp.answer (InMemory.new : InMemory (CorpusEntry Stmt)) ops ∧
      ∀ i j score, let c := after CorpusOp.answer (DynamicCorpus.new caps disk : DynamicCorpus Stmt B Q) ops
        (DynamicCorpus.get (c.get i).2 j).1 = (c.get j).1 ∧
          (DynamicCorpus.get (c.update i score) j).1 = (c.get j).1 := by
  have hsim := answers_eq_of_simulation (R := fun c t => Refines astOf t c) (K := CorpusOp.Fixed astOf)
    (fun c t op h hop => h.step op hop) (Refines.new (B := B) (Q := Q) hdisk caps) ops hops
  obtain ⟨hanswers, hend⟩ := hsim
  refine ⟨hanswers, fun i j score => ⟨?_, ?_⟩⟩
  · rw [(hend.get i).get_eq, hend.get_eq]
  · rw [(hend.update i score).get_eq, hend.get_eq]

/-- Three insertions through tiers of size one, with an entry pushed to disk and read back. -/
theorem dynamicCorpus_refines_three :
    let caps : Caps := ⟨1, 1, 1, .sorted ID⟩
    let entry (n : UInt32) : CorpusEntry Nat := ⟨⟨⟨n⟩, [], [n.toNat]⟩, .default⟩
    let ops : List (CorpusOp Nat) := [.insert (entry 1) (.fin 1), .insert (entry 2) (.fin 2),
      .insert (entry 3) (.fin 3), .update ⟨3⟩ .nan, .update ⟨3⟩ (.fin 5), .get ⟨1⟩, .remove ⟨2⟩, .clear, .get ⟨3⟩]
    let disk : InMemory (AST Nat) := InMemory.new
    answers CorpusOp.answer (DynamicCorpus.new caps disk : DynamicCorpus Nat _ (ListQueue ID F64.Reverse)) ops =
      answers CorpusOp.answer (InMemory.new : InMemory (CorpusEntry Nat)) ops :=
  (dynamicCorpus_refines (fun i => [i.raw.toNat]) _ _ (fun i a h => by
    rw [InMemory.stored_eq] at h; cases h) _ (by simp [CorpusOp.Fixed, CorpusEntry.id])).1

end Lsf.Engine
