import Lsf.Engine.Located

/-!
# Corpora that keep their entries

What an engine relies on whichever corpus it was built with: the operations change the set of ids in the obvious way
(`LawfulCorpus`), every id in it can be got (`RetainingCorpus`), and an id leads to its own entry (`FaithfulCorpus`).
`InMemory` is such a corpus, and so is `DynamicCorpus`, which retains its entries over storage that never fails.
-/

namespace Lsf.Engine

open Lsf.Core Lsf.Lib PriorityQueue

/-- How the operations change the ids. -/
class LawfulCorpus (C : Type) {Stmt : Type} [CorpusHandler C Stmt] : Prop where
  ids_get : ∀ (c : C) id, CorpusHandler.ids (CorpusHandler.get c id).2 = CorpusHandler.ids c
  ids_update : ∀ (c : C) id score, CorpusHandler.ids (CorpusHandler.update c id score) = CorpusHandler.ids c
  ids_insert : ∀ (c : C) (e : CorpusEntry Stmt) score,
    CorpusHandler.ids (CorpusHandler.insert c e score) = insert e.id (CorpusHandler.ids c)
  ids_remove : ∀ (c : C) id, CorpusHandler.ids (CorpusHandler.remove c id) = (CorpusHandler.ids c).erase id
  ids_resize : ∀ c : C, CorpusHandler.ids (CorpusHandler.resize c) = CorpusHandler.ids c
  ids_clear : ∀ c : C, CorpusHandler.ids (CorpusHandler.clear c) = ∅

/-- Corpora with an invariant under which every id can be got. -/
class RetainingCorpus (C : Type) {Stmt : Type} [CorpusHandler C Stmt] extends LawfulCorpus C where
  Intact : C → Prop
  get_isSome : ∀ (c : C) id, Intact c → id ∈ CorpusHandler.ids c → (CorpusHandler.get c id).1.isSome
  intact_get : ∀ (c : C) id, Intact c → Intact (CorpusHandler.get c id).2
  intact_update : ∀ (c : C) id score, Intact c → Intact (CorpusHandler.update c id score)
  intact_insert : ∀ (c : C) (e : CorpusEntry Stmt) score, Intact c → Intact (CorpusHandler.insert c e score)
  intact_remove : ∀ (c : C) id, Intact c → Intact (CorpusHandler.remove c id)
  intact_resize : ∀ c : C, Intact c → Intact (CorpusHandler.resize c)
  intact_clear : ∀ c : C, Intact c → Intact (CorpusHandler.clear c)

/-- Corpora that count their ids, and have nothing for any other. -/
class CountedCorpus (C : Type) {Stmt : Type} [CorpusHandler C Stmt] : Prop extends LawfulCorpus C where
  size_eq : ∀ c : C, CorpusHandler.size c = (CorpusHandler.ids c).card
  get_eq_none : ∀ (c : C) id, id ∉ CorpusHandler.ids c → (CorpusHandler.get c id).1 = none

/-- Corpora with an invariant under which an id leads to its own entry. -/
class FaithfulCorpus (C : Type) {Stmt : Type} [CorpusHandler C Stmt] where
  Faithful : C → Prop
  get_id : ∀ (c : C) id e, Faithful c → (CorpusHandler.get c id).1 = some e → e.id = id
  faithful_get : ∀ (c : C) id, Faithful c → Faithful (CorpusHandler.get c id).2
  faithful_update : ∀ (c : C) id score, Faithful c → Faithful (CorpusHandler.update c id score)
  faithful_insert : ∀ (c : C) (e : CorpusEntry Stmt) score, Faithful c → Faithful (CorpusHandler.insert c e score)
  faithful_remove : ∀ (c : C) id, Faithful c → Faithful (CorpusHandler.remove c id)
  faithful_resize : ∀ c : C, Faithful c → Faithful (CorpusHandler.resize c)
  faithful_clear : ∀ c : C, Faithful c → Faithful (CorpusHandler.clear c)

namespace InMemory

variable {Stmt : Type}

instance : FaithfulCorpus (InMemory (CorpusEntry Stmt)) where
  Faithful c := ∀ id e, c.inner.lookup id = some e → e.id = id
  get_id _ id e hc h := hc id e h
  faithful_get _ _ hc := hc
  faithful_update _ _ _ hc := hc
  faithful_insert c e score hc id e' h := by
    change (c.inner.insert e.id e).lookup id = some e' at h
    rw [HashMap.lookup_insert_iff] at h
    split at h
    · rename_i hid
      cases h
      exact hid.symm
    · exact hc id e' h
  faithful_remove c id hc id' e h := by
    change (c.inner.erase id).lookup id' = some e at h
    rw [HashMap.lookup_erase_iff] at h
    split at h
    · cases h
    · exact hc id' e h
  faithful_resize _ hc := hc
  faithful_clear _ _ _ _ h := by cases h

instance : RetainingCorpus (InMemory (CorpusEntry Stmt)) where
  ids_get _ _ := rfl
  ids_update _ _ _ := rfl
  ids_insert c e score := by
    ext id
    simp only [CorpusHandler.ids, CorpusHandler.insert, HashMap.mem_keySet, HashMap.lookup_insert_iff,
      Finset.mem_insert]
    by_cases h : id = e.id <;> simp [h]
  ids_remove c id := by
    ext id'
    simp only [CorpusHandler.ids, CorpusHandler.remove, HashMap.mem_keySet, HashMap.lookup_erase_iff,
      Finset.mem_erase]
    by_cases h : id' = id <;> simp [h]
  ids_resize _ := rfl
  ids_clear _ := rfl
  Intact _ := True
  get_isSome c id _ h := HashMap.mem_keySet.1 h
  intact_get _ _ _ := trivial
  intact_update _ _ _ _ := trivial
  intact_insert _ _ _ _ := trivial
  intact_remove _ _ _ := trivial
  intact_resize _ _ := trivial
  intact_clear _ _ := trivial

instance : CountedCorpus (InMemory (CorpusEntry Stmt)) where
  size_eq c := (HashMap.card_keySet c.inner).symm
  get_eq_none _ _ h := Option.not_isSome_iff_eq_none.1 fun hsome => h (HashMap.mem_keySet.2 hsome)

end InMemory

namespace DynamicCorpus

variable {Stmt B Q : Type} [StorageBackend B Stmt] [PriorityQueue Q ID F64.Reverse]

omit [StorageBackend B Stmt] [PriorityQueue Q ID F64.Reverse] in
/-- Two corpora with the same data have the same ids. -/
theorem ids_congr {c c' : DynamicCorpus Stmt B Q} (h : ∀ j, c'.core j = c.core j) : c'.ids = c.ids := by
  ext j
  rw [mem_ids, mem_ids, h]

instance : LawfulCorpus (DynamicCorpus Stmt B Q) where
  ids_get _ _ := ids_congr fun _ => core_get
  ids_update c id score := ids_congr (core_update c id score)
  ids_insert c e score := by
    ext j
    show j ∈ (c.insert e score).ids ↔ j ∈ Insert.insert e.id c.ids
    rw [Finset.mem_insert, mem_ids, mem_ids, core_insert]
    by_cases h : j = e.id <;> simp [h]
  ids_remove c id := by
    ext j
    show j ∈ (c.remove id).ids ↔ j ∈ c.ids.erase id
    rw [Finset.mem_erase, mem_ids, mem_ids, core_remove]
    by_cases h : j = id <;> simp [h]
  ids_resize _ := ids_congr fun _ => core_resize
  ids_clear _ := rfl

instance [ReliableStorage B] [LawfulPriorityQueue Q] : RetainingCorpus (DynamicCorpus Stmt B Q) where
  Intact c := ∀ j, Located c j
  get_isSome _ id h hid := (h id).get_isSome hid
  intact_get _ _ h j := located_get (h j)
  intact_update _ _ _ h j := located_update (h j)
  intact_insert _ e score h j := located_insert e score (h j)
  intact_remove _ _ h j := located_remove (h j)
  intact_resize _ h j := located_resize (h j)
  intact_clear _ _ _ := located_clear

instance : CountedCorpus (DynamicCorpus Stmt B Q) where
  size_eq c := (HashMap.card_keySet c.index).symm
  get_eq_none c id h := by
    have hnone : c.index.lookup id = none :=
      Option.not_isSome_iff_eq_none.1 fun hsome => h (HashMap.mem_keySet.2 hsome)
    exact (get_fst c id).trans (by rw [hnone]; rfl)

/-- An entry is put together under the id that was asked for. -/
instance : FaithfulCorpus (DynamicCorpus Stmt B Q) where
  Faithful _ := True
  get_id c id e _ h := by
    change (c.get id).1 = some e at h
    rw [get_fst] at h
    obtain ⟨data, -, h⟩ := Option.bind_eq_some_iff.1 h
    obtain ⟨ast, -, rfl⟩ := Option.map_eq_some_iff.1 h
    rfl
  faithful_get _ _ _ := trivial
  faithful_update _ _ _ _ := trivial
  faithful_insert _ _ _ _ := trivial
  faithful_remove _ _ _ := trivial
  faithful_resize _ _ := trivial
  faithful_clear _ _ := trivial

theorem intact_new [ReliableStorage B] [LawfulPriorityQueue Q] (caps : Caps) (disk : B) :
    RetainingCorpus.Intact Stmt (new caps disk : DynamicCorpus Stmt B Q) := by
  intro j data h
  cases h

end DynamicCorpus

end Lsf.Engine
