import Mathlib.Data.List.MinMax

/-!
# Heaps

A max-heap as a class, so that a development can be carried out over any implementation: `items` lists what is in it, in
no order, and `LawfulBinaryHeap` says what the operations do to this list up to permutation. `pop` hands out some item of
greatest key, and which one of several is left open. `ListHeap` is an implementation.
-/

namespace Lsf.Lib

/-- The operations of a heap `H` of items `T`. -/
class BinaryHeap (H : Type) (T : outParam Type) where
  empty : H
  push : H → T → H
  /-- Take out an item of greatest key. -/
  pop : H → Option (T × H)
  items : H → List T

namespace BinaryHeap

/-- The max-heap of items that are compared by a key. -/
class LawfulBinaryHeap (H : Type) {T K : Type} [LE K] [BinaryHeap H T] (key : T → K) : Prop where
  items_empty : items (empty : H) = []
  items_push : ∀ (q : H) x, (items (push q x)).Perm (x :: items q)
  pop_none : ∀ q : H, pop q = none → items q = []
  pop_some : ∀ (q : H) x q', pop q = some (x, q') → (items q).Perm (x :: items q')
  pop_max : ∀ (q : H) x q', pop q = some (x, q') → ∀ y ∈ items q, key y ≤ key x

end BinaryHeap

/-! ## An implementation -/

/-- A heap as the list of its items. -/
structure ListHeap {T K : Type} (key : T → K) where
  items : List T

namespace ListHeap

open BinaryHeap

variable {T K : Type} {key : T → K} [DecidableEq T] [LinearOrder K]

instance : BinaryHeap (ListHeap key) T where
  empty := ⟨[]⟩
  push q x := ⟨x :: q.items⟩
  pop q := (q.items.argmax key).map fun x => (x, ⟨q.items.erase x⟩)
  items q := q.items

instance : LawfulBinaryHeap (ListHeap key) key where
  items_empty := rfl
  items_push _ _ := .refl _
  pop_none q h := List.argmax_eq_none.1 (Option.map_eq_none_iff.1 h)
  pop_some q x q' h := by
    obtain ⟨y, hy, heq⟩ := Option.map_eq_some_iff.1 h
    obtain ⟨rfl, rfl⟩ := Prod.mk.inj heq
    exact List.perm_cons_erase (List.argmax_mem hy)
  pop_max q x q' h y hy := by
    obtain ⟨z, hz, heq⟩ := Option.map_eq_some_iff.1 h
    obtain ⟨rfl, rfl⟩ := Prod.mk.inj heq
    exact List.le_of_mem_argmax hy hz

end ListHeap

end Lsf.Lib
