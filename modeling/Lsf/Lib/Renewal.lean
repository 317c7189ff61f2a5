import Lsf.Lib.BinaryHeap
import Mathlib.Data.Multiset.MapFold

/-!
# Heaps whose keys grow old

A loop that pops the items of a heap, renews those that are `stale` and puts them back, and holds or drops the others.
`left` counts the rounds that such a loop can still make, and `Conserved` says what has become of the items that it
started with: each of them is still there, perhaps renewed, or was dropped.
-/

namespace Lsf.Lib

open BinaryHeap

variable {H T U K : Type} {stale : T → Bool} {renew : T → T}

/-- The item `y` is `x`, or what became of `x` when it was stale. -/
inductive Renewed (stale : T → Bool) (renew : T → T) (x : T) : T → Prop where
  | same : Renewed stale renew x x
  | anew (h : stale x) : Renewed stale renew x (renew x)

/-- Renewing changes nothing that `f` sees. -/
theorem Renewed.apply_eq {f : T → U} (hf : ∀ x, f (renew x) = f x) {x y : T} (h : Renewed stale renew x y) :
    f y = f x := by
  cases h with
  | same => rfl
  | anew _ => exact hf x

/-! ## What has become of the items -/

/-- Of the items `start` there are now the items `now`, some of them renewed, and the others were dropped. -/
def Conserved (stale : T → Bool) (renew : T → T) (start now dropped : Multiset T) : Prop :=
  ∃ kept, start = kept + dropped ∧ kept.Rel (Renewed stale renew) now

section Conserved

variable {start now dropped : Multiset T} {x : T}

theorem Conserved.refl (start : Multiset T) : Conserved stale renew start start 0 :=
  ⟨start, (Multiset.add_zero start).symm, Multiset.rel_refl_of_refl_on fun _ _ => .same⟩

/-- An item is renewed once: when it was stale it is the one that was there at the start. -/
theorem Conserved.cons_renew (hc : Conserved stale renew start (x ::ₘ now) dropped) (hx : stale x)
    (hfresh : ∀ y, ¬stale (renew y)) : Conserved stale renew start (renew x ::ₘ now) dropped := by
  obtain ⟨kept, rfl, hrel⟩ := hc
  obtain ⟨y, rest, hy, hrest, rfl⟩ := Multiset.rel_cons_right.1 hrel
  refine ⟨y ::ₘ rest, rfl, ?_⟩
  cases hy with
  | same => exact .cons (.anew hx) hrest
  | anew _ => exact absurd hx (hfresh y)

theorem Conserved.drop (hc : Conserved stale renew start (x ::ₘ now) dropped) :
    ∃ y, Renewed stale renew y x ∧ Conserved stale renew start now (y ::ₘ dropped) := by
  obtain ⟨kept, rfl, hrel⟩ := hc
  obtain ⟨y, rest, hy, hrest, rfl⟩ := Multiset.rel_cons_right.1 hrel
  refine ⟨y, hy, rest, ?_, hrest⟩
  rw [Multiset.cons_add, Multiset.add_cons]

/-- Where an item comes from. -/
theorem Conserved.exists_renewed (hc : Conserved stale renew start now dropped) (hx : x ∈ now) :
    ∃ y ∈ start, Renewed stale renew y x := by
  obtain ⟨kept, rfl, hrel⟩ := hc
  obtain ⟨y, hy, hren⟩ := Multiset.exists_mem_of_rel_of_mem (Multiset.rel_flip.2 hrel) hx
  exact ⟨y, Multiset.mem_add.2 (.inl hy), hren⟩

/-- An item that is popped and held is still there. -/
theorem add_coe_concat (now : Multiset T) (held : List T) (x : T) :
    now + (held ++ [x] : List T) = x ::ₘ (now + held) := by
  rw [← Multiset.coe_add, Multiset.coe_singleton, ← Multiset.add_assoc, Multiset.add_comm _ {x}, Multiset.singleton_add]

/-- What renewing does not change is conserved. -/
theorem Conserved.map_eq {f : T → U} (hf : ∀ x, f (renew x) = f x)
    (hc : Conserved stale renew start now dropped) : start.map f = now.map f + dropped.map f := by
  obtain ⟨kept, rfl, hrel⟩ := hc
  have hkept : kept.map f = now.map f :=
    Multiset.rel_eq.1 (Multiset.rel_map.2 (hrel.mono fun _ _ _ _ h => (h.apply_eq hf).symm))
  rw [Multiset.map_add, hkept]

end Conserved

/-! ## Heaps -/

variable [LE K] [BinaryHeap H T]

/-- How many rounds are left: one for each item, and one more where it is stale. -/
def left (stale : T → Bool) (q : H) : Nat := (items q).length + (items q).countP stale

theorem left_le (stale : T → Bool) (q : H) : left stale q ≤ 2 * (items q).length := by
  have hcount := (items q).countP_le_length (p := stale)
  unfold left
  omega

section Laws

variable (key : T → K) [LawfulBinaryHeap H key] {q q' : H} {x : T}

include key

/-- A popped item is no longer in the heap. -/
theorem left_pop (stale : T → Bool) (h : pop q = some (x, q')) :
    left stale q' + 1 + (if stale x then 1 else 0) = left stale q := by
  have hperm := LawfulBinaryHeap.pop_some key q x q' h
  have hlength := hperm.length_eq
  have hcount := hperm.countP_eq stale
  rw [List.length_cons] at hlength
  rw [List.countP_cons] at hcount
  unfold left
  omega

theorem left_push (hx : ¬stale x) : left stale (push q x) = left stale q + 1 := by
  have hperm := LawfulBinaryHeap.items_push key q x
  have hlength := hperm.length_eq
  have hcount := hperm.countP_eq stale
  rw [List.length_cons] at hlength
  rw [List.countP_cons, if_neg hx] at hcount
  unfold left
  omega

/-- **Renewing an item makes progress**, although it goes back into the heap. -/
theorem left_renew_lt {y : T} (h : pop q = some (x, q')) (hx : stale x) (hy : ¬stale y) :
    left stale (push q' y) < left stale q := by
  have hpop := left_pop key stale h
  rw [if_pos hx] at hpop
  rw [left_push key hy]
  omega

theorem coe_items_pop (h : pop q = some (x, q')) : (items q : Multiset T) = x ::ₘ (items q' : Multiset T) :=
  Multiset.coe_eq_coe.2 (LawfulBinaryHeap.pop_some key q x q' h)

theorem coe_items_push (q : H) (x : T) : (items (push q x) : Multiset T) = x ::ₘ (items q : Multiset T) :=
  Multiset.coe_eq_coe.2 (LawfulBinaryHeap.items_push key q x)

/-- `extend`. -/
theorem coe_items_foldl_push (q : H) (l : List T) : (items (l.foldl push q) : Multiset T) = items q + l := by
  induction l generalizing q with
  | nil => simp
  | cons x l ih =>
    rw [List.foldl_cons, ih, coe_items_push key, ← Multiset.cons_coe, Multiset.cons_add, Multiset.add_cons]

end Laws

end Lsf.Lib
