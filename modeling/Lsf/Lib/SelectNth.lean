import Mathlib.Data.List.Sort
import Mathlib.Data.Prod.Lex
import Mathlib.Order.BoundedOrder.Basic

/-!
# Partial selection

`SelectNth` is a choice of `select_nth_unstable_by`: a rearrangement in which nothing before place `k` has a greater key
than anything from there on, and in which ties fall anywhere. The last elements after a selection are its `top`; an
element is in the top of no choice exactly if enough others are strictly greater (`forall_notMem_top_iff`).
-/

namespace Lsf.Lib

/-- A choice of `select_nth_unstable_by` for elements of `T` that are compared by a key. -/
structure SelectNth {T P : Type} [LinearOrder P] (key : T → P) where
  select : List T → Nat → List T
  perm : ∀ l k, (select l k).Perm l
  parted : ∀ l k, k < l.length → ∀ a ∈ (select l k).take k, ∀ b ∈ (select l k).drop k, key a ≤ key b

namespace SelectNth

variable {T P : Type} [LinearOrder P] {key : T → P}

/-- Sorting is a choice. -/
def sorted (key : T → P) : SelectNth key where
  select l _ := l.mergeSort fun a b => key a ≤ key b
  perm l _ := List.mergeSort_perm l _
  parted l k _ a ha b hb := by
    have hsorted : (l.mergeSort fun a b => key a ≤ key b).Pairwise fun a b => decide (key a ≤ key b) = true :=
      List.pairwise_mergeSort (fun a b c hab hbc => by simp only [decide_eq_true_eq] at *; exact hab.trans hbc)
        (fun a b => by simpa using le_total (key a) (key b)) l
    rw [← List.take_append_drop k (l.mergeSort _), List.pairwise_append] at hsorted
    exact of_decide_eq_true (hsorted.2.2 a ha b hb)

/-- A choice for a finer key is one for the key. -/
def coarsen {R : Type} [LinearOrder R] {rank : T → R} (s : SelectNth rank)
    (h : ∀ a b, rank a ≤ rank b → key a ≤ key b) : SelectNth key where
  select := s.select
  perm := s.perm
  parted l k hk a ha b hb := h a b (s.parted l k hk a ha b hb)

/-- The last `n` elements after a selection. -/
def top (s : SelectNth key) (l : List T) (n : Nat) : List T := (s.select l (l.length - n)).drop (l.length - n)

variable (s : SelectNth key) {l : List T} {a b : T} {n : Nat}

theorem length_select (l : List T) (k : Nat) : (s.select l k).length = l.length := (s.perm l k).length_eq

theorem length_top (h : n ≤ l.length) : (s.top l n).length = n := by
  unfold top
  rw [List.length_drop, s.length_select]
  omega

theorem mem_of_mem_top (h : a ∈ s.top l n) : a ∈ l := (s.perm l _).mem_iff.1 (List.mem_of_mem_drop h)

/-- What is not in the top has no greater key than what is. -/
theorem key_le_of_notMem_top (ha : a ∈ l) (hno : a ∉ s.top l n) (hb : b ∈ s.top l n) (hn : 0 < n) (hle : n ≤ l.length) :
    key a ≤ key b := by
  have hmem : a ∈ s.select l (l.length - n) := (s.perm l _).mem_iff.2 ha
  rw [← List.take_append_drop (l.length - n) (s.select l (l.length - n)), List.mem_append] at hmem
  exact s.parted l _ (by omega) a (hmem.resolve_right hno) b hb

/-- **An element is in the top of no choice** exactly if enough elements have greater keys. -/
theorem forall_notMem_top_iff [DecidableEq T] (ha : a ∈ l) (hn : 0 < n) (hle : n ≤ l.length) :
    (∀ s : SelectNth key, a ∉ s.top l n) ↔ n ≤ l.countP fun b => key a < key b := by
  constructor
  · intro hno
    -- the choice that puts `a` behind everything with the same key
    let rank : T → P ×ₗ Bool := fun b => toLex (key b, decide (b = a))
    let last : SelectNth rank := sorted rank
    have hlast : a ∉ last.top l n := hno (last.coarsen fun b c hbc => Prod.Lex.monotone_fst _ _ hbc)
    have hgreater : ∀ b ∈ last.top l n, key a < key b := by
      intro b hb
      have hle := last.key_le_of_notMem_top ha hlast hb hn hle
      rcases Prod.Lex.toLex_le_toLex.1 hle with hlt | ⟨-, htie⟩
      · exact hlt
      · have heq : b = a := of_decide_eq_true (Bool.le_iff_imp.1 htie (decide_eq_true rfl))
        exact absurd (heq ▸ hb) hlast
    calc n = (last.top l n).length := (last.length_top hle).symm
      _ = (last.top l n).countP fun b => key a < key b :=
        (List.countP_eq_length.2 fun b hb => decide_eq_true (hgreater b hb)).symm
      _ ≤ (last.select l (l.length - n)).countP fun b => key a < key b := (List.drop_sublist _ _).countP_le
      _ = l.countP fun b => key a < key b := (last.perm l _).countP_eq _
  · intro hcount s hmem
    have hbelow : ((s.select l (l.length - n)).take (l.length - n)).countP (fun b => key a < key b) = 0 := by
      rw [List.countP_eq_zero]
      intro b hb
      simpa using s.parted l _ (by omega) b hb a hmem
    have habove : (s.top l n).countP (fun b => key a < key b) < n := by
      have hne : (s.top l n).countP (fun b => key a < key b) ≠ (s.top l n).length := by
        intro heq
        have hself := List.countP_eq_length.1 heq a hmem
        simp at hself
      have hlen := s.length_top hle
      have hcountle := List.countP_le_length (p := fun b => decide (key a < key b)) (l := s.top l n)
      omega
    rw [← (s.perm l (l.length - n)).countP_eq, ← List.take_append_drop (l.length - n) (s.select l (l.length - n)),
      List.countP_append, hbelow] at hcount
    have htop : ((s.select l (l.length - n)).drop (l.length - n)).countP (fun b => key a < key b) < n := habove
    omega

end SelectNth

end Lsf.Lib
