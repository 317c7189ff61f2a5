import Lsf.Lib.Rounding
import Mathlib.Algebra.Order.BigOperators.Group.List
import Mathlib.Algebra.Order.Group.Defs
import Mathlib.Algebra.Order.Group.Unbundled.Basic
import Mathlib.Tactic.Abel

/-!
# The roulette wheel

A wheel is a list of weights laid out one after the other; `pick t` finds the weight in which the point `t` lies, and
how far into it. A point below the total is always found (`pick_isSome`), and in a weight that reaches beyond it
(`pick_eq_some`); so no weight that is zero or less is ever found. The place is the one between whose prefix sums the
point lies (`pick_prefix`), and on a wheel without negative weights there is no other (`prefix_unique`). `seek` is the
same search in rounded steps: what it finds weighs something too (`seek_eq_some`), but it may find nothing. The last section
is about the sums of the blocks of a wheel.
-/

namespace Lsf.Lib

section Seek

variable {K : Type*} [AddCommGroup K] [LinearOrder K] [Rounding K]

/-- The place of the point `t` as rounded subtractions find it, and the rest of `t` there. -/
def seek (t : K) : List K → Option (Nat × K)
  | [] => none
  | w :: ws => if t < w then some (0, t) else (seek (Rounding.round (t - w)) ws).map fun p => (p.1 + 1, p.2)

variable [IsOrderedAddMonoid K] [LawfulRounding K]

theorem round_sub_nonneg {t w : K} (h : ¬t < w) : 0 ≤ Rounding.round (t - w) :=
  LawfulRounding.round_nonneg _ (sub_nonneg.2 (not_lt.1 h))

/-- **Where a point is found**, the rest of it is below the weight, and it is not negative. -/
theorem seek_eq_some {t r : K} {ws : List K} {i : Nat} (h : seek t ws = some (i, r)) (h0 : 0 ≤ t) :
    0 ≤ r ∧ ∃ w, ws[i]? = some w ∧ r < w := by
  induction ws generalizing t i with
  | nil => cases h
  | cons w ws ih =>
    unfold seek at h
    split at h
    · rename_i hw
      cases h
      exact ⟨h0, w, rfl, hw⟩
    · rename_i hw
      obtain ⟨⟨j, r'⟩, hp, heq⟩ := Option.map_eq_some_iff.1 h
      cases heq
      obtain ⟨hr, w', hw', hlt⟩ := ih hp (round_sub_nonneg hw)
      refine ⟨hr, w', ?_, hlt⟩
      rw [List.getElem?_cons_succ]
      exact hw'

/-- What is left of a point that is found nowhere is not negative. -/
theorem roundedRest_nonneg {t : K} {ws : List K} (h : seek t ws = none) (h0 : 0 ≤ t) : 0 ≤ roundedRest t ws := by
  induction ws generalizing t with
  | nil => exact h0
  | cons w ws ih =>
    unfold seek at h
    split at h
    · cases h
    · rename_i hw
      exact ih (Option.map_eq_none_iff.1 h) (round_sub_nonneg hw)

end Seek

section Pick

variable {K : Type*} [AddCommGroup K] [LinearOrder K]

/-- The place of the point `t` on the wheel: the index of its weight, and the rest of `t` there. -/
def pick (t : K) : List K → Option (Nat × K)
  | [] => none
  | w :: ws => if t < w then some (0, t) else (pick (t - w) ws).map fun p => (p.1 + 1, p.2)

/-- Without rounding the search is `pick`. -/
theorem seek_exact (t : K) (ws : List K) : @seek K _ _ (.exact K) t ws = pick t ws := by
  induction ws generalizing t with
  | nil => rfl
  | cons w ws ih =>
    unfold seek pick
    rw [ih]
    rfl

variable [IsOrderedAddMonoid K]

theorem pick_isSome {t : K} {ws : List K} (h : t < ws.sum) (h0 : 0 ≤ t) : (pick t ws).isSome := by
  induction ws generalizing t with
  | nil => exact absurd h (not_lt.2 h0)
  | cons w ws ih =>
    unfold pick
    split
    · rfl
    · rename_i hw
      rw [Option.isSome_map]
      rw [List.sum_cons, ← sub_lt_iff_lt_add'] at h
      exact ih h (sub_nonneg.2 (not_lt.1 hw))

/-- Where a point is found, the rest of it is below the weight, and it is not negative. -/
theorem pick_eq_some {t r : K} {ws : List K} {i : Nat} (h : pick t ws = some (i, r)) (h0 : 0 ≤ t) :
    0 ≤ r ∧ ∃ w, ws[i]? = some w ∧ r < w := by
  rw [← seek_exact] at h
  exact @seek_eq_some K _ _ (.exact K) _ (Rounding.lawful_exact K) _ _ _ _ h h0

omit [IsOrderedAddMonoid K] in
/-- What is left of a point is what the weights before its place do not use up. -/
theorem pick_rest {t r : K} {ws : List K} {i : Nat} (h : pick t ws = some (i, r)) : (ws.take i).sum + r = t := by
  induction ws generalizing t i with
  | nil => cases h
  | cons w ws ih =>
    unfold pick at h
    split at h
    · cases h
      simp
    · obtain ⟨⟨j, r'⟩, hp, heq⟩ := Option.map_eq_some_iff.1 h
      cases heq
      have hrest := ih hp
      rw [List.take_succ_cons, List.sum_cons, add_assoc, hrest, add_sub_cancel]

/-- **A point is found where the prefix sums reach beyond it.** -/
theorem pick_prefix {t r : K} {ws : List K} {i : Nat} (h : pick t ws = some (i, r)) (h0 : 0 ≤ t) :
    (ws.take i).sum ≤ t ∧ t < (ws.take (i + 1)).sum := by
  obtain ⟨hr, w, hw, hlt⟩ := pick_eq_some h h0
  have hrest := pick_rest h
  constructor
  · rw [← hrest]
    exact le_add_of_nonneg_right hr
  · rw [List.take_add_one, hw, List.sum_append, ← hrest]
    simpa using hlt

theorem sum_take_mono {ws : List K} (hnonneg : ∀ w ∈ ws, 0 ≤ w) {i j : Nat} (hij : i ≤ j) :
    (ws.take i).sum ≤ (ws.take j).sum := by
  obtain ⟨k, rfl⟩ := Nat.exists_eq_add_of_le hij
  rw [List.take_add, List.sum_append]
  apply le_add_of_nonneg_right
  apply List.sum_nonneg
  intro w hw
  exact hnonneg w (List.mem_of_mem_drop (List.mem_of_mem_take hw))

/-- A place that moves the prefix sum on has a weight. -/
theorem exists_pos_of_prefix {t : K} {ws : List K} {i : Nat} (h : (ws.take i).sum ≤ t ∧ t < (ws.take (i + 1)).sum) :
    ∃ w, ws[i]? = some w ∧ 0 < w := by
  have hlt := h.1.trans_lt h.2
  rw [List.take_add_one, List.sum_append] at hlt
  have hpos := pos_of_lt_add_right hlt
  cases hw : ws[i]? with
  | none => simp [hw] at hpos
  | some w => exact ⟨w, rfl, by simpa [hw] using hpos⟩

/-- Without negative weights a point lies between the prefix sums of one place only. -/
theorem prefix_unique {t : K} {ws : List K} (hnonneg : ∀ w ∈ ws, 0 ≤ w) {i j : Nat}
    (hi : (ws.take i).sum ≤ t ∧ t < (ws.take (i + 1)).sum) (hj : (ws.take j).sum ≤ t ∧ t < (ws.take (j + 1)).sum) :
    i = j := by
  have hle : ∀ {k l : Nat}, (ws.take k).sum ≤ t → t < (ws.take (l + 1)).sum → k ≤ l := by
    intro k l hk hl
    by_contra hlt
    exact absurd ((sum_take_mono hnonneg (not_le.1 hlt)).trans hk) (not_le.2 hl)
  exact le_antisymm (hle hi.1 hj.2) (hle hj.1 hi.2)

end Pick

/-! ## Blocks -/

section Blocks

variable {K : Type*} [AddCommGroup K]

/-- The sum of the `j`-th block of `n` weights. -/
def blockSum (n : Nat) (ws : List K) (j : Nat) : K := ((ws.drop (j * n)).take n).sum

theorem sum_set {ws : List K} {i : Nat} {w : K} (hi : ws[i]? = some w) (v : K) :
    (ws.set i v).sum = ws.sum + (v - w) := by
  obtain ⟨hlt, hget⟩ := List.getElem?_eq_some_iff.1 hi
  rw [List.sum_set', dif_pos hlt, hget]
  abel

/-- Setting one weight changes the sum of its block and no other. -/
theorem blockSum_set {n : Nat} (hn : 0 < n) {ws : List K} {i : Nat} {w : K} (hi : ws[i]? = some w) (v : K) (j : Nat) :
    blockSum n (ws.set i v) j = blockSum n ws j + if j = i / n then v - w else 0 := by
  unfold blockSum
  have hdiv : j = i / n ↔ j * n ≤ i ∧ i < j * n + n := by
    rw [eq_comm, Nat.div_eq_iff hn]
    omega
  rw [List.drop_set]
  by_cases hlo : i < j * n
  · have hne : ¬j = i / n := by
      rw [hdiv]
      omega
    simp [hlo, hne]
  · rw [if_neg hlo, List.take_set]
    by_cases hhi : i - j * n < n
    · have heq : j = i / n := by
        rw [hdiv]
        omega
      have hget : ((ws.drop (j * n)).take n)[i - j * n]? = some w := by
        rw [List.getElem?_take_of_lt hhi, List.getElem?_drop, Nat.add_sub_cancel' (not_lt.1 hlo), hi]
      rw [sum_set hget, if_pos heq]
    · have hne : ¬j = i / n := by
        rw [hdiv]
        omega
      have hlen : ((ws.drop (j * n)).take n).length ≤ i - j * n := by
        rw [List.length_take]
        omega
      rw [List.set_eq_of_length_le hlen, if_neg hne, add_zero]

theorem blockSum_snoc_zero (n : Nat) (ws : List K) (j : Nat) : blockSum n (ws ++ [0]) j = blockSum n ws j := by
  unfold blockSum
  rw [List.drop_append, List.take_append, List.sum_append]
  have hzero : ∀ k l, ((([0] : List K).drop k).take l).sum = 0 := by
    intro k l
    cases k <;> cases l <;> simp
  rw [hzero, add_zero]

/-- The first `j` blocks together are a prefix of the wheel. -/
theorem sum_blockSum (n : Nat) (ws : List K) (j : Nat) :
    ((List.range j).map (blockSum n ws)).sum = (ws.take (j * n)).sum := by
  induction j with
  | zero => simp
  | succ j ih =>
    rw [List.range_succ, List.map_append, List.sum_append, ih, Nat.succ_mul, List.take_add, List.sum_append]
    simp [blockSum]

end Blocks

end Lsf.Lib
