import Lsf.Core.F64
import Lsf.Engine.MabScheduler

/-!
# The order of the heap items

`Ord` and `PartialEq` of `SchedueldItem` (`mab.rs`). Two items are compared by their scores, and by their epochs where a
NaN makes the scores incomparable; but they are equal if their scores are or their epochs are. The laws of an order hold
of three items exactly if equal epochs come with equal scores, and no NaN stands between two scores against their order
(`lawful_iff`). The scores of the schedulers are finite, so that among them the order is that of the scores (`cmp_key`).
-/

namespace Lsf.Core.F64

/-- `partial_cmp` on `f64`. -/
def partialCmp (a b : F64) : Option Ordering := if a = nan ∨ b = nan then none else some (compare a b)

/-- `==` on `f64`. -/
def eqIeee (a b : F64) : Bool := a ≠ nan && b ≠ nan && decide (a = b)

theorem fin_lt_fin {x y : ℚ} : fin x < fin y ↔ x < y := by
  change rank (fin x) < rank (fin y) ↔ x < y
  simp [rank, Prod.Lex.toLex_lt_toLex]

theorem compare_fin (x y : ℚ) : compare (fin x) (fin y) = compare x y := by
  rcases lt_trichotomy x y with h | h | h
  · rw [compare_lt_iff_lt.2 h, compare_lt_iff_lt.2 (fin_lt_fin.2 h)]
  · rw [h, compare_eq_iff_eq.2 rfl, compare_eq_iff_eq.2 rfl]
  · rw [compare_gt_iff_gt.2 h, compare_gt_iff_gt.2 (fin_lt_fin.2 h)]

theorem eqIeee_iff {a b : F64} : eqIeee a b = true ↔ a ≠ nan ∧ b ≠ nan ∧ a = b := by simp [eqIeee, and_assoc]

end Lsf.Core.F64

namespace Lsf.Engine

open Lsf.Core

/-- What the comparison of items reads, with any `f64` for a score. -/
structure SchedueldItem.Key where
  score : F64
  epoch : UInt32
deriving DecidableEq, Repr

namespace SchedueldItem.Key

/-- `Ord::cmp`: older targets are recalculated first. -/
def cmp (a b : Key) : Ordering := (a.score.partialCmp b.score).getD (compare b.epoch.toNat a.epoch.toNat)

/-- `PartialEq::eq`. -/
def eq (a b : Key) : Bool := a.score.eqIeee b.score || a.epoch == b.epoch

/-- What `Ord` and `Eq` promise of three items. -/
structure Lawful (a b c : Key) : Prop where
  reflexive : cmp a a = .eq
  antisymmetric : cmp a b = (cmp b a).swap
  transitive : (cmp a b).isLE → (cmp b c).isLE → (cmp a c).isLE
  eq_iff : eq a b = true ↔ cmp a b = .eq

/-- Items of one epoch have one score, as far as their scores can be compared. -/
def Agree (a b : Key) : Prop := a.epoch = b.epoch → a.score ≠ .nan → b.score ≠ .nan → a.score = b.score

/-- Where just one of three scores is a NaN, the epochs do not contradict the other two. -/
structure Untorn (a b c : Key) : Prop where
  first : a.score = .nan → b.score ≠ .nan → c.score ≠ .nan → b.score ≤ c.score → b.epoch ≤ a.epoch → c.epoch ≤ a.epoch
  middle : a.score ≠ .nan → b.score = .nan → c.score ≠ .nan → b.epoch ≤ a.epoch → c.epoch ≤ b.epoch → a.score ≤ c.score
  last : a.score ≠ .nan → b.score ≠ .nan → c.score = .nan → a.score ≤ b.score → c.epoch ≤ b.epoch → c.epoch ≤ a.epoch

variable {a b c : Key}

theorem isLE_compare {α : Type} [LinearOrder α] {x y : α} : (compare x y).isLE ↔ x ≤ y := by
  rw [Ordering.isLE_iff_ne_gt]
  exact (not_congr compare_gt_iff_gt).trans not_lt

/-! ## One comparison -/

theorem cmp_of_nan (h : a.score = .nan ∨ b.score = .nan) : cmp a b = compare b.epoch.toNat a.epoch.toNat := by
  unfold cmp F64.partialCmp
  rw [if_pos h, Option.getD_none]

theorem cmp_of_ne (ha : a.score ≠ .nan) (hb : b.score ≠ .nan) : cmp a b = compare a.score b.score := by
  unfold cmp F64.partialCmp
  rw [if_neg (not_or.2 ⟨ha, hb⟩), Option.getD_some]

theorem isLE_of_nan (h : a.score = .nan ∨ b.score = .nan) : (cmp a b).isLE ↔ b.epoch ≤ a.epoch := by
  rw [cmp_of_nan h, isLE_compare, UInt32.le_iff_toNat_le]

theorem isLE_of_ne (ha : a.score ≠ .nan) (hb : b.score ≠ .nan) : (cmp a b).isLE ↔ a.score ≤ b.score := by
  rw [cmp_of_ne ha hb, isLE_compare]

theorem cmp_self (a : Key) : cmp a a = .eq := by
  by_cases ha : a.score = .nan
  · rw [cmp_of_nan (.inl ha), compare_eq_iff_eq]
  · rw [cmp_of_ne ha ha, compare_eq_iff_eq]

theorem cmp_swap (a b : Key) : cmp a b = (cmp b a).swap := by
  by_cases h : a.score = .nan ∨ b.score = .nan
  · rw [cmp_of_nan h, cmp_of_nan h.symm]
    exact Std.OrientedOrd.eq_swap
  · obtain ⟨ha, hb⟩ := not_or.1 h
    rw [cmp_of_ne ha hb, cmp_of_ne hb ha]
    exact Std.OrientedOrd.eq_swap

/-- **Equality is coarser than the order**, and no coarser exactly if the items agree. -/
theorem eq_iff_cmp : (eq a b = true ↔ cmp a b = .eq) ↔ Agree a b := by
  unfold eq Agree
  rw [Bool.or_eq_true, beq_iff_eq, F64.eqIeee_iff]
  by_cases h : a.score = .nan ∨ b.score = .nan
  · rw [cmp_of_nan h, compare_eq_iff_eq, UInt32.toNat_inj]
    refine iff_of_true ⟨?_, fun hepoch => .inr hepoch.symm⟩ fun _ ha hb => (h.elim ha hb).elim
    rintro (⟨ha, hb, -⟩ | hepoch)
    · exact (h.elim ha hb).elim
    · exact hepoch.symm
  · obtain ⟨ha, hb⟩ := not_or.1 h
    rw [cmp_of_ne ha hb, compare_eq_iff_eq]
    constructor
    · exact fun hall hepoch _ _ => hall.1 (.inr hepoch)
    · refine fun hagree => ⟨?_, fun hscore => .inl ⟨ha, hb, hscore⟩⟩
      rintro (⟨-, -, hscore⟩ | hepoch)
      · exact hscore
      · exact hagree hepoch ha hb

/-- **Where transitivity fails**: one NaN among three scores. -/
theorem trans_iff : ((cmp a b).isLE → (cmp b c).isLE → (cmp a c).isLE) ↔ Untorn a b c := by
  constructor
  · intro htrans
    refine ⟨fun ha hb hc hscore hepoch => ?_, fun ha hb hc hab hbc => ?_, fun ha hb hc hscore hepoch => ?_⟩
    · rw [← isLE_of_nan (.inl ha)]
      exact htrans ((isLE_of_nan (.inl ha)).2 hepoch) ((isLE_of_ne hb hc).2 hscore)
    · rw [← isLE_of_ne ha hc]
      exact htrans ((isLE_of_nan (.inr hb)).2 hab) ((isLE_of_nan (.inl hb)).2 hbc)
    · rw [← isLE_of_nan (.inr hc)]
      exact htrans ((isLE_of_ne ha hb).2 hscore) ((isLE_of_nan (.inr hc)).2 hepoch)
  · intro h hab hbc
    by_cases ha : a.score = .nan
    · rw [isLE_of_nan (.inl ha)] at hab ⊢
      by_cases hbc' : b.score = .nan ∨ c.score = .nan
      · exact UInt32.le_trans ((isLE_of_nan hbc').1 hbc) hab
      · obtain ⟨hb, hc⟩ := not_or.1 hbc'
        exact h.first ha hb hc ((isLE_of_ne hb hc).1 hbc) hab
    · by_cases hb : b.score = .nan
      · rw [isLE_of_nan (.inr hb)] at hab
        rw [isLE_of_nan (.inl hb)] at hbc
        by_cases hc : c.score = .nan
        · exact (isLE_of_nan (.inr hc)).2 (UInt32.le_trans hbc hab)
        · exact (isLE_of_ne ha hc).2 (h.middle ha hb hc hab hbc)
      · rw [isLE_of_ne ha hb] at hab
        by_cases hc : c.score = .nan
        · rw [isLE_of_nan (.inr hc)] at hbc ⊢
          exact h.last ha hb hc hab hbc
        · rw [isLE_of_ne hb hc] at hbc
          exact (isLE_of_ne ha hc).2 (hab.trans hbc)

/-- **The laws of an order** hold of three items exactly if the first two agree and no NaN tears the three apart. -/
theorem lawful_iff : Lawful a b c ↔ Agree a b ∧ Untorn a b c :=
  ⟨fun h => ⟨eq_iff_cmp.1 h.eq_iff, trans_iff.1 h.transitive⟩,
    fun h => ⟨cmp_self a, cmp_swap a b, trans_iff.2 h.2, eq_iff_cmp.2 h.1⟩⟩

/-- **Two items of one epoch are equal and different**, and one without a number tears two others apart. -/
theorem not_lawful_sameEpoch :
    eq ⟨.fin 1, 7⟩ ⟨.fin 2, 7⟩ = true ∧ cmp ⟨.fin 1, 7⟩ ⟨.fin 2, 7⟩ = .lt ∧
      ¬Lawful ⟨.fin 1, 7⟩ ⟨.fin 2, 7⟩ ⟨.fin 2, 7⟩ ∧
      cmp ⟨.fin 2, 9⟩ ⟨.nan, 8⟩ = .lt ∧ cmp ⟨.nan, 8⟩ ⟨.fin 1, 7⟩ = .lt ∧ cmp ⟨.fin 2, 9⟩ ⟨.fin 1, 7⟩ = .gt := by
  have heq : eq ⟨.fin 1, 7⟩ ⟨.fin 2, 7⟩ = true := by decide +kernel
  have hlt : cmp ⟨.fin 1, 7⟩ ⟨.fin 2, 7⟩ = .lt := by decide +kernel
  refine ⟨heq, hlt, fun h => ?_, by decide +kernel, by decide +kernel, by decide +kernel⟩
  have hcmp := h.eq_iff.1 heq
  rw [hlt] at hcmp
  cases hcmp

end SchedueldItem.Key

/-! ## The items of the schedulers -/

/-- What is compared of an item whose score is a number. -/
def SchedueldItem.key {T : Type} (item : SchedueldItem T) : SchedueldItem.Key := ⟨.fin item.score, item.epoch⟩

/-- **Items with finite scores are in the order of their scores.** -/
theorem SchedueldItem.cmp_key {T : Type} (x y : SchedueldItem T) :
    SchedueldItem.Key.cmp x.key y.key = compare x.score y.score := by
  rw [Key.cmp_of_ne (a := x.key) (b := y.key) nofun nofun]
  exact F64.compare_fin x.score y.score

end Lsf.Engine
