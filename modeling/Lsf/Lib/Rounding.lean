import Mathlib.Algebra.BigOperators.Group.List.Basic
import Mathlib.Algebra.Order.Field.Rat
import Mathlib.Data.Int.Log
import Mathlib.Data.Rat.Floor

/-!
# Rounded arithmetic

A number format computes the exact sum or difference and rounds it. `Rounding` is what it does to the exact result:
nothing in exact arithmetic, and `binary64` rounds to the nearest number of 53 significant bits. Sums of lists are taken
in rounded steps, from the left.
-/

namespace Lsf.Lib

/-- The rounding of exact results. -/
class Rounding (K : Type*) where
  round : K → K

/-- What is not negative is not rounded to something that is. -/
class LawfulRounding (K : Type*) [Zero K] [LE K] [Rounding K] : Prop where
  round_nonneg : ∀ x : K, 0 ≤ x → 0 ≤ Rounding.round x

/-! ## Formats -/

namespace Rounding

@[reducible] def exact (K : Type*) : Rounding K := ⟨id⟩

theorem lawful_exact (K : Type*) [Zero K] [LE K] : @LawfulRounding K _ _ (exact K) :=
  @LawfulRounding.mk K _ _ (exact K) fun _ h => h

/-- The nearest integer, and the even one of two that are equally near. -/
def halfEven (x : ℚ) : ℤ :=
  if Int.fract x < 1 / 2 ∨ Int.fract x = 1 / 2 ∧ ⌊x⌋ % 2 = 0 then ⌊x⌋ else ⌊x⌋ + 1

theorem halfEven_nonneg {x : ℚ} (h : 0 ≤ x) : 0 ≤ halfEven x := by
  have hfloor : 0 ≤ ⌊x⌋ := Int.floor_nonneg.2 h
  unfold halfEven
  split <;> omega

/-- The distance between neighbours of the format at `x`. -/
def ulp (x : ℚ) : ℚ := 2 ^ max (Int.log 2 |x| - 52) (-1074)

/-- Binary floating point of 64 bits, below its overflow. -/
@[reducible] def binary64 : Rounding ℚ := ⟨fun x => halfEven (x / ulp x) * ulp x⟩

theorem lawful_binary64 : @LawfulRounding ℚ _ _ binary64 := by
  refine @LawfulRounding.mk ℚ _ _ binary64 fun x h => ?_
  have hulp : 0 ≤ ulp x := zpow_nonneg two_pos.le _
  exact mul_nonneg (Int.cast_nonneg (halfEven_nonneg (div_nonneg h hulp))) hulp

/-- `0.1 + 0.2 != 0.3` -/
example : binary64.round (binary64.round (1 / 10) + binary64.round (1 / 5)) ≠ binary64.round (3 / 10) := by
  decide +kernel

end Rounding

/-! ## Sums -/

section Sums

variable {K : Type*} [AddCommGroup K]

def roundedSum [Rounding K] (ws : List K) : K := ws.foldl (fun s w => Rounding.round (s + w)) 0

/-- What the weights leave of a point. -/
def roundedRest [Rounding K] (t : K) (ws : List K) : K := ws.foldl (fun t w => Rounding.round (t - w)) t

theorem roundedSum_exact (ws : List K) : @roundedSum K _ (.exact K) ws = ws.sum := List.sum_eq_foldl.symm

end Sums

end Lsf.Lib
