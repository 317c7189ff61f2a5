import Mathlib.Data.Prod.Lex
import Mathlib.Order.OrderDual
import Mathlib.Algebra.Order.Ring.Rat
import Mathlib.Data.Nat.Cast.Order.Ring

/-!
# Scores

The `f64` values as far as scores go: rationals, the infinities and NaN (the two zeros are one value). There are two
orders on them: the comparison `<` of the language, which is false as soon as a NaN takes part, and the total order of
`OrderedFloat` and `total_cmp`, in which NaN is the greatest value. The functions that an ordered field does not have
are a class.
-/

namespace Lsf.Core

inductive F64 where
  | negInf
  | fin (x : ℚ)
  | posInf
  | nan
  deriving DecidableEq, Repr

namespace F64

/-- The place of a value in the total order. -/
def rank : F64 → ℕ ×ₗ ℚ
  | negInf => toLex (0, 0)
  | fin x => toLex (1, x)
  | posInf => toLex (2, 0)
  | nan => toLex (3, 0)

theorem rank_injective : Function.Injective rank := by
  intro a b h
  cases a <;> cases b <;> simp_all [rank]

/-- The order of `OrderedFloat`. -/
instance : LinearOrder F64 := LinearOrder.lift' rank rank_injective

/-- `<` on `f64`. -/
def ltIeee (a b : F64) : Bool := a ≠ nan && b ≠ nan && decide (a < b)

/-- `Reverse<OrderedFloat<f64>>`: the greatest priority is the least score. -/
abbrev Reverse := F64ᵒᵈ

def reverse (x : F64) : Reverse := OrderDual.toDual x

/-- `worst_score.0.into()`. -/
def ofReverse (p : Reverse) : F64 := OrderDual.ofDual p

@[simp] theorem ofReverse_reverse (x : F64) : ofReverse (reverse x) = x := rfl

theorem reverse_le_reverse {x y : F64} : reverse x ≤ reverse y ↔ y ≤ x := Iff.rfl

example : ltIeee (fin 1) nan = false ∧ fin 1 < nan ∧ ltIeee negInf (fin (-3)) = true := by decide

end F64

/-! ## Functions -/

/-- The functions of `f64` that scores use; `none` is NaN. -/
class FloatFns (K : Type) where
  ln : K → K
  ln1p : K → Option K
  sqrt : K → Option K

/-- The tangents of the functions where fresh arms ask for them: `ln` at one, the others at zero. -/
@[reducible] def FloatFns.tangent : FloatFns ℚ where
  ln x := x - 1
  ln1p x := some x
  sqrt x := some x

/-- `ln_1p` is positive on the positive integers. -/
class LawfulLog [FloatFns ℚ] : Prop where
  ln1p_pos : ∀ n : Nat, 0 < n → ∃ x, FloatFns.ln1p (n : ℚ) = some x ∧ 0 < x

theorem LawfulLog.tangent : @LawfulLog FloatFns.tangent :=
  @LawfulLog.mk FloatFns.tangent fun n h => ⟨n, rfl, Nat.cast_pos.2 h⟩

end Lsf.Core
