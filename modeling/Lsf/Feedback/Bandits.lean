import Lsf.Feedback.Mab
import Mathlib.Algebra.Order.Field.Rat

/-!
# Shared bandits

The bodies and arms behind the `Arc`s that schedulers, strategies and entries share, each known by its number. Scores
are exact here, so the field is `ℚ`; the functions that it does not have stay a parameter (`FloatFns ℚ`).
-/

namespace Lsf.Feedback

open Lsf.Core

/-- The cells that the references point to; `nextArm` is the first number that is not in use. -/
structure Bandits where
  body : BodyRef → MABBody ℚ
  arm : ArmRef → BodyRef × MABArm ℚ
  nextArm : ArmRef

namespace Bandits

/-- `n` new bodies and no arms. -/
def new : Bandits := ⟨fun _ => .new, fun _ => (0, .new .new), 0⟩

def setBody (h : Bandits) (b : BodyRef) (body : MABBody ℚ) : Bandits :=
  { h with body := Function.update h.body b body }

def setArm (h : Bandits) (a : ArmRef) (arm : MABArm ℚ) : Bandits :=
  { h with arm := Function.update h.arm a ((h.arm a).1, arm) }

/-- `Arc::new` of an arm. -/
def alloc (h : Bandits) (b : BodyRef) (arm : MABArm ℚ) : ArmRef × Bandits :=
  (h.nextArm, { h with arm := Function.update h.arm h.nextArm (b, arm), nextArm := h.nextArm + 1 })

def epoch (h : Bandits) (b : BodyRef) : UInt32 := (h.body b).epoch

def newArm (h : Bandits) (b : BodyRef) : ArmRef × Bandits := h.alloc b (.new (h.body b))

def newArmWithPrior (h : Bandits) (b : BodyRef) (m : Meta) : ArmRef × Bandits :=
  let (body, arm) := MABArm.newWithPrior (h.body b) m
  (h.setBody b body).alloc b arm

def tickBy (h : Bandits) (b : BodyRef) (n : UInt32) : Bandits := h.setBody b ((h.body b).tickBy n)

def resetBody (h : Bandits) (b : BodyRef) : Bandits := h.setBody b (h.body b).reset

def onExec (h : Bandits) (a : ArmRef) (outcome : TestOutcome) (m : Meta) : Bandits :=
  h.setArm a ((h.arm a).2.onExec (h.body (h.arm a).1) outcome m)

def onMutate (h : Bandits) (a : ArmRef) (outcome : TestOutcome) : Bandits :=
  let (body, arm) := (h.arm a).2.onMutate (h.body (h.arm a).1) outcome
  (h.setBody (h.arm a).1 body).setArm a arm

/-- `fire_rule_hooks`: every hook is told, and the entry has none left. -/
def fireRuleHooks {T : Type} (h : Bandits) (entry : TestableEntry T) (outcome : TestOutcome) (m : Meta) :
    TestableEntry T × Bandits :=
  ({ entry with appliedRuleStats := [] }, entry.appliedRuleStats.foldl (fun h a => h.onExec a outcome m) h)

/-- `fire_parent_hooks`. -/
def fireParentHooks {T : Type} (h : Bandits) (entry : TestableEntry T) (outcome : TestOutcome) : Bandits :=
  entry.parentStats.foldl (fun h a => h.onMutate a outcome) h

@[simp] theorem nextArm_fireRuleHooks {T : Type} (h : Bandits) (entry : TestableEntry T) (outcome : TestOutcome)
    (m : Meta) : (h.fireRuleHooks entry outcome m).2.nextArm = h.nextArm := by
  unfold fireRuleHooks
  dsimp only
  induction entry.appliedRuleStats generalizing h with
  | nil => rfl
  | cons b hooks ih => exact ih (h.onExec b outcome m)

/-- Hooks that are told of an execution leave the bodies and the other arms alone. -/
theorem fireRuleHooks_spec {T : Type} (h : Bandits) (entry : TestableEntry T) (outcome : TestOutcome) (m : Meta) :
    (h.fireRuleHooks entry outcome m).2.body = h.body ∧
      ∀ a ∉ entry.appliedRuleStats, (h.fireRuleHooks entry outcome m).2.arm a = h.arm a := by
  unfold fireRuleHooks
  dsimp only
  induction entry.appliedRuleStats generalizing h with
  | nil => exact ⟨rfl, fun _ _ => rfl⟩
  | cons b hooks ih =>
    obtain ⟨hbody, harm⟩ := ih (h.onExec b outcome m)
    refine ⟨hbody, fun a ha => ?_⟩
    obtain ⟨hab, ha⟩ := not_or.1 (mt List.mem_cons.2 ha)
    rw [List.foldl_cons, harm a ha]
    exact Function.update_of_ne hab _ _

variable [FloatFns ℚ]

def calculateScore (h : Bandits) (a : ArmRef) : ℚ × Bandits :=
  let (score, arm) := (h.arm a).2.calculateScore (h.body (h.arm a).1)
  (score, h.setArm a arm)

theorem minWeight_le_calculateScore (h : Bandits) (a : ArmRef) : minWeight ℚ ≤ (h.calculateScore a).1 :=
  (MABArm.calculateScore_mem_Icc _ _).1

theorem calculateScore_le_maxWeight (h : Bandits) (a : ArmRef) : (h.calculateScore a).1 ≤ maxWeight ℚ :=
  (MABArm.calculateScore_mem_Icc _ _).2

/-- Scoring changes no score. -/
@[simp] theorem calculateScore_calculateScore (h : Bandits) (a b : ArmRef) :
    ((h.calculateScore b).2.calculateScore a).1 = (h.calculateScore a).1 := by
  by_cases hab : a = b
  · subst hab
    simp [calculateScore, setArm, MABArm.calculateScore, MABArm.normalize_normalize]
  · simp [calculateScore, setArm, hab]

/-- A new arm leaves the scores of the others alone. -/
theorem calculateScore_newArm {h : Bandits} {a : ArmRef} (ha : a < h.nextArm) (b : BodyRef) :
    ((h.newArm b).2.calculateScore a).1 = (h.calculateScore a).1 := by
  have hne : a ≠ h.nextArm := ha.ne
  simp [calculateScore, newArm, alloc, hne]

end Bandits

end Lsf.Feedback
