import Lsf.Feedback.Decay

/-!
# Feedback has weight

A body between one and the rescaling factor gives weight to every mutation, and ticks and resets keep it there; a body
at zero is kept at zero by every tick. So whether feedback has weight all along a run is decided by the constructor
(`weighty_iff`): the derived `Default` of a body, which schedulers use for their own, starts at zero.
-/

namespace Lsf.Feedback

open Lsf.Core Lsf.Lib

/-- The public ways to a body. -/
inductive BodyOrigin (K : Type) where
  | new
  | newWithConfig (config : MABConfig K)
  | default
  /-- The derived `Default`. -/
  | adaptiveWeightedRandomScheduler
  | probabilisticMabScheduler
  | mabScheduler

inductive BodyOp where
  | tick
  | reset

namespace MABBody

section Runs

variable {K : Type} [Field K] [LinearOrder K]

def ofOrigin : BodyOrigin K → MABBody K
  | .new => .new
  | .newWithConfig config => (new : MABBody K).withConfig config
  | .default => .default
  | .adaptiveWeightedRandomScheduler => .default
  | .probabilisticMabScheduler => .default
  | .mabScheduler => .default

def step (b : MABBody K) : BodyOp → Option (MABBody K)
  | .tick => some (b.tickBy 1)
  | .reset => some b.reset

/-- The inflation has not run out, and every mutation adds to the attempts of its arm and to those of the body. -/
structure Weighty (b : MABBody K) : Prop where
  one_le : 1 ≤ b.currentInflation
  lt : b.currentInflation < rescaleFactor K
  counts : ∀ (arm : MABArm K) (outcome : TestOutcome), outcome = .mutated ∨ outcome = .noop →
    arm.count .attempts < (arm.onMutate b outcome).2.count .attempts ∧
      b.totalAttempts < (arm.onMutate b outcome).1.totalAttempts

end Runs

section Weight

variable {K : Type} [Field K] {b b' : MABBody K}

/-- What a mutation adds is the inflation. -/
theorem onMutate_adds (b : MABBody K) (arm : MABArm K) {outcome : TestOutcome}
    (h : outcome = .mutated ∨ outcome = .noop) :
    (arm.onMutate b outcome).2.count .attempts = arm.count .attempts + b.currentInflation ∧
      (arm.onMutate b outcome).1.totalAttempts = b.totalAttempts + b.currentInflation := by
  constructor
  · rw [MABArm.count_onMutate, MABArm.mutateAmount, if_pos h, one_mul]
  · rcases h with rfl | rfl
    · exact congrArg (b.totalAttempts + ·) (one_mul _)
    · exact congrArg (b.totalAttempts + ·) (one_mul _)

variable [LinearOrder K]

/-- A body at zero stays there until it is reset. -/
theorem currentInflation_tickBy_of_zero (h : b.currentInflation = 0) : (b.tickBy 1).currentInflation = 0 := by
  rcases BanditRun.tickBy_one b with ⟨-, hinfl, -⟩ | ⟨-, hinfl, -⟩
  · rw [hinfl, h, zero_div]
  · rw [hinfl, h, zero_div, zero_div]

/-- **A body that starts at zero learns nothing**: no mutation is ever counted as long as nobody resets it. -/
theorem weightless (n : Nat) (arm : MABArm K) (outcome : TestOutcome) :
    ∃ b, run step (default : MABBody K) (List.replicate n .tick) = some b ∧
      ∀ c, (arm.onMutate b outcome).2.count c = arm.count c := by
  have hall : ∃ b, run step (default : MABBody K) (List.replicate n .tick) = some b ∧ b.currentInflation = 0 := by
    refine exists_run (F := fun _ op => op = .tick) (fun b op hzero hop => ?_) rfl
      (allSteps_of_forall fun _ op hop => List.eq_of_mem_replicate hop)
    subst hop
    exact ⟨_, rfl, currentInflation_tickBy_of_zero hzero⟩
  obtain ⟨b, hrun, hzero⟩ := hall
  refine ⟨b, hrun, fun c => ?_⟩
  rw [MABArm.count_onMutate, hzero, mul_zero, add_zero]

variable [IsStrictOrderedRing K]

/-- The bounds are all that weight needs. -/
theorem weighty_of_bounds (hone : 1 ≤ b.currentInflation) (hlt : b.currentInflation < rescaleFactor K) : Weighty b where
  one_le := hone
  lt := hlt
  counts arm outcome h := by
    obtain ⟨hattempts, htotal⟩ := onMutate_adds b arm h
    have hpos : 0 < b.currentInflation := zero_lt_one.trans_le hone
    exact ⟨hattempts ▸ lt_add_of_pos_right _ hpos, htotal ▸ lt_add_of_pos_right _ hpos⟩

/-- **A tick or a reset keeps the weight.** -/
theorem Weighty.step (h : Weighty b) (op : BodyOp) (hs : MABBody.step b op = some b') : Weighty b' := by
  cases op with
  | tick =>
    cases hs
    obtain ⟨hone, hlt⟩ := BanditRun.inflation_bounds h.one_le h.lt
    rcases BanditRun.tickBy_one b with ⟨hno, hinfl, -⟩ | ⟨hres, hinfl, -⟩
    · exact weighty_of_bounds (hinfl ▸ hone) (hinfl ▸ hno)
    · refine weighty_of_bounds ?_ (hinfl ▸ hlt)
      rw [hinfl, le_div_iff₀ rescaleFactor_pos, one_mul]
      exact hres
  | reset =>
    cases hs
    exact weighty_of_bounds le_rfl one_lt_rescaleFactor

end Weight

/-- **Feedback has weight** all along a run exactly when the body was made by `new`, with or without a configuration. -/
theorem weighty_iff (origin : BodyOrigin ℝ) (ops : List BodyOp) :
    AllStates step Weighty (ofOrigin origin) ops ↔ origin = .new ∨ ∃ config, origin = .newWithConfig config := by
  have hdefault : ¬AllStates step Weighty (default : MABBody ℝ) ops := by
    intro hall
    have hone : (1 : ℝ) ≤ 0 := hall.head.one_le
    exact absurd hone (by norm_num)
  have hnew : ∀ b : MABBody ℝ, b.currentInflation = 1 → AllStates step Weighty b ops := by
    intro b hb
    have h0 : Weighty b := weighty_of_bounds hb.ge (hb ▸ one_lt_rescaleFactor)
    exact allStates_of_invariant (F := fun _ _ => True) (fun _ h => h) (fun _ op _ h _ hs => h.step op hs) h0
      (allSteps_of_forall fun _ _ _ => trivial)
  cases origin with
  | new => exact iff_of_true (hnew _ rfl) (.inl rfl)
  | newWithConfig config => exact iff_of_true (hnew _ rfl) (.inr ⟨config, rfl⟩)
  | default => exact iff_of_false hdefault (by simp)
  | adaptiveWeightedRandomScheduler => exact iff_of_false hdefault (by simp)
  | probabilisticMabScheduler => exact iff_of_false hdefault (by simp)
  | mabScheduler => exact iff_of_false hdefault (by simp)

/-- A scheduler that builds its own body: after a tick a mutation still adds nothing. -/
theorem default_not_weighty :
    ¬AllStates step Weighty (ofOrigin (.probabilisticMabScheduler : BodyOrigin ℝ)) [.tick] ∧
      ((MABArm.new default).onMutate ((default : MABBody ℝ).tickBy 1) .mutated).2.count .attempts = 0 := by
  constructor
  · intro hall
    have hone : (1 : ℝ) ≤ 0 := hall.head.one_le
    exact absurd hone (by norm_num)
  · obtain ⟨_, hrun, hcount⟩ := weightless (K := ℝ) 1 (.new default) .mutated
    cases hrun
    exact hcount .attempts

end MABBody

end Lsf.Feedback
